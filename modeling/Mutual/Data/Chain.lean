import Mathlib.Data.List.Nodup
import Mathlib.Logic.Relation

/-!
# Linked chains

Cells under keys `κ`, each empty or holding an element and the key of a next cell. `Chain link keys
xs` says that from the first of `keys` on the links pass through exactly `keys`, that the cells on
the way hold `xs`, and that the last cell is empty, so that there is one key more than elements.

An insertion writes the old content of a cell into a fresh cell and lets the cell point to it; a
removal writes the content of the next cell over a cell. Both are edits behind a prefix that stays
as it is, which is what `Chain.focus` provides.
-/

namespace Data

variable {κ α : Type*}

def Chain (link : κ → Option (α × κ)) : List κ → List α → Prop
  | [last], [] => link last = none
  | key :: next :: keys, x :: xs => link key = some (x, next) ∧ Chain link (next :: keys) xs
  | _, _ => False

/-- `target` is reached from `key` along the links. -/
def Reaches (link : κ → Option (α × κ)) : κ → κ → Prop :=
  Relation.ReflTransGen fun key next => ∃ x, link key = some (x, next)

namespace Chain

variable {link link' : κ → Option (α × κ)} {key fresh next : κ} {keys before after : List κ}
  {x : α} {xs : List α}

theorem length_eq : ∀ {keys : List κ} {xs : List α}, Chain link keys xs →
    keys.length = xs.length + 1
  | [_], [], _ => rfl
  | _ :: _ :: _, _ :: _, hchain => by simpa using hchain.2.length_eq

theorem of_head_eq_none (hchain : Chain link (key :: keys) xs) (hkey : link key = none) :
    keys = [] ∧ xs = [] := by
  match keys, xs, hchain with
  | [], [], _ => exact ⟨rfl, rfl⟩
  | _ :: _, _ :: _, hchain =>
      rw [hchain.1] at hkey
      cases hkey

/-- A cell that holds an element is followed by the chain from the next cell on. -/
theorem of_head_eq_some (hchain : Chain link (key :: keys) xs) (hkey : link key = some (x, next)) :
    ∃ keys' xs', keys = next :: keys' ∧ xs = x :: xs' ∧ Chain link (next :: keys') xs' := by
  match keys, xs, hchain with
  | [], [], hchain =>
      rw [show link key = none from hchain] at hkey
      cases hkey
  | _ :: keys', _ :: xs', hchain =>
      rw [hchain.1] at hkey
      cases hkey
      exact ⟨keys', xs', rfl, rfl, hchain.2⟩

theorem cons (hkey : link key = some (x, next)) (hchain : Chain link (next :: keys) xs) :
    Chain link (key :: next :: keys) (x :: xs) := ⟨hkey, hchain⟩

theorem congr : ∀ {keys : List κ} {xs : List α}, Chain link keys xs →
    (∀ k ∈ keys, link' k = link k) → Chain link' keys xs
  | [last], [], hchain, hsame => (hsame last List.mem_cons_self).trans hchain
  | key :: _ :: _, _ :: _, hchain, hsame =>
      ⟨(hsame key List.mem_cons_self).trans hchain.1,
        hchain.2.congr fun k hk => hsame k (List.mem_cons_of_mem key hk)⟩

/-- The first cell of a chain may be any cell with its content. -/
theorem rehead (hchain : Chain link (key :: keys) xs) (hfresh : link' fresh = link key)
    (hsame : ∀ k ∈ keys, link' k = link k) : Chain link' (fresh :: keys) xs := by
  match keys, xs, hchain with
  | [], [], hchain => exact hfresh.trans hchain
  | _ :: _, _ :: _, hchain => exact ⟨hfresh.trans hchain.1, hchain.2.congr hsame⟩

/-- **Focus.** A chain can be edited from any of its cells on, the part before it being kept. -/
theorem focus : ∀ (before : List κ) {xs : List α}, Chain link (before ++ key :: after) xs →
    ∃ xs₁ xs₂, xs = xs₁ ++ xs₂ ∧ Chain link (key :: after) xs₂ ∧
      ∀ {link' : κ → Option (α × κ)} {after' : List κ} {xs₂' : List α},
        (∀ k ∈ before, link' k = link k) → Chain link' (key :: after') xs₂' →
        Chain link' (before ++ key :: after') (xs₁ ++ xs₂')
  | [], xs, hchain => ⟨[], xs, rfl, hchain, fun _ hedit => hedit⟩
  | [first], x :: xs, hchain => by
      obtain ⟨xs₁, xs₂, rfl, hrest, hedit⟩ := focus [] hchain.2
      exact ⟨x :: xs₁, xs₂, rfl, hrest, fun hsame hafter =>
        ⟨(hsame first List.mem_cons_self).trans hchain.1, hedit (by simp) hafter⟩⟩
  | first :: second :: before, x :: xs, hchain => by
      obtain ⟨xs₁, xs₂, rfl, hrest, hedit⟩ := focus (second :: before) hchain.2
      exact ⟨x :: xs₁, xs₂, rfl, hrest, fun hsame hafter =>
        ⟨(hsame first List.mem_cons_self).trans hchain.1,
          hedit (fun k hk => hsame k (List.mem_cons_of_mem first hk)) hafter⟩⟩

theorem first_kept {first : κ} (hsplit : first :: keys = before ++ key :: after) (rest : List κ) :
    ∃ keys', before ++ key :: rest = first :: keys' := by
  cases before with
  | nil =>
      cases hsplit
      exact ⟨rest, rfl⟩
  | cons head before =>
      cases hsplit
      exact ⟨before ++ key :: rest, rfl⟩

section Keys

theorem mem_inserted {k : κ} :
    k ∈ before ++ key :: fresh :: after ↔ k = fresh ∨ k ∈ before ++ key :: after := by
  simp only [List.mem_append, List.mem_cons]
  constructor
  · rintro (hbefore | rfl | rfl | hafter)
    · exact .inr (.inl hbefore)
    · exact .inr (.inr (.inl rfl))
    · exact .inl rfl
    · exact .inr (.inr (.inr hafter))
  · rintro (rfl | hbefore | rfl | hafter)
    · exact .inr (.inr (.inl rfl))
    · exact .inl hbefore
    · exact .inr (.inl rfl)
    · exact .inr (.inr (.inr hafter))

theorem nodup_inserted (hnodup : (before ++ key :: after).Nodup)
    (hfresh : fresh ∉ before ++ key :: after) : (before ++ key :: fresh :: after).Nodup := by
  have hperm : (before ++ key :: fresh :: after).Perm (fresh :: (before ++ key :: after)) := by
    rw [List.append_cons before key after, List.append_cons before key (fresh :: after)]
    exact List.perm_middle
  exact hperm.nodup_iff.mpr (List.nodup_cons.mpr ⟨hfresh, hnodup⟩)

theorem removed_sublist :
    (before ++ key :: after).Sublist (before ++ key :: next :: after) :=
  List.Sublist.append_left ((List.sublist_cons_self ..).cons_cons key) before

end Keys

section Edit

variable [DecidableEq κ]

theorem insert_first (hchain : Chain link (key :: keys) xs) (hnodup : (key :: keys).Nodup)
    (hfresh : fresh ≠ key) (hcopy : link fresh = link key) (x : α) :
    Chain (Function.update link key (some (x, fresh))) (key :: fresh :: keys) (x :: xs) := by
  refine ⟨Function.update_self .., hchain.rehead ?_ ?_⟩
  · rw [Function.update_of_ne hfresh, hcopy]
  · intro k hk
    exact Function.update_of_ne (ne_of_mem_of_not_mem hk (List.nodup_cons.mp hnodup).1) ..

theorem remove_first (hchain : Chain link (key :: keys) xs) (hnodup : (key :: keys).Nodup)
    (hkey : link key = some (x, next)) :
    ∃ keys' xs', keys = next :: keys' ∧ xs = x :: xs' ∧
      Chain (Function.update link key (link next)) (key :: keys') xs' := by
  obtain ⟨keys', xs', rfl, rfl, hnext⟩ := hchain.of_head_eq_some hkey
  refine ⟨keys', xs', rfl, rfl, hnext.rehead (Function.update_self ..) ?_⟩
  intro k hk
  have hmem : k ∈ next :: keys' := List.mem_cons_of_mem next hk
  exact Function.update_of_ne (ne_of_mem_of_not_mem hmem (List.nodup_cons.mp hnodup).1) ..

/-- **Insertion.** A cell of the chain gets a new element and a next cell with its old content. -/
theorem insert (hchain : Chain link (before ++ key :: after) xs)
    (hnodup : (before ++ key :: after).Nodup) (hfresh : fresh ∉ before ++ key :: after)
    (hcopy : link fresh = link key) (x : α) :
    ∃ xs₁ xs₂, xs = xs₁ ++ xs₂ ∧ Chain link (key :: after) xs₂ ∧
      Chain (Function.update link key (some (x, fresh))) (before ++ key :: fresh :: after)
        (xs₁ ++ x :: xs₂) := by
  obtain ⟨xs₁, xs₂, rfl, hrest, hedit⟩ := focus before hchain
  obtain ⟨-, hnodupAfter, hdisjoint⟩ := List.nodup_append.mp hnodup
  have hfreshKey : fresh ≠ key := by
    rintro rfl
    exact hfresh (by simp)
  refine ⟨xs₁, xs₂, rfl, hrest, hedit ?_ (hrest.insert_first hnodupAfter hfreshKey hcopy x)⟩
  intro k hk
  exact Function.update_of_ne (hdisjoint k hk key List.mem_cons_self) ..

/-- **Removal.** A cell of the chain gets the content of the next cell. -/
theorem remove (hchain : Chain link (before ++ key :: after) xs)
    (hnodup : (before ++ key :: after).Nodup) (hkey : link key = some (x, next)) :
    ∃ xs₁ xs₂ after', xs = xs₁ ++ x :: xs₂ ∧ after = next :: after' ∧
      Chain link (key :: after) (x :: xs₂) ∧
      Chain (Function.update link key (link next)) (before ++ key :: after') (xs₁ ++ xs₂) := by
  obtain ⟨xs₁, xs₂, rfl, hrest, hedit⟩ := focus before hchain
  obtain ⟨-, hnodupAfter, hdisjoint⟩ := List.nodup_append.mp hnodup
  obtain ⟨after', xs₃, rfl, rfl, hremoved⟩ := hrest.remove_first hnodupAfter hkey
  refine ⟨xs₁, xs₃, after', rfl, rfl, hrest, hedit ?_ hremoved⟩
  intro k hk
  exact Function.update_of_ne (hdisjoint k hk key List.mem_cons_self) ..

end Edit

/-- A chain does not leave a set of cells that the links do not leave. -/
theorem forall_mem {p : κ → Prop} (hclosed : ∀ k x next, link k = some (x, next) → p next) :
    ∀ {key : κ} {keys : List κ} {xs : List α}, Chain link (key :: keys) xs → p key →
      ∀ k ∈ key :: keys, p k
  | key, [], _, _, hkey, k, hk => by rwa [List.mem_singleton.mp hk]
  | key, next :: keys, x :: xs, hchain, hkey, k, hk => by
      rcases List.mem_cons.mp hk with rfl | hk
      · exact hkey
      · exact forall_mem hclosed hchain.2 (hclosed key x next hchain.1) k hk

/-- A chain is not left, and its cells hold its elements. -/
theorem mem_of_link (hchain : Chain link keys xs) (hkey : key ∈ keys)
    (hlink : link key = some (x, next)) : next ∈ keys ∧ x ∈ xs := by
  induction keys generalizing xs with
  | nil => cases hkey
  | cons first keys ih =>
      rcases List.mem_cons.mp hkey with rfl | hkey
      · obtain ⟨keys', xs', rfl, rfl, -⟩ := hchain.of_head_eq_some hlink
        exact ⟨List.mem_cons_of_mem _ List.mem_cons_self, List.mem_cons_self⟩
      · match keys, xs, hchain with
        | _ :: _, _ :: _, hchain =>
            obtain ⟨hnext, hx⟩ := ih hchain.2 hkey
            exact ⟨List.mem_cons_of_mem _ hnext, List.mem_cons_of_mem _ hx⟩

/-- The cell of an element, with the cells before it, which lead to it. -/
theorem split_at {xs₁ xs₂ : List α} (hchain : Chain link keys (xs₁ ++ x :: xs₂)) :
    ∃ before key after, keys = before ++ key :: after ∧ Chain link (key :: after) (x :: xs₂) ∧
      ∀ k ∈ before, ∃ y next, link k = some (y, next) ∧ y ∈ xs₁ ∧ (next = key ∨ next ∈ before) := by
  induction xs₁ generalizing keys with
  | nil =>
      match keys, hchain with
      | first :: keys, hchain => exact ⟨[], first, keys, rfl, hchain, by simp⟩
  | cons y xs₁ ih =>
      match keys, hchain with
      | first :: second :: keys, hchain =>
          obtain ⟨before, key, after, hsplit, hafter, hbefore⟩ := ih hchain.2
          refine ⟨first :: before, key, after, by rw [hsplit, List.cons_append], hafter, ?_⟩
          intro k hk
          rcases List.mem_cons.mp hk with rfl | hk
          · refine ⟨y, second, hchain.1, List.mem_cons_self, ?_⟩
            cases before with
            | nil =>
                cases hsplit
                exact .inl rfl
            | cons head before =>
                cases hsplit
                exact .inr (List.mem_cons_of_mem _ List.mem_cons_self)
          · obtain ⟨z, next, hlink, hz, hnext⟩ := hbefore k hk
            exact ⟨z, next, hlink, List.mem_cons_of_mem _ hz, hnext.imp_right (List.mem_cons_of_mem _)⟩

/-- The cell of the `i`-th element points to the cell after it. -/
theorem link_getElem? (hchain : Chain link keys xs) {i : Nat} (hx : xs[i]? = some x) :
    ∃ key next, keys[i]? = some key ∧ keys[i + 1]? = some next ∧ link key = some (x, next) := by
  induction i generalizing keys xs with
  | zero =>
      match keys, xs, hchain with
      | [last], [], _ => cases hx
      | first :: second :: keys, _ :: xs, hchain =>
          cases hx
          exact ⟨first, second, rfl, rfl, hchain.1⟩
  | succ i ih =>
      match keys, xs, hchain with
      | [last], [], _ => cases hx
      | first :: second :: keys, _ :: xs, hchain => exact ih hchain.2 hx

theorem link_last (hchain : Chain link keys xs) (hkey : keys[xs.length]? = some key) :
    link key = none := by
  induction xs generalizing keys with
  | nil =>
      match keys, hchain with
      | [last], hchain =>
          cases hkey
          exact hchain
  | cons x xs ih =>
      match keys, hchain with
      | first :: second :: keys, hchain => exact ih hchain.2 hkey

/-- A cell of the chain gets another element. -/
theorem set [DecidableEq κ] (hchain : Chain link keys xs) (hnodup : keys.Nodup) {i : Nat}
    (hkey : keys[i]? = some key) (hnext : keys[i + 1]? = some next) (y : α) :
    Chain (Function.update link key (some (y, next))) keys (xs.set i y) := by
  induction i generalizing keys xs with
  | zero =>
      match keys, xs, hchain with
      | [last], [], _ => cases hnext
      | first :: second :: keys, _ :: xs, hchain =>
          cases hkey
          cases hnext
          refine ⟨Function.update_self .., hchain.2.congr fun k hk => ?_⟩
          exact Function.update_of_ne (ne_of_mem_of_not_mem hk (List.nodup_cons.mp hnodup).1) ..
  | succ i ih =>
      match keys, xs, hchain with
      | [last], [], _ => cases hnext
      | first :: second :: keys, _ :: xs, hchain =>
          obtain ⟨hfirst, hrest⟩ := List.nodup_cons.mp hnodup
          refine ⟨?_, ih hchain.2 hrest hkey hnext⟩
          have hmem : key ∈ second :: keys := List.mem_of_getElem? hkey
          rw [Function.update_of_ne (ne_of_mem_of_not_mem hmem hfirst).symm]
          exact hchain.1

theorem mem_of_reaches (hchain : Chain link (key :: keys) xs) {target : κ}
    (hreaches : Reaches link key target) : target ∈ key :: keys := by
  induction hreaches using Relation.ReflTransGen.head_induction_on generalizing keys xs with
  | refl => exact List.mem_cons_self
  | head hstep _ ih =>
      obtain ⟨x, hkey⟩ := hstep
      obtain ⟨keys', xs', rfl, -, hnext⟩ := hchain.of_head_eq_some hkey
      exact List.mem_cons_of_mem _ (ih hnext)

theorem unique {keys' : List κ} {xs' : List α} (hchain : Chain link (key :: keys) xs)
    (hchain' : Chain link (key :: keys') xs') : keys = keys' ∧ xs = xs' := by
  induction keys generalizing key keys' xs xs' with
  | nil =>
      match xs, hchain with
      | [], hchain =>
          obtain ⟨rfl, rfl⟩ := hchain'.of_head_eq_none hchain
          exact ⟨rfl, rfl⟩
  | cons next keys ih =>
      match xs, hchain with
      | x :: xs, hchain =>
          obtain ⟨keys', xs', rfl, rfl, hrest⟩ := hchain'.of_head_eq_some hchain.1
          obtain ⟨rfl, rfl⟩ := ih hchain.2 hrest
          exact ⟨rfl, rfl⟩

theorem reaches : ∀ {key : κ} {keys : List κ} {xs : List α}, Chain link (key :: keys) xs →
    ∀ {target : κ}, target ∈ key :: keys → Reaches link key target
  | _, [], _, _, _, hmem => by
      rw [List.mem_singleton.mp hmem]
      exact .refl
  | _, next :: _, x :: _, hchain, _, hmem => by
      rcases List.mem_cons.mp hmem with rfl | hmem
      · exact .refl
      · exact .head ⟨x, hchain.1⟩ (hchain.2.reaches hmem)

/-- The elements before a cell are determined by those from it on. -/
theorem split_unique {xs₁ xs₂ ys₁ ys₂ : List α} (hsplit : xs₁ ++ xs₂ = ys₁ ++ ys₂)
    (hxs : Chain link (key :: after) xs₂) (hys : Chain link (key :: after) ys₂) :
    xs₁ = ys₁ ∧ xs₂ = ys₂ := by
  obtain ⟨-, rfl⟩ := hxs.unique hys
  exact ⟨List.append_cancel_right hsplit, rfl⟩

section EditAt

variable [DecidableEq κ] {xs₁ xs₂ : List α}

theorem insert_at (hchain : Chain link (before ++ key :: after) (xs₁ ++ xs₂))
    (hrest : Chain link (key :: after) xs₂) (hnodup : (before ++ key :: after).Nodup)
    (hfresh : fresh ∉ before ++ key :: after) (hcopy : link fresh = link key) (x : α) :
    Chain (Function.update link key (some (x, fresh))) (before ++ key :: fresh :: after)
      (xs₁ ++ x :: xs₂) := by
  obtain ⟨ys₁, ys₂, hsplit, hrest', hinserted⟩ := hchain.insert hnodup hfresh hcopy x
  obtain ⟨rfl, rfl⟩ := split_unique hsplit hrest hrest'
  exact hinserted

theorem remove_at (hchain : Chain link (before ++ key :: next :: after) (xs₁ ++ x :: xs₂))
    (hrest : Chain link (key :: next :: after) (x :: xs₂))
    (hnodup : (before ++ key :: next :: after).Nodup) :
    Chain (Function.update link key (link next)) (before ++ key :: after) (xs₁ ++ xs₂) := by
  obtain ⟨ys₁, ys₂, after', hsplit, hafter, hrest', hremoved⟩ := hchain.remove hnodup hrest.1
  cases hafter
  obtain ⟨rfl, hxs⟩ := split_unique hsplit hrest hrest'
  cases hxs
  exact hremoved

end EditAt

end Chain

end Data
