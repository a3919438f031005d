import Mathlib.Logic.Function.Basic
import Mutual.Data.Chain

/-!
# What is seen from a cell

A reader that stands at some cell of a linked structure sees the elements it comes to by following
the links. While it walks the cells change. An edit does not hide an element from any reader,
wherever it stands, if it inserts a cell that continues with what it overwrites, or if it overwrites
some other element by what comes after it.
-/

namespace Data

variable {κ α : Type*} [DecidableEq κ]

/-- An element that meets `p` is come to from the cell. -/
inductive Sees (link : κ → Option (α × κ)) (p : α → Prop) : κ → Prop
  | here {key next : κ} {x : α} : link key = some (x, next) → p x → Sees link p key
  | later {key next : κ} {x : α} : link key = some (x, next) → Sees link p next → Sees link p key

namespace Sees

variable {link link' : κ → Option (α × κ)} {p q : α → Prop} {key cell next fresh : κ} {x : α}

omit [DecidableEq κ] in
theorem cases_at (hsees : Sees link p key) :
    ∃ x next, link key = some (x, next) ∧ (p x ∨ Sees link p next) := by
  cases hsees with
  | here hkey hx => exact ⟨_, _, hkey, .inl hx⟩
  | later hkey hnext => exact ⟨_, _, hkey, .inr hnext⟩

omit [DecidableEq κ] in
theorem of_link (hkey : link key = some (x, next)) (hrest : p x ∨ Sees link p next) :
    Sees link p key := by
  rcases hrest with hx | hnext
  · exact .here hkey hx
  · exact .later hkey hnext

omit [DecidableEq κ] in
theorem mono (hsees : Sees link p key)
    (hlink : ∀ key x next, link key = some (x, next) → link' key = some (x, next)) :
    Sees link' p key := by
  induction hsees with
  | here hkey hx => exact .here (hlink _ _ _ hkey) hx
  | later hkey _ ih => exact .later (hlink _ _ _ hkey) ih

omit [DecidableEq κ] in
/-- Within cells the links do not lead out of, seeing depends on what is there. -/
theorem closed {cells : Set κ} (hsees : Sees link p key) (hkey : key ∈ cells)
    (hclosed : ∀ key x next, key ∈ cells → link key = some (x, next) →
      next ∈ cells ∧ link' key = some (x, next) ∧ (p x → q x)) : Sees link' q key := by
  induction hsees with
  | here hlink hx =>
      obtain ⟨-, hlink', himp⟩ := hclosed _ _ _ hkey hlink
      exact .here hlink' (himp hx)
  | later hlink _ ih =>
      obtain ⟨hnext, hlink', -⟩ := hclosed _ _ _ hkey hlink
      exact .later hlink' (ih hnext)

omit [DecidableEq κ] in
theorem of_reaches {target : κ} (hreaches : Reaches link key target) (hsees : Sees link p target) :
    Sees link p key := by
  induction hreaches using Relation.ReflTransGen.head_induction_on with
  | refl => exact hsees
  | head hstep _ ih =>
      obtain ⟨x, hkey⟩ := hstep
      exact .later hkey ih

omit [DecidableEq κ] in
theorem exists_mem_chain {keys : List κ} {xs : List α} (hsees : Sees link p key)
    (hchain : Chain link (key :: keys) xs) : ∃ x ∈ xs, p x := by
  induction hsees generalizing keys xs with
  | here hkey hx =>
      obtain ⟨_, _, -, rfl, -⟩ := hchain.of_head_eq_some hkey
      exact ⟨_, List.mem_cons_self, hx⟩
  | later hkey _ ih =>
      obtain ⟨_, _, rfl, rfl, hrest⟩ := hchain.of_head_eq_some hkey
      obtain ⟨x, hmem, hx⟩ := ih hrest
      exact ⟨x, List.mem_cons_of_mem _ hmem, hx⟩

omit [DecidableEq κ] in
theorem of_mem_chain {keys : List κ} {xs : List α} (hchain : Chain link (key :: keys) xs)
    (hmem : x ∈ xs) (hx : p x) : Sees link p key := by
  induction xs generalizing key keys with
  | nil => cases hmem
  | cons first xs ih =>
      match keys, hchain with
      | next :: keys, hchain =>
          rcases List.mem_cons.mp hmem with rfl | hmem
          · exact .here hchain.1 hx
          · exact .later hchain.1 (ih hchain.2 hmem)

theorem link_of_ne {content : Option (α × κ)} (hkey : link key = some (x, next))
    (hne : key ≠ cell) : Function.update link cell content key = some (x, next) := by
  rw [Function.update_of_ne hne, hkey]

/-- What is seen is seen without a certain cell, or it is seen from this cell without coming back to
it. -/
theorem avoids_or_last (hsees : Sees link p key) (cell : κ) :
    Sees (Function.update link cell none) p key ∨
      ∃ x next, link cell = some (x, next) ∧
        (p x ∨ Sees (Function.update link cell none) p next) := by
  induction hsees with
  | @here key next x hkey hx =>
      by_cases hcell : key = cell
      · exact .inr ⟨x, next, hcell ▸ hkey, .inl hx⟩
      · exact .inl (.here (link_of_ne hkey hcell) hx)
  | @later key next x hkey _ ih =>
      rcases ih with havoids | hlast
      · by_cases hcell : key = cell
        · exact .inr ⟨x, next, hcell ▸ hkey, .inr havoids⟩
        · have hlink : Function.update link cell none key = some (x, next) :=
            link_of_ne hkey hcell
          exact .inl (.later hlink havoids)
      · exact .inr hlast

theorem of_avoids {content : Option (α × κ)}
    (havoids : Sees (Function.update link cell none) p key) :
    Sees (Function.update link cell content) p key := by
  refine havoids.mono ?_
  intro key x next hkey
  by_cases hcell : key = cell
  · rw [hcell, Function.update_self] at hkey
    cases hkey
  · rw [Function.update_of_ne hcell] at hkey ⊢
    exact hkey

/-- To keep what is seen from anywhere it is enough to keep what is seen from the cell that changes. -/
theorem update {content : Option (α × κ)} (hsees : Sees link p key)
    (hcell : ∀ x next, link cell = some (x, next) →
      (p x ∨ Sees (Function.update link cell none) p next) →
      Sees (Function.update link cell content) p cell) :
    Sees (Function.update link cell content) p key := by
  induction hsees with
  | @here key next x hkey hx =>
      by_cases heq : key = cell
      · subst heq
        exact hcell x next hkey (.inl hx)
      · exact .here (link_of_ne hkey heq) hx
  | @later key next x hkey hnext ih =>
      by_cases heq : key = cell
      · subst heq
        rcases hnext.avoids_or_last key with havoids | ⟨x', next', hkey', hlast⟩
        · exact hcell x next hkey (.inr havoids)
        · exact hcell x' next' hkey' hlast
      · exact .later (link_of_ne hkey heq) ih

/-- **Insertion hides nothing.** The new cell continues with what is overwritten. -/
theorem insert (hsees : Sees link p key) (hfresh : fresh ≠ cell)
    (hkeeps : link fresh = link cell) (x : α) :
    Sees (Function.update link cell (some (x, fresh))) p key := by
  refine hsees.update ?_
  intro y next hcell hrest
  have hcopy : Function.update link cell (some (x, fresh)) fresh = some (y, next) := by
    rw [Function.update_of_ne hfresh, hkeeps, hcell]
  exact .later (Function.update_self ..) (of_link hcopy (hrest.imp_right of_avoids))

/-- **Removal hides nothing** but the element removed: the cell gets what comes after it. -/
theorem remove (hsees : Sees link p key) (hcell : link cell = some (x, next)) (hx : ¬ p x) :
    Sees (Function.update link cell (link next)) p key := by
  refine hsees.update ?_
  intro y after hcell' hrest
  rw [hcell] at hcell'
  cases hcell'
  have havoids := hrest.resolve_left hx
  obtain ⟨z, after, hnext, hrest⟩ := havoids.cases_at
  have hne : next ≠ cell := by
    rintro rfl
    rw [Function.update_self] at hnext
    cases hnext
  rw [Function.update_of_ne hne] at hnext
  have hover : Function.update link cell (link next) cell = some (z, after) := by
    rw [Function.update_self, hnext]
  exact of_link hover (hrest.imp_right of_avoids)

/-- What is put into a cell is seen from wherever the cell is reached. -/
theorem of_store (hreaches : Reaches link key cell) {content : α × κ} (hx : p content.1) :
    Sees (Function.update link cell (some content)) p key := by
  induction hreaches using Relation.ReflTransGen.head_induction_on with
  | refl => exact .here (Function.update_self ..) hx
  | @head key next hstep _ ih =>
      obtain ⟨y, hkey⟩ := hstep
      by_cases heq : key = cell
      · subst heq
        exact .here (Function.update_self ..) hx
      · exact .later (link_of_ne hkey heq) ih

end Sees

end Data
