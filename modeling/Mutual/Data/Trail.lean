import Mutual.Data.Chain

/-!
# A reader of a changing chain

A reader stands at one key and moves along the links while insertions and removals edit the chain. A
removal takes a cell off the chain that the reader may stand at or still come to. Such a cell is not
written any more, and its content leads back to the chain or has become the end. `Trail` says where
the reader comes along, `Reader` what it has read and is still going to read.
-/

namespace Data

variable {κ α : Type*}

/-- The way of a reader: through the cells `stale`, which are off the chain, and then the cells
`live`, which are the end of the chain `before ++ live`. It is past the elements `behind` and comes
to the elements `off` and `ahead`. -/
structure Trail (link : κ → Option (α × κ)) (stale before live : List κ)
    (behind off ahead : List α) : Prop where
  way : Chain link (stale ++ live) (off ++ ahead)
  chain : Chain link (before ++ live) (behind ++ ahead)
  rest : (live = [] ∧ ahead = []) ∨ Chain link live ahead
  nodup : (before ++ live).Nodup
  staleNodup : stale.Nodup
  apart : ∀ key ∈ stale, key ∉ before ++ live

namespace Trail

variable {link link' : κ → Option (α × κ)} {stale before live : List κ} {behind off ahead : List α}
  {key fresh next : κ} {x : α}

theorem start {keys : List κ} {xs : List α} (hchain : Chain link keys xs) (hnodup : keys.Nodup) :
    Trail link [] [] keys [] [] xs :=
  ⟨hchain, hchain, .inr hchain, hnodup, .nil, by simp⟩

theorem congr (ht : Trail link stale before live behind off ahead)
    (hstale : ∀ k ∈ stale, link' k = link k) (hkeys : ∀ k ∈ before ++ live, link' k = link k) :
    Trail link' stale before live behind off ahead where
  way := ht.way.congr fun k hk => (List.mem_append.mp hk).elim (hstale k)
    fun hk => hkeys k (List.mem_append_right before hk)
  chain := ht.chain.congr hkeys
  rest := ht.rest.imp_right fun hrest => hrest.congr fun k hk =>
    hkeys k (List.mem_append_right before hk)
  nodup := ht.nodup
  staleNodup := ht.staleNodup
  apart := ht.apart

theorem wayNodup (ht : Trail link stale before live behind off ahead) : (stale ++ live).Nodup := by
  refine List.nodup_append.mpr ⟨ht.staleNodup, ht.nodup.sublist (List.sublist_append_right ..), ?_⟩
  rintro key hstale _ hlive rfl
  exact ht.apart key hstale (List.mem_append_right before hlive)

/-- The reader moves on. -/
theorem move (ht : Trail link stale before live behind off ahead)
    (hcurrent : (stale ++ live).head? = some key) (hkey : link key = some (x, next)) :
    (∃ stale' off', off = x :: off' ∧ (stale' ++ live).head? = some next ∧
      stale'.Sublist stale ∧ Trail link stale' before live behind off' ahead) ∨
    (∃ live' ahead', off = [] ∧ ahead = x :: ahead' ∧ before ++ live = before ++ [key] ++ live' ∧
      live'.head? = some next ∧ Trail link [] (before ++ [key]) live' (behind ++ [x]) [] ahead') := by
  match stale, live, hcurrent with
  | first :: stale', live, hcurrent =>
      left
      cases hcurrent
      have hway : Chain link (key :: (stale' ++ live)) (off ++ ahead) := ht.way
      obtain ⟨keys', xs', hkeys, hxs, hnext⟩ := hway.of_head_eq_some hkey
      have hoff : off ≠ [] := by
        rintro rfl
        rw [List.nil_append] at hway hxs
        rcases ht.rest with ⟨-, rfl⟩ | hrest
        · cases hxs
        · have hlength := hway.length_eq
          rw [← hrest.length_eq, List.length_cons, List.length_append] at hlength
          omega
      obtain ⟨y, off', rfl⟩ := List.exists_cons_of_ne_nil hoff
      cases hxs
      refine ⟨stale', off', rfl, by rw [hkeys]; rfl, List.sublist_cons_self .., ?_, ht.chain,
        ht.rest, ht.nodup, (List.nodup_cons.mp ht.staleNodup).2,
        fun k hk => ht.apart k (List.mem_cons_of_mem _ hk)⟩
      rw [hkeys]
      exact hnext
  | [], first :: live', hcurrent =>
      right
      cases hcurrent
      have hrest := ht.rest.resolve_left fun h => by cases h.1
      obtain ⟨keys', ahead', rfl, rfl, hnext⟩ := hrest.of_head_eq_some hkey
      have hoff : off = [] := by
        have hway := ht.way.length_eq
        have hlength := hrest.length_eq
        simp only [List.nil_append, List.length_append] at hway
        exact List.length_eq_zero_iff.mp (by omega)
      have hkeys : before ++ key :: next :: keys' = before ++ [key] ++ next :: keys' := by simp
      have hxs : behind ++ x :: ahead' = behind ++ [x] ++ ahead' := by simp
      refine ⟨_, ahead', hoff, rfl, hkeys, rfl, hnext, ?_, .inr hnext, ?_, .nil, by simp⟩
      · rw [← hkeys, ← hxs]
        exact ht.chain
      · rw [← hkeys]
        exact ht.nodup

/-- The elements behind the reader, seen from a cell before it on. -/
theorem behind_split {cells₁ cells₂ : List κ}
    (ht : Trail link stale (cells₁ ++ key :: cells₂) live behind off ahead) :
    ∃ xs₁ xs₂, behind = xs₁ ++ xs₂ ∧ Chain link (key :: (cells₂ ++ live)) (xs₂ ++ ahead) := by
  have hchain := ht.chain
  rw [List.append_assoc, List.cons_append] at hchain
  obtain ⟨ys₁, ys₂, hsplit, hrest, -⟩ := hchain.focus cells₁
  have hlength := hrest.length_eq
  rw [List.length_cons, List.length_append] at hlength
  have hle : ahead.length ≤ ys₂.length := by
    rcases ht.rest with ⟨-, rfl⟩ | hlive
    · exact Nat.zero_le _
    · have hlive := hlive.length_eq
      omega
  rcases List.append_eq_append_iff.mp hsplit with ⟨zs, rfl, rfl⟩ | ⟨zs, rfl, rfl⟩
  · rw [List.length_append] at hle
    obtain rfl : zs = [] := List.length_eq_zero_iff.mp (by omega)
    exact ⟨behind, [], (List.append_nil _).symm, hrest⟩
  · exact ⟨ys₁, zs, rfl, hrest⟩

/-- The element right before the cells the reader still comes to. -/
theorem behind_last {cells : List κ}
    (ht : Trail link stale (cells ++ [key]) (next :: live) behind off ahead)
    (hkey : link key = some (x, next)) :
    ∃ xs, behind = xs ++ [x] ∧ Chain link (key :: next :: live) (x :: ahead) := by
  obtain ⟨xs₁, xs₂, rfl, hrest⟩ := ht.behind_split
  have hlive := ht.rest.resolve_left fun h => by cases h.1
  obtain ⟨_, xs₃, hcell, hxs, hnext⟩ := hrest.of_head_eq_some hkey
  cases hcell
  obtain ⟨-, rfl⟩ := hlive.unique hnext
  have hxs₂ : xs₂ = [x] := List.append_cancel_right hxs
  subst hxs₂
  exact ⟨xs₁, rfl, hrest⟩

/-- A cell of the chain is one the reader may still come to, or it is before these. -/
theorem split_cases {keys₁ keys₂ : List κ} (hkeys : before ++ live = keys₁ ++ key :: keys₂) :
    (∃ live₁, keys₁ = before ++ live₁ ∧ live = live₁ ++ key :: keys₂) ∨
      (∃ cells, before = keys₁ ++ key :: cells ∧ keys₂ = cells ++ live) := by
  rcases List.append_eq_append_iff.mp hkeys with ⟨live₁, rfl, rfl⟩ | ⟨cells, rfl, hcells⟩
  · exact .inl ⟨live₁, rfl, rfl⟩
  · rcases List.cons_eq_append_iff.mp hcells with ⟨rfl, rfl⟩ | ⟨cells, rfl, rfl⟩
    · exact .inl ⟨[], by simp, rfl⟩
    · exact .inr ⟨cells, rfl, rfl⟩

section Edit

variable [DecidableEq κ] {cells₁ cells₂ live₁ live₂ : List κ}

/-- A write to the chain leaves the cells off the chain alone. -/
theorem update_stale (ht : Trail link stale before live behind off ahead)
    (hkey : key ∈ before ++ live) (content : Option (α × κ)) :
    ∀ k ∈ stale, Function.update link key content k = link k := by
  intro k hk
  refine Function.update_of_ne ?_ ..
  rintro rfl
  exact ht.apart k hk hkey

theorem update_live (ht : Trail link stale before live behind off ahead) (hkey : key ∈ before)
    (content : Option (α × κ)) : ∀ k ∈ live, Function.update link key content k = link k := by
  intro k hk
  refine Function.update_of_ne ?_ ..
  rintro rfl
  obtain ⟨-, -, hdisjoint⟩ := List.nodup_append.mp ht.nodup
  exact hdisjoint k hkey k hk rfl

theorem insert_ahead (ht : Trail link stale before (live₁ ++ key :: live₂) behind off ahead)
    (hstale : fresh ∉ stale) (hfresh : fresh ∉ before ++ (live₁ ++ key :: live₂))
    (hcopy : link fresh = link key) (x : α) :
    ∃ xs₁ xs₂, ahead = xs₁ ++ xs₂ ∧
      Trail (Function.update link key (some (x, fresh))) stale before
        (live₁ ++ key :: fresh :: live₂) behind off (xs₁ ++ x :: xs₂) := by
  have hlive := ht.rest.resolve_left fun h => by simp at h
  obtain ⟨xs₁, xs₂, rfl, hrest, -⟩ := hlive.focus live₁
  have hway := ht.way
  have hchain := ht.chain
  have hwayNodup := ht.wayNodup
  have hnodup := ht.nodup
  have hliveFresh : fresh ∉ live₁ ++ key :: live₂ :=
    fun hmem => hfresh (List.mem_append_right before hmem)
  have hwayFresh : fresh ∉ stale ++ (live₁ ++ key :: live₂) :=
    fun hmem => (List.mem_append.mp hmem).elim hstale hliveFresh
  have hapart := ht.apart
  rw [← List.append_assoc, ← List.append_assoc] at hway hchain
  rw [← List.append_assoc] at hwayNodup hnodup hwayFresh hfresh hapart
  refine ⟨xs₁, xs₂, rfl, ?_, ?_, .inr ?_, ?_, ht.staleNodup, ?_⟩
  · rw [← List.append_assoc, ← List.append_assoc]
    exact hway.insert_at hrest hwayNodup hwayFresh hcopy x
  · rw [← List.append_assoc, ← List.append_assoc]
    exact hchain.insert_at hrest hnodup hfresh hcopy x
  · exact hlive.insert_at hrest (ht.nodup.sublist (List.sublist_append_right ..)) hliveFresh hcopy x
  · rw [← List.append_assoc]
    exact Chain.nodup_inserted hnodup hfresh
  · rw [← List.append_assoc]
    intro k hk hmem
    rcases Chain.mem_inserted.mp hmem with rfl | hmem
    · exact hstale hk
    · exact hapart k hk hmem

theorem insert_behind (ht : Trail link stale (cells₁ ++ key :: cells₂) live behind off ahead)
    (hstale : fresh ∉ stale) (hfresh : fresh ∉ cells₁ ++ key :: cells₂ ++ live)
    (hcopy : link fresh = link key) (x : α) :
    ∃ xs₁ xs₂, behind = xs₁ ++ xs₂ ∧
      Trail (Function.update link key (some (x, fresh))) stale (cells₁ ++ key :: fresh :: cells₂)
        live (xs₁ ++ x :: xs₂) off ahead := by
  obtain ⟨xs₁, xs₂, rfl, hrest⟩ := ht.behind_split
  have hcell : key ∈ cells₁ ++ key :: cells₂ := by simp
  have hsame := ht.update_stale (List.mem_append_left live hcell) (some (x, fresh))
  have hlive := ht.update_live hcell (some (x, fresh))
  have hchain := ht.chain
  have hnodup := ht.nodup
  have hapart := ht.apart
  rw [List.append_assoc, List.cons_append] at hnodup hfresh hapart
  rw [List.append_assoc, List.cons_append, List.append_assoc] at hchain
  refine ⟨xs₁, xs₂, rfl, ?_, ?_, ht.rest.imp_right fun hrest => hrest.congr hlive, ?_,
    ht.staleNodup, ?_⟩
  · exact ht.way.congr fun k hk => (List.mem_append.mp hk).elim (hsame k) (hlive k)
  · rw [List.append_assoc, List.append_assoc]
    exact hchain.insert_at hrest hnodup hfresh hcopy x
  · rw [List.append_assoc]
    exact Chain.nodup_inserted hnodup hfresh
  · rw [List.append_assoc]
    intro k hk hmem
    rcases Chain.mem_inserted.mp hmem with rfl | hmem
    · exact hstale hk
    · exact hapart k hk hmem

theorem remove_ahead (ht : Trail link stale before (live₁ ++ key :: next :: live₂) behind off ahead)
    (hkey : link key = some (x, next)) :
    ∃ xs₁ xs₂, ahead = xs₁ ++ x :: xs₂ ∧
      Trail (Function.update link key (link next)) stale before (live₁ ++ key :: live₂) behind off
        (xs₁ ++ xs₂) := by
  have hlive := ht.rest.resolve_left fun h => by simp at h
  obtain ⟨xs₁, xs₂, rfl, hrest, -⟩ := hlive.focus live₁
  obtain ⟨_, xs₂, hcell, rfl, -⟩ := hrest.of_head_eq_some hkey
  cases hcell
  have hway := ht.way
  have hchain := ht.chain
  have hwayNodup := ht.wayNodup
  have hnodup := ht.nodup
  have hapart := ht.apart
  rw [← List.append_assoc, ← List.append_assoc] at hway hchain
  rw [← List.append_assoc] at hwayNodup hnodup hapart
  refine ⟨xs₁, xs₂, rfl, ?_, ?_, .inr ?_, ?_, ht.staleNodup, ?_⟩
  · rw [← List.append_assoc, ← List.append_assoc]
    exact hway.remove_at hrest hwayNodup
  · rw [← List.append_assoc, ← List.append_assoc]
    exact hchain.remove_at hrest hnodup
  · exact hlive.remove_at hrest (ht.nodup.sublist (List.sublist_append_right ..))
  · rw [← List.append_assoc]
    exact hnodup.sublist Chain.removed_sublist
  · rw [← List.append_assoc]
    exact fun k hk hmem => hapart k hk (Chain.removed_sublist.subset hmem)

theorem remove_behind (ht : Trail link stale (cells₁ ++ key :: next :: cells₂) live behind off ahead)
    (hkey : link key = some (x, next)) :
    ∃ xs₁ xs₂, behind = xs₁ ++ x :: xs₂ ∧
      Trail (Function.update link key (link next)) stale (cells₁ ++ key :: cells₂) live (xs₁ ++ xs₂)
        off ahead := by
  obtain ⟨xs₁, xs₂, rfl, hrest⟩ := ht.behind_split
  rw [List.cons_append] at hrest
  obtain ⟨_, ys, hcell, hxs, hnext⟩ := hrest.of_head_eq_some hkey
  cases hcell
  have hxs₂ : xs₂ ≠ [] := by
    rintro rfl
    rw [List.nil_append] at hxs
    rcases ht.rest with ⟨-, rfl⟩ | hlive
    · cases hxs
    · have hlength := hnext.length_eq
      have hliveLength := hlive.length_eq
      rw [List.length_cons, List.length_append] at hlength
      rw [hxs, List.length_cons] at hliveLength
      omega
  obtain ⟨y, xs₂, rfl⟩ := List.exists_cons_of_ne_nil hxs₂
  cases hxs
  have hcell : key ∈ cells₁ ++ key :: next :: cells₂ := by simp
  have hsame := ht.update_stale (List.mem_append_left live hcell) (link next)
  have hlive := ht.update_live hcell (link next)
  have hchain := ht.chain
  have hnodup := ht.nodup
  have hapart := ht.apart
  rw [List.append_assoc, List.cons_append] at hnodup hapart
  rw [List.append_assoc, List.cons_append, List.append_assoc] at hchain
  refine ⟨xs₁, xs₂, rfl, ?_, ?_, ht.rest.imp_right fun hrest => hrest.congr hlive, ?_,
    ht.staleNodup, ?_⟩
  · exact ht.way.congr fun k hk => (List.mem_append.mp hk).elim (hsame k) (hlive k)
  · rw [List.append_assoc, List.append_assoc]
    exact hchain.remove_at hrest hnodup
  · rw [List.append_assoc]
    exact hnodup.sublist Chain.removed_sublist
  · rw [List.append_assoc]
    exact fun k hk hmem => hapart k hk (Chain.removed_sublist.subset hmem)

/-- The first cell the reader would come to on the chain is taken off it. Its content, which the cell
before it gets, is the one the reader still finds there. -/
theorem detach (ht : Trail link stale (cells₁ ++ [key]) (next :: live) behind off ahead)
    (hkey : link key = some (x, next)) :
    ∃ xs, behind = xs ++ [x] ∧
      ((ahead = [] ∧ Trail (Function.update link key (link next)) (stale ++ [next])
          (cells₁ ++ [key]) live xs off []) ∨
        (∃ y ahead', ahead = y :: ahead' ∧
          Trail (Function.update link key (link next)) (stale ++ [next]) (cells₁ ++ [key]) live
            (xs ++ [y]) (off ++ [y]) ahead')) := by
  obtain ⟨xs, rfl, hrest⟩ := ht.behind_last hkey
  have hcell : key ∈ cells₁ ++ [key] := by simp
  have hsame := ht.update_stale (List.mem_append_left (next :: live) hcell) (link next)
  have hlive := ht.update_live hcell (link next)
  have hchain := ht.chain
  have hnodup := ht.nodup
  have hapart := ht.apart
  rw [List.append_assoc, List.singleton_append] at hchain hnodup hapart
  rw [List.append_assoc, List.singleton_append] at hchain
  have hremoved := hchain.remove_at hrest hnodup
  have hway : Chain (Function.update link key (link next)) (stale ++ [next] ++ live)
      (off ++ ahead) := by
    rw [List.append_assoc, List.singleton_append]
    exact ht.way.congr fun k hk => (List.mem_append.mp hk).elim (hsame k) (hlive k)
  have hkeys : cells₁ ++ [key] ++ live = cells₁ ++ key :: live := by simp
  have hnodup' : (cells₁ ++ [key] ++ live).Nodup := by
    rw [hkeys]
    exact hnodup.sublist Chain.removed_sublist
  have hstale : (stale ++ [next]).Nodup := by
    refine List.nodup_append.mpr ⟨ht.staleNodup, List.nodup_singleton next, ?_⟩
    rintro k hk _ hnext rfl
    refine hapart k hk ?_
    rw [List.mem_singleton.mp hnext]
    simp
  have hapart' : ∀ k ∈ stale ++ [next], k ∉ cells₁ ++ [key] ++ live := by
    rw [hkeys]
    intro k hk hmem
    rcases List.mem_append.mp hk with hk | hk
    · exact hapart k hk (Chain.removed_sublist.subset hmem)
    · rw [List.mem_singleton.mp hk] at hmem
      have hfirst : (next :: (cells₁ ++ key :: live)).Nodup := by
        refine (List.Perm.nodup_iff ?_).mp hnodup
        rw [List.append_cons cells₁ key live, List.append_cons cells₁ key (next :: live)]
        exact List.perm_middle
      exact (List.nodup_cons.mp hfirst).1 hmem
  have hfirst := ht.rest.resolve_left fun h => by cases h.1
  refine ⟨xs, rfl, ?_⟩
  cases hnext : link next with
  | none =>
      obtain ⟨rfl, rfl⟩ := hfirst.of_head_eq_none hnext
      rw [hnext] at hremoved hway
      refine .inl ⟨rfl, hway, ?_, .inl ⟨rfl, rfl⟩, hnodup', hstale, hapart'⟩
      rw [hkeys]
      exact hremoved
  | some entry =>
      obtain ⟨y, other⟩ := entry
      obtain ⟨live', ahead', rfl, rfl, hlater⟩ := hfirst.of_head_eq_some hnext
      rw [hnext] at hremoved hway hlive
      refine .inr ⟨y, ahead', rfl, ?_, ?_, .inr ?_, hnodup', hstale, hapart'⟩
      · rw [List.append_assoc off, List.singleton_append]
        exact hway
      · rw [hkeys, List.append_assoc xs, List.singleton_append]
        exact hremoved
      · exact hlater.congr fun k hk => hlive k (List.mem_cons_of_mem next hk)

end Edit

end Trail

/-! ### What the reader has read -/

/-- The elements `old` are in the chain from the start, `all` are those that ever have been, and
`seen` are those the reader has read. It has missed none of the old ones that are still there. -/
structure Accounts (old all seen behind off ahead : List α) : Prop where
  kept : ∀ zs : List α, (∀ z ∈ zs, z ∈ old) → zs.Sublist behind → zs.Sublist (seen ++ off)
  once : (seen ++ (off ++ ahead)).Nodup
  known : ∀ y ∈ seen ++ (off ++ ahead), y ∈ all

theorem sublist_of_insert {zs xs₁ xs₂ : List α} {x : α} (hzs : zs.Sublist (xs₁ ++ x :: xs₂))
    (hx : x ∉ zs) : zs.Sublist (xs₁ ++ xs₂) := by
  obtain ⟨zs₁, zs₂, rfl, hzs₁, hzs₂⟩ := List.sublist_append_iff.mp hzs
  rcases List.sublist_cons_iff.mp hzs₂ with hzs₂ | ⟨zs₃, rfl, -⟩
  · exact hzs₁.append hzs₂
  · exact absurd (by simp) hx

theorem mem_insert_iff {xs₁ xs₂ : List α} {x y : α} :
    y ∈ xs₁ ++ x :: xs₂ ↔ y = x ∨ y ∈ xs₁ ++ xs₂ := by
  simp only [List.mem_append, List.mem_cons]
  tauto

namespace Accounts

variable {old all seen behind off ahead xs₁ xs₂ : List α} {x : α}

theorem start {xs : List α} (hxs : xs.Nodup) : Accounts xs xs [] [] [] xs where
  kept zs _ hzs := by
    rw [List.sublist_nil.mp hzs]
    exact List.nil_sublist _
  once := hxs
  known y hy := hy

theorem move_off (ha : Accounts old all seen behind (x :: off) ahead) :
    Accounts old all (seen ++ [x]) behind off ahead := by
  have hseen : seen ++ [x] ++ off = seen ++ x :: off := by simp
  have hall : seen ++ [x] ++ (off ++ ahead) = seen ++ (x :: off ++ ahead) := by simp
  refine ⟨?_, ?_, ?_⟩
  · rw [hseen]
    exact ha.kept
  · rw [hall]
    exact ha.once
  · rw [hall]
    exact ha.known

theorem move_ahead (ha : Accounts old all seen behind [] (x :: ahead)) :
    Accounts old all (seen ++ [x]) (behind ++ [x]) [] ahead := by
  have hall : seen ++ [x] ++ ([] ++ ahead) = seen ++ ([] ++ x :: ahead) := by simp
  refine ⟨?_, ?_, ?_⟩
  · intro zs hold hzs
    obtain ⟨zs₁, zs₂, rfl, hzs₁, hzs₂⟩ := List.sublist_append_iff.mp hzs
    have hkept := ha.kept zs₁ (fun z hz => hold z (List.mem_append_left zs₂ hz)) hzs₁
    rw [List.append_nil] at hkept ⊢
    exact hkept.append hzs₂
  · rw [hall]
    exact ha.once
  · rw [hall]
    exact ha.known

theorem insert_behind (ha : Accounts old all seen (xs₁ ++ xs₂) off ahead) (hx : x ∉ old) :
    Accounts old (all ++ [x]) seen (xs₁ ++ x :: xs₂) off ahead where
  kept zs hold hzs := ha.kept zs hold (sublist_of_insert hzs fun hmem => hx (hold x hmem))
  once := ha.once
  known y hy := List.mem_append_left _ (ha.known y hy)

theorem insert_ahead (ha : Accounts old all seen behind off (xs₁ ++ xs₂)) (hx : x ∉ all) :
    Accounts old (all ++ [x]) seen behind off (xs₁ ++ x :: xs₂) := by
  have hall : seen ++ (off ++ (xs₁ ++ x :: xs₂)) = (seen ++ off ++ xs₁) ++ x :: xs₂ := by simp
  have hold : seen ++ (off ++ (xs₁ ++ xs₂)) = (seen ++ off ++ xs₁) ++ xs₂ := by simp
  have honce := ha.once
  have hknown := ha.known
  rw [hold] at honce hknown
  refine ⟨ha.kept, ?_, ?_⟩
  · rw [hall]
    exact List.perm_middle.nodup_iff.mpr
      (List.nodup_cons.mpr ⟨fun hmem => hx (hknown x hmem), honce⟩)
  · rw [hall]
    intro y hy
    rcases mem_insert_iff.mp hy with rfl | hy
    · simp
    · exact List.mem_append_left _ (hknown y hy)

theorem remove_behind (ha : Accounts old all seen (xs₁ ++ x :: xs₂) off ahead) :
    Accounts old all seen (xs₁ ++ xs₂) off ahead where
  kept zs hold hzs :=
    ha.kept zs hold (hzs.trans (List.Sublist.append_left (List.sublist_cons_self ..) xs₁))
  once := ha.once
  known := ha.known

theorem remove_ahead (ha : Accounts old all seen behind off (xs₁ ++ x :: xs₂)) :
    Accounts old all seen behind off (xs₁ ++ xs₂) := by
  have hsublist : (seen ++ (off ++ (xs₁ ++ xs₂))).Sublist (seen ++ (off ++ (xs₁ ++ x :: xs₂))) :=
    ((List.sublist_cons_self x xs₂).append_left xs₁).append_left off |>.append_left seen
  exact ⟨ha.kept, ha.once.sublist hsublist, fun y hy => ha.known y (hsublist.subset hy)⟩

/-- The reader is past the removed element and has the next one on its way in any case. -/
theorem detach {y : α} (ha : Accounts old all seen (xs₁ ++ [x]) off (y :: ahead)) :
    Accounts old all seen (xs₁ ++ [y]) (off ++ [y]) ahead := by
  have hall : seen ++ (off ++ [y] ++ ahead) = seen ++ (off ++ y :: ahead) := by simp
  refine ⟨?_, ?_, ?_⟩
  · intro zs hold hzs
    obtain ⟨zs₁, zs₂, rfl, hzs₁, hzs₂⟩ := List.sublist_append_iff.mp hzs
    have hkept := ha.kept zs₁ (fun z hz => hold z (List.mem_append_left zs₂ hz))
      (hzs₁.trans (List.sublist_append_left xs₁ [x]))
    rw [← List.append_assoc]
    exact hkept.append hzs₂
  · rw [hall]
    exact ha.once
  · rw [hall]
    exact ha.known

end Accounts

/-- A reader at `current` of a chain that passes through `keys`. -/
def Reader (link : κ → Option (α × κ)) (allocated : κ → Prop) (keys : List κ) (current : κ)
    (old all seen : List α) : Prop :=
  ∃ stale before live behind off ahead, before ++ live = keys ∧
    (stale ++ live).head? = some current ∧ (∀ key ∈ stale, allocated key) ∧
    Trail link stale before live behind off ahead ∧ Accounts old all seen behind off ahead

namespace Reader

variable {link link' : κ → Option (α × κ)} {allocated allocated' : κ → Prop} {keys : List κ}
  {current key next fresh : κ} {old all seen : List α} {x : α}

theorem start {xs : List α} (hchain : Chain link (current :: keys) xs)
    (hnodup : (current :: keys).Nodup) (hxs : xs.Nodup) :
    Reader link allocated (current :: keys) current xs xs [] :=
  ⟨[], [], current :: keys, [], [], xs, rfl, rfl, by simp, .start hchain hnodup, .start hxs⟩

theorem congr (hr : Reader link allocated keys current old all seen)
    (hkeys : ∀ k ∈ keys, allocated k) (hsame : ∀ k, allocated k → link' k = link k) :
    Reader link' allocated keys current old all seen := by
  obtain ⟨stale, before, live, behind, off, ahead, rfl, hcurrent, hstale, ht, ha⟩ := hr
  exact ⟨stale, before, live, behind, off, ahead, rfl, hcurrent, hstale,
    ht.congr (fun k hk => hsame k (hstale k hk)) (fun k hk => hsame k (hkeys k hk)), ha⟩

theorem mono (hr : Reader link allocated keys current old all seen)
    (hallocated : ∀ k, allocated k → allocated' k) :
    Reader link allocated' keys current old all seen := by
  obtain ⟨stale, before, live, behind, off, ahead, rfl, hcurrent, hstale, hr⟩ := hr
  exact ⟨stale, before, live, behind, off, ahead, rfl, hcurrent,
    fun k hk => hallocated k (hstale k hk), hr⟩

theorem allocated_current (hr : Reader link allocated keys current old all seen)
    (hkeys : ∀ k ∈ keys, allocated k) : allocated current := by
  obtain ⟨stale, before, live, _, _, _, rfl, hhead, hstale, -⟩ := hr
  rcases List.mem_append.mp (List.mem_of_head? hhead) with hmem | hmem
  · exact hstale current hmem
  · exact hkeys current (List.mem_append_right before hmem)

/-- **Reading.** The reader reads the element at its key and moves on. -/
theorem move (hr : Reader link allocated keys current old all seen)
    (hcurrent : link current = some (x, next)) :
    Reader link allocated keys next old all (seen ++ [x]) := by
  obtain ⟨stale, before, live, behind, off, ahead, rfl, hhead, hstale, ht, ha⟩ := hr
  rcases ht.move hhead hcurrent with ⟨stale', off', rfl, hhead', hsub, ht'⟩ |
    ⟨live', ahead', rfl, rfl, hkeys, hhead', ht'⟩
  · exact ⟨stale', before, live, behind, off', ahead, rfl, hhead',
      fun k hk => hstale k (hsub.subset hk), ht', ha.move_off⟩
  · exact ⟨[], _, live', _, [], ahead', hkeys.symm, hhead', by simp, ht', ha.move_ahead⟩

variable [DecidableEq κ] {keys₁ keys₂ : List κ}

/-- **Insertion** of a new element at a cell of the chain. -/
theorem insert (hr : Reader link allocated (keys₁ ++ key :: keys₂) current old all seen)
    (hkeys : ∀ k ∈ keys₁ ++ key :: keys₂, allocated k) (hfresh : ¬ allocated fresh)
    (hcopy : link fresh = link key) (hold : x ∉ old) (hall : x ∉ all) :
    Reader (Function.update link key (some (x, fresh))) allocated (keys₁ ++ key :: fresh :: keys₂)
      current old (all ++ [x]) seen := by
  obtain ⟨stale, before, live, behind, off, ahead, hsplit, hhead, hstale, ht, ha⟩ := hr
  have hfreshStale : fresh ∉ stale := fun hmem => hfresh (hstale fresh hmem)
  have hfreshKeys : fresh ∉ before ++ live := by
    rw [hsplit]
    exact fun hmem => hfresh (hkeys fresh hmem)
  rcases Trail.split_cases hsplit with ⟨live₁, rfl, rfl⟩ | ⟨cells, rfl, rfl⟩
  · obtain ⟨xs₁, xs₂, rfl, ht'⟩ := ht.insert_ahead hfreshStale hfreshKeys hcopy x
    refine ⟨stale, before, _, behind, off, _, (List.append_assoc ..).symm, ?_, hstale, ht',
      ha.insert_ahead hall⟩
    rw [← hhead]
    cases stale <;> cases live₁ <;> rfl
  · obtain ⟨xs₁, xs₂, rfl, ht'⟩ := ht.insert_behind hfreshStale hfreshKeys hcopy x
    exact ⟨stale, _, live, _, off, ahead, by simp, hhead, hstale, ht', ha.insert_behind hold⟩

/-- **Removal** of the element of a cell of the chain. -/
theorem remove (hr : Reader link allocated (keys₁ ++ key :: next :: keys₂) current old all seen)
    (hkeys : ∀ k ∈ keys₁ ++ key :: next :: keys₂, allocated k)
    (hkey : link key = some (x, next)) :
    Reader (Function.update link key (link next)) allocated (keys₁ ++ key :: keys₂) current old all
      seen := by
  obtain ⟨stale, before, live, behind, off, ahead, hsplit, hhead, hstale, ht, ha⟩ := hr
  rcases Trail.split_cases hsplit with ⟨live₁, rfl, rfl⟩ | ⟨cells, rfl, hcells⟩
  · obtain ⟨xs₁, xs₂, rfl, ht'⟩ := ht.remove_ahead hkey
    refine ⟨stale, before, _, behind, off, _, (List.append_assoc ..).symm, ?_, hstale, ht',
      ha.remove_ahead⟩
    rw [← hhead]
    cases stale <;> cases live₁ <;> rfl
  · match cells, hcells with
    | _ :: cells, hcells =>
        cases hcells
        obtain ⟨xs₁, xs₂, rfl, ht'⟩ := ht.remove_behind hkey
        exact ⟨stale, _, live, _, off, ahead, by simp, hhead, hstale, ht', ha.remove_behind⟩
    | [], hcells =>
        obtain rfl : live = next :: keys₂ := hcells.symm
        have hallocated : ∀ k ∈ stale ++ [next], allocated k := by
          intro k hk
          rcases List.mem_append.mp hk with hk | hk
          · exact hstale k hk
          · rw [List.mem_singleton.mp hk]
            exact hkeys next (by simp)
        have hhead' : (stale ++ [next] ++ keys₂).head? = some current := by
          rw [← hhead, List.append_assoc, List.singleton_append]
        obtain ⟨xs, rfl, ⟨rfl, ht'⟩ | ⟨y, ahead', rfl, ht'⟩⟩ := ht.detach hkey
        · refine ⟨stale ++ [next], keys₁ ++ [key], keys₂, _, off, [], by simp, hhead', hallocated,
            ht', ?_⟩
          have ha' := ha.remove_behind
          rw [List.append_nil] at ha'
          exact ha'
        · exact ⟨stale ++ [next], keys₁ ++ [key], keys₂, _, _, ahead', by simp, hhead', hallocated,
            ht', ha.detach⟩

omit [DecidableEq κ] in
theorem nodup (hr : Reader link allocated keys current old all seen) : seen.Nodup := by
  obtain ⟨_, _, _, _, _, _, -, -, -, -, ha⟩ := hr
  exact ha.once.sublist (List.sublist_append_left ..)

omit [DecidableEq κ] in
/-- **The end.** A reader at an empty cell has read the old elements of the chain in their order. -/
theorem complete (hr : Reader link allocated keys current old all seen)
    (hcurrent : link current = none) :
    ∃ xs, Chain link keys xs ∧
      ∀ zs : List α, (∀ z ∈ zs, z ∈ old) → zs.Sublist xs → zs.Sublist seen := by
  obtain ⟨stale, before, live, behind, off, ahead, rfl, hhead, -, ht, ha⟩ := hr
  obtain ⟨path, hpath⟩ : ∃ path, stale ++ live = current :: path := by
    cases hway : stale ++ live with
    | nil =>
        rw [hway] at hhead
        cases hhead
    | cons first path =>
        rw [hway] at hhead
        cases hhead
        exact ⟨path, rfl⟩
  have hway := ht.way
  rw [hpath] at hway
  obtain ⟨-, hnil⟩ := hway.of_head_eq_none hcurrent
  obtain ⟨rfl, rfl⟩ := List.append_eq_nil_iff.mp hnil
  refine ⟨behind ++ [], ht.chain, ?_⟩
  intro zs hold hzs
  have hkept := ha.kept zs hold (by simpa using hzs)
  rwa [List.append_nil] at hkept

end Reader

end Data
