import Mutual.Proof.LockLeak

/-!
# Passes of iter_mut

A guard has a copy of its node, and stores it as a whole when it is dropped. The copy holds the slot
of the next node, not what is in it, and nobody else stores in the slot of the guard meanwhile. So
the guards may be dropped in any order, during the pass and after it.
-/

namespace Mutual.SharedList

open Concurrency Data

variable {T : Type}

/-- A list, where an iterator stands on it, and the guards it has yielded, `none` for those that have
been dropped. -/
structure MutPass (T : Type) where
  list : SharedList T
  current : Slot
  guards : List (Option (MutCowData (Node T)))

namespace MutPass

def start (list : SharedList T) : MutPass T :=
  { list := list
    current := headSlot
    guards := [] }

def dropped (pass : MutPass T) (i : Nat) : Bool := pass.guards[i]?.any Option.isNone

end MutPass

/-- The elements, with `func` applied at some positions. -/
def updatedAt (positions : Nat → Bool) (func : T → T) (xs : List T) : List T :=
  xs.mapIdx fun i x => if positions i then func x else x

/-- The thread asks for the next guard, or it writes through a guard and drops it. -/
inductive MutStep (orderFn : Option (T → T → Ordering)) (func : T → T) : MutPass T → MutPass T → Prop
  | next {pass : MutPass T} {after : SharedList T} {guard : MutCowData (Node T)} {next : Slot} :
      (object orderFn).Completes pass.list (enter orderFn (.iterMutNext pass.current)) after
        (.lent (some (guard, next))) →
      MutStep orderFn func pass
        { list := after, current := next, guards := pass.guards ++ [some guard] }
  | finished {pass : MutPass T} {after : SharedList T} :
      (object orderFn).Completes pass.list (enter orderFn (.iterMutNext pass.current)) after
        (.lent none) →
      MutStep orderFn func pass { pass with list := after }
  | drop {pass : MutPass T} {after : SharedList T} {guard : MutCowData (Node T)} {i : Nat} :
      pass.guards[i]? = some (some guard) →
      (object orderFn).Completes pass.list (enter orderFn (.dropMut (edit guard func))) after .unit →
      MutStep orderFn func pass { pass with list := after, guards := pass.guards.set i none }

/-! ### The positions of a pass -/

section Positions

variable {positions : Nat → Bool} {func : T → T} {xs : List T} {pass : MutPass T}
  {list : SharedList T} {slot : Slot} {guard : MutCowData (Node T)} {i : Nat}

theorem updatedAt_getElem? (positions : Nat → Bool) (func : T → T) (xs : List T) (i : Nat) :
    (updatedAt positions func xs)[i]? = xs[i]?.map fun x => if positions i then func x else x := by
  rw [updatedAt, List.getElem?_mapIdx]

theorem updatedAt_none (hnone : ∀ i, positions i = false) : updatedAt positions func xs = xs := by
  refine List.ext_getElem? fun i => ?_
  rw [updatedAt_getElem?, hnone]
  simp

theorem updatedAt_all (hall : ∀ i, i < xs.length → positions i = true) :
    updatedAt positions func xs = xs.map func := by
  refine List.ext_getElem? fun i => ?_
  rw [updatedAt_getElem?, List.getElem?_map]
  by_cases hi : i < xs.length
  · rw [hall i hi]
    simp
  · rw [List.getElem?_eq_none (Nat.le_of_not_lt hi)]
    simp

theorem updatedAt_update {x : T} (hx : xs[i]? = some x) :
    updatedAt (Function.update positions i true) func xs =
      (updatedAt positions func xs).set i (func x) := by
  refine List.ext_getElem? fun j => ?_
  rw [updatedAt_getElem?, List.getElem?_set]
  by_cases hji : i = j
  · subst hji
    have hlength : i < (updatedAt positions func xs).length := by
      rw [updatedAt, List.length_mapIdx]
      exact (List.getElem?_eq_some_iff.mp hx).1
    rw [if_pos rfl, if_pos hlength, Function.update_self, hx]
    rfl
  · rw [if_neg hji, Function.update_of_ne (Ne.symm hji), updatedAt_getElem?]

/-- A guard that has just been yielded has not been dropped. -/
theorem MutPass.dropped_next :
    MutPass.dropped { list := list, current := slot, guards := pass.guards ++ [some guard] } =
      pass.dropped := by
  funext i
  rw [dropped, dropped, List.getElem?_append]
  split
  · rfl
  · rename_i hlength
    rw [List.getElem?_eq_none (Nat.le_of_not_lt hlength)]
    cases i - pass.guards.length <;> simp

theorem MutPass.dropped_drop (hguard : pass.guards[i]? = some (some guard)) :
    MutPass.dropped { pass with list := list, guards := pass.guards.set i none } =
      Function.update pass.dropped i true := by
  funext j
  rw [dropped, List.getElem?_set]
  by_cases hji : i = j
  · subst hji
    rw [if_pos rfl, if_pos (List.getElem?_eq_some_iff.mp hguard).1, Function.update_self]
    rfl
  · rw [if_neg hji, Function.update_of_ne (Ne.symm hji), dropped]

end Positions

/-! ### A pass -/

/-- What a pass over the elements `xs` in the slots `slots` keeps. A guard has the element of its
position and the slot after its own. -/
structure MutPassWorld (func : T → T) (list : SharedList T) (slots : List Slot) (xs : List T)
    (pass : MutPass T) : Prop where
  chain : Chain pass.list.heap.links slots (updatedAt pass.dropped func xs)
  first : slots.head? = some headSlot
  nodup : slots.Nodup
  immFree : ∀ slot ∈ slots, pass.list.heap.immLock slot = false
  mutFree : ∀ i slot, pass.guards.length ≤ i → slots[i]? = some slot →
    pass.list.heap.mutLock slot = false
  current : slots[pass.guards.length]? = some pass.current
  held : ∀ i guard, pass.guards[i]? = some (some guard) → ∃ x next, xs[i]? = some x ∧
    slots[i]? = some guard.originalStructure ∧ slots[i + 1]? = some next ∧
    guard.data = some { data := x, next := next }
  len : pass.list.len = list.len

namespace MutPassWorld

variable {orderFn : Option (T → T → Ordering)} {func : T → T} {list : SharedList T}
  {slots : List Slot} {xs : List T} {pass final : MutPass T}

theorem start {slots : List Slot} (hlayout : list.Layout slots xs) :
    MutPassWorld func list (headSlot :: slots) xs (.start list) where
  chain := by
    rw [updatedAt_none (by simp [MutPass.start, MutPass.dropped])]
    exact hlayout.chain
  first := rfl
  nodup := hlayout.nodup
  immFree := hlayout.immFree
  mutFree i slot _ hslot := hlayout.mutFree slot (List.mem_of_getElem? hslot)
  current := rfl
  held i guard hguard := by simp [MutPass.start] at hguard
  len := rfl

theorem length_eq (hw : MutPassWorld func list slots xs pass) : slots.length = xs.length + 1 := by
  rw [hw.chain.length_eq, updatedAt, List.length_mapIdx]

theorem length_le (hw : MutPassWorld func list slots xs pass) : pass.guards.length ≤ xs.length := by
  have hlt := (List.getElem?_eq_some_iff.mp hw.current).1
  rw [hw.length_eq] at hlt
  exact Nat.le_of_lt_succ hlt

theorem immFree_current (hw : MutPassWorld func list slots xs pass) :
    pass.list.heap.immLock pass.current = false :=
  hw.immFree _ (List.mem_of_getElem? hw.current)

/-- No guard of the position of the iterator has been dropped. -/
theorem not_dropped (pass : MutPass T) : pass.dropped pass.guards.length = false := by
  rw [MutPass.dropped, List.getElem?_eq_none (Nat.le_refl _)]
  rfl

/-- The iterator stands at the next element or at the end of the list. -/
theorem inner_current (hw : MutPassWorld func list slots xs pass) :
    (∃ x next, xs[pass.guards.length]? = some x ∧ slots[pass.guards.length + 1]? = some next ∧
      pass.list.heap.inner pass.current = some { data := x, next := next }) ∨
    (pass.guards.length = xs.length ∧ pass.list.heap.inner pass.current = none) := by
  rcases Nat.lt_or_eq_of_le hw.length_le with hlt | heq
  · have hx : xs[pass.guards.length]? = some xs[pass.guards.length] :=
      List.getElem?_eq_getElem hlt
    have hupdated : (updatedAt pass.dropped func xs)[pass.guards.length]? =
        some xs[pass.guards.length] := by
      rw [updatedAt_getElem?, hx, not_dropped]
      rfl
    obtain ⟨key, next, hkey, hnext, hlink⟩ := hw.chain.link_getElem? hupdated
    rw [hw.current, Option.some.injEq] at hkey
    subst hkey
    exact .inl ⟨_, next, hx, hnext, Heap.inner_of_links hlink⟩
  · refine .inr ⟨heq, Option.map_eq_none_iff.mp (hw.chain.link_last ?_)⟩
    rw [updatedAt, List.length_mapIdx, ← heq]
    exact hw.current

theorem mutFree_current (hw : MutPassWorld func list slots xs pass) :
    pass.list.heap.mutLock pass.current = false := hw.mutFree _ _ (Nat.le_refl _) hw.current

theorem next {after : SharedList T} {guard : MutCowData (Node T)} {slot : Slot}
    (hw : MutPassWorld func list slots xs pass)
    (hcall : (object orderFn).Completes pass.list (enter orderFn (.iterMutNext pass.current)) after
      (.lent (some (guard, slot)))) :
    MutPassWorld func list slots xs
      { list := after, current := slot, guards := pass.guards ++ [some guard] } := by
  rcases hw.inner_current with ⟨x, next, hx, hnext, hinner⟩ | ⟨-, hinner⟩
  · obtain ⟨rfl, hlent⟩ :=
      (iterMutNext_some hw.mutFree_current hw.immFree_current hinner).mp hcall
    cases hlent
    refine ⟨?_, hw.first, hw.nodup, hw.immFree, ?_, ?_, ?_, hw.len⟩
    · rw [MutPass.dropped_next]
      exact hw.chain
    · intro i other hi hother
      rw [List.length_append] at hi
      have hlt : pass.guards.length < i := hi
      -- the slots are different, as their positions are
      have hne : other ≠ pass.current := by
        rintro rfl
        have hlength := (List.getElem?_eq_some_iff.mp hw.current).1
        have hsame := (List.getElem?_inj hlength hw.nodup).mp (hw.current.trans hother.symm)
        omega
      change Function.update pass.list.heap.mutLock pass.current true other = false
      rw [Function.update_of_ne hne]
      exact hw.mutFree i other (Nat.le_of_lt hlt) hother
    · rw [List.length_append]
      exact hnext
    · intro i held hheld
      rw [List.getElem?_append] at hheld
      split at hheld
      · exact hw.held i held hheld
      · rename_i hi
        have hlast : i = pass.guards.length := by
          have hlt := (List.getElem?_eq_some_iff.mp hheld).1
          rw [List.length_singleton] at hlt
          omega
        subst hlast
        rw [Nat.sub_self] at hheld
        cases hheld
        exact ⟨x, next, hx, hw.current, hnext, rfl⟩
  · rw [iterMutNext_none hw.immFree_current hinner] at hcall
    cases hcall.2

theorem finished {after : SharedList T} (hw : MutPassWorld func list slots xs pass)
    (hcall : (object orderFn).Completes pass.list (enter orderFn (.iterMutNext pass.current)) after
      (.lent none)) :
    MutPassWorld func list slots xs { pass with list := after } := by
  rcases hw.inner_current with ⟨x, next, -, -, hinner⟩ | ⟨-, hinner⟩
  · rw [iterMutNext_some hw.mutFree_current hw.immFree_current hinner] at hcall
    cases hcall.2
  · obtain ⟨rfl, -⟩ := (iterMutNext_none hw.immFree_current hinner).mp hcall
    exact hw

/-- What a guard stores: the new element, and the slot that is still the next one. -/
theorem drop_iff {after : SharedList T} {guard : MutCowData (Node T)} {x : T} {next : Slot}
    (hdata : guard.data = some { data := x, next := next }) :
    (object orderFn).Completes pass.list (enter orderFn (.dropMut (edit guard func))) after .unit ↔
      after = { pass.list with
        heap := pass.list.heap.setInner guard.originalStructure
          (some { data := func x, next := next }) } := by
  let stored : Node T := { data := func x, next := next }
  have hedit : edit guard func =
      { originalStructure := guard.originalStructure, data := some stored } := by
    rw [edit, hdata]
    rfl
  rw [hedit, dropMut_completes]
  exact and_iff_left rfl

theorem drop {after : SharedList T} {guard : MutCowData (Node T)} {i : Nat}
    (hw : MutPassWorld func list slots xs pass) (hguard : pass.guards[i]? = some (some guard))
    (hcall : (object orderFn).Completes pass.list (enter orderFn (.dropMut (edit guard func))) after
      .unit) :
    MutPassWorld func list slots xs
      { pass with list := after, guards := pass.guards.set i none } := by
  obtain ⟨x, next, hx, hslot, hnext, hdata⟩ := hw.held i guard hguard
  obtain rfl := (drop_iff hdata).mp hcall
  refine ⟨?_, hw.first, hw.nodup, hw.immFree, ?_, ?_, ?_, hw.len⟩
  · rw [MutPass.dropped_drop hguard, updatedAt_update hx]
    change Chain (pass.list.heap.setInner _ _).links _ _
    rw [Heap.links_setInner]
    exact hw.chain.set hw.nodup hslot hnext (func x)
  · intro j other hj
    rw [List.length_set] at hj
    exact hw.mutFree j other hj
  · rw [List.length_set]
    exact hw.current
  · intro j held hheld
    rw [List.getElem?_set] at hheld
    split at hheld
    · simp at hheld
    · exact hw.held j held hheld

theorem step (hw : MutPassWorld func list slots xs pass) (hstep : MutStep orderFn func pass final) :
    MutPassWorld func list slots xs final := by
  cases hstep with
  | next hcall => exact hw.next hcall
  | finished hcall => exact hw.finished hcall
  | drop hguard hcall => exact hw.drop hguard hcall

theorem run (hw : MutPassWorld func list slots xs pass)
    (hrun : Relation.ReflTransGen (MutStep orderFn func) pass final) :
    MutPassWorld func list slots xs final := by
  induction hrun with
  | refl => exact hw
  | tail _ hstep ih => exact ih.step hstep

/-- The chain starts at `head`. -/
theorem slots_eq (hw : MutPassWorld func list slots xs pass) :
    ∃ rest, slots = headSlot :: rest := by
  match slots, hw.first with
  | _ :: rest, hfirst =>
      cases hfirst
      exact ⟨rest, rfl⟩

end MutPassWorld

/-- The list in the middle of a pass over the elements `xs`, and what the thread may do next. -/
structure MutPass.Updates (orderFn : Option (T → T → Ordering)) (func : T → T)
    (list : SharedList T) (xs : List T) (pass : MutPass T) : Prop where
  holds : pass.list.Holds (updatedAt pass.dropped func xs)
  iterates : Iterates orderFn pass.list headSlot (updatedAt pass.dropped func xs)
  len : pass.list.len = list.len
  yielded : pass.guards.length ≤ xs.length
  next : pass.guards.length < xs.length → ∃ after guard next,
    (object orderFn).Completes pass.list (enter orderFn (.iterMutNext pass.current)) after
      (.lent (some (guard, next)))
  finished : pass.guards.length = xs.length →
    (object orderFn).Completes pass.list (enter orderFn (.iterMutNext pass.current)) pass.list
      (.lent none)
  drop : ∀ (i : Nat) (guard : MutCowData (Node T)), pass.guards[i]? = some (some guard) → ∃ after,
    (object orderFn).Completes pass.list (enter orderFn (.dropMut (edit guard func))) after .unit
  complete : pass.guards = List.replicate xs.length none → pass.list.Holds (xs.map func)

theorem MutPassWorld.updates {func : T → T} {list : SharedList T} {slots : List Slot} {xs : List T}
    {pass : MutPass T} (hw : MutPassWorld func list slots xs pass)
    (orderFn : Option (T → T → Ordering)) : pass.Updates orderFn func list xs := by
  obtain ⟨rest, rfl⟩ := hw.slots_eq
  refine ⟨⟨rest, hw.chain⟩, iterates hw.chain hw.immFree, hw.len, hw.length_le, ?_, ?_, ?_, ?_⟩
  · intro hlt
    rcases hw.inner_current with ⟨x, next, -, -, hinner⟩ | ⟨heq, -⟩
    · exact ⟨_, _, _,
        (iterMutNext_some hw.mutFree_current hw.immFree_current hinner).mpr ⟨rfl, rfl⟩⟩
    · exact absurd heq (Nat.ne_of_lt hlt)
  · intro heq
    rcases hw.inner_current with ⟨x, next, hx, -⟩ | ⟨-, hinner⟩
    · rw [heq, List.getElem?_eq_none (Nat.le_refl _)] at hx
      cases hx
    · exact (iterMutNext_none hw.immFree_current hinner).mpr ⟨rfl, rfl⟩
  · intro i guard hguard
    obtain ⟨x, next, -, -, -, hdata⟩ := hw.held i guard hguard
    exact ⟨_, (drop_iff hdata).mpr rfl⟩
  · intro hall
    have hdropped : ∀ i, i < xs.length → pass.dropped i = true := by
      intro i hi
      rw [MutPass.dropped, hall, List.getElem?_replicate, if_pos hi]
      rfl
    rw [← updatedAt_all hdropped]
    exact ⟨rest, hw.chain⟩

/-- **Elementwise.** At any point of a pass of `iter_mut`, in whatever order the guards are dropped,
the function has been applied exactly at the positions whose guards have been dropped. -/
theorem iter_mut_updates (orderFn : Option (T → T → Ordering)) {list : SharedList T} {xs : List T}
    (hlist : list.Represents xs) (func : T → T) {pass : MutPass T}
    (hrun : Relation.ReflTransGen (MutStep orderFn func) (.start list) pass) :
    pass.Updates orderFn func list xs := by
  obtain ⟨slots, hlayout⟩ := hlist
  exact ((MutPassWorld.start hlayout).run hrun).updates orderFn

/-- The second guard is dropped first. -/
theorem iter_mut_updates_out_of_order :
    ∃ pass : MutPass ℕ,
      Relation.ReflTransGen (MutStep none (· + 10)) (.start (ofList [1, 2])) pass ∧
      updatedAt pass.dropped (· + 10) [1, 2] = [1, 12] ∧
      pass.Updates none (· + 10) (ofList [1, 2]) [1, 2] := by
  have hrun := Relation.ReflTransGen.refl (r := MutStep none (· + 10)) (a := .start (ofList [1, 2]))
  have hrun := hrun.tail (.next ((iterMutNext_some rfl rfl rfl).mpr ⟨rfl, rfl⟩))
  have hrun := hrun.tail (.next ((iterMutNext_some rfl rfl rfl).mpr ⟨rfl, rfl⟩))
  have hrun := hrun.tail (.drop (i := 1) rfl ((dropMut_completes 1).mpr ⟨rfl, rfl⟩))
  exact ⟨_, hrun, rfl, iter_mut_updates none (ofList_represents [1, 2]) (· + 10) hrun⟩

end Mutual.SharedList
