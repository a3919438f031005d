import Mutual.Proof.Sorting

/-!
# Removals and searches on an ordered list

A removal overwrites an element by what it has read in the slot behind. What fits there fits in the
slot of the element as well, so the list stays in order, whatever has been stored behind since. This
module adds removals and searches to the pushes, and follows the elements: what is on the list is what
the pushing threads have brought.
-/

namespace Mutual.SharedList

open Concurrency Data

variable {T : Type}

namespace Sorting

section Rules

variable (g : Sorting T) (order : T → T → Ordering) (noneq : Bool)

def Begins : Call T → Prop
  | .push data => g = start (some data) headSlot
  | .removeCount _ _ | .search _ | .any _ => g = start none headSlot
  | _ => False

def Comes : Label T → Prop
  | .pushWalk order' data slot => g.Arrives order noneq (.pushWalk order' data slot)
  | .removeCount _ _ slot _ _ | .search _ _ slot | .any _ slot => g.Walks slot

def Goes : Label T → Prop
  | .pushWalk order' data slot => g.Leaves order (.pushWalk order' data slot)
  | .removeCount _ _ slot _ _ | .search _ _ slot | .any _ slot => g = start none slot

end Rules

end Sorting

/-- The protocol of the calls a map makes to its buckets. -/
def ordering (order : T → T → Ordering) (noneq : Bool) :
    Protocol (object (some order)) (Sorting T) where
  rest := .start none headSlot
  start call g := g.Begins call
  may _ g := g.Allows
  move _ g := g.Move noneq
  fail _ _ := True
  arrive _ label g := g.Comes order noneq label
  leave _ label g := g.Goes order label
  finish _ _ _ := True

section Code

variable {order : T → T → Ordering} {noneq : Bool} {call : Call T} {g : Sorting T}

@[simp] theorem ordering_may {instr : Instr T} :
    (ordering order noneq).may call g instr ↔ g.Allows instr := Iff.rfl

@[simp] theorem ordering_move {instr : Instr T} {answer : instr.Answer} {g' : Sorting T} :
    (ordering order noneq).move call g instr answer g' ↔ g.Move noneq instr answer g' := Iff.rfl

@[simp] theorem ordering_fail : (ordering order noneq).fail call g ↔ True := Iff.rfl

@[simp] theorem ordering_arrive {label : Label T} :
    (ordering order noneq).arrive call label g ↔ g.Comes order noneq label := Iff.rfl

@[simp] theorem ordering_finish {result : Reply T} :
    (ordering order noneq).finish call result g ↔ True := Iff.rfl

/-- A push does what it does among pushes. -/
theorem ordering_of_sorting {code : Prog (sig T) (Outcome T)}
    (hobeys : (sorting order noneq).Obeys call code g) : (ordering order noneq).Obeys call code g := by
  refine Protocol.Obeys.mono (P := sorting order noneq) (Q := ordering order noneq)
    (fun _ _ => Sorting.May.allows) (fun _ _ _ _ hmove => hmove) (fun _ hfail => hfail) ?_
    (fun _ _ hfinish => hfinish) hobeys
  intro g label harrive
  cases label with
  | pushWalk order' data slot => exact harrive
  | _ => exact harrive.elim

theorem ordering_removeCountLoop (func : List T → T → Bool) (seen : List T) (current : Slot)
    (count : UInt32) (output : List T) :
    (ordering order noneq).Obeys call (removeCountLoop func seen current count output)
      (.start none current) := by
  simp only [removeCountLoop, gt_iff_lt, Bool.and_eq_true, Bool.not_eq_eq_eq_not, Bool.not_true,
    decide_eq_true_eq, Prog.bind_eq, perform_bind, createLock_bind, removeLock_bind, getRef_bind,
    Option.isNone_iff_eq_none, isNull_bind, Option.isNone_eq_false_iff, Sorting.start,
    Protocol.obeys_op, ordering_may, Sorting.Allows, Sorting.May, ordering_move, Sorting.Move,
    Sorting.Walks, forall_eq, reduceCtorEq, false_and, exists_false, or_false, true_and,
    forall_const]
  intro content
  cases content with
  | none => simp [Sorting.Allows, Sorting.May]
  | some node =>
      by_cases hcount : 0 < count
      · simp only [Option.isSome_some, hcount, and_self, ↓reduceIte, Protocol.obeys_op,
          ordering_may, Sorting.Allows, Sorting.May, ordering_move, Sorting.Move, Sorting.Walks,
          forall_eq, Option.some.injEq, exists_eq_left', true_or, true_and, forall_const]
        intro content
        cases content with
        | none => simp
        | some node =>
            simp only [reduceCtorEq, ↓reduceIte, Protocol.obeys_op, ordering_may, Sorting.Allows,
              Sorting.May, ordering_move, Sorting.Move, forall_eq, true_and]
            intro content
            cases content with
            | none => simp
            | some node =>
                by_cases hfunc : func seen node.data = true
                · simp [hfunc, Sorting.Allows, Sorting.Walks, Sorting.May, Sorting.Move,
                    Sorting.Comes]
                · simp [hfunc, Sorting.Allows, Sorting.Walks, Sorting.May, Sorting.Move,
                    Sorting.Comes]
      · simp [hcount, Sorting.Allows, Sorting.May]

theorem ordering_searchLoop (func : List T → T → Bool) (seen : List T) (current : Slot) :
    (ordering order noneq).Obeys call (searchLoop func seen current) (.start none current) := by
  simp only [searchLoop, Prog.bind_eq, perform_bind, getRef_bind, Option.isNone_iff_eq_none,
    isNull_bind, Sorting.start, Protocol.obeys_op, ordering_may, Sorting.Allows, Sorting.May,
    ordering_move, Sorting.Move, Sorting.Walks, forall_eq, reduceCtorEq, false_and, exists_false,
    or_false, true_and, forall_const]
  intro content
  cases content with
  | none => simp
  | some node =>
      simp only [reduceCtorEq, ↓reduceIte, Protocol.obeys_op, ordering_may, Sorting.Allows,
        Sorting.May, ordering_move, Sorting.Move, Sorting.Walks, forall_eq, Option.some.injEq,
        exists_eq_left', true_or, true_and, forall_const]
      intro content
      cases content with
      | none => simp
      | some node =>
          simp only [reduceCtorEq, ↓reduceIte, Protocol.obeys_op, ordering_may, Sorting.Allows,
            Sorting.May, ordering_move, Sorting.Move, forall_eq, true_and]
          intro content
          cases content with
          | none => simp
          | some node =>
              by_cases hfunc : func seen node.data = true
              · simp [hfunc, Sorting.Allows, Sorting.May, Sorting.Move]
              · simp [hfunc, Sorting.Allows, Sorting.Walks, Sorting.May, Sorting.Move,
                  Sorting.Comes]

theorem ordering_anyLoop (func : T → Bool) (current : Slot) :
    (ordering order noneq).Obeys call (anyLoop func current) (.start none current) := by
  simp only [anyLoop, iterNext, Prog.bind_eq, perform_bind, getRef_bind, Option.isNone_iff_eq_none,
    isNull_bind, Sorting.start, Protocol.obeys_op, ordering_may, Sorting.Allows, Sorting.May,
    ordering_move, Sorting.Move, Sorting.Walks, forall_eq, reduceCtorEq, false_and, exists_false,
    or_false, true_and, forall_const]
  intro content
  cases content with
  | none => simp
  | some node =>
      simp only [reduceCtorEq, ↓reduceIte, Protocol.obeys_op, ordering_may, Sorting.Allows,
        Sorting.May, ordering_move, Sorting.Move, Sorting.Walks, forall_eq, Option.some.injEq,
        exists_eq_left', true_or, true_and, forall_const]
      intro content
      cases content with
      | none => simp
      | some node =>
          simp only [reduceCtorEq, ↓reduceIte, Protocol.obeys_op, ordering_may, Sorting.Allows,
            Sorting.May, ordering_move, Sorting.Move, forall_eq, true_and]
          intro content
          cases content with
          | none => simp
          | some node =>
              by_cases hfunc : func node.data = true
              · simp [hfunc, Sorting.Allows, Sorting.May, Sorting.Move]
              · simp [hfunc, Sorting.Allows, Sorting.Walks, Sorting.May, Sorting.Move,
                  Sorting.Comes]

theorem ordering_sound (order : T → T → Ordering) (noneq : Bool) : (ordering order noneq).Sound where
  enter := by
    intro call g hbegins
    cases call with
    | push data =>
        exact ordering_of_sorting ((sorting_sound order noneq).enter _ _ ⟨data, rfl, hbegins⟩)
    | removeCount func count =>
        obtain rfl : g = .start none headSlot := hbegins
        simp [enter, removeCount, head, Sorting.Allows, Sorting.May, Sorting.Move, Sorting.Comes,
          Sorting.Walks, Sorting.start]
    | search func =>
        obtain rfl : g = .start none headSlot := hbegins
        exact .inl rfl
    | any func =>
        obtain rfl : g = .start none headSlot := hbegins
        exact .inl rfl
    | _ => exact hbegins.elim
  body := by
    intro call label g hgoes
    cases label with
    | pushWalk order' data current =>
        exact ordering_of_sorting ((sorting_sound order noneq).body call _ _ hgoes)
    | removeCount func seen current count output =>
        obtain rfl : g = .start none current := hgoes
        exact ordering_removeCountLoop func seen current count output
    | search func seen current =>
        obtain rfl : g = .start none current := hgoes
        exact ordering_searchLoop func seen current
    | any func current =>
        obtain rfl : g = .start none current := hgoes
        exact ordering_anyLoop func current

end Code

/-! ### What is on the list -/

variable {ι : Type} [DecidableEq ι]

theorem SortedWorld.jump {order : T → T → Ordering} {noneq : Bool} {list : SharedList T}
    {ghost : ι → Sorting T} {g : SlotGrading T} {t : ι} {label : Label T}
    (hw : SortedWorld order noneq list ghost g) (hcomes : (ghost t).Comes order noneq label) :
    ∃ thread, thread.Goes order label ∧ SortedWorld.Proceeds order noneq list ghost t g g thread := by
  have hsame : ∀ slot p, g.pred slot = some p → g.pred slot = some p ∨ (ghost t).data = some p :=
    fun _ _ hp => .inl hp
  cases label with
  | pushWalk order' data slot =>
      obtain ⟨rfl, hdata, -, hslot⟩ := hcomes
      refine ⟨.start (some data) slot, ⟨rfl, rfl⟩,
        hw.learn ((hw.knows t).arrive hdata hslot) (.inl rfl), hsame, ?_⟩
      rintro _ ⟨⟩
      exact hdata
  | removeCount func seen slot count output | search func seen slot | any func slot =>
      refine ⟨.start none slot, rfl, hw.learn ((hw.knows t).walk hcomes ?_) (.inl rfl), hsame, ?_⟩
      all_goals simp [Sorting.start]

/-- The list is in order, and what is on it and what the threads bring belongs there. -/
structure FilledWorld (order : T → T → Ordering) (noneq : Bool) (belongs : T → Prop)
    (list : SharedList T) (ghost : ι → Sorting T) (g : SlotGrading T) : Prop where
  sorted : SortedWorld order noneq list ghost g
  pred : ∀ slot p, g.pred slot = some p → belongs p
  data : ∀ t data, (ghost t).data = some data → belongs data

namespace FilledWorld

variable {order : T → T → Ordering} {noneq : Bool} {belongs : T → Prop} {list list' : SharedList T}
  {ghost : ι → Sorting T} {g g' : SlotGrading T} {t : ι} {thread : Sorting T}

theorem proceed (hw : FilledWorld order noneq belongs list ghost g)
    (hproceeds : SortedWorld.Proceeds order noneq list' ghost t g g' thread) :
    FilledWorld order noneq belongs list' (Function.update ghost t thread) g' where
  sorted := hproceeds.world
  pred slot p hp := (hproceeds.pred slot p hp).elim (hw.pred slot p) (hw.data t p)
  data := (Function.forall_update_iff ghost fun _ thread =>
    ∀ data, thread.data = some data → belongs data).mpr
      ⟨fun data hdata => hw.data t data (hproceeds.data data hdata), fun u _ => hw.data u⟩

theorem restart (hw : FilledWorld order noneq belongs list ghost g) (t : ι) {data : Option T}
    (hdata : ∀ x, data = some x → belongs x) :
    FilledWorld order noneq belongs list (Function.update ghost t (.start data headSlot)) g where
  sorted := hw.sorted.learn (.start data hw.sorted.head) (.inl rfl)
  pred := hw.pred
  data := (Function.forall_update_iff ghost fun _ thread =>
    ∀ data, thread.data = some data → belongs data).mpr ⟨hdata, fun u _ => hw.data u⟩

omit [DecidableEq ι] in
theorem new (order : T → T → Ordering) (noneq : Bool) (belongs : T → Prop) :
    FilledWorld order noneq belongs { (new : SharedList T) with enforceNoneq := noneq }
      (fun _ : ι => .start none headSlot) { pred := fun _ => none, rank := fun _ => 0 } where
  sorted := new_sorted order noneq
  pred := by rintro slot p ⟨⟩
  data := by rintro t data ⟨⟩

omit [DecidableEq ι] in
/-- The chain from `head` does not come to a slot twice, it is in order, and its elements belong
there. -/
theorem chain (hw : FilledWorld order noneq belongs list ghost g) (horder : TotalPreorder order) :
    ∃ slots xs, Chain list.heap.links (headSlot :: slots) xs ∧ (headSlot :: slots).Nodup ∧
      (∀ slot ∈ headSlot :: slots, slot < list.heap.fresh) ∧ xs.Pairwise (InOrder order noneq) ∧
      ∀ x ∈ xs, belongs x := by
  have hgrades := hw.sorted.grades
  obtain ⟨xs, ⟨slots, hchain⟩, hsorted⟩ := hw.sorted.holds horder
  refine ⟨slots, xs, hchain, hgrades.nodup hchain, ?_, hsorted, fun x hx => ?_⟩
  · refine hchain.forall_mem (fun slot x next hlink => ?_) hw.sorted.headAllocated
    exact hw.sorted.next slot _ (Heap.inner_of_links hlink)
  · obtain ⟨next, hnext⟩ := hgrades.exists_pred hchain hx
    exact hw.pred next x hnext

end FilledWorld

end Mutual.SharedList
