import Mathlib.Algebra.Order.Field.Basic
import Mathlib.Algebra.Order.Ring.Rat
import Mathlib.Algebra.Field.Rat
import Mutual.Data.Grading
import Mutual.Proof.Insertion

/-!
# Concurrent pushes on an ordered list

An ordered `push` compares the elements it walks past with its own, and the element it stops at. The
element before a slot never changes, so what it has walked past needs no second look. What it stores
in front of does: the slot may have got another content since, and a push that has found `head` null
does not compare at all.
-/

namespace Mutual.SharedList

open Concurrency Data

variable {T : Type}

structure TotalPreorder (order : T → T → Ordering) : Prop where
  swap : ∀ a b, order b a = (order a b).swap
  trans : ∀ a b c, order a b ≠ .lt → order b c ≠ .lt → order a c ≠ .lt

/-- `x` may come before `y`. -/
def InOrder (order : T → T → Ordering) (noneq : Bool) (x y : T) : Prop :=
  order x y ≠ .lt ∧ (noneq = true → order x y ≠ .eq)

theorem TotalPreorder.inOrder_trans {order : T → T → Ordering} (horder : TotalPreorder order)
    (noneq : Bool) (a b c : T) (hab : InOrder order noneq a b) (hbc : InOrder order noneq b c) :
    InOrder order noneq a c := by
  have hac := horder.trans a b c hab.1 hbc.1
  refine ⟨hac, fun hnoneq heq => ?_⟩
  -- otherwise `c` is not behind `b`
  have hca : order c a ≠ .lt := by
    rw [horder.swap, heq]
    simp
  have hcb := horder.trans c a b hca hab.1
  rw [horder.swap] at hcb
  cases hbc' : order b c with
  | lt => exact hbc.1 hbc'
  | eq => exact hbc.2 hnoneq hbc'
  | gt =>
      rw [hbc'] at hcb
      exact hcb rfl

/-- A new element is in order with the element it is stored in front of. -/
def StoresInOrder (order : T → T → Ordering) (list : SharedList T) (_ : Slot)
    (content : Option (Node T)) : Prop :=
  ∀ node next, content = some node → list.heap.inner node.next = some next →
    InOrder order list.enforceNoneq node.data next.data

def CleanOrder {order : T → T → Ordering} {ι : Type} (config : Config (object (some order)) ι) :
    Action (object (some order)) ι → Prop
  | .tick t => OnStore (StoresInOrder order) config t
  | .invoke _ call => call.Pushes

/-! ### What a pushing thread knows -/

/-- The element a thread has to store, the slot it stands at, what it has read there last, and the
slot it has allocated. -/
structure Sorting (T : Type) where
  data : Option T
  current : Slot
  seen : Option (Node T)
  reserved : Option Slot

namespace Sorting

variable (g : Sorting T) (order : T → T → Ordering) (noneq : Bool)

def start (data : Option T) (current : Slot) : Sorting T :=
  { data := data, current := current, seen := none, reserved := none }

def May : Instr T → Prop
  | .cow (.load slot) | .cow (.loadFull slot) => slot = g.current
  | .cow (.alloc content) => g.reserved = none ∧ (content = none ∨ content = g.seen)
  | .cow (.store slot content) => slot = g.current ∧ ∃ data next,
      content = some { data := data, next := next } ∧ g.data = some data ∧ g.reserved = some next
  | .cow (.swap _ _) | .storeNoneq _ => False
  | _ => True

def Move : (instr : Instr T) → instr.Answer → Sorting T → Prop
  | .cow (.load _), answer, g' => g' = { g with seen := answer }
  | .cow (.loadFull _), answer, g' => g' = { g with seen := answer }
  | .cow (.alloc _), slot, g' => g' = { g with reserved := some slot }
  | .cow (.store _ _), _, g' => g' = { g with data := none, reserved := none }
  | .loadNoneq, answer, g' => answer = noneq ∧ g' = g
  | _, _, g' => g' = g

/-- The thread stays at its slot, or it goes past the element it has read there. -/
def Arrives : Label T → Prop
  | .pushWalk order' data slot => order' = order ∧ g.data = some data ∧ g.reserved = none ∧
      (slot = g.current ∨
        ∃ node, g.seen = some node ∧ slot = node.next ∧ InOrder order noneq node.data data)
  | _ => False

def Leaves : Label T → Prop
  | .pushWalk order' data slot => order' = order ∧ g = start (some data) slot
  | _ => False

/-- The slot a thread stands at, or the one behind the element it has read there. -/
def Walks (slot : Slot) : Prop := slot = g.current ∨ ∃ node, g.seen = some node ∧ slot = node.next

/-- What keeps the list in order: a thread may also read the slot behind, and store what it has read. -/
def Allows : Instr T → Prop
  | .cow (.load slot) => g.Walks slot
  | .cow (.store slot content) => g.May (.cow (.store slot content)) ∨ slot = g.current ∧ content = g.seen
  | instr => g.May instr

theorem May.allows {g : Sorting T} {instr : Instr T} (hmay : g.May instr) : g.Allows instr := by
  match instr with
  | .cow (.load slot) | .cow (.store slot content) => exact .inl hmay
  | .cow (.awaitImm _) | .cow (.acquireMut _) | .cow (.acquireImm _) | .cow (.releaseMut _)
  | .cow (.releaseImm _) | .cow (.loadFull _) | .cow (.swap _ _) | .cow (.alloc _) | .loadNoneq
  | .storeNoneq _ | .fetchAddLen | .fetchSubLen | .loadLen | .callback => exact hmay

end Sorting

def sorting (order : T → T → Ordering) (noneq : Bool) :
    Protocol (object (some order)) (Sorting T) where
  rest := .start none headSlot
  start call g := ∃ data, call = .push data ∧ g = .start (some data) headSlot
  may _ g := g.May
  move _ g := g.Move noneq
  fail _ _ := True
  arrive _ label g := g.Arrives order noneq label
  leave _ label g := g.Leaves order label
  finish _ _ _ := True

section Code

variable {order : T → T → Ordering} {noneq : Bool} {call : Call T} {g : Sorting T}

@[simp] theorem sorting_may {instr : Instr T} :
    (sorting order noneq).may call g instr ↔ g.May instr := Iff.rfl

@[simp] theorem sorting_move {instr : Instr T} {answer : instr.Answer} {g' : Sorting T} :
    (sorting order noneq).move call g instr answer g' ↔ g.Move noneq instr answer g' := Iff.rfl

@[simp] theorem sorting_fail : (sorting order noneq).fail call g ↔ True := Iff.rfl

@[simp] theorem sorting_arrive {label : Label T} :
    (sorting order noneq).arrive call label g ↔ g.Arrives order noneq label := Iff.rfl

@[simp] theorem sorting_finish {result : Reply T} :
    (sorting order noneq).finish call result g ↔ True := Iff.rfl

theorem sorting_pushHead {data : T} (hdata : g.data = some data) (hcurrent : g.current = headSlot)
    (hreserved : g.reserved = none) :
    (sorting order noneq).Obeys call (pushHead data) g := by
  simp only [pushHead, head, Prog.bind_eq, perform_bind, removeLock_bind, isNull_bind,
    Option.isNone_iff_eq_none, createLock_bind, Protocol.obeys_op, sorting_may, Sorting.May,
    sorting_move, Sorting.Move, forall_eq, forall_const, true_and, hcurrent, hdata, hreserved]
  intro content
  cases content with
  | none => simp [Sorting.May, Sorting.Move, *]
  | some node => simp [Sorting.May, Sorting.Move, *]

theorem sorting_pushWalk (data : T) (current : Slot) :
    (sorting order noneq).Obeys call (pushWalk order data current)
      (.start (some data) current) := by
  simp only [pushWalk, Prog.bind_eq, perform_bind, removeLock_bind, set_bind, Bool.and_eq_true,
    beq_iff_eq, getRef_bind, Option.isNone_iff_eq_none, isNull_bind, Sorting.start,
    Protocol.obeys_op, sorting_may, Sorting.May, sorting_move, Sorting.Move, forall_eq, true_and,
    forall_const]
  intro content
  cases content with
  | none => simp [Sorting.May, Sorting.Move]
  | some node =>
      simp only [reduceCtorEq, ↓reduceIte, Protocol.obeys_op, sorting_may, Sorting.May,
        sorting_move, Sorting.Move, forall_eq, true_and, forall_const]
      intro content
      cases content with
      | none => simp
      | some node =>
          simp only [reduceCtorEq, ↓reduceIte, Protocol.obeys_op, sorting_may, Sorting.May,
            sorting_move, Sorting.Move, forall_eq, true_and]
          intro content
          cases content with
          | none => simp
          | some read =>
              simp [Sorting.May, Sorting.Move]
              by_cases hequal : noneq = true ∧ order read.data data = .eq
              · simp [Sorting.May, Sorting.Move, hequal]
              · by_cases hless : order read.data data = .lt
                · simp [Sorting.May, Sorting.Move, hless]
                · have hin : InOrder order noneq read.data data :=
                    ⟨hless, fun hnoneq heq => hequal ⟨hnoneq, heq⟩⟩
                  simp [Sorting.May, Sorting.Move, Sorting.Arrives, hequal, hless, hin]

theorem sorting_sound (order : T → T → Ordering) (noneq : Bool) : (sorting order noneq).Sound where
  enter := by
    rintro call g ⟨data, rfl, rfl⟩
    simp only [enter, push]
    simp only [head, Prog.bind_eq, createLock_bind, isNull_bind, Option.isNone_iff_eq_none,
      Sorting.start, Protocol.obeys_op, sorting_may, Sorting.May, sorting_move, Sorting.Move,
      forall_eq, true_and, forall_const]
    intro content
    cases content with
    | none => exact sorting_pushHead rfl rfl rfl
    | some node => simp [Sorting.May, Sorting.Move, Sorting.Arrives]
  body := by
    intro call label g hleave
    cases label with
    | pushWalk order' data current =>
        obtain ⟨rfl, rfl⟩ := hleave
        exact sorting_pushWalk data current
    | _ => exact hleave.elim

end Code

/-! ### What the memory of the list guarantees -/

abbrev SlotGrading (T : Type) : Type := Grading Slot T ℚ

/-- The content of a slot as that of a linked cell. -/
def linked (content : Option (Node T)) : Option (T × Slot) :=
  content.map fun node => (node.data, node.next)

variable {ι : Type} [DecidableEq ι]

/-- What is true of a thread for good, whatever the others store. -/
structure Sorting.Knows (order : T → T → Ordering) (noneq : Bool) (fresh : Slot)
    (g : SlotGrading T) (thread : Sorting T) : Prop where
  /-- The slot is `head`, or there is an element before it. -/
  placed : thread.current = headSlot ∨ (g.pred thread.current).isSome = true
  passed : ∀ data p, thread.data = some data → g.pred thread.current = some p →
    InOrder order noneq p data
  seen : g.Fits (InOrder order noneq) thread.current (linked thread.seen)
  next : ∀ node, thread.seen = some node → node.next < fresh
  reserved : ∀ slot, thread.reserved = some slot →
    slot < fresh ∧ slot ≠ headSlot ∧ g.pred slot = none ∧ g.rank thread.current < g.rank slot

structure SortedWorld (order : T → T → Ordering) (noneq : Bool) (list : SharedList T)
    (ghost : ι → Sorting T) (g : SlotGrading T) : Prop where
  flag : list.enforceNoneq = noneq
  grades : g.Grades (InOrder order noneq) list.heap.links
  head : g.pred headSlot = none
  headAllocated : headSlot < list.heap.fresh
  next : ∀ slot node, list.heap.inner slot = some node → node.next < list.heap.fresh
  unallocated : ∀ slot, list.heap.fresh ≤ slot → g.pred slot = none
  knows : ∀ t, (ghost t).Knows order noneq list.heap.fresh g
  distinct : ∀ t u slot, (ghost t).reserved = some slot → (ghost u).reserved = some slot → t = u

namespace Sorting.Knows

variable {order : T → T → Ordering} {noneq : Bool} {fresh next : Slot} {g : SlotGrading T}
  {thread : Sorting T}

theorem ne_of_pred (hknows : thread.Knows order noneq fresh g) {slot : Slot}
    (hslot : slot ≠ headSlot) (hpred : g.pred slot = none) : thread.current ≠ slot := by
  rintro rfl
  rcases hknows.placed with hhead | hsome
  · exact hslot hhead
  · rw [hpred] at hsome
    cases hsome

theorem start (data : Option T) (hhead : g.pred headSlot = none) :
    (Sorting.start data headSlot).Knows order noneq fresh g := by
  refine ⟨.inl rfl, ?_, .none, by simp [Sorting.start], by simp [Sorting.start]⟩
  intro data p _ hp
  change g.pred headSlot = some p at hp
  rw [hhead] at hp
  cases hp

theorem see (hknows : thread.Knows order noneq fresh g) {content : Option (Node T)}
    (hfits : g.Fits (InOrder order noneq) thread.current (linked content))
    (hnext : ∀ node, content = some node → node.next < fresh) :
    ({ thread with seen := content } : Sorting T).Knows order noneq fresh g :=
  ⟨hknows.placed, hknows.passed, hfits, hnext, hknows.reserved⟩

/-- A fresh slot gets its rank. -/
theorem place (hknows : thread.Knows order noneq fresh g) (hfresh : g.pred fresh = none)
    (hhead : fresh ≠ headSlot) (rank : ℚ) :
    thread.Knows order noneq (fresh + 1) (g.place fresh rank) := by
  have hcurrent := hknows.ne_of_pred hhead hfresh
  refine ⟨hknows.placed, hknows.passed, hknows.seen.place hfresh hcurrent rank, ?_, ?_⟩
  · intro node hnode
    exact Nat.lt_succ_of_lt (hknows.next node hnode)
  · intro slot hslot
    obtain ⟨hlt, hne, hpred, hrank⟩ := hknows.reserved slot hslot
    refine ⟨Nat.lt_succ_of_lt hlt, hne, hpred, ?_⟩
    rwa [Grading.place_rank, Function.update_of_ne hcurrent,
      Function.update_of_ne (Nat.ne_of_lt hlt)]

/-- Another thread's slot gets its place on the list. -/
theorem claim (hknows : thread.Knows order noneq fresh g) {slot : Slot} {data : T}
    (hslot : slot ≠ headSlot) (hpred : g.pred slot = none)
    (hother : thread.reserved ≠ some slot) :
    thread.Knows order noneq fresh (g.claim slot data) := by
  have hcurrent := hknows.ne_of_pred hslot hpred
  refine ⟨?_, ?_, hknows.seen.claim hpred hcurrent data, hknows.next, ?_⟩
  · rw [Grading.claim_pred, Function.update_of_ne hcurrent]
    exact hknows.placed
  · intro data' p hdata hp
    rw [Grading.claim_pred, Function.update_of_ne hcurrent] at hp
    exact hknows.passed data' p hdata hp
  · intro other hreserved
    obtain ⟨hlt, hne, hnone, hrank⟩ := hknows.reserved other hreserved
    refine ⟨hlt, hne, ?_, hrank⟩
    rw [Grading.claim_pred, Function.update_of_ne]
    · exact hnone
    · rintro rfl
      exact hother hreserved

/-- On to the next slot. -/
theorem walk (hknows : thread.Knows order noneq fresh g) {data : Option T} {slot : Slot}
    (hslot : thread.Walks slot)
    (hpassed : ∀ x p, data = some x → g.pred slot = some p → InOrder order noneq p x) :
    (Sorting.start data slot).Knows order noneq fresh g := by
  refine ⟨?_, hpassed, .none, by simp [Sorting.start], by simp [Sorting.start]⟩
  rcases hslot with rfl | ⟨node, hnode, rfl⟩
  · exact hknows.placed
  · obtain ⟨hpred, -, -⟩ := hknows.seen node.data node.next (by rw [hnode]; rfl)
    refine .inr ?_
    change (g.pred node.next).isSome = true
    rw [hpred]
    rfl

theorem arrive (hknows : thread.Knows order noneq fresh g) {data : T} {slot : Slot}
    (hdata : thread.data = some data)
    (hslot : slot = thread.current ∨ ∃ node, thread.seen = some node ∧ slot = node.next ∧
      InOrder order noneq node.data data) :
    (Sorting.start (some data) slot).Knows order noneq fresh g := by
  rcases hslot with rfl | ⟨node, hnode, rfl, hin⟩
  · refine hknows.walk (.inl rfl) ?_
    rintro x p ⟨⟩ hp
    exact hknows.passed data p hdata hp
  · refine hknows.walk (.inr ⟨node, hnode, rfl⟩) ?_
    rintro x p ⟨⟩ hp
    obtain ⟨hpred, -, -⟩ := hknows.seen node.data node.next (by rw [hnode]; rfl)
    rw [hpred] at hp
    cases hp
    exact hin

end Sorting.Knows

namespace SortedWorld

variable {order : T → T → Ordering} {noneq : Bool} {list : SharedList T} {ghost : ι → Sorting T}
  {g : SlotGrading T} {t : ι}

omit [DecidableEq ι] in
/-- Nothing but the locks and the counter changes. -/
theorem congr (hw : SortedWorld order noneq list ghost g) {list' : SharedList T}
    (hinner : list'.heap.inner = list.heap.inner) (hfresh : list'.heap.fresh = list.heap.fresh)
    (hnoneq : list'.enforceNoneq = list.enforceNoneq) : SortedWorld order noneq list' ghost g := by
  refine ⟨hnoneq.trans hw.flag, ?_, hw.head, ?_, ?_, ?_, ?_, hw.distinct⟩
  · rw [Heap.links_of_inner_eq hinner]
    exact hw.grades
  · rw [hfresh]
    exact hw.headAllocated
  · rw [hfresh, hinner]
    exact hw.next
  · rw [hfresh]
    exact hw.unallocated
  · rw [hfresh]
    exact hw.knows

/-- Nothing but what `t` knows changes. -/
theorem learn (hw : SortedWorld order noneq list ghost g) {thread : Sorting T}
    (hknows : thread.Knows order noneq list.heap.fresh g)
    (hreserved : thread.reserved = none ∨ thread.reserved = (ghost t).reserved) :
    SortedWorld order noneq list (Function.update ghost t thread) g := by
  refine ⟨hw.flag, hw.grades, hw.head, hw.headAllocated, hw.next, hw.unallocated, ?_, ?_⟩
  · exact (Function.forall_update_iff ghost
      (fun _ thread => Sorting.Knows order noneq list.heap.fresh g thread)).mpr
      ⟨hknows, fun u _ => hw.knows u⟩
  · intro u v slot
    refine unique_update (fun thread : Sorting T => thread.reserved = some slot) ghost t
      (fun u v => hw.distinct u v slot) ?_ u v
    intro hslot u hu
    rcases hreserved with hnone | hsame
    · rw [hnone] at hslot
      cases hslot
    · exact hw.distinct u t slot hu (hsame.symm.trans hslot)

/-- What is in the slot behind fits in the slot as well. -/
theorem load (hw : SortedWorld order noneq list ghost g) (horder : TotalPreorder order) {slot : Slot}
    (hslot : (ghost t).Walks slot) :
    SortedWorld order noneq list (Function.update ghost t
      { ghost t with seen := list.heap.inner slot }) g := by
  refine hw.learn ((hw.knows t).see ?_ (hw.next slot)) (.inr rfl)
  rcases hslot with rfl | ⟨node, hnode, rfl⟩
  · exact hw.grades _
  · have hseen := (hw.knows t).seen
    rw [hnode] at hseen
    exact hseen.skip (horder.inOrder_trans noneq) (hw.grades node.next)

omit [DecidableEq ι] in
theorem fresh_ne_head (hw : SortedWorld order noneq list ghost g) :
    list.heap.fresh ≠ headSlot := (Nat.ne_of_lt hw.headAllocated).symm

theorem alloc (hw : SortedWorld order noneq list ghost g) {content : Option (Node T)}
    (hreserved : (ghost t).reserved = none)
    (hcontent : content = none ∨ content = (ghost t).seen) :
    ∃ g', g'.pred = g.pred ∧ SortedWorld order noneq { list with heap := list.heap.alloc content }
      (Function.update ghost t { ghost t with reserved := some list.heap.fresh }) g' := by
  have hpred := hw.unallocated list.heap.fresh (Nat.le_refl _)
  have hknows := hw.knows t
  have hfits : g.Fits (InOrder order noneq) (ghost t).current (linked content) := by
    rcases hcontent with rfl | rfl
    · exact .none
    · exact hknows.seen
  have hnext : ∀ node, content = some node → node.next < list.heap.fresh + 1 := by
    intro node hnode
    rcases hcontent with rfl | rfl
    · cases hnode
    · exact Nat.lt_succ_of_lt (hknows.next node hnode)
  obtain ⟨rank, hrank, hplaced⟩ := hfits.copy hpred
  have hcurrent := hknows.ne_of_pred hw.fresh_ne_head hpred
  refine ⟨g.place list.heap.fresh rank, rfl, hw.flag, ?_, hw.head,
    Nat.lt_succ_of_lt hw.headAllocated, ?_, ?_, ?_, ?_⟩
  · change Grading.Grades _ _ (list.heap.alloc content).links
    rw [Heap.links_alloc]
    intro cell
    by_cases hcell : cell = list.heap.fresh
    · rw [hcell, Function.update_self]
      exact hplaced
    · rw [Function.update_of_ne hcell]
      exact (hw.grades cell).place hpred hcell rank
  · intro slot node hnode
    change Function.update list.heap.inner list.heap.fresh content slot = some node at hnode
    by_cases hslot : slot = list.heap.fresh
    · rw [hslot, Function.update_self] at hnode
      exact hnext node hnode
    · rw [Function.update_of_ne hslot] at hnode
      exact Nat.lt_succ_of_lt (hw.next slot node hnode)
  · intro slot hslot
    exact hw.unallocated slot (Nat.le_of_succ_le hslot)
  · intro u
    have hother := (hw.knows u).place hpred hw.fresh_ne_head rank
    by_cases hut : u = t
    · subst hut
      rw [Function.update_self]
      refine ⟨hother.placed, hother.passed, hother.seen, hother.next, ?_⟩
      rintro slot ⟨⟩
      refine ⟨Nat.lt_succ_self _, hw.fresh_ne_head, hpred, ?_⟩
      change (g.place list.heap.fresh rank).rank (ghost u).current < _
      rwa [Grading.place_rank, Function.update_self, Function.update_of_ne hcurrent]
    · rw [Function.update_of_ne hut]
      exact hother
  · have hother : ∀ u, (ghost u).reserved ≠ some list.heap.fresh :=
      fun u hu => absurd ((hw.knows u).reserved _ hu).1 (Nat.lt_irrefl _)
    intro u v slot
    refine unique_update (fun thread : Sorting T => thread.reserved = some slot) ghost t
      (fun u v => hw.distinct u v slot) ?_ u v
    rintro ⟨⟩ u hu
    exact absurd hu (hother u)

/-- A store in order. -/
theorem store (hw : SortedWorld order noneq list ghost g) {data : T} {next : Slot}
    (hdata : (ghost t).data = some data) (hreserved : (ghost t).reserved = some next)
    (hclean : list.StoresInOrder order (ghost t).current (some { data := data, next := next })) :
    SortedWorld order noneq
      { list with
        heap := list.heap.setInner (ghost t).current (some { data := data, next := next }) }
      (Function.update ghost t { ghost t with data := none, reserved := none })
      (g.claim next data) := by
  have hknows := hw.knows t
  obtain ⟨hlt, hhead, hpred, hrank⟩ := hknows.reserved next hreserved
  have hcurrent := hknows.ne_of_pred hhead hpred
  have hgrades : (g.claim next data).Grades (InOrder order noneq) list.heap.links := by
    intro cell
    by_cases hcell : cell = next
    · subst hcell
      refine (hw.grades cell).claim_self hpred ?_
      intro y other hlink
      have horder := hclean _ _ rfl (Heap.inner_of_links hlink)
      rwa [hw.flag] at horder
    · exact (hw.grades cell).claim hpred hcell data
  have hother : ∀ u, u ≠ t → (ghost u).reserved ≠ some next :=
    fun u hut hu => hut (hw.distinct u t next hu hreserved)
  refine ⟨hw.flag, ?_, ?_, hw.headAllocated, ?_, ?_, ?_, ?_⟩
  · change Grading.Grades _ _ (list.heap.setInner _ _).links
    rw [Heap.links_setInner]
    exact hgrades.update (Grading.fits_claimed hcurrent hrank fun p => hknows.passed data p hdata)
  · rw [Grading.claim_pred, Function.update_of_ne (Ne.symm hhead)]
    exact hw.head
  · intro slot node hnode
    change Function.update list.heap.inner _ _ slot = some node at hnode
    by_cases hslot : slot = (ghost t).current
    · rw [hslot, Function.update_self] at hnode
      cases hnode
      exact hlt
    · rw [Function.update_of_ne hslot] at hnode
      exact hw.next slot node hnode
  · intro slot hslot
    have hne : slot ≠ next := fun heq => absurd hlt (Nat.not_lt.mpr (heq ▸ hslot))
    rw [Grading.claim_pred, Function.update_of_ne hne]
    exact hw.unallocated slot hslot
  · intro u
    by_cases hut : u = t
    · subst hut
      rw [Function.update_self]
      have hstored : ({ ghost u with data := none, reserved := none } : Sorting T).Knows order
          noneq list.heap.fresh g :=
        ⟨hknows.placed, by simp, hknows.seen, hknows.next, by simp⟩
      exact hstored.claim hhead hpred (by simp)
    · rw [Function.update_of_ne hut]
      exact (hw.knows u).claim hhead hpred (hother u hut)
  · intro u v slot
    refine unique_update (fun thread : Sorting T => thread.reserved = some slot) ghost t
      (fun u v => hw.distinct u v slot) ?_ u v
    rintro ⟨⟩

/-- A slot is overwritten by what fits in it. -/
theorem overwrite (hw : SortedWorld order noneq list ghost g) :
    SortedWorld order noneq
      { list with heap := list.heap.setInner (ghost t).current (ghost t).seen }
      (Function.update ghost t { ghost t with data := none, reserved := none }) g := by
  have hknows := hw.knows t
  have hoverwritten : SortedWorld order noneq
      { list with heap := list.heap.setInner (ghost t).current (ghost t).seen } ghost g := by
    refine ⟨hw.flag, ?_, hw.head, hw.headAllocated, ?_, hw.unallocated, hw.knows, hw.distinct⟩
    · change Grading.Grades _ _ (list.heap.setInner _ _).links
      rw [Heap.links_setInner]
      exact hw.grades.update hknows.seen
    · intro slot node hnode
      change Function.update list.heap.inner _ _ slot = some node at hnode
      by_cases hslot : slot = (ghost t).current
      · rw [hslot, Function.update_self] at hnode
        exact hknows.next node hnode
      · rw [Function.update_of_ne hslot] at hnode
        exact hw.next slot node hnode
  have hstored : ({ ghost t with data := none, reserved := none } : Sorting T).Knows order noneq
      list.heap.fresh g := ⟨hknows.placed, by simp, hknows.seen, hknows.next, by simp⟩
  exact hoverwritten.learn hstored (.inl rfl)

/-- What an instruction of `t` makes of the order of the list. -/
structure Proceeds (order : T → T → Ordering) (noneq : Bool) (list' : SharedList T)
    (ghost : ι → Sorting T) (t : ι) (g g' : SlotGrading T) (thread : Sorting T) : Prop where
  world : SortedWorld order noneq list' (Function.update ghost t thread) g'
  pred : ∀ slot p, g'.pred slot = some p → g.pred slot = some p ∨ (ghost t).data = some p
  data : ∀ data, thread.data = some data → (ghost t).data = some data

/-- **One instruction** that is answered. -/
theorem step (hw : SortedWorld order noneq list ghost g) (horder : TotalPreorder order)
    {instr : Instr T} (hallows : (ghost t).Allows instr)
    (hclean : ∀ slot content, instr = .cow (.store slot content) →
      list.StoresInOrder order slot content) {list' : SharedList T} {answer : instr.Answer}
    (hexec : exec instr list = (list', some answer)) :
    ∃ thread g', (ghost t).Move noneq instr answer thread ∧
      Proceeds order noneq list' ghost t g g' thread := by
  have hsame (hinner : list'.heap.inner = list.heap.inner)
      (hfresh : list'.heap.fresh = list.heap.fresh)
      (hnoneq : list'.enforceNoneq = list.enforceNoneq) :
      Proceeds order noneq list' ghost t g g (ghost t) := by
    refine ⟨?_, fun _ _ hp => .inl hp, fun _ hdata => hdata⟩
    rw [Function.update_eq_self]
    exact hw.congr hinner hfresh hnoneq
  match instr, hallows with
  | .cow (.awaitImm _), _ | .cow (.acquireMut _), _ | .cow (.acquireImm _), _
  | .cow (.releaseMut _), _ | .cow (.releaseImm _), _ | .fetchAddLen, _ | .fetchSubLen, _
  | .loadLen, _ | .callback, _ =>
      have hlist : (exec _ list).1 = list' := congrArg Prod.fst hexec
      subst hlist
      exact ⟨_, _, rfl, hsame rfl rfl rfl⟩
  | .loadNoneq, _ =>
      cases hexec
      exact ⟨_, _, ⟨hw.flag, rfl⟩, hsame rfl rfl rfl⟩
  | .cow (.load slot), hslot =>
      cases hexec
      exact ⟨_, _, rfl, hw.load horder hslot, fun _ _ hp => .inl hp, fun _ hdata => hdata⟩
  | .cow (.loadFull slot), hslot =>
      cases hexec
      exact ⟨_, _, rfl, hw.load horder (.inl hslot), fun _ _ hp => .inl hp, fun _ hdata => hdata⟩
  | .cow (.alloc content), ⟨hreserved, hcontent⟩ =>
      cases hexec
      obtain ⟨g', hpred, hworld⟩ := hw.alloc hreserved hcontent
      refine ⟨_, g', rfl, hworld, fun slot p hp => .inl ?_, fun _ hdata => hdata⟩
      rwa [← hpred]
  | .cow (.store slot content), .inl ⟨hslot, data, next, hcontent, hdata, hreserved⟩ =>
      cases hexec
      subst hslot hcontent
      refine ⟨_, _, rfl, hw.store hdata hreserved (hclean _ _ rfl), fun slot p hp => ?_, by simp⟩
      by_cases hslot : slot = next
      · rw [hslot, Grading.claim_pred, Function.update_self] at hp
        exact .inr (hdata.trans hp)
      · rw [Grading.claim_pred, Function.update_of_ne hslot] at hp
        exact .inl hp
  | .cow (.store slot content), .inr ⟨hslot, hcontent⟩ =>
      cases hexec
      subst hslot hcontent
      exact ⟨_, g, rfl, hw.overwrite, fun _ _ hp => .inl hp, by simp⟩

omit [DecidableEq ι] in
theorem retry (hw : SortedWorld order noneq list ghost g) {instr : Instr T} {list' : SharedList T}
    (hexec : exec instr list = (list', none)) : SortedWorld order noneq list' ghost g := by
  obtain ⟨hinner, hfresh, hnoneq⟩ := retried_contents hexec
  exact hw.congr hinner hfresh hnoneq

omit [DecidableEq ι] in
/-- The list is in order. -/
theorem holds (hw : SortedWorld order noneq list ghost g) (horder : TotalPreorder order) :
    ∃ xs, list.Holds xs ∧ xs.Pairwise (InOrder order noneq) := by
  obtain ⟨slots, xs, hchain⟩ := hw.grades.exists_chain (Finset.range list.heap.fresh)
    (fun slot _ x next hlink =>
      Finset.mem_range.mpr (hw.next slot _ (Heap.inner_of_links hlink)))
    (Finset.mem_range.mpr hw.headAllocated)
  have htrans : Trans (InOrder order noneq) (InOrder order noneq) (InOrder order noneq) :=
    ⟨fun hab hbc => horder.inOrder_trans noneq _ _ _ hab hbc⟩
  exact ⟨xs, ⟨slots, hchain⟩, (hw.grades.isChain hchain).1.pairwise⟩

end SortedWorld

theorem sorting_keeps {order : T → T → Ordering} (horder : TotalPreorder order) (noneq : Bool) :
    (sorting order noneq).Keeps (CleanOrder (ι := ι)) fun list ghost _ =>
      ∃ g, SortedWorld order noneq list ghost g where
  invoke := by
    rintro config ghost t call ⟨g, hw⟩ hpushes -
    match call, hpushes with
    | .push data, _ =>
        exact ⟨_, ⟨data, rfl, rfl⟩, g,
          hw.learn (.start (some data) hw.head) (.inl rfl)⟩
  respond := by
    rintro config ghost t call result ⟨g, hw⟩ - - -
    exact ⟨g, hw.learn (.start none hw.head) (.inl rfl)⟩
  jump := by
    rintro config ghost t call label ⟨g, hw⟩ _ _ harrive
    match label, harrive with
    | .pushWalk _ data slot, ⟨rfl, hdata, _, hslot⟩ =>
        exact ⟨.start (some data) slot, ⟨rfl, rfl⟩, g,
          hw.learn ((hw.knows t).arrive hdata hslot) (.inl rfl)⟩
  answered := by
    rintro config ghost t call instr next state answer ⟨g, hw⟩ hat hclean hmay hexec
    obtain ⟨thread, g', hmove, hproceeds⟩ := hw.step horder (Sorting.May.allows hmay)
      (by rintro slot content rfl; exact OnStore.clean hclean hat) hexec
    exact ⟨thread, hmove, g', hproceeds.world⟩
  retried := by
    rintro config ghost t call instr next state ⟨g, hw⟩ _ _ - hexec
    exact ⟨g, hw.retry hexec⟩

omit [DecidableEq ι] in
theorem new_sorted (order : T → T → Ordering) (noneq : Bool) :
    SortedWorld order noneq { (new : SharedList T) with enforceNoneq := noneq }
      (fun _ : ι => (sorting order noneq).rest)
      ({ pred := fun _ => none, rank := fun _ => 0 } : SlotGrading T) := by
  have hinner : ∀ slot, (new : SharedList T).heap.inner slot = none := new_inner
  refine ⟨rfl, ?_, rfl, Nat.zero_lt_one, ?_, fun _ _ => rfl, fun _ => .start none rfl, ?_⟩
  · intro slot
    change Grading.Fits _ _ slot ((new : SharedList T).heap.links slot)
    rw [Heap.links_eq_none (hinner slot)]
    exact .none
  · intro slot node hnode
    change (new : SharedList T).heap.inner slot = some node at hnode
    rw [hinner] at hnode
    cases hnode
  · intro t u slot hslot
    cases hslot

/-- **Order.** In a run of pushes that store in order only, on a list built by `new_ordered`, the
elements are in order in every state reached, and no two of them compare equal if the flag was set
at the start. -/
theorem ordered_stays_sorted {order : T → T → Ordering} (horder : TotalPreorder order)
    (noneq : Bool) {config : Config (object (some order)) ι}
    (hreach : ((object (some order)).threads ι).Reach CleanOrder
      (.initial { (new : SharedList T) with enforceNoneq := noneq }) config) :
    ∃ xs, config.state.Holds xs ∧
      xs.Pairwise fun x y => order x y ≠ .lt ∧ (noneq = true → order x y ≠ .eq) := by
  obtain ⟨ghost, -, g, hw⟩ := Protocol.invariant (sorting_sound order noneq)
    (sorting_keeps horder noneq) ⟨_, new_sorted order noneq⟩ hreach
  exact hw.holds horder

/-! ### Runs -/

instance [DecidableEq T] (order : T → T → Ordering) (noneq : Bool) (x y : T) :
    Decidable (InOrder order noneq x y) :=
  inferInstanceAs (Decidable (order x y ≠ .lt ∧ (noneq = true → order x y ≠ .eq)))

instance [DecidableEq T] (order : T → T → Ordering) (list : SharedList T) (slot : Slot) :
    ∀ content, Decidable (list.StoresInOrder order slot content)
  | none => .isTrue (by rintro node next ⟨⟩)
  | some node => decidable_of_iff
      (∀ next ∈ list.heap.inner node.next, InOrder order list.enforceNoneq node.data next.data) (by
        constructor
        · rintro hin _ next ⟨⟩ hnext
          exact hin next hnext
        · exact fun hin next hnext => hin node next rfl hnext)

instance [DecidableEq T] {order : T → T → Ordering} {ι : Type} :
    ∀ (config : Config (object (some order)) ι) action, Decidable (CleanOrder config action)
  | config, .tick t => inferInstanceAs (Decidable (OnStore (StoresInOrder order) config t))
  | _, .invoke _ call => inferInstanceAs (Decidable (Call.Pushes call))

theorem ascending_totalPreorder : TotalPreorder ascending where
  swap a b := (Nat.compare_swap b a).symm
  trans a b c hab hbc := by
    unfold ascending at hab hbc ⊢
    rw [ne_eq, Nat.compare_eq_lt] at hab hbc ⊢
    omega

/-- A push of 3 meets a push of 7 behind it. -/
theorem ordered_stays_sorted_two_pushes :
    ∃ config : Config (object (some ascending)) Bool, ∃ xs,
      ((object (some ascending)).threads Bool).Reach CleanOrder
        (.initial { (new : SharedList Nat) with enforceNoneq := true }) config ∧
      config.Quiescent ∧ pushed config.history = [5, 3, 7] ∧ config.state.Holds xs ∧
      xs.Pairwise fun x y => ascending x y ≠ .lt ∧ (true = true → ascending x y ≠ .eq) := by
  obtain ⟨config, hrun, hquiescent, hpushed⟩ : ∃ config,
      ((object (some ascending)).threads Bool).runIf CleanOrder
        (.initial { (new : SharedList Nat) with enforceNoneq := true })
        (.invoke false (.push 5) :: List.replicate 10 (.tick false) ++
          .invoke true (.push 3) :: .invoke false (.push 7) :: List.replicate 8 (.tick true) ++
          List.replicate 2 (.tick false) ++ List.replicate 9 (.tick true) ++
          List.replicate 32 (.tick false)) = some config ∧
      config.Quiescent ∧ pushed config.history = [5, 3, 7] := by
    refine ⟨_, rfl, ?_, rfl⟩
    intro t
    cases t <;> rfl
  have hreach := System.reach_of_runIf _ hrun
  obtain ⟨xs, hholds, hsorted⟩ := ordered_stays_sorted ascending_totalPreorder true hreach
  exact ⟨config, xs, hreach, hquiescent, hpushed, hholds, hsorted⟩

/-- Two pushes find `head` null; the second one stores in front of the first one's element without
a look at it. -/
def pushesAtHead : List (Action (object (some ascending)) Bool) :=
  .invoke false (.push 5) :: .invoke true (.push 7) :: List.replicate 2 (.tick true) ++
    List.replicate 10 (.tick false) ++ List.replicate 9 (.tick true)

theorem ordered_stays_sorted_fails :
    ¬ ∀ config : Config (object (some ascending)) Bool,
      ((object (some ascending)).threads Bool).Reach (OnlyCalls Call.Pushes) (.initial new) config →
      config.Quiescent → ∀ xs, config.state.Holds xs → xs.Pairwise fun x y => ascending x y ≠ .lt := by
  intro hclaim
  obtain ⟨config, hrun, hquiescent, hholds⟩ : ∃ config,
      ((object (some ascending)).threads Bool).runIf (OnlyCalls Call.Pushes) (.initial new)
        pushesAtHead = some config ∧ config.Quiescent ∧ config.state.Holds [7, 5] := by
    refine ⟨_, rfl, ?_, [2, 1], rfl, rfl, rfl⟩
    intro t
    cases t <;> rfl
  have hsorted := hclaim config (System.reach_of_runIf _ hrun) hquiescent _ hholds
  exact absurd hsorted (by decide)

end Mutual.SharedList
