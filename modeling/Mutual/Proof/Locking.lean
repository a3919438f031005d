import Mutual.Proof.Runs

/-!
# Locks of a SharedList

`remove_lock` clears the flag of a slot no matter who has set it, and an ordered `push` calls it on
every slot it walks past, although it has taken the lock of `head` only. The lock of `head` is still
exclusive, since no node points back to `head`. What a push has to rely on is that `head` is not
empty when it comes to walk: at an empty slot it calls `set`, which takes the lock of the slot, and
the lock of `head` it has already.
-/

namespace Mutual.SharedList

open Concurrency Data

variable {T : Type} {ι : Type} [DecidableEq ι]

/-- The locks a thread has taken and not given back, after an instruction. -/
def holdsAfter (list : SharedList T) : Instr T → List Slot → List Slot
  | .cow (.acquireMut slot), held => if list.heap.mutLock slot then held else slot :: held
  | .cow (.releaseMut slot), held => held.erase slot
  | _, held => held

/-- A push that begins to walk at `head` finds an element there. -/
def WalksFullHead (list : SharedList T) : Label T → Prop
  | .pushWalk _ _ current => current = headSlot → (list.heap.inner headSlot).isSome = true
  | _ => True

instance (list : SharedList T) : ∀ label, Decidable (list.WalksFullHead label)
  | .pushWalk _ _ current => inferInstanceAs (Decidable (current = headSlot → _))
  | .removeCount .. | .search .. | .any .. => .isTrue trivial

/-- Every push that begins to walk finds an element at `head`, of which it has the lock. -/
def CleanWalk {orderFn : Option (T → T → Ordering)} (config : Config (object orderFn) ι) :
    Action (object orderFn) ι → Prop
  | .tick t => OnJump WalksFullHead config t
  | .invoke _ call => call.Writes

instance {orderFn : Option (T → T → Ordering)} :
    ∀ (config : Config (object orderFn) ι) action, Decidable (CleanWalk config action)
  | config, .tick t => inferInstanceAs (Decidable (OnJump WalksFullHead config t))
  | _, .invoke _ call => inferInstanceAs (Decidable (Call.Writes call))

/-! ### What a writing thread holds -/

/-- The lock a thread has, and whether the thread has it on a `head` that is not empty. -/
structure Locking where
  held : Option Slot
  full : Bool

namespace Locking

variable (g : Locking)

def May : Instr T → Prop
  | .cow (.acquireMut _) => g.held = none
  | .cow (.releaseMut slot) => slot = headSlot → g.held = some headSlot
  | .cow (.store slot content) => (slot = headSlot → g.held = some headSlot) ∧ PointsOn content
  | .cow (.alloc content) => PointsOn content
  | .cow (.swap _ _) => False
  | _ => True

def Learns (slot : Slot) (answer : Option (Node T)) : Prop :=
  PointsOn answer ∧ (slot = headSlot → g.full = true → answer ≠ none)

def Move : (instr : Instr T) → instr.Answer → Locking → Prop
  | .cow (.acquireMut slot), _, g' => g' = { held := some slot, full := false }
  | .cow (.releaseMut slot), _, g' =>
      g' = { held := if g.held = some slot then none else g.held, full := false }
  | .cow (.load slot), answer, g' => g' = g ∧ g.Learns slot answer
  | .cow (.loadFull slot), answer, g' => g' = g ∧ g.Learns slot answer
  | .cow (.store _ _), _, g' => g' = { g with full := false }
  | .cow (.alloc _), slot, g' => g' = g ∧ slot ≠ headSlot
  | _, _, g' => g' = g

def Arrives : Label T → Prop
  | .pushWalk _ _ current => if current = headSlot then g.held = some headSlot else g.held = none
  | .removeCount _ _ current _ _ => g.held = some current
  | _ => False

def Leaves : Label T → Prop
  | .pushWalk _ _ current =>
      if current = headSlot then g = { held := some headSlot, full := true } else g.held = none
  | .removeCount _ _ current _ _ => g.held = some current
  | _ => False

end Locking

def locking (orderFn : Option (T → T → Ordering)) : Protocol (object orderFn) Locking where
  rest := { held := none, full := false }
  start call g := call.Writes ∧ g = { held := none, full := false }
  may _ g := g.May
  move _ g := g.Move
  -- a panicked thread takes no lock any more
  fail _ _ := True
  arrive _ label g := g.Arrives label
  leave _ label g := g.Leaves label
  finish _ _ g := g.held = none

section Code

variable {orderFn : Option (T → T → Ordering)} {call : Call T} {g : Locking}

@[simp] theorem locking_may {instr : Instr T} :
    (locking orderFn).may call g instr ↔ g.May instr := Iff.rfl

@[simp] theorem locking_move {instr : Instr T} {answer : instr.Answer} {g' : Locking} :
    (locking orderFn).move call g instr answer g' ↔ g.Move instr answer g' := Iff.rfl

@[simp] theorem locking_fail : (locking orderFn).fail call g ↔ True := Iff.rfl

@[simp] theorem locking_arrive {label : Label T} :
    (locking orderFn).arrive call label g ↔ g.Arrives label := Iff.rfl

@[simp] theorem locking_finish {result : Reply T} :
    (locking orderFn).finish call result g ↔ g.held = none := Iff.rfl

theorem locking_pushHead {data : T} (hheld : g.held = none) :
    (locking orderFn).Obeys call (pushHead data) g := by
  simp only [pushHead, head, Prog.bind_eq, perform_bind, removeLock_bind, isNull_bind,
    Option.isNone_iff_eq_none, createLock_bind, Protocol.obeys_op, locking_may, Locking.May, hheld,
    locking_move, Locking.Move, Locking.Learns, ne_eq, forall_const, and_imp, forall_eq, true_and,
    Bool.false_eq_true, IsEmpty.forall_iff]
  intro content hpoints
  cases content with
  | none => simp [Locking.May, Locking.Move]
  | some node => simp [Locking.May, Locking.Move, Locking.Learns]

theorem locking_pushWalk_head {order : T → T → Ordering} {data : T} :
    (locking orderFn).Obeys call (pushWalk order data headSlot)
      { held := some headSlot, full := true } := by
  simp only [pushWalk, Prog.bind_eq, perform_bind, removeLock_bind, set_bind, Bool.and_eq_true,
    beq_iff_eq, getRef_bind, Option.isNone_iff_eq_none, isNull_bind, Protocol.obeys_op, locking_may,
    Locking.May, locking_move, Locking.Move, Locking.Learns, ne_eq, forall_const, and_imp,
    forall_eq, true_and]
  intro content hpoints hfull
  obtain ⟨node, rfl⟩ := Option.ne_none_iff_exists'.mp hfull
  simp only [reduceCtorEq, ↓reduceIte, Protocol.obeys_op, locking_may, Locking.May, locking_move,
    Locking.Move, Locking.Learns, ne_eq, forall_const, and_imp, forall_eq, true_and]
  intro content hpoints hfull
  obtain ⟨node, rfl⟩ := Option.ne_none_iff_exists'.mp hfull
  simp only [reduceCtorEq, ↓reduceIte, Protocol.obeys_op, locking_may, Locking.May, locking_move,
    Locking.Move, Locking.Learns, ne_eq, forall_const, and_imp, forall_eq, true_and]
  intro content hpoints hfull
  obtain ⟨node, rfl⟩ := Option.ne_none_iff_exists'.mp hfull
  rw [pointsOn_some] at hpoints
  cases horder : order node.data data with
  | lt => simp +contextual [horder, Locking.May, Locking.Move, Locking.Learns]
  | eq => simp [horder, Locking.May, Locking.Move, Locking.Arrives, hpoints]
  | gt => simp [horder, Locking.May, Locking.Move, Locking.Arrives, hpoints]

theorem locking_pushWalk {order : T → T → Ordering} {data : T} {current : Slot}
    (hcurrent : current ≠ headSlot) (hheld : g.held = none) :
    (locking orderFn).Obeys call (pushWalk order data current) g := by
  simp only [pushWalk, Prog.bind_eq, perform_bind, removeLock_bind, set_bind, Bool.and_eq_true,
    beq_iff_eq, getRef_bind, Option.isNone_iff_eq_none, isNull_bind, Protocol.obeys_op, locking_may,
    Locking.May, locking_move, Locking.Move, Locking.Learns, hcurrent, ne_eq, IsEmpty.forall_iff,
    and_true, and_imp, forall_eq, true_and, forall_const]
  intro content hpoints
  cases content with
  | none => simp [Locking.May, Locking.Move, hcurrent, hheld]
  | some node =>
      simp only [reduceCtorEq, ↓reduceIte, Protocol.obeys_op, locking_may, Locking.May,
        locking_move, Locking.Move, Locking.Learns, hcurrent, ne_eq, IsEmpty.forall_iff, and_true,
        and_imp, forall_eq, true_and, forall_const]
      intro content hpoints
      cases content with
      | none => simp
      | some node =>
          simp only [reduceCtorEq, ↓reduceIte, Protocol.obeys_op, locking_may, Locking.May,
            locking_move, Locking.Move, Locking.Learns, hcurrent, ne_eq, IsEmpty.forall_iff,
            and_true, and_imp, forall_eq, true_and]
          intro content hpoints
          cases content with
          | none => simp
          | some node =>
              rw [pointsOn_some] at hpoints
              cases horder : order node.data data with
              | lt => simp [horder, Locking.May, Locking.Move, Locking.Learns, hcurrent, hheld]
              | eq => simp [horder, Locking.May, Locking.Move, Locking.Arrives, hcurrent, hpoints, hheld]
              | gt => simp [horder, Locking.May, Locking.Move, Locking.Arrives, hcurrent, hpoints, hheld]

theorem locking_pop (hheld : g.held = none) : (locking orderFn).Obeys call pop g := by
  simp only [pop, head, Prog.bind_eq, removeLock_bind, perform_bind, getRef_bind,
    Option.isNone_iff_eq_none, isNull_bind, createLock_bind, Protocol.obeys_op, locking_may,
    Locking.May, hheld, locking_move, Locking.Move, Locking.Learns, ne_eq, forall_const, and_imp,
    forall_eq, true_and, Bool.false_eq_true, IsEmpty.forall_iff]
  intro content hpoints
  cases content with
  | none => simp [Locking.May, Locking.Move]
  | some node =>
      simp only [reduceCtorEq, ↓reduceIte, Protocol.obeys_op, locking_may, Locking.May,
        locking_move, Locking.Move, Locking.Learns, ne_eq, forall_const, and_imp, forall_eq,
        true_and, Bool.false_eq_true, IsEmpty.forall_iff]
      intro content hpoints
      cases content with
      | none => simp
      | some node =>
          simp only [reduceCtorEq, ↓reduceIte, Protocol.obeys_op, locking_may, Locking.May,
            locking_move, Locking.Move, Locking.Learns, Bool.false_eq_true, ne_eq,
            IsEmpty.forall_iff, imp_self, and_true, and_imp, forall_eq, true_and]
          intro content hpoints
          cases content with
          | none => simp
          | some node => simp +contextual [Locking.May, Locking.Move, Locking.Learns]

theorem locking_removeCountLoop (func : List T → T → Bool) (seen : List T) (current : Slot)
    (count : UInt32) (output : List T) (hheld : g.held = some current) :
    (locking orderFn).Obeys call (removeCountLoop func seen current count output) g := by
  simp only [removeCountLoop, gt_iff_lt, Bool.and_eq_true, Bool.not_eq_eq_eq_not, Bool.not_true,
    decide_eq_true_eq, Prog.bind_eq, perform_bind, createLock_bind, removeLock_bind, getRef_bind,
    Option.isNone_iff_eq_none, isNull_bind, Option.isNone_eq_false_iff, Protocol.obeys_op,
    locking_may, Locking.May, locking_move, Locking.Move, Locking.Learns, ne_eq, and_imp, forall_eq,
    true_and, forall_const]
  intro content hpoints hfull
  cases content with
  | none => simp [Locking.May, Locking.Move, hheld]
  | some node =>
      by_cases hcount : 0 < count
      · simp only [Option.isSome_some, hcount, and_self, ↓reduceIte, Protocol.obeys_op, locking_may,
          Locking.May, locking_move, Locking.Move, Locking.Learns, ne_eq, and_imp, forall_eq,
          true_and, forall_const]
        intro content hpoints hfull
        cases content with
        | none => simp
        | some node =>
            simp only [reduceCtorEq, ↓reduceIte, Protocol.obeys_op, locking_may, Locking.May,
              locking_move, Locking.Move, Locking.Learns, ne_eq, and_imp, forall_eq, true_and]
            intro content hpoints hfull
            cases content with
            | none => simp
            | some node =>
                by_cases hfunc : func seen node.data = true
                · simp +contextual [hfunc, Locking.May, Locking.Move, Locking.Learns,
                    Locking.Arrives, hheld]
                · simp +contextual [hfunc, Locking.May, Locking.Move, Locking.Arrives, hheld]
      · simp [hcount, Locking.May, Locking.Move, hheld]

theorem locking_sound (orderFn : Option (T → T → Ordering)) : (locking orderFn).Sound where
  enter := by
    rintro call g ⟨hwrites, rfl⟩
    cases call with
    | push data =>
        cases orderFn with
        | none => exact locking_pushHead rfl
        | some order =>
            simp only [enter, push]
            simp only [head, Prog.bind_eq, createLock_bind, isNull_bind, Option.isNone_iff_eq_none,
              Protocol.obeys_op, locking_may, Locking.May, locking_move, Locking.Move,
              Locking.Learns, ne_eq, forall_const, and_imp, forall_eq, true_and, Bool.false_eq_true,
              IsEmpty.forall_iff]
            intro content hpoints
            cases content with
            | none => exact locking_pushHead rfl
            | some node => simp [Locking.May, Locking.Move, Locking.Arrives]
    | pop => exact locking_pop rfl
    | removeCount func count =>
        simp [enter, removeCount, head, Locking.May, Locking.Move, Locking.Arrives]
    | setEnforceNoneq enforceNoneq =>
        simp [enter, Locking.May, Locking.Move]
    | _ => exact hwrites.elim
  body := by
    intro call label g hleave
    cases label with
    | pushWalk order data current =>
        change if current = headSlot then g = _ else g.held = none at hleave
        split at hleave
        · rename_i hcurrent
          subst hcurrent
          rw [hleave]
          exact locking_pushWalk_head
        · rename_i hcurrent
          exact locking_pushWalk hcurrent hleave
    | removeCount func seen current count output =>
        exact locking_removeCountLoop func seen current count output hleave
    | _ => exact hleave.elim

end Code

/-! ### What the memory of the list guarantees -/

structure LockingWorld (list : SharedList T) (ghost : ι → Locking) : Prop where
  next : ∀ slot, PointsOn (list.heap.inner slot)
  allocated : headSlot < list.heap.fresh
  /-- A set flag belongs to somebody. The converse is true of `head` only. -/
  locked : ∀ slot, list.heap.mutLock slot = true → ∃ t, (ghost t).held = some slot
  head : ∀ t, (ghost t).held = some headSlot → list.heap.mutLock headSlot = true
  exclusive : ∀ t u, (ghost t).held = some headSlot → (ghost u).held = some headSlot → t = u
  full : ∀ t, (ghost t).full = true →
    (ghost t).held = some headSlot ∧ list.heap.inner headSlot ≠ none

namespace LockingWorld

variable {list : SharedList T} {ghost : ι → Locking} {t : ι} {slot : Slot}

omit [DecidableEq ι] in
theorem of_heap_eq (hw : LockingWorld list ghost) {list' : SharedList T}
    (hinner : list'.heap.inner = list.heap.inner) (hmutLock : list'.heap.mutLock = list.heap.mutLock)
    (hfresh : list'.heap.fresh = list.heap.fresh) : LockingWorld list' ghost := by
  constructor
  · rw [hinner]
    exact hw.next
  · rw [hfresh]
    exact hw.allocated
  · rw [hmutLock]
    exact hw.locked
  · rw [hmutLock]
    exact hw.head
  · exact hw.exclusive
  · rw [hinner]
    exact hw.full

/-- A thread forgets or learns that the `head` it has the lock of is not empty. -/
theorem know (hw : LockingWorld list ghost) {g : Locking} (hheld : g.held = (ghost t).held)
    (hfull : g.full = true → g.held = some headSlot ∧ list.heap.inner headSlot ≠ none) :
    LockingWorld list (Function.update ghost t g) := by
  refine ⟨hw.next, hw.allocated, ?_, ?_, ?_, ?_⟩
  · intro other hlocked
    obtain ⟨u, hu⟩ := hw.locked other hlocked
    exact ⟨u, (update_field_eq Locking.held ghost t hheld u).trans hu⟩
  · intro u hu
    rw [update_field_eq Locking.held ghost t hheld] at hu
    exact hw.head u hu
  · intro u v hu hv
    rw [update_field_eq Locking.held ghost t hheld] at hu hv
    exact hw.exclusive u v hu hv
  · intro u hu
    by_cases hut : u = t
    · rw [hut, Function.update_self] at hu ⊢
      exact hfull hu
    · rw [Function.update_of_ne hut] at hu ⊢
      exact hw.full u hu

omit [DecidableEq ι] in
theorem learns (hw : LockingWorld list ghost) (t : ι) (slot : Slot) :
    (ghost t).Learns slot (list.heap.inner slot) := by
  refine ⟨hw.next slot, ?_⟩
  rintro rfl hfull
  exact (hw.full t hfull).2

theorem acquire (hw : LockingWorld list ghost) (hfree : list.heap.mutLock slot = false)
    (hheld : (ghost t).held = none) :
    LockingWorld { list with heap := list.heap.setMutLock slot true }
      (Function.update ghost t { held := some slot, full := false }) where
  next := hw.next
  allocated := hw.allocated
  locked := by
    intro other hlocked
    by_cases hother : other = slot
    · subst hother
      exact ⟨t, by rw [Function.update_self]⟩
    · have hbefore : list.heap.mutLock other = true := by
        rw [← hlocked]
        exact (Function.update_of_ne hother ..).symm
      obtain ⟨u, hu⟩ := hw.locked other hbefore
      have hut : u ≠ t := by
        rintro rfl
        rw [hheld] at hu
        cases hu
      exact ⟨u, by rw [Function.update_of_ne hut, hu]⟩
  head := by
    intro u hu
    by_cases hslot : headSlot = slot
    · simp only [Heap.setMutLock_mutLock]
      rw [hslot, Function.update_self]
    · simp only [Heap.setMutLock_mutLock]
      rw [Function.update_of_ne hslot]
      by_cases hut : u = t
      · subst hut
        rw [Function.update_self] at hu
        cases hu
        exact absurd rfl hslot
      · rw [Function.update_of_ne hut] at hu
        exact hw.head u hu
  exclusive := by
    -- who holds the lock of `head` has set its flag
    have hnot : slot = headSlot → ∀ u, (ghost u).held ≠ some headSlot := by
      rintro rfl u hu
      rw [hw.head u hu] at hfree
      cases hfree
    apply unique_update (fun g : Locking => g.held = some headSlot) ghost t hw.exclusive
    intro hslot u hu
    exact absurd hu (hnot (Option.some.inj hslot) u)
  full := by
    intro u hfull
    by_cases hut : u = t
    · rw [hut, Function.update_self] at hfull
      cases hfull
    · rw [Function.update_of_ne hut] at hfull ⊢
      exact hw.full u hfull

/-- Who has the lock of `head` after a release has it before, and it is not the one released. -/
theorem held_of_release (hw : LockingWorld list ghost)
    (hmay : slot = headSlot → (ghost t).held = some headSlot) {u : ι}
    (hu : (Function.update ghost t
      { held := if (ghost t).held = some slot then none else (ghost t).held, full := false } u).held =
        some headSlot) : (ghost u).held = some headSlot ∧ headSlot ≠ slot := by
  by_cases hut : u = t
  · subst hut
    rw [Function.update_self] at hu
    by_cases hheld : (ghost u).held = some slot
    · simp only [hheld, if_true] at hu
      cases hu
    · simp only [hheld, if_false] at hu
      refine ⟨hu, ?_⟩
      rintro rfl
      exact hheld hu
  · rw [Function.update_of_ne hut] at hu
    refine ⟨hu, fun hslot => ?_⟩
    exact hut (hw.exclusive u t hu (hmay hslot.symm))

/-- A flag is cleared by a thread that need not have set it, unless it is the flag of `head`. -/
theorem release (hw : LockingWorld list ghost)
    (hmay : slot = headSlot → (ghost t).held = some headSlot) :
    LockingWorld { list with heap := list.heap.setMutLock slot false }
      (Function.update ghost t
        { held := if (ghost t).held = some slot then none else (ghost t).held, full := false }) where
  next := hw.next
  allocated := hw.allocated
  locked := by
    intro other hlocked
    simp only [Heap.setMutLock_mutLock] at hlocked
    by_cases hother : other = slot
    · rw [hother, Function.update_self] at hlocked
      cases hlocked
    · rw [Function.update_of_ne hother] at hlocked
      obtain ⟨u, hu⟩ := hw.locked other hlocked
      refine ⟨u, ?_⟩
      by_cases hut : u = t
      · subst hut
        have hne : (ghost u).held ≠ some slot := by
          rw [hu]
          exact fun heq => hother (Option.some.inj heq)
        rw [Function.update_self]
        simp only [hne, if_false]
        exact hu
      · rw [Function.update_of_ne hut]
        exact hu
  head := by
    intro u hu
    obtain ⟨hold, hslot⟩ := hw.held_of_release hmay hu
    simp only [Heap.setMutLock_mutLock]
    rw [Function.update_of_ne hslot]
    exact hw.head u hold
  exclusive := by
    intro u v hu hv
    exact hw.exclusive u v (hw.held_of_release hmay hu).1 (hw.held_of_release hmay hv).1
  full := by
    intro u hfull
    by_cases hut : u = t
    · rw [hut, Function.update_self] at hfull
      cases hfull
    · rw [Function.update_of_ne hut] at hfull ⊢
      exact hw.full u hfull

theorem store (hw : LockingWorld list ghost) {content : Option (Node T)}
    (hmay : slot = headSlot → (ghost t).held = some headSlot) (hpoints : PointsOn content) :
    LockingWorld { list with heap := list.heap.setInner slot content }
      (Function.update ghost t { ghost t with full := false }) := by
  have hforget : LockingWorld list (Function.update ghost t { ghost t with full := false }) :=
    hw.know rfl (by simp)
  refine ⟨?_, hw.allocated, hforget.locked, hforget.head, hforget.exclusive, ?_⟩
  · intro other
    simp only [Heap.setInner_inner]
    by_cases hother : other = slot
    · rw [hother, Function.update_self]
      exact hpoints
    · rw [Function.update_of_ne hother]
      exact hw.next other
  · intro u hfull
    obtain ⟨hu, hinner⟩ := hforget.full u hfull
    have hut : u ≠ t := by
      rintro rfl
      rw [Function.update_self] at hfull
      cases hfull
    have hslot : headSlot ≠ slot := by
      intro hslot
      rw [Function.update_of_ne hut] at hu
      exact hut (hw.exclusive u t hu (hmay hslot.symm))
    simp only [Heap.setInner_inner]
    rw [Function.update_of_ne hslot]
    exact ⟨hu, hinner⟩

omit [DecidableEq ι] in
theorem alloc (hw : LockingWorld list ghost) {content : Option (Node T)}
    (hpoints : PointsOn content) :
    LockingWorld { list with heap := list.heap.alloc content } ghost := by
  have hslot : headSlot ≠ list.heap.fresh := Nat.ne_of_lt hw.allocated
  refine ⟨?_, Nat.lt_succ_of_lt hw.allocated, ?_, ?_, hw.exclusive, ?_⟩
  · intro other
    simp only [Heap.alloc_inner]
    by_cases hother : other = list.heap.fresh
    · rw [hother, Function.update_self]
      exact hpoints
    · rw [Function.update_of_ne hother]
      exact hw.next other
  · intro other hlocked
    simp only [Heap.alloc_mutLock] at hlocked
    by_cases hother : other = list.heap.fresh
    · rw [hother, Function.update_self] at hlocked
      cases hlocked
    · rw [Function.update_of_ne hother] at hlocked
      exact hw.locked other hlocked
  · intro u hu
    simp only [Heap.alloc_mutLock]
    rw [Function.update_of_ne hslot]
    exact hw.head u hu
  · intro u hfull
    simp only [Heap.alloc_inner]
    rw [Function.update_of_ne hslot]
    exact hw.full u hfull

theorem leave (hw : LockingWorld list ghost) {label : Label T} (harrive : (ghost t).Arrives label)
    (hfull : list.WalksFullHead label) :
    ∃ g : Locking, g.Leaves label ∧ g.held = (ghost t).held ∧
      LockingWorld list (Function.update ghost t g) := by
  have hsame : LockingWorld list (Function.update ghost t (ghost t)) := by
    rw [Function.update_eq_self]
    exact hw
  match label, harrive with
  | .removeCount func seen current count output, hheld => exact ⟨ghost t, hheld, rfl, hsame⟩
  | .pushWalk order data current, harrive =>
      by_cases hcurrent : current = headSlot
      · subst hcurrent
        have hheld : (ghost t).held = some headSlot := by
          simpa [Locking.Arrives] using harrive
        exact ⟨{ held := some headSlot, full := true }, by simp [Locking.Leaves], hheld.symm,
          hw.know hheld.symm fun _ => ⟨rfl, Option.isSome_iff_ne_none.mp (hfull rfl)⟩⟩
      · have hheld : (ghost t).held = none := by
          simpa [Locking.Arrives, hcurrent] using harrive
        exact ⟨ghost t, by simpa [Locking.Leaves, hcurrent] using hheld, rfl, hsame⟩

/-- What an answered instruction does to the memory, to what the thread knows and to its log. -/
theorem answered (hw : LockingWorld list ghost) {instr : Instr T} (hmay : (ghost t).May instr)
    {after : SharedList T} {answer : instr.Answer} (hexec : exec instr list = (after, some answer)) :
    ∃ g, (ghost t).Move instr answer g ∧ LockingWorld after (Function.update ghost t g) ∧
      holdsAfter list instr (ghost t).held.toList = g.held.toList := by
  have hsame : after.heap.inner = list.heap.inner → after.heap.mutLock = list.heap.mutLock →
      after.heap.fresh = list.heap.fresh →
      LockingWorld after (Function.update ghost t (ghost t)) := by
    intro hinner hmutLock hfresh
    rw [Function.update_eq_self]
    exact hw.of_heap_eq hinner hmutLock hfresh
  match instr, hmay with
  | .cow (.awaitImm slot), _ =>
      obtain ⟨-, rfl⟩ := awaitImm_answered hexec
      exact ⟨_, rfl, hsame rfl rfl rfl, rfl⟩
  | .cow (.acquireMut slot), hheld =>
      obtain ⟨hfree, rfl⟩ := acquireMut_answered hexec
      refine ⟨_, rfl, hw.acquire hfree hheld, ?_⟩
      have hnone : (ghost t).held = none := hheld
      rw [holdsAfter, hfree, hnone]
      rfl
  | .cow (.acquireImm slot), _ =>
      obtain ⟨-, rfl⟩ := acquireImm_answered hexec
      exact ⟨_, rfl, hsame rfl rfl rfl, rfl⟩
  | .cow (.releaseMut slot), hmay =>
      cases hexec
      refine ⟨_, rfl, hw.release hmay, ?_⟩
      rw [holdsAfter]
      cases hheld : (ghost t).held with
      | none => rfl
      | some other =>
          by_cases hslot : other = slot
          · simp [hslot]
          · simp [hslot]
  | .cow (.releaseImm slot), _ | .fetchAddLen, _ | .fetchSubLen, _ | .loadLen, _ | .callback, _
  | .loadNoneq, _ | .storeNoneq _, _ =>
      cases hexec
      exact ⟨_, rfl, hsame rfl rfl rfl, rfl⟩
  | .cow (.load slot), _ | .cow (.loadFull slot), _ =>
      cases hexec
      exact ⟨_, ⟨rfl, hw.learns t slot⟩, hsame rfl rfl rfl, rfl⟩
  | .cow (.alloc content), hpoints =>
      cases hexec
      refine ⟨_, ⟨rfl, (Nat.ne_of_lt hw.allocated).symm⟩, ?_, rfl⟩
      rw [Function.update_eq_self]
      exact hw.alloc hpoints
  | .cow (.store slot content), ⟨hmay, hpoints⟩ =>
      cases hexec
      exact ⟨_, rfl, hw.store hmay hpoints, rfl⟩

omit [DecidableEq ι] in
theorem retried (hw : LockingWorld list ghost) {instr : Instr T} {after : SharedList T}
    (hexec : exec instr list = (after, none)) :
    LockingWorld after ghost ∧ ∀ held, holdsAfter list instr held = held := by
  rcases retried_cases hexec with ⟨slot, rfl, rfl⟩ | ⟨slot, rfl, hlocked, rfl⟩ |
    ⟨slot, rfl, -, rfl⟩
  · exact ⟨hw, fun _ => rfl⟩
  · refine ⟨hw, fun held => ?_⟩
    rw [holdsAfter, hlocked]
    rfl
  · exact ⟨hw.of_heap_eq rfl rfl rfl, fun _ => rfl⟩

end LockingWorld

/-- The log of the locks a thread has is what its ghost state says. -/
theorem locking_keeps (orderFn : Option (T → T → Ordering)) :
    (locking orderFn).KeepsLog (fun list _ => holdsAfter list)
      (fun before => CleanWalk (ι := ι) before.1)
      fun list ghost held _ => LockingWorld list ghost ∧ held = fun t => (ghost t).held.toList where
  invoke := by
    intro config ghost held t call hw hcond hrest
    refine ⟨ghost t, ⟨hcond, hrest⟩, ?_⟩
    rw [Function.update_eq_self]
    exact hw
  respond := by
    rintro config ghost held t call result ⟨hw, rfl⟩ hthread hcond hfinish
    have hheld : (ghost t).held = none := hfinish
    refine ⟨hw.know hheld.symm (by simp [locking]), ?_⟩
    funext u
    rw [update_field_eq Locking.held ghost t hheld.symm]
  jump := by
    rintro config ghost held t call label ⟨hw, rfl⟩ hthread hcond harrive
    obtain ⟨g, hleaves, hheld, hw⟩ := hw.leave harrive (OnJump.clean hcond hthread)
    refine ⟨g, hleaves, hw, ?_⟩
    funext u
    rw [update_field_eq Locking.held ghost t hheld]
  answered := by
    rintro config ghost held t call instr next state answer ⟨hw, rfl⟩ hat hcond hmay hexec
    obtain ⟨g, hmove, hw, hlog⟩ := hw.answered hmay hexec
    refine ⟨g, hmove, hw, ?_⟩
    rw [hlog]
    exact (Function.comp_update (fun g : Locking => g.held.toList) ghost t g).symm
  retried := by
    rintro config ghost held t call instr next state ⟨hw, rfl⟩ hat hcond hmay hexec
    obtain ⟨hw, hlog⟩ := hw.retried hexec
    refine ⟨hw, ?_⟩
    rw [hlog, Function.update_eq_self]

omit [DecidableEq ι] in
theorem new_lockingWorld :
    LockingWorld (new : SharedList T) fun _ : ι => { held := none, full := false } where
  next := by
    intro slot
    rw [new_inner]
    exact pointsOn_none
  allocated := Nat.zero_lt_one
  locked := by
    intro slot hlocked
    rw [new_mutLock] at hlocked
    cases hlocked
  head := by
    rintro t ⟨⟩
  exclusive := by
    rintro t u ⟨⟩
  full := by
    rintro t ⟨⟩

/-- **Self-deadlock.** In a run of pushes and removals in which no push begins to walk at an empty
`head`, no thread waits for a lock it has, and no lock is left taken once all calls have returned. -/
theorem no_self_deadlock {orderFn : Option (T → T → Ordering)} {config : Config (object orderFn) ι}
    {held : ι → List Slot}
    (hreach : (((object orderFn).threads ι).monitored (logging fun list _ => holdsAfter list)).Reach
      (fun before => CleanWalk before.1) (.initial new, fun _ => []) (config, held)) :
    (∀ t slot, config.instr? t = some (.cow (.acquireMut slot)) → slot ∉ held t) ∧
      (config.Quiescent → ∀ slot, config.state.heap.mutLock slot = false) := by
  obtain ⟨ghost, hfollows, hw, hheld⟩ :=
    Protocol.log_invariant (locking_sound orderFn) (locking_keeps orderFn)
      ⟨new_lockingWorld, rfl⟩ hreach
  constructor
  · intro t slot hinstr
    obtain ⟨call, next, hat⟩ := Config.at_of_instr? hinstr
    have ht := hfollows t
    rw [hat] at ht
    have hnone : (ghost t).held = none := ht.1
    have hempty : held t = [] := by
      change held = _ at hheld
      simp only [hheld, hnone, Option.toList_none]
    rw [hempty]
    exact List.not_mem_nil
  · intro hquiescent slot
    by_contra hlocked
    obtain ⟨t, ht⟩ := hw.locked slot (by simpa using hlocked)
    have hrest := hfollows t
    rw [hquiescent t] at hrest
    have hnone : ghost t = { held := none, full := false } := hrest
    rw [hnone] at ht
    cases ht

/-- A `push` walks while a `pop` waits for the lock of `head`, and the `pop` empties the list. -/
theorem no_self_deadlock_push_pop :
    ∃ (config : Config (object (some ascending)) Bool) (held : Bool → List Slot),
      config.instr? true = some (.cow (.acquireMut headSlot)) ∧ held false = [headSlot] ∧
      ((∀ t slot, config.instr? t = some (.cow (.acquireMut slot)) → slot ∉ held t) ∧
        (config.Quiescent → ∀ slot, config.state.heap.mutLock slot = false)) := by
  obtain ⟨config, held, hrun, hinstr, hheld⟩ : ∃ config held,
      (((object (some ascending)).threads Bool).monitored (logging fun list _ => holdsAfter list)).runIf
        (fun before => CleanWalk before.1) (.initial new, fun _ => [])
        (.invoke false (.push 1) :: List.replicate 10 (.tick false) ++
          .invoke false (.push 5) :: List.replicate 4 (.tick false) ++
          .invoke true .pop :: List.replicate 3 (.tick true)) = some (config, held) ∧
      config.instr? true = some (.cow (.acquireMut headSlot)) ∧ held false = [headSlot] :=
    ⟨_, _, rfl, rfl, rfl⟩
  exact ⟨config, held, hinstr, hheld, no_self_deadlock (System.reach_of_runIf _ hrun)⟩

/-- A `push` sees an element at `head`, a `pop` takes it, and the `push` takes the lock. -/
def popBeforeWalk : List (Action (object (some ascending)) Bool) :=
  .invoke false (.push 1) :: List.replicate 10 (.tick false) ++
    .invoke false (.push 5) :: List.replicate 2 (.tick false) ++
    .invoke true .pop :: List.replicate 11 (.tick true) ++ List.replicate 5 (.tick false)

theorem no_self_deadlock_fails :
    ∃ (config : Config (object (some ascending)) Bool) (held : Bool → List Slot),
      (((object (some ascending)).threads Bool).monitored (logging fun list _ => holdsAfter list)).Reach
        (fun before => OnlyCalls Call.Writes before.1) (.initial new, fun _ => [])
        (config, held) ∧
      config.instr? false = some (.cow (.acquireMut headSlot)) ∧ headSlot ∈ held false := by
  obtain ⟨config, held, hrun, hinstr, hheld⟩ : ∃ config held,
      (((object (some ascending)).threads Bool).monitored (logging fun list _ => holdsAfter list)).runIf
        (fun before => OnlyCalls Call.Writes before.1) (.initial new, fun _ => [])
        popBeforeWalk = some (config, held) ∧
      config.instr? false = some (.cow (.acquireMut headSlot)) ∧ held false = [headSlot] :=
    ⟨_, _, rfl, rfl, rfl⟩
  refine ⟨config, held, System.reach_of_runIf _ hrun, hinstr, ?_⟩
  rw [hheld]
  exact List.mem_cons_self

end Mutual.SharedList
