import Mutual.Concurrency.Exclusion
import Mutual.Proof.Locking

/-!
# The mutable lock of a slot

An ordered `push` gives back the lock of every slot it walks past, and of the slot it ends at once
more after `set` has given it back, without having taken it. Where that slot is free nothing happens.
Where a removal is at work on it the removal loses its lock. So the mutable lock of a slot excludes
as long as no push comes to give back a lock of somebody else.
-/

namespace Mutual.SharedList

open Concurrency

variable {T : Type} {ι : Type} [DecidableEq ι]

/-- A thread that is about to give back the lock of a slot has it, or nobody has. -/
def GivesBackOwn {orderFn : Option (T → T → Ordering)}
    (before : Config (object orderFn) ι × (ι → List Slot)) (t : ι) : Prop :=
  match before.1.instr? t with
  | some (.cow (.releaseMut slot)) =>
      slot ∈ before.2 t ∨ before.1.state.heap.mutLock slot = false
  | _ => True

def CleanRelease {orderFn : Option (T → T → Ordering)}
    (before : Config (object orderFn) ι × (ι → List Slot)) : Action (object orderFn) ι → Prop
  | .tick t => GivesBackOwn before t
  | .invoke _ call => call.Writes

instance {orderFn : Option (T → T → Ordering)}
    (before : Config (object orderFn) ι × (ι → List Slot)) (t : ι) :
    Decidable (GivesBackOwn before t) := by
  unfold GivesBackOwn
  split <;> infer_instance

instance {orderFn : Option (T → T → Ordering)}
    (before : Config (object orderFn) ι × (ι → List Slot)) :
    ∀ action, Decidable (CleanRelease before action)
  | .tick t => inferInstanceAs (Decidable (GivesBackOwn before t))
  | .invoke _ call => inferInstanceAs (Decidable (Call.Writes call))

/-! ### The slots a thread knows -/

def Instr.Addresses (known : List Slot) : Instr T → Prop
  | .cow (.acquireMut slot) => slot ∈ known
  | .cow (.store _ content) | .cow (.alloc content) => PointsTo known content
  | .cow (.swap _ _) => False
  | _ => True

def Instr.Shows (known : List Slot) : (instr : Instr T) → instr.Answer → List Slot → Prop
  | .cow (.load _), answer, known' | .cow (.loadFull _), answer, known' =>
      known' = nextOf answer ++ known
  | .cow (.alloc _), slot, known' => known' = slot :: known
  | _, _, known' => known' = known

def Label.Addresses (known : List Slot) : Label T → Prop
  | .pushWalk _ _ current | .removeCount _ _ current _ _ => current ∈ known
  | _ => False

def addressing (orderFn : Option (T → T → Ordering)) : Protocol (object orderFn) (List Slot) where
  rest := [headSlot]
  start call known := call.Writes ∧ known = [headSlot]
  may _ known instr := instr.Addresses known
  move _ known instr := instr.Shows known
  fail _ _ := True
  arrive _ label known := label.Addresses known
  leave _ label known := label.Addresses known
  finish _ _ _ := True

section Code

variable {orderFn : Option (T → T → Ordering)} {call : Call T} {known : List Slot}

@[simp] theorem addressing_may {instr : Instr T} :
    (addressing orderFn).may call known instr ↔ instr.Addresses known := Iff.rfl

@[simp] theorem addressing_move {instr : Instr T} {answer : instr.Answer} {known' : List Slot} :
    (addressing orderFn).move call known instr answer known' ↔ instr.Shows known answer known' :=
  Iff.rfl

@[simp] theorem addressing_fail : (addressing orderFn).fail call known ↔ True := Iff.rfl

@[simp] theorem addressing_finish {result : Reply T} :
    (addressing orderFn).finish call result known ↔ True := Iff.rfl

@[simp] theorem addressing_arrive {label : Label T} :
    (addressing orderFn).arrive call label known ↔ label.Addresses known := Iff.rfl

theorem addressing_pushHead {data : T} (hhead : headSlot ∈ known) :
    (addressing orderFn).Obeys call (pushHead data) known := by
  simp only [pushHead, head, Prog.bind_eq, perform_bind, removeLock_bind, isNull_bind,
    Option.isNone_iff_eq_none, createLock_bind, Protocol.obeys_op, addressing_may, Instr.Addresses,
    hhead, addressing_move, Instr.Shows, forall_eq, true_and, forall_const]
  intro content
  cases content with
  | none => simp [Instr.Addresses, Instr.Shows]
  | some node => simp [Instr.Addresses, Instr.Shows]

theorem addressing_pushWalk {order : T → T → Ordering} {data : T} {current : Slot}
    (hcurrent : current ∈ known) :
    (addressing orderFn).Obeys call (pushWalk order data current) known := by
  simp only [pushWalk, Prog.bind_eq, perform_bind, removeLock_bind, set_bind, Bool.and_eq_true,
    beq_iff_eq, getRef_bind, Option.isNone_iff_eq_none, isNull_bind, Protocol.obeys_op,
    addressing_may, Instr.Addresses, addressing_move, Instr.Shows, forall_eq, true_and,
    forall_const]
  intro content
  cases content with
  | none => simp [Instr.Addresses, Instr.Shows, hcurrent]
  | some node =>
      simp only [reduceCtorEq, ↓reduceIte, nextOf_some, List.cons_append, List.nil_append,
        Protocol.obeys_op, addressing_may, Instr.Addresses, addressing_move, Instr.Shows, forall_eq,
        true_and, forall_const]
      intro content
      cases content with
      | none => simp
      | some node =>
          simp only [reduceCtorEq, ↓reduceIte, nextOf_some, List.cons_append, List.nil_append,
            Protocol.obeys_op, addressing_may, Instr.Addresses, addressing_move, Instr.Shows,
            forall_eq, true_and]
          intro content
          cases content with
          | none => simp
          | some node =>
              cases horder : order node.data data with
              | lt => simp [horder, Instr.Addresses, Instr.Shows]
              | eq => simp [horder, Instr.Addresses, Instr.Shows, Label.Addresses]
              | gt => simp [horder, Instr.Addresses, Instr.Shows, Label.Addresses]

theorem addressing_pop (hhead : headSlot ∈ known) :
    (addressing orderFn).Obeys call pop known := by
  simp only [pop, head, Prog.bind_eq, removeLock_bind, perform_bind, getRef_bind,
    Option.isNone_iff_eq_none, isNull_bind, createLock_bind, Protocol.obeys_op, addressing_may,
    Instr.Addresses, hhead, addressing_move, Instr.Shows, forall_eq, true_and, forall_const]
  intro content
  cases content with
  | none => simp [Instr.Addresses, Instr.Shows]
  | some node =>
      simp only [reduceCtorEq, ↓reduceIte, nextOf_some, List.cons_append, List.nil_append,
        Protocol.obeys_op, addressing_may, Instr.Addresses, addressing_move, Instr.Shows, forall_eq,
        true_and, forall_const]
      intro content
      cases content with
      | none => simp
      | some node =>
          simp only [reduceCtorEq, ↓reduceIte, nextOf_some, List.cons_append, List.nil_append,
            Protocol.obeys_op, addressing_may, Instr.Addresses, addressing_move, Instr.Shows,
            forall_eq, true_and]
          intro content
          cases content with
          | none => simp
          | some node => simp [Instr.Addresses, Instr.Shows]

theorem addressing_removeCountLoop (func : List T → T → Bool) (seen : List T) {current : Slot}
    (count : UInt32) (output : List T) (hcurrent : current ∈ known) :
    (addressing orderFn).Obeys call (removeCountLoop func seen current count output) known := by
  simp only [removeCountLoop, gt_iff_lt, Bool.and_eq_true, Bool.not_eq_eq_eq_not, Bool.not_true,
    decide_eq_true_eq, Prog.bind_eq, perform_bind, createLock_bind, removeLock_bind, getRef_bind,
    Option.isNone_iff_eq_none, isNull_bind, Option.isNone_eq_false_iff, Protocol.obeys_op,
    addressing_may, Instr.Addresses, addressing_move, Instr.Shows, forall_eq, true_and,
    forall_const]
  intro content
  cases content with
  | none => simp [Instr.Addresses, Instr.Shows]
  | some node =>
      by_cases hcount : 0 < count
      · simp only [Option.isSome_some, hcount, and_self, ↓reduceIte, nextOf_some, List.cons_append,
          List.nil_append, Protocol.obeys_op, addressing_may, Instr.Addresses, addressing_move,
          Instr.Shows, forall_eq, true_and, forall_const]
        intro content
        cases content with
        | none => simp
        | some node =>
            simp only [reduceCtorEq, ↓reduceIte, nextOf_some, List.cons_append, List.nil_append,
              Protocol.obeys_op, addressing_may, Instr.Addresses, addressing_move, Instr.Shows,
              forall_eq, true_and]
            intro content
            cases content with
            | none => simp
            | some node =>
                by_cases hfunc : func seen node.data = true
                · simp [hfunc, Instr.Addresses, Instr.Shows, Label.Addresses, hcurrent]
                · simp [hfunc, Instr.Addresses, Instr.Shows, Label.Addresses]
      · simp [hcount, Instr.Addresses, Instr.Shows]

theorem addressing_sound (orderFn : Option (T → T → Ordering)) : (addressing orderFn).Sound where
  enter := by
    rintro call known ⟨hwrites, rfl⟩
    cases call with
    | push data =>
        cases orderFn with
        | none => exact addressing_pushHead List.mem_cons_self
        | some order =>
            simp only [enter, push]
            simp only [head, Prog.bind_eq, createLock_bind, isNull_bind, Option.isNone_iff_eq_none,
              Protocol.obeys_op, addressing_may, Instr.Addresses, addressing_move, Instr.Shows,
              forall_eq, true_and, forall_const]
            intro content
            cases content with
            | none => exact addressing_pushHead List.mem_cons_self
            | some node => simp [Instr.Addresses, Instr.Shows, Label.Addresses]
    | pop => exact addressing_pop List.mem_cons_self
    | removeCount func count =>
        simp [enter, removeCount, head, Instr.Addresses, Instr.Shows, Label.Addresses]
    | setEnforceNoneq enforceNoneq => simp [enter, Instr.Addresses]
    | _ => exact hwrites.elim
  body := by
    intro call label known hleave
    cases label with
    | pushWalk order data current => exact addressing_pushWalk hleave
    | removeCount func seen current count output =>
        exact addressing_removeCountLoop func seen count output hleave
    | _ => exact hleave.elim

end Code

/-! ### What the memory of the list guarantees -/

structure SlotWorld (list : SharedList T) (ghost held : ι → List Slot) : Prop where
  known : ∀ t, ∀ slot ∈ ghost t, slot < list.heap.fresh
  next : ∀ slot node, list.heap.inner slot = some node → node.next < list.heap.fresh
  owns : Owns list.heap.mutLock held
  allocated : ∀ t, ∀ slot ∈ held t, slot < list.heap.fresh
  head : headSlot < list.heap.fresh

namespace SlotWorld

variable {list : SharedList T} {ghost held : ι → List Slot} {t : ι} {slot : Slot}

theorem forall_update {p : Slot → Prop} {known : List Slot} (hold : ∀ u, ∀ slot ∈ ghost u, p slot)
    (hnew : ∀ slot ∈ known, p slot) : ∀ u, ∀ slot ∈ Function.update ghost t known u, p slot := by
  intro u
  by_cases hut : u = t
  · rw [hut, Function.update_self]
    exact hnew
  · rw [Function.update_of_ne hut]
    exact hold u

/-- Nothing but what `t` knows and the other memory changes. -/
theorem local_step (hw : SlotWorld list ghost held) {list' : SharedList T} {known : List Slot}
    (hinner : list'.heap.inner = list.heap.inner)
    (hmutLock : list'.heap.mutLock = list.heap.mutLock)
    (hfresh : list'.heap.fresh = list.heap.fresh) (hknown : ∀ slot ∈ known, slot < list.heap.fresh) :
    SlotWorld list' (Function.update ghost t known) (Function.update held t (held t)) := by
  rw [Function.update_eq_self]
  constructor
  · rw [hfresh]
    exact forall_update hw.known hknown
  · rw [hinner, hfresh]
    exact hw.next
  · rw [hmutLock]
    exact hw.owns
  · rw [hfresh]
    exact hw.allocated
  · rw [hfresh]
    exact hw.head

omit [DecidableEq ι] in
theorem show_known (hw : SlotWorld list ghost held) (t : ι) (slot : Slot) :
    ∀ other ∈ nextOf (list.heap.inner slot) ++ ghost t, other < list.heap.fresh := by
  intro other hother
  rcases List.mem_append.mp hother with hnext | hother
  · obtain ⟨node, hnode, rfl⟩ := mem_nextOf.mp hnext
    exact hw.next slot node hnode
  · exact hw.known t other hother

theorem acquire (hw : SlotWorld list ghost held) (hslot : slot ∈ ghost t)
    (hfree : list.heap.mutLock slot = false) :
    SlotWorld { list with heap := list.heap.setMutLock slot true }
      (Function.update ghost t (ghost t)) (Function.update held t (slot :: held t)) where
  known := forall_update hw.known (hw.known t)
  next := hw.next
  owns := hw.owns.acquire hfree
  allocated := by
    refine forall_update hw.allocated ?_
    intro other hother
    rcases List.mem_cons.mp hother with rfl | hother
    · exact hw.known t other hslot
    · exact hw.allocated t other hother
  head := hw.head

theorem release (hw : SlotWorld list ghost held)
    (hclean : slot ∈ held t ∨ list.heap.mutLock slot = false) :
    SlotWorld { list with heap := list.heap.setMutLock slot false }
      (Function.update ghost t (ghost t)) (Function.update held t ((held t).erase slot)) where
  known := forall_update hw.known (hw.known t)
  next := hw.next
  owns := hw.owns.release hclean
  allocated := by
    refine forall_update hw.allocated ?_
    intro other hother
    exact hw.allocated t other (List.mem_of_mem_erase hother)
  head := hw.head

theorem store (hw : SlotWorld list ghost held) {content : Option (Node T)}
    (hpoints : PointsTo (ghost t) content) :
    SlotWorld { list with heap := list.heap.setInner slot content }
      (Function.update ghost t (ghost t)) (Function.update held t (held t)) := by
  rw [Function.update_eq_self, Function.update_eq_self]
  refine ⟨hw.known, ?_, hw.owns, hw.allocated, hw.head⟩
  intro other node hnode
  change Function.update list.heap.inner slot content other = some node at hnode
  by_cases hother : other = slot
  · rw [hother, Function.update_self] at hnode
    exact hw.known t _ (hpoints node hnode)
  · rw [Function.update_of_ne hother] at hnode
    exact hw.next other node hnode

theorem alloc (hw : SlotWorld list ghost held) {content : Option (Node T)}
    (hpoints : PointsTo (ghost t) content) :
    SlotWorld { list with heap := list.heap.alloc content }
      (Function.update ghost t (list.heap.fresh :: ghost t))
      (Function.update held t (held t)) := by
  rw [Function.update_eq_self]
  have hlt : ∀ {other}, other < list.heap.fresh → other < list.heap.fresh + 1 := Nat.lt_succ_of_lt
  constructor
  · refine forall_update (fun u other hother => hlt (hw.known u other hother)) ?_
    intro other hother
    rcases List.mem_cons.mp hother with rfl | hother
    · exact Nat.lt_succ_self _
    · exact hlt (hw.known t other hother)
  · intro other node hnode
    change Function.update list.heap.inner list.heap.fresh content other = some node at hnode
    by_cases hother : other = list.heap.fresh
    · rw [hother, Function.update_self] at hnode
      exact hlt (hw.known t _ (hpoints node hnode))
    · rw [Function.update_of_ne hother] at hnode
      exact hlt (hw.next other node hnode)
  · -- nobody has the lock of a slot that is not allocated yet
    refine hw.owns.reset ?_
    intro u hu
    exact absurd (hw.allocated u _ hu) (Nat.lt_irrefl _)
  · intro u other hother
    exact hlt (hw.allocated u other hother)
  · exact hlt hw.head

end SlotWorld

theorem addressing_keeps (orderFn : Option (T → T → Ordering)) :
    (addressing orderFn).KeepsLog (fun list _ => holdsAfter list) (CleanRelease (ι := ι))
      fun list ghost held _ => SlotWorld list ghost held where
  invoke := by
    intro config ghost held t call hw hwrites hrest
    refine ⟨ghost t, ⟨hwrites, hrest⟩, ?_⟩
    rw [Function.update_eq_self]
    exact hw
  respond := by
    intro config ghost held t call result hw _ _ _
    have hknown : ∀ slot ∈ [headSlot], slot < config.state.heap.fresh := by
      simpa using hw.head
    have hlocal := hw.local_step (t := t) rfl rfl rfl hknown
    rw [Function.update_eq_self] at hlocal
    exact hlocal
  jump := by
    intro config ghost held t call label hw _ _ harrive
    refine ⟨ghost t, harrive, ?_⟩
    rw [Function.update_eq_self]
    exact hw
  answered := by
    intro config ghost held t call instr next state answer hw hat hcond hmay hexec
    match instr, hmay with
    | .cow (.awaitImm slot), _ =>
        obtain ⟨-, rfl⟩ := awaitImm_answered hexec
        exact ⟨_, rfl, hw.local_step rfl rfl rfl (hw.known t)⟩
    | .cow (.acquireMut slot), hslot =>
        obtain ⟨hfree, rfl⟩ := acquireMut_answered hexec
        refine ⟨_, rfl, ?_⟩
        have htaken : holdsAfter config.state (.cow (.acquireMut slot)) (held t) =
            slot :: held t := by
          simp [holdsAfter, hfree]
        rw [htaken]
        exact hw.acquire hslot hfree
    | .cow (.acquireImm slot), _ =>
        obtain ⟨-, rfl⟩ := acquireImm_answered hexec
        exact ⟨_, rfl, hw.local_step rfl rfl rfl (hw.known t)⟩
    | .cow (.releaseMut slot), _ =>
        cases hexec
        have hclean : slot ∈ held t ∨ config.state.heap.mutLock slot = false := by
          change GivesBackOwn (config, held) t at hcond
          rw [GivesBackOwn, hat.instr?_eq] at hcond
          exact hcond
        exact ⟨_, rfl, hw.release hclean⟩
    | .cow (.releaseImm slot), _ | .fetchAddLen, _ | .fetchSubLen, _ | .loadLen, _ | .callback, _
    | .loadNoneq, _ | .storeNoneq _, _ =>
        cases hexec
        exact ⟨_, rfl, hw.local_step rfl rfl rfl (hw.known t)⟩
    | .cow (.load slot), _ | .cow (.loadFull slot), _ =>
        cases hexec
        exact ⟨_, rfl, hw.local_step rfl rfl rfl (hw.show_known t slot)⟩
    | .cow (.store slot content), hpoints =>
        cases hexec
        exact ⟨_, rfl, hw.store hpoints⟩
    | .cow (.alloc content), hpoints =>
        cases hexec
        exact ⟨_, rfl, hw.alloc hpoints⟩
  retried := by
    intro config ghost held t call instr next state hw _ _ _ hexec
    have hkept : ∀ {list : SharedList T}, list.heap.inner = config.state.heap.inner →
        list.heap.mutLock = config.state.heap.mutLock →
        list.heap.fresh = config.state.heap.fresh →
        SlotWorld list ghost (Function.update held t (held t)) := by
      intro list hinner hmutLock hfresh
      have hlocal := hw.local_step (t := t) hinner hmutLock hfresh (hw.known t)
      rwa [Function.update_eq_self] at hlocal
    rcases retried_cases hexec with ⟨slot, rfl, rfl⟩ | ⟨slot, rfl, hlocked, rfl⟩ |
      ⟨slot, rfl, -, rfl⟩
    · exact hkept rfl rfl rfl
    · have hsame : holdsAfter config.state (.cow (.acquireMut slot)) (held t) = held t := by
        simp [holdsAfter, hlocked]
      rw [hsame]
      exact hkept rfl rfl rfl
    · exact hkept rfl rfl rfl

theorem addressing_invariant {orderFn : Option (T → T → Ordering)}
    {config : Config (object orderFn) ι} {held : ι → List Slot}
    (hreach : (((object orderFn).threads ι).monitored (logging fun list _ => holdsAfter list)).Reach
      CleanRelease (.initial new, fun _ => []) (config, held)) :
    ∃ ghost, SlotWorld config.state ghost held := by
  have hstart : SlotWorld (new : SharedList T) (fun _ : ι => [headSlot]) fun _ => [] := by
    refine ⟨?_, ?_, .nil ?_, ?_, Nat.zero_lt_one⟩
    · intro t slot hslot
      rw [List.mem_singleton.mp hslot]
      exact Nat.zero_lt_one
    · intro slot node hnode
      rw [new_inner] at hnode
      cases hnode
    · intro slot
      rw [new_mutLock]
    · rintro t slot ⟨⟩
  obtain ⟨ghost, -, hw⟩ :=
    Protocol.log_invariant (addressing_sound orderFn) (addressing_keeps orderFn) hstart hreach
  exact ⟨ghost, hw⟩

/-- **The mutable lock of a slot** excludes in every run in which nobody gives back the lock of
somebody else; and a step of such a run keeps it that way only if it does not either. -/
theorem mutLock_excludes {orderFn : Option (T → T → Ordering)}
    {config : Config (object orderFn) ι} {held : ι → List Slot}
    (hreach : (((object orderFn).threads ι).monitored (logging fun list _ => holdsAfter list)).Reach
      CleanRelease (.initial new, fun _ => []) (config, held)) :
    Excludes config.state.heap.mutLock held ∧
      ∀ t after,
        (((object orderFn).threads ι).monitored (logging fun list _ => holdsAfter list)).step
          (config, held) (.tick t) = some after →
        (Excludes after.1.state.heap.mutLock after.2 ↔ CleanRelease (config, held) (.tick t)) := by
  obtain ⟨ghost, hw⟩ := addressing_invariant hreach
  refine ⟨hw.owns.toExcludes, ?_⟩
  rintro t ⟨after, held'⟩ hstep
  constructor
  · intro hexcludes
    change GivesBackOwn (config, held) t
    unfold GivesBackOwn
    split
    · rename_i slot hinstr
      obtain ⟨call, next, hat⟩ := Config.at_of_instr? hinstr
      obtain ⟨hafter, hheld⟩ := System.monitored_step.mp hstep
      have hstate : after.state.heap.mutLock =
          Function.update config.state.heap.mutLock slot false := by
        rw [Config.state_of_step hat hafter]
        rfl
      rw [logging_at _ hat] at hheld
      change Excludes after.state.heap.mutLock held' at hexcludes
      change held' = Function.update held t ((held t).erase slot) at hheld
      rw [hstate, hheld] at hexcludes
      exact hw.owns.release_iff.mp hexcludes
    · trivial
  · intro hclean
    obtain ⟨_, hw'⟩ := addressing_invariant (hreach.step hclean hstep)
    exact hw'.owns.toExcludes

/-- Two elements are pushed, and then a removal takes the lock of the second slot. -/
def removalAtSecond : List (Action (object (some ascending)) Bool) :=
  .invoke false (.push 1) :: List.replicate 10 (.tick false) ++
    .invoke false (.push 5) :: List.replicate 25 (.tick false) ++
    .invoke true (.removeCount (fun _ entry => entry == 9) 1) :: List.replicate 10 (.tick true)

theorem mutLock_excludes_removal :
    ∃ (config : Config (object (some ascending)) Bool) (held : Bool → List Slot),
      held true = [1] ∧ Excludes config.state.heap.mutLock held := by
  obtain ⟨config, held, hrun, hheld⟩ : ∃ config held,
      (((object (some ascending)).threads Bool).monitored (logging fun list _ => holdsAfter list)).runIf
        CleanRelease (.initial new, fun _ => []) removalAtSecond = some (config, held) ∧
      held true = [1] := ⟨_, _, rfl, rfl⟩
  exact ⟨config, held, hheld, (mutLock_excludes (System.reach_of_runIf _ hrun)).1⟩

/-- A third push walks past the slot the removal has locked. -/
theorem mutLock_excludes_fails :
    ¬ ∀ (config : Config (object (some ascending)) Bool) (held : Bool → List Slot),
      (((object (some ascending)).threads Bool).monitored (logging fun list _ => holdsAfter list)).Reach
        (fun before => OnlyCalls Call.Writes before.1) (.initial new, fun _ => []) (config, held) →
      Excludes config.state.heap.mutLock held := by
  intro hclaim
  obtain ⟨config, held, hrun, hheld, hfree⟩ : ∃ config held,
      (((object (some ascending)).threads Bool).monitored (logging fun list _ => holdsAfter list)).runIf
        (fun before => OnlyCalls Call.Writes before.1) (.initial new, fun _ => [])
        (removalAtSecond ++ .invoke false (.push 7) :: List.replicate 21 (.tick false)) =
          some (config, held) ∧
      held true = [1] ∧ config.state.heap.mutLock 1 = false := ⟨_, _, rfl, rfl, rfl⟩
  have hnot := (hclaim config held (System.reach_of_runIf _ hrun)).not_held hfree true
  rw [hheld] at hnot
  exact hnot List.mem_cons_self

end Mutual.SharedList
