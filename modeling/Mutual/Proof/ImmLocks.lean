import Mutual.Concurrency.Exclusion
import Mutual.Concurrency.Protocol
import Mutual.CowCalls
import Mutual.CowShared

/-!
# The immutable lock

The loop that takes an immutable lock goes on while the swap answers `false`, that is, while the lock
was free. A thread that finds the lock free sets the flag, goes round once more and then leaves the
loop; a thread that finds it taken leaves the loop at once. So the lock keeps nobody out, and it
excludes as long as its users do not meet.
-/

namespace Mutual.CowData.Shared

open Concurrency

variable {α : Type} {ι : Type} [DecidableEq ι]

/-- The immutable locks a thread is inside of: it has left the loop that takes the lock, and not
cleared the flag since. -/
def insideAfter (heap : Heap α) (_ : Call α) : Instr α → List Slot → List Slot
  | .acquireImm slot, inside => if heap.immLock slot then slot :: inside else inside
  | .releaseImm slot, inside => inside.filter (· ≠ slot)
  | _, inside => inside

/-- If `t` is about to set or to clear an immutable lock, no other thread is inside. -/
def MeetsNobody (before : Config (object α) ι × (ι → List Slot)) (t : ι) : Prop :=
  match before.1.instr? t with
  | some (.acquireImm slot) | some (.releaseImm slot) => ∀ u, u ≠ t → slot ∉ before.2 u
  | _ => True

def Uncontended (before : Config (object α) ι × (ι → List Slot)) : Action (object α) ι → Prop
  | .tick t => MeetsNobody before t
  | .invoke _ _ => True

instance [Fintype ι] (before : Config (object α) ι × (ι → List Slot)) (t : ι) :
    Decidable (MeetsNobody before t) := by
  unfold MeetsNobody
  split <;> infer_instance

instance [Fintype ι] (before : Config (object α) ι × (ι → List Slot)) :
    ∀ action, Decidable (Uncontended before action)
  | .tick t => inferInstanceAs (Decidable (MeetsNobody before t))
  | .invoke _ _ => .isTrue trivial

/-- The calls build no `CowData`. -/
def settled (α : Type) : Protocol (object α) Unit where
  rest := ()
  start _ _ := True
  may _ _ instr := ∀ content, instr ≠ .alloc content
  move _ _ _ _ _ := True
  fail _ _ := True
  arrive _ _ _ := True
  leave _ _ _ := True
  finish _ _ _ := True

section Code

variable {call : Call α} {g : Unit}

@[simp] theorem settled_may {instr : Instr α} :
    (settled α).may call g instr ↔ ∀ content, instr ≠ .alloc content := Iff.rfl

@[simp] theorem settled_move {instr : Instr α} {answer : instr.Answer} {g' : Unit} :
    (settled α).move call g instr answer g' ↔ True := Iff.rfl

@[simp] theorem settled_fail : (settled α).fail call g ↔ True := Iff.rfl

@[simp] theorem settled_finish {result : Reply α} : (settled α).finish call result g ↔ True := Iff.rfl

end Code

theorem settled_sound (α : Type) : (settled α).Sound where
  enter := by
    rintro call ⟨⟩ -
    cases call with
    | set self data =>
        cases hlocked : self.isMutLockProtected <;>
          simp [enter, set, assign, createLock, removeLock, hlocked]
    | setNull self =>
        cases hlocked : self.isMutLockProtected <;>
          simp [enter, setNull, assign, createLock, removeLock, hlocked]
    | bumpIntoNull self nullCow newData =>
        cases hlocked : self.isMutLockProtected <;>
          simp only [enter, bumpIntoNull, createLock, hlocked, Bool.false_eq_true, ↓reduceIte,
            Prog.pure_eq, removeLock, Prog.bind_eq, perform_bind, Prog.ret_bind, isNull_bind,
            Option.isNone_iff_eq_none, Prog.op_bind, Protocol.obeys_op, settled_may, ne_eq,
            reduceCtorEq, not_false_eq_true, implies_true, settled_move, forall_const, true_and]
        all_goals
          intro content
          cases content <;> simp
    | swap self other => simp [enter, swap]
  body := by
    rintro call ⟨⟩

section Step

variable {config : Config (object α) ι} {inside : ι → List Slot} {t : ι} {call : Call α}
  {instr : Instr α} {next : instr.Answer → Prog (sig α) (Outcome α)}

/-- An instruction keeps the locks exclusive exactly if it meets nobody. -/
theorem excludes_iff (hw : Excludes config.state.immLock inside) (hat : config.At t call instr next)
    (hsettled : ∀ content, instr ≠ .alloc content) :
    Excludes (exec instr config.state).1.immLock
        (Function.update inside t (insideAfter config.state call instr (inside t))) ↔
      MeetsNobody (config, inside) t := by
  have hsame : (exec instr config.state).1.immLock = config.state.immLock →
      insideAfter config.state call instr (inside t) = inside t →
      Excludes (exec instr config.state).1.immLock
        (Function.update inside t (insideAfter config.state call instr (inside t))) := by
    intro hflag hinside
    rw [hflag, hinside, Function.update_eq_self]
    exact hw
  unfold MeetsNobody
  rw [hat.instr?_eq]
  match instr with
  | .acquireImm slot =>
      cases hflag : config.state.immLock slot with
      | true =>
          have htaken : insideAfter config.state call (.acquireImm slot) (inside t) =
              slot :: inside t := by
            rw [insideAfter, if_pos hflag]
          rw [htaken]
          exact hw.acquire_iff
      | false =>
          -- nobody is inside, and the thread stays in the loop
          have hnobody := hw.not_held hflag
          have hstays : insideAfter config.state call (.acquireImm slot) (inside t) = inside t := by
            simp [insideAfter, hflag]
          rw [hstays, Function.update_eq_self]
          exact iff_of_true (hw.change hnobody true) fun u _ => hnobody u
  | .releaseImm slot =>
      have hrest : slot ∉ (inside t).filter (· ≠ slot) := by
        simp [List.mem_filter]
      refine hw.release_iff hrest ?_
      intro other hother
      exact (List.mem_filter.mp hother).1
  | .alloc content => exact absurd rfl (hsettled content)
  | .awaitImm slot | .acquireMut slot | .releaseMut slot | .load slot | .loadFull slot
  | .store slot content | .swap slot content =>
      exact iff_of_true (hsame rfl rfl) trivial

end Step

theorem settled_keeps (α : Type) :
    (settled α).KeepsLog insideAfter (Uncontended (ι := ι))
      fun heap _ inside _ => Excludes heap.immLock inside where
  invoke := by
    intro config ghost inside t call hw _ _
    exact ⟨(), trivial, hw⟩
  respond := by
    intro config ghost inside t call result hw _ _ _
    exact hw
  jump := by
    rintro config ghost inside t call ⟨⟩
  answered := by
    intro config ghost inside t call instr next state answer hw hat hcond hsettled hexec
    have hstate : (exec instr config.state).1 = state := congrArg Prod.fst hexec
    refine ⟨(), trivial, ?_⟩
    rw [← hstate]
    exact (excludes_iff hw hat hsettled).mpr hcond
  retried := by
    intro config ghost inside t call instr next state hw hat hcond hsettled hexec
    have hstate : (exec instr config.state).1 = state := congrArg Prod.fst hexec
    rw [← hstate]
    exact (excludes_iff hw hat hsettled).mpr hcond

/-- **The immutable lock** excludes in every run in which no thread sets or clears it while another
one is inside; and a step of such a run keeps it that way only if it does not either. -/
theorem immLock_excludes {heap : Heap α} {config : Config (object α) ι} {inside : ι → List Slot}
    (hreach : (((object α).threads ι).monitored (logging insideAfter)).Reach Uncontended
      (.initial heap, fun _ => []) (config, inside)) :
    Excludes config.state.immLock inside ∧
      ∀ t after, (((object α).threads ι).monitored (logging insideAfter)).step (config, inside)
          (.tick t) = some after →
        (Excludes after.1.state.immLock after.2 ↔ Uncontended (config, inside) (.tick t)) := by
  obtain ⟨ghost, hfollows, hw⟩ :=
    Protocol.log_invariant (settled_sound α) (settled_keeps α) .nil hreach
  refine ⟨hw, ?_⟩
  rintro t ⟨after, inside'⟩ hstep
  refine logging_tick_iff (I := fun (heap : Heap α) inside => Excludes heap.immLock inside) hw ?_ ?_ hstep
  · intro hnone
    change MeetsNobody (config, inside) t
    rw [MeetsNobody, hnone]
    trivial
  · intro call instr next hat
    have ht := hfollows t
    rw [hat] at ht
    exact excludes_iff hw hat ht.1

/-- Both threads call `set`. One has been inside and has returned when the other one is inside. -/
theorem immLock_excludes_set :
    ∃ (config : Config (object Nat) Bool) (inside : Bool → List Slot),
      config.history = [.invoke false (.set ⟨0, false⟩ 1), .invoke true (.set ⟨0, false⟩ 2),
        .respond false (.set ⟨0, false⟩ 1) .unit] ∧
      inside true = [0] ∧ Excludes config.state.immLock inside := by
  obtain ⟨config, inside, hrun, hhistory, hinside⟩ : ∃ config inside,
      (((object Nat).threads Bool).monitored (logging insideAfter)).runIf Uncontended
        (.initial (Heap.empty.alloc (some 0)), fun _ => [])
        (.invoke false (.set ⟨0, false⟩ 1) :: .invoke true (.set ⟨0, false⟩ 2) ::
          List.replicate 5 (.tick false) ++ List.replicate 2 (.tick true)) =
          some (config, inside) ∧
      config.history = [.invoke false (.set ⟨0, false⟩ 1), .invoke true (.set ⟨0, false⟩ 2),
        .respond false (.set ⟨0, false⟩ 1) .unit] ∧
      inside true = [0] := ⟨_, _, rfl, rfl, rfl⟩
  exact ⟨config, inside, hhistory, hinside, (immLock_excludes (System.reach_of_runIf _ hrun)).1⟩

/-- Two threads call `set`: the first finds the lock free and goes round again, the second finds it
taken and leaves the loop. -/
def setsMeet : List (Action (object Nat) Bool) :=
  [.invoke false (.set ⟨0, false⟩ 1), .invoke true (.set ⟨0, false⟩ 2), .tick false, .tick true,
    .tick false]

theorem immLock_excludes_fails :
    ¬ ∀ (config : Config (object Nat) Bool) (inside : Bool → List Slot),
      (((object Nat).threads Bool).monitored (logging insideAfter)).Reach (fun _ _ => True)
        (.initial (Heap.empty.alloc (some 0)), fun _ => []) (config, inside) →
      Excludes config.state.immLock inside := by
  intro hclaim
  obtain ⟨config, inside, hrun, hfirst, hsecond⟩ : ∃ config inside,
      (((object Nat).threads Bool).monitored (logging insideAfter)).run
        (.initial (Heap.empty.alloc (some 0)), fun _ => []) setsMeet = some (config, inside) ∧
      inside false = [0] ∧ inside true = [0] := ⟨_, _, rfl, rfl, rfl⟩
  have hexcludes := hclaim config inside (System.reachable_of_run _ hrun)
  have hsame : false = true := by
    apply hexcludes.exclusive false true 0
    · rw [hfirst]
      exact List.mem_cons_self
    · rw [hsecond]
      exact List.mem_cons_self
  cases hsame

end Mutual.CowData.Shared
