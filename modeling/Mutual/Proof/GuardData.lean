import Mathlib.Data.Fintype.Basic
import Mutual.Concurrency.Protocol
import Mutual.CowCalls
import Mutual.CowGuarded

/-!
# What a guard holds

`get_ref` and `get_mut` test the `CowData` and load its content in a later access, with no lock that
keeps others from writing in between. The guard holds data as long as nobody stores null in a
`CowData` that some thread has tested and not yet loaded.
-/

namespace Mutual.CowData.Guarded

open Concurrency

variable {α : Type} {ι : Type}

/-- `get_ref` and `get_mut`. -/
def Call.getsGuard : Call α → Bool
  | getRef _ | getMut _ => true
  | _ => false

/-- Dropping the guard does not panic. -/
def Call.HasData : Call α → Prop
  | dropMut guard => guard.data.isSome = true
  | _ => True

/-- Dereferencing the guard does not panic. -/
def Reply.HasData : Reply α → Prop
  | refGuard node => node.isSome = true
  | mutGuard guard => guard.data.isSome = true
  | _ => True

/-- All guards that have been returned hold data, and no drop of a guard has panicked. -/
structure GuardsHoldData (config : Config (object α) ι) : Prop where
  returned : ∀ t call result, .respond t call result ∈ config.history → result.HasData
  dropped : ∀ t guard message, config.thread t ≠ .busy (.dropMut guard) (.panic message)

/-- The guard has been returned. What is done through a guard never takes its data away. -/
def Returns (guard : MutCowData α) : Event ι (Call α) (Reply α) → Prop
  | .respond _ _ (.mutGuard lent) => guard.originalStructure = lent.originalStructure ∧
      (lent.data.isSome = true → guard.data.isSome = true)
  | _ => False

/-- Only guards that have been returned are dropped. -/
def DropsReturned (config : Config (object α) ι) : Action (object α) ι → Prop
  | .invoke _ (.dropMut guard) => ∃ event ∈ config.history, Returns guard event
  | _ => True

/-! ### The condition -/

/-- The slot that a thread has tested and not yet loaded, in `get_ref` or `get_mut`. -/
def testedAfter (heap : Heap α) (call : Call α) : Instr α → Option Slot → Option Slot
  | .load slot, _ => if call.getsGuard ∧ (heap.inner slot).isSome then some slot else none
  | .loadFull _, _ => none
  | _, tested => tested

/-- If the next access of `t` stores null, no thread has tested the slot and not yet loaded it. -/
def NullsUntested (before : Config (object α) ι × (ι → Option Slot)) (t : ι) : Prop :=
  match before.1.instr? t with
  | some (.store slot content) | some (.swap slot content) =>
      content.isSome = true ∨ ∀ u, before.2 u ≠ some slot
  | _ => True

def NullsOnlyUntested (before : Config (object α) ι × (ι → Option Slot)) :
    Action (object α) ι → Prop
  | .tick t => NullsUntested before t
  | .invoke _ _ => True

instance (guard : MutCowData α) :
    ∀ event : Event ι (Call α) (Reply α), Decidable (Returns guard event)
  | .respond _ _ (.mutGuard lent) => inferInstanceAs (Decidable
      (guard.originalStructure = lent.originalStructure ∧
        (lent.data.isSome = true → guard.data.isSome = true)))
  | .respond _ _ .unit | .respond _ _ (.swapped _) | .respond _ _ (.bool _)
  | .respond _ _ (.refGuard _) | .invoke _ _ => .isFalse id

instance (config : Config (object α) ι) (action : Action (object α) ι) :
    Decidable (DropsReturned config action) := by
  unfold DropsReturned
  split <;> infer_instance

instance [Fintype ι] (before : Config (object α) ι × (ι → Option Slot)) (t : ι) :
    Decidable (NullsUntested before t) := by
  unfold NullsUntested
  split <;> infer_instance

instance [Fintype ι] (before : Config (object α) ι × (ι → Option Slot)) :
    ∀ action, Decidable (NullsOnlyUntested before action)
  | .tick t => inferInstanceAs (Decidable (NullsUntested before t))
  | .invoke _ _ => .isTrue trivial

/-! ### The code -/

def testing (α : Type) : Protocol (object α) (Option Slot) where
  rest := none
  start call g := call.HasData ∧ g = none
  may call g instr :=
    match instr with
    | .loadFull slot => call.getsGuard = true → g = some slot
    | .alloc _ => False
    | _ => True
  move call g instr answer g' :=
    match instr, answer with
    | .load slot, content => g' = if call.getsGuard ∧ content.isSome then some slot else none
    | .loadFull _, content => g' = none ∧ (call.getsGuard = true → content.isSome = true)
    | _, _ => g' = g
  fail call _ := ∀ guard, call ≠ .dropMut guard
  arrive _ _ _ := True
  leave _ _ _ := True
  finish _ result g := g = none ∧ result.HasData

theorem assign_testing {call : Call α} (self : CowData) (content : Option α) :
    (testing α).Obeys call
      ((self.assign content).bind fun _ => (reply .unit : Prog (sig α) (Outcome α))) none := by
  cases hlocked : self.isMutLockProtected <;>
    simp [assign, createLock, removeLock, hlocked, testing, Reply.HasData]

theorem testing_sound : (testing α).Sound where
  enter := by
    rintro call g ⟨hdata, rfl⟩
    cases call with
    | set self data => exact assign_testing self _
    | setNull self => exact assign_testing self _
    | bumpIntoNull self nullCow newData =>
        simp only [testing, Call.getsGuard, ne_eq, enter, bumpIntoNull, Prog.bind_eq, perform_bind,
          isNull_bind, Option.isNone_iff_eq_none, Prog.op_bind, Protocol.obeys_op,
          Bool.false_eq_true, false_and, ↓reduceIte, forall_eq, true_and, forall_const]
        intro content
        cases content with
        | some data => simp
        | none =>
            cases hlocked : self.isMutLockProtected <;>
              simp [createLock, removeLock, hlocked, Reply.HasData]
    | swap self other => simp [enter, swap, testing, Call.getsGuard, Reply.HasData]
    | isNull self => simp [enter, isNull, testing, Call.getsGuard, Reply.HasData]
    | getRef self =>
        simp only [testing, Call.getsGuard, ne_eq, enter, getRef, Prog.bind_eq, isNull_bind,
          Option.isNone_iff_eq_none, Prog.op_bind, Protocol.obeys_op, true_and, forall_eq,
          forall_const]
        intro content
        cases content <;> simp [Reply.HasData]
    | getMut self =>
        simp only [testing, Call.getsGuard, ne_eq, enter, getMut, Prog.pure_eq, Prog.bind_eq,
          perform_bind, isNull_bind, Option.isNone_iff_eq_none, Prog.op_bind, Protocol.obeys_op,
          true_and, forall_eq, forall_const]
        intro content
        cases content with
        | none => simp
        | some data =>
            cases hlocked : self.isMutLockProtected <;>
              simp [createLock, hlocked, Reply.HasData]
    | dropMut guard =>
        obtain ⟨originalStructure, data⟩ := guard
        obtain ⟨data, rfl⟩ := Option.isSome_iff_exists.mp hdata
        simp [enter, MutCowData.drop, unwrap, testing, Reply.HasData]
  body := by
    rintro call ⟨⟩

/-! ### Threads that have tested -/

/-- What a thread has tested and not yet loaded is not null. -/
def SeesData (heap : Heap α) (tested : ι → Option Slot) : Prop :=
  ∀ t slot, tested t = some slot → (heap.inner slot).isSome = true

section Sees

variable {heap : Heap α} {tested : ι → Option Slot}

theorem SeesData.update [DecidableEq ι] (hsees : SeesData heap tested) (t : ι) {g : Option Slot}
    (hg : ∀ slot, g = some slot → (heap.inner slot).isSome = true) :
    SeesData heap (Function.update tested t g) := by
  intro u slot hu
  by_cases hut : u = t
  · subst hut
    rw [Function.update_self] at hu
    exact hg slot hu
  · rw [Function.update_of_ne hut] at hu
    exact hsees u slot hu

theorem SeesData.write_iff (hsees : SeesData heap tested) (slot : Slot) (content : Option α) :
    SeesData (heap.setInner slot content) tested ↔
      content.isSome = true ∨ ∀ u, tested u ≠ some slot := by
  constructor
  · intro hafter
    refine or_iff_not_imp_right.mpr fun hnot => ?_
    obtain ⟨u, hu⟩ := not_forall.mp hnot
    have hsome := hafter u slot (not_not.mp hu)
    rwa [Heap.setInner_inner, Function.update_self] at hsome
  · intro hcond u other hu
    rw [Heap.setInner_inner]
    by_cases hother : other = slot
    · subst hother
      rw [Function.update_self]
      exact hcond.resolve_right fun hnot => hnot u hu
    · rw [Function.update_of_ne hother]
      exact hsees u other hu

end Sees

section Step

variable [DecidableEq ι] {config : Config (object α) ι} {tested : ι → Option Slot} {t : ι}
  {call : Call α} {instr : Instr α} {next : instr.Answer → Prog (sig α) (Outcome α)}

/-- An access leaves the threads that have tested before data exactly if it does not store null where
one of them has tested. -/
theorem seesData_iff (hsees : SeesData config.state tested) (hat : config.At t call instr next)
    (hmay : (testing α).may call (tested t) instr) :
    SeesData (exec instr config.state).1
        (Function.update tested t (testedAfter config.state call instr (tested t))) ↔
      NullsUntested (config, tested) t := by
  have hsame : testedAfter config.state call instr (tested t) = tested t →
      Function.update tested t (testedAfter config.state call instr (tested t)) = tested := by
    intro heq
    rw [heq, Function.update_eq_self]
  unfold NullsUntested
  rw [hat.instr?_eq]
  match instr with
  | .awaitImm slot | .acquireMut slot | .acquireImm slot | .releaseMut slot | .releaseImm slot =>
      rw [hsame rfl]
      exact iff_of_true hsees trivial
  | .load slot =>
      refine iff_of_true (hsees.update t ?_) trivial
      intro other hother
      rw [testedAfter] at hother
      split at hother
      · rename_i htest
        cases hother
        exact htest.2
      · cases hother
  | .loadFull slot =>
      refine iff_of_true (hsees.update t ?_) trivial
      intro other hother
      cases hother
  | .store slot content =>
      rw [hsame rfl]
      exact hsees.write_iff slot content
  | .swap slot content =>
      rw [hsame rfl]
      exact hsees.write_iff slot content
  | .alloc content => exact absurd hmay id

end Step

def GuardWorld (heap : Heap α) (ghost tested : ι → Option Slot)
    (history : List (Event ι (Call α) (Reply α))) : Prop :=
  ghost = tested ∧ SeesData heap tested ∧
    ∀ t call result, .respond t call result ∈ history → result.HasData

theorem testing_keeps [DecidableEq ι] :
    (testing α).KeepsLog testedAfter
      (fun before (action : Action (object α) ι) =>
        DropsReturned before.1 action ∧ NullsOnlyUntested before action) GuardWorld where
  invoke := by
    rintro config ghost tested t call ⟨rfl, hsees, hreturned⟩ ⟨hdrops, -⟩ hrest
    have hrest : ghost t = none := hrest
    have hdata : call.HasData := by
      cases call with
      | dropMut guard =>
          obtain ⟨event, hevent, hreturns⟩ := hdrops
          match event with
          | .respond u other (.mutGuard lent) => exact hreturns.2 (hreturned u other _ hevent)
      | _ => trivial
    refine ⟨none, ⟨hdata, rfl⟩, ?_, hsees, ?_⟩
    · rw [← hrest, Function.update_eq_self]
    · intro u other result hevent
      rcases List.mem_append.mp hevent with hevent | hevent
      · exact hreturned u other result hevent
      · simp at hevent
  respond := by
    rintro config ghost tested t call result ⟨rfl, hsees, hreturned⟩ - - ⟨hrest, hdata⟩
    refine ⟨?_, hsees, ?_⟩
    · change Function.update ghost t none = ghost
      rw [← hrest, Function.update_eq_self]
    · intro u other result' hevent
      rcases List.mem_append.mp hevent with hevent | hevent
      · exact hreturned u other result' hevent
      · cases List.mem_singleton.mp hevent
        exact hdata
  jump := by
    rintro config ghost tested t call ⟨⟩
  answered := by
    rintro config ghost tested t call instr next state answer ⟨rfl, hsees, hreturned⟩ hat ⟨-, hcond⟩
      hmay hexec
    have hstate : (exec instr config.state).1 = state := congrArg Prod.fst hexec
    have hmove : (testing α).move call (ghost t) instr answer
        (testedAfter config.state call instr (ghost t)) := by
      match instr with
      | .load slot =>
          cases hexec
          rfl
      | .loadFull slot =>
          cases hexec
          exact ⟨rfl, fun hcall => hsees t slot (hmay hcall)⟩
      | .alloc content => exact absurd hmay id
      | .awaitImm _ | .acquireMut _ | .acquireImm _ | .releaseMut _ | .releaseImm _ | .store _ _
      | .swap _ _ => rfl
    refine ⟨_, hmove, rfl, ?_, hreturned⟩
    rw [← hstate]
    exact (seesData_iff hsees hat hmay).mpr hcond
  retried := by
    rintro config ghost tested t call instr next state ⟨rfl, hsees, hreturned⟩ hat ⟨-, hcond⟩ hmay
      hexec
    have hstate : (exec instr config.state).1 = state := congrArg Prod.fst hexec
    have hsame : testedAfter config.state call instr (ghost t) = ghost t := by
      match instr with
      | .awaitImm _ | .acquireMut _ | .acquireImm _ => rfl
    have hafter := (seesData_iff hsees hat hmay).mpr hcond
    rw [hsame, Function.update_eq_self, hstate] at hafter
    rw [hsame, Function.update_eq_self]
    exact ⟨rfl, hafter, hreturned⟩

/-- **Guards hold data** in every run in which nobody stores null in a `CowData` that a thread in
`get_ref` or `get_mut` has tested and not yet loaded; and in such a run exactly these stores leave a
thread that has tested before null. -/
theorem guards_hold_data [DecidableEq ι] {heap : Heap α} {config : Config (object α) ι}
    {tested : ι → Option Slot}
    (hreach : (((object α).threads ι).monitored (logging testedAfter)).Reach
      (fun before action => DropsReturned before.1 action ∧ NullsOnlyUntested before action)
      (.initial heap, fun _ => none) (config, tested)) :
    GuardsHoldData config ∧
    ∀ t after, (((object α).threads ι).monitored (logging testedAfter)).step (config, tested)
        (.tick t) = some after →
      (SeesData after.1.state after.2 ↔ NullsUntested (config, tested) t) := by
  obtain ⟨ghost, hfollows, rfl, hsees, hreturned⟩ :=
    Protocol.log_invariant testing_sound testing_keeps
      ⟨rfl, by rintro t slot ⟨⟩, by rintro t call result ⟨⟩⟩ hreach
  refine ⟨⟨hreturned, ?_⟩, ?_⟩
  · intro t guard message hthread
    have ht := hfollows t
    rw [hthread] at ht
    exact ht guard rfl
  · rintro t ⟨after, tested⟩ hstep
    refine logging_tick_iff hsees ?_ ?_ hstep
    · intro hnone
      rw [NullsUntested, hnone]
      trivial
    · intro call instr next hat
      have ht := hfollows t
      rw [hat] at ht
      exact seesData_iff hsees hat ht.1

/-- `set_null` stores after the load of `get_ref`. -/
theorem guards_hold_data_set :
    ∃ config : Config (object ℕ) Bool, GuardsHoldData config ∧ config.state.inner 0 = none ∧
      .respond false (.getRef ⟨0, false⟩) (.refGuard (some 0)) ∈ config.history := by
  obtain ⟨config, tested, hrun, hinner, hreturned⟩ : ∃ config tested,
      (((object ℕ).threads Bool).monitored (logging testedAfter)).runIf
        (fun before action => DropsReturned before.1 action ∧ NullsOnlyUntested before action)
        (.initial (Heap.empty.alloc (some 0)), fun _ => none)
        (.invoke false (.getRef ⟨0, false⟩) :: List.replicate 2 (.tick false) ++
          .invoke true (.setNull ⟨0, false⟩) :: List.replicate 2 (.tick true) ++
          .tick false :: List.replicate 3 (.tick true) ++ [.tick false]) = some (config, tested) ∧
      config.state.inner 0 = none ∧
      config.history.getLast? = some (.respond false (.getRef ⟨0, false⟩) (.refGuard (some 0))) :=
    ⟨_, _, rfl, rfl, rfl⟩
  have hdata := (guards_hold_data (System.reach_of_runIf _ hrun)).1
  exact ⟨config, hdata, hinner, List.mem_of_getLast? hreturned⟩

/-- `get_mut` tests, `set_null` is executed as a whole, and `get_mut` loads. -/
def nullsTested : List (Action (object ℕ) Bool) :=
  .invoke false (.getMut ⟨0, false⟩) :: List.replicate 2 (.tick false) ++
    .invoke true (.setNull ⟨0, false⟩) :: List.replicate 5 (.tick true) ++
    List.replicate 2 (.tick false) ++ [.invoke false (.dropMut ⟨0, none⟩)]

theorem guards_hold_data_fails :
    ¬ ∀ config : Config (object ℕ) Bool,
      ((object ℕ).threads Bool).Reach DropsReturned (.initial (Heap.empty.alloc (some 0))) config →
      GuardsHoldData config := by
  intro hclaim
  obtain ⟨config, hrun, hpanic⟩ : ∃ config : Config (object ℕ) Bool,
      ((object ℕ).threads Bool).runIf DropsReturned (.initial (Heap.empty.alloc (some 0)))
        nullsTested = some config ∧
      config.thread false = .busy (.dropMut ⟨0, none⟩)
        (.panic "called `Option::unwrap()` on a `None` value") := ⟨_, rfl, rfl⟩
  exact (hclaim config (System.reach_of_runIf _ hrun)).dropped false _ _ hpanic

end Mutual.CowData.Guarded
