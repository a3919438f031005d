import Mathlib.Algebra.Order.BigOperators.Group.Finset
import Mutual.RelaxedMutex

/-!
# Readers and writers of a RelaxedMutex

A writer leaves `create_mut_lock` when it reads `refs ≤ 1`. Its own increment is counted, so nobody
else is: no guard is live then. A reader is not stopped in the same way. It tests `locked` and
increments `refs` in two accesses, and a writer that runs in between finds no reader and returns.
This is the only way in which a reader and a writer meet.
-/

namespace Mutual.RelaxedMutex

open Concurrency

variable {ι : Type}

namespace State

def readers (state : State ι) : Nat := state.live (.refGuard false) + state.live (.refGuard true)

def writers (state : State ι) : Nat := state.live (.mutGuard false) + state.live (.mutGuard true)

/-- No mutable guard is live together with an immutable one. -/
def Exclusive (state : State ι) : Prop := state.writers = 0 ∨ state.readers = 0

instance (state : State ι) : Decidable state.Exclusive := inferInstanceAs (Decidable (_ ∨ _))

/-- No reader increments `refs` after a writer has left its waiting loop and before the `Drop` of
that writer's guard. -/
def NoLateReader (state : State ι) : Action ι → Prop
  | .tick t => ∀ cast, state.point t = .addRef cast → state.writers = 0
  | _ => True

instance (state : State ι) : ∀ action, Decidable (state.NoLateReader action)
  | .tick t => inferInstanceAs (Decidable (∀ cast, state.point t = .addRef cast → _))
  | .lock _ _ => .isTrue trivial
  | .drop _ _ => .isTrue trivial

end State

/-- The increments of `refs` that a thread has made and neither passed on to a guard nor taken
back. -/
def Point.owes : Point → Nat
  | .awaitAlone _ | .subMut => 1
  | _ => 0

theorem fetchSub_of_pos {refs : Nat} (hrefs : 0 < refs) : fetchSub refs = refs - 1 := by
  cases refs with
  | zero => exact absurd hrefs (lt_irrefl 0)
  | succ refs => rfl

variable [DecidableEq ι]

/-- What a step can be, with what the thread has seen when it takes it. -/
inductive Move (state : State ι) : Action ι → State ι → Prop
  | lockRef (t : ι) (cast : Bool) (hpoint : state.point t = .idle) :
      Move state (.lock t (.refGuard cast)) (state.goTo t (.awaitUnlocked cast))
  | lockMut (t : ι) (cast : Bool) (hpoint : state.point t = .idle) :
      Move state (.lock t (.mutGuard cast)) (state.goTo t (.swapLocked cast))
  | spinRef (t : ι) (cast : Bool) (hpoint : state.point t = .awaitUnlocked cast)
      (hlocked : state.locked = true) : Move state (.tick t) state
  | unlocked (t : ι) (cast : Bool) (hpoint : state.point t = .awaitUnlocked cast)
      (hlocked : state.locked = false) : Move state (.tick t) (state.goTo t (.addRef cast))
  | addRef (t : ι) (cast : Bool) (hpoint : state.point t = .addRef cast) :
      Move state (.tick t) ({ state with refs := state.refs + 1 }.give t (.refGuard cast))
  | spinMut (t : ι) (cast : Bool) (hpoint : state.point t = .swapLocked cast)
      (hlocked : state.locked = true) : Move state (.tick t) state
  | swapLocked (t : ι) (cast : Bool) (hpoint : state.point t = .swapLocked cast)
      (hlocked : state.locked = false) :
      Move state (.tick t) ({ state with locked := true }.goTo t (.addMut cast))
  | addMut (t : ι) (cast : Bool) (hpoint : state.point t = .addMut cast) :
      Move state (.tick t) ({ state with refs := state.refs + 1 }.goTo t (.awaitAlone cast))
  | spinAlone (t : ι) (cast : Bool) (hpoint : state.point t = .awaitAlone cast)
      (hrefs : 1 < state.refs) : Move state (.tick t) state
  | alone (t : ι) (cast : Bool) (hpoint : state.point t = .awaitAlone cast)
      (hrefs : state.refs ≤ 1) : Move state (.tick t) (state.give t (.mutGuard cast))
  | subMut (t : ι) (hpoint : state.point t = .subMut) :
      Move state (.tick t) ({ state with refs := fetchSub state.refs }.goTo t .idle)
  | dropRef (t : ι) (cast : Bool) (hpoint : state.point t = .idle)
      (hlive : 0 < state.live (.refGuard cast)) :
      Move state (.drop t (.refGuard cast))
        ({ state with refs := fetchSub state.refs }.take (.refGuard cast))
  | dropMut (t : ι) (cast : Bool) (hpoint : state.point t = .idle)
      (hlive : 0 < state.live (.mutGuard cast)) :
      Move state (.drop t (.mutGuard cast))
        (({ state with locked := false }.take (.mutGuard cast)).goTo t .subMut)

theorem move_of_step {state next : State ι} {action : Action ι}
    (hstep : (system ι).step state action = some next) : Move state action next := by
  change step state action = some next at hstep
  cases action with
  | lock t guard =>
      simp only [step] at hstep
      split at hstep
      · rename_i cast hpoint
        cases hstep
        exact .lockRef t cast hpoint
      · rename_i cast hpoint
        cases hstep
        exact .lockMut t cast hpoint
      · cases hstep
  | tick t =>
      simp only [step] at hstep
      split at hstep
      · cases hstep
      · rename_i cast hpoint
        split at hstep <;> cases hstep <;> rename_i hlocked
        · exact .spinRef t cast hpoint hlocked
        · exact .unlocked t cast hpoint (Bool.eq_false_of_not_eq_true hlocked)
      · rename_i cast hpoint
        cases hstep
        exact .addRef t cast hpoint
      · rename_i cast hpoint
        split at hstep <;> cases hstep <;> rename_i hlocked
        · exact .spinMut t cast hpoint hlocked
        · exact .swapLocked t cast hpoint (Bool.eq_false_of_not_eq_true hlocked)
      · rename_i cast hpoint
        cases hstep
        exact .addMut t cast hpoint
      · rename_i cast hpoint
        split at hstep <;> cases hstep <;> rename_i hrefs
        · exact .alone t cast hpoint hrefs
        · exact .spinAlone t cast hpoint (Nat.lt_of_not_le hrefs)
      · rename_i hpoint
        cases hstep
        exact .subMut t hpoint
  | drop t guard =>
      simp only [step] at hstep
      split at hstep
      · rename_i hdrop
        cases guard with
        | refGuard cast =>
            cases hstep
            exact .dropRef t cast hdrop.1 hdrop.2
        | mutGuard cast =>
            cases hstep
            exact .dropMut t cast hdrop.1 hdrop.2
      · cases hstep

/-! ### The guards of a state after a guard is given or taken -/

section Guards

variable (state : State ι) (t : ι) (cast : Bool)

theorem State.readers_give_ref : (state.give t (.refGuard cast)).readers = state.readers + 1 := by
  cases cast <;> simp [readers, give, goTo] <;> omega

theorem State.writers_give_ref : (state.give t (.refGuard cast)).writers = state.writers := by
  simp [writers, give, goTo]

theorem State.readers_give_mut : (state.give t (.mutGuard cast)).readers = state.readers := by
  simp [readers, give, goTo]

theorem State.writers_give_mut : (state.give t (.mutGuard cast)).writers = state.writers + 1 := by
  cases cast <;> simp [writers, give, goTo] <;> omega

omit [DecidableEq ι] in
theorem State.readers_take_ref (hlive : 0 < state.live (.refGuard cast)) :
    (state.take (.refGuard cast)).readers + 1 = state.readers := by
  cases cast <;> simp [readers, take] <;> omega

omit [DecidableEq ι] in
theorem State.writers_take_ref : (state.take (.refGuard cast)).writers = state.writers := by
  simp [writers, take]

omit [DecidableEq ι] in
theorem State.readers_take_mut : (state.take (.mutGuard cast)).readers = state.readers := by
  simp [readers, take]

omit [DecidableEq ι] in
theorem State.writers_take_mut (hlive : 0 < state.live (.mutGuard cast)) :
    (state.take (.mutGuard cast)).writers + 1 = state.writers := by
  cases cast <;> simp [writers, take] <;> omega

end Guards

section Counting

variable [Fintype ι]

/-- `refs` counts the live guards, and the threads inside a lock call or a `Drop` that have
incremented it. -/
def State.Counted (state : State ι) : Prop :=
  state.refs = state.readers + state.writers + ∑ t, (state.point t).owes

omit [DecidableEq ι] in
theorem new_counted : (new : State ι).Counted := by
  simp [State.Counted, State.readers, State.writers, new, Point.owes]

theorem sum_owes_update (state : State ι) {t : ι} {before : Point} (hpoint : state.point t = before)
    (after : Point) :
    ∑ u, (Function.update state.point t after u).owes + before.owes =
      ∑ u, (state.point u).owes + after.owes := by
  rw [← hpoint]
  exact sum_update Point.owes state.point t after

/-- **Bookkeeping.** No step miscounts, and no step decrements `0`. -/
theorem counted_step {state next : State ι} {action : Action ι} (hcounted : state.Counted)
    (hmove : Move state action next) : next.Counted := by
  unfold State.Counted at hcounted ⊢
  cases hmove with
  | lockRef t cast hpoint =>
      exact hcounted.trans (congrArg _ (sum_owes_update state hpoint (.awaitUnlocked cast)).symm)
  | lockMut t cast hpoint =>
      exact hcounted.trans (congrArg _ (sum_owes_update state hpoint (.swapLocked cast)).symm)
  | spinRef t cast hpoint hlocked => exact hcounted
  | unlocked t cast hpoint hlocked =>
      exact hcounted.trans (congrArg _ (sum_owes_update state hpoint (.addRef cast)).symm)
  | addRef t cast hpoint =>
      have hsum : _ + 0 = _ + 0 := sum_owes_update state hpoint .idle
      rw [State.readers_give_ref, State.writers_give_ref]
      change state.refs + 1 = state.readers + 1 + state.writers +
        ∑ u, (Function.update state.point t .idle u).owes
      omega
  | spinMut t cast hpoint hlocked => exact hcounted
  | swapLocked t cast hpoint hlocked =>
      exact hcounted.trans (congrArg _ (sum_owes_update state hpoint (.addMut cast)).symm)
  | addMut t cast hpoint =>
      have hsum : _ + 0 = _ + 1 := sum_owes_update state hpoint (.awaitAlone cast)
      change state.refs + 1 = state.readers + state.writers +
        ∑ u, (Function.update state.point t (.awaitAlone cast) u).owes
      omega
  | spinAlone t cast hpoint hrefs => exact hcounted
  | alone t cast hpoint hrefs =>
      have hsum : _ + 1 = _ + 0 := sum_owes_update state hpoint .idle
      rw [State.readers_give_mut, State.writers_give_mut]
      change state.refs = state.readers + (state.writers + 1) +
        ∑ u, (Function.update state.point t .idle u).owes
      omega
  | subMut t hpoint =>
      have hsum : _ + 1 = _ + 0 := sum_owes_update state hpoint .idle
      change fetchSub state.refs = state.readers + state.writers +
        ∑ u, (Function.update state.point t .idle u).owes
      rw [fetchSub_of_pos (by omega)]
      omega
  | dropRef t cast hpoint hlive =>
      have hreaders := State.readers_take_ref { state with refs := fetchSub state.refs } cast hlive
      rw [State.writers_take_ref]
      change _ = state.readers at hreaders
      change fetchSub state.refs = _ + state.writers + ∑ u, (state.point u).owes
      have hsub : fetchSub state.refs = state.refs - 1 := fetchSub_of_pos (by omega)
      omega
  | dropMut t cast hpoint hlive =>
      have hsum : _ + 0 = _ + 1 := sum_owes_update state hpoint .subMut
      have hwriters := State.writers_take_mut { state with locked := false } cast hlive
      have hreaders := State.readers_take_mut { state with locked := false } cast
      change _ = state.writers at hwriters
      change _ = state.readers at hreaders
      change state.refs = (State.take { state with locked := false } (.mutGuard cast)).readers +
        (State.take { state with locked := false } (.mutGuard cast)).writers +
        ∑ u, (Function.update state.point t .subMut u).owes
      omega

omit [DecidableEq ι] in
theorem owes_le_sum (state : State ι) (t : ι) :
    (state.point t).owes ≤ ∑ u, (state.point u).owes :=
  Finset.single_le_sum (f := fun u => (state.point u).owes) (fun _ _ => Nat.zero_le _)
    (Finset.mem_univ t)

omit [DecidableEq ι] in
/-- A writer that leaves its waiting loop leaves no guard live behind it. -/
theorem guards_eq_zero_of_alone {state : State ι} (hcounted : state.Counted) {t : ι} {cast : Bool}
    (hpoint : state.point t = .awaitAlone cast) (hrefs : state.refs ≤ 1) :
    state.readers = 0 ∧ state.writers = 0 := by
  have howes := owes_le_sum state t
  rw [hpoint] at howes
  change 1 ≤ _ at howes
  unfold State.Counted at hcounted
  omega

/-- Of the steps from a state without a reader beside a writer, exactly those lead to another one
that are no late increment by a reader. -/
theorem exclusive_step {state next : State ι} {action : Action ι} (hcounted : state.Counted)
    (hexclusive : state.Exclusive) (hmove : Move state action next) :
    next.Exclusive ↔ state.NoLateReader action := by
  -- every step but `addRef` meets the condition and keeps the property
  have hother : next.Exclusive → (∀ t cast, action = .tick t → state.point t ≠ .addRef cast) →
      (next.Exclusive ↔ state.NoLateReader action) := by
    intro hnext hpoint
    refine ⟨fun _ => ?_, fun _ => hnext⟩
    cases action with
    | tick t => exact fun cast hadd => absurd hadd (hpoint t cast rfl)
    | lock t guard => trivial
    | drop t guard => trivial
  cases hmove with
  | addRef t cast hpoint =>
      unfold State.Exclusive
      rw [State.readers_give_ref, State.writers_give_ref]
      constructor
      · rintro (hwriters | hreaders)
        · exact fun _ _ => hwriters
        · exact absurd hreaders (Nat.succ_ne_zero _)
      · exact fun hcond => .inl (hcond cast hpoint)
  | alone t cast hpoint hrefs =>
      refine hother (.inr ?_) ?_
      · rw [State.readers_give_mut]
        exact (guards_eq_zero_of_alone hcounted hpoint hrefs).1
      · rintro u cast' ⟨⟩ hadd
        rw [hpoint] at hadd
        cases hadd
  | dropRef t cast hpoint hlive =>
      refine hother (hexclusive.imp ?_ ?_) (by simp)
      · intro hwriters
        rwa [State.writers_take_ref]
      · intro hreaders
        have htake := State.readers_take_ref { state with refs := fetchSub state.refs } cast hlive
        change _ = state.readers at htake
        omega
  | dropMut t cast hpoint hlive =>
      refine hother (hexclusive.imp ?_ ?_) (by simp)
      · intro hwriters
        have htake := State.writers_take_mut { state with locked := false } cast hlive
        change _ = state.writers at htake
        omega
      · intro hreaders
        exact (State.readers_take_mut { state with locked := false } cast).trans hreaders
  | lockRef | lockMut => exact hother hexclusive (by simp)
  | spinRef t cast hpoint | unlocked t cast hpoint | spinMut t cast hpoint
  | swapLocked t cast hpoint | addMut t cast hpoint | spinAlone t cast hpoint
  | subMut t hpoint =>
      refine hother hexclusive ?_
      rintro u cast' ⟨⟩ hadd
      rw [hpoint] at hadd
      cases hadd

/-- **Readers and writers.** While no reader increments `refs` late, no mutable guard is live
together with an immutable one, and the next step keeps it so exactly if it is not a late increment
either. -/
theorem exclusive_iff_no_late_reader {state : State ι}
    (hreach : (system ι).Reach State.NoLateReader new state) :
    state.Exclusive ∧ ∀ action next, (system ι).step state action = some next →
      (next.Exclusive ↔ state.NoLateReader action) := by
  have hinv : state.Counted ∧ state.Exclusive := by
    refine System.Reach.invariant (I := fun state => state.Counted ∧ state.Exclusive)
      ⟨new_counted, .inl rfl⟩ ?_ hreach
    rintro state action next ⟨hcounted, hexclusive⟩ hcond hstep
    have hmove := move_of_step hstep
    exact ⟨counted_step hcounted hmove, (exclusive_step hcounted hexclusive hmove).mpr hcond⟩
  exact ⟨hinv.2, fun action next hstep =>
    exclusive_step hinv.1 hinv.2 (move_of_step hstep)⟩

theorem exclusive_iff_no_late_reader_waiting :
    ∃ state : State Bool, state.live (.refGuard true) = 1 ∧
      state.point true = .awaitAlone false ∧ state.Exclusive ∧
      ∀ action next, (system Bool).step state action = some next →
        (next.Exclusive ↔ state.NoLateReader action) :=
  ⟨_, rfl, rfl, exclusive_iff_no_late_reader (System.reach_of_runIf
    [.lock false (.refGuard true), .tick false, .lock true (.mutGuard false), .tick true,
      .tick false, .tick true] rfl)⟩

end Counting

/-- A reader tests `locked`, a writer runs through `create_mut_lock`, the reader increments. -/
theorem exclusive_fails :
    ∃ state : State Bool, (system Bool).Reachable new state ∧ ¬ state.Exclusive :=
  ⟨_, System.reachable_of_run [.lock false (.refGuard false), .tick false,
    .lock true (.mutGuard false), .tick true, .tick true, .tick true, .tick false] rfl, by decide⟩

end Mutual.RelaxedMutex
