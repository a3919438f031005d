import Mutual.Proof.MutexExclusion

/-!
# The bookkeeping of a RelaxedMutex, and why it does not get stuck

The flag `locked` is owned from the `swap(true)` that answers `false` to the `swap(false)` in the
`Drop` of the guard. In between there is first a thread in `create_mut_lock` and then a live mutable
guard, and the flag counts both. The counter `refs` counts more: a `Drop` clears the flag first and
decrements afterwards, so that a next writer may wait for the decrement of the one before.

Without a live guard everybody waits for a thread that goes on. A reader waits for the owner of the
flag; the owner waits for `refs` to fall to `1`, and what is counted beside the owner is a `Drop` at
its decrement, as there is no second owner.
-/

namespace Mutual.RelaxedMutex

open Concurrency

variable {ι : Type}

/-- The thread has set `locked` in a call that has not returned. -/
def Point.holds : Point → Nat
  | .addMut _ | .awaitAlone _ => 1
  | _ => 0

namespace State

/-- No guard is live. -/
def Unguarded (state : State ι) : Prop := ∀ guard, state.live guard = 0

/-- The action applies a `fetch_sub` to `refs`. -/
def Decrements (state : State ι) : Action ι → Prop
  | .tick t => state.point t = .subMut
  | .drop t (.refGuard cast) => state.point t = .idle ∧ 0 < state.live (.refGuard cast)
  | _ => False

/-- The thread has nothing to do, or its next access is the test of a loop and does not leave the
loop. -/
def Waits (state : State ι) (t : ι) : Prop :=
  match state.point t with
  | .idle => True
  | .awaitUnlocked _ | .swapLocked _ => state.locked = true
  | .awaitAlone _ => 1 < state.refs
  | .addRef _ | .addMut _ | .subMut => False

theorem Unguarded.readers {state : State ι} (hstate : state.Unguarded) : state.readers = 0 := by
  rw [State.readers, hstate, hstate]

theorem Unguarded.writers {state : State ι} (hstate : state.Unguarded) : state.writers = 0 := by
  rw [State.writers, hstate, hstate]

end State

variable [Fintype ι]

namespace State

/-- How many threads and live guards own the flag. -/
def owners (state : State ι) : Nat := state.writers + ∑ t, (state.point t).holds

/-- `locked` says whether the flag is owned. -/
def Flagged (state : State ι) : Prop := state.owners = state.locked.toNat

end State

theorem new_flagged : (new : State ι).Flagged := by
  simp [State.Flagged, State.owners, State.writers, new, Point.holds]

variable [DecidableEq ι]

theorem sum_holds_update (state : State ι) {t : ι} {before : Point}
    (hpoint : state.point t = before) (after : Point) :
    ∑ u, (Function.update state.point t after u).holds + before.holds =
      ∑ u, (state.point u).holds + after.holds := by
  rw [← hpoint]
  exact sum_update Point.holds state.point t after

/-- A thread that goes from one access to the next without touching the flag. -/
theorem State.Flagged.goTo {state : State ι} (hflagged : state.Flagged) {t : ι} {before : Point}
    (hpoint : state.point t = before) {after : Point} (hsame : after.holds = before.holds) :
    state.writers + ∑ u, (Function.update state.point t after u).holds = state.locked.toNat := by
  have hsum := sum_holds_update state hpoint after
  unfold State.Flagged State.owners at hflagged
  omega

/-- **The flag is owned at most once**, and is clear if it is not owned. -/
theorem flagged_step {state next : State ι} {action : Action ι} (hflagged : state.Flagged)
    (hmove : Move state action next) : next.Flagged := by
  cases hmove with
  | lockRef t cast hpoint => exact hflagged.goTo hpoint rfl
  | lockMut t cast hpoint => exact hflagged.goTo hpoint rfl
  | spinRef t cast hpoint hlocked => exact hflagged
  | unlocked t cast hpoint hlocked => exact hflagged.goTo hpoint rfl
  | addRef t cast hpoint =>
      unfold State.Flagged State.owners
      rw [State.writers_give_ref]
      exact hflagged.goTo hpoint rfl
  | spinMut t cast hpoint hlocked => exact hflagged
  | swapLocked t cast hpoint hlocked =>
      have hsum : _ + 0 = _ + 1 := sum_holds_update state hpoint (.addMut cast)
      unfold State.Flagged State.owners at hflagged
      rw [hlocked] at hflagged
      change state.writers + ∑ u, (state.point u).holds = 0 at hflagged
      change state.writers + ∑ u, (Function.update state.point t (.addMut cast) u).holds = 1
      omega
  | addMut t cast hpoint => exact hflagged.goTo hpoint rfl
  | spinAlone t cast hpoint hrefs => exact hflagged
  | alone t cast hpoint hrefs =>
      -- the thread passes the flag on to its guard
      have hsum : _ + 1 = _ + 0 := sum_holds_update state hpoint .idle
      unfold State.Flagged State.owners at hflagged ⊢
      rw [State.writers_give_mut]
      change state.writers + 1 + ∑ u, (Function.update state.point t .idle u).holds =
        state.locked.toNat
      omega
  | subMut t hpoint => exact hflagged.goTo hpoint rfl
  | dropRef t cast hpoint hlive =>
      unfold State.Flagged State.owners
      rw [State.writers_take_ref]
      exact hflagged
  | dropMut t cast hpoint hlive =>
      have hsum : _ + 0 = _ + 0 := sum_holds_update state hpoint .subMut
      have hwriters := State.writers_take_mut { state with locked := false } cast hlive
      have hlocked := Bool.toNat_le state.locked
      change _ = state.writers at hwriters
      unfold State.Flagged State.owners at hflagged
      change (State.take { state with locked := false } (.mutGuard cast)).writers +
        ∑ u, (Function.update state.point t .subMut u).holds = 0
      omega

theorem counted_and_flagged {state : State ι} (hreach : (system ι).Reachable new state) :
    state.Counted ∧ state.Flagged := by
  refine System.Reach.invariant (I := fun state => state.Counted ∧ state.Flagged)
    ⟨new_counted, new_flagged⟩ ?_ hreach
  rintro state action next ⟨hcounted, hflagged⟩ - hstep
  have hmove := move_of_step hstep
  exact ⟨counted_step hcounted hmove, flagged_step hflagged hmove⟩

omit [DecidableEq ι] in
/-- What is decremented is counted. -/
theorem State.Counted.refs_pos {state : State ι} (hcounted : state.Counted) {action : Action ι}
    (hdecrements : state.Decrements action) : 0 < state.refs := by
  unfold State.Counted at hcounted
  match action with
  | .tick t =>
      have howes := owes_le_sum state t
      rw [show state.point t = .subMut from hdecrements] at howes
      change 1 ≤ _ at howes
      omega
  | .drop t (.refGuard cast) =>
      have hlive : state.live (.refGuard cast) ≤ state.readers := by
        unfold State.readers
        cases cast <;> omega
      have hpos : 0 < state.live (.refGuard cast) := hdecrements.2
      omega

/-- What `refs` and `locked` say about the calls and the guards. -/
structure State.Bookkept (state : State ι) : Prop where
  counted : state.Counted
  decremented : ∀ action, state.Decrements action → 0 < state.refs
  flagged : state.Flagged
  oneOwner : state.owners ≤ 1
  oneWriter : state.writers ≤ 1
  atRest : (∀ t, state.point t = .idle) → state.Unguarded → state.refs = 0 ∧ state.locked = false

/-- **Bookkeeping.** In every state, whoever runs and in whatever order. -/
theorem bookkept_of_reachable {state : State ι} (hreach : (system ι).Reachable new state) :
    state.Bookkept := by
  obtain ⟨hcounted, hflagged⟩ := counted_and_flagged hreach
  have howners : state.owners ≤ 1 := by
    rw [show state.owners = _ from hflagged]
    exact Bool.toNat_le state.locked
  refine ⟨hcounted, fun _ => hcounted.refs_pos, hflagged, howners,
    (Nat.le_add_right ..).trans howners, ?_⟩
  intro hidle hunguarded
  unfold State.Counted at hcounted
  unfold State.Flagged State.owners at hflagged
  simp only [hidle, hunguarded.readers, hunguarded.writers, Point.owes, Point.holds,
    Finset.sum_const_zero, Nat.add_zero] at hcounted hflagged
  exact ⟨hcounted, Bool.toNat_eq_zero.mp hflagged.symm⟩

/-- The writer's guard is being dropped: the flag is clear and its increment is still counted, and
the next writer waits. -/
theorem bookkept_of_reachable_dropping :
    ∃ state : State Bool, state.point false = .subMut ∧ state.point true = .awaitAlone true ∧
      state.refs = 2 ∧ state.Bookkept :=
  ⟨_, rfl, rfl, rfl, bookkept_of_reachable (System.reachable_of_run
    [.lock false (.mutGuard false), .tick false, .tick false, .tick false,
      .drop false (.mutGuard false), .lock true (.mutGuard true), .tick true, .tick true] rfl)⟩

/-! ### Progress -/

omit [Fintype ι] in
/-- The thread leaves its loop or gets to its next instruction. -/
def State.Advances (state : State ι) (t : ι) : Prop :=
  ∃ next, (system ι).step state (.tick t) = some next ∧ next.point t ≠ state.point t

omit [Fintype ι] in
theorem State.advances_of_update {state next : State ι} {t : ι} {after : Point}
    (hstep : step state (.tick t) = some next)
    (hnext : next.point = Function.update state.point t after) (hne : after ≠ state.point t) :
    state.Advances t := by
  refine ⟨next, hstep, ?_⟩
  rw [hnext, Function.update_self]
  exact hne

omit [Fintype ι] in
/-- Whoever does not wait goes on. -/
theorem State.advances_of_not_waits {state : State ι} {t : ι} (hwaits : ¬ state.Waits t) :
    state.Advances t := by
  cases hpoint : state.point t with
  | idle => simp [Waits, hpoint] at hwaits
  | awaitUnlocked cast =>
      simp only [Waits, hpoint] at hwaits
      have hstep : step state (.tick t) = some (state.goTo t (.addRef cast)) := by
        simp [step, hpoint, hwaits]
      exact advances_of_update hstep rfl (by simp [hpoint])
  | addRef cast =>
      have hstep : step state (.tick t) =
          some ({ state with refs := state.refs + 1 }.give t (.refGuard cast)) := by
        simp only [step, hpoint]
      exact advances_of_update hstep rfl (by simp [hpoint])
  | swapLocked cast =>
      simp only [Waits, hpoint] at hwaits
      have hstep : step state (.tick t) =
          some ({ state with locked := true }.goTo t (.addMut cast)) := by
        simp [step, hpoint, hwaits]
      exact advances_of_update hstep rfl (by simp [hpoint])
  | addMut cast =>
      have hstep : step state (.tick t) =
          some ({ state with refs := state.refs + 1 }.goTo t (.awaitAlone cast)) := by
        simp only [step, hpoint]
      exact advances_of_update hstep rfl (by simp [hpoint])
  | awaitAlone cast =>
      simp only [Waits, hpoint] at hwaits
      have hstep : step state (.tick t) = some (state.give t (.mutGuard cast)) := by
        simp [step, hpoint, Nat.le_of_not_lt hwaits]
      exact advances_of_update hstep rfl (by simp [hpoint])
  | subMut =>
      have hstep : step state (.tick t) =
          some ({ state with refs := fetchSub state.refs }.goTo t .idle) := by
        simp only [step, hpoint]
      exact advances_of_update hstep rfl (by simp [hpoint])

omit [Fintype ι] [DecidableEq ι] in
/-- A thread that waits and is counted in `refs` owns the flag. -/
theorem State.Waits.owes_eq {state : State ι} {t : ι} (hwaits : state.Waits t) :
    (state.point t).owes = (state.point t).holds := by
  cases hpoint : state.point t with
  | addMut cast | subMut => simp [Waits, hpoint] at hwaits
  | idle | awaitUnlocked | addRef | swapLocked | awaitAlone => rfl

omit [DecidableEq ι] in
/-- If everybody waits and no guard is live, nobody is in a call. -/
theorem idle_of_waits {state : State ι} (hcounted : state.Counted) (hflagged : state.Flagged)
    (hunguarded : state.Unguarded) (hwaits : ∀ t, state.Waits t) (t : ι) :
    state.point t = .idle := by
  have howes : ∑ u, (state.point u).owes = ∑ u, (state.point u).holds :=
    Finset.sum_congr rfl fun u _ => (hwaits u).owes_eq
  have hflag := Bool.toNat_le state.locked
  unfold State.Counted at hcounted
  unfold State.Flagged State.owners at hflagged
  rw [hunguarded.readers, hunguarded.writers] at hcounted
  rw [hunguarded.writers] at hflagged
  -- nobody waits for `refs`, so nobody owns the flag
  have hrefs : state.refs ≤ 1 := by omega
  have hnone : ∀ u, (state.point u).holds = 0 := by
    intro u
    have hu := hwaits u
    cases hpoint : state.point u with
    | addMut cast => simp [State.Waits, hpoint] at hu
    | awaitAlone cast =>
        simp only [State.Waits, hpoint] at hu
        omega
    | idle | awaitUnlocked | addRef | swapLocked | subMut => rfl
  have hclear : state.locked = false := by
    rw [Finset.sum_eq_zero fun u _ => hnone u] at hflagged
    exact Bool.toNat_eq_zero.mp hflagged.symm
  have ht := hwaits t
  cases hpoint : state.point t with
  | idle => rfl
  | awaitUnlocked | swapLocked | addRef | addMut | subMut =>
      simp [State.Waits, hpoint, hclear] at ht
  | awaitAlone cast =>
      simp only [State.Waits, hpoint] at ht
      omega

/-- **No stuck state.** Where no guard is live and somebody is in a call or in a `Drop`, one of those
threads leaves its loop or gets to its next instruction. -/
theorem exists_advances {state : State ι} (hreach : (system ι).Reachable new state)
    (hunguarded : state.Unguarded) (hbusy : ∃ t, state.point t ≠ .idle) :
    ∃ t, state.point t ≠ .idle ∧ state.Advances t := by
  obtain ⟨hcounted, hflagged⟩ := counted_and_flagged hreach
  obtain ⟨t, ht⟩ := hbusy
  by_contra hstuck
  apply ht
  refine idle_of_waits hcounted hflagged hunguarded ?_ t
  intro u
  by_contra hwaits
  have hpoint : state.point u ≠ .idle := by
    intro hidle
    apply hwaits
    simp [State.Waits, hidle]
  exact hstuck ⟨u, hpoint, State.advances_of_not_waits hwaits⟩

/-- A reader, the next writer and the `Drop` the writer waits for. -/
theorem exists_advances_dropping :
    ∃ state : State (Fin 3), state.point 0 = .subMut ∧ state.point 1 = .awaitAlone false ∧
      state.point 2 = .awaitUnlocked true ∧ state.locked = true ∧
      ∃ t, state.point t ≠ .idle ∧ state.Advances t :=
  ⟨_, rfl, rfl, rfl, rfl, exists_advances (System.reachable_of_run
    [.lock 0 (.mutGuard false), .tick 0, .tick 0, .tick 0, .drop 0 (.mutGuard false),
      .lock 1 (.mutGuard false), .tick 1, .tick 1, .lock 2 (.refGuard true), .tick 2] rfl)
    (by rintro ((_ | _) | (_ | _)) <;> rfl) ⟨0, by decide⟩⟩

end Mutual.RelaxedMutex
