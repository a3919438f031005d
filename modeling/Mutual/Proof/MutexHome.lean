import Mutual.Concurrency.Draining
import Mutual.Proof.MutexProgress

/-!
# How a RelaxedMutex comes to rest

No lock calls are begun any more, and guards are dropped as far as a thread is free to drop them.
Every access that is no failed test of a loop brings a call nearer to its return or a guard nearer
to its end. So the mutex gets back to what it was when it was new, unless the threads that could drop
the live guards all wait themselves.
-/

namespace Mutual.RelaxedMutex

open Concurrency

variable {ι : Type}

/-- The accesses from here to the end of the call and of the `Drop` of the guard it returns. -/
def Point.remaining : Point → Nat
  | .idle => 0
  | .awaitUnlocked _ | .awaitAlone _ => 3
  | .addRef _ => 2
  | .swapLocked _ => 5
  | .addMut _ => 4
  | .subMut => 1

namespace State

/-- The condition that no lock calls are begun. -/
def Settles : State ι → Action ι → Prop
  | _, .lock _ _ => False
  | _, _ => True

/-- A thread can drop guards, or there is none. -/
def Droppable (state : State ι) : Prop := state.Unguarded ∨ ∃ t, state.point t = .idle

end State

variable [Fintype ι]

def State.remaining (state : State ι) : Nat :=
  ∑ t, (state.point t).remaining + state.readers + 2 * state.writers

variable [DecidableEq ι]

/-- A guard is live, and nothing that is done changes anything. -/
def State.Deadlocked (state : State ι) : Prop :=
  ¬ state.Unguarded ∧ ∀ action next, (system ι).step state action = some next → next = state

theorem sum_remaining_update (state : State ι) {t : ι} {before : Point}
    (hpoint : state.point t = before) (after : Point) :
    ∑ u, (Function.update state.point t after u).remaining + before.remaining =
      ∑ u, (state.point u).remaining + after.remaining := by
  rw [← hpoint]
  exact sum_update Point.remaining state.point t after

/-- What a thread does that goes on: it gets on, and then it is free or all guards are as they
were. -/
theorem Move.advance {state next : State ι} {t : ι} (hmove : Move state (.tick t) next)
    (hadvances : next.point t ≠ state.point t) :
    next.remaining < state.remaining ∧ (next.point t = .idle ∨ next.live = state.live) := by
  unfold State.remaining
  cases hmove with
  | spinRef _ cast hpoint hlocked | spinMut _ cast hpoint hlocked | spinAlone _ cast hpoint hrefs =>
      exact absurd rfl hadvances
  | unlocked _ cast hpoint hlocked =>
      have hsum : _ + 3 = _ + 2 := sum_remaining_update state hpoint (.addRef cast)
      refine ⟨?_, .inr rfl⟩
      change ∑ u, (Function.update state.point t (.addRef cast) u).remaining + state.readers +
        2 * state.writers < _
      omega
  | addRef _ cast hpoint =>
      have hsum : _ + 2 = _ + 0 := sum_remaining_update state hpoint .idle
      refine ⟨?_, .inl (Function.update_self ..)⟩
      rw [State.readers_give_ref, State.writers_give_ref]
      change ∑ u, (Function.update state.point t .idle u).remaining + (state.readers + 1) +
        2 * state.writers < _
      omega
  | swapLocked _ cast hpoint hlocked =>
      have hsum : _ + 5 = _ + 4 := sum_remaining_update state hpoint (.addMut cast)
      refine ⟨?_, .inr rfl⟩
      change ∑ u, (Function.update state.point t (.addMut cast) u).remaining + state.readers +
        2 * state.writers < _
      omega
  | addMut _ cast hpoint =>
      have hsum : _ + 4 = _ + 3 := sum_remaining_update state hpoint (.awaitAlone cast)
      refine ⟨?_, .inr rfl⟩
      change ∑ u, (Function.update state.point t (.awaitAlone cast) u).remaining + state.readers +
        2 * state.writers < _
      omega
  | alone _ cast hpoint hrefs =>
      have hsum : _ + 3 = _ + 0 := sum_remaining_update state hpoint .idle
      refine ⟨?_, .inl (Function.update_self ..)⟩
      rw [State.readers_give_mut, State.writers_give_mut]
      change ∑ u, (Function.update state.point t .idle u).remaining + state.readers +
        2 * (state.writers + 1) < _
      omega
  | subMut _ hpoint =>
      have hsum : _ + 1 = _ + 0 := sum_remaining_update state hpoint .idle
      refine ⟨?_, .inl (Function.update_self ..)⟩
      change ∑ u, (Function.update state.point t .idle u).remaining + state.readers +
        2 * state.writers < _
      omega

omit [Fintype ι] in
theorem Move.point_of_ne {state next : State ι} {t u : ι} (hmove : Move state (.tick t) next)
    (hut : u ≠ t) : next.point u = state.point u := by
  cases hmove with
  | spinRef | spinMut | spinAlone => rfl
  | unlocked | addRef | swapLocked | addMut | alone | subMut => exact Function.update_of_ne hut ..

/-- A thread that is free drops a guard. -/
theorem State.drops {state : State ι} {t : ι} (hidle : state.point t = .idle) {guard : Guard}
    (hlive : 0 < state.live guard) :
    ∃ next, (system ι).Reach State.Settles state next ∧ next.remaining < state.remaining ∧
      next.point t = .idle := by
  cases guard with
  | refGuard cast =>
      let next := { state with refs := fetchSub state.refs }.take (.refGuard cast)
      have hdrop : step state (.drop t (.refGuard cast)) = some next := by
        simp [step, hidle, hlive, next]
      have hreaders := State.readers_take_ref { state with refs := fetchSub state.refs } cast hlive
      have hwriters := State.writers_take_ref { state with refs := fetchSub state.refs } cast
      have hsettles : state.Settles (.drop t (.refGuard cast)) := trivial
      refine ⟨next, .step .start hsettles hdrop, ?_, hidle⟩
      change next.readers + 1 = state.readers at hreaders
      change next.writers = state.writers at hwriters
      change ∑ u, (state.point u).remaining + next.readers + 2 * next.writers <
        ∑ u, (state.point u).remaining + state.readers + 2 * state.writers
      omega
  | mutGuard cast =>
      let middle := ({ state with locked := false }.take (.mutGuard cast)).goTo t .subMut
      let next := { middle with refs := fetchSub middle.refs }.goTo t .idle
      have hdrop : step state (.drop t (.mutGuard cast)) = some middle := by
        simp [step, hidle, hlive, middle]
      have hpoint : middle.point t = .subMut := Function.update_self ..
      have hsub : step middle (.tick t) = some next := by
        simp only [step, hpoint, next]
      have hreaders := State.readers_take_mut { state with locked := false } cast
      have hwriters := State.writers_take_mut { state with locked := false } cast hlive
      have hsum : _ + 0 = _ + 1 := sum_remaining_update state hidle .subMut
      have hsum' : _ + 1 = _ + 0 := sum_remaining_update middle hpoint .idle
      have hsettles : state.Settles (.drop t (.mutGuard cast)) := trivial
      have hsettles' : middle.Settles (.tick t) := trivial
      refine ⟨next, .step (.step .start hsettles hdrop) hsettles' hsub, ?_,
        Function.update_self ..⟩
      change middle.readers = state.readers at hreaders
      change middle.writers + 1 = state.writers at hwriters
      change ∑ u, (Function.update middle.point t .idle u).remaining + middle.readers +
        2 * middle.writers < ∑ u, (state.point u).remaining + state.readers + 2 * state.writers
      change ∑ u, (Function.update middle.point t .idle u).remaining + 1 =
        ∑ u, (Function.update state.point t .subMut u).remaining + 0 at hsum'
      omega

omit [Fintype ι] in
/-- Where everybody waits in a call, nothing changes. -/
theorem eq_of_waits {state next : State ι} (hbusy : ∀ t, state.point t ≠ .idle)
    (hwaits : ∀ t, state.Waits t) {action : Action ι} (hmove : Move state action next) :
    next = state := by
  cases hmove with
  | spinRef | spinMut | spinAlone => rfl
  | lockRef t cast hpoint | lockMut t cast hpoint | dropRef t cast hpoint | dropMut t cast hpoint =>
      exact absurd hpoint (hbusy t)
  | unlocked t cast hpoint hlocked | swapLocked t cast hpoint hlocked =>
      have ht := hwaits t
      simp [State.Waits, hpoint, hlocked] at ht
  | addRef t cast hpoint | addMut t cast hpoint =>
      have ht := hwaits t
      simp [State.Waits, hpoint] at ht
  | subMut t hpoint =>
      have ht := hwaits t
      simp [State.Waits, hpoint] at ht
  | alone t cast hpoint hrefs =>
      have ht := hwaits t
      simp only [State.Waits, hpoint] at ht
      omega

omit [DecidableEq ι] in
theorem eq_new {state : State ι} (hcounted : state.Counted) (hflagged : state.Flagged)
    (hunguarded : state.Unguarded) (hidle : ∀ t, state.point t = .idle) : state = new := by
  unfold State.Counted at hcounted
  unfold State.Flagged State.owners at hflagged
  simp only [hidle, hunguarded.readers, hunguarded.writers, Point.owes, Point.holds,
    Finset.sum_const_zero, Nat.add_zero] at hcounted hflagged
  have hlocked := Bool.toNat_eq_zero.mp hflagged.symm
  obtain ⟨refs, locked, live, point⟩ := state
  obtain rfl : live = fun _ => 0 := funext hunguarded
  obtain rfl : point = fun _ => .idle := funext hidle
  obtain rfl : refs = 0 := hcounted
  obtain rfl : locked = false := hlocked
  rfl

/-- One round: a guard is dropped or a call gets on. -/
theorem State.settles {state : State ι} (hcounted : state.Counted) (hflagged : state.Flagged) :
    (state = new ∨ state.Deadlocked ∧ ¬ state.Droppable) ∨
      ∃ next, (system ι).Reach State.Settles state next ∧ next.remaining < state.remaining ∧
        (state.Droppable → next.Droppable) := by
  by_cases hwaits : ∀ t, state.Waits t
  · by_cases hunguarded : state.Unguarded
    · exact .inl (.inl (eq_new hcounted hflagged hunguarded
        (idle_of_waits hcounted hflagged hunguarded hwaits)))
    · by_cases hfree : ∃ t, state.point t = .idle
      · obtain ⟨t, hidle⟩ := hfree
        obtain ⟨guard, hguard⟩ := not_forall.mp hunguarded
        obtain ⟨next, hreach, hless, hnext⟩ := State.drops hidle (Nat.pos_of_ne_zero hguard)
        exact .inr ⟨next, hreach, hless, fun _ => .inr ⟨t, hnext⟩⟩
      · refine .inl (.inr ⟨⟨hunguarded, fun action next hstep => ?_⟩, ?_⟩)
        · exact eq_of_waits (not_exists.mp hfree) hwaits (move_of_step hstep)
        · rintro (hnone | hsome)
          · exact hunguarded hnone
          · exact hfree hsome
  · obtain ⟨t, ht⟩ := not_forall.mp hwaits
    obtain ⟨next, hstep, hadvances⟩ := State.advances_of_not_waits ht
    obtain ⟨hless, hnext⟩ := (move_of_step hstep).advance hadvances
    have hsettles : state.Settles (.tick t) := trivial
    refine .inr ⟨next, .step .start hsettles hstep, hless, fun hdroppable => ?_⟩
    by_cases hidle : next.point t = .idle
    · exact .inr ⟨t, hidle⟩
    · have hlive := hnext.resolve_left hidle
      rcases hdroppable with hunguarded | ⟨u, hu⟩
      · exact .inl fun guard => (congrFun hlive guard).trans (hunguarded guard)
      · have hut : u ≠ t := by
          rintro rfl
          simp [State.Waits, hu] at ht
        exact .inr ⟨u, ((move_of_step hstep).point_of_ne hut).trans hu⟩

/-- **The mutex comes home.** From every state, once no lock calls are begun any more, the threads
can go on until the mutex is as it was when it was new, or until a guard is live and nobody can do
anything any more. The latter happens only if all threads are in calls while a guard is live. -/
theorem comes_home {state : State ι} (hreach : (system ι).Reachable new state) :
    ∃ after, (system ι).Reach State.Settles state after ∧ (after = new ∨ after.Deadlocked) ∧
      (state.Droppable → after = new) := by
  let I : State ι → Prop := fun after =>
    after.Counted ∧ after.Flagged ∧ (state.Droppable → after.Droppable)
  have hnext : ∀ middle, I middle → (middle = new ∨ middle.Deadlocked ∧ ¬ middle.Droppable) ∨
      ∃ next, (system ι).Reach State.Settles middle next ∧ I next ∧
        next.remaining < middle.remaining := by
    rintro middle ⟨hcounted, hflagged, hdroppable⟩
    refine (State.settles hcounted hflagged).imp_right ?_
    rintro ⟨next, hreach, hless, hkept⟩
    refine ⟨next, hreach, ?_, hless⟩
    have hinv : next.Counted ∧ next.Flagged := by
      refine System.Reach.invariant (I := fun state => state.Counted ∧ state.Flagged)
        ⟨hcounted, hflagged⟩ ?_ hreach
      rintro state action next ⟨hcounted, hflagged⟩ - hstep
      have hmove := move_of_step hstep
      exact ⟨counted_step hcounted hmove, flagged_step hflagged hmove⟩
    exact ⟨hinv.1, hinv.2, fun hstart => hkept (hdroppable hstart)⟩
  obtain ⟨hcounted, hflagged⟩ := counted_and_flagged hreach
  obtain ⟨after, hafter, ⟨-, -, hdroppable⟩, hgoal⟩ :=
    System.reach_goal State.remaining hnext ⟨hcounted, hflagged, id⟩
  refine ⟨after, hafter, hgoal.imp_right And.left, fun hstart => ?_⟩
  exact hgoal.resolve_right fun hdead => hdead.2 (hdroppable hstart)

/-- A reader and a writer are live at once, and a second writer spins. The last thread drops both
guards. -/
theorem comes_home_both_live :
    ∃ state : State (Fin 3), ¬ state.Exclusive ∧ state.point 2 = .swapLocked true ∧
      ∃ after, (system (Fin 3)).Reach State.Settles state after ∧
        (after = new ∨ after.Deadlocked) ∧ (state.Droppable → after = new) :=
  ⟨_, by decide, rfl, comes_home (System.reachable_of_run
    [.lock 0 (.refGuard false), .tick 0, .lock 1 (.mutGuard false), .tick 1, .tick 1, .tick 1,
      .tick 0, .lock 2 (.mutGuard true), .tick 2] rfl)⟩

/-- The only thread asks for a mutable guard while it has an immutable one. -/
theorem deadlocked_of_own_guard :
    ∃ state : State Unit, (system Unit).Reachable new state ∧ state.Deadlocked := by
  obtain ⟨state, hrun, hpoint, hrefs, hlive⟩ : ∃ state : State Unit, (system Unit).run new
      [.lock () (.refGuard false), .tick (), .tick (), .lock () (.mutGuard false), .tick (),
        .tick ()] = some state ∧ state.point () = .awaitAlone false ∧ state.refs = 2 ∧
      state.live (.refGuard false) = 1 := ⟨_, rfl, rfl, rfl, rfl⟩
  refine ⟨state, System.reachable_of_run _ hrun, ?_, fun action next hstep => ?_⟩
  · intro hunguarded
    rw [hunguarded] at hlive
    cases hlive
  · refine eq_of_waits ?_ ?_ (move_of_step hstep)
    · intro _ hidle
      rw [hpoint] at hidle
      cases hidle
    · intro _
      simp [State.Waits, hpoint, hrefs]

end Mutual.RelaxedMutex
