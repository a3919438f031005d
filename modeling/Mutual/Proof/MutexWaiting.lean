import Mutual.Proof.MutexProgress

/-!
# What a writer waits for

A writer that has set `locked` keeps out everybody who tests the flag from then on. What it waits for
is there already: the live guards, the readers that have found the flag clear and not incremented
`refs` yet, and the `Drop` that is about to decrement it. Each of them is done once, and no call that
is begun in the meantime adds to them.
-/

namespace Mutual.RelaxedMutex

open Concurrency

variable {ι : Type}

/-- The accesses that a writer may have to wait for: a late reader increments `refs` and drops its
guard again. -/
def Point.hinders : Point → Nat
  | .addRef _ => 2
  | .subMut => 1
  | _ => 0

namespace State

def hindrance [Fintype ι] (state : State ι) : Nat :=
  state.readers + ∑ t, (state.point t).hinders

/-- The action is one that a writer may have to wait for. -/
def Clears (state : State ι) : Action ι → Prop
  | .tick t => (state.point t).hinders ≠ 0
  | .drop _ _ => True
  | .lock _ _ => False

instance (state : State ι) : ∀ action, Decidable (state.Clears action)
  | .tick t => inferInstanceAs (Decidable ((state.point t).hinders ≠ 0))
  | .drop _ _ => .isTrue trivial
  | .lock _ _ => .isFalse id

/-- A monitor that counts them. -/
def clearing (state : State ι) (action : Action ι) (count : Nat) : Nat :=
  if state.Clears action then count + 1 else count

/-- The condition that `t` does not get its guard. -/
def KeepsOut (t : ι) (state : State ι) : Action ι → Prop
  | .tick u => u = t → ∀ cast, state.point t = .awaitAlone cast → 1 < state.refs
  | _ => True

end State

variable [Fintype ι] [DecidableEq ι]

instance (t : ι) (state : State ι) : ∀ action, Decidable (state.KeepsOut t action)
  | .tick u => inferInstanceAs (Decidable (u = t → ∀ cast, state.point t = .awaitAlone cast → _))
  | .lock _ _ => .isTrue trivial
  | .drop _ _ => .isTrue trivial

theorem sum_hinders_update (state : State ι) {t : ι} {before : Point}
    (hpoint : state.point t = before) (after : Point) :
    ∑ u, (Function.update state.point t after u).hinders + before.hinders =
      ∑ u, (state.point u).hinders + after.hinders := by
  rw [← hpoint]
  exact sum_update Point.hinders state.point t after

theorem sum_hinders_goTo (state : State ι) {t : ι} {before : Point}
    (hpoint : state.point t = before) (after : Point) (hsame : after.hinders = before.hinders) :
    ∑ u, (Function.update state.point t after u).hinders = ∑ u, (state.point u).hinders :=
  sum_update_of_eq Point.hinders state.point t (hsame.trans (congrArg _ hpoint.symm))

section Owner

variable {state next : State ι} {t u : ι} {action : Action ι}

/-- While a thread owns the flag in its call, no mutable guard is live and no other thread owns
it. -/
theorem sole_owner (hflagged : state.Flagged) (howns : (state.point t).holds = 1) :
    state.locked = true ∧ state.writers = 0 ∧ ∀ u, u ≠ t → (state.point u).holds = 0 := by
  have hlocked := Bool.toNat_le state.locked
  have hsum := Finset.add_sum_erase Finset.univ (fun u => (state.point u).holds)
    (Finset.mem_univ t)
  unfold State.Flagged State.owners at hflagged
  have hrest : ∑ u ∈ Finset.univ.erase t, (state.point u).holds = 0 := by omega
  refine ⟨Bool.toNat_eq_one.mp (by omega), by omega, ?_⟩
  intro u hut
  exact Finset.sum_eq_zero_iff.mp hrest u (Finset.mem_erase.mpr ⟨hut, Finset.mem_univ u⟩)

omit [Fintype ι] in
theorem holds_update (howns : (state.point t).holds = 1) {before after : Point}
    (hpoint : state.point u = before) (hsame : after.holds = before.holds) :
    (Function.update state.point u after t).holds = 1 := by
  by_cases htu : t = u
  · rw [htu, Function.update_self, hsame, ← hpoint, ← htu]
    exact howns
  · rw [Function.update_of_ne htu]
    exact howns

/-- **A step beside the owner.** It leaves the flag to the owner, and it is counted exactly if it
takes away something that the owner may have to wait for. -/
theorem hindrance_step (hflagged : state.Flagged) (howns : (state.point t).holds = 1)
    (hout : state.KeepsOut t action) (hmove : Move state action next) (count : Nat) :
    (next.point t).holds = 1 ∧
      state.clearing action count + next.hindrance = count + state.hindrance := by
  obtain ⟨hlocked, hwriters, halone⟩ := sole_owner hflagged howns
  have hquiet : ∀ {u before}, state.point u = before → before.hinders = 0 →
      state.clearing (.tick u) count = count := by
    intro u before hpoint hnone
    refine if_neg fun hclears => hclears ?_
    rw [hpoint]
    exact hnone
  have hcounted : ∀ {u before}, state.point u = before → before.hinders ≠ 0 →
      state.clearing (.tick u) count = count + 1 := by
    intro u before hpoint hsome
    refine if_pos ?_
    change (state.point u).hinders ≠ 0
    rw [hpoint]
    exact hsome
  cases hmove with
  | lockRef u cast hpoint =>
      have hsum := sum_hinders_goTo state hpoint (.awaitUnlocked cast) rfl
      exact ⟨holds_update howns hpoint rfl,
        congrArg (fun sum => count + (state.readers + sum)) hsum⟩
  | lockMut u cast hpoint =>
      have hsum := sum_hinders_goTo state hpoint (.swapLocked cast) rfl
      exact ⟨holds_update howns hpoint rfl,
        congrArg (fun sum => count + (state.readers + sum)) hsum⟩
  | spinRef u cast hpoint | spinMut u cast hpoint | spinAlone u cast hpoint =>
      refine ⟨howns, ?_⟩
      rw [hquiet hpoint rfl]
  | unlocked u cast hpoint hclear | swapLocked u cast hpoint hclear =>
      -- the flag is set
      rw [hlocked] at hclear
      cases hclear
  | addRef u cast hpoint =>
      have hsum : _ + 2 = _ + 0 := sum_hinders_update state hpoint .idle
      refine ⟨holds_update howns hpoint rfl, ?_⟩
      rw [hcounted hpoint (by simp [Point.hinders]), State.hindrance, State.readers_give_ref]
      change count + 1 + (state.readers + 1 +
        ∑ v, (Function.update state.point u .idle v).hinders) = count + state.hindrance
      unfold State.hindrance
      omega
  | addMut u cast hpoint =>
      have hsum := sum_hinders_goTo state hpoint (.awaitAlone cast) rfl
      refine ⟨holds_update howns hpoint rfl, ?_⟩
      rw [hquiet hpoint rfl]
      exact congrArg (fun sum => count + (state.readers + sum)) hsum
  | alone u cast hpoint hrefs =>
      -- only the owner is there, and it is kept out
      by_cases hut : u = t
      · subst hut
        have hmore := hout rfl cast hpoint
        omega
      · have hnone := halone u hut
        rw [hpoint] at hnone
        cases hnone
  | subMut u hpoint =>
      have hsum : _ + 1 = _ + 0 := sum_hinders_update state hpoint .idle
      refine ⟨holds_update howns hpoint rfl, ?_⟩
      rw [hcounted hpoint (by simp [Point.hinders])]
      change count + 1 + (state.readers +
        ∑ v, (Function.update state.point u .idle v).hinders) = count + state.hindrance
      unfold State.hindrance
      omega
  | dropRef u cast hpoint hlive =>
      have htake := State.readers_take_ref { state with refs := fetchSub state.refs } cast hlive
      change _ = state.readers at htake
      refine ⟨howns, ?_⟩
      change count + 1 + ((State.take _ (.refGuard cast)).readers +
        ∑ v, (state.point v).hinders) = count + (state.readers + ∑ v, (state.point v).hinders)
      omega
  | dropMut u cast hpoint hlive =>
      have htake := State.writers_take_mut { state with locked := false } cast hlive
      change _ = state.writers at htake
      omega

/-- Where nothing hinders it, the owner goes on. -/
theorem advances_of_hindrance (hcounted : state.Counted) (hflagged : state.Flagged)
    (howns : (state.point t).holds = 1) (hnone : state.hindrance = 0) : state.Advances t := by
  obtain ⟨-, hwriters, halone⟩ := sole_owner hflagged howns
  refine State.advances_of_not_waits ?_
  cases hpoint : state.point t with
  | idle | awaitUnlocked | addRef | swapLocked | subMut =>
      rw [hpoint] at howns
      cases howns
  | addMut cast => simp [State.Waits, hpoint]
  | awaitAlone cast =>
      simp only [State.Waits, hpoint, not_lt]
      unfold State.hindrance at hnone
      -- the others are not counted in `refs`
      have hothers : ∀ u, u ≠ t → (state.point u).owes = 0 := by
        intro u hut
        have hclear := Finset.sum_eq_zero_iff.mp (Nat.eq_zero_of_add_eq_zero_left hnone) u
          (Finset.mem_univ u)
        have hnot := halone u hut
        cases hu : state.point u with
        | idle | awaitUnlocked | addRef | swapLocked | addMut => rfl
        | awaitAlone cast' =>
            rw [hu] at hnot
            cases hnot
        | subMut =>
            rw [hu] at hclear
            cases hclear
      have hsum : ∑ u, (state.point u).owes = (state.point t).owes :=
        Finset.sum_eq_single t (fun u _ hut => hothers u hut)
          fun hmem => absurd (Finset.mem_univ t) hmem
      have howes : (state.point t).owes = 1 := by
        rw [hpoint]
        rfl
      unfold State.Counted at hcounted
      omega

end Owner

/-- **A writer is not starved.** From when a writer has set `locked`, whatever calls are begun and
whoever runs, as long as it does not get its guard the flag is its own, and the accesses that it may
have to wait for get fewer by each of them that is done. When there are none left, it gets on. -/
theorem writer_not_starved {state : State ι} (hreach : (system ι).Reachable new state) {t : ι}
    (howns : (state.point t).holds = 1) {after : State ι} {count : Nat}
    (hwaits : ((system ι).monitored State.clearing).Reach
      (fun before => before.1.KeepsOut t) (state, 0) (after, count)) :
    (after.point t).holds = 1 ∧ count + after.hindrance = state.hindrance ∧
      (after.hindrance = 0 → after.Advances t) := by
  let I : State ι × Nat → Prop := fun after => after.1.Counted ∧ after.1.Flagged ∧
    (after.1.point t).holds = 1 ∧ after.2 + after.1.hindrance = state.hindrance
  obtain ⟨hcounted, hflagged⟩ := counted_and_flagged hreach
  have hinv : I (after, count) := by
    refine hwaits.invariant (I := I) ⟨hcounted, hflagged, howns, Nat.zero_add _⟩ ?_
    rintro ⟨before, number⟩ action ⟨next, number'⟩ ⟨hcounted, hflagged, howns, hsame⟩ hout hstep
    obtain ⟨hnext, hnumber⟩ := System.monitored_step.mp hstep
    have hmove := move_of_step hnext
    obtain ⟨howns', hless⟩ := hindrance_step hflagged howns hout hmove number
    refine ⟨counted_step hcounted hmove, flagged_step hflagged hmove, howns', ?_⟩
    change number' = before.clearing action number at hnumber
    rw [hnumber]
    exact hless.trans hsame
  exact ⟨hinv.2.2.1, hinv.2.2.2, advances_of_hindrance hinv.1 hinv.2.1 hinv.2.2.1⟩

/-- A late reader gets in and out again, and a reader that has come since does not. -/
theorem writer_not_starved_overtaken :
    ∃ state after : State (Fin 3), state.live (.refGuard false) = 1 ∧ state.point 1 = .addRef true ∧
      state.point 2 = .addMut false ∧ after.point 0 = .awaitUnlocked false ∧
      (after.point 2).holds = 1 ∧ 2 + after.hindrance = state.hindrance ∧
      (after.hindrance = 0 → after.Advances 2) := by
  obtain ⟨state, hrun, hlive, hlate, hpoint, after, hwaits, hspins⟩ : ∃ state : State (Fin 3),
      (system (Fin 3)).run new [.lock 0 (.refGuard false), .tick 0, .tick 0, .lock 1 (.refGuard true),
        .tick 1, .lock 2 (.mutGuard false), .tick 2] = some state ∧
      state.live (.refGuard false) = 1 ∧ state.point 1 = .addRef true ∧
      state.point 2 = .addMut false ∧ ∃ after : State (Fin 3),
      ((system (Fin 3)).monitored State.clearing).runIf (fun before => before.1.KeepsOut 2) (state, 0)
        [.tick 2, .lock 0 (.refGuard false), .tick 0, .tick 1, .drop 1 (.refGuard true), .tick 2] =
        some (after, 2) ∧ after.point 0 = .awaitUnlocked false :=
    ⟨_, rfl, rfl, rfl, rfl, _, rfl, rfl⟩
  have howns : (state.point 2).holds = 1 := by
    rw [hpoint]
    rfl
  exact ⟨state, after, hlive, hlate, hpoint, hspins, writer_not_starved
    (System.reachable_of_run _ hrun) howns (System.reach_of_runIf _ hwaits)⟩

end Mutual.RelaxedMutex
