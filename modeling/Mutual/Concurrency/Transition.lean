import Mathlib.Algebra.BigOperators.Group.Finset.Basic
import Mathlib.Data.Fintype.Basic
import Mathlib.Tactic.Abel

/-!
# Transition systems and the runs that meet a condition

A system is a partial step function: an action that is not enabled in a state has no successor. A
safety property is proved of every state of every run by one induction, `Reach.invariant`. Where a
property holds only of the runs whose steps avoid something, the condition on a step is part of the
notion of a run, so that the same induction serves.
-/

namespace Concurrency

/-- A transition system. `step` is `none` where the action is not enabled. -/
structure System (State Action : Type*) where
  step : State → Action → Option State

namespace System

variable {State Action Ghost : Type*}

/-- The states reached from `start` by runs each of whose steps meets `cond`. -/
inductive Reach (system : System State Action) (cond : State → Action → Prop) (start : State) :
    State → Prop
  | start : Reach system cond start start
  | step {state next : State} {action : Action} :
      Reach system cond start state → cond state action →
      system.step state action = some next → Reach system cond start next

def Reachable (system : System State Action) (start : State) : State → Prop :=
  system.Reach (fun _ _ => True) start

def run (system : System State Action) : State → List Action → Option State
  | state, [] => some state
  | state, action :: rest => (system.step state action).bind fun next => system.run next rest

/-- The state after a list of actions, if each of them is enabled and meets `cond` in turn. -/
def runIf (system : System State Action) (cond : State → Action → Prop)
    [∀ state action, Decidable (cond state action)] : State → List Action → Option State
  | state, [] => some state
  | state, action :: rest =>
      if cond state action then
        (system.step state action).bind fun next => system.runIf cond next rest
      else none

variable {system : System State Action} {cond : State → Action → Prop} {start : State}

theorem Reach.trans {middle state : State} (first : system.Reach cond start middle)
    (second : system.Reach cond middle state) : system.Reach cond start state := by
  induction second with
  | start => exact first
  | step _ hcond hstep ih => exact .step ih hcond hstep

/-- **The invariant rule.** What holds at the start and is kept by every step that meets the
condition holds in every state reached. -/
theorem Reach.invariant {I : State → Prop} (hstart : I start)
    (hstep : ∀ state action next, I state → cond state action →
      system.step state action = some next → I next)
    {state : State} (hreach : system.Reach cond start state) : I state := by
  induction hreach with
  | start => exact hstart
  | step _ hcond hnext ih => exact hstep _ _ _ ih hcond hnext

/-- An invariant may be put into the condition. -/
theorem Reach.with_invariant {I : State → Prop} (hstart : I start)
    (hstep : ∀ state action next, I state → cond state action →
      system.step state action = some next → I next)
    {state : State} (hreach : system.Reach cond start state) :
    system.Reach (fun state action => I state ∧ cond state action) start state := by
  induction hreach with
  | start => exact .start
  | step hbefore hcond hnext ih => exact .step ih ⟨hbefore.invariant hstart hstep, hcond⟩ hnext

theorem Reach.mono {weaker : State → Action → Prop}
    (himp : ∀ state action, cond state action → weaker state action) {state : State}
    (hreach : system.Reach cond start state) : system.Reach weaker start state := by
  induction hreach with
  | start => exact .start
  | step _ hcond hnext ih => exact .step ih (himp _ _ hcond) hnext

theorem reachable_of_run (actions : List Action) {state : State}
    (hrun : system.run start actions = some state) : system.Reachable start state := by
  induction actions generalizing start with
  | nil =>
      cases hrun
      exact .start
  | cons action rest ih =>
      obtain ⟨next, hnext, hrest⟩ := Option.bind_eq_some_iff.mp hrun
      exact Reach.trans (.step .start trivial hnext) (ih hrest)

theorem reach_of_runIf [∀ state action, Decidable (cond state action)] (actions : List Action)
    {state : State} (hrun : system.runIf cond start actions = some state) :
    system.Reach cond start state := by
  induction actions generalizing start with
  | nil =>
      cases hrun
      exact .start
  | cons action rest ih =>
      rw [runIf] at hrun
      split at hrun
      · rename_i hcond
        obtain ⟨next, hnext, hrest⟩ := Option.bind_eq_some_iff.mp hrun
        exact Reach.trans (.step .start hcond hnext) (ih hrest)
      · cases hrun

/-! ### Monitors

A monitor adds to a state what has happened on the way to it. It reads the state and the action
about to be taken and never blocks a step. -/

/-- The system run beside a monitor that keeps `Ghost` up to date. -/
def monitored (system : System State Action) (update : State → Action → Ghost → Ghost) :
    System (State × Ghost) Action where
  step := fun (state, ghost) action =>
    (system.step state action).map fun next => (next, update state action ghost)

theorem monitored_step {update : State → Action → Ghost → Ghost} {state next : State × Ghost}
    {action : Action} :
    (system.monitored update).step state action = some next ↔
      system.step state.1 action = some next.1 ∧ next.2 = update state.1 action state.2 := by
  simp only [monitored, Option.map_eq_some_iff]
  constructor
  · rintro ⟨after, hafter, rfl⟩
    exact ⟨hafter, rfl⟩
  · rintro ⟨hafter, hghost⟩
    exact ⟨next.1, hafter, Prod.ext rfl hghost.symm⟩

/-- A monitor blocks no run. -/
theorem Reach.beside {state : State} (hreach : system.Reach cond start state)
    (update : State → Action → Ghost → Ghost) (ghost : Ghost) :
    ∃ ghost', (system.monitored update).Reach (fun before => cond before.1) (start, ghost)
      (state, ghost') := by
  induction hreach with
  | start => exact ⟨ghost, .start⟩
  | step _ hcond hstep ih =>
      obtain ⟨ghost', hbefore⟩ := ih
      exact ⟨_, hbefore.step hcond (monitored_step.mpr ⟨hstep, rfl⟩)⟩

end System

/-- One thread changes, but for what a field of it holds. -/
theorem update_field_eq {ι Local β : Type*} [DecidableEq ι] (field : Local → β) (locals : ι → Local)
    (t : ι) {after : Local} (hsame : field after = field (locals t)) (u : ι) :
    field (Function.update locals t after u) = field (locals u) := by
  by_cases hut : u = t
  · rw [hut, Function.update_self, hsame]
  · rw [Function.update_of_ne hut]

/-- One thread changes: so does what a field of it holds. -/
theorem field_update {ι Local β : Type*} [DecidableEq ι] (field : Local → β) (locals : ι → Local)
    (t : ι) (after : Local) : (fun u => field (Function.update locals t after u)) =
      Function.update (fun u => field (locals u)) t (field after) :=
  Function.comp_update field locals t after

/-- One thread changes, and what is kept beside it. -/
theorem forall_update₂ {ι Local Log : Type*} [DecidableEq ι] {p : ι → Local → Log → Prop}
    (locals : ι → Local) (log : ι → Log) (t : ι) {after : Local} {logged : Log}
    (ht : p t after logged) (hothers : ∀ u, u ≠ t → p u (locals u) (log u)) (u : ι) :
    p u (Function.update locals t after u) (Function.update log t logged u) := by
  by_cases hut : u = t
  · subst hut
    rwa [Function.update_self, Function.update_self]
  · rw [Function.update_of_ne hut, Function.update_of_ne hut]
    exact hothers u hut

/-- **Counting over threads.** One thread changes: the total gains what the thread has now and loses
what it had. -/
theorem sum_update {ι Local M : Type*} [Fintype ι] [DecidableEq ι] [AddCommMonoid M]
    (measure : Local → M) (locals : ι → Local) (t : ι) (after : Local) :
    ∑ u, measure (Function.update locals t after u) + measure (locals t) =
      ∑ u, measure (locals u) + measure after := by
  have hrest : ∑ u ∈ Finset.univ.erase t, measure (Function.update locals t after u) =
      ∑ u ∈ Finset.univ.erase t, measure (locals u) := by
    refine Finset.sum_congr rfl fun u hu => ?_
    rw [Function.update_of_ne (Finset.ne_of_mem_erase hu)]
  rw [← Finset.add_sum_erase Finset.univ _ (Finset.mem_univ t),
    ← Finset.add_sum_erase Finset.univ (fun u => measure (locals u)) (Finset.mem_univ t), hrest,
    Function.update_self]
  abel

theorem sum_update_of_eq {ι Local M : Type*} [Fintype ι] [DecidableEq ι] [AddCommMonoid M]
    (measure : Local → M) (locals : ι → Local) (t : ι) {after : Local}
    (hsame : measure after = measure (locals t)) :
    ∑ u, measure (Function.update locals t after u) = ∑ u, measure (locals u) := by
  exact Finset.sum_congr rfl fun u _ => update_field_eq measure locals t hsame u

/-- **At most one thread.** One thread changes: it may have what no other thread has. -/
theorem unique_update {ι Local : Type*} [DecidableEq ι] (has : Local → Prop) (locals : ι → Local)
    (t : ι) {after : Local} (hunique : ∀ u v, has (locals u) → has (locals v) → u = v)
    (hafter : has after → ∀ u, has (locals u) → u = t) (u v : ι)
    (hu : has (Function.update locals t after u)) (hv : has (Function.update locals t after v)) :
    u = v := by
  by_cases hut : u = t <;> by_cases hvt : v = t
  · rw [hut, hvt]
  · rw [hut, Function.update_self] at hu
    rw [Function.update_of_ne hvt] at hv
    exact absurd (hafter hu v hv) hvt
  · rw [hvt, Function.update_self] at hv
    rw [Function.update_of_ne hut] at hu
    exact absurd (hafter hv u hu) hut
  · rw [Function.update_of_ne hut] at hu
    rw [Function.update_of_ne hvt] at hv
    exact hunique u v hu hv

end Concurrency
