import Mathlib.Data.Fintype.Card
import Mutual.Concurrency.Interleaving

/-!
# Calls in progress can return

No calls are begun any more. If at every moment one of the busy threads is unhindered, which means
that it gets to the end of its call when it goes on alone, then the threads can go on one after the
other until nobody is busy. This needs no measure of the code: a tree of instructions is finite.
-/

namespace Concurrency

/-- **The descent rule.** A goal is reached if from every state short of it one is reached that
measures less. -/
theorem System.reach_goal {State Action : Type*} {system : System State Action}
    {cond : State → Action → Prop} {I goal : State → Prop} (measure : State → Nat)
    (hnext : ∀ state, I state → goal state ∨
      ∃ next, system.Reach cond state next ∧ I next ∧ measure next < measure state)
    {state : State} (hstate : I state) :
    ∃ final, system.Reach cond state final ∧ I final ∧ goal final := by
  induction hmeasure : measure state using Nat.strong_induction_on generalizing state with
  | _ bound ih =>
      rcases hnext state hstate with hgoal | ⟨next, hreach, hI, hless⟩
      · exact ⟨state, .start, hstate, hgoal⟩
      · obtain ⟨final, hreach', hfinal⟩ := ih (measure next) (hmeasure ▸ hless) hI rfl
        exact ⟨final, hreach.trans hreach', hfinal⟩

variable {O : Object} {ι : Type} [DecidableEq ι]

/-- The condition that no calls are begun. -/
def Continues : Config O ι → Action O ι → Prop
  | _, .invoke _ _ => False
  | _, .tick _ => True

def Thread.isBusy : Thread O → Bool
  | .idle => false
  | .busy _ _ => true

theorem Thread.isBusy_eq_false_iff {thread : Thread O} : thread.isBusy = false ↔ thread = .idle := by
  cases thread with
  | idle => exact iff_of_true rfl rfl
  | busy call code => exact iff_of_false nofun nofun

namespace Config

def busy [Fintype ι] (config : Config O ι) : Finset ι :=
  Finset.univ.filter fun t => (config.thread t).isBusy = true

omit [DecidableEq ι] in
theorem mem_busy [Fintype ι] {config : Config O ι} {t : ι} :
    t ∈ config.busy ↔ (config.thread t).isBusy = true := by
  simp [busy]

omit [DecidableEq ι] in
theorem quiescent_iff [Fintype ι] {config : Config O ι} : config.Quiescent ↔ config.busy = ∅ := by
  simp only [Finset.eq_empty_iff_forall_notMem, mem_busy, Bool.not_eq_true,
    Thread.isBusy_eq_false_iff]
  exact Iff.rfl

end Config

/-- Where `J` holds, `t` goes on without being held up, and `J` stays. -/
structure Unhindered (t : ι) (J : Config O ι → Prop) : Prop where
  reply : ∀ config call result, J config → config.thread t = .busy call (O.reply result) →
    J (config.finish t call result)
  goto : ∀ config call label, J config → config.thread t ≠ .busy call (O.goto label)
  panic : ∀ config call message, J config → config.thread t ≠ .busy call (.panic message)
  op : ∀ config call instr next, J config → config.At t call instr next →
    ∃ state answer, O.exec instr config.state = (state, some answer) ∧
      J (config.goOn t call state (next answer))

variable {t : ι}

theorem tick_reply {config : Config O ι} {call : O.Call} {result : O.Reply}
    (hthread : config.thread t = .busy call (O.reply result)) :
    (O.threads ι).step config (.tick t) = some (config.finish t call result) := by
  simp only [Object.threads, Config.step, hthread]

theorem tick_op {config : Config O ι} {call : O.Call} {instr : O.sig.Instr}
    {next : O.sig.Answer instr → O.Code} (hat : config.At t call instr next) {state : O.State}
    {answer : O.sig.Answer instr} (hexec : O.exec instr config.state = (state, some answer)) :
    (O.threads ι).step config (.tick t) = some (config.goOn t call state (next answer)) := by
  have hthread : config.thread t = .busy call (.op instr next) := hat
  simp only [Object.threads, Config.step, hthread, Object.stepCode, hexec, Option.map_some]

theorem reach_tick {config after : Config O ι}
    (hstep : (O.threads ι).step config (.tick t) = some after) :
    (O.threads ι).Reach Continues config after :=
  .step .start (show Continues config (.tick t) from trivial) hstep

/-- **An unhindered thread returns**, by induction on the code it has left. -/
theorem Unhindered.returns {J : Config O ι → Prop} (hunhindered : Unhindered t J)
    {config : Config O ι} (hconfig : J config) :
    ∃ after, (O.threads ι).Reach Continues config after ∧ J after ∧ after.thread t = .idle ∧
      ∀ u, u ≠ t → after.thread u = config.thread u := by
  cases hthread : config.thread t with
  | idle => exact ⟨config, .start, hconfig, hthread, fun _ _ => rfl⟩
  | busy call code =>
      induction code generalizing config with
      | ret outcome =>
          cases outcome with
          | inl label => exact absurd hthread (hunhindered.goto config call label hconfig)
          | inr result =>
              refine ⟨config.finish t call result, ?_, ?_, Function.update_self .., ?_⟩
              · exact reach_tick (tick_reply hthread)
              · exact hunhindered.reply config call result hconfig hthread
              · exact fun u hut => Function.update_of_ne hut ..
      | panic message => exact absurd hthread (hunhindered.panic config call message hconfig)
      | op instr next ih =>
          obtain ⟨state, answer, hexec, hnext⟩ := hunhindered.op config call instr next hconfig hthread
          obtain ⟨after, hreach, hafter, hidle, hothers⟩ :=
            ih answer hnext (Function.update_self ..)
          refine ⟨after, ?_, hafter, hidle, fun u hut => ?_⟩
          · exact (reach_tick (tick_op hthread hexec)).trans hreach
          · exact (hothers u hut).trans (Function.update_of_ne hut ..)

/-- **Everybody returns**, one thread after the other. -/
theorem reaches_quiescence [Fintype ι] {I : Config O ι → Prop} {J : ι → Config O ι → Prop}
    (hunhindered : ∀ t, Unhindered t (J t))
    (hnext : ∀ config, I config → ∀ t, (config.thread t).isBusy = true →
      ∃ u, (config.thread u).isBusy = true ∧ J u config)
    (hdone : ∀ t config, J t config → config.thread t = .idle → I config) {config : Config O ι}
    (hconfig : I config) :
    ∃ after, (O.threads ι).Reach Continues config after ∧ I after ∧ after.Quiescent := by
  refine System.reach_goal (fun config => config.busy.card) ?_ hconfig
  intro config hconfig
  by_cases hquiescent : config.Quiescent
  · exact .inl hquiescent
  · rw [Config.quiescent_iff, ← Ne, ← Finset.nonempty_iff_ne_empty] at hquiescent
    obtain ⟨t, ht⟩ := hquiescent
    obtain ⟨u, hu, hJ⟩ := hnext config hconfig t (Config.mem_busy.mp ht)
    obtain ⟨after, hreach, hafter, hidle, hothers⟩ := (hunhindered u).returns hJ
    refine .inr ⟨after, hreach, hdone u after hafter hidle, Finset.card_lt_card ?_⟩
    refine (Finset.ssubset_iff_of_subset ?_).mpr ⟨u, Config.mem_busy.mpr hu, ?_⟩
    · intro v hv
      rw [Config.mem_busy] at hv ⊢
      by_cases hvu : v = u
      · rwa [hvu]
      · rwa [hothers v hvu] at hv
    · rw [Config.mem_busy, hidle]
      exact Bool.false_ne_true

end Concurrency
