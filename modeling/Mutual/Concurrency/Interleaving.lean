import Mathlib.Logic.Function.Basic
import Mutual.Concurrency.Program
import Mutual.Concurrency.Transition

/-!
# Interleavings

Threads share one object. Each of them makes any calls it likes, one after the other, and the atomic
steps of the calls interleave in any order. The history records the calls and the returns in the
order in which they happen.

`Config.step_cases` says once what a step can be; the proofs about runs start from it.
-/

namespace Concurrency

/-- What is seen from outside: the calls and the returns. -/
inductive Event (ι C R : Type) where
  | invoke (thread : ι) (call : C)
  | respond (thread : ι) (call : C) (result : R)

/-- A thread is between calls, or has some code of a call left to execute. -/
inductive Thread (O : Object) where
  | idle
  | busy (call : O.Call) (code : O.Code)

structure Config (O : Object) (ι : Type) where
  state : O.State
  thread : ι → Thread O
  history : List (Event ι O.Call O.Reply)

/-- A thread begins a call, or the thread takes its next step. -/
inductive Action (O : Object) (ι : Type) where
  | invoke (thread : ι) (call : O.Call)
  | tick (thread : ι)

variable {O : Object} {ι : Type} [DecidableEq ι]

namespace Config

def Quiescent (config : Config O ι) : Prop := ∀ t, config.thread t = .idle

def initial (state : O.State) : Config O ι :=
  { state := state, thread := fun _ => .idle, history := [] }

/-- `t` goes on with `code` in state `state`. -/
def goOn (config : Config O ι) (t : ι) (call : O.Call) (state : O.State) (code : O.Code) :
    Config O ι :=
  { config with state := state, thread := Function.update config.thread t (.busy call code) }

def begin (config : Config O ι) (t : ι) (call : O.Call) : Config O ι :=
  { config with
    thread := Function.update config.thread t (.busy call (O.enter call))
    history := config.history ++ [.invoke t call] }

def finish (config : Config O ι) (t : ι) (call : O.Call) (result : O.Reply) : Config O ι :=
  { config with
    thread := Function.update config.thread t .idle
    history := config.history ++ [.respond t call result] }

def step (config : Config O ι) : Action O ι → Option (Config O ι)
  | .invoke t call =>
      match config.thread t with
      | .idle => some (config.begin t call)
      | .busy _ _ => none
  | .tick t =>
      match config.thread t with
      | .idle => none
      | .busy call (.ret (.inr result)) => some (config.finish t call result)
      | .busy call code =>
          (O.stepCode config.state code).map fun after => config.goOn t call after.1 after.2

end Config

def Object.threads (O : Object) (ι : Type) [DecidableEq ι] : System (Config O ι) (Action O ι) :=
  ⟨Config.step⟩

/-- The condition that only calls of a certain kind are begun. -/
def OnlyCalls (allowed : O.Call → Prop) : Config O ι → Action O ι → Prop
  | _, .invoke _ call => allowed call
  | _, .tick _ => True

instance (allowed : O.Call → Prop) [DecidablePred allowed] (config : Config O ι) :
    ∀ action, Decidable (OnlyCalls allowed config action)
  | .invoke _ call => inferInstanceAs (Decidable (allowed call))
  | .tick _ => .isTrue trivial

namespace Config

def instr? (config : Config O ι) (t : ι) : Option O.sig.Instr :=
  match config.thread t with
  | .busy _ (.op instr _) => some instr
  | _ => none

def label? (config : Config O ι) (t : ι) : Option O.Label :=
  match config.thread t with
  | .busy _ (.ret (.inl label)) => some label
  | _ => none

/-- `t` is about to execute `instr`, with `next` the rest of its call. -/
def At (config : Config O ι) (t : ι) (call : O.Call) (instr : O.sig.Instr)
    (next : O.sig.Answer instr → O.Code) : Prop :=
  config.thread t = .busy call (.op instr next)

omit [DecidableEq ι] in
theorem At.instr?_eq {config : Config O ι} {t : ι} {call : O.Call} {instr : O.sig.Instr}
    {next : O.sig.Answer instr → O.Code} (hat : config.At t call instr next) :
    config.instr? t = some instr := by
  rw [instr?, show config.thread t = _ from hat]

omit [DecidableEq ι] in
theorem at_of_instr? {config : Config O ι} {t : ι} {instr : O.sig.Instr}
    (hinstr : config.instr? t = some instr) : ∃ call next, config.At t call instr next := by
  rw [instr?] at hinstr
  split at hinstr
  · rename_i call instr' next hthread
    cases hinstr
    exact ⟨call, next, hthread⟩
  · cases hinstr

omit [DecidableEq ι] in
theorem label?_eq {config : Config O ι} {t : ι} {call : O.Call} {label : O.Label}
    (hthread : config.thread t = .busy call (O.goto label)) : config.label? t = some label := by
  rw [label?, hthread]

end Config

theorem Config.state_of_step {config after : Config O ι} {t : ι} {call : O.Call}
    {instr : O.sig.Instr} {next : O.sig.Answer instr → O.Code} (hat : config.At t call instr next)
    (hstep : config.step (.tick t) = some after) :
    after.state = (O.exec instr config.state).1 := by
  have hthread : config.thread t = .busy call (.op instr next) := hat
  simp only [step, hthread, Object.stepCode, Option.map_eq_some_iff] at hstep
  obtain ⟨⟨state, code⟩, hcode, rfl⟩ := hstep
  split at hcode
  · rename_i hexec
    cases hcode
    exact (congrArg Prod.fst hexec).symm
  · rename_i hexec
    cases hcode
    exact (congrArg Prod.fst hexec).symm

/-! ### Logs

A monitor that keeps a log for each thread, of the instructions the thread executes and the states
it executes them in. -/

section Logs

variable {L : Type} (look : O.State → O.Call → O.sig.Instr → L → L)

def logging (config : Config O ι) : Action O ι → (ι → L) → ι → L
  | .invoke _ _, log => log
  | .tick t, log =>
      match config.thread t with
      | .busy call (.op instr _) =>
          Function.update log t (look config.state call instr (log t))
      | _ => log

variable {config : Config O ι} {t : ι} {call : O.Call} {log : ι → L}

theorem logging_at {instr : O.sig.Instr} {next : O.sig.Answer instr → O.Code}
    (hat : config.At t call instr next) :
    logging look config (.tick t) log =
      Function.update log t (look config.state call instr (log t)) := by
  rw [logging, show config.thread t = _ from hat]

theorem logging_ret {outcome : O.Label ⊕ O.Reply}
    (hthread : config.thread t = .busy call (.ret outcome)) :
    logging look config (.tick t) log = log := by
  rw [logging, hthread]

end Logs

/-- **What a step can be**: a call, a return, a jump to a label, an instruction that is answered, or
an instruction that is retried. -/
theorem Config.step_cases {config after : Config O ι} {action : Action O ι}
    (hstep : config.step action = some after) :
    (∃ t call, action = .invoke t call ∧ config.thread t = .idle ∧ after = config.begin t call) ∨
    (∃ t call result, action = .tick t ∧ config.thread t = .busy call (O.reply result) ∧
      after = config.finish t call result) ∨
    (∃ t call label, action = .tick t ∧ config.thread t = .busy call (O.goto label) ∧
      after = config.goOn t call config.state (O.body label)) ∨
    (∃ t call instr next state answer, action = .tick t ∧ config.At t call instr next ∧
      O.exec instr config.state = (state, some answer) ∧
      after = config.goOn t call state (next answer)) ∨
    (∃ t call instr next state, action = .tick t ∧ config.At t call instr next ∧
      O.exec instr config.state = (state, none) ∧
      after = config.goOn t call state (.op instr next)) := by
  cases action with
  | invoke t call =>
      simp only [step] at hstep
      split at hstep
      · rename_i hidle
        exact .inl ⟨t, call, rfl, hidle, (Option.some.inj hstep).symm⟩
      · cases hstep
  | tick t =>
      refine .inr ?_
      simp only [step] at hstep
      split at hstep
      · cases hstep
      · rename_i call result hthread
        exact .inl ⟨t, call, result, rfl, hthread, (Option.some.inj hstep).symm⟩
      · rename_i call code hnot hthread
        refine .inr ?_
        obtain ⟨⟨state, rest⟩, hcode, rfl⟩ := Option.map_eq_some_iff.mp hstep
        cases code with
        | ret result =>
            cases result with
            | inl label =>
                cases hcode
                exact .inl ⟨t, call, label, rfl, hthread, rfl⟩
            | inr result => exact absurd rfl (hnot result)
        | panic message => cases hcode
        | op instr next =>
            refine .inr ?_
            simp only [Object.stepCode] at hcode
            split at hcode
            · rename_i after answer hexec
              cases hcode
              exact .inl ⟨t, call, instr, next, _, answer, rfl, hthread, hexec, rfl⟩
            · rename_i after hexec
              cases hcode
              exact .inr ⟨t, call, instr, next, _, rfl, hthread, hexec, rfl⟩

/-- **What holds throughout the code holds of every thread**, wherever in its call it is. -/
theorem Config.throughout {P : O.Call → O.Code → Prop}
    (henter : ∀ call, (O.enter call).Throughout (P call))
    (hbody : ∀ call label, (O.body label).Throughout (P call))
    {cond : Config O ι → Action O ι → Prop} {state : O.State} {config : Config O ι}
    (hreach : (O.threads ι).Reach cond (.initial state) config) {t : ι} {call : O.Call}
    {code : O.Code} (hthread : config.thread t = .busy call code) : code.Throughout (P call) := by
  let I : Config O ι → Prop := fun config => ∀ t call code,
    config.thread t = .busy call code → code.Throughout (P call)
  have hinit : I (.initial state) := by
    rintro t call code ⟨⟩
  have hupdate : ∀ (config : Config O ι) t after, I config →
      (∀ call code, after = .busy call code → code.Throughout (P call)) → ∀ u call code,
      Function.update config.thread t after u = .busy call code → code.Throughout (P call) := by
    intro config t after hbefore hafter
    exact (Function.forall_update_iff config.thread fun _ thread => ∀ call code,
      thread = .busy call code → code.Throughout (P call)).mpr ⟨hafter, fun u _ => hbefore u⟩
  refine hreach.invariant (I := I) hinit ?_ t call code hthread
  intro config action after hbefore _ hstep
  rcases step_cases hstep with ⟨t, call, rfl, hidle, rfl⟩ | ⟨t, call, result, rfl, hthread, rfl⟩ |
    ⟨t, call, label, rfl, hthread, rfl⟩ |
    ⟨t, call, instr, next, state, answer, rfl, hat, hexec, rfl⟩ |
    ⟨t, call, instr, next, state, rfl, hat, hexec, rfl⟩
  · refine hupdate config t _ hbefore ?_
    rintro _ _ ⟨⟩
    exact henter call
  · refine hupdate config t _ hbefore ?_
    rintro _ _ ⟨⟩
  · refine hupdate config t _ hbefore ?_
    rintro _ _ ⟨⟩
    exact hbody call label
  · refine hupdate config t _ hbefore ?_
    rintro _ _ ⟨⟩
    exact (hbefore t call _ hat).2 answer
  · refine hupdate config t _ hbefore ?_
    rintro _ _ ⟨⟩
    exact hbefore t call _ hat

/-- **What a step does beside a log.** Only an access changes anything, so a property of the state and
the log is kept by a step of `t` under the same condition as by the access `t` is at. -/
theorem logging_tick_iff {L : Type} {look : O.State → O.Call → O.sig.Instr → L → L}
    {I : O.State → (ι → L) → Prop} {cond : Prop} {config after : Config O ι} {log log' : ι → L}
    {t : ι} (hbefore : I config.state log) (hnone : config.instr? t = none → cond)
    (haccess : ∀ call instr next, config.At t call instr next →
      (I (O.exec instr config.state).1
        (Function.update log t (look config.state call instr (log t))) ↔ cond))
    (hstep : ((O.threads ι).monitored (logging look)).step (config, log) (.tick t) =
      some (after, log')) : I after.state log' ↔ cond := by
  obtain ⟨hafter, hlog⟩ := System.monitored_step.mp hstep
  change config.step (.tick t) = some after at hafter
  change log' = logging look config (.tick t) log at hlog
  cases hinstr : config.instr? t with
  | some instr =>
      obtain ⟨call, next, hat⟩ := Config.at_of_instr? hinstr
      rw [Config.state_of_step hat hafter, hlog, logging_at look hat]
      exact haccess call instr next hat
  | none =>
      refine iff_of_true ?_ (hnone hinstr)
      rcases Config.step_cases hafter with ⟨_, _, hinvoke, -⟩ | ⟨u, _, _, htick, hthread, rfl⟩ |
        ⟨u, _, _, htick, hthread, rfl⟩ | ⟨u, _, _, _, _, _, htick, hat, -⟩ |
        ⟨u, _, _, _, _, htick, hat, -⟩
      · cases hinvoke
      · cases htick
        rw [hlog, logging_ret look hthread]
        exact hbefore
      · cases htick
        rw [hlog, logging_ret look hthread]
        exact hbefore
      · cases htick
        rw [hat.instr?_eq] at hinstr
        cases hinstr
      · cases htick
        rw [hat.instr?_eq] at hinstr
        cases hinstr

end Concurrency
