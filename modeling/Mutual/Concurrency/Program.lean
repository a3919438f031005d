import Mathlib.Logic.Relation

/-!
# Programs over atomic instructions

The code of a method is a tree of atomic instructions: each instruction is answered by the shared
state and the answer selects the rest of the code. An instruction that is not answered is retried,
which is how an iteration of a spin loop that does not leave the loop is modelled. A tree is finite;
the loops of the code are closed through labels, a method ending either with its reply or with the
label it goes on at.

`Object` puts the methods of a shared object together, and `Object.Completes` is their execution by
one thread on its own.
-/

namespace Concurrency

/-- The atomic instructions a program may issue, each with the type of its answer. -/
structure Signature where
  Instr : Type
  Answer : Instr → Type

/-- A finite tree of instructions that ends with a result or with a panic. -/
inductive Prog (σ : Signature) (R : Type) where
  | ret (result : R)
  | panic (message : String)
  | op (instr : σ.Instr) (next : σ.Answer instr → Prog σ R)

namespace Prog

variable {σ τ : Signature} {R S : Type}

def bind : Prog σ R → (R → Prog σ S) → Prog σ S
  | ret result, rest => rest result
  | panic message, _ => panic message
  | op instr next, rest => op instr fun answer => (next answer).bind rest

instance : Monad (Prog σ) where
  pure := ret
  bind := bind

def perform (instr : σ.Instr) : Prog σ (σ.Answer instr) := op instr ret

/-- `P` holds of the program and of what is left of it after any answers. -/
def Throughout (P : Prog σ R → Prop) : Prog σ R → Prop
  | ret result => P (ret result)
  | panic message => P (panic message)
  | op instr next => P (op instr next) ∧ ∀ answer, (next answer).Throughout P

theorem Throughout.here {P : Prog σ R → Prop} {program : Prog σ R}
    (hprogram : program.Throughout P) : P program := by
  cases program with
  | ret result => exact hprogram
  | panic message => exact hprogram
  | op instr next => exact hprogram.1

theorem Throughout.of_forall {P : Prog σ R → Prop} (hall : ∀ program, P program)
    (program : Prog σ R) : program.Throughout P := by
  induction program with
  | ret result => exact hall _
  | panic message => exact hall _
  | op instr next ih => exact ⟨hall _, ih⟩

/-- The same program over a larger instruction set. -/
def lift (embed : σ.Instr → τ.Instr) (back : ∀ instr, τ.Answer (embed instr) → σ.Answer instr) :
    Prog σ R → Prog τ R
  | ret result => ret result
  | panic message => panic message
  | op instr next => op (embed instr) fun answer => (next (back instr answer)).lift embed back

@[simp] theorem pure_eq (result : R) : (pure result : Prog σ R) = ret result := rfl

@[simp] theorem bind_eq (program : Prog σ R) (rest : R → Prog σ S) :
    program >>= rest = program.bind rest := rfl

@[simp] theorem ret_bind (result : R) (rest : R → Prog σ S) :
    (ret result : Prog σ R).bind rest = rest result := rfl

@[simp] theorem panic_bind (message : String) (rest : R → Prog σ S) :
    (panic message : Prog σ R).bind rest = panic message := rfl

@[simp] theorem op_bind (instr : σ.Instr) (next : σ.Answer instr → Prog σ R)
    (rest : R → Prog σ S) :
    (op instr next).bind rest = op instr fun answer => (next answer).bind rest := rfl

@[simp] theorem perform_bind (instr : σ.Instr) (rest : σ.Answer instr → Prog σ S) :
    (perform instr).bind rest = op instr rest := rfl

end Prog

/-- A shared object: the instructions its code is made of and what they do to its state, the calls
that may be made on it and the labels at which the loops of its code are closed. `exec` answers
`none` where the instruction has to be retried. -/
structure Object where
  sig : Signature
  State : Type
  Call : Type
  Label : Type
  Reply : Type
  exec : (instr : sig.Instr) → State → State × Option (sig.Answer instr)
  enter : Call → Prog sig (Label ⊕ Reply)
  body : Label → Prog sig (Label ⊕ Reply)

namespace Object

variable {O : Object}

/-- The code a thread still has to execute in the call it is in. -/
abbrev Code (O : Object) : Type := Prog O.sig (O.Label ⊕ O.Reply)

abbrev goto (O : Object) (label : O.Label) : O.Code := .ret (.inl label)

abbrev reply (O : Object) (reply : O.Reply) : O.Code := .ret (.inr reply)

/-- One step of a thread inside a call; there is none once it has its reply or has panicked. -/
def stepCode (O : Object) : O.State → O.Code → Option (O.State × O.Code)
  | state, .ret (.inl label) => some (state, O.body label)
  | _, .ret (.inr _) => none
  | _, .panic _ => none
  | state, .op instr next =>
      match O.exec instr state with
      | (after, some answer) => some (after, next answer)
      | (after, none) => some (after, .op instr next)

/-- What a thread that runs on its own gets to. -/
def Alone (O : Object) : O.State × O.Code → O.State × O.Code → Prop :=
  Relation.ReflTransGen fun before after => O.stepCode before.1 before.2 = some after

/-- Run on its own from `state`, the code ends with `result` in state `final`. -/
def Completes (O : Object) (state : O.State) (code : O.Code) (final : O.State) (result : O.Reply) :
    Prop :=
  O.Alone (state, code) (final, O.reply result)

def Panics (O : Object) (state : O.State) (code : O.Code) (final : O.State) (message : String) :
    Prop :=
  O.Alone (state, code) (final, .panic message)

/-- Run on its own from `state`, the code comes to an end in state `final`. -/
def Ends (O : Object) (state : O.State) (code : O.Code) (final : O.State) : Prop :=
  ∃ last, O.stepCode final last = none ∧ O.Alone (state, code) (final, last)

/-- The execution of a list of calls one after the other by a single thread. -/
inductive Executes (O : Object) : O.State → List O.Call → List O.Reply → O.State → Prop
  | nil {state : O.State} : Executes O state [] [] state
  | cons {state next final : O.State} {call : O.Call} {calls : List O.Call} {result : O.Reply}
      {results : List O.Reply} : O.Completes state (O.enter call) next result →
      Executes O next calls results final →
      Executes O state (call :: calls) (result :: results) final

/-- A step that a thread on its own takes leads to everything the thread gets to and that is not
where it is. -/
theorem alone_step {before after final : O.State × O.Code}
    (hstep : O.stepCode before.1 before.2 = some after)
    (hfinal : O.stepCode final.1 final.2 = none) :
    O.Alone before final ↔ O.Alone after final := by
  constructor
  · intro halone
    rcases halone.cases_head with heq | ⟨middle, hmiddle, hrest⟩
    · rw [heq, hfinal] at hstep
      cases hstep
    · rw [hstep, Option.some.injEq] at hmiddle
      exact hmiddle ▸ hrest
  · exact fun hrest => hrest.head hstep

theorem alone_iff {before middle final : O.State × O.Code} (hrun : O.Alone before middle)
    (hfinal : O.stepCode final.1 final.2 = none) :
    O.Alone before final ↔ O.Alone middle final := by
  induction hrun using Relation.ReflTransGen.head_induction_on with
  | refl => exact Iff.rfl
  | head hstep _ ih => exact (alone_step hstep hfinal).trans ih

/-- There is one place at most at which a thread on its own ends. -/
theorem alone_unique {before left right : O.State × O.Code} (hleft : O.Alone before left)
    (hright : O.Alone before right) (hleftEnd : O.stepCode left.1 left.2 = none)
    (hrightEnd : O.stepCode right.1 right.2 = none) : left = right := by
  rcases ((alone_iff hleft hrightEnd).mp hright).cases_head with heq | ⟨_, hstep, _⟩
  · exact heq
  · rw [hleftEnd] at hstep
    cases hstep

theorem Alone.invariant {I : O.State → O.Code → Prop} {before after : O.State × O.Code}
    (hrun : O.Alone before after) (hstart : I before.1 before.2)
    (hstep : ∀ {state state' : O.State} {code code' : O.Code}, I state code →
      O.stepCode state code = some (state', code') → I state' code') : I after.1 after.2 := by
  induction hrun with
  | refl => exact hstart
  | tail _ hnext ih => exact hstep ih hnext

section Rules

variable {state final : O.State} {result : O.Reply}

@[simp]
theorem completes_reply {given : O.Reply} :
    O.Completes state (.ret (.inr given)) final result ↔ final = state ∧ result = given := by
  constructor
  · intro hrun
    rcases hrun.cases_head with heq | ⟨_, hstep, _⟩
    · cases heq
      exact ⟨rfl, rfl⟩
    · cases hstep
  · rintro ⟨rfl, rfl⟩
    exact .refl

theorem completes_goto {label : O.Label} :
    O.Completes state (.ret (.inl label)) final result ↔
      O.Completes state (O.body label) final result :=
  alone_step rfl rfl

theorem completes_op {instr : O.sig.Instr} {next : O.sig.Answer instr → O.Code} {after : O.State}
    {answer : O.sig.Answer instr} (hexec : O.exec instr state = (after, some answer)) :
    O.Completes state (.op instr next) final result ↔
      O.Completes after (next answer) final result :=
  alone_step (by simp only [stepCode, hexec]) rfl

/-- An iteration of a spin loop that stays in the loop. -/
theorem completes_retry {instr : O.sig.Instr} {next : O.sig.Answer instr → O.Code}
    {after : O.State} (hexec : O.exec instr state = (after, none)) :
    O.Completes state (.op instr next) final result ↔
      O.Completes after (.op instr next) final result :=
  alone_step (by simp only [stepCode, hexec]) rfl

theorem ends_reply {given : O.Reply} : O.Ends state (.ret (.inr given)) final ↔ final = state := by
  constructor
  · intro ⟨last, hlast, hrun⟩
    exact congrArg Prod.fst (alone_unique hrun .refl hlast rfl)
  · rintro rfl
    exact ⟨_, rfl, .refl⟩

theorem ends_panic {message : String} : O.Ends state (.panic message) final ↔ final = state := by
  constructor
  · intro ⟨last, hlast, hrun⟩
    exact congrArg Prod.fst (alone_unique hrun .refl hlast rfl)
  · rintro rfl
    exact ⟨_, rfl, .refl⟩

theorem ends_op {instr : O.sig.Instr} {next : O.sig.Answer instr → O.Code} {after : O.State}
    {answer : O.sig.Answer instr} (hexec : O.exec instr state = (after, some answer)) :
    O.Ends state (.op instr next) final ↔ O.Ends after (next answer) final := by
  have hstep : O.stepCode state (.op instr next) = some (after, next answer) := by
    simp only [stepCode, hexec]
  exact exists_congr fun last => and_congr_right fun hlast => alone_step hstep hlast

theorem ends_retry {instr : O.sig.Instr} {next : O.sig.Answer instr → O.Code} {after : O.State}
    (hexec : O.exec instr state = (after, none)) :
    O.Ends state (.op instr next) final ↔ O.Ends after (.op instr next) final := by
  have hstep : O.stepCode state (.op instr next) = some (after, .op instr next) := by
    simp only [stepCode, hexec]
  exact exists_congr fun last => and_congr_right fun hlast => alone_step hstep hlast

/-- An instruction that is retried without any effect is retried for ever. -/
theorem not_ends_of_retry {instr : O.sig.Instr} {next : O.sig.Answer instr → O.Code}
    (hexec : O.exec instr state = (state, none)) : ¬ O.Ends state (.op instr next) final := by
  intro ⟨last, hlast, hrun⟩
  have hloop : O.stepCode state (.op instr next) = some (state, .op instr next) := by
    simp only [stepCode, hexec]
  have hstay : final = state ∧ last = .op instr next := by
    refine hrun.invariant (I := fun state' code => state' = state ∧ code = .op instr next)
      ⟨rfl, rfl⟩ ?_
    rintro _ after _ code ⟨rfl, rfl⟩ hstep
    rw [hloop] at hstep
    cases hstep
    exact ⟨rfl, rfl⟩
  rw [hstay.1, hstay.2, hloop] at hlast
  cases hlast

end Rules

/-- Code that runs on its own has at most one outcome. -/
theorem Completes.deterministic {state left right : O.State} {code : O.Code}
    {resultL resultR : O.Reply} (hleft : O.Completes state code left resultL)
    (hright : O.Completes state code right resultR) : left = right ∧ resultL = resultR := by
  have hsame := alone_unique hleft hright rfl rfl
  cases hsame
  exact ⟨rfl, rfl⟩

theorem Ends.deterministic {state left right : O.State} {code : O.Code}
    (hleft : O.Ends state code left) (hright : O.Ends state code right) : left = right := by
  obtain ⟨lastL, hlastL, hleft⟩ := hleft
  obtain ⟨lastR, hlastR, hright⟩ := hright
  exact congrArg Prod.fst (alone_unique hleft hright hlastL hlastR)

theorem Executes.deterministic {state left right : O.State} {calls : List O.Call}
    {resultsL resultsR : List O.Reply} (hleft : O.Executes state calls resultsL left)
    (hright : O.Executes state calls resultsR right) : left = right ∧ resultsL = resultsR := by
  induction hleft generalizing resultsR with
  | nil =>
      cases hright
      exact ⟨rfl, rfl⟩
  | cons hcall _ ih =>
      cases hright with
      | cons hcall' hrest' =>
          obtain ⟨rfl, rfl⟩ := hcall.deterministic hcall'
          obtain ⟨rfl, rfl⟩ := ih hrest'
          exact ⟨rfl, rfl⟩

theorem Executes.invariant {I : O.State → Prop} {state final : O.State} {calls : List O.Call}
    {results : List O.Reply} (hrun : O.Executes state calls results final) (hstart : I state)
    (hstep : ∀ {before after : O.State} {call : O.Call} {result : O.Reply}, call ∈ calls →
      I before → O.Completes before (O.enter call) after result → I after) : I final := by
  induction hrun with
  | nil => exact hstart
  | cons hcall _ ih =>
      refine ih (hstep List.mem_cons_self hstart hcall) ?_
      intro before after call result hmem
      exact hstep (List.mem_cons_of_mem _ hmem)

/-! ### Traces -/

/-- What a thread on its own gets to, with what can be told of the code it comes through. -/
inductive Traces (O : Object) {E : Type} (tells : O.Code → E → Prop) :
    O.State × O.Code → List E → O.State × O.Code → Prop
  | refl {place : O.State × O.Code} : Traces O tells place [] place
  | silent {before middle after : O.State × O.Code} {log : List E} :
      (∀ event, ¬ tells before.2 event) → O.stepCode before.1 before.2 = some middle →
      Traces O tells middle log after → Traces O tells before log after
  | tell {before middle after : O.State × O.Code} {event : E} {log : List E} :
      tells before.2 event → O.stepCode before.1 before.2 = some middle →
      Traces O tells middle log after → Traces O tells before (event :: log) after

section Traces

variable {E : Type} {tells : O.Code → E → Prop} {state after : O.State} {log : List E} {event : E}
  {target : O.State × O.Code}

theorem Traces.alone {before target : O.State × O.Code} (htrace : O.Traces tells before log target) :
    O.Alone before target := by
  induction htrace with
  | refl => exact .refl
  | silent _ hstep _ ih => exact ih.head hstep
  | tell _ hstep _ ih => exact ih.head hstep

theorem Traces.completes {code : O.Code} {result : O.Reply}
    (htrace : O.Traces tells (state, code) log (after, O.reply result)) :
    O.Completes state code after result := htrace.alone

theorem Traces.op {instr : O.sig.Instr} {next : O.sig.Answer instr → O.Code}
    {answer : O.sig.Answer instr} (hsilent : ∀ event, ¬ tells (.op instr next) event)
    (hexec : O.exec instr state = (after, some answer))
    (hrest : O.Traces tells (after, next answer) log target) :
    O.Traces tells (state, .op instr next) log target :=
  .silent hsilent (by simp only [stepCode, hexec]) hrest

theorem Traces.tell_op {instr : O.sig.Instr} {next : O.sig.Answer instr → O.Code}
    {answer : O.sig.Answer instr} (htells : tells (.op instr next) event)
    (hexec : O.exec instr state = (after, some answer))
    (hrest : O.Traces tells (after, next answer) log target) :
    O.Traces tells (state, .op instr next) (event :: log) target :=
  .tell htells (by simp only [stepCode, hexec]) hrest

end Traces

end Object

end Concurrency
