import Mutual.Concurrency.Composite

/-!
# States the code cannot tell apart

A part of the state that the code changes but never reads is of no account: from a state that differs
there only, the code does the same and gives the same replies.
-/

namespace Concurrency

namespace Object

variable {O : Object}

/-- The code issues only instructions that meet `allowed`, and goes on at labels in `known` only. -/
def Limited (O : Object) (allowed : O.sig.Instr → Prop) (known : O.Label → Prop) : O.Code → Prop
  | .ret (.inl label) => known label
  | .ret (.inr _) | .panic _ => True
  | .op instr next => allowed instr ∧ ∀ answer, O.Limited allowed known (next answer)

/-- The instructions do the same to a state and to what `alter` makes of it. -/
def Unseen (O : Object) (alter : O.State → O.State) (allowed : O.sig.Instr → Prop) : Prop :=
  ∀ instr state, allowed instr →
    O.exec instr (alter state) = (alter (O.exec instr state).1, (O.exec instr state).2)

variable {alter : O.State → O.State} {allowed : O.sig.Instr → Prop} {known : O.Label → Prop}

section Rules

variable {instr : O.sig.Instr} {next : O.sig.Answer instr → O.Code}

@[simp] theorem limited_op : O.Limited allowed known (no_index (.op instr next)) ↔
    allowed instr ∧ ∀ answer, O.Limited allowed known (next answer) := Iff.rfl

@[simp] theorem limited_goto {label : O.Label} :
    O.Limited allowed known (no_index (.ret (.inl label))) ↔ known label := Iff.rfl

@[simp] theorem limited_reply {result : O.Reply} :
    O.Limited allowed known (no_index (.ret (.inr result))) ↔ True := Iff.rfl

@[simp] theorem limited_panic {message : String} :
    O.Limited allowed known (no_index (.panic message)) ↔ True := Iff.rfl

@[simp] theorem limited_ite {cond : Prop} [Decidable cond] {yes no : O.Code} :
    O.Limited allowed known (no_index (if cond then yes else no)) ↔
      (cond → O.Limited allowed known yes) ∧ (¬ cond → O.Limited allowed known no) := by
  by_cases hcond : cond <;> simp [hcond]

end Rules

/-- **One step** from an altered state. -/
theorem Unseen.step (hunseen : O.Unseen alter allowed)
    (hbody : ∀ label, known label → O.Limited allowed known (O.body label)) {state after : O.State}
    {code next : O.Code} (hcode : O.Limited allowed known code)
    (hstep : O.stepCode state code = some (after, next)) :
    O.stepCode (alter state) code = some (alter after, next) ∧ O.Limited allowed known next := by
  match code, hcode with
  | .ret (.inl label), hlabel =>
      cases hstep
      exact ⟨rfl, hbody label hlabel⟩
  | .op instr rest, ⟨hinstr, hrest⟩ =>
      have haltered := hunseen instr state hinstr
      cases hexec : O.exec instr state with
      | mk left answer =>
          rw [hexec] at haltered
          cases answer with
          | none =>
              simp only [stepCode, hexec, Option.some.injEq, Prod.mk.injEq] at hstep
              obtain ⟨rfl, rfl⟩ := hstep
              simp only [stepCode, haltered]
              exact ⟨trivial, hinstr, hrest⟩
          | some answer =>
              simp only [stepCode, hexec, Option.some.injEq, Prod.mk.injEq] at hstep
              obtain ⟨rfl, rfl⟩ := hstep
              simp only [stepCode, haltered]
              exact ⟨trivial, hrest answer⟩

theorem Completes.altered (hunseen : O.Unseen alter allowed)
    (hbody : ∀ label, known label → O.Limited allowed known (O.body label)) {state final : O.State}
    {code : O.Code} {result : O.Reply} (hcode : O.Limited allowed known code)
    (hrun : O.Completes state code final result) :
    O.Completes (alter state) code (alter final) result := by
  unfold Completes Alone at hrun
  generalize hbefore : (state, code) = before at hrun
  induction hrun using Relation.ReflTransGen.head_induction_on generalizing state code with
  | refl =>
      cases hbefore
      exact .refl
  | @head before middle hstep _ ih =>
      subst hbefore
      obtain ⟨after, next⟩ := middle
      obtain ⟨haltered, hnext⟩ := hunseen.step hbody hcode hstep
      exact (ih hnext rfl).head haltered

/-- **Altered states.** The calls give the same replies from an altered state, and what they lead to is
altered likewise. -/
theorem Executes.altered (hunseen : O.Unseen alter allowed)
    (henter : ∀ call, O.Limited allowed known (O.enter call))
    (hbody : ∀ label, known label → O.Limited allowed known (O.body label)) {state final : O.State}
    {calls : List O.Call} {results : List O.Reply} (hrun : O.Executes state calls results final) :
    O.Executes (alter state) calls results (alter final) := by
  induction hrun with
  | nil => exact .nil
  | cons hcall _ ih => exact .cons (hcall.altered hunseen hbody (henter _)) ih

end Object

namespace Composite

variable {Part : Object} {ι : Type} [DecidableEq ι] {C : Composite Part ι}
  {allowed : Part.sig.Instr → Prop}

/-- What no part can tell apart the object made of them cannot. -/
theorem unseen {alter : ι → Part.State → Part.State}
    (hunseen : ∀ part, Part.Unseen (alter part) allowed) :
    C.object.Unseen (fun state part => alter part (state part)) fun instr => allowed instr.2 := by
  rintro ⟨part, instr⟩ state hinstr
  have hpart := hunseen part instr (state part) hinstr
  refine Prod.ext (funext fun other => ?_) ?_
  · change Function.update (fun part => alter part (state part)) part
        (Part.exec instr (alter part (state part))).1 other =
      alter other (Function.update state part (Part.exec instr (state part)).1 other)
    rw [hpart]
    by_cases hother : other = part
    · subst hother
      rw [Function.update_self, Function.update_self]
    · rw [Function.update_of_ne hother, Function.update_of_ne hother]
  · change (Part.exec instr (alter part (state part))).2 = (Part.exec instr (state part)).2
    rw [hpart]

theorem limited_within {known : Part.Label → Prop} {knownC : C.object.Label → Prop} {part : ι}
    {cont : C.Cont} {code : Part.Code} (hcode : Part.Limited allowed known code)
    (hknown : ∀ label, known label → knownC (.within part label cont))
    (hresume : ∀ reply,
      C.object.Limited (fun instr => allowed instr.2) knownC (C.resume part cont reply)) :
    C.object.Limited (fun instr => allowed instr.2) knownC (C.within part cont code) := by
  induction code with
  | ret outcome =>
      cases outcome with
      | inl label => exact hknown label hcode
      | inr result => exact hresume result
  | panic message => trivial
  | op instr next ih => exact ⟨hcode.1, fun answer => ih answer (hcode.2 answer)⟩

end Composite

end Concurrency
