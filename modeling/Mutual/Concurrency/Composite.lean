import Mathlib.Logic.Function.Basic
import Mutual.Concurrency.Program

/-!
# Objects made of parts

A family of objects of one kind, and methods that call the methods of these parts one after the
other. What a method does with the reply of a part is a continuation, which stays with the label of
the part's code.
-/

namespace Concurrency

inductive PartLabel (Part : Object) (ι Cont : Type) where
  | call (part : ι) (call : Part.Call) (cont : Cont)
  | within (part : ι) (label : Part.Label) (cont : Cont)

abbrev partSig (Part : Object) (ι : Type) : Signature :=
  ⟨ι × Part.sig.Instr, fun instr => Part.sig.Answer instr.2⟩

/-- `resume` is what follows the reply of a part. -/
structure Composite (Part : Object) (ι : Type) where
  Call : Type
  Cont : Type
  Reply : Type
  enter : Call → Prog (partSig Part ι) (PartLabel Part ι Cont ⊕ Reply)
  resume : ι → Cont → Part.Reply → Prog (partSig Part ι) (PartLabel Part ι Cont ⊕ Reply)

namespace Composite

variable {Part : Object} {ι : Type}

def within (C : Composite Part ι) (part : ι) (cont : C.Cont) :
    Part.Code → Prog (partSig Part ι) (PartLabel Part ι C.Cont ⊕ C.Reply)
  | .ret (.inl label) => .ret (.inl (.within part label cont))
  | .ret (.inr reply) => C.resume part cont reply
  | .panic message => .panic message
  | .op instr next => .op (part, instr) fun answer => C.within part cont (next answer)

variable [DecidableEq ι]

def exec (instr : ι × Part.sig.Instr) (state : ι → Part.State) :
    (ι → Part.State) × Option (Part.sig.Answer instr.2) :=
  let (after, answer) := Part.exec instr.2 (state instr.1)
  (Function.update state instr.1 after, answer)

@[reducible]
def object (C : Composite Part ι) : Object where
  sig := partSig Part ι
  State := ι → Part.State
  Call := C.Call
  Label := PartLabel Part ι C.Cont
  Reply := C.Reply
  exec := exec
  enter := C.enter
  body
    | .call part call cont => C.within part cont (Part.enter call)
    | .within part label cont => C.within part cont (Part.body label)

variable {C : Composite Part ι} {state final : ι → Part.State} {part : ι} {cont : C.Cont}
  {result : C.Reply}

/-- An instruction concerns one part. -/
theorem exec_part {instr : Part.sig.Instr} {after : ι → Part.State}
    {answer : Option (Part.sig.Answer instr)} (hexec : exec (part, instr) state = (after, answer)) :
    Part.exec instr (state part) = (after part, answer) ∧
      ∀ other, other ≠ part → after other = state other := by
  cases hexec
  constructor
  · change _ = (Function.update state part _ part, _)
    rw [Function.update_self]
  · intro other hother
    exact Function.update_of_ne hother ..

theorem completes_call {call : Part.Call} :
    C.object.Completes state (.ret (.inl (.call part call cont))) final result ↔
      C.object.Completes state (C.within part cont (Part.enter call)) final result :=
  Object.completes_goto

/-- A step of a part is a step of the method that has called it. -/
theorem step_within {code code' : Part.Code} {after : Part.State}
    (hstep : Part.stepCode (state part) code = some (after, code')) :
    C.object.stepCode state (C.within part cont code) =
      some (Function.update state part after, C.within part cont code') := by
  match code with
  | .ret (.inl label) =>
      cases hstep
      rw [Function.update_eq_self]
      rfl
  | .op instr next =>
      cases hexec : Part.exec instr (state part) with
      | mk left answer =>
          cases answer with
          | none =>
              simp only [Object.stepCode, hexec, Option.some.injEq, Prod.mk.injEq] at hstep
              obtain ⟨rfl, rfl⟩ := hstep
              simp [Object.stepCode, within, exec, hexec]
          | some answer =>
              simp only [Object.stepCode, hexec, Option.some.injEq, Prod.mk.injEq] at hstep
              obtain ⟨rfl, rfl⟩ := hstep
              simp [Object.stepCode, within, exec, hexec]

/-- **A part's call.** What a part does on its own it does inside a method, and the other parts are
left alone. -/
theorem alone_of_completes {code : Part.Code} {after : Part.State} {reply : Part.Reply}
    (hrun : Part.Completes (state part) code after reply) :
    C.object.Alone (state, C.within part cont code)
      (Function.update state part after, C.resume part cont reply) := by
  unfold Object.Completes Object.Alone at hrun
  generalize hbefore : (state part, code) = before at hrun
  induction hrun using Relation.ReflTransGen.head_induction_on generalizing state code with
  | refl =>
      cases hbefore
      rw [Function.update_eq_self]
      exact .refl
  | @head before middle hstep _ ih =>
      subst hbefore
      obtain ⟨next, code'⟩ := middle
      have hupdate : Function.update (Function.update state part next) part after =
          Function.update state part after := Function.update_idem ..
      rw [← hupdate]
      exact (ih (by rw [Function.update_self])).head (step_within hstep)

theorem completes_within {code : Part.Code} {after : Part.State} {reply : Part.Reply}
    (hrun : Part.Completes (state part) code after reply) :
    C.object.Completes state (C.within part cont code) final result ↔
      C.object.Completes (Function.update state part after) (C.resume part cont reply) final
        result :=
  Object.alone_iff (alone_of_completes hrun) rfl

/-- Where nothing is told of the code of a part, its call leaves no trace. -/
theorem traces_call {E : Type} {tells : C.object.Code → E → Prop} {call : Part.Call}
    {after : Part.State} {reply : Part.Reply} {log : List E}
    {target : C.object.State × C.object.Code}
    (hcall : ∀ event, ¬ tells (.ret (.inl (.call part call cont))) event)
    (hinside : ∀ inside, (∀ reply, inside ≠ Part.reply reply) →
      ∀ event, ¬ tells (C.within part cont inside) event)
    (hrun : Part.Completes (state part) (Part.enter call) after reply)
    (hrest : C.object.Traces tells (Function.update state part after, C.resume part cont reply) log
      target) :
    C.object.Traces tells (state, .ret (.inl (.call part call cont))) log target := by
  refine .silent hcall rfl ?_
  change C.object.Traces tells (state, C.within part cont (Part.enter call)) log target
  unfold Object.Completes Object.Alone at hrun
  generalize Part.enter call = code at hrun
  generalize hbefore : (state part, code) = before at hrun
  induction hrun using Relation.ReflTransGen.head_induction_on generalizing state code with
  | refl =>
      cases hbefore
      rw [Function.update_eq_self] at hrest
      exact hrest
  | @head before middle hstep _ ih =>
      subst hbefore
      obtain ⟨next, code'⟩ := middle
      have hnot : ∀ reply, code ≠ Part.reply reply := by
        rintro reply rfl
        cases hstep
      refine .silent (hinside code hnot) (step_within hstep) (ih ?_ code' ?_)
      · rw [Function.update_idem]
        exact hrest
      · rw [Function.update_self]

/-- What is reached from a part's call is reached inside it or after it. -/
theorem alone_within {code : Part.Code} {after : Part.State} {reply : Part.Reply}
    {target : C.object.State × C.object.Code} (hrun : Part.Completes (state part) code after reply)
    (htarget : C.object.Alone (state, C.within part cont code) target) :
    (∃ inside, target.2 = C.within part cont inside ∧ ∀ reply, inside ≠ Part.reply reply) ∨
      C.object.Alone (Function.update state part after, C.resume part cont reply) target := by
  unfold Object.Completes Object.Alone at hrun
  generalize hbefore : (state part, code) = before at hrun
  induction hrun using Relation.ReflTransGen.head_induction_on generalizing state code with
  | refl =>
      cases hbefore
      rw [Function.update_eq_self]
      exact .inr htarget
  | @head before middle hstep _ ih =>
      subst hbefore
      obtain ⟨next, code'⟩ := middle
      rcases htarget.cases_head with rfl | ⟨_, hfirst, hrest⟩
      · refine .inl ⟨code, rfl, ?_⟩
        rintro reply rfl
        cases hstep
      · have hwithin : C.object.stepCode state (C.within part cont code) =
            some (Function.update state part next, C.within part cont code') := step_within hstep
        rw [hwithin, Option.some.injEq] at hfirst
        have hupdate : Function.update (Function.update state part next) part after =
            Function.update state part after := Function.update_idem ..
        rw [← hupdate]
        rw [← hfirst] at hrest
        exact ih hrest (by rw [Function.update_self])

end Composite

end Concurrency
