import Mutual.Concurrency.Linearizability
import Mutual.Concurrency.Protocol

/-!
# Calls that take effect at one instruction

A call may be seen to take effect at one of its instructions, told by the instruction and its answer.
Then histories are linearizable as soon as the instructions fit: those before the point and those
after it leave what is seen as it was, and the one at the point takes the step of the specification.
Which instructions a call issues is a matter of its code, what they do a matter of `exec`.
-/

namespace Concurrency

/-- How an object is seen, and what its calls do to what is seen. `mark` gives the result of a call
that takes effect at an instruction answered so. -/
structure Pointing (O : Object) (A : Type) where
  view : O.State → A
  spec : A → O.Call → O.Reply → A → Prop
  mark : O.Call → (instr : O.sig.Instr) → O.sig.Answer instr → Option O.Reply
  allowed : O.Call → Prop
  /-- Where a thread that closes a loop stands. -/
  stands : O.Label → Phase O.Call O.Reply → Prop

namespace Pointing

variable {O : Object} {A : Type} (P : Pointing O A)

/-- The instruction leaves what is seen as it was. -/
def Quiet (instr : O.sig.Instr) : Prop := ∀ state, P.view (O.exec instr state).1 = P.view state

/-- The instruction may be issued in a call that has not taken effect. -/
structure Fits (call : O.Call) (instr : O.sig.Instr) : Prop where
  retried : ∀ state after, O.exec instr state = (after, none) → P.view after = P.view state
  silent : ∀ state after answer, O.exec instr state = (after, some answer) →
    P.mark call instr answer = none → P.view after = P.view state
  point : ∀ state after answer result, O.exec instr state = (after, some answer) →
    P.mark call instr answer = some result → P.spec (P.view state) call result (P.view after)

variable {P} {call : O.Call} {instr : O.sig.Instr}

theorem Quiet.after (hquiet : P.Quiet instr) {state after : O.State}
    {answer : Option (O.sig.Answer instr)} (hexec : O.exec instr state = (after, answer)) :
    P.view after = P.view state := by
  have hafter : (O.exec instr state).1 = after := congrArg Prod.fst hexec
  rw [← hafter]
  exact hquiet state

/-- An instruction that changes nothing may be a point at which a call only looks. -/
theorem Quiet.fits_look (hquiet : P.Quiet instr)
    (hspec : ∀ state after answer result, O.exec instr state = (after, some answer) →
      P.mark call instr answer = some result → P.spec (P.view state) call result (P.view state)) :
    P.Fits call instr where
  retried state after hexec := hquiet.after hexec
  silent state after answer hexec _ := hquiet.after hexec
  point state after answer result hexec hmark := by
    rw [hquiet.after hexec]
    exact hspec state after answer result hexec hmark

theorem Quiet.fits (hquiet : P.Quiet instr) (hmark : ∀ answer, P.mark call instr answer = none) :
    P.Fits call instr := by
  apply hquiet.fits_look
  intro state after answer result _ hresult
  rw [hmark] at hresult
  cases hresult

variable (P)

def May : Phase O.Call O.Reply → O.sig.Instr → Prop
  | .idle, _ => False
  | .called call, instr => P.Fits call instr
  | .effective _ _, instr => P.Quiet instr

def next : Phase O.Call O.Reply → (instr : O.sig.Instr) → O.sig.Answer instr →
    Phase O.Call O.Reply
  | .called call, instr, answer =>
      match P.mark call instr answer with
      | some result => .effective call result
      | none => .called call
  | phase, _, _ => phase

def protocol : Protocol O (Phase O.Call O.Reply) where
  rest := .idle
  start call phase := P.allowed call ∧ phase = .called call
  may _ := P.May
  move _ phase instr answer phase' := phase' = P.next phase instr answer
  fail _ _ := True
  arrive _ := P.stands
  leave _ := P.stands
  finish call result phase := phase = .effective call result

section Rules

variable {P} {phase phase' : Phase O.Call O.Reply} {result : O.Reply}

@[simp] theorem may_called : P.May (.called call) instr ↔ P.Fits call instr := Iff.rfl

@[simp] theorem may_effective : P.May (.effective call result) instr ↔ P.Quiet instr := Iff.rfl

@[simp] theorem next_effective {answer : O.sig.Answer instr} :
    P.next (.effective call result) instr answer = .effective call result := rfl

theorem next_point {answer : O.sig.Answer instr} (hmark : P.mark call instr answer = some result) :
    P.next (.called call) instr answer = .effective call result := by
  rw [next, hmark]

theorem next_silent {answer : O.sig.Answer instr} (hmark : P.mark call instr answer = none) :
    P.next (.called call) instr answer = .called call := by
  rw [next, hmark]

@[simp] theorem protocol_may : P.protocol.may call phase instr ↔ P.May phase instr := Iff.rfl

@[simp] theorem protocol_move {answer : O.sig.Answer instr} :
    P.protocol.move call phase instr answer phase' ↔ phase' = P.next phase instr answer := Iff.rfl

@[simp] theorem protocol_fail : P.protocol.fail call phase ↔ True := Iff.rfl

@[simp] theorem protocol_finish :
    P.protocol.finish call result phase ↔ phase = .effective call result := Iff.rfl

end Rules

variable {P} {ι : Type} [DecidableEq ι]

theorem protocol_keeps (start : A) :
    P.protocol.Keeps (OnlyCalls (ι := ι) P.allowed) fun state phase history =>
      ∃ order, Pointed P.spec start history phase order (P.view state) where
  invoke := by
    rintro config phase t call ⟨order, hpointed⟩ hallowed _
    exact ⟨.called call, ⟨hallowed, rfl⟩, order, hpointed.invoke⟩
  respond := by
    rintro config phase t call result ⟨order, hpointed⟩ _ _ hfinish
    exact ⟨order, hpointed.respond hfinish⟩
  jump := by
    rintro config phase t call label hw _ _ harrive
    refine ⟨phase t, harrive, ?_⟩
    rwa [Function.update_eq_self]
  answered := by
    rintro config phase t call instr code state answer ⟨order, hpointed⟩ _ _ hmay hexec
    refine ⟨P.next (phase t) instr answer, rfl, ?_⟩
    rw [protocol_may] at hmay
    cases hphase : phase t with
    | idle =>
        rw [hphase] at hmay
        exact hmay.elim
    | called call =>
        rw [hphase, may_called] at hmay
        cases hmark : P.mark call instr answer with
        | none =>
            rw [next_silent hmark, ← hphase, Function.update_eq_self,
              hmay.silent _ _ _ hexec hmark]
            exact ⟨order, hpointed⟩
        | some result =>
            rw [next_point hmark]
            obtain ⟨entry, hpoint⟩ :=
              hpointed.point hphase (hmay.point _ _ _ _ hexec hmark)
            exact ⟨_, hpoint⟩
    | effective call result =>
        rw [hphase, may_effective] at hmay
        rw [next_effective, ← hphase, Function.update_eq_self, hmay.after hexec]
        exact ⟨order, hpointed⟩
  retried := by
    rintro config phase t call instr code state ⟨order, hpointed⟩ _ _ hmay hexec
    refine ⟨order, ?_⟩
    rw [protocol_may] at hmay
    cases hphase : phase t with
    | idle =>
        rw [hphase] at hmay
        exact hmay.elim
    | called call =>
        rw [hphase, may_called] at hmay
        rw [hmay.retried _ _ hexec]
        exact hpointed
    | effective call result =>
        rw [hphase, may_effective] at hmay
        rw [hmay.after hexec]
        exact hpointed

/-- **The point rule.** Code whose instructions fit has linearizable histories. -/
theorem linearization (hsound : P.protocol.Sound) {state : O.State} {config : Config O ι}
    (hreach : (O.threads ι).Reach (OnlyCalls P.allowed) (.initial state) config) :
    ∃ order, Linearization P.spec (P.view state) config.history order (P.view config.state) := by
  have hstart : ∃ order, Pointed P.spec (P.view state) []
      (fun _ : ι => P.protocol.rest) order (P.view state) := ⟨[], .nil⟩
  obtain ⟨phase, _, order, hpointed⟩ :=
    Protocol.invariant hsound (protocol_keeps (P.view state)) hstart hreach
  exact ⟨order, hpointed.linearization⟩

end Pointing

end Concurrency
