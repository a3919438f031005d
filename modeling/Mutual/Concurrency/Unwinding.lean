import Mathlib.Data.Nat.Notation
import Mutual.Concurrency.Program

/-!
# Calls that unwind

Where the code of an object calls other code, that code may unwind instead of returning. What has
been done so far stays, and nothing that would follow the call happens.
-/

namespace Concurrency.Object

/-- Run on its own from `state`, the code comes to the `n`-th of its calls, which unwinds and leaves
the state `final`. -/
inductive Unwinds (O : Object) (calls : O.sig.Instr → Prop) :
    ℕ → O.State → O.Code → O.State → Prop
  | here {state : O.State} {instr : O.sig.Instr} {next : O.sig.Answer instr → O.Code} :
      calls instr → Unwinds O calls 1 state (.op instr next) state
  | returns {n : ℕ} {state after final : O.State} {instr : O.sig.Instr}
      {next : O.sig.Answer instr → O.Code} {answer : O.sig.Answer instr} : calls instr →
      O.exec instr state = (after, some answer) → Unwinds O calls n after (next answer) final →
      Unwinds O calls (n + 1) state (.op instr next) final
  | op {n : ℕ} {state after final : O.State} {instr : O.sig.Instr}
      {next : O.sig.Answer instr → O.Code} {answer : O.sig.Answer instr} : ¬ calls instr →
      O.exec instr state = (after, some answer) → Unwinds O calls n after (next answer) final →
      Unwinds O calls n state (.op instr next) final
  | retry {n : ℕ} {state after final : O.State} {instr : O.sig.Instr}
      {next : O.sig.Answer instr → O.Code} : ¬ calls instr → O.exec instr state = (after, none) →
      Unwinds O calls n after (.op instr next) final → Unwinds O calls n state (.op instr next) final
  | goto {n : ℕ} {state final : O.State} {label : O.Label} : Unwinds O calls n state (O.body label) final →
      Unwinds O calls n state (.ret (.inl label)) final

/-- The code makes no call and goes on with no loop. -/
def Quiet (O : Object) (calls : O.sig.Instr → Prop) : O.Code → Prop
  | .ret (.inl _) => False
  | .ret (.inr _) => True
  | .panic _ => True
  | .op instr next => ¬ calls instr ∧ ∀ answer, Quiet O calls (next answer)

variable {O : Object} {calls : O.sig.Instr → Prop} {n : ℕ} {state final : O.State}

theorem Quiet.not_unwinds {code : O.Code} (hquiet : O.Quiet calls code) :
    ¬ O.Unwinds calls n state code final := by
  intro hunwinds
  induction hunwinds with
  | here hcalls => exact hquiet.1 hcalls
  | returns hcalls _ _ _ => exact hquiet.1 hcalls
  | op _ _ _ ih => exact ih (hquiet.2 _)
  | retry _ _ _ ih => exact ih hquiet
  | goto _ _ => exact hquiet

theorem unwinds_goto {label : O.Label} :
    O.Unwinds calls n state (.ret (.inl label)) final ↔
      O.Unwinds calls n state (O.body label) final := by
  constructor
  · intro hunwinds
    cases hunwinds with
    | goto hrest => exact hrest
  · exact .goto

theorem unwinds_op {instr : O.sig.Instr} {next : O.sig.Answer instr → O.Code} {after : O.State}
    {answer : O.sig.Answer instr} (hcalls : ¬ calls instr)
    (hexec : O.exec instr state = (after, some answer)) :
    O.Unwinds calls n state (.op instr next) final ↔
      O.Unwinds calls n after (next answer) final := by
  constructor
  · intro hunwinds
    cases hunwinds with
    | here hcalls' => exact absurd hcalls' hcalls
    | returns hcalls' _ _ => exact absurd hcalls' hcalls
    | op _ hexec' hrest =>
        cases hexec.symm.trans hexec'
        exact hrest
    | retry _ hexec' _ => cases hexec.symm.trans hexec'
  · exact .op hcalls hexec

/-- The call unwinds, or it returns and a later one unwinds. -/
theorem unwinds_call {instr : O.sig.Instr} {next : O.sig.Answer instr → O.Code} {after : O.State}
    {answer : O.sig.Answer instr} (hcalls : calls instr)
    (hexec : O.exec instr state = (after, some answer)) :
    O.Unwinds calls n state (.op instr next) final ↔
      n = 1 ∧ final = state ∨ ∃ m, n = m + 1 ∧ O.Unwinds calls m after (next answer) final := by
  constructor
  · intro hunwinds
    cases hunwinds with
    | here _ => exact .inl ⟨rfl, rfl⟩
    | returns _ hexec' hrest =>
        cases hexec.symm.trans hexec'
        exact .inr ⟨_, rfl, hrest⟩
    | op hcalls' _ _ => exact absurd hcalls hcalls'
    | retry hcalls' _ _ => exact absurd hcalls hcalls'
  · rintro (⟨rfl, rfl⟩ | ⟨m, rfl, hrest⟩)
    · exact .here hcalls
    · exact .returns hcalls hexec hrest

/-- Calls are counted from one. -/
theorem Unwinds.pos {code : O.Code} (hunwinds : O.Unwinds calls n state code final) : 1 ≤ n := by
  induction hunwinds with
  | here _ => exact Nat.le_refl 1
  | returns _ _ _ _ => exact Nat.le_add_left 1 _
  | op _ _ _ ih => exact ih
  | retry _ _ _ ih => exact ih
  | goto _ ih => exact ih

end Concurrency.Object
