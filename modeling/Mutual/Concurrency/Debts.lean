import Mutual.Concurrency.Composite
import Mutual.Concurrency.Interleaving

/-!
# Debts

Code that raises a flag often lowers it before its call returns. While the flag is up somebody is
between the two: whatever the other threads do, the last one that has raised it still has to lower it.
So the flag is down when all threads are idle.
-/

namespace Concurrency

/-- The instructions that raise a flag and those that lower it, and the labels at which it is still to
be lowered. -/
structure Debt (O : Object) where
  raises : O.sig.Instr → Prop
  lowers : O.sig.Instr → Prop
  owing : O.Label → Prop

namespace Debt

variable {O : Object} {ι : Type} [DecidableEq ι]

/-- The code lowers the flag before it returns, whatever it is answered. -/
def Owes (D : Debt O) : O.Code → Prop
  | .ret (.inl label) => D.owing label
  | .ret (.inr _) => False
  | .panic _ => True
  | .op instr next => D.lowers instr ∨ ∀ answer, D.Owes (next answer)

/-- Wherever the code raises the flag, it lowers it before it returns. It jumps to labels in `known`
only. -/
def Settles (D : Debt O) (known : O.Label → Prop) : O.Code → Prop
  | .ret (.inl label) => known label
  | .ret (.inr _) | .panic _ => True
  | .op instr next =>
      (D.raises instr → ∀ answer, D.Owes (next answer)) ∧ ∀ answer, D.Settles known (next answer)

variable {D : Debt O} {known : O.Label → Prop}

section Rules

variable {instr : O.sig.Instr} {next : O.sig.Answer instr → O.Code} {label : O.Label}
  {result : O.Reply} {message : String}

@[simp] theorem owes_op :
    D.Owes (no_index (.op instr next)) ↔ D.lowers instr ∨ ∀ answer, D.Owes (next answer) := Iff.rfl

@[simp] theorem owes_goto : D.Owes (no_index (.ret (.inl label))) ↔ D.owing label := Iff.rfl

@[simp] theorem owes_reply : D.Owes (no_index (.ret (.inr result))) ↔ False := Iff.rfl

@[simp] theorem owes_panic : D.Owes (no_index (.panic message)) ↔ True := Iff.rfl

@[simp] theorem owes_ite {cond : Prop} [Decidable cond] {yes no : O.Code} :
    D.Owes (no_index (if cond then yes else no)) ↔ (cond → D.Owes yes) ∧ (¬ cond → D.Owes no) := by
  by_cases hcond : cond <;> simp [hcond]

@[simp] theorem settles_op : D.Settles known (no_index (.op instr next)) ↔
    (D.raises instr → ∀ answer, D.Owes (next answer)) ∧
      ∀ answer, D.Settles known (next answer) := Iff.rfl

@[simp] theorem settles_goto : D.Settles known (no_index (.ret (.inl label))) ↔ known label := Iff.rfl

@[simp] theorem settles_reply : D.Settles known (no_index (.ret (.inr result))) ↔ True := Iff.rfl

@[simp] theorem settles_panic : D.Settles known (no_index (.panic message)) ↔ True := Iff.rfl

@[simp] theorem settles_ite {cond : Prop} [Decidable cond] {yes no : O.Code} :
    D.Settles known (no_index (if cond then yes else no)) ↔
      (cond → D.Settles known yes) ∧ (¬ cond → D.Settles known no) := by
  by_cases hcond : cond <;> simp [hcond]

end Rules

/-- All the code of the object settles what it owes. -/
structure Sound (D : Debt O) (known : O.Label → Prop) : Prop where
  enter : ∀ call, D.Settles known (O.enter call)
  body : ∀ label, known label → D.Settles known (O.body label)
  owing : ∀ label, known label → D.owing label → D.Owes (O.body label)

/-- The flag goes up and down as the instructions say. -/
structure Governs (D : Debt O) (flag : O.State → Prop) : Prop where
  raised : ∀ instr state, flag (O.exec instr state).1 → flag state ∨ D.raises instr
  lowered : ∀ instr state, D.lowers instr → ¬ flag (O.exec instr state).1

def SettlesThread (D : Debt O) (known : O.Label → Prop) : Thread O → Prop
  | .idle => True
  | .busy _ code => D.Settles known code

def Owing (D : Debt O) : Thread O → Prop
  | .idle => False
  | .busy _ code => D.Owes code

/-- While the flag is up somebody owes, and all threads settle what they owe. -/
structure Held (D : Debt O) (known : O.Label → Prop) (flag : O.State → Prop) (config : Config O ι) :
    Prop where
  settles : ∀ t, D.SettlesThread known (config.thread t)
  owed : flag config.state → ∃ t, D.Owing (config.thread t)

variable {flag : O.State → Prop} {config : Config O ι}

/-- One thread goes on. -/
theorem Held.update (hheld : D.Held known flag config) (thread : Thread O) {after : Config O ι}
    {t : ι} (hthread : after.thread = Function.update config.thread t thread)
    (hsettles : D.SettlesThread known thread)
    (howed : flag after.state →
      D.Owing thread ∨ flag config.state ∧ (D.Owing (config.thread t) → D.Owing thread)) :
    D.Held known flag after where
  settles u := by
    rw [hthread]
    by_cases hut : u = t
    · rw [hut, Function.update_self]
      exact hsettles
    · rw [Function.update_of_ne hut]
      exact hheld.settles u
  owed hflag := by
    rw [hthread]
    rcases howed hflag with hthis | ⟨hbefore, hkept⟩
    · exact ⟨t, by rwa [Function.update_self]⟩
    · obtain ⟨u, hu⟩ := hheld.owed hbefore
      by_cases hut : u = t
      · subst hut
        exact ⟨u, by rw [Function.update_self]; exact hkept hu⟩
      · exact ⟨u, by rwa [Function.update_of_ne hut]⟩

/-- **Debts are paid.** In every run, while the flag is up somebody owes. -/
theorem held (hsound : D.Sound known) (hgoverns : D.Governs flag)
    {cond : Config O ι → Action O ι → Prop} {state : O.State} (hdown : ¬ flag state)
    (hreach : (O.threads ι).Reach cond (.initial state) config) : D.Held known flag config := by
  have hstart : D.Held known flag (.initial state : Config O ι) :=
    ⟨fun _ => trivial, fun hflag => absurd hflag hdown⟩
  refine hreach.invariant hstart ?_
  intro config action after hheld _ hstep
  rcases Config.step_cases hstep with ⟨t, call, rfl, hidle, rfl⟩ |
    ⟨t, call, result, rfl, hthread, rfl⟩ | ⟨t, call, label, rfl, hthread, rfl⟩ |
    ⟨t, call, instr, next, state, answer, rfl, hat, hexec, rfl⟩ |
    ⟨t, call, instr, next, state, rfl, hat, hexec, rfl⟩
  · refine hheld.update _ rfl (hsound.enter call) fun hflag => .inr ⟨hflag, fun howing => ?_⟩
    rw [hidle] at howing
    exact howing.elim
  · refine hheld.update .idle rfl trivial fun hflag => .inr ⟨hflag, fun howing => ?_⟩
    rw [hthread] at howing
    exact howing.elim
  · have hknown := hheld.settles t
    rw [hthread] at hknown
    refine hheld.update _ rfl (hsound.body label hknown) fun hflag => .inr ⟨hflag, fun howing => ?_⟩
    rw [hthread] at howing
    exact hsound.owing label hknown howing
  · obtain ⟨hraises, hsettles⟩ : D.Settles known (.op instr next) := by
      have hcode := hheld.settles t
      rwa [show config.thread t = _ from hat] at hcode
    have hstate : (O.exec instr config.state).1 = state := congrArg Prod.fst hexec
    refine hheld.update _ rfl (hsettles answer) fun hflag => ?_
    change flag state at hflag
    rw [← hstate] at hflag
    rcases hgoverns.raised instr config.state hflag with hbefore | hraised
    · refine .inr ⟨hbefore, fun howing => ?_⟩
      rw [show config.thread t = _ from hat] at howing
      rcases howing with hlowers | howes
      · exact absurd hflag (hgoverns.lowered instr config.state hlowers)
      · exact howes answer
    · exact .inl (hraises hraised answer)
  · obtain ⟨hraises, hsettles⟩ : D.Settles known (.op instr next) := by
      have hcode := hheld.settles t
      rwa [show config.thread t = _ from hat] at hcode
    have hstate : (O.exec instr config.state).1 = state := congrArg Prod.fst hexec
    refine hheld.update (.busy call (.op instr next)) rfl ⟨hraises, hsettles⟩ fun hflag => ?_
    change flag state at hflag
    rw [← hstate] at hflag
    rcases hgoverns.raised instr config.state hflag with hbefore | hraised
    · refine .inr ⟨hbefore, fun howing => ?_⟩
      rwa [show config.thread t = _ from hat] at howing
    -- the instruction has raised the flag, although it goes on trying
    · exact .inl (.inr (hraises hraised))

omit [DecidableEq ι] in
theorem Held.quiescent (hheld : D.Held known flag config) (hquiescent : config.Quiescent) :
    ¬ flag config.state := by
  intro hflag
  obtain ⟨t, howing⟩ := hheld.owed hflag
  rw [hquiescent t] at howing
  exact howing

/-! ### Objects made of parts -/

section Parts

variable {Part : Object} {κ : Type} [DecidableEq κ] {C : Composite Part κ}

/-- A flag of one of the parts. -/
def part (D : Debt Part) (C : Composite Part κ) (watched : κ) : Debt C.object where
  raises instr := instr.1 = watched ∧ D.raises instr.2
  lowers instr := instr.1 = watched ∧ D.lowers instr.2
  owing
    | .call _ _ _ => False
    | .within place label _ => place = watched ∧ D.owing label

variable {D : Debt Part} {known : Part.Label → Prop} {knownC : C.object.Label → Prop} {watched place : κ}
  {cont : C.Cont} {code : Part.Code}

theorem Governs.part {flag : Part.State → Prop} (hgoverns : D.Governs flag) :
    (D.part C watched).Governs fun state => flag (state watched) where
  raised instr state hflag := by
    obtain ⟨place, instr⟩ := instr
    change flag (Function.update state place (Part.exec instr (state place)).1 watched) at hflag
    by_cases hplace : place = watched
    · subst hplace
      rw [Function.update_self] at hflag
      exact (hgoverns.raised instr _ hflag).imp_right fun hraised => ⟨rfl, hraised⟩
    · rw [Function.update_of_ne (Ne.symm hplace)] at hflag
      exact .inl hflag
  lowered instr state := by
    obtain ⟨place, instr⟩ := instr
    rintro ⟨rfl, hlowers⟩
    change ¬ flag (Function.update state place (Part.exec instr (state place)).1 place)
    rw [Function.update_self]
    exact hgoverns.lowered instr _ hlowers

theorem Owes.within (howes : D.Owes code) :
    (D.part C watched).Owes (C.within watched cont code) := by
  induction code with
  | ret outcome =>
      cases outcome with
      | inl label => exact ⟨rfl, howes⟩
      | inr result => exact howes.elim
  | panic message => trivial
  | op instr next ih =>
      rcases howes with hlowers | howes
      · exact .inl ⟨rfl, hlowers⟩
      · exact .inr fun answer => ih answer (howes answer)

theorem Settles.within (hsettles : D.Settles known code)
    (hknown : ∀ label, known label → knownC (.within place label cont))
    (hresume : ∀ reply, (D.part C watched).Settles knownC (C.resume place cont reply)) :
    (D.part C watched).Settles knownC (C.within place cont code) := by
  induction code with
  | ret outcome =>
      cases outcome with
      | inl label => exact hknown label hsettles
      | inr result => exact hresume result
  | panic message => trivial
  | op instr next ih =>
      obtain ⟨hraises, hnext⟩ := hsettles
      refine ⟨?_, fun answer => ih answer (hnext answer)⟩
      rintro ⟨rfl, hraised⟩ answer
      exact (hraises hraised answer).within

end Parts

end Debt

end Concurrency
