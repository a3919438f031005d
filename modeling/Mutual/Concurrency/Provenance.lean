import Mutual.Concurrency.Layers

/-!
# Where data comes from

An object stores data that its callers bring. An instruction reads nothing but what is stored, and
nothing is stored but what an instruction writes. If the code writes only what it has been given or
has read, then whatever an object holds or replies has been brought by a call, or has been there from
the start. The argument fixes the data that is known and follows it through the code, which is a
protocol without ghost state.
-/

namespace Concurrency

/-- How data goes in and out of the state of an object. -/
structure Flow (O : Object) (α : Type) where
  holds : O.State → α → Prop
  reads : (instr : O.sig.Instr) → O.sig.Answer instr → α → Prop
  writes : O.sig.Instr → α → Prop
  held_of_reads : ∀ {instr state after answer x}, O.exec instr state = (after, some answer) →
    reads instr answer x → holds state x
  held_before : ∀ {instr state x}, holds (O.exec instr state).1 x → holds state x ∨ writes instr x

/-- How data goes through the calls. `carries` says what a label may rely on, where `known` is the
data that has been brought, and `explains` what a reply tells about it. -/
structure Tracing (O : Object) (α : Type) extends Flow O α where
  offers : O.Call → α → Prop
  carries : (α → Prop) → O.Call → O.Label → Prop
  explains : (α → Prop) → O.Call → O.Reply → Prop

section Histories

variable {O : Object} {ι : Type} [DecidableEq ι] {cond : Config O ι → Action O ι → Prop}
  {state : O.State} {config after : Config O ι} {action : Action O ι}

theorem Config.history_of_step (hstep : config.step action = some after) :
    ∃ events, after.history = config.history ++ events ∧ events.length ≤ 1 ∧
      ∀ t call, action = .invoke t call → .invoke t call ∈ events := by
  rcases Config.step_cases hstep with ⟨t, call, rfl, -, rfl⟩ | ⟨t, call, result, rfl, -, rfl⟩ |
    ⟨t, call, label, rfl, -, rfl⟩ | ⟨t, call, instr, next, _, answer, rfl, -, -, rfl⟩ |
    ⟨t, call, instr, next, _, rfl, -, -, rfl⟩
  · refine ⟨[.invoke t call], rfl, Nat.le_refl 1, ?_⟩
    rintro _ _ ⟨⟩
    exact List.mem_singleton_self _
  · exact ⟨[.respond t call result], rfl, Nat.le_refl 1, by simp⟩
  all_goals exact ⟨[], (List.append_nil _).symm, Nat.zero_le 1, by simp⟩

/-- The events of a shorter run with the same beginning. -/
theorem reach_take (hreach : (O.threads ι).Reach cond (.initial state) config) {n : Nat}
    (hn : n ≤ config.history.length) :
    ∃ before, (O.threads ι).Reach cond (.initial state) before ∧
      before.history = config.history.take n := by
  induction hreach generalizing n with
  | start => exact ⟨_, .start, (List.take_of_length_le (Nat.zero_le n)).symm⟩
  | @step middle after action hbefore hcond hstep ih =>
      obtain ⟨events, hhistory, hevents, -⟩ := Config.history_of_step hstep
      by_cases hlast : n ≤ middle.history.length
      · obtain ⟨before, hreach, htake⟩ := ih hlast
        refine ⟨before, hreach, ?_⟩
        rw [htake, hhistory, List.take_append_of_le_length hlast]
      · refine ⟨after, hbefore.step hcond hstep, (List.take_of_length_le ?_).symm⟩
        rw [hhistory, List.length_append]
        omega

/-- The calls that are begun are in the history. -/
theorem reach_invoked (hreach : (O.threads ι).Reach cond (.initial state) config) :
    (O.threads ι).Reach (OnlyCalls fun call => ∃ t, .invoke t call ∈ config.history)
      (.initial state) config := by
  induction hreach with
  | start => exact .start
  | @step middle after action hbefore _ hstep ih =>
      obtain ⟨events, hhistory, -, hinvoked⟩ := Config.history_of_step hstep
      rw [hhistory]
      refine .step (ih.mono ?_) ?_ hstep
      · rintro before (⟨t, call⟩ | ⟨t⟩) hcond
        · exact hcond.imp fun u hu => List.mem_append_left _ hu
        · trivial
      · cases action with
        | invoke t call => exact ⟨t, List.mem_append_right _ (hinvoked t call rfl)⟩
        | tick t => trivial

end Histories

namespace Tracing

variable {O : Object} {α : Type} (trace : Tracing O α)

/-- Whatever is written, carried on and replied is known, if what is brought and read is. -/
def protocol (known : α → Prop) : Protocol O Unit where
  rest := ()
  start call _ := ∀ x, trace.offers call x → known x
  may _ _ instr := ∀ x, trace.writes instr x → known x
  move _ _ instr answer _ := ∀ x, trace.reads instr answer x → known x
  fail _ _ := True
  arrive call label _ := trace.carries known call label
  leave call label _ := trace.carries known call label
  finish call result _ := trace.explains known call result

variable {ι : Type}

/-- What has been there from the start or has been brought by a call. -/
def Brought (start : O.State) (history : List (Event ι O.Call O.Reply)) (x : α) : Prop :=
  trace.holds start x ∨ ∃ t call, .invoke t call ∈ history ∧ trace.offers call x

variable {trace} [DecidableEq ι] {start : O.State} {config : Config O ι}

theorem protocol_keeps (known : α → Prop) :
    (trace.protocol known).Keeps (ι := ι)
      (OnlyCalls fun call => ∀ x, trace.offers call x → known x) fun state _ history =>
      (∀ x, trace.holds state x → known x) ∧
        ∀ t call result, .respond t call result ∈ history → trace.explains known call result where
  invoke := by
    rintro config ghost t call ⟨hheld, hexplained⟩ hoffers -
    refine ⟨(), hoffers, hheld, fun u call' result hmem => ?_⟩
    rcases List.mem_append.mp hmem with hold | hlast
    · exact hexplained u call' result hold
    · cases List.mem_singleton.mp hlast
  respond := by
    rintro config ghost t call result ⟨hheld, hexplained⟩ - - hfinish
    refine ⟨hheld, fun u call' result' hmem => ?_⟩
    rcases List.mem_append.mp hmem with hold | hlast
    · exact hexplained u call' result' hold
    · cases List.mem_singleton.mp hlast
      exact hfinish
  jump := by
    rintro config ghost t call label hw - - harrive
    exact ⟨(), harrive, hw⟩
  answered := by
    rintro config ghost t call instr next state answer ⟨hheld, hexplained⟩ - - hmay hexec
    have hafter : (O.exec instr config.state).1 = state := congrArg Prod.fst hexec
    refine ⟨(), fun x hx => hheld x (trace.held_of_reads hexec hx), fun x hx => ?_, hexplained⟩
    rw [← hafter] at hx
    exact (trace.held_before hx).elim (hheld x) (hmay x)
  retried := by
    rintro config ghost t call instr next state ⟨hheld, hexplained⟩ - - hmay hexec
    have hafter : (O.exec instr config.state).1 = state := congrArg Prod.fst hexec
    refine ⟨fun x hx => ?_, hexplained⟩
    rw [← hafter] at hx
    exact (trace.held_before hx).elim (hheld x) (hmay x)

theorem known_of_reach {known : α → Prop} (hsound : (trace.protocol known).Sound)
    (hstart : ∀ x, trace.holds start x → known x)
    (hreach : (O.threads ι).Reach (OnlyCalls fun call => ∀ x, trace.offers call x → known x)
      (.initial start) config) :
    (∀ x, trace.holds config.state x → known x) ∧
      ∀ t call result, .respond t call result ∈ config.history →
        trace.explains known call result := by
  obtain ⟨_, -, hw⟩ := Protocol.invariant hsound (protocol_keeps known) ⟨hstart, by simp⟩ hreach
  exact hw

/-- **Provenance.** Whatever the object holds has been brought, and every reply is explained by what
has been brought before it. -/
theorem provenance (hsound : ∀ known, (trace.protocol known).Sound)
    {cond : Config O ι → Action O ι → Prop}
    (hreach : (O.threads ι).Reach cond (.initial start) config) :
    (∀ x, trace.holds config.state x → trace.Brought start config.history x) ∧
      ∀ n t call result, config.history[n]? = some (.respond t call result) →
        trace.explains (trace.Brought start (config.history.take n)) call result := by
  have hknown : ∀ {config : Config O ι}, (O.threads ι).Reach cond (.initial start) config →
      (∀ x, trace.holds config.state x → trace.Brought start config.history x) ∧
        ∀ t call result, .respond t call result ∈ config.history →
          trace.explains (trace.Brought start config.history) call result := by
    intro config hreach
    refine known_of_reach (hsound _) (fun x => .inl) ((reach_invoked hreach).mono ?_)
    rintro before (⟨t, call⟩ | ⟨t⟩) hcond
    · obtain ⟨u, hu⟩ := hcond
      exact fun x hx => .inr ⟨u, call, hu, hx⟩
    · trivial
  refine ⟨(hknown hreach).1, fun n t call result hresponse => ?_⟩
  obtain ⟨hlt, -⟩ := List.getElem?_eq_some_iff.mp hresponse
  obtain ⟨before, hbefore, hhistory⟩ := reach_take hreach hlt
  have hsplit : before.history = config.history.take n ++ [.respond t call result] := by
    rw [hhistory, List.take_add_one, hresponse]
    rfl
  have hsame : trace.Brought start before.history =
      trace.Brought start (config.history.take n) := by
    ext x
    simp [Brought, hsplit]
  rw [← hsame]
  refine (hknown hbefore).2 t call result ?_
  rw [hsplit]
  exact List.mem_append_right _ (List.mem_singleton_self _)

end Tracing

/-- Data in an object made of parts is in one of the parts. -/
def Flow.parts {Part : Object} {α κ : Type} [DecidableEq κ] (flow : Flow Part α)
    (C : Composite Part κ) : Flow C.object (κ × α) where
  holds state x := flow.holds (state x.1) x.2
  reads instr answer x := instr.1 = x.1 ∧ flow.reads instr.2 answer x.2
  writes instr x := instr.1 = x.1 ∧ flow.writes instr.2 x.2
  held_of_reads := by
    rintro ⟨part, instr⟩ state after answer ⟨_, x⟩ hexec ⟨rfl, hreads⟩
    exact flow.held_of_reads (Composite.exec_part hexec).1 hreads
  held_before := by
    rintro ⟨part, instr⟩ state ⟨other, x⟩ hholds
    change flow.holds (Function.update state part _ other) x at hholds
    by_cases hother : other = part
    · subst hother
      rw [Function.update_self] at hholds
      exact (flow.held_before hholds).imp_right fun hwrites => ⟨rfl, hwrites⟩
    · rw [Function.update_of_ne hother] at hholds
      exact .inl hholds

end Concurrency
