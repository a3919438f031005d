import Mutual.Concurrency.Interleaving

/-!
# Protocols

A proof about interleavings assigns to every thread a private ghost state: what it owns, what it
knows of the shared state, what it still owes. A protocol says which instructions a thread may issue
in a ghost state and how the answers move it. Whether the code of an object obeys a protocol is a
matter of the code alone (`Protocol.Sound`); whether the shared state supports the protocol is a
matter of the instructions alone (`Protocol.Keeps`). `Protocol.invariant` puts the two together.
-/

namespace Concurrency

/-- The discipline threads follow in the calls of `O`. A thread between calls is in ghost state
`rest`. A jump may change what is known, hence `arrive` and `leave`. -/
structure Protocol (O : Object) (G : Type) where
  rest : G
  start : O.Call → G → Prop
  may : O.Call → G → O.sig.Instr → Prop
  move : O.Call → G → (instr : O.sig.Instr) → O.sig.Answer instr → G → Prop
  fail : O.Call → G → Prop
  arrive : O.Call → O.Label → G → Prop
  leave : O.Call → O.Label → G → Prop
  finish : O.Call → O.Reply → G → Prop

namespace Protocol

variable {O : Object} {G : Type} {ι : Type} [DecidableEq ι]

/-- The code follows the protocol from ghost state `g` on, whatever it is answered. -/
def Obeys (P : Protocol O G) (call : O.Call) : O.Code → G → Prop
  | .ret (.inl label), g => P.arrive call label g
  | .ret (.inr result), g => P.finish call result g
  | .panic _, g => P.fail call g
  | .op instr next, g =>
      P.may call g instr ∧ ∀ answer g', P.move call g instr answer g' → P.Obeys call (next answer) g'

section Rules

variable {P : Protocol O G} {call : O.Call} {g : G}

@[simp]
theorem obeys_op {instr : O.sig.Instr} {next : O.sig.Answer instr → O.Code} :
    P.Obeys call (no_index (.op instr next)) g ↔
      P.may call g instr ∧ ∀ answer g', P.move call g instr answer g' →
        P.Obeys call (next answer) g' := Iff.rfl

@[simp]
theorem obeys_reply {result : O.Reply} :
    P.Obeys call (no_index (.ret (.inr result))) g ↔ P.finish call result g := Iff.rfl

@[simp]
theorem obeys_goto {label : O.Label} :
    P.Obeys call (no_index (.ret (.inl label))) g ↔ P.arrive call label g := Iff.rfl

@[simp]
theorem obeys_panic {message : String} :
    P.Obeys call (no_index (.panic message)) g ↔ P.fail call g := Iff.rfl

end Rules

/-- `Q` asks no more of the code than `P` does. -/
theorem Obeys.mono {P Q : Protocol O G} {call : O.Call}
    (hmay : ∀ g instr, P.may call g instr → Q.may call g instr)
    (hmove : ∀ g instr answer g', Q.move call g instr answer g' → P.move call g instr answer g')
    (hfail : ∀ g, P.fail call g → Q.fail call g)
    (harrive : ∀ g label, P.arrive call label g → Q.arrive call label g)
    (hfinish : ∀ g result, P.finish call result g → Q.finish call result g) {code : O.Code} {g : G}
    (hobeys : P.Obeys call code g) : Q.Obeys call code g := by
  induction code generalizing g with
  | ret outcome =>
      cases outcome with
      | inl label => exact harrive g label hobeys
      | inr result => exact hfinish g result hobeys
  | panic message => exact hfail g hobeys
  | op instr next ih =>
      obtain ⟨hinstr, hnext⟩ := hobeys
      exact ⟨hmay g instr hinstr, fun answer g' hg' =>
        ih answer (hnext answer g' (hmove g instr answer g' hg'))⟩

/-- All the code of the object follows the protocol. -/
structure Sound (P : Protocol O G) : Prop where
  enter : ∀ call g, P.start call g → P.Obeys call (O.enter call) g
  body : ∀ call label g, P.leave call label g → P.Obeys call (O.body label) g

def Follows (P : Protocol O G) : Thread O → G → Prop
  | .idle, g => g = P.rest
  | .busy call code, g => P.Obeys call code g

theorem follows_update {P : Protocol O G} {thread : ι → Thread O} {ghost : ι → G}
    (hfollows : ∀ t, P.Follows (thread t) (ghost t)) (t : ι) (after : Thread O) {g : G}
    (hafter : P.Follows after g) (u : ι) :
    P.Follows (Function.update thread t after u) (Function.update ghost t g u) :=
  forall_update₂ (p := fun _ thread g => P.Follows thread g) thread ghost t hafter
    (fun u _ => hfollows u) u

/-- **What a step can be** where all threads follow the protocol. -/
theorem step_cases {P : Protocol O G} (hsound : P.Sound) {config after : Config O ι}
    {action : Action O ι} {ghost : ι → G} (hfollows : ∀ t, P.Follows (config.thread t) (ghost t))
    (hstep : config.step action = some after) :
    (∃ t call, action = .invoke t call ∧ after = config.begin t call ∧ ghost t = P.rest ∧
      ∀ g, P.start call g → ∀ u, P.Follows (after.thread u) (Function.update ghost t g u)) ∨
    (∃ t call result, action = .tick t ∧ config.thread t = .busy call (O.reply result) ∧
      after = config.finish t call result ∧ P.finish call result (ghost t) ∧
      ∀ u, P.Follows (after.thread u) (Function.update ghost t P.rest u)) ∨
    (∃ t call label, action = .tick t ∧ config.thread t = .busy call (O.goto label) ∧
      after = config.goOn t call config.state (O.body label) ∧ P.arrive call label (ghost t) ∧
      ∀ g, P.leave call label g → ∀ u, P.Follows (after.thread u) (Function.update ghost t g u)) ∨
    (∃ t call instr next state answer, action = .tick t ∧ config.At t call instr next ∧
      after = config.goOn t call state (next answer) ∧ P.may call (ghost t) instr ∧
      O.exec instr config.state = (state, some answer) ∧
      ∀ g, P.move call (ghost t) instr answer g →
        ∀ u, P.Follows (after.thread u) (Function.update ghost t g u)) ∨
    (∃ t call instr next state, action = .tick t ∧ config.At t call instr next ∧
      after = config.goOn t call state (.op instr next) ∧ P.may call (ghost t) instr ∧
      O.exec instr config.state = (state, none) ∧ ∀ u, P.Follows (after.thread u) (ghost u)) := by
  rcases Config.step_cases hstep with ⟨t, call, rfl, hidle, rfl⟩ |
    ⟨t, call, result, rfl, hthread, rfl⟩ | ⟨t, call, label, rfl, hthread, rfl⟩ |
    ⟨t, call, instr, next, state, answer, rfl, hat, hexec, rfl⟩ |
    ⟨t, call, instr, next, state, rfl, hat, hexec, rfl⟩
  all_goals have ht := hfollows t
  · rw [hidle] at ht
    exact .inl ⟨t, call, rfl, rfl, ht,
      fun g hg => follows_update hfollows t _ (hsound.enter call g hg)⟩
  · rw [hthread] at ht
    exact .inr (.inl ⟨t, call, result, rfl, hthread, rfl, ht, follows_update hfollows t .idle rfl⟩)
  · rw [hthread] at ht
    exact .inr (.inr (.inl ⟨t, call, label, rfl, hthread, rfl, ht,
      fun g hg => follows_update hfollows t _ (hsound.body call label g hg)⟩))
  · rw [hat] at ht
    exact .inr (.inr (.inr (.inl ⟨t, call, instr, next, state, answer, rfl, hat, rfl, ht.1, hexec,
      fun g hg => follows_update hfollows t _ (ht.2 answer g hg)⟩)))
  · rw [hat] at ht
    refine .inr (.inr (.inr (.inr ⟨t, call, instr, next, state, rfl, hat, rfl, ht.1, hexec,
      fun u => ?_⟩)))
    have hsame := follows_update hfollows t (.busy call (.op instr next)) ht u
    rwa [Function.update_eq_self] at hsame

/-! ### The protocol rule -/

/-- The relation `W` between shared state, ghost states, what a monitor has kept and history is kept
by every step that meets `cond`, where the thread that takes it is allowed it by the protocol. -/
structure KeepsBeside {M : Type} (P : Protocol O G)
    (watch : Config O ι → Action O ι → M → M) (cond : Config O ι × M → Action O ι → Prop)
    (W : O.State → (ι → G) → M → List (Event ι O.Call O.Reply) → Prop) : Prop where
  invoke : ∀ (config : Config O ι) ghost m t call, W config.state ghost m config.history →
    cond (config, m) (.invoke t call) → ghost t = P.rest →
    ∃ g, P.start call g ∧
      W config.state (Function.update ghost t g) (watch config (.invoke t call) m)
        (config.history ++ [.invoke t call])
  respond : ∀ (config : Config O ι) ghost m t call result,
    W config.state ghost m config.history → config.thread t = .busy call (O.reply result) →
    cond (config, m) (.tick t) → P.finish call result (ghost t) →
    W config.state (Function.update ghost t P.rest) (watch config (.tick t) m)
      (config.history ++ [.respond t call result])
  jump : ∀ (config : Config O ι) ghost m t call label,
    W config.state ghost m config.history → config.thread t = .busy call (O.goto label) →
    cond (config, m) (.tick t) → P.arrive call label (ghost t) →
    ∃ g, P.leave call label g ∧
      W config.state (Function.update ghost t g) (watch config (.tick t) m) config.history
  answered : ∀ (config : Config O ι) ghost m t call instr next state answer,
    W config.state ghost m config.history → config.At t call instr next →
    cond (config, m) (.tick t) → P.may call (ghost t) instr →
    O.exec instr config.state = (state, some answer) →
    ∃ g, P.move call (ghost t) instr answer g ∧
      W state (Function.update ghost t g) (watch config (.tick t) m) config.history
  retried : ∀ (config : Config O ι) ghost m t call instr next state,
    W config.state ghost m config.history → config.At t call instr next →
    cond (config, m) (.tick t) → P.may call (ghost t) instr →
    O.exec instr config.state = (state, none) →
    W state ghost (watch config (.tick t) m) config.history

variable {P : Protocol O G}

/-- **The protocol rule beside a monitor.** -/
theorem beside_invariant {M : Type} {watch : Config O ι → Action O ι → M → M}
    {cond : Config O ι × M → Action O ι → Prop}
    {W : O.State → (ι → G) → M → List (Event ι O.Call O.Reply) → Prop} (hsound : P.Sound)
    (hkeeps : P.KeepsBeside watch cond W) {state : O.State} {start : M}
    (hstart : W state (fun _ => P.rest) start []) {config : Config O ι} {m : M}
    (hreach : ((O.threads ι).monitored watch).Reach cond (.initial state, start) (config, m)) :
    ∃ ghost, (∀ t, P.Follows (config.thread t) (ghost t)) ∧
      W config.state ghost m config.history := by
  let I : Config O ι × M → Prop := fun after => ∃ ghost,
    (∀ t, P.Follows (after.1.thread t) (ghost t)) ∧
      W after.1.state ghost after.2 after.1.history
  have hinit : I (.initial state, start) := ⟨fun _ => P.rest, fun _ => rfl, hstart⟩
  refine System.Reach.invariant hinit ?_ hreach
  rintro ⟨config, m⟩ action ⟨after, m'⟩ ⟨ghost, hfollows, hw⟩ hcond hstep
  obtain ⟨hstep, hwatch⟩ := System.monitored_step.mp hstep
  change m' = _ at hwatch
  change ∃ ghost, (∀ t, P.Follows (after.thread t) (ghost t)) ∧
    W after.state ghost m' after.history
  rw [hwatch]
  rcases step_cases hsound hfollows hstep with ⟨t, call, rfl, rfl, hrest, hnext⟩ |
    ⟨t, call, result, rfl, hthread, rfl, hfinish, hnext⟩ |
    ⟨t, call, label, rfl, hthread, rfl, harrive, hnext⟩ |
    ⟨t, call, instr, next, state, answer, rfl, hat, rfl, hmay, hexec, hnext⟩ |
    ⟨t, call, instr, next, state, rfl, hat, rfl, hmay, hexec, hnext⟩
  · obtain ⟨g, hg, hw⟩ := hkeeps.invoke config ghost m t call hw hcond hrest
    exact ⟨_, hnext g hg, hw⟩
  · exact ⟨_, hnext, hkeeps.respond config ghost m t call result hw hthread hcond hfinish⟩
  · obtain ⟨g, hg, hw⟩ := hkeeps.jump config ghost m t call label hw hthread hcond harrive
    exact ⟨_, hnext g hg, hw⟩
  · obtain ⟨g, hg, hw⟩ :=
      hkeeps.answered config ghost m t call instr next state answer hw hat hcond hmay hexec
    exact ⟨_, hnext g hg, hw⟩
  · exact ⟨ghost, hnext,
      hkeeps.retried config ghost m t call instr next state hw hat hcond hmay hexec⟩

/-- `KeepsBeside` for a relation that speaks of no monitor. -/
structure Keeps (P : Protocol O G) (cond : Config O ι → Action O ι → Prop)
    (W : O.State → (ι → G) → List (Event ι O.Call O.Reply) → Prop) : Prop where
  invoke : ∀ (config : Config O ι) ghost t call, W config.state ghost config.history →
    cond config (.invoke t call) → ghost t = P.rest →
    ∃ g, P.start call g ∧
      W config.state (Function.update ghost t g) (config.history ++ [.invoke t call])
  respond : ∀ (config : Config O ι) ghost t call result, W config.state ghost config.history →
    config.thread t = .busy call (O.reply result) → cond config (.tick t) →
    P.finish call result (ghost t) →
    W config.state (Function.update ghost t P.rest) (config.history ++ [.respond t call result])
  jump : ∀ (config : Config O ι) ghost t call label, W config.state ghost config.history →
    config.thread t = .busy call (O.goto label) → cond config (.tick t) →
    P.arrive call label (ghost t) →
    ∃ g, P.leave call label g ∧ W config.state (Function.update ghost t g) config.history
  answered : ∀ (config : Config O ι) ghost t call instr next state answer,
    W config.state ghost config.history → config.At t call instr next → cond config (.tick t) →
    P.may call (ghost t) instr → O.exec instr config.state = (state, some answer) →
    ∃ g, P.move call (ghost t) instr answer g ∧
      W state (Function.update ghost t g) config.history
  retried : ∀ (config : Config O ι) ghost t call instr next state,
    W config.state ghost config.history → config.At t call instr next → cond config (.tick t) →
    P.may call (ghost t) instr → O.exec instr config.state = (state, none) →
    W state ghost config.history

/-- A monitor that keeps nothing. -/
theorem Keeps.beside {cond : Config O ι → Action O ι → Prop}
    {W : O.State → (ι → G) → List (Event ι O.Call O.Reply) → Prop} (hkeeps : P.Keeps cond W) :
    P.KeepsBeside (fun _ _ (m : Unit) => m) (fun before => cond before.1)
      fun state ghost _ history => W state ghost history where
  invoke config ghost _ := hkeeps.invoke config ghost
  respond config ghost _ := hkeeps.respond config ghost
  jump config ghost _ := hkeeps.jump config ghost
  answered config ghost _ := hkeeps.answered config ghost
  retried config ghost _ := hkeeps.retried config ghost

/-- **The protocol rule.** Code that obeys the protocol and a shared state that supports it keep `W`
in every run. -/
theorem invariant {cond : Config O ι → Action O ι → Prop}
    {W : O.State → (ι → G) → List (Event ι O.Call O.Reply) → Prop} (hsound : P.Sound)
    (hkeeps : P.Keeps cond W) {state : O.State} (hstart : W state (fun _ => P.rest) [])
    {config : Config O ι} (hreach : (O.threads ι).Reach cond (.initial state) config) :
    ∃ ghost, (∀ t, P.Follows (config.thread t) (ghost t)) ∧
      W config.state ghost config.history := by
  obtain ⟨_, hbeside⟩ := hreach.beside (fun _ _ (m : Unit) => m) ()
  exact beside_invariant hsound hkeeps.beside hstart hbeside

/-! ### Protocols beside a log -/

/-- `Keeps` for a relation that also speaks of the log the threads keep. -/
structure KeepsLog {L : Type} (P : Protocol O G) (look : O.State → O.Call → O.sig.Instr → L → L)
    (cond : Config O ι × (ι → L) → Action O ι → Prop)
    (W : O.State → (ι → G) → (ι → L) → List (Event ι O.Call O.Reply) → Prop) : Prop where
  invoke : ∀ (config : Config O ι) ghost log t call, W config.state ghost log config.history →
    cond (config, log) (.invoke t call) → ghost t = P.rest →
    ∃ g, P.start call g ∧
      W config.state (Function.update ghost t g) log (config.history ++ [.invoke t call])
  respond : ∀ (config : Config O ι) ghost log t call result,
    W config.state ghost log config.history → config.thread t = .busy call (O.reply result) →
    cond (config, log) (.tick t) → P.finish call result (ghost t) →
    W config.state (Function.update ghost t P.rest) log
      (config.history ++ [.respond t call result])
  jump : ∀ (config : Config O ι) ghost log t call label,
    W config.state ghost log config.history → config.thread t = .busy call (O.goto label) →
    cond (config, log) (.tick t) → P.arrive call label (ghost t) →
    ∃ g, P.leave call label g ∧ W config.state (Function.update ghost t g) log config.history
  answered : ∀ (config : Config O ι) ghost log t call instr next state answer,
    W config.state ghost log config.history → config.At t call instr next →
    cond (config, log) (.tick t) → P.may call (ghost t) instr →
    O.exec instr config.state = (state, some answer) →
    ∃ g, P.move call (ghost t) instr answer g ∧
      W state (Function.update ghost t g)
        (Function.update log t (look config.state call instr (log t))) config.history
  retried : ∀ (config : Config O ι) ghost log t call instr next state,
    W config.state ghost log config.history → config.At t call instr next →
    cond (config, log) (.tick t) → P.may call (ghost t) instr →
    O.exec instr config.state = (state, none) →
    W state ghost (Function.update log t (look config.state call instr (log t))) config.history

/-- A log is what a monitor keeps. -/
theorem KeepsLog.beside {L : Type} {look : O.State → O.Call → O.sig.Instr → L → L}
    {cond : Config O ι × (ι → L) → Action O ι → Prop}
    {W : O.State → (ι → G) → (ι → L) → List (Event ι O.Call O.Reply) → Prop}
    (hkeeps : P.KeepsLog look cond W) : P.KeepsBeside (logging look) cond W where
  invoke := hkeeps.invoke
  respond := by
    intro config ghost log t call result hw hthread
    rw [logging_ret look hthread]
    exact hkeeps.respond config ghost log t call result hw hthread
  jump := by
    intro config ghost log t call label hw hthread
    rw [logging_ret look hthread]
    exact hkeeps.jump config ghost log t call label hw hthread
  answered := by
    intro config ghost log t call instr next state answer hw hat
    rw [logging_at look hat]
    exact hkeeps.answered config ghost log t call instr next state answer hw hat
  retried := by
    intro config ghost log t call instr next state hw hat
    rw [logging_at look hat]
    exact hkeeps.retried config ghost log t call instr next state hw hat

/-- **The protocol rule beside a log.** -/
theorem log_invariant {L : Type} {look : O.State → O.Call → O.sig.Instr → L → L}
    {cond : Config O ι × (ι → L) → Action O ι → Prop}
    {W : O.State → (ι → G) → (ι → L) → List (Event ι O.Call O.Reply) → Prop} (hsound : P.Sound)
    (hkeeps : P.KeepsLog look cond W) {state : O.State} {empty : ι → L}
    (hstart : W state (fun _ => P.rest) empty []) {config : Config O ι} {log : ι → L}
    (hreach : ((O.threads ι).monitored (logging look)).Reach cond (.initial state, empty)
      (config, log)) :
    ∃ ghost, (∀ t, P.Follows (config.thread t) (ghost t)) ∧
      W config.state ghost log config.history :=
  beside_invariant hsound hkeeps.beside hstart hreach

/-! ### Two protocols at once -/

section Both

variable {H : Type} {Q : Protocol O H}

def both (P : Protocol O G) (Q : Protocol O H) : Protocol O (G × H) where
  rest := (P.rest, Q.rest)
  start call g := P.start call g.1 ∧ Q.start call g.2
  may call g instr := P.may call g.1 instr ∧ Q.may call g.2 instr
  move call g instr answer g' := P.move call g.1 instr answer g'.1 ∧ Q.move call g.2 instr answer g'.2
  fail call g := P.fail call g.1 ∧ Q.fail call g.2
  arrive call label g := P.arrive call label g.1 ∧ Q.arrive call label g.2
  leave call label g := P.leave call label g.1 ∧ Q.leave call label g.2
  finish call result g := P.finish call result g.1 ∧ Q.finish call result g.2

theorem Obeys.both {call : O.Call} {code : O.Code} {g : G} {h : H} (hP : P.Obeys call code g)
    (hQ : Q.Obeys call code h) : (P.both Q).Obeys call code (g, h) := by
  induction code generalizing g h with
  | ret outcome =>
      cases outcome with
      | inl label => exact ⟨hP, hQ⟩
      | inr result => exact ⟨hP, hQ⟩
  | panic message => exact ⟨hP, hQ⟩
  | op instr next ih =>
      refine ⟨⟨hP.1, hQ.1⟩, ?_⟩
      rintro answer ⟨g', h'⟩ ⟨hmoveP, hmoveQ⟩
      exact ih answer (hP.2 answer g' hmoveP) (hQ.2 answer h' hmoveQ)

theorem Sound.both (hP : P.Sound) (hQ : Q.Sound) : (P.both Q).Sound where
  enter call _ hstart := (hP.enter call _ hstart.1).both (hQ.enter call _ hstart.2)
  body call label _ hleave := (hP.body call label _ hleave.1).both (hQ.body call label _ hleave.2)

end Both

end Protocol

end Concurrency
