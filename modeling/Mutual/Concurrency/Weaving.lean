import Mutual.Concurrency.Composite
import Mutual.Concurrency.Draining
import Mutual.Concurrency.Linearizability
import Mutual.Concurrency.Protocol

/-!
# Runs of the parts inside the runs of an object

An object that does nothing to its parts but call them leaves each part to its own methods. Whatever
threads do with the object, each part goes through a run of its own. The histories of the parts,
woven into that of the object, show what the object makes of the replies: every thread takes the
course that the methods of the object prescribe.
-/

namespace Concurrency

variable {Part : Object} {κ : Type} {C : Composite Part κ} {ι : Type}

/-- What happens to the object, and what happens to a part. -/
inductive Happening (C : Composite Part κ) (ι : Type) where
  | outer (event : Event ι C.Call C.Reply)
  | inner (part : κ) (event : Event ι Part.Call Part.Reply)

namespace Happening

def thread : Happening C ι → ι
  | outer event => event.thread
  | inner _ event => event.thread

def outer? : Happening C ι → Option (Event ι C.Call C.Reply)
  | outer event => some event
  | inner _ _ => none

def inner? [DecidableEq κ] (part : κ) : Happening C ι → Option (Event ι Part.Call Part.Reply)
  | outer _ => none
  | inner other event => if other = part then some event else none

variable [DecidableEq κ] {part other : κ}

theorem filterMap_self (event : Event ι Part.Call Part.Reply) :
    [(inner part event : Happening C ι)].filterMap (inner? part) = [event] := by
  simp [inner?]

theorem filterMap_of_ne (event : Event ι Part.Call Part.Reply) (hother : other ≠ part) :
    [(inner part event : Happening C ι)].filterMap (inner? other) = [] := by
  simp [inner?, Ne.symm hother]

end Happening

/-- Where a thread stands: between calls, in a method with some code of it left, or in a call that
the method has made to a part. -/
inductive Standing (C : Composite Part κ) where
  | idle
  | outside (call : C.Call) (code : Prog (partSig Part κ) (PartLabel Part κ C.Cont ⊕ C.Reply))
  | within (call : C.Call) (part : κ) (inner : Part.Call) (cont : C.Cont)

/-- What has happened of a thread is what its methods prescribe, and has led it to where it
stands. -/
inductive Course (t : ι) : List (Happening C ι) → Standing C → Prop
  | start : Course t [] .idle
  | other {history : List (Happening C ι)} {standing : Standing C} {happening : Happening C ι} :
      Course t history standing → happening.thread ≠ t → Course t (history ++ [happening]) standing
  | invoke {history : List (Happening C ι)} (call : C.Call) :
      Course t history .idle →
      Course t (history ++ [.outer (.invoke t call)]) (.outside call (C.enter call))
  | op {history : List (Happening C ι)} {call : C.Call} {instr : κ × Part.sig.Instr}
      {next : Part.sig.Answer instr.2 → Prog (partSig Part κ) (PartLabel Part κ C.Cont ⊕ C.Reply)}
      (answer : Part.sig.Answer instr.2) :
      Course t history (.outside call (.op instr next)) →
      Course t history (.outside call (next answer))
  | call {history : List (Happening C ι)} {call : C.Call} {part : κ} {inner : Part.Call}
      {cont : C.Cont} :
      Course t history (.outside call (.ret (.inl (.call part inner cont)))) →
      Course t (history ++ [.inner part (.invoke t inner)]) (.within call part inner cont)
  | reply {history : List (Happening C ι)} {call : C.Call} {part : κ} {inner : Part.Call}
      {cont : C.Cont} (answer : Part.Reply) :
      Course t history (.within call part inner cont) →
      Course t (history ++ [.inner part (.respond t inner answer)])
        (.outside call (C.resume part cont answer))
  | respond {history : List (Happening C ι)} {call : C.Call} {result : C.Reply} :
      Course t history (.outside call (.ret (.inr result))) →
      Course t (history ++ [.outer (.respond t call result)]) .idle

theorem Course.others {t : ι} {history added : List (Happening C ι)} {standing : Standing C}
    (hcourse : Course t history standing) (hadded : ∀ happening ∈ added, happening.thread ≠ t) :
    Course t (history ++ added) standing := by
  induction added generalizing history with
  | nil =>
      rw [List.append_nil]
      exact hcourse
  | cons happening rest ih =>
      have hfirst := hcourse.other (hadded happening List.mem_cons_self)
      have hrest := ih hfirst fun other hother => hadded other (List.mem_cons_of_mem _ hother)
      rw [List.append_assoc] at hrest
      exact hrest

variable [DecidableEq κ]

/-- What a method does between its calls to the parts: no instruction that it issues itself changes
a part, and a call that it makes is one of `calls`. -/
def between (calls : C.Call → κ → C.Cont → Part.Call → Prop) : Protocol C.object Unit where
  rest := ()
  start _ _ := True
  may _ _ instr := ∀ state, (Part.exec instr.2 state).1 = state
  move _ _ _ _ _ := True
  fail _ _ := True
  arrive
    | call, .call part inner cont, _ => calls call part cont inner
    | _, .within _ _ _, _ => False
  leave _ _ _ := True
  finish _ _ _ := True

/-- The methods do nothing to the parts but make the calls of `calls`. -/
structure Delegates (C : Composite Part κ) (calls : C.Call → κ → C.Cont → Part.Call → Prop) :
    Prop where
  enter : ∀ call, (between calls).Obeys call (C.enter call) ()
  resume : ∀ call part cont inner reply, calls call part cont inner →
    (between calls).Obeys call (C.resume part cont reply) ()

variable {calls : C.Call → κ → C.Cont → Part.Call → Prop} {call : C.Call} {part : κ} {cont : C.Cont}
  {state after : κ → Part.State} {code' : C.object.Code}

def Standing.Fits (calls : C.Call → κ → C.Cont → Part.Call → Prop) : Standing C → Prop
  | idle => True
  | outside call code => (between calls).Obeys call code ()
  | within call part inner cont => calls call part cont inner

theorem Course.fits (hdelegates : Delegates C calls) {t : ι} {history : List (Happening C ι)}
    {standing : Standing C} (hcourse : Course t history standing) : standing.Fits calls := by
  induction hcourse with
  | start | respond => trivial
  | other _ _ ih => exact ih
  | invoke call => exact hdelegates.enter call
  | op answer _ ih => exact ih.2 answer () trivial
  | call _ ih => exact ih
  | reply answer _ ih => exact hdelegates.resume _ _ _ _ answer ih

/-! ### Steps of the code -/

theorem stepCode_between {code : C.object.Code} (hbetween : (between calls).Obeys call code ())
    (hstep : C.object.stepCode state code = some (after, code')) :
    after = state ∧ (code' = code ∨
      (∃ instr next answer, code = .op instr next ∧ code' = next answer) ∨
      ∃ part inner cont, code = .ret (.inl (.call part inner cont)) ∧
        code' = C.within part cont (Part.enter inner)) := by
  match code with
  | .ret (.inl (.call part inner cont)) =>
      cases hstep
      exact ⟨rfl, .inr (.inr ⟨part, inner, cont, rfl, rfl⟩)⟩
  | .ret (.inl (.within _ _ _)) => exact hbetween.elim
  | .op instr next =>
      have hsame : (Composite.exec instr state).1 = state := by
        change Function.update state instr.1 (Part.exec instr.2 (state instr.1)).1 = state
        rw [hbetween.1, Function.update_eq_self]
      simp only [Object.stepCode] at hstep
      split at hstep
      · rename_i left answer hexec
        cases hstep
        rw [hexec] at hsame
        exact ⟨hsame, .inr (.inl ⟨instr, next, answer, rfl, rfl⟩)⟩
      · rename_i left hexec
        cases hstep
        rw [hexec] at hsame
        exact ⟨hsame, .inl rfl⟩

theorem stepCode_within {code : Part.Code} (hnot : ∀ reply, code ≠ Part.reply reply)
    (hstep : C.object.stepCode state (C.within part cont code) = some (after, code')) :
    ∃ middle next, Part.stepCode (state part) code = some (middle, next) ∧
      after = Function.update state part middle ∧ code' = C.within part cont next := by
  cases hpart : Part.stepCode (state part) code with
  | some target =>
      obtain ⟨middle, next⟩ := target
      rw [Composite.step_within hpart] at hstep
      cases hstep
      exact ⟨middle, next, rfl, rfl, rfl⟩
  | none =>
      match code with
      | .ret (.inl label) => cases hpart
      | .ret (.inr reply) => exact absurd rfl (hnot reply)
      | .panic message => cases hstep
      | .op instr next =>
          simp only [Object.stepCode] at hpart
          split at hpart <;> cases hpart

omit [DecidableEq κ] in
theorem within_ne_reply {code : Part.Code} (hnot : ∀ reply, code ≠ Part.reply reply)
    {result : C.Reply} : C.within part cont code ≠ .ret (.inr result) := by
  intro heq
  match code with
  | .ret (.inr reply) => exact hnot reply rfl
  | .ret (.inl label) => cases heq
  | .panic message => cases heq
  | .op instr next => cases heq

variable [DecidableEq ι]

/-- What a step can be, seen from the code. -/
theorem Config.step_code_cases {O : Object} {config after : Config O ι} {action : Action O ι}
    (hstep : config.step action = some after) :
    (∃ t call, config.thread t = .idle ∧ after = config.begin t call) ∨
    (∃ t call result, config.thread t = .busy call (O.reply result) ∧
      after = config.finish t call result) ∨
    (∃ t call code state next, config.thread t = .busy call code ∧
      O.stepCode config.state code = some (state, next) ∧ after = config.goOn t call state next) := by
  rcases Config.step_cases hstep with ⟨t, call, -, hidle, rfl⟩ |
    ⟨t, call, result, -, hthread, rfl⟩ | ⟨t, call, label, -, hthread, rfl⟩ |
    ⟨t, call, instr, next, state, answer, -, hat, hexec, rfl⟩ |
    ⟨t, call, instr, next, state, -, hat, hexec, rfl⟩
  · exact .inl ⟨t, call, hidle, rfl⟩
  · exact .inr (.inl ⟨t, call, result, hthread, rfl⟩)
  · exact .inr (.inr ⟨t, call, _, _, _, hthread, rfl, rfl⟩)
  · refine .inr (.inr ⟨t, call, _, _, _, hat, ?_, rfl⟩)
    simp only [Object.stepCode, hexec]
  · refine .inr (.inr ⟨t, call, _, _, _, hat, ?_, rfl⟩)
    simp only [Object.stepCode, hexec]

theorem tick_stepCode {O : Object} {config : Config O ι} {t : ι} {call : O.Call}
    {code next : O.Code} {after : O.State} (hthread : config.thread t = .busy call code)
    (hstep : O.stepCode config.state code = some (after, next)) :
    (O.threads ι).step config (.tick t) = some (config.goOn t call after next) := by
  match code with
  | .ret (.inr reply) => cases hstep
  | .ret (.inl label) => simp only [Object.threads, Config.step, hthread, hstep, Option.map_some]
  | .op instr rest => simp only [Object.threads, Config.step, hthread, hstep, Option.map_some]

/-! ### The runs of the parts -/

/-- What a thread of the object does in the parts. -/
inductive Stands (inside : κ → Thread Part) : Thread C.object → Standing C → Prop
  | idle : (∀ part, inside part = .idle) → Stands inside .idle .idle
  | outside {call : C.Call} {code : C.object.Code} :
      (∀ part, inside part = .idle) → Stands inside (.busy call code) (.outside call code)
  | within {call : C.Call} {part : κ} {inner : Part.Call} {cont : C.Cont} {code : Part.Code} :
      inside part = .busy inner code → (∀ other, other ≠ part → inside other = .idle) →
      Stands inside (.busy call (C.within part cont code)) (.within call part inner cont)

/-- The calls that the methods make to the part. -/
def CallsTo (calls : C.Call → κ → C.Cont → Part.Call → Prop) (part : κ) (inner : Part.Call) : Prop :=
  ∃ call cont, calls call part cont inner

/-- The runs `inside` of the parts belong to the run of the object, and `history` is their histories
woven into that of the object. -/
structure Woven (calls : C.Call → κ → C.Cont → Part.Call → Prop) (start : κ → Part.State)
    (config : Config C.object ι) (inside : κ → Config Part ι) (history : List (Happening C ι)) :
    Prop where
  runs : ∀ part, (Part.threads ι).Reach (OnlyCalls (CallsTo calls part)) (.initial (start part))
    (inside part)
  state : ∀ part, (inside part).state = config.state part
  outer : history.filterMap Happening.outer? = config.history
  inner : ∀ part, history.filterMap (Happening.inner? part) = (inside part).history
  threads : ∀ t, ∃ standing, Course t history standing ∧
    Stands (fun part => (inside part).thread t) (config.thread t) standing

namespace Woven

variable {start : κ → Part.State} {config after' : Config C.object ι} {inside : κ → Config Part ι}
  {history added : List (Happening C ι)} {t : ι}

theorem initial : Woven calls start (.initial start : Config C.object ι)
    (fun part => .initial (start part)) [] where
  runs _ := .start
  state _ := rfl
  outer := rfl
  inner _ := rfl
  threads _ := ⟨.idle, .start, .idle fun _ => rfl⟩

/-- The thread `t` goes on, and the others stay where they are. -/
theorem extend (hwoven : Woven calls start config inside history) {inside' : κ → Config Part ι}
    (hruns : ∀ part, (Part.threads ι).Reach (OnlyCalls (CallsTo calls part)) (inside part)
      (inside' part))
    (hstate : ∀ part, (inside' part).state = after'.state part)
    (houter : after'.history = config.history ++ added.filterMap Happening.outer?)
    (hinner : ∀ part, (inside' part).history =
      (inside part).history ++ added.filterMap (Happening.inner? part))
    (hadded : ∀ happening ∈ added, happening.thread = t)
    (hothers : ∀ u, u ≠ t → after'.thread u = config.thread u)
    (hinside : ∀ u, u ≠ t → ∀ part, (inside' part).thread u = (inside part).thread u)
    (ht : ∃ standing, Course t (history ++ added) standing ∧
      Stands (fun part => (inside' part).thread t) (after'.thread t) standing) :
    Woven calls start after' inside' (history ++ added) where
  runs part := (hwoven.runs part).trans (hruns part)
  state := hstate
  outer := by
    rw [List.filterMap_append, hwoven.outer, houter]
  inner := by
    intro part
    rw [List.filterMap_append, hwoven.inner, hinner]
  threads := by
    intro u
    by_cases hut : u = t
    · rw [hut]
      exact ht
    · obtain ⟨standing, hcourse, hstands⟩ := hwoven.threads u
      refine ⟨standing, hcourse.others ?_, ?_⟩
      · intro happening hmem heq
        exact hut (heq.symm.trans (hadded happening hmem))
      · rw [hothers u hut, funext (hinside u hut)]
        exact hstands

/-- The parts stay as they are. -/
theorem stay (hwoven : Woven calls start config inside history)
    (hstate : after'.state = config.state)
    (houter : after'.history = config.history ++ added.filterMap Happening.outer?)
    (hinner : ∀ part, added.filterMap (Happening.inner? part) = [])
    (hadded : ∀ happening ∈ added, happening.thread = t)
    (hothers : ∀ u, u ≠ t → after'.thread u = config.thread u)
    (ht : ∃ standing, Course t (history ++ added) standing ∧
      Stands (fun part => (inside part).thread t) (after'.thread t) standing) :
    Woven calls start after' inside (history ++ added) := by
  refine hwoven.extend (fun _ => .start) ?_ houter ?_ hadded hothers (fun _ _ _ => rfl) ht
  · intro part
    rw [hstate]
    exact hwoven.state part
  · intro part
    rw [hinner, List.append_nil]

/-- One part takes a step. -/
theorem move (hwoven : Woven calls start config inside history) {target : Config Part ι}
    {action : Action Part ι} (hcond : OnlyCalls (CallsTo calls part) (inside part) action)
    (hstep : (Part.threads ι).step (inside part) action = some target)
    (hstate : after'.state = Function.update config.state part target.state)
    (houter : after'.history = config.history ++ added.filterMap Happening.outer?)
    (hinner : target.history = (inside part).history ++ added.filterMap (Happening.inner? part))
    (hnone : ∀ other, other ≠ part → added.filterMap (Happening.inner? other) = [])
    (hadded : ∀ happening ∈ added, happening.thread = t)
    (hothers : ∀ u, u ≠ t → after'.thread u = config.thread u)
    (htarget : ∀ u, u ≠ t → target.thread u = (inside part).thread u)
    (ht : ∃ standing, Course t (history ++ added) standing ∧
      Stands (Function.update (fun other => (inside other).thread t) part (target.thread t))
        (after'.thread t) standing) :
    Woven calls start after' (Function.update inside part target) (history ++ added) := by
  have hself : Function.update inside part target part = target := Function.update_self ..
  have hother : ∀ other, other ≠ part →
      Function.update inside part target other = inside other := fun other hne =>
    Function.update_of_ne hne ..
  refine hwoven.extend ?_ ?_ houter ?_ hadded hothers ?_ ?_
  · intro other
    by_cases hne : other = part
    · rw [hne, hself]
      exact .step .start hcond hstep
    · rw [hother other hne]
      exact .start
  · intro other
    rw [hstate]
    by_cases hne : other = part
    · rw [hne, hself, Function.update_self]
    · rw [hother other hne, Function.update_of_ne hne]
      exact hwoven.state other
  · intro other
    by_cases hne : other = part
    · rw [hne, hself, hinner]
    · rw [hother other hne, hnone other hne, List.append_nil]
  · intro u hut other
    by_cases hne : other = part
    · rw [hne, hself]
      exact htarget u hut
    · rw [hother other hne]
  · have hthreads : (fun other => (Function.update inside part target other).thread t) =
        Function.update (fun other => (inside other).thread t) part (target.thread t) := by
      funext other
      by_cases hne : other = part
      · rw [hne, hself, Function.update_self]
      · rw [hother other hne, Function.update_of_ne hne]
    rw [hthreads]
    exact ht

/-! ### Steps -/

theorem invoke (hwoven : Woven calls start config inside history) (hidle : config.thread t = .idle)
    (call : C.Call) :
    Woven calls start (config.begin t call) inside (history ++ [.outer (.invoke t call)]) := by
  obtain ⟨standing, hcourse, hstands⟩ := hwoven.threads t
  rw [hidle] at hstands
  cases hstands with
  | idle hinside =>
      refine hwoven.stay rfl rfl (fun _ => rfl) ?_ (fun u hut => Function.update_of_ne hut ..) ?_
      · intro happening hmem
        rw [List.mem_singleton.mp hmem]
        rfl
      · refine ⟨_, hcourse.invoke call, ?_⟩
        have hthread : (config.begin t call).thread t = .busy call (C.enter call) :=
          Function.update_self ..
        rw [hthread]
        exact .outside hinside

theorem respond (hwoven : Woven calls start config inside history) {result : C.Reply}
    (hcourse : Course t history (.outside call (.ret (.inr result))))
    (hinside : ∀ part, (inside part).thread t = .idle) :
    Woven calls start (config.finish t call result) inside
      (history ++ [.outer (.respond t call result)]) := by
  refine hwoven.stay rfl rfl (fun _ => rfl) ?_ (fun u hut => Function.update_of_ne hut ..) ?_
  · intro happening hmem
    rw [List.mem_singleton.mp hmem]
    rfl
  · refine ⟨_, hcourse.respond, ?_⟩
    have hthread : (config.finish t call result).thread t = .idle := Function.update_self ..
    rw [hthread]
    exact .idle hinside

/-- The thread executes code of its method. -/
theorem goOn_outside (hwoven : Woven calls start config inside history) {code : C.object.Code}
    (hcourse : Course t history (.outside call code))
    (hinside : ∀ part, (inside part).thread t = .idle) :
    Woven calls start (config.goOn t call config.state code) inside history := by
  rw [← List.append_nil history]
  refine hwoven.stay rfl ?_ (fun _ => rfl) ?_ (fun u hut => Function.update_of_ne hut ..) ?_
  · rw [List.filterMap_nil, List.append_nil]
    rfl
  · intro happening hmem
    cases hmem
  · rw [List.append_nil]
    refine ⟨_, hcourse, ?_⟩
    have hthread : (config.goOn t call config.state code).thread t = .busy call code :=
      Function.update_self ..
    rw [hthread]
    exact .outside hinside

/-- The thread is in no part but `part`. -/
theorem only_update {threads : κ → Thread Part} (hothers : ∀ other, other ≠ part →
    threads other = .idle) (thread : Thread Part) :
    ∀ other, other ≠ part → Function.update threads part thread other = .idle := by
  intro other hne
  rw [Function.update_of_ne hne]
  exact hothers other hne

/-- The method calls a part. -/
theorem callPart (hdelegates : Delegates C calls) (hwoven : Woven calls start config inside history)
    {inner : Part.Call} (hcourse : Course t history (.outside call (.ret (.inl (.call part inner cont)))))
    (hinside : ∀ part, (inside part).thread t = .idle) :
    Woven calls start
      (config.goOn t call config.state (C.within part cont (Part.enter inner)))
      (Function.update inside part ((inside part).begin t inner))
      (history ++ [.inner part (.invoke t inner)]) := by
  have hbegin : (Part.threads ι).step (inside part) (.invoke t inner) =
      some ((inside part).begin t inner) := by
    simp only [Object.threads, Config.step, hinside part]
  have hcond : OnlyCalls (CallsTo calls part) (inside part) (.invoke t inner) :=
    ⟨call, cont, hcourse.fits hdelegates⟩
  refine hwoven.move hcond hbegin ?_ ?_ ?_ (fun _ => Happening.filterMap_of_ne _) ?_
    (fun u hut => Function.update_of_ne hut ..) (fun u hut => Function.update_of_ne hut ..) ?_
  · have hsame : ((inside part).begin t inner).state = config.state part := hwoven.state part
    rw [hsame, Function.update_eq_self]
    rfl
  · exact (List.append_nil _).symm
  · rw [Happening.filterMap_self]
    rfl
  · intro happening hmem
    rw [List.mem_singleton.mp hmem]
    rfl
  · refine ⟨_, hcourse.call, ?_⟩
    have hthread : (config.goOn t call config.state (C.within part cont (Part.enter inner))).thread t =
        .busy call (C.within part cont (Part.enter inner)) := Function.update_self ..
    rw [hthread]
    refine .within ?_ (only_update (fun other _ => hinside other) _)
    rw [Function.update_self]
    exact Function.update_self ..

/-- The part that the method has called takes a step. -/
theorem goOn_within (hwoven : Woven calls start config inside history) {inner : Part.Call}
    {code next : Part.Code} {middle : Part.State}
    (hcourse : Course t history (.within call part inner cont))
    (hthread : (inside part).thread t = .busy inner code)
    (hothers : ∀ other, other ≠ part → (inside other).thread t = .idle)
    (hstep : Part.stepCode (config.state part) code = some (middle, next)) :
    Woven calls start
      (config.goOn t call (Function.update config.state part middle) (C.within part cont next))
      (Function.update inside part ((inside part).goOn t inner middle next)) history := by
  rw [← hwoven.state part] at hstep
  have hcond : OnlyCalls (CallsTo calls part) (inside part) (.tick t) := trivial
  rw [← List.append_nil history]
  refine hwoven.move hcond (tick_stepCode hthread hstep) rfl ?_ ?_ (fun _ _ => rfl) ?_
    (fun u hut => Function.update_of_ne hut ..) (fun u hut => Function.update_of_ne hut ..) ?_
  · rw [List.filterMap_nil, List.append_nil]
    rfl
  · rw [List.filterMap_nil, List.append_nil]
    rfl
  · intro happening hmem
    cases hmem
  · rw [List.append_nil]
    refine ⟨_, hcourse, ?_⟩
    have hafter : (config.goOn t call (Function.update config.state part middle)
        (C.within part cont next)).thread t = .busy call (C.within part cont next) :=
      Function.update_self ..
    rw [hafter]
    refine .within ?_ (only_update hothers _)
    rw [Function.update_self]
    exact Function.update_self ..

/-- The part has replied, and the method goes on. -/
theorem reply (hwoven : Woven calls start config inside history) {inner : Part.Call}
    {answer : Part.Reply} (hcourse : Course t history (.within call part inner cont))
    (hthread : (inside part).thread t = .busy inner (Part.reply answer))
    (hothers : ∀ other, other ≠ part → (inside other).thread t = .idle)
    (hconfig : config.thread t = .busy call (C.resume part cont answer)) :
    Woven calls start config (Function.update inside part ((inside part).finish t inner answer))
      (history ++ [.inner part (.respond t inner answer)]) := by
  have hcond : OnlyCalls (CallsTo calls part) (inside part) (.tick t) := trivial
  refine hwoven.move hcond (tick_reply hthread) ?_ ?_ ?_ (fun _ => Happening.filterMap_of_ne _) ?_
    (fun _ _ => rfl) (fun u hut => Function.update_of_ne hut ..) ?_
  · have hsame : ((inside part).finish t inner answer).state = config.state part := hwoven.state part
    rw [hsame, Function.update_eq_self]
  · exact (List.append_nil _).symm
  · rw [Happening.filterMap_self]
    rfl
  · intro happening hmem
    rw [List.mem_singleton.mp hmem]
    rfl
  · refine ⟨_, hcourse.reply answer, ?_⟩
    rw [hconfig]
    refine .outside fun other => ?_
    by_cases hne : other = part
    · rw [hne, Function.update_self]
      exact Function.update_self ..
    · exact only_update hothers _ other hne

/-- A thread in a call stands outside the parts, or in a part that goes on. -/
theorem settle (hwoven : Woven calls start config inside history) {code : C.object.Code}
    (hthread : config.thread t = .busy call code) :
    ∃ inside' history', Woven calls start config inside' history' ∧
      ((Course t history' (.outside call code) ∧ ∀ part, (inside' part).thread t = .idle) ∨
      ∃ part inner cont code', code = C.within part cont code' ∧
        (∀ answer, code' ≠ Part.reply answer) ∧
        Course t history' (.within call part inner cont) ∧
        (inside' part).thread t = .busy inner code' ∧
        ∀ other, other ≠ part → (inside' other).thread t = .idle) := by
  obtain ⟨standing, hcourse, hstands⟩ := hwoven.threads t
  generalize hbusy : config.thread t = thread at hstands
  cases hstands with
  | idle => exact absurd (hbusy.symm.trans hthread) (by rintro ⟨⟩)
  | outside hinside =>
      cases hbusy.symm.trans hthread
      exact ⟨inside, history, hwoven, .inl ⟨hcourse, hinside⟩⟩
  | @within _ part inner cont code' hpart hothers =>
      obtain ⟨rfl, rfl⟩ := Thread.busy.inj (hbusy.symm.trans hthread)
      by_cases hreply : ∃ answer, code' = Part.reply answer
      · obtain ⟨answer, rfl⟩ := hreply
        refine ⟨_, _, hwoven.reply hcourse hpart hothers hthread, .inl ⟨hcourse.reply answer, ?_⟩⟩
        intro other
        by_cases hne : other = part
        · rw [hne, Function.update_self]
          exact Function.update_self ..
        · rw [Function.update_of_ne hne]
          exact hothers other hne
      · exact ⟨inside, history, hwoven, .inr ⟨part, inner, cont, code', rfl,
          fun answer heq => hreply ⟨answer, heq⟩, hcourse, hpart, hothers⟩⟩

theorem step (hdelegates : Delegates C calls) (hwoven : Woven calls start config inside history)
    {action : Action C.object ι} (hstep : config.step action = some after') :
    ∃ inside' history', Woven calls start after' inside' history' := by
  rcases Config.step_code_cases hstep with ⟨t, call, hidle, rfl⟩ | ⟨t, call, result, hthread, rfl⟩ |
    ⟨t, call, code, state, next, hthread, hcode, rfl⟩
  · exact ⟨_, _, hwoven.invoke hidle call⟩
  · obtain ⟨inside', history', hwoven', ⟨hcourse, hinside⟩ |
      ⟨part, inner, cont, code', hwithin, hnot, -⟩⟩ := hwoven.settle hthread
    · exact ⟨_, _, hwoven'.respond hcourse hinside⟩
    · exact absurd hwithin.symm (within_ne_reply hnot)
  · obtain ⟨inside', history', hwoven', ⟨hcourse, hinside⟩ |
      ⟨part, inner, cont, code', rfl, hnot, hcourse, hpart, hothers⟩⟩ := hwoven.settle hthread
    · obtain ⟨rfl, rfl | ⟨instr, rest, answer, rfl, rfl⟩ | ⟨part, inner, cont, rfl, rfl⟩⟩ :=
        stepCode_between (hcourse.fits hdelegates) hcode
      · exact ⟨_, _, hwoven'.goOn_outside hcourse hinside⟩
      · exact ⟨_, _, hwoven'.goOn_outside (hcourse.op answer) hinside⟩
      · exact ⟨_, _, hwoven'.callPart hdelegates hcourse hinside⟩
    · obtain ⟨middle, next', hpartStep, rfl, rfl⟩ := stepCode_within hnot hcode
      exact ⟨_, _, hwoven'.goOn_within hcourse hpart hothers hpartStep⟩

end Woven

/-- **Weaving.** In every run of an object that delegates, the parts go through runs of their own,
whose histories can be woven into that of the object. -/
theorem weave (hdelegates : Delegates C calls) {start : κ → Part.State}
    {cond : Config C.object ι → Action C.object ι → Prop} {config : Config C.object ι}
    (hreach : (C.object.threads ι).Reach cond (.initial start) config) :
    ∃ inside history, Woven calls start config inside history := by
  refine hreach.invariant (I := fun config => ∃ inside history, Woven calls start config inside
    history) ⟨_, _, .initial⟩ ?_
  rintro config action after ⟨inside, history, hwoven⟩ - hstep
  exact hwoven.step hdelegates hstep

end Concurrency
