import Mutual.Concurrency.Interleaving

/-!
# Linearizability

A history is linearizable if its calls can be put into one order that is an execution of a
sequential specification, in which every call that has returned has the result it has returned, and
which respects the order of calls that do not overlap. Calls that have not returned may take part in
the order or not. A call is identified by the position of its invocation in the history.

The usual argument gives each call a point between its invocation and its return at which it takes
effect. `Pointed` is what holds of a history and of the calls that have had their points; its lemmas
are the three things that happen: a call is invoked, a call takes effect, a call returns.
-/

namespace Concurrency

variable {ι C R A : Type}

def Event.thread : Event ι C R → ι
  | .invoke thread _ => thread
  | .respond thread _ _ => thread

/-- The call invoked at `invoked` is the one `t` has made last. -/
def Latest (history : List (Event ι C R)) (t : ι) (invoked : Nat) (call : C) : Prop :=
  history[invoked]? = some (.invoke t call) ∧
    ∀ k event, invoked < k → history[k]? = some event → event.thread ≠ t

/-- The call invoked at `invoked` returns `result` at `returned`. -/
def Returns (history : List (Event ι C R)) (invoked returned : Nat) (call : C) (result : R) : Prop :=
  ∃ t, history[returned]? = some (.respond t call result) ∧ invoked < returned ∧
    Latest (history.take returned) t invoked call

structure Entry (C R : Type) where
  invoked : Nat
  call : C
  result : R

inductive Sequential (spec : A → C → R → A → Prop) : A → List (Entry C R) → A → Prop
  | nil {a : A} : Sequential spec a [] a
  | concat {a b c : A} {order : List (Entry C R)} {entry : Entry C R} :
      Sequential spec a order b → spec b entry.call entry.result c →
      Sequential spec a (order ++ [entry]) c

/-- `order` is a linearization of `history` that leads the specification from `start` to `final`. -/
structure Linearization (spec : A → C → R → A → Prop) (start : A) (history : List (Event ι C R))
    (order : List (Entry C R)) (final : A) : Prop where
  nodup : (order.map Entry.invoked).Nodup
  invoked : ∀ entry ∈ order, ∃ t, history[entry.invoked]? = some (.invoke t entry.call)
  complete : ∀ invoked returned call result, Returns history invoked returned call result →
    ⟨invoked, call, result⟩ ∈ order
  sequential : Sequential spec start order final
  /-- A call that returns before another is invoked comes before it. -/
  respects : ∀ invoked returned call result, Returns history invoked returned call result →
    ∀ later ∈ order, returned < later.invoked →
    ∃ before between after, order = before ++ ⟨invoked, call, result⟩ :: between ++ later :: after

/-- Where a thread stands in the call it is in. -/
inductive Phase (C R : Type) where
  | idle
  | called (call : C)
  | effective (call : C) (result : R)

structure Pointed (spec : A → C → R → A → Prop) (start : A) (history : List (Event ι C R))
    (phase : ι → Phase C R) (order : List (Entry C R)) (final : A) : Prop where
  linearization : Linearization spec start history order final
  called : ∀ t call, phase t = .called call →
    ∃ invoked, Latest history t invoked call ∧ ∀ entry ∈ order, entry.invoked ≠ invoked
  effective : ∀ t call result, phase t = .effective call result →
    ∃ invoked, Latest history t invoked call ∧ ⟨invoked, call, result⟩ ∈ order

section Histories

variable {history : List (Event ι C R)} {t : ι} {invoked returned : Nat} {call : C} {result : R}

theorem Latest.lt_length (hlatest : Latest history t invoked call) : invoked < history.length := by
  obtain ⟨hlt, -⟩ := List.getElem?_eq_some_iff.mp hlatest.1
  exact hlt

theorem Latest.unique {invoked' : Nat} {call' : C} (hlatest : Latest history t invoked call)
    (hlatest' : Latest history t invoked' call') : invoked = invoked' ∧ call = call' := by
  have hle : ∀ {m n : Nat} {c c' : C}, Latest history t m c → Latest history t n c' → n ≤ m := by
    intro m n c c' hm hn
    by_contra hlt
    exact hm.2 n _ (Nat.lt_of_not_le hlt) hn.1 rfl
  obtain rfl := Nat.le_antisymm (hle hlatest' hlatest) (hle hlatest hlatest')
  have hsame := hlatest.1.symm.trans hlatest'.1
  cases hsame
  exact ⟨rfl, rfl⟩

theorem Latest.append {event : Event ι C R} (hlatest : Latest history t invoked call)
    (hother : event.thread ≠ t) : Latest (history ++ [event]) t invoked call := by
  refine ⟨?_, fun k event' hlt hk => ?_⟩
  · rw [List.getElem?_append_left hlatest.lt_length]
    exact hlatest.1
  · by_cases hlast : k < history.length
    · rw [List.getElem?_append_left hlast] at hk
      exact hlatest.2 k event' hlt hk
    · rw [List.getElem?_append_right (Nat.le_of_not_lt hlast)] at hk
      have hmem := List.mem_of_getElem? hk
      rw [List.mem_singleton] at hmem
      rw [hmem]
      exact hother

theorem Latest.of_append {event : Event ι C R}
    (hlatest : Latest (history ++ [event]) t invoked call) :
    (event = .invoke t call ∧ invoked = history.length) ∨
      (event.thread ≠ t ∧ Latest history t invoked call) := by
  obtain ⟨hinvoked, hnone⟩ := hlatest
  by_cases hlast : invoked < history.length
  · rw [List.getElem?_append_left hlast] at hinvoked
    refine .inr ⟨hnone history.length event hlast (by simp), hinvoked, fun k event' hlt hk => ?_⟩
    obtain ⟨hbound, -⟩ := List.getElem?_eq_some_iff.mp hk
    exact hnone k event' hlt (by rw [List.getElem?_append_left hbound, hk])
  · rw [List.getElem?_append_right (Nat.le_of_not_lt hlast)] at hinvoked
    obtain ⟨hbound, hevent⟩ := List.getElem?_eq_some_iff.mp hinvoked
    rw [List.length_singleton] at hbound
    refine .inl ⟨by simpa using hevent, ?_⟩
    omega

theorem Latest.mem (hlatest : Latest history t invoked call) : Event.invoke t call ∈ history :=
  List.mem_of_getElem? hlatest.1

theorem latest_invoke : Latest (history ++ [.invoke t call]) t history.length call := by
  refine ⟨by simp, fun k event hlt hk => ?_⟩
  obtain ⟨hlength, -⟩ := List.getElem?_eq_some_iff.mp hk
  rw [List.length_append, List.length_singleton] at hlength
  omega

theorem Returns.lt_length (hreturns : Returns history invoked returned call result) :
    returned < history.length := by
  obtain ⟨t, hresponse, -, -⟩ := hreturns
  obtain ⟨hlt, -⟩ := List.getElem?_eq_some_iff.mp hresponse
  exact hlt

theorem Returns.of_append {event : Event ι C R}
    (hreturns : Returns (history ++ [event]) invoked returned call result) :
    Returns history invoked returned call result ∨
      ∃ t, event = .respond t call result ∧ returned = history.length ∧
        Latest history t invoked call := by
  obtain ⟨t, hresponse, hlt, hlatest⟩ := hreturns
  by_cases hlast : returned < history.length
  · rw [List.getElem?_append_left hlast] at hresponse
    rw [List.take_append_of_le_length (Nat.le_of_lt hlast)] at hlatest
    exact .inl ⟨t, hresponse, hlt, hlatest⟩
  · have hlength : returned = history.length := by
      obtain ⟨hbound, -⟩ := List.getElem?_eq_some_iff.mp hresponse
      rw [List.length_append, List.length_singleton] at hbound
      omega
    subst hlength
    rw [List.getElem?_append_right (Nat.le_refl _), Nat.sub_self, List.getElem?_cons_zero,
      Option.some.injEq] at hresponse
    rw [List.take_left] at hlatest
    exact .inr ⟨t, hresponse, rfl, hlatest⟩

theorem Returns.append (hreturns : Returns history invoked returned call result)
    (event : Event ι C R) : Returns (history ++ [event]) invoked returned call result := by
  have hlength := hreturns.lt_length
  obtain ⟨t, hresponse, hlt, hlatest⟩ := hreturns
  refine ⟨t, ?_, hlt, ?_⟩
  · rw [List.getElem?_append_left hlength, hresponse]
  · rw [List.take_append_of_le_length (Nat.le_of_lt hlength)]
    exact hlatest

end Histories

section Pending

variable {O : Object} [DecidableEq ι]

/-- A thread that is busy is in the call it has made last. -/
def Config.Pending (config : Config O ι) : Prop :=
  ∀ t call code, config.thread t = .busy call code → ∃ invoked, Latest config.history t invoked call

omit [DecidableEq ι] in
theorem Config.pending_initial (state : O.State) : (Config.initial (ι := ι) state).Pending := by
  rintro t call code ⟨⟩

theorem Config.Pending.goOn {config : Config O ι} (hpending : config.Pending) {t : ι} {call : O.Call}
    {code : O.Code} (hthread : config.thread t = .busy call code) (state : O.State) (code' : O.Code) :
    (config.goOn t call state code').Pending := by
  intro u call' code'' hu
  change Function.update config.thread t _ u = _ at hu
  by_cases hut : u = t
  · subst hut
    rw [Function.update_self] at hu
    cases hu
    exact hpending u call code hthread
  · rw [Function.update_of_ne hut] at hu
    exact hpending u call' code'' hu

theorem Config.Pending.step {config after : Config O ι} (hpending : config.Pending)
    {action : Action O ι} (hstep : config.step action = some after) : after.Pending := by
  rcases Config.step_cases hstep with ⟨t, call, rfl, hidle, rfl⟩ |
    ⟨t, call, result, rfl, hthread, rfl⟩ | ⟨t, call, label, rfl, hthread, rfl⟩ |
    ⟨t, call, instr, next, state, answer, rfl, hat, hexec, rfl⟩ |
    ⟨t, call, instr, next, state, rfl, hat, hexec, rfl⟩
  · intro u call' code hu
    change Function.update config.thread t _ u = _ at hu
    by_cases hut : u = t
    · subst hut
      rw [Function.update_self] at hu
      cases hu
      exact ⟨_, latest_invoke⟩
    · rw [Function.update_of_ne hut] at hu
      obtain ⟨invoked, hlatest⟩ := hpending u call' code hu
      exact ⟨invoked, hlatest.append (Ne.symm hut)⟩
  · intro u call' code hu
    change Function.update config.thread t _ u = _ at hu
    have hut : u ≠ t := by
      rintro rfl
      rw [Function.update_self] at hu
      cases hu
    rw [Function.update_of_ne hut] at hu
    obtain ⟨invoked, hlatest⟩ := hpending u call' code hu
    exact ⟨invoked, hlatest.append (Ne.symm hut)⟩
  · exact hpending.goOn hthread _ _
  · exact hpending.goOn hat _ _
  · exact hpending.goOn hat _ _

end Pending

namespace Linearization

variable {spec : A → C → R → A → Prop} {start final : A} {history : List (Event ι C R)}
  {order : List (Entry C R)} {t : ι} {call : C} {result : R}

theorem nil : Linearization spec start ([] : List (Event ι C R)) [] start where
  nodup := List.nodup_nil
  invoked := by simp
  complete := by
    intro invoked returned call result hreturns
    exact absurd hreturns.lt_length (Nat.not_lt_zero _)
  sequential := .nil
  respects := by simp

theorem invoked_lt (hlin : Linearization spec start history order final) {entry : Entry C R}
    (hentry : entry ∈ order) : entry.invoked < history.length := by
  obtain ⟨t, hinvoked⟩ := hlin.invoked entry hentry
  obtain ⟨hlt, -⟩ := List.getElem?_eq_some_iff.mp hinvoked
  exact hlt

theorem append (hlin : Linearization spec start history order final) {event : Event ι C R}
    (hreturn : ∀ t invoked call result, event = .respond t call result →
      Latest history t invoked call → ⟨invoked, call, result⟩ ∈ order) :
    Linearization spec start (history ++ [event]) order final where
  nodup := hlin.nodup
  invoked := by
    intro entry hentry
    obtain ⟨t, hinvoked⟩ := hlin.invoked entry hentry
    refine ⟨t, ?_⟩
    rw [List.getElem?_append_left (hlin.invoked_lt hentry)]
    exact hinvoked
  complete := by
    intro invoked returned call result hreturns
    rcases hreturns.of_append with hold | ⟨t, hevent, -, hlatest⟩
    · exact hlin.complete invoked returned call result hold
    · exact hreturn t invoked call result hevent hlatest
  sequential := hlin.sequential
  respects := by
    intro invoked returned call result hreturns later hlater hlt
    rcases hreturns.of_append with hold | ⟨t, -, rfl, -⟩
    · exact hlin.respects invoked returned call result hold later hlater hlt
    · exact absurd (hlin.invoked_lt hlater) (Nat.not_lt_of_lt hlt)

theorem concat (hlin : Linearization spec start history order final) {invoked : Nat} {after : A}
    (hlatest : Latest history t invoked call)
    (hnew : ∀ entry ∈ order, entry.invoked ≠ invoked) (hspec : spec final call result after) :
    Linearization spec start history (order ++ [⟨invoked, call, result⟩]) after where
  nodup := by
    rw [List.map_append, List.nodup_append]
    refine ⟨hlin.nodup, List.nodup_singleton _, ?_⟩
    intro m hm n hn
    obtain ⟨entry, hentry, rfl⟩ := List.mem_map.mp hm
    rw [List.map_singleton, List.mem_singleton] at hn
    rw [hn]
    exact hnew entry hentry
  invoked := by
    intro entry hentry
    rcases List.mem_append.mp hentry with hold | hlast
    · exact hlin.invoked entry hold
    · rw [List.mem_singleton.mp hlast]
      exact ⟨t, hlatest.1⟩
  complete := by
    intro invoked' returned call' result' hreturns
    exact List.mem_append_left _ (hlin.complete invoked' returned call' result' hreturns)
  sequential := .concat hlin.sequential hspec
  respects := by
    intro invoked' returned call' result' hreturns later hlater hlt
    rcases List.mem_append.mp hlater with hold | hlast
    · obtain ⟨before, between, after, horder⟩ :=
        hlin.respects invoked' returned call' result' hreturns later hold hlt
      refine ⟨before, between, after ++ [⟨invoked, call, result⟩], ?_⟩
      rw [horder]
      simp
    · obtain ⟨before, between, horder⟩ :=
        List.append_of_mem (hlin.complete invoked' returned call' result' hreturns)
      refine ⟨before, between, [], ?_⟩
      rw [List.mem_singleton.mp hlast, horder]

end Linearization

namespace Pointed

variable [DecidableEq ι] {spec : A → C → R → A → Prop} {start final : A}
  {history : List (Event ι C R)} {phase : ι → Phase C R} {order : List (Entry C R)} {t : ι}
  {call : C} {result : R}

omit [DecidableEq ι] in
theorem nil : Pointed spec start ([] : List (Event ι C R)) (fun _ => .idle) [] start where
  linearization := .nil
  called := by
    rintro t call ⟨⟩
  effective := by
    rintro t call result ⟨⟩

theorem invoke (hpointed : Pointed spec start history phase order final) :
    Pointed spec start (history ++ [.invoke t call]) (Function.update phase t (.called call)) order
      final where
  linearization := hpointed.linearization.append (by rintro _ _ _ _ ⟨⟩)
  called := by
    intro u call' hu
    by_cases hut : u = t
    · subst hut
      rw [Function.update_self] at hu
      cases hu
      refine ⟨history.length, latest_invoke, fun entry hentry => ?_⟩
      exact Nat.ne_of_lt (hpointed.linearization.invoked_lt hentry)
    · rw [Function.update_of_ne hut] at hu
      obtain ⟨invoked, hlatest, hnew⟩ := hpointed.called u call' hu
      exact ⟨invoked, hlatest.append (Ne.symm hut), hnew⟩
  effective := by
    intro u call' result hu
    by_cases hut : u = t
    · rw [hut, Function.update_self] at hu
      cases hu
    · rw [Function.update_of_ne hut] at hu
      obtain ⟨invoked, hlatest, hmem⟩ := hpointed.effective u call' result hu
      exact ⟨invoked, hlatest.append (Ne.symm hut), hmem⟩

theorem point (hpointed : Pointed spec start history phase order final)
    (hcalled : phase t = .called call) {after : A} (hspec : spec final call result after) :
    ∃ entry, Pointed spec start history (Function.update phase t (.effective call result))
      (order ++ [entry]) after := by
  obtain ⟨invoked, hlatest, hnew⟩ := hpointed.called t call hcalled
  refine ⟨⟨invoked, call, result⟩, hpointed.linearization.concat hlatest hnew hspec, ?_, ?_⟩
  · intro u call' hu
    have hut : u ≠ t := by
      rintro rfl
      rw [Function.update_self] at hu
      cases hu
    rw [Function.update_of_ne hut] at hu
    obtain ⟨invoked', hlatest', hnew'⟩ := hpointed.called u call' hu
    refine ⟨invoked', hlatest', fun entry hentry => ?_⟩
    rcases List.mem_append.mp hentry with hold | hlast
    · exact hnew' entry hold
    · rw [List.mem_singleton.mp hlast]
      rintro rfl
      -- the two calls would be one, made by two threads
      have hsame := hlatest.1.symm.trans hlatest'.1
      cases hsame
      exact hut rfl
  · intro u call' result' hu
    by_cases hut : u = t
    · subst hut
      rw [Function.update_self] at hu
      cases hu
      exact ⟨invoked, hlatest, List.mem_append_right _ (List.mem_singleton_self _)⟩
    · rw [Function.update_of_ne hut] at hu
      obtain ⟨invoked', hlatest', hmem⟩ := hpointed.effective u call' result' hu
      exact ⟨invoked', hlatest', List.mem_append_left _ hmem⟩

theorem respond (hpointed : Pointed spec start history phase order final)
    (heffective : phase t = .effective call result) :
    Pointed spec start (history ++ [.respond t call result]) (Function.update phase t .idle) order
      final := by
  obtain ⟨invoked, hlatest, hmem⟩ := hpointed.effective t call result heffective
  refine ⟨hpointed.linearization.append ?_, ?_, ?_⟩
  · rintro u invoked' call' result' heq hlatest'
    cases heq
    obtain ⟨rfl, -⟩ := hlatest.unique hlatest'
    exact hmem
  · intro u call' hu
    have hut : u ≠ t := by
      rintro rfl
      rw [Function.update_self] at hu
      cases hu
    rw [Function.update_of_ne hut] at hu
    obtain ⟨invoked', hlatest', hnew⟩ := hpointed.called u call' hu
    exact ⟨invoked', hlatest'.append (Ne.symm hut), hnew⟩
  · intro u call' result' hu
    have hut : u ≠ t := by
      rintro rfl
      rw [Function.update_self] at hu
      cases hu
    rw [Function.update_of_ne hut] at hu
    obtain ⟨invoked', hlatest', hmem'⟩ := hpointed.effective u call' result' hu
    exact ⟨invoked', hlatest'.append (Ne.symm hut), hmem'⟩

end Pointed

end Concurrency
