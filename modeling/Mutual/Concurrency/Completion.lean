import Mathlib.Algebra.BigOperators.Group.List.Basic
import Mathlib.Data.List.Perm.Subperm
import Mathlib.Tactic.Abel
import Mutual.Concurrency.Linearizability

/-!
# What a linearization holds beside the calls that have returned

A linearization holds every call that has returned, once and with its result. What else is in it are
calls in progress. So when nobody is in a call, it is the calls that have returned, in some order.
-/

namespace Concurrency

variable {ι C R A : Type}

/-- The calls that have returned, in the order of their returns. -/
def completedCalls (history : List (Event ι C R)) : List (C × R) :=
  history.filterMap fun
    | .invoke _ _ => none
    | .respond _ call result => some (call, result)

def Entry.outcome (entry : Entry C R) : C × R := (entry.call, entry.result)

/-- `entries` are the calls that have returned. -/
structure Accounted (history : List (Event ι C R)) (entries : List (Entry C R)) : Prop where
  outcomes : entries.map Entry.outcome = completedCalls history
  returns : ∀ entry ∈ entries, ∃ n, Returns history entry.invoked n entry.call entry.result
  nodup : (entries.map Entry.invoked).Nodup

/-- Every call is in progress if it has not returned. -/
def Config.Awaited {O : Object} (config : Config O ι) (entries : List (Entry O.Call O.Reply)) :
    Prop :=
  ∀ t invoked call, config.history[invoked]? = some (.invoke t call) →
    (∃ entry ∈ entries, entry.invoked = invoked) ∨
      Latest config.history t invoked call ∧ ∃ code, config.thread t = .busy call code

namespace Accounted

variable {history : List (Event ι C R)} {entries : List (Entry C R)} {t : ι} {call : C} {result : R}
  {invoked : Nat}

theorem nil : Accounted ([] : List (Event ι C R)) [] where
  outcomes := rfl
  returns := by simp
  nodup := List.nodup_nil

theorem invoke (haccounted : Accounted history entries) :
    Accounted (history ++ [.invoke t call]) entries where
  outcomes := by
    rw [haccounted.outcomes]
    simp [completedCalls]
  returns entry hentry := by
    obtain ⟨n, hreturns⟩ := haccounted.returns entry hentry
    exact ⟨n, hreturns.append _⟩
  nodup := haccounted.nodup

/-- A call in progress has not returned. -/
theorem ne_of_latest (haccounted : Accounted history entries)
    (hlatest : Latest history t invoked call) {entry : Entry C R} (hentry : entry ∈ entries) :
    entry.invoked ≠ invoked := by
  rintro rfl
  obtain ⟨n, u, hresponse, hlt, hbefore⟩ := haccounted.returns entry hentry
  have hinvoked := hbefore.1
  rw [List.getElem?_take_of_lt hlt, hlatest.1] at hinvoked
  cases hinvoked
  exact hlatest.2 n _ hlt hresponse rfl

theorem respond (haccounted : Accounted history entries)
    (hlatest : Latest history t invoked call) :
    Accounted (history ++ [.respond t call result]) (entries ++ [⟨invoked, call, result⟩]) where
  outcomes := by
    rw [List.map_append, haccounted.outcomes]
    simp [completedCalls, Entry.outcome]
  returns entry hentry := by
    rcases List.mem_append.mp hentry with hold | hlast
    · obtain ⟨n, hreturns⟩ := haccounted.returns entry hold
      exact ⟨n, hreturns.append _⟩
    · rw [List.mem_singleton.mp hlast]
      refine ⟨history.length, t, by simp, hlatest.lt_length, ?_⟩
      rw [List.take_left]
      exact hlatest
  nodup := by
    rw [List.map_append, List.nodup_append]
    refine ⟨haccounted.nodup, List.nodup_singleton _, ?_⟩
    intro m hm n hn
    obtain ⟨entry, hentry, rfl⟩ := List.mem_map.mp hm
    rw [List.map_singleton, List.mem_singleton] at hn
    rw [hn]
    exact haccounted.ne_of_latest hlatest hentry

end Accounted

section Runs

variable {O : Object} [DecidableEq ι] {config : Config O ι} {entries : List (Entry O.Call O.Reply)}
  {t : ι}

theorem Config.Awaited.update (hawaited : config.Awaited entries) {event : Event ι O.Call O.Reply}
    (hevent : event.thread = t) (thread : Thread O) {entries' : List (Entry O.Call O.Reply)}
    (hsub : entries ⊆ entries') (state : O.State)
    (ht : ∀ invoked call, (config.history ++ [event])[invoked]? = some (.invoke t call) →
      (∃ entry ∈ entries', entry.invoked = invoked) ∨
        Latest (config.history ++ [event]) t invoked call ∧ ∃ code, thread = .busy call code) :
    Config.Awaited { state := state, thread := Function.update config.thread t thread,
                     history := config.history ++ [event] } entries' := by
  intro u invoked call hinvoked
  change _ ∨ Latest (config.history ++ [event]) u invoked call ∧
    ∃ code, Function.update config.thread t thread u = .busy call code
  by_cases hut : u = t
  · subst hut
    rw [Function.update_self]
    exact ht invoked call hinvoked
  · rw [Function.update_of_ne hut]
    by_cases hlast : invoked < config.history.length
    · rw [List.getElem?_append_left hlast] at hinvoked
      rcases hawaited u invoked call hinvoked with ⟨entry, hentry, hsame⟩ | ⟨hlatest, hbusy⟩
      · exact .inl ⟨entry, hsub hentry, hsame⟩
      · exact .inr ⟨hlatest.append (hevent ▸ Ne.symm hut), hbusy⟩
    · rw [List.getElem?_append_right (Nat.le_of_not_lt hlast)] at hinvoked
      have hmem := List.mem_of_getElem? hinvoked
      rw [List.mem_singleton] at hmem
      rw [← hmem] at hevent
      exact absurd hevent hut

theorem Config.Awaited.goOn (hawaited : config.Awaited entries) {call : O.Call} {code : O.Code}
    (hthread : config.thread t = .busy call code) (state : O.State) (code' : O.Code) :
    (config.goOn t call state code').Awaited entries := by
  intro u invoked call' hinvoked
  rcases hawaited u invoked call' hinvoked with hreturned | ⟨hlatest, code'', hbusy⟩
  · exact .inl hreturned
  · refine .inr ⟨hlatest, ?_⟩
    change ∃ code, Function.update config.thread t _ u = _
    by_cases hut : u = t
    · rw [hut, hthread] at hbusy
      cases hbusy
      exact ⟨code', by rw [hut, Function.update_self]⟩
    · exact ⟨code'', by rwa [Function.update_of_ne hut]⟩

/-- **Calls return or are in progress.** -/
theorem accounted_of_reach {cond : Config O ι → Action O ι → Prop} {state : O.State}
    (hreach : (O.threads ι).Reach cond (.initial state) config) :
    ∃ entries, Accounted config.history entries ∧ config.Awaited entries := by
  have hinv : config.Pending ∧
      ∃ entries, Accounted config.history entries ∧ config.Awaited entries := by
    refine hreach.invariant (I := fun config => config.Pending ∧
      ∃ entries, Accounted config.history entries ∧ config.Awaited entries) ?_ ?_
    · exact ⟨Config.pending_initial state, [], .nil, fun t invoked call => by simp [Config.initial]⟩
    · rintro config action after ⟨hpending, entries, haccounted, hawaited⟩ _ hstep
      refine ⟨hpending.step hstep, ?_⟩
      rcases Config.step_cases hstep with ⟨t, call, rfl, hidle, rfl⟩ |
        ⟨t, call, result, rfl, hthread, rfl⟩ | ⟨t, call, label, rfl, hthread, rfl⟩ |
        ⟨t, call, instr, next, state, answer, rfl, hat, hexec, rfl⟩ |
        ⟨t, call, instr, next, state, rfl, hat, hexec, rfl⟩
      · refine ⟨entries, haccounted.invoke, hawaited.update rfl _ (List.Subset.refl _) _ ?_⟩
        intro invoked call' hinvoked
        by_cases hlast : invoked < config.history.length
        · rw [List.getElem?_append_left hlast] at hinvoked
          rcases hawaited t invoked call' hinvoked with hreturned | ⟨-, code, hbusy⟩
          · exact .inl hreturned
          · rw [hidle] at hbusy
            cases hbusy
        · have hlength : invoked = config.history.length := by
            obtain ⟨hbound, -⟩ := List.getElem?_eq_some_iff.mp hinvoked
            rw [List.length_append, List.length_singleton] at hbound
            omega
          subst hlength
          rw [List.getElem?_concat_length] at hinvoked
          cases hinvoked
          exact .inr ⟨latest_invoke, _, rfl⟩
      · obtain ⟨invoked, hlatest⟩ := hpending t call _ hthread
        refine ⟨_, haccounted.respond hlatest,
          hawaited.update rfl _ (List.subset_append_left _ _) _ ?_⟩
        intro invoked' call' hinvoked
        have hlast : invoked' < config.history.length := by
          by_contra hlast
          rw [List.getElem?_append_right (Nat.le_of_not_lt hlast)] at hinvoked
          have hmem := List.mem_of_getElem? hinvoked
          rw [List.mem_singleton] at hmem
          cases hmem
        rw [List.getElem?_append_left hlast] at hinvoked
        rcases hawaited t invoked' call' hinvoked with ⟨entry, hentry, hsame⟩ | ⟨hlatest', -⟩
        · exact .inl ⟨entry, List.mem_append_left _ hentry, hsame⟩
        · obtain ⟨rfl, -⟩ := hlatest.unique hlatest'
          exact .inl ⟨_, List.mem_append_right _ (List.mem_singleton_self _), rfl⟩
      · exact ⟨entries, haccounted, hawaited.goOn hthread _ _⟩
      · exact ⟨entries, haccounted, hawaited.goOn hat _ _⟩
      · exact ⟨entries, haccounted, hawaited.goOn hat _ _⟩
  exact hinv.2

end Runs

/-- The calls that have taken effect and not returned: each of them is what a thread is doing. -/
structure Config.InProgress {O : Object} (config : Config O ι)
    (entries : List (Entry O.Call O.Reply)) : Prop where
  nodup : (entries.map Entry.invoked).Nodup
  busy : ∀ entry ∈ entries, ∃ t code, Latest config.history t entry.invoked entry.call ∧
    config.thread t = .busy entry.call code

namespace Linearization

variable {O : Object} {config : Config O ι} {spec : A → O.Call → O.Reply → A → Prop}
  {start final : A} {order entries : List (Entry O.Call O.Reply)}

/-- **Completion.** A linearization is made of the calls that have returned and of calls in
progress. -/
theorem completion (hlin : Linearization spec start config.history order final)
    (haccounted : Accounted config.history entries) (hawaited : config.Awaited entries) :
    ∃ rest, order.Perm (entries ++ rest) ∧ config.InProgress rest := by
  have hsub : entries ⊆ order := by
    intro entry hentry
    obtain ⟨n, hreturns⟩ := haccounted.returns entry hentry
    exact hlin.complete _ _ _ _ hreturns
  obtain ⟨kept, hkept, hsublist⟩ := (List.Nodup.of_map _ haccounted.nodup).subperm hsub
  obtain ⟨rest, hrest⟩ := hsublist.exists_perm_append
  have hperm : order.Perm (entries ++ rest) := hrest.trans (hkept.append_right rest)
  have hnodup : ((entries ++ rest).map Entry.invoked).Nodup :=
    (hperm.map Entry.invoked).nodup_iff.mp hlin.nodup
  rw [List.map_append, List.nodup_append] at hnodup
  obtain ⟨-, hrest, hdisjoint⟩ := hnodup
  refine ⟨rest, hperm, hrest, fun entry hentry => ?_⟩
  obtain ⟨t, hinvoked⟩ := hlin.invoked entry (hperm.mem_iff.mpr (List.mem_append_right _ hentry))
  rcases hawaited t _ _ hinvoked with ⟨other, hother, hsame⟩ | ⟨hlatest, code, hbusy⟩
  · exact absurd hsame
      (hdisjoint _ (List.mem_map_of_mem hother) _ (List.mem_map_of_mem hentry))
  · exact ⟨t, code, hlatest, hbusy⟩

end Linearization

theorem Config.InProgress.eq_nil {O : Object} {config : Config O ι}
    {entries : List (Entry O.Call O.Reply)} (hprogress : config.InProgress entries)
    (hquiescent : config.Quiescent) : entries = [] := by
  rw [List.eq_nil_iff_forall_not_mem]
  intro entry hentry
  obtain ⟨t, code, -, hbusy⟩ := hprogress.busy entry hentry
  rw [hquiescent t] at hbusy
  cases hbusy

/-! ### What a specification conserves -/

/-- `gains` and `loses` say what each step adds to `measure` and takes away from it. -/
theorem Sequential.balance {M : Type} [AddCommMonoid M] {spec : A → C → R → A → Prop}
    (measure : A → M) (gains loses : C × R → M)
    (hspec : ∀ a call result b, spec a call result b →
      measure a + gains (call, result) = measure b + loses (call, result))
    {start final : A} {order : List (Entry C R)} (hseq : Sequential spec start order final) :
    measure start + ((order.map Entry.outcome).map gains).sum =
      measure final + ((order.map Entry.outcome).map loses).sum := by
  induction hseq with
  | nil => rfl
  | @concat b c order entry _ hstep ih =>
      simp only [List.map_append, List.map_cons, List.map_nil, List.sum_append, List.sum_singleton]
      calc measure start + ((((order.map Entry.outcome).map gains).sum) + gains entry.outcome)
          = measure start + ((order.map Entry.outcome).map gains).sum + gains entry.outcome :=
            (add_assoc ..).symm
        _ = measure b + gains entry.outcome + ((order.map Entry.outcome).map loses).sum := by
            rw [ih]
            abel
        _ = measure c + loses entry.outcome + ((order.map Entry.outcome).map loses).sum := by
            rw [Entry.outcome, hspec b _ _ c hstep]
        _ = _ := by
            rw [add_assoc, add_comm (loses entry.outcome)]

/-! ### The steps of a specification -/

section Steps

variable {spec : A → C → R → A → Prop} {start final : A} {order : List (Entry C R)}

/-- What every step keeps, an execution keeps. -/
theorem Sequential.keeps {I : A → Prop}
    (hspec : ∀ a call result b, spec a call result b → I a → I b)
    (hseq : Sequential spec start order final) (hstart : I start) : I final := by
  induction hseq with
  | nil => exact hstart
  | concat _ hstep ih => exact hspec _ _ _ _ hstep ih

/-- The states before and after an entry. -/
theorem Sequential.split (hseq : Sequential spec start order final) {entry : Entry C R}
    (hentry : entry ∈ order) :
    ∃ earlier later before after, order = earlier ++ entry :: later ∧
      Sequential spec start earlier before ∧ spec before entry.call entry.result after ∧
      Sequential spec after later final := by
  induction hseq with
  | nil => cases hentry
  | @concat b c order last hseq hstep ih =>
      rcases List.mem_append.mp hentry with hold | hlast
      · obtain ⟨earlier, later, before, after, rfl, hearlier, hspec, hlater⟩ := ih hold
        refine ⟨earlier, later ++ [last], before, after, ?_, hearlier, hspec, hlater.concat hstep⟩
        rw [List.append_assoc, List.cons_append]
      · obtain rfl := List.mem_singleton.mp hlast
        exact ⟨order, [], b, c, rfl, hseq, hstep, .nil⟩

end Steps

end Concurrency
