import Mathlib.Algebra.Order.Group.Multiset
import Mutual.Concurrency.Protocol
import Mutual.CowCalls
import Mutual.CowShared

/-!
# What swaps do to the contents of a family

Between its two exchanges a swap has taken the content of `self` out of the family, and has put in a
copy of what it has loaded from `from`. The last exchange puts back what was taken; it takes out the
original of the copy if `from` still holds it.
-/

namespace Mutual

open Concurrency

namespace Heap

variable {α : Type}

def contents (family : Finset Slot) (heap : Heap α) : Multiset (Option α) :=
  family.val.map heap.inner

theorem contents_setInner {family : Finset Slot} (heap : Heap α) {slot : Slot}
    (hslot : slot ∈ family) (content : Option α) :
    (heap.setInner slot content).contents family + {heap.inner slot} =
      heap.contents family + {content} := by
  have hsplit : family.val = slot ::ₘ (family.erase slot).val := by
    rw [Finset.erase_val, Multiset.cons_erase hslot]
  have hrest : (family.erase slot).val.map (Function.update heap.inner slot content) =
      (family.erase slot).val.map heap.inner := by
    apply Multiset.map_congr rfl
    intro other hother
    exact Function.update_of_ne (Finset.ne_of_mem_erase hother) ..
  calc (heap.setInner slot content).contents family + {heap.inner slot}
      = content ::ₘ (family.erase slot).val.map heap.inner + {heap.inner slot} := by
        rw [contents, setInner_inner, hsplit, Multiset.map_cons, Function.update_self, hrest]
    _ = heap.inner slot ::ₘ (family.erase slot).val.map heap.inner + {content} := by
        simp only [← Multiset.singleton_add]
        abel
    _ = heap.contents family + {content} := by
        rw [contents, hsplit, Multiset.map_cons]

end Heap

namespace CowData.Shared

variable {α : Type} {ι : Type}

/-- Where a thread is in a swap: it has loaded the content of `from` but not exchanged the content of
`self`, or it has got the content of `self` for it and not put that back. -/
inductive Swapping (α : Type) where
  | away
  | loaded (fromOld : Option α)
  | between (fromOld selfOld : Option α)

namespace Swapping

def exchange (found : Option α) : Swapping α → Swapping α
  | loaded fromOld => between fromOld found
  | _ => away

/-- The content the thread exchanges for what it finds. -/
def Puts (content : Option α) : Swapping α → Prop
  | away => False
  | loaded fromOld => content = fromOld
  | between _ selfOld => content = selfOld

/-- The last exchange finds what the call has loaded. -/
def Finds (found : Option α) : Swapping α → Prop
  | between fromOld _ => found = fromOld
  | _ => True

def taken : Swapping α → Multiset (Option α)
  | between _ selfOld => {selfOld}
  | _ => 0

def copied : Swapping α → Multiset (Option α)
  | between fromOld _ => {fromOld}
  | _ => 0

section Fields

variable (fromOld selfOld : Option α)

@[simp] theorem taken_away : (away : Swapping α).taken = 0 := rfl

@[simp] theorem taken_loaded : (loaded fromOld).taken = 0 := rfl

@[simp] theorem taken_between : (between fromOld selfOld).taken = {selfOld} := rfl

@[simp] theorem copied_away : (away : Swapping α).copied = 0 := rfl

@[simp] theorem copied_loaded : (loaded fromOld).copied = 0 := rfl

@[simp] theorem copied_between : (between fromOld selfOld).copied = {fromOld} := rfl

end Fields

end Swapping

def swappingAfter (heap : Heap α) (_ : Call α) : Instr α → Swapping α → Swapping α
  | .loadFull slot, _ => .loaded (heap.inner slot)
  | .swap slot _, swapping => swapping.exchange (heap.inner slot)
  | _, swapping => swapping

def Call.SwapsWithin (family : Finset Slot) : Call α → Prop
  | swap self other => self.slot ∈ family ∧ other.slot ∈ family ∧ self.slot ≠ other.slot
  | _ => False

/-- If the next access of `t` is the last exchange of its call, it finds what the call has loaded. -/
def FindsLoaded (before : Config (object α) ι × (ι → Swapping α)) (t : ι) : Prop :=
  match before.1.instr? t with
  | some (.swap slot _) => (before.2 t).Finds (before.1.state.inner slot)
  | _ => True

def SwapsCleanly (family : Finset Slot) (before : Config (object α) ι × (ι → Swapping α)) :
    Action (object α) ι → Prop
  | .invoke _ call => call.SwapsWithin family
  | .tick t => FindsLoaded before t

instance (family : Finset Slot) : DecidablePred (Call.SwapsWithin (α := α) family)
  | .swap self other => inferInstanceAs
      (Decidable (self.slot ∈ family ∧ other.slot ∈ family ∧ self.slot ≠ other.slot))
  | .set .. | .setNull _ | .bumpIntoNull .. => .isFalse id

instance [DecidableEq ι] (family : Finset Slot) :
    ∀ (config : Config (object α) ι) action,
      Decidable (OnlyCalls (Call.SwapsWithin family) config action) := fun _ _ => inferInstance

instance [DecidableEq α] (found : Option α) :
    ∀ swapping : Swapping α, Decidable (swapping.Finds found)
  | .between fromOld _ => inferInstanceAs (Decidable (found = fromOld))
  | .away | .loaded _ => .isTrue trivial

instance [DecidableEq α] (before : Config (object α) ι × (ι → Swapping α)) (t : ι) :
    Decidable (FindsLoaded before t) := by
  unfold FindsLoaded
  split <;> infer_instance

instance [DecidableEq α] (family : Finset Slot)
    (before : Config (object α) ι × (ι → Swapping α)) :
    ∀ action, Decidable (SwapsCleanly family before action)
  | .invoke _ call => inferInstanceAs (Decidable (call.SwapsWithin family))
  | .tick t => inferInstanceAs (Decidable (FindsLoaded before t))

/-! ### The balance -/

/-- The contents of the family and what swaps have taken out are the contents there were at the start
and what swaps have copied. -/
def Balanced [Fintype ι] (family : Finset Slot) (start : Multiset (Option α)) (heap : Heap α)
    (log : ι → Swapping α) : Prop :=
  heap.contents family + ∑ t, (log t).taken = start + ∑ t, (log t).copied

section Balance

variable [Fintype ι] [DecidableEq ι] {family : Finset Slot} {start : Multiset (Option α)}
  {heap : Heap α} {log : ι → Swapping α} {t : ι} {slot : Slot} {fromOld selfOld : Option α}

theorem balanced_load (ht : log t = .away) (hbalanced : Balanced family start heap log) :
    Balanced family start heap (Function.update log t (.loaded fromOld)) := by
  have htaken : (Swapping.loaded fromOld).taken = (log t).taken := by rw [ht]; rfl
  have hcopied : (Swapping.loaded fromOld).copied = (log t).copied := by rw [ht]; rfl
  unfold Balanced at hbalanced ⊢
  rw [sum_update_of_eq Swapping.taken log t htaken, sum_update_of_eq Swapping.copied log t hcopied]
  exact hbalanced

theorem balanced_first (ht : log t = .loaded fromOld) (hslot : slot ∈ family) :
    Balanced family start (heap.setInner slot fromOld)
        (Function.update log t (.between fromOld (heap.inner slot))) ↔
      Balanced family start heap log := by
  have hcontents := heap.contents_setInner hslot fromOld
  have htaken := sum_update Swapping.taken log t (.between fromOld (heap.inner slot))
  have hcopied := sum_update Swapping.copied log t (.between fromOld (heap.inner slot))
  rw [ht, Swapping.taken_loaded, Swapping.taken_between, add_zero] at htaken
  rw [ht, Swapping.copied_loaded, Swapping.copied_between, add_zero] at hcopied
  unfold Balanced
  rw [htaken, hcopied]
  have hleft : (heap.setInner slot fromOld).contents family +
      (∑ u, (log u).taken + {heap.inner slot}) =
      heap.contents family + ∑ u, (log u).taken + {fromOld} := by
    calc (heap.setInner slot fromOld).contents family + (∑ u, (log u).taken + {heap.inner slot})
        = (heap.setInner slot fromOld).contents family + {heap.inner slot} +
            ∑ u, (log u).taken := by abel
      _ = heap.contents family + {fromOld} + ∑ u, (log u).taken := by rw [hcontents]
      _ = heap.contents family + ∑ u, (log u).taken + {fromOld} := by abel
  rw [hleft, ← add_assoc]
  exact add_left_inj _

theorem balanced_last (ht : log t = .between fromOld selfOld) (hslot : slot ∈ family)
    (hbalanced : Balanced family start heap log) :
    Balanced family start (heap.setInner slot selfOld) (Function.update log t .away) ↔
      heap.inner slot = fromOld := by
  have hcontents := heap.contents_setInner hslot selfOld
  have htaken := sum_update Swapping.taken log t .away
  have hcopied := sum_update Swapping.copied log t .away
  rw [ht, Swapping.taken_away, Swapping.taken_between, add_zero] at htaken
  rw [ht, Swapping.copied_away, Swapping.copied_between, add_zero] at hcopied
  unfold Balanced at hbalanced ⊢
  have hleft : (heap.setInner slot selfOld).contents family +
      ∑ u, (Function.update log t .away u).taken + {heap.inner slot} =
      start + ∑ u, (Function.update log t .away u).copied + {fromOld} := by
    calc (heap.setInner slot selfOld).contents family +
          ∑ u, (Function.update log t .away u).taken + {heap.inner slot}
        = (heap.setInner slot selfOld).contents family + {heap.inner slot} +
            ∑ u, (Function.update log t .away u).taken := by abel
      _ = heap.contents family + {selfOld} + ∑ u, (Function.update log t .away u).taken := by
          rw [hcontents]
      _ = heap.contents family + (∑ u, (Function.update log t .away u).taken + {selfOld}) := by
          abel
      _ = start + (∑ u, (Function.update log t .away u).copied + {fromOld}) := by
          rw [htaken, hcopied, hbalanced]
      _ = start + ∑ u, (Function.update log t .away u).copied + {fromOld} := by abel
  constructor
  · intro hafter
    rw [hafter] at hleft
    exact Multiset.singleton_inj.mp (add_left_cancel hleft)
  · intro hfound
    rw [hfound] at hleft
    exact add_right_cancel hleft

end Balance

/-! ### The code -/

def swapping (family : Finset Slot) : Protocol (object α) (Swapping α) where
  rest := .away
  start call g := call.SwapsWithin family ∧ g = .away
  may _ g instr :=
    match instr with
    | .loadFull _ => g = .away
    | .swap slot content => slot ∈ family ∧ g.Puts content
    | .store _ _ | .alloc _ => False
    | _ => True
  move _ g instr answer g' :=
    match instr, answer with
    | .loadFull _, found => g' = .loaded found
    | .swap _ _, found => g' = g.exchange found
    | _, _ => g' = g
  fail _ _ := False
  arrive _ _ _ := True
  leave _ _ _ := True
  finish _ _ g := g = .away

theorem swapping_sound (family : Finset Slot) : (swapping (α := α) family).Sound where
  enter := by
    rintro call g ⟨hcall, rfl⟩
    cases call with
    | swap self other =>
        simp [enter, swap, swapping, hcall.1, hcall.2.1, Swapping.Puts, Swapping.exchange]
    | _ => exact absurd hcall id
  body := by
    rintro call ⟨⟩

section Step

variable [Fintype ι] [DecidableEq ι] {family : Finset Slot} {start : Multiset (Option α)}
  {config : Config (object α) ι} {log : ι → Swapping α} {t : ι} {call : Call α} {instr : Instr α}
  {next : instr.Answer → Prog (sig α) (Outcome α)}

/-- An access keeps the balance exactly if it finds what it should. -/
theorem balanced_iff (hbalanced : Balanced family start config.state log)
    (hat : config.At t call instr next) (hmay : (swapping family).may call (log t) instr) :
    Balanced family start (exec instr config.state).1
        (Function.update log t (swappingAfter config.state call instr (log t))) ↔
      FindsLoaded (config, log) t := by
  have hsame : (exec instr config.state).1.inner = config.state.inner →
      swappingAfter config.state call instr (log t) = log t →
      Balanced family start (exec instr config.state).1
        (Function.update log t (swappingAfter config.state call instr (log t))) := by
    intro hinner hlog
    rw [hlog, Function.update_eq_self]
    unfold Balanced Heap.contents at hbalanced ⊢
    rw [hinner]
    exact hbalanced
  unfold FindsLoaded
  rw [hat.instr?_eq]
  match instr with
  | .loadFull slot => exact iff_of_true (balanced_load hmay hbalanced) trivial
  | .swap slot content =>
      obtain ⟨hslot, hputs⟩ := hmay
      change Balanced family start (config.state.setInner slot content)
        (Function.update log t ((log t).exchange (config.state.inner slot))) ↔
      (log t).Finds (config.state.inner slot)
      cases ht : log t with
      | away =>
          rw [ht] at hputs
          exact absurd hputs id
      | loaded fromOld =>
          rw [ht] at hputs
          subst hputs
          exact iff_of_true ((balanced_first ht hslot).mpr hbalanced) trivial
      | between fromOld selfOld =>
          rw [ht] at hputs
          subst hputs
          exact balanced_last ht hslot hbalanced
  | .store slot content | .alloc content => exact absurd hmay id
  | .awaitImm slot | .acquireMut slot | .acquireImm slot | .releaseMut slot | .releaseImm slot
  | .load slot => exact iff_of_true (hsame rfl rfl) trivial

end Step

theorem swapping_keeps [Fintype ι] [DecidableEq ι] (family : Finset Slot)
    (start : Multiset (Option α)) :
    (swapping family).KeepsLog swappingAfter (SwapsCleanly (ι := ι) family)
      fun heap ghost log _ => ghost = log ∧ Balanced family start heap log where
  invoke := by
    rintro config ghost log t call ⟨rfl, hbalanced⟩ hcond hrest
    have hrest : ghost t = .away := hrest
    refine ⟨.away, ⟨hcond, rfl⟩, ?_, hbalanced⟩
    rw [← hrest, Function.update_eq_self]
  respond := by
    rintro config ghost log t call result ⟨rfl, hbalanced⟩ - - hfinish
    have hrest : ghost t = (swapping family).rest := hfinish
    refine ⟨?_, hbalanced⟩
    rw [← hrest, Function.update_eq_self]
  jump := by
    rintro config ghost log t call ⟨⟩
  answered := by
    rintro config ghost log t call instr next state answer ⟨rfl, hbalanced⟩ hat hcond hmay hexec
    have hstate : (exec instr config.state).1 = state := congrArg Prod.fst hexec
    have hmove : (swapping family).move call (ghost t) instr answer
        (swappingAfter config.state call instr (ghost t)) := by
      match instr with
      | .loadFull slot =>
          cases hexec
          rfl
      | .swap slot content =>
          cases hexec
          rfl
      | .store slot content | .alloc content => exact absurd hmay id
      | .awaitImm slot | .acquireMut slot | .acquireImm slot | .releaseMut slot | .releaseImm slot
      | .load slot => rfl
    refine ⟨_, hmove, rfl, ?_⟩
    rw [← hstate]
    exact (balanced_iff hbalanced hat hmay).mpr hcond
  retried := by
    rintro config ghost log t call instr next state ⟨rfl, hbalanced⟩ hat hcond hmay hexec
    have hstate : (exec instr config.state).1 = state := congrArg Prod.fst hexec
    have hsame : swappingAfter config.state call instr (ghost t) = ghost t := by
      match instr with
      | .awaitImm _ | .acquireMut _ | .acquireImm _ => rfl
    rw [hsame, Function.update_eq_self]
    refine ⟨rfl, ?_⟩
    have hafter := (balanced_iff hbalanced hat hmay).mpr hcond
    rwa [hsame, Function.update_eq_self, hstate] at hafter

theorem balanced_start [Fintype ι] (family : Finset Slot) (heap : Heap α) :
    Balanced family (heap.contents family) heap fun _ : ι => .away := by
  simp [Balanced]

/-- **Swaps conserve the contents of a family** in every run in which the last exchange of a swap
finds what the swap has loaded; and an access of such a run keeps the balance, which is conservation
once all calls have returned, only if it does. -/
theorem swaps_conserve [Fintype ι] [DecidableEq ι] (family : Finset Slot) {heap : Heap α}
    {config : Config (object α) ι} {log : ι → Swapping α}
    (hreach : (((object α).threads ι).monitored (logging swappingAfter)).Reach
      (SwapsCleanly family) (.initial heap, fun _ => .away) (config, log)) :
    (config.Quiescent → config.state.contents family = heap.contents family) ∧
    Balanced family (heap.contents family) config.state log ∧
    ∀ t after, (((object α).threads ι).monitored (logging swappingAfter)).step (config, log)
        (.tick t) = some after →
      (Balanced family (heap.contents family) after.1.state after.2 ↔
        FindsLoaded (config, log) t) := by
  obtain ⟨ghost, hfollows, rfl, hbalanced⟩ := Protocol.log_invariant (swapping_sound family)
    (swapping_keeps family (heap.contents family)) ⟨rfl, balanced_start family heap⟩ hreach
  refine ⟨?_, hbalanced, ?_⟩
  · intro hquiescent
    have haway : ∀ t, ghost t = .away := by
      intro t
      have ht := hfollows t
      rwa [hquiescent t] at ht
    unfold Balanced at hbalanced
    simpa [haway] using hbalanced
  · rintro t ⟨after, log⟩ hstep
    refine logging_tick_iff hbalanced ?_ ?_ hstep
    · intro hnone
      rw [FindsLoaded, hnone]
      trivial
    · intro call instr next hat
      have ht := hfollows t
      rw [hat] at ht
      exact balanced_iff hbalanced hat ht.1

theorem swaps_conserve_crossing :
    ∃ config : Config (object ℕ) Bool, config.Quiescent ∧
      config.state.contents {0, 1, 2} = {some 0, some 1, some 2} ∧
      config.state.inner 0 = some 2 := by
  obtain ⟨config, log, hrun, hquiescent, hinner⟩ : ∃ config log,
      (((object ℕ).threads Bool).monitored (logging swappingAfter)).runIf
        (SwapsCleanly {0, 1, 2})
        (.initial (((Heap.empty.alloc (some 0)).alloc (some 1)).alloc (some 2)), fun _ => .away)
        (.invoke false (.swap ⟨0, false⟩ ⟨1, false⟩) ::
          .invoke true (.swap ⟨2, false⟩ ⟨0, false⟩) :: List.replicate 8 (.tick false) ++
          List.replicate 10 (.tick true) ++ List.replicate 2 (.tick false)) = some (config, log) ∧
      config.Quiescent ∧ config.state.inner 0 = some 2 :=
    ⟨_, _, rfl, by rintro (_ | _) <;> rfl, rfl⟩
  have hconserved := (swaps_conserve {0, 1, 2} (System.reach_of_runIf _ hrun)).1 hquiescent
  exact ⟨config, hquiescent, hconserved, hinner⟩

/-- A swap loads, another one the other way round is executed as a whole, and the first one goes
on. -/
def swapsCross : List (Action (object ℕ) Bool) :=
  .invoke false (.swap ⟨0, false⟩ ⟨1, false⟩) :: List.replicate 5 (.tick false) ++
    .invoke true (.swap ⟨1, false⟩ ⟨0, false⟩) :: List.replicate 8 (.tick true) ++
    List.replicate 5 (.tick false)

theorem swaps_conserve_fails :
    ¬ ∀ config : Config (object ℕ) Bool,
      ((object ℕ).threads Bool).Reach (OnlyCalls (Call.SwapsWithin {0, 1}))
        (.initial ((Heap.empty.alloc (some 0)).alloc (some 1))) config →
      config.Quiescent → config.state.contents {0, 1} = {some 0, some 1} := by
  intro hclaim
  obtain ⟨config, hrun, hquiescent, hcontents⟩ : ∃ config : Config (object ℕ) Bool,
      ((object ℕ).threads Bool).runIf (OnlyCalls (Call.SwapsWithin {0, 1}))
        (.initial ((Heap.empty.alloc (some 0)).alloc (some 1))) swapsCross = some config ∧
      config.Quiescent ∧ config.state.contents {0, 1} = {some 1, some 1} :=
    ⟨_, rfl, by rintro (_ | _) <;> rfl, rfl⟩
  have hsame := hclaim config (System.reach_of_runIf _ hrun) hquiescent
  rw [hcontents] at hsame
  revert hsame
  decide

end CowData.Shared

end Mutual
