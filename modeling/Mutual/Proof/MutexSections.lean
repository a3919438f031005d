import Mutual.Concurrency.Linearizability
import Mutual.Concurrency.Protocol
import Mutual.MutexSections
import Mutual.Proof.MutexProgress

/-!
# Sections under a RelaxedMutex are atomic

The accesses of a section are apart from one another, and other threads run in between. While no
reader increments `refs` late, they find the data as it was left: a section that reads sees one and
the same data throughout, and a section that writes is seen as a whole or not at all.

What the sections do to the counter and to the flag are steps of the mutex, so that its invariants
are those of the sections.
-/

namespace Mutual.RelaxedMutex.Sections

open Concurrency

variable {T : Type}

def applyAll (funcs : List (T → T)) (data : T) : T := funcs.foldl (fun data func => func data) data

/-- What the sections do to the data, one after the other. -/
inductive SectionStep : T → Call T → Reply T → T → Prop
  | read {data : T} {times : Nat} :
      SectionStep data (.read times) (.read (List.replicate times data)) data
  | write {data : T} {funcs : List (T → T)} :
      SectionStep data (.write funcs) .unit (applyAll funcs data)

/-! ### The code -/

/-- How far a section is. -/
inductive Stage (T : Type) where
  | idle
  | awaitUnlocked (times : Nat)
  | addRef (times : Nat)
  | reading (times left : Nat) (value : T)
  | read (times : Nat) (value : T)
  | swapLocked (funcs : List (T → T))
  | addMut (funcs : List (T → T))
  | awaitAlone (funcs : List (T → T))
  | writing (funcs left : List (T → T))
  | storing (funcs left : List (T → T)) (next : T)
  | subMut (funcs : List (T → T))
  | written (funcs : List (T → T))

namespace Stage

def point : Stage T → Point
  | awaitUnlocked _ => .awaitUnlocked false
  | addRef _ => .addRef false
  | swapLocked _ => .swapLocked false
  | addMut _ => .addMut false
  | awaitAlone _ => .awaitAlone false
  | subMut _ => .subMut
  | idle | reading _ _ _ | read _ _ | writing _ _ | storing _ _ _ | written _ => .idle

/-- The guard that the thread has. -/
def guard : Stage T → Option Guard
  | reading _ _ _ => some (.refGuard false)
  | writing _ _ | storing _ _ _ => some (.mutGuard false)
  | _ => none

def holds (stage : Stage T) (guard : Guard) : Nat := if stage.guard = some guard then 1 else 0

def phase : Stage T → Phase (Call T) (Reply T)
  | idle => .idle
  | awaitUnlocked times | addRef times => .called (.read times)
  | reading times _ value | read times value =>
      .effective (.read times) (.read (List.replicate times value))
  | swapLocked funcs | addMut funcs | awaitAlone funcs | writing funcs _ | storing funcs _ _ =>
      .called (.write funcs)
  | subMut funcs | written funcs => .effective (.write funcs) .unit

/-- What an instruction does to the stage. -/
inductive Moves : Stage T → (instr : Instr T) → instr.Answer → Stage T → Prop
  | unlocked (times : Nat) : Moves (awaitUnlocked times) .awaitUnlocked () (addRef times)
  | joined (times : Nat) (value : T) : Moves (addRef times) .addRef () (reading times times value)
  | seen (times left : Nat) (value : T) :
      Moves (reading times (left + 1) value) .deref value (reading times left value)
  | left (times : Nat) (value : T) : Moves (reading times 0 value) .subRef () (read times value)
  | locked (funcs : List (T → T)) : Moves (swapLocked funcs) .swapLocked () (addMut funcs)
  | added (funcs : List (T → T)) : Moves (addMut funcs) .addMut () (awaitAlone funcs)
  | alone (funcs : List (T → T)) : Moves (awaitAlone funcs) .awaitAlone () (writing funcs funcs)
  | loaded (funcs : List (T → T)) (func : T → T) (left : List (T → T)) (value : T) :
      Moves (writing funcs (func :: left)) .deref value (storing funcs left (func value))
  | stored (funcs left : List (T → T)) (next : T) :
      Moves (storing funcs left next) (.derefMut next) () (writing funcs left)
  | unlock (funcs : List (T → T)) : Moves (writing funcs []) .unlock () (subMut funcs)
  | dropped (funcs : List (T → T)) : Moves (subMut funcs) .subRef () (written funcs)

/-- The loops of the code stand where the stage says. -/
def Stands (call : Call T) : Label T → Stage T → Prop
  | .reading left seen, reading times left' value =>
      call = .read times ∧ left' = left ∧
        seen ++ List.replicate left value = List.replicate times value
  | .writing left, writing funcs left' => call = .write funcs ∧ left' = left
  | _, _ => False

end Stage

def first : Call T → Stage T
  | .read times => .awaitUnlocked times
  | .write funcs => .swapLocked funcs

def sections (T : Type) : Protocol (object T) (Stage T) where
  rest := .idle
  start call stage := stage = first call
  may _ stage instr := ∃ answer after, stage.Moves instr answer after
  move _ stage instr answer after := stage.Moves instr answer after
  fail _ _ := False
  arrive call label stage := stage.Stands call label
  leave call label stage := stage.Stands call label
  finish call result stage := stage.point = .idle ∧ stage.guard = none ∧
    stage.phase = .effective call result

theorem sections_sound [Nonempty T] : (sections T).Sound where
  enter := by
    rintro call stage rfl
    obtain ⟨data⟩ := ‹Nonempty T›
    cases call with
    | read times =>
        refine ⟨⟨_, _, .unlocked times⟩, ?_⟩
        rintro _ _ ⟨⟩
        refine ⟨⟨_, _, .joined times data⟩, ?_⟩
        rintro _ _ ⟨⟩
        exact ⟨rfl, rfl, rfl⟩
    | write funcs =>
        refine ⟨⟨_, _, .locked funcs⟩, ?_⟩
        rintro _ _ ⟨⟩
        refine ⟨⟨_, _, .added funcs⟩, ?_⟩
        rintro _ _ ⟨⟩
        refine ⟨⟨_, _, .alone funcs⟩, ?_⟩
        rintro _ _ ⟨⟩
        exact ⟨rfl, rfl⟩
  body := by
    intro call label stage hstands
    match label, stage with
    | .reading 0 seen, .reading times left value =>
        obtain ⟨rfl, rfl, hseen⟩ := hstands
        refine ⟨⟨_, _, .left times value⟩, ?_⟩
        rintro _ _ ⟨⟩
        rw [List.replicate_zero, List.append_nil] at hseen
        rw [hseen]
        exact ⟨rfl, rfl, rfl⟩
    | .reading (left + 1) seen, .reading times left' value =>
        obtain ⟨rfl, rfl, hseen⟩ := hstands
        refine ⟨⟨_, _, .seen times left value⟩, ?_⟩
        rintro _ _ ⟨⟩
        refine ⟨rfl, rfl, ?_⟩
        rw [List.append_assoc, List.singleton_append, ← List.replicate_succ, hseen]
    | .writing [], .writing funcs left =>
        obtain ⟨rfl, rfl⟩ := hstands
        refine ⟨⟨_, _, .unlock funcs⟩, ?_⟩
        rintro _ _ ⟨⟩
        refine ⟨⟨_, _, .dropped funcs⟩, ?_⟩
        rintro _ _ ⟨⟩
        exact ⟨rfl, rfl, rfl⟩
    | .writing (func :: left), .writing funcs left' =>
        obtain ⟨rfl, rfl⟩ := hstands
        obtain ⟨data⟩ := ‹Nonempty T›
        refine ⟨⟨_, _, .loaded funcs func left data⟩, ?_⟩
        rintro _ _ ⟨⟩
        refine ⟨⟨_, _, .stored funcs left _⟩, ?_⟩
        rintro _ _ ⟨⟩
        exact ⟨rfl, rfl⟩

/-! ### The mutex under the sections -/

section Shadow

variable {ι : Type} [DecidableEq ι] [Fintype ι]

/-- The mutex as the stages of the sections show it. -/
def shadow (inner : Inner T) (stage : ι → Stage T) : State ι where
  refs := inner.refs
  locked := inner.locked
  live guard := ∑ t, (stage t).holds guard
  point t := (stage t).point

variable (inner inner' : Inner T) {stage : ι → Stage T} {t : ι} {after : Stage T}

omit [Fintype ι] in
theorem point_update :
    (fun u => (Function.update stage t after u).point) =
      Function.update (fun u => (stage u).point) t after.point :=
  Function.comp_update Stage.point stage t after

omit [Fintype ι] in
theorem goTo_self {state : State ι} {point : Point} (hpoint : state.point t = point) :
    state.goTo t point = state := by
  unfold State.goTo
  rw [← hpoint, Function.update_eq_self]

theorem live_update (stage : ι → Stage T) (t : ι) (after : Stage T) (guard : Guard) :
    ∑ u, (Function.update stage t after u).holds guard + (stage t).holds guard =
      ∑ u, (stage u).holds guard + after.holds guard :=
  sum_update (fun stage : Stage T => stage.holds guard) stage t after

theorem shadow_goTo (hguard : after.guard = (stage t).guard) :
    shadow inner' (Function.update stage t after) =
      { shadow inner stage with refs := inner'.refs, locked := inner'.locked }.goTo t
        after.point := by
  have hlive : ∀ guard, ∑ u, (Function.update stage t after u).holds guard =
      ∑ u, (stage u).holds guard := by
    intro guard
    have hupdate := live_update stage t after guard
    unfold Stage.holds at hupdate ⊢
    rw [hguard] at hupdate
    omega
  unfold shadow State.goTo
  simp only [hlive, point_update]

/-- Nothing happens to the mutex. -/
theorem shadow_stay (hpoint : after.point = (stage t).point) (hguard : after.guard = (stage t).guard)
    (hrefs : inner'.refs = inner.refs) (hlocked : inner'.locked = inner.locked) :
    shadow inner' (Function.update stage t after) = shadow inner stage := by
  rw [shadow_goTo inner inner' hguard, hrefs, hlocked, goTo_self hpoint.symm]
  rfl

theorem shadow_give {guard : Guard} (hbefore : (stage t).guard = none)
    (hafter : after.guard = some guard) (hpoint : after.point = .idle) :
    shadow inner' (Function.update stage t after) =
      { shadow inner stage with refs := inner'.refs, locked := inner'.locked }.give t guard := by
  have hlive : (fun other => ∑ u, (Function.update stage t after u).holds other) =
      Function.update (fun other => ∑ u, (stage u).holds other) guard
        (∑ u, (stage u).holds guard + 1) := by
    funext other
    have hupdate := live_update stage t after other
    have hnone : (stage t).holds other = 0 := by simp [Stage.holds, hbefore]
    by_cases hother : other = guard
    · subst hother
      have hone : after.holds other = 1 := by simp [Stage.holds, hafter]
      rw [Function.update_self]
      omega
    · have hzero : after.holds other = 0 := by simp [Stage.holds, hafter, Ne.symm hother]
      rw [Function.update_of_ne hother]
      omega
  unfold shadow State.give State.goTo
  simp only [hlive, point_update, hpoint]

theorem shadow_take {guard : Guard} (hbefore : (stage t).guard = some guard)
    (hafter : after.guard = none) :
    shadow inner' (Function.update stage t after) =
      ({ shadow inner stage with refs := inner'.refs, locked := inner'.locked }.take guard).goTo t
        after.point := by
  have hlive : (fun other => ∑ u, (Function.update stage t after u).holds other) =
      Function.update (fun other => ∑ u, (stage u).holds other) guard
        (∑ u, (stage u).holds guard - 1) := by
    funext other
    have hupdate := live_update stage t after other
    have hnone : after.holds other = 0 := by simp [Stage.holds, hafter]
    by_cases hother : other = guard
    · subst hother
      have hone : (stage t).holds other = 1 := by simp [Stage.holds, hbefore]
      rw [Function.update_self]
      omega
    · have hzero : (stage t).holds other = 0 := by simp [Stage.holds, hbefore, Ne.symm hother]
      rw [Function.update_of_ne hother]
      omega
  unfold shadow State.take State.goTo
  simp only [hlive, point_update]

/-- The guard is dropped by an access that is not followed by another. -/
theorem shadow_drop {guard : Guard} (hbefore : (stage t).guard = some guard)
    (hafter : after.guard = none) (hpoint : (stage t).point = after.point) :
    shadow inner' (Function.update stage t after) =
      { shadow inner stage with refs := inner'.refs, locked := inner'.locked }.take guard := by
  rw [shadow_take inner inner' hbefore hafter]
  exact goTo_self hpoint

variable {inner inner'}

omit [DecidableEq ι] in
/-- A thread has the guard that its stage says. -/
theorem live_of_guard {guard : Guard} (hguard : (stage t).guard = some guard) :
    0 < (shadow inner stage).live guard := by
  have hle : (stage t).holds guard ≤ ∑ u, (stage u).holds guard :=
    Finset.single_le_sum (f := fun u => (stage u).holds guard) (fun _ _ => Nat.zero_le _)
      (Finset.mem_univ t)
  have hone : (stage t).holds guard = 1 := by simp [Stage.holds, hguard]
  change 0 < ∑ u, (stage u).holds guard
  omega

theorem reach_stay (hreach : (system ι).Reach State.NoLateReader new (shadow inner stage))
    (hpoint : (stage t).point = after.point) (hguard : (stage t).guard = after.guard)
    (hrefs : inner'.refs = inner.refs) (hlocked : inner'.locked = inner.locked) :
    (system ι).Reach State.NoLateReader new (shadow inner' (Function.update stage t after)) := by
  rw [shadow_stay inner inner' hpoint.symm hguard.symm hrefs hlocked]
  exact hreach

/-- An access that gives no guard and takes none. -/
theorem reach_goTo (hreach : (system ι).Reach State.NoLateReader new (shadow inner stage))
    {point : Point} (hpoint : (shadow inner stage).point t = point)
    (hother : ∀ cast, point ≠ .addRef cast) (hguard : (stage t).guard = after.guard)
    (hstep : step (shadow inner stage) (.tick t) =
      some ({ shadow inner stage with refs := inner'.refs, locked := inner'.locked }.goTo t
        after.point)) :
    (system ι).Reach State.NoLateReader new (shadow inner' (Function.update stage t after)) := by
  have hcond : (shadow inner stage).NoLateReader (.tick t) := by
    intro cast hadd
    rw [hpoint] at hadd
    exact absurd hadd (hother cast)
  rw [shadow_goTo inner inner' hguard.symm]
  exact hreach.step hcond hstep

/-- **The instruction does to the mutex what the stage says.** -/
theorem shadow_moves (hreach : (system ι).Reach State.NoLateReader new (shadow inner stage))
    {instr : Instr T} {answer : instr.Answer} (hmoves : (stage t).Moves instr answer after)
    (hexec : exec instr inner = (inner', some answer))
    (hlate : ∀ times, stage t = .addRef times → (shadow inner stage).writers = 0) :
    (system ι).Reach State.NoLateReader new (shadow inner' (Function.update stage t after)) := by
  generalize hstage : stage t = before at hmoves
  have hpoint : (shadow inner stage).point t = before.point := congrArg Stage.point hstage
  have hguard : (stage t).guard = before.guard := congrArg Stage.guard hstage
  cases hmoves with
  | unlocked times =>
      have hlocked : (shadow inner stage).locked = false := by
        change inner.locked = false
        by_contra hlocked
        simp [exec, hlocked] at hexec
      obtain ⟨rfl, -⟩ := Prod.mk.inj hexec
      refine reach_goTo hreach hpoint (by simp [Stage.point]) hguard ?_
      simp only [step, hpoint, Stage.point, hlocked, Bool.false_eq_true, if_false]
      rfl
  | joined times value =>
      obtain ⟨rfl, -⟩ := Prod.mk.inj hexec
      have hcond : (shadow inner stage).NoLateReader (.tick t) := fun _ _ => hlate times hstage
      rw [shadow_give inner _ hguard rfl rfl]
      refine hreach.step hcond ?_
      simp only [system, step, hpoint, Stage.point]
      rfl
  | seen times left value =>
      obtain ⟨rfl, -⟩ := Prod.mk.inj hexec
      exact reach_stay hreach hpoint hguard rfl rfl
  | left times value =>
      obtain ⟨rfl, -⟩ := Prod.mk.inj hexec
      have hlive : 0 < (shadow inner stage).live (.refGuard false) := live_of_guard hguard
      have hidle : (stage t).point = (Stage.read times value).point := hpoint
      rw [shadow_drop inner _ hguard rfl hidle]
      have hcond : (shadow inner stage).NoLateReader (.drop t (.refGuard false)) := trivial
      refine hreach.step hcond ?_
      simp only [system, step, hpoint, Stage.point, hlive, and_self, if_true]
      rfl
  | locked funcs =>
      have hlocked : (shadow inner stage).locked = false := by
        change inner.locked = false
        by_contra hlocked
        simp [exec, hlocked] at hexec
      obtain ⟨rfl, -⟩ := Prod.mk.inj hexec
      refine reach_goTo hreach hpoint (by simp [Stage.point]) hguard ?_
      simp only [step, hpoint, Stage.point, hlocked, Bool.false_eq_true, if_false]
      rfl
  | added funcs =>
      obtain ⟨rfl, -⟩ := Prod.mk.inj hexec
      refine reach_goTo hreach hpoint (by simp [Stage.point]) hguard ?_
      simp only [step, hpoint, Stage.point]
      rfl
  | alone funcs =>
      have hrefs : (shadow inner stage).refs ≤ 1 := by
        change inner.refs ≤ 1
        by_contra hrefs
        simp [exec, hrefs] at hexec
      obtain ⟨rfl, -⟩ := Prod.mk.inj hexec
      have hcond : (shadow inner stage).NoLateReader (.tick t) := by
        intro cast hadd
        rw [hpoint] at hadd
        cases hadd
      rw [shadow_give inner inner hguard rfl rfl]
      refine hreach.step hcond ?_
      simp only [system, step, hpoint, Stage.point, hrefs, if_true]
      rfl
  | loaded funcs func left value =>
      obtain ⟨rfl, -⟩ := Prod.mk.inj hexec
      exact reach_stay hreach hpoint hguard rfl rfl
  | stored funcs left next =>
      obtain ⟨rfl, -⟩ := Prod.mk.inj hexec
      exact reach_stay hreach hpoint hguard rfl rfl
  | unlock funcs =>
      obtain ⟨rfl, -⟩ := Prod.mk.inj hexec
      have hlive : 0 < (shadow inner stage).live (.mutGuard false) := live_of_guard hguard
      rw [shadow_take inner _ hguard rfl]
      have hcond : (shadow inner stage).NoLateReader (.drop t (.mutGuard false)) := trivial
      refine hreach.step hcond ?_
      simp only [system, step, hpoint, Stage.point, hlive, and_self, if_true]
      rfl
  | dropped funcs =>
      obtain ⟨rfl, -⟩ := Prod.mk.inj hexec
      refine reach_goTo hreach hpoint (by simp [Stage.point]) hguard ?_
      simp only [step, hpoint, Stage.point]
      rfl

theorem exclusive_of_reach {state : State ι}
    (hreach : (system ι).Reach State.NoLateReader new state) : state.Exclusive := by
  have hinv : state.Counted ∧ state.Exclusive := by
    refine System.Reach.invariant (I := fun state => state.Counted ∧ state.Exclusive)
      ⟨new_counted, .inl rfl⟩ ?_ hreach
    rintro state action next ⟨hcounted, hexclusive⟩ hcond hstep
    have hmove := move_of_step hstep
    exact ⟨counted_step hcounted hmove, (exclusive_step hcounted hexclusive hmove).mpr hcond⟩
  exact hinv.2

/-- **The data is guarded.** While a thread has a mutable guard, no other thread has a guard. -/
theorem guard_eq_none (hreach : (system ι).Reach State.NoLateReader new (shadow inner stage))
    (ht : (stage t).guard = some (.mutGuard false)) {u : ι} (hut : u ≠ t) :
    (stage u).guard = none := by
  obtain ⟨-, hflagged⟩ := counted_and_flagged (hreach.mono fun _ _ _ => trivial)
  have hexclusive := exclusive_of_reach hreach
  have hlocked := Bool.toNat_le (shadow inner stage).locked
  have hlive : 0 < (shadow inner stage).live (.mutGuard false) := live_of_guard ht
  unfold State.Flagged State.owners at hflagged
  unfold State.Exclusive at hexclusive
  cases hu : (stage u).guard with
  | none => rfl
  | some guard =>
      have hcounted : 0 < (shadow inner stage).live guard := live_of_guard hu
      match guard with
      | .refGuard cast =>
          have hreaders : 0 < (shadow inner stage).readers := by
            cases cast <;> unfold State.readers <;> omega
          unfold State.writers at hexclusive
          omega
      | .mutGuard true =>
          unfold State.writers at hflagged
          omega
      | .mutGuard false =>
          -- the guard of `u` is counted beside that of `t`
          have hupdate := live_update stage t .idle (.mutGuard false)
          have hone : (stage t).holds (.mutGuard false) = 1 := by simp [Stage.holds, ht]
          have hzero : (.idle : Stage T).holds (.mutGuard false) = 0 := by
            simp [Stage.holds, Stage.guard]
          have hothers : 0 < (shadow inner (Function.update stage t .idle)).live (.mutGuard false) :=
            live_of_guard ((congrArg Stage.guard (Function.update_of_ne hut ..)).trans hu)
          change 0 < ∑ v, (Function.update stage t .idle v).holds (.mutGuard false) at hothers
          unfold State.writers at hflagged
          change (∑ v, (stage v).holds (.mutGuard false)) + _ + _ = _ at hflagged
          omega

end Shadow

/-! ### The data -/

/-- What the section knows of the data, where `last` is what the last section has left. -/
def Stage.Sees (last data : T) : Stage T → Prop
  | reading _ _ value => data = value
  | writing funcs left => applyAll left data = applyAll funcs last
  | storing funcs left next => applyAll left next = applyAll funcs last
  | _ => True

/-- The thread has a mutable guard. -/
def Stage.Writes (stage : Stage T) : Prop := stage.guard = some (.mutGuard false)

theorem Stage.sees_of_guard {stage : Stage T} (hguard : stage.guard = none) (last data : T) :
    stage.Sees last data := by
  cases stage with
  | reading | writing | storing => cases hguard
  | _ => trivial

/-- Whether the thread has a mutable guard: from the `refs.load` that ends `create_mut_lock` to the
`locked.swap(false)` of the drop. -/
def writesAfter (inner : Inner T) (_ : Call T) : Instr T → Bool → Bool
  | .awaitAlone, _ => decide (inner.refs ≤ 1)
  | .unlock, _ => false
  | _, writes => writes

variable {ι : Type} [DecidableEq ι]

/-- The thread is a reader about to increment `refs`. -/
def joins (config : Config (object T) ι) (t : ι) : Bool :=
  match config.instr? t with
  | some .addRef => true
  | _ => false

/-- No reader increments `refs` while a mutable guard is live. -/
def NoLateJoin (before : Config (object T) ι × (ι → Bool)) :
    Concurrency.Action (object T) ι → Prop
  | .invoke _ _ => True
  | .tick t => joins before.1 t = true → ∀ u, before.2 u = false

instance [Fintype ι] (before : Config (object T) ι × (ι → Bool)) :
    ∀ action, Decidable (NoLateJoin before action)
  | .invoke _ _ => .isTrue trivial
  | .tick t => inferInstanceAs (Decidable (joins before.1 t = true → ∀ u, before.2 u = false))

variable [Fintype ι]

/-- What the sections have made of the data, and what those under way see of it. -/
structure SectionWorld (start : T) (inner : Inner T) (stage : ι → Stage T) (writes : ι → Bool)
    (history : List (Event ι (Call T) (Reply T))) (order : List (Entry (Call T) (Reply T)))
    (last : T) : Prop where
  pointed : Pointed SectionStep start history (fun t => (stage t).phase) order last
  mutex : (system ι).Reach State.NoLateReader new (shadow inner stage)
  writes : ∀ t, writes t = true ↔ (stage t).Writes
  settled : (∀ t, ¬ (stage t).Writes) → inner.data = last
  sees : ∀ t, (stage t).Sees last inner.data

namespace SectionWorld

variable {start last last' : T} {inner inner' : Inner T} {stage : ι → Stage T} {writes : ι → Bool}
  {history : List (Event ι (Call T) (Reply T))} {order : List (Entry (Call T) (Reply T))} {t : ι}
  {after : Stage T}

omit [DecidableEq ι] in
theorem writers_eq_zero (hnone : ∀ t, ¬ (stage t).Writes) :
    (shadow inner stage).writers = 0 := by
  have hzero : ∀ cast, (shadow inner stage).live (.mutGuard cast) = 0 := by
    intro cast
    apply Finset.sum_eq_zero
    intro t _
    unfold Stage.holds
    rw [if_neg]
    intro hguard
    cases cast with
    | false => exact hnone t hguard
    | true => cases hstage : stage t <;> rw [hstage] at hguard <;> cases hguard
  rw [State.writers, hzero, hzero]

/-- One thread goes on. -/
theorem goOn {history' : List (Event ι (Call T) (Reply T))}
    {order' : List (Entry (Call T) (Reply T))}
    (hw : SectionWorld start inner stage writes history order last)
    (hpointed : Pointed SectionStep start history'
      (Function.update (fun u => (stage u).phase) t after.phase) order' last')
    (hmutex : (system ι).Reach State.NoLateReader new
      (shadow inner' (Function.update stage t after))) {held : Bool}
    (hwrites : held = true ↔ after.Writes)
    (hsettled : (∀ u, u ≠ t → ¬ (stage u).Writes) → ¬ after.Writes → inner'.data = last')
    (hsees : after.Sees last' inner'.data)
    (hothers : ∀ u, u ≠ t → (stage u).Sees last' inner'.data) :
    SectionWorld start inner' (Function.update stage t after) (Function.update writes t held)
      history' order' last' where
  pointed := by
    have hphase : (fun u => (Function.update stage t after u).phase) = _ :=
      Function.comp_update Stage.phase stage t after
    rw [hphase]
    exact hpointed
  mutex := hmutex
  writes := forall_update₂ (p := fun _ stage held => held = true ↔ stage.Writes) stage writes t
    hwrites fun u _ => hw.writes u
  settled := by
    intro hnone
    apply hsettled
    · intro u hut
      have hu := hnone u
      rwa [Function.update_of_ne hut] at hu
    · have ht := hnone t
      rwa [Function.update_self] at ht
  sees := (Function.forall_update_iff stage fun _ stage => stage.Sees last' inner'.data).mpr
    ⟨hsees, hothers⟩

theorem pointed_stay (hw : SectionWorld start inner stage writes history order last)
    (hphase : (stage t).phase = after.phase) :
    Pointed SectionStep start history
      (Function.update (fun u => (stage u).phase) t after.phase) order last := by
  rw [← hphase, Function.update_eq_self]
  exact hw.pointed

/-- A step after which the call stands where it stood and the data is what it was. -/
theorem stay (hw : SectionWorld start inner stage writes history order last) {before : Stage T}
    (hstage : stage t = before) (hphase : before.phase = after.phase)
    (hsame : before.Writes ↔ after.Writes)
    (hmutex : (system ι).Reach State.NoLateReader new
      (shadow inner' (Function.update stage t after))) (hdata : inner'.data = inner.data)
    (hsees : after.Sees last inner.data) :
    SectionWorld start inner' (Function.update stage t after)
      (Function.update writes t (writes t)) history order last := by
  subst hstage
  refine hw.goOn (hw.pointed_stay hphase) hmutex ((hw.writes t).trans hsame) ?_ ?_ ?_
  · intro hothers hafter
    rw [hdata]
    apply hw.settled
    intro u
    by_cases hut : u = t
    · rw [hut, hsame]
      exact hafter
    · exact hothers u hut
  · rw [hdata]
    exact hsees
  · intro u _
    rw [hdata]
    exact hw.sees u

/-- Nobody else sees the data that `t` has a mutable guard to. -/
theorem sees_of_writes (hw : SectionWorld start inner stage writes history order last)
    (ht : (stage t).Writes) (last' data : T) (u : ι) (hut : u ≠ t) : (stage u).Sees last' data :=
  Stage.sees_of_guard (guard_eq_none hw.mutex ht hut) last' data

/-- No guard is live when a writer leaves its waiting loop. -/
theorem data_of_alone (hw : SectionWorld start inner stage writes history order last)
    {funcs : List (T → T)} (hstage : stage t = .awaitAlone funcs) (hrefs : inner.refs ≤ 1) :
    inner.data = last := by
  obtain ⟨hcounted, -⟩ := counted_and_flagged (hw.mutex.mono fun _ _ _ => trivial)
  have hpoint : (shadow inner stage).point t = .awaitAlone false := congrArg Stage.point hstage
  obtain ⟨-, hwriters⟩ := guards_eq_zero_of_alone hcounted hpoint hrefs
  apply hw.settled
  intro u hu
  have hlive : 0 < (shadow inner stage).live (.mutGuard false) := live_of_guard hu
  unfold State.writers at hwriters
  omega

/-- **One access.** -/
theorem moves (hw : SectionWorld start inner stage writes history order last) {call : Call T}
    {instr : Instr T} {answer : instr.Answer} (hmay : ∃ answer after,
      (stage t).Moves instr answer after) (hexec : exec instr inner = (inner', some answer))
    (hlate : ∀ times, stage t = .addRef times → ∀ u, writes u = false) :
    ∃ after, (stage t).Moves instr answer after ∧ ∃ order' last',
      SectionWorld start inner' (Function.update stage t after)
        (Function.update writes t (writesAfter inner call instr (writes t))) history order' last' := by
  have hnone : ∀ times, stage t = .addRef times → ∀ u, ¬ (stage u).Writes := by
    intro times haddRef u hu
    have hfalse := hlate times haddRef u
    rw [(hw.writes u).mpr hu] at hfalse
    cases hfalse
  have hmutex : ∀ after, (stage t).Moves instr answer after →
      (system ι).Reach State.NoLateReader new (shadow inner' (Function.update stage t after)) := by
    intro after hmoves
    exact shadow_moves hw.mutex hmoves hexec fun times haddRef =>
      writers_eq_zero (hnone times haddRef)
  obtain ⟨answer', after', hmoves'⟩ := hmay
  have hsees := hw.sees t
  have hheld := hw.writes t
  generalize hstage : stage t = before at hmoves' hmutex hnone hsees hheld
  have hphase : (stage t).phase = before.phase := congrArg Stage.phase hstage
  cases hmoves' with
  | unlocked times =>
      obtain ⟨rfl, -⟩ := Prod.mk.inj hexec
      have hmoves := Stage.Moves.unlocked (T := T) times
      exact ⟨_, hmoves, order, last, hw.stay hstage rfl Iff.rfl (hmutex _ hmoves) rfl trivial⟩
  | joined times value =>
      obtain ⟨rfl, -⟩ := Prod.mk.inj hexec
      have hmoves := Stage.Moves.joined times last
      have hdata : inner.data = last := hw.settled (hnone times rfl)
      obtain ⟨entry, hpointed⟩ := hw.pointed.point hphase .read
      refine ⟨_, hmoves, _, last, hw.goOn hpointed (hmutex _ hmoves) ?_ ?_ hdata ?_⟩
      · simpa [Stage.Writes, Stage.guard, writesAfter] using hheld
      · intro _ _
        exact hdata
      · intro u _
        exact hw.sees u
  | seen times left value =>
      obtain ⟨rfl, hanswer⟩ := Prod.mk.inj hexec
      have hmoves := Stage.Moves.seen times left value
      have hdata : inner.data = value := hsees
      obtain rfl : value = answer := hdata.symm.trans (Option.some.inj hanswer)
      exact ⟨_, hmoves, order, last, hw.stay hstage rfl Iff.rfl (hmutex _ hmoves) rfl hdata⟩
  | left times value =>
      obtain ⟨rfl, -⟩ := Prod.mk.inj hexec
      have hmoves := Stage.Moves.left times value
      exact ⟨_, hmoves, order, last, hw.stay hstage rfl (by simp [Stage.Writes, Stage.guard])
        (hmutex _ hmoves) rfl trivial⟩
  | locked funcs =>
      obtain ⟨rfl, -⟩ := Prod.mk.inj hexec
      have hmoves := Stage.Moves.locked funcs
      exact ⟨_, hmoves, order, last, hw.stay hstage rfl Iff.rfl (hmutex _ hmoves) rfl trivial⟩
  | added funcs =>
      obtain ⟨rfl, -⟩ := Prod.mk.inj hexec
      have hmoves := Stage.Moves.added funcs
      exact ⟨_, hmoves, order, last, hw.stay hstage rfl Iff.rfl (hmutex _ hmoves) rfl trivial⟩
  | alone funcs =>
      have hrefs : inner.refs ≤ 1 := by
        by_contra hrefs
        simp [exec, hrefs] at hexec
      obtain ⟨rfl, -⟩ := Prod.mk.inj hexec
      have hmoves := Stage.Moves.alone funcs
      have hdata : inner.data = last := hw.data_of_alone hstage hrefs
      have hsame : (stage t).phase = (Stage.writing funcs funcs).phase := hphase
      refine ⟨_, hmoves, order, last,
        hw.goOn (hw.pointed_stay hsame) (hmutex _ hmoves) ?_ ?_ ?_ ?_⟩
      · simp [writesAfter, hrefs, Stage.Writes, Stage.guard]
      · intro _ hafter
        exact absurd rfl hafter
      · exact congrArg (applyAll funcs) hdata
      · intro u _
        exact hw.sees u
  | loaded funcs func left value =>
      obtain ⟨rfl, hanswer⟩ := Prod.mk.inj hexec
      obtain rfl := Option.some.inj hanswer
      have hmoves := Stage.Moves.loaded funcs func left inner.data
      exact ⟨_, hmoves, order, last, hw.stay hstage rfl Iff.rfl (hmutex _ hmoves) rfl hsees⟩
  | stored funcs left next =>
      obtain ⟨rfl, -⟩ := Prod.mk.inj hexec
      have hmoves := Stage.Moves.stored funcs left next
      have hsame : (stage t).phase = (Stage.writing funcs left).phase := hphase
      refine ⟨_, hmoves, order, last,
        hw.goOn (hw.pointed_stay hsame) (hmutex _ hmoves) hheld ?_ hsees ?_⟩
      · intro _ hafter
        exact absurd rfl hafter
      · exact hw.sees_of_writes (congrArg Stage.guard hstage) last next
  | unlock funcs =>
      obtain ⟨rfl, -⟩ := Prod.mk.inj hexec
      have hmoves := Stage.Moves.unlock funcs
      have hdata : inner.data = applyAll funcs last := hsees
      obtain ⟨entry, hpointed⟩ := hw.pointed.point hphase (.write)
      rw [← hdata] at hpointed
      refine ⟨_, hmoves, _, inner.data, hw.goOn hpointed (hmutex _ hmoves) ?_ ?_ trivial ?_⟩
      · simp [writesAfter, Stage.Writes, Stage.guard]
      · intro _ _
        rfl
      · exact hw.sees_of_writes (congrArg Stage.guard hstage) _ _
  | dropped funcs =>
      obtain ⟨rfl, -⟩ := Prod.mk.inj hexec
      have hmoves := Stage.Moves.dropped funcs
      exact ⟨_, hmoves, order, last, hw.stay hstage rfl Iff.rfl (hmutex _ hmoves) rfl trivial⟩

/-- A step between the calls of a thread, at which it has no guard. -/
theorem between {history' : List (Event ι (Call T) (Reply T))}
    (hw : SectionWorld start inner stage writes history order last)
    (hpointed : Pointed SectionStep start history'
      (Function.update (fun u => (stage u).phase) t after.phase) order last)
    (hbefore : (stage t).guard = none) (hafter : after.guard = none)
    (hmutex : (system ι).Reach State.NoLateReader new
      (shadow inner (Function.update stage t after))) :
    SectionWorld start inner (Function.update stage t after) writes history' order last := by
  have hsame : (stage t).Writes ↔ after.Writes := by
    unfold Stage.Writes
    rw [hbefore, hafter]
  have hnext := hw.goOn hpointed hmutex ((hw.writes t).trans hsame) ?_
    (after.sees_of_guard hafter last inner.data) fun u _ => hw.sees u
  · rwa [Function.update_eq_self] at hnext
  · intro hothers hnot
    apply hw.settled
    intro u
    by_cases hut : u = t
    · rw [hut, hsame]
      exact hnot
    · exact hothers u hut

/-- A lock call begins. -/
theorem invoke (hw : SectionWorld start inner stage writes history order last)
    (hidle : stage t = .idle) (call : Call T) :
    SectionWorld start inner (Function.update stage t (first call)) writes
      (history ++ [.invoke t call]) order last := by
  have hpoint : (shadow inner stage).point t = .idle := congrArg Stage.point hidle
  have hguard : (stage t).guard = none := congrArg Stage.guard hidle
  cases call with
  | read times =>
      have hnone : (first (.read times) : Stage T).guard = (stage t).guard := hguard.symm
      refine hw.between hw.pointed.invoke hguard rfl ?_
      rw [shadow_goTo inner inner hnone]
      have hcond : (shadow inner stage).NoLateReader (.lock t (.refGuard false)) := trivial
      refine hw.mutex.step hcond ?_
      simp only [system, step, hpoint]
      rfl
  | write funcs =>
      have hnone : (first (.write funcs) : Stage T).guard = (stage t).guard := hguard.symm
      refine hw.between hw.pointed.invoke hguard rfl ?_
      rw [shadow_goTo inner inner hnone]
      have hcond : (shadow inner stage).NoLateReader (.lock t (.mutGuard false)) := trivial
      refine hw.mutex.step hcond ?_
      simp only [system, step, hpoint]
      rfl

/-- A section returns. -/
theorem respond (hw : SectionWorld start inner stage writes history order last) {call : Call T}
    {result : Reply T} (hpoint : (stage t).point = .idle) (hguard : (stage t).guard = none)
    (hphase : (stage t).phase = .effective call result) :
    SectionWorld start inner (Function.update stage t .idle) writes
      (history ++ [.respond t call result]) order last :=
  hw.between (hw.pointed.respond hphase) hguard rfl (reach_stay hw.mutex hpoint hguard rfl rfl)

/-- A loop is not left. -/
theorem retried (hw : SectionWorld start inner stage writes history order last) {call : Call T}
    {instr : Instr T} (hmay : ∃ answer after, (stage t).Moves instr answer after)
    (hexec : exec instr inner = (inner', none)) :
    SectionWorld start inner' stage
      (Function.update writes t (writesAfter inner call instr (writes t))) history order last := by
  have hheld := hw.writes t
  obtain ⟨answer, after, hmoves⟩ := hmay
  generalize hstage : stage t = before at hmoves hheld
  cases hmoves with
  | unlocked times =>
      obtain ⟨rfl, -⟩ := Prod.mk.inj hexec
      change SectionWorld start inner stage (Function.update writes t (writes t)) history order last
      rwa [Function.update_eq_self]
  | locked funcs =>
      have hlocked : inner.locked = true := by
        by_contra hlocked
        simp [exec, hlocked] at hexec
      obtain ⟨rfl, -⟩ := Prod.mk.inj hexec
      have hinner : { inner with locked := true } = inner := by
        rw [← hlocked]
      change SectionWorld start { inner with locked := true } stage
        (Function.update writes t (writes t)) history order last
      rwa [hinner, Function.update_eq_self]
  | alone funcs =>
      have hrefs : ¬ inner.refs ≤ 1 := by
        intro hrefs
        simp [exec, hrefs] at hexec
      obtain ⟨rfl, -⟩ := Prod.mk.inj hexec
      have hnone : writes t = false := by
        rw [← Bool.not_eq_true, hheld]
        simp [Stage.Writes, Stage.guard]
      have hwrites : writesAfter inner call .awaitAlone (writes t) = writes t := by
        rw [writesAfter, decide_eq_false hrefs, hnone]
      rwa [hwrites, Function.update_eq_self]
  | _ => cases hexec

end SectionWorld

theorem sections_keeps (start : T) :
    (sections T).KeepsLog writesAfter (NoLateJoin (ι := ι)) fun inner stage writes history =>
      ∃ order last, SectionWorld start inner stage writes history order last where
  invoke := by
    rintro config stage writes t call ⟨order, last, hw⟩ - hrest
    exact ⟨first call, rfl, order, last, hw.invoke hrest call⟩
  respond := by
    rintro config stage writes t call result ⟨order, last, hw⟩ - - ⟨hpoint, hguard, hphase⟩
    exact ⟨order, last, hw.respond hpoint hguard hphase⟩
  jump := by
    rintro config stage writes t call label ⟨order, last, hw⟩ - - harrive
    refine ⟨stage t, harrive, order, last, ?_⟩
    rwa [Function.update_eq_self]
  answered := by
    rintro config stage writes t call instr next inner answer ⟨order, last, hw⟩ hat hcond hmay hexec
    refine hw.moves hmay hexec ?_
    intro times haddRef
    obtain ⟨_, _, hmoves⟩ := hmay
    rw [haddRef] at hmoves
    cases hmoves
    apply hcond
    rw [joins, hat.instr?_eq]
  retried := by
    rintro config stage writes t call instr next inner ⟨order, last, hw⟩ - - hmay hexec
    exact ⟨order, last, hw.retried hmay hexec⟩

omit [DecidableEq ι] in
theorem shadow_idle (inner : Inner T) :
    shadow inner (fun _ : ι => .idle) =
      { new with refs := inner.refs, locked := inner.locked } := by
  unfold shadow new
  simp [Stage.holds, Stage.guard, Stage.point]

theorem sectionWorld_start (data : T) :
    SectionWorld data (.new data) (fun _ : ι => .idle) (fun _ => false) [] [] data where
  pointed := .nil
  mutex := by
    rw [shadow_idle]
    exact .start
  writes := by simp [Stage.Writes, Stage.guard]
  settled _ := rfl
  sees _ := trivial

/-- The mutex is back where it began when all sections have returned. -/
theorem eq_new_of_idle {inner : Inner T} {last : T}
    (hmutex : (system ι).Reach State.NoLateReader new (shadow inner fun _ => .idle))
    (hdata : inner.data = last) : inner = .new last := by
  rw [shadow_idle] at hmutex
  obtain ⟨hcounted, hflagged⟩ := counted_and_flagged (hmutex.mono fun _ _ _ => trivial)
  have hrefs : inner.refs = 0 := by
    simpa [State.Counted, State.readers, State.writers, new, Point.owes] using hcounted
  have hlocked : 0 = inner.locked.toNat := by
    simpa [State.Flagged, State.owners, State.writers, new, Point.holds] using hflagged
  obtain ⟨value, refs, locked⟩ := inner
  obtain rfl : value = last := hdata
  obtain rfl : refs = 0 := hrefs
  obtain rfl : locked = false := Bool.toNat_eq_zero.mp hlocked.symm
  rfl

/-- **Sections are atomic** while no reader increments `refs` late: a section that reads sees the
data of one moment, a section that writes is seen as a whole, and when no mutable guard is live the
data is what the linearization leads to. When all sections have returned, the mutex is as new. -/
theorem sections_linearizable {data : T} {config : Config (object T) ι} {writes : ι → Bool}
    (hreach : (((object T).threads ι).monitored (logging writesAfter)).Reach NoLateJoin
      (.initial (.new data), fun _ => false) (config, writes)) :
    ∃ order last, Linearization SectionStep data config.history order last ∧
      ((∀ t, writes t = false) → config.state.data = last) ∧
      (config.Quiescent → config.state = .new last) := by
  have : Nonempty T := ⟨data⟩
  obtain ⟨stage, hfollows, order, last, hw⟩ := Protocol.log_invariant sections_sound
    (sections_keeps data) ⟨[], data, sectionWorld_start data⟩ hreach
  refine ⟨order, last, hw.pointed.linearization, ?_, ?_⟩
  · intro hnone
    apply hw.settled
    intro t ht
    rw [← hw.writes t, hnone t] at ht
    cases ht
  · intro hquiescent
    have hidle : stage = fun _ => .idle := by
      funext t
      have ht := hfollows t
      rw [hquiescent t] at ht
      exact ht
    have hmutex := hw.mutex
    rw [hidle] at hmutex
    apply eq_new_of_idle hmutex
    apply hw.settled
    simp [hidle, Stage.Writes, Stage.guard]

/-- A reader waits while a writer is between its two writes. -/
theorem sections_linearizable_waiting :
    ∃ (config : Config (object ℕ) Bool) (writes : Bool → Bool),
      config.history = [.invoke true (.write [(· + 1), (· * 2)]), .invoke false (.read 2),
        .respond true (.write [(· + 1), (· * 2)]) .unit,
        .respond false (.read 2) (.read [4, 4])] ∧
      ∃ order last, Linearization SectionStep 1 config.history order last ∧
        ((∀ t, writes t = false) → config.state.data = last) ∧
        (config.Quiescent → config.state = .new last) := by
  obtain ⟨config, writes, hrun, hhistory⟩ : ∃ config writes,
      (((object ℕ).threads Bool).monitored (logging writesAfter)).runIf NoLateJoin
        (.initial (.new 1), fun _ => false)
        ([.invoke true (.write [(· + 1), (· * 2)]), .invoke false (.read 2)] ++
          List.replicate 6 (.tick true) ++ [.tick false] ++ List.replicate 7 (.tick true) ++
          List.replicate 9 (.tick false)) = some (config, writes) ∧
      config.history = [.invoke true (.write [(· + 1), (· * 2)]), .invoke false (.read 2),
        .respond true (.write [(· + 1), (· * 2)]) .unit,
        .respond false (.read 2) (.read [4, 4])] := ⟨_, _, rfl, rfl⟩
  exact ⟨config, writes, hhistory, sections_linearizable (System.reach_of_runIf _ hrun)⟩

end Mutual.RelaxedMutex.Sections
