import Mathlib.Data.Fintype.Basic
import Mutual.Concurrency.Interleaving
import Mutual.CowCalls
import Mutual.CowGuarded

/-!
# What `may_block_ref` and `may_block_mut` promise

`CowData` says of its `lock_ref` and `lock_mut` that they do not block. Both wait for the immutable
lock to be free, and `lock_mut` of lock-protected data takes the mutable lock, in loops that only
another thread ends. So where there is data, a thread in one of these calls can finish it on its own
while the locks it has yet to pass are free, and not otherwise.
-/

namespace Mutual.CowData.Guarded

open Concurrency

variable {α : Type} {ι : Type}

/-- The `CowData` a call of `lock_ref` or `lock_mut` is made of, and whether it may block. -/
def Call.lock? : Call α → Option (CowData × Bool)
  | .getRef self => some (self, mayBlockRef)
  | .getMut self => some (self, mayBlockMut)
  | _ => none

/-- The thread gets its reply by its own steps alone. -/
def Finishes (heap : Heap α) (code : Prog (sig α) (Outcome α)) : Prop :=
  ∃ final result, (object α).Completes heap code final result

/-- A thread in a call that may not block finishes it on its own, unless there is no data or the call
has panicked. -/
def NeverBlocks (config : Config (object α) ι) : Prop :=
  ∀ t call code self, config.thread t = .busy call code → call.lock? = some (self, false) →
    (config.state.inner self.slot).isSome = true → (∀ message, code ≠ .panic message) →
    Finishes config.state code

/-! ### The locks ahead of a thread -/

/-- In `lock_ref` or `lock_mut`, the thread waits for the immutable lock next. -/
def AwaitsImm (slot : Slot) : Thread (object α) → Prop
  | .busy (.getRef self) (.op (.awaitImm _) _) => self.slot = slot
  | .busy (.getMut self) (.op (.awaitImm _) _) => self.slot = slot
  | _ => False

/-- The accesses of `get_mut` up to the one that takes the mutable lock. -/
def Instr.untilMut : Instr α → Bool
  | .awaitImm _ | .load _ | .acquireMut _ => true
  | _ => false

/-- In `lock_mut` of lock-protected data, the thread has yet to take the mutable lock. -/
def AwaitsMut (slot : Slot) : Thread (object α) → Prop
  | .busy (.getMut self) (.op instr _) =>
      self.isMutLockProtected = true ∧ self.slot = slot ∧ Instr.untilMut instr = true
  | _ => False

/-- If there is data, the locks that the thread has yet to pass in `lock_ref` or `lock_mut` are
free. -/
structure Clear (heap : Heap α) (thread : Thread (object α)) : Prop where
  immFree : ∀ slot, AwaitsImm slot thread → (heap.inner slot).isSome = true →
    heap.immLock slot = false
  mutFree : ∀ slot, AwaitsMut slot thread → (heap.inner slot).isSome = true →
    heap.mutLock slot = false

/-- The access takes no lock of data that the thread has yet to pass, and puts no data behind a lock
that is taken and that the thread has yet to pass. -/
def Instr.LeavesAhead (heap : Heap α) (thread : Thread (object α)) : Instr α → Prop
  | .acquireImm slot => (heap.inner slot).isSome = true → ¬ AwaitsImm slot thread
  | .acquireMut slot => (heap.inner slot).isSome = true → ¬ AwaitsMut slot thread
  | .store slot (some _) | .swap slot (some _) =>
      (AwaitsImm slot thread → heap.immLock slot = false) ∧
        (AwaitsMut slot thread → heap.mutLock slot = false)
  | _ => True

/-- The next access of `t` is no hindrance to another thread. -/
def TakesNoneAhead (config : Config (object α) ι) (t : ι) : Prop :=
  match config.instr? t with
  | some instr => ∀ u, u ≠ t → Instr.LeavesAhead config.state (config.thread u) instr
  | none => True

/-- `lock_ref` and `lock_mut` of data begin with the locks they have to pass free, nobody else takes a
lock of data that they have yet to pass, and no data gets behind such a lock. -/
def LeavesClear (config : Config (object α) ι) : Action (object α) ι → Prop
  | .invoke _ (.getRef self) => (config.state.inner self.slot).isSome = true →
      config.state.immLock self.slot = false
  | .invoke _ (.getMut self) => (config.state.inner self.slot).isSome = true →
      config.state.immLock self.slot = false ∧
        (self.isMutLockProtected = true → config.state.mutLock self.slot = false)
  | .invoke _ _ => True
  | .tick t => TakesNoneAhead config t

instance (slot : Slot) : DecidablePred (AwaitsImm (α := α) slot) := by
  intro thread
  unfold AwaitsImm
  split <;> infer_instance

instance (slot : Slot) : DecidablePred (AwaitsMut (α := α) slot) := by
  intro thread
  unfold AwaitsMut
  split <;> infer_instance

instance (heap : Heap α) (thread : Thread (object α)) :
    DecidablePred (Instr.LeavesAhead heap thread) := by
  intro instr
  unfold Instr.LeavesAhead
  split <;> infer_instance

instance [Fintype ι] [DecidableEq ι] (config : Config (object α) ι) :
    DecidablePred (TakesNoneAhead config) := by
  intro t
  unfold TakesNoneAhead
  split <;> infer_instance

instance [Fintype ι] [DecidableEq ι] (config : Config (object α) ι) :
    ∀ action, Decidable (LeavesClear config action)
  | .invoke _ (.getRef self) =>
      inferInstanceAs (Decidable ((config.state.inner self.slot).isSome = true →
        config.state.immLock self.slot = false))
  | .invoke _ (.getMut self) =>
      inferInstanceAs (Decidable ((config.state.inner self.slot).isSome = true →
        config.state.immLock self.slot = false ∧
          (self.isMutLockProtected = true → config.state.mutLock self.slot = false)))
  | .invoke _ (.set ..) | .invoke _ (.setNull _) | .invoke _ (.bumpIntoNull ..)
  | .invoke _ (.swap ..) | .invoke _ (.isNull _) | .invoke _ (.dropMut _) => .isTrue trivial
  | .tick t => inferInstanceAs (Decidable (TakesNoneAhead config t))

/-! ### A thread on its own -/

section Alone

variable {heap : Heap α} {slot : Slot}

@[simp] theorem finishes_reply {result : Reply α} : Finishes heap (no_index (reply result)) :=
  ⟨heap, result, .refl⟩

theorem finishes_op {after : Heap α} {instr : Instr α} {answer : instr.Answer}
    {next : instr.Answer → Prog (sig α) (Outcome α)}
    (hexec : exec instr heap = (after, some answer)) :
    Finishes heap (.op instr next) ↔ Finishes after (next answer) :=
  exists₂_congr fun _ _ => Object.completes_op (O := object α) hexec

@[simp] theorem finishes_load {next : Option α → Prog (sig α) (Outcome α)} :
    Finishes heap (no_index (.op (.load slot) next)) ↔ Finishes heap (next (heap.inner slot)) :=
  finishes_op rfl

@[simp] theorem finishes_loadFull {next : Option α → Prog (sig α) (Outcome α)} :
    Finishes heap (no_index (.op (.loadFull slot) next)) ↔ Finishes heap (next (heap.inner slot)) :=
  finishes_op rfl

/-- A loop that is not left without another thread. -/
theorem not_finishes_of_retry {instr : Instr α} {next : instr.Answer → Prog (sig α) (Outcome α)}
    (hexec : exec instr heap = (heap, none)) : ¬ Finishes heap (.op instr next) := by
  rintro ⟨final, result, hrun⟩
  exact Object.not_ends_of_retry (O := object α) hexec ⟨_, rfl, hrun⟩

@[simp] theorem finishes_awaitImm {next : Unit → Prog (sig α) (Outcome α)} :
    Finishes heap (no_index (.op (.awaitImm slot) next)) ↔
      heap.immLock slot = false ∧ Finishes heap (next ()) := by
  cases hlocked : heap.immLock slot with
  | false =>
      have hexec : exec (.awaitImm slot) heap = (heap, some ()) := by simp [exec, hlocked]
      simpa using finishes_op hexec
  | true =>
      have hexec : exec (.awaitImm slot) heap = (heap, none) := by simp [exec, hlocked]
      simpa using not_finishes_of_retry hexec

@[simp] theorem finishes_acquireMut {next : Unit → Prog (sig α) (Outcome α)} :
    Finishes heap (no_index (.op (.acquireMut slot) next)) ↔
      heap.mutLock slot = false ∧ Finishes (heap.setMutLock slot true) (next ()) := by
  cases hlocked : heap.mutLock slot with
  | false =>
      have hexec : exec (.acquireMut slot) heap = (heap.setMutLock slot true, some ()) := by
        simp [exec, hlocked]
      simpa using finishes_op hexec
  | true =>
      have hexec : exec (.acquireMut slot) heap = (heap, none) := by
        simp [exec, hlocked, Heap.setMutLock_self hlocked]
      simpa using not_finishes_of_retry hexec

end Alone

/-! ### The code -/

/-- `lock_ref` behind its null test. -/
def testedRef (self : CowData) : Option α → Prog (sig α) (Outcome α)
  | none => .panic "Cannot get_ref to null cow data"
  | some _ => .op (.loadFull self.slot) fun node => reply (.refGuard node)

theorem lockRef_bind (self : CowData) :
    self.lockRef.bind (fun node => reply (.refGuard node)) =
      .op (.awaitImm self.slot) fun _ => .op (.load self.slot) (testedRef (α := α) self) := by
  have hnext : testedRef (α := α) self = fun content =>
      (if content.isNone then .panic "Cannot get_ref to null cow data"
        else perform (.loadFull self.slot)).bind fun node => reply (.refGuard node) := by
    funext content
    cases content <;> rfl
  rw [hnext]
  rfl

def loadedMut (self : CowData) : Prog (sig α) (Outcome α) :=
  .op (.loadFull self.slot) fun data =>
    reply (.mutGuard { originalStructure := self.slot, data := data })

/-- `lock_mut` behind its null test. -/
def testedMut (self : CowData) : Option α → Prog (sig α) (Outcome α)
  | none => .panic "Cannot lock_mut to null cow data"
  | some _ =>
      if self.isMutLockProtected then .op (.acquireMut self.slot) fun _ => loadedMut self
      else loadedMut self

theorem lockMut_bind (self : CowData) :
    self.lockMut.bind (fun guard => reply (.mutGuard guard)) =
      .op (.awaitImm self.slot) fun _ => .op (.load self.slot) (testedMut (α := α) self) := by
  have hnext : testedMut (α := α) self = fun content =>
      (if content.isNone then .panic "Cannot lock_mut to null cow data"
        else createLock self >>= fun _ => perform (.loadFull self.slot) >>= fun data =>
          return { originalStructure := self.slot, data := data }).bind
        fun guard => reply (.mutGuard guard) := by
    funext content
    cases content with
    | none => rfl
    | some data =>
        rw [testedMut, createLock]
        split <;> rfl
  rw [hnext]
  rfl

theorem clear_iff {heap : Heap α} {thread : Thread (object α)} :
    Clear heap thread ↔
      (∀ slot, AwaitsImm slot thread → (heap.inner slot).isSome = true →
        heap.immLock slot = false) ∧
      ∀ slot, AwaitsMut slot thread → (heap.inner slot).isSome = true →
        heap.mutLock slot = false :=
  ⟨fun hclear => ⟨hclear.immFree, hclear.mutFree⟩, fun hclear => ⟨hclear.1, hclear.2⟩⟩

theorem clear_of_not_awaits {heap : Heap α} {thread : Thread (object α)}
    (himm : ∀ slot, ¬ AwaitsImm slot thread) (hmut : ∀ slot, ¬ AwaitsMut slot thread) :
    Clear heap thread where
  immFree slot hawaits := absurd hawaits (himm slot)
  mutFree slot hawaits := absurd hawaits (hmut slot)

theorem clear_idle (heap : Heap α) : Clear heap .idle :=
  clear_of_not_awaits (fun _ => id) fun _ => id

theorem clear_of_lock?_none {call : Call α} (hcall : call.lock? = none) {heap : Heap α}
    (code : Prog (sig α) (Outcome α)) : Clear heap (.busy call code) := by
  cases call with
  | getRef self => cases hcall
  | getMut self => cases hcall
  | _ => exact clear_of_not_awaits (fun _ => id) fun _ => id

/-- A thread that is not at an access waits for nothing. -/
theorem clear_of_not_op {code : Prog (sig α) (Outcome α)} (hcode : ∀ instr next, code ≠ .op instr next)
    (heap : Heap α) (call : Call α) : Clear heap (.busy call code) := by
  cases code with
  | ret | panic => cases call <;> exact clear_of_not_awaits (fun _ => id) fun _ => id
  | op instr next => exact absurd rfl (hcode instr next)

section Slots

variable {call : Call α} {self : CowData} {code : Prog (sig α) (Outcome α)} {slot : Slot}

/-- The locks a thread waits for are those of the `CowData` its call is made of. -/
theorem slot_of_awaitsImm (hlock : call.lock? = some (self, false))
    (hawaits : AwaitsImm slot (.busy call code)) : self.slot = slot := by
  cases call with
  | getRef | getMut =>
      cases hlock
      cases code with
      | ret | panic => exact hawaits.elim
      | op instr next =>
          cases instr with
          | awaitImm => exact hawaits
          | _ => exact hawaits.elim
  | _ => cases hlock

theorem slot_of_awaitsMut (hlock : call.lock? = some (self, false))
    (hawaits : AwaitsMut slot (.busy call code)) : self.slot = slot := by
  cases call with
  | getRef => exact hawaits.elim
  | getMut =>
      cases hlock
      cases code with
      | ret | panic => exact hawaits.elim
      | op instr next => exact hawaits.2.1
  | _ => cases hlock

theorem clear_of_null (hlock : call.lock? = some (self, false)) {heap : Heap α}
    (hnull : heap.inner self.slot = none) : Clear heap (.busy call code) := by
  have hnone : ∀ slot, self.slot = slot → ¬ (heap.inner slot).isSome = true := by
    rintro slot rfl hsome
    rw [hnull] at hsome
    cases hsome
  constructor
  · intro slot hawaits hsome
    exact absurd hsome (hnone slot (slot_of_awaitsImm hlock hawaits))
  · intro slot hawaits hsome
    exact absurd hsome (hnone slot (slot_of_awaitsMut hlock hawaits))

end Slots

theorem clear_or_holds (heap : Heap α) (call : Call α) (code : Prog (sig α) (Outcome α)) :
    Clear heap (.busy call code) ∨ ∃ self, call.lock? = some (self, false) ∧
      (heap.inner self.slot).isSome = true ∧ ∀ message, code ≠ .panic message := by
  cases code with
  | ret | panic => exact .inl (clear_of_not_op (by rintro _ _ ⟨⟩) heap call)
  | op instr next =>
      cases call with
      | getRef self | getMut self =>
          cases hinner : heap.inner self.slot with
          | none => exact .inl (clear_of_null rfl hinner)
          | some data => exact .inr ⟨self, rfl, congrArg Option.isSome hinner, by rintro _ ⟨⟩⟩
      | _ => exact .inl (clear_of_lock?_none rfl _)

/-- What is to be shown of every access of every call: a thread at it finishes on its own exactly if
the locks ahead are free, and if they are, they are when it has gone on. -/
structure Passes (call : Call α) (code : Prog (sig α) (Outcome α)) : Prop where
  finishes_iff : ∀ (heap : Heap α) self, call.lock? = some (self, false) →
    (heap.inner self.slot).isSome = true → (∀ message, code ≠ .panic message) →
    (Finishes heap code ↔ Clear heap (.busy call code))
  next : ∀ (heap : Heap α) instr next, code = .op instr next → Clear heap (.busy call code) →
    ∀ answer, (exec instr heap).2 = some answer →
    Clear (exec instr heap).1 (.busy call (next answer))

theorem passes_of_lock?_none {call : Call α} (hcall : call.lock? = none)
    (code : Prog (sig α) (Outcome α)) : Passes call code where
  finishes_iff := by
    intro heap self hself
    rw [hcall] at hself
    cases hself
  next := by
    intro heap instr next _ _ answer _
    exact clear_of_lock?_none hcall _

theorem passes_panic (call : Call α) (message : String) : Passes call (.panic message) where
  finishes_iff := by
    intro heap self _ _ hpanic
    exact absurd rfl (hpanic message)
  next := by
    rintro heap instr next ⟨⟩

theorem passes_reply (call : Call α) (result : Reply α) : Passes call (reply result) where
  finishes_iff := by
    intro heap self _ _ _
    exact iff_of_true finishes_reply (clear_of_not_op (by rintro _ _ ⟨⟩) heap call)
  next := by
    rintro heap instr next ⟨⟩

theorem passes_op {call : Call α} {self : CowData} {instr : Instr α}
    {code : instr.Answer → Prog (sig α) (Outcome α)} (hlock : call.lock? = some (self, false))
    (hfinishes : ∀ (heap : Heap α) data, heap.inner self.slot = some data →
      (Finishes heap (.op instr code) ↔ Clear heap (.busy call (.op instr code))))
    (hnext : ∀ heap : Heap α, Clear heap (.busy call (.op instr code)) → ∀ answer,
      Clear (exec instr heap).1 (.busy call (code answer))) : Passes call (.op instr code) where
  finishes_iff := by
    intro heap self' hself hsome _
    rw [hlock] at hself
    cases hself
    obtain ⟨data, hdata⟩ := Option.isSome_iff_exists.mp hsome
    exact hfinishes heap data hdata
  next := by
    rintro heap _ _ ⟨⟩ hclear answer _
    exact hnext heap hclear answer

theorem getRef_passes (self : CowData) : (enter (.getRef self : Call α)).Throughout
    (Passes (.getRef self)) := by
  change (self.lockRef.bind fun node => reply (.refGuard node)).Throughout _
  rw [lockRef_bind]
  refine ⟨passes_op rfl ?_ ?_, fun _ => ⟨passes_op rfl ?_ ?_, ?_⟩⟩
  · intro heap data hdata
    simp [clear_iff, AwaitsImm, AwaitsMut, hdata, testedRef]
  · intro heap _ _
    simp [clear_iff, AwaitsImm, AwaitsMut]
  · intro heap data hdata
    simp [clear_iff, AwaitsImm, AwaitsMut, hdata, testedRef]
  · intro heap _ content
    cases content <;> simp [clear_iff, AwaitsImm, AwaitsMut, testedRef]
  · intro content
    cases content with
    | none => exact passes_panic _ _
    | some data =>
        refine ⟨passes_op rfl ?_ ?_, fun node => passes_reply _ _⟩
        · intro heap data hdata
          simp [clear_iff, AwaitsImm, AwaitsMut]
        · intro heap _ _
          simp [clear_iff, AwaitsImm, AwaitsMut]

theorem getMut_passes (self : CowData) : (enter (.getMut self : Call α)).Throughout
    (Passes (.getMut self)) := by
  change (self.lockMut.bind fun guard => reply (.mutGuard guard)).Throughout _
  rw [lockMut_bind]
  have hloaded : (loadedMut (α := α) self).Throughout (Passes (.getMut self)) := by
    refine ⟨passes_op rfl ?_ ?_, fun _ => passes_reply _ _⟩
    · intro heap data hdata
      simp [clear_iff, AwaitsImm, AwaitsMut, Instr.untilMut]
    · intro heap _ _
      simp [clear_iff, AwaitsImm, AwaitsMut]
  refine ⟨passes_op rfl ?_ ?_, fun _ => ⟨passes_op rfl ?_ ?_, ?_⟩⟩
  · intro heap data hdata
    cases hlocked : self.isMutLockProtected <;>
      simp [clear_iff, AwaitsImm, AwaitsMut, Instr.untilMut, hdata, testedMut, loadedMut, hlocked]
  · intro heap hclear _
    exact ⟨fun _ => False.elim, hclear.mutFree⟩
  · intro heap data hdata
    cases hlocked : self.isMutLockProtected <;>
      simp [clear_iff, AwaitsImm, AwaitsMut, Instr.untilMut, hdata, testedMut, loadedMut, hlocked]
  · intro heap hclear content
    cases content with
    | none => simp [clear_iff, AwaitsImm, AwaitsMut, testedMut]
    | some data =>
        rw [testedMut]
        split
        · exact ⟨fun _ => False.elim, hclear.mutFree⟩
        · simp [clear_iff, AwaitsImm, AwaitsMut, Instr.untilMut, loadedMut]
  · intro content
    cases content with
    | none => exact passes_panic _ _
    | some data =>
        rw [testedMut]
        split
        · rename_i hlocked
          refine ⟨passes_op rfl ?_ ?_, fun _ => hloaded⟩
          · intro heap data hdata
            simp [clear_iff, AwaitsImm, AwaitsMut, Instr.untilMut, loadedMut, hlocked, hdata]
          · intro heap _ _
            simp [clear_iff, AwaitsImm, AwaitsMut, Instr.untilMut, loadedMut]
        · exact hloaded

theorem enter_passes (call : Call α) : (enter call).Throughout (Passes call) := by
  cases call with
  | getRef self => exact getRef_passes self
  | getMut self => exact getMut_passes self
  | _ => exact Prog.Throughout.of_forall (passes_of_lock?_none rfl) _

/-! ### Runs -/

section Runs

theorem exec_immLock {instr : Instr α} {heap : Heap α} {slot : Slot}
    (hinstr : instr ≠ .acquireImm slot) (hfree : heap.immLock slot = false) :
    (exec instr heap).1.immLock slot = false := by
  cases instr with
  | acquireImm taken =>
      have hne : slot ≠ taken := by
        rintro rfl
        exact hinstr rfl
      simp [exec, Function.update_of_ne hne, hfree]
  | releaseImm freed =>
      by_cases hfreed : slot = freed <;> simp [exec, hfreed, hfree]
  | alloc content =>
      by_cases hfresh : slot = heap.fresh <;> simp [exec, hfresh, hfree]
  | _ => exact hfree

theorem exec_mutLock {instr : Instr α} {heap : Heap α} {slot : Slot}
    (hinstr : instr ≠ .acquireMut slot) (hfree : heap.mutLock slot = false) :
    (exec instr heap).1.mutLock slot = false := by
  cases instr with
  | acquireMut taken =>
      have hne : slot ≠ taken := by
        rintro rfl
        exact hinstr rfl
      simp [exec, Function.update_of_ne hne, hfree]
  | releaseMut freed =>
      by_cases hfreed : slot = freed <;> simp [exec, hfreed, hfree]
  | alloc content =>
      by_cases hfresh : slot = heap.fresh <;> simp [exec, hfresh, hfree]
  | _ => exact hfree

def Instr.Puts (slot : Slot) : Instr α → Prop
  | .store target (some _) | .swap target (some _) => target = slot
  | _ => False

theorem free_of_puts {heap : Heap α} {thread : Thread (object α)} {instr : Instr α}
    (hleaves : Instr.LeavesAhead heap thread instr) {slot : Slot} (hputs : Instr.Puts slot instr) :
    (AwaitsImm slot thread → heap.immLock slot = false) ∧
      (AwaitsMut slot thread → heap.mutLock slot = false) := by
  match instr, hputs with
  | .store _ (some _), rfl | .swap _ (some _), rfl => exact hleaves

/-- Where there is data after an access, there was data before it, or the access has put it there, or
the slot is new. -/
theorem inner_cases {instr : Instr α} {heap : Heap α} {slot : Slot}
    (hsome : ((exec instr heap).1.inner slot).isSome = true) :
    (heap.inner slot).isSome = true ∨ Instr.Puts slot instr ∨
      (exec instr heap).1.immLock slot = false ∧ (exec instr heap).1.mutLock slot = false := by
  cases instr with
  | store target content | swap target content =>
      by_cases htarget : target = slot
      · subst htarget
        cases content with
        | none =>
            change (Function.update heap.inner target none target).isSome = true at hsome
            rw [Function.update_self] at hsome
            cases hsome
        | some data => exact .inr (.inl rfl)
      · change (Function.update heap.inner target content slot).isSome = true at hsome
        rw [Function.update_of_ne (Ne.symm htarget)] at hsome
        exact .inl hsome
  | alloc content =>
      by_cases hfresh : slot = heap.fresh
      · subst hfresh
        exact .inr (.inr ⟨Function.update_self .., Function.update_self ..⟩)
      · change (Function.update heap.inner heap.fresh content slot).isSome = true at hsome
        rw [Function.update_of_ne hfresh] at hsome
        exact .inl hsome
  | _ => exact .inl hsome

/-- **One access of another thread** leaves the locks ahead free exactly if it meets the
condition. -/
theorem clear_exec_iff {heap : Heap α} {thread : Thread (object α)} {instr : Instr α}
    (hclear : Clear heap thread) :
    Clear (exec instr heap).1 thread ↔ Instr.LeavesAhead heap thread instr := by
  constructor
  · intro hafter
    cases instr with
    | acquireImm slot =>
        intro hsome hawaits
        have hfree := hafter.immFree slot hawaits hsome
        simp [exec] at hfree
    | acquireMut slot =>
        intro hsome hawaits
        have hfree := hafter.mutFree slot hawaits hsome
        simp [exec] at hfree
    | store slot content | swap slot content =>
        cases content with
        | none => trivial
        | some data =>
            have hsome : (Function.update heap.inner slot (some data) slot).isSome = true := by
              rw [Function.update_self]
              rfl
            exact ⟨fun hawaits => hafter.immFree slot hawaits hsome,
              fun hawaits => hafter.mutFree slot hawaits hsome⟩
    | _ => trivial
  · intro hleaves
    constructor
    · intro slot hawaits hsome
      have hinstr : instr ≠ .acquireImm slot := by
        rintro rfl
        exact hleaves hsome hawaits
      rcases inner_cases hsome with hbefore | hputs | ⟨hfree, -⟩
      · exact exec_immLock hinstr (hclear.immFree slot hawaits hbefore)
      · exact exec_immLock hinstr ((free_of_puts hleaves hputs).1 hawaits)
      · exact hfree
    · intro slot hawaits hsome
      have hinstr : instr ≠ .acquireMut slot := by
        rintro rfl
        exact hleaves hsome hawaits
      rcases inner_cases hsome with hbefore | hputs | ⟨-, hfree⟩
      · exact exec_mutLock hinstr (hclear.mutFree slot hawaits hbefore)
      · exact exec_mutLock hinstr ((free_of_puts hleaves hputs).2 hawaits)
      · exact hfree

variable {config : Config (object α) ι}

theorem clear_begin_iff {t : ι} {call : Call α} :
    Clear config.state (.busy call (enter call)) ↔ LeavesClear config (.invoke t call) := by
  cases call with
  | getRef self =>
      change Clear _ (.busy _ (self.lockRef.bind _)) ↔ _
      rw [lockRef_bind]
      simp [clear_iff, AwaitsImm, AwaitsMut, LeavesClear]
  | getMut self =>
      change Clear _ (.busy _ (self.lockMut.bind _)) ↔ _
      rw [lockMut_bind]
      constructor
      · intro hclear hsome
        exact ⟨hclear.immFree _ rfl hsome, fun hlocked => hclear.mutFree _ ⟨hlocked, rfl, rfl⟩ hsome⟩
      · intro hleaves
        constructor
        · rintro _ rfl hsome
          exact (hleaves hsome).1
        · rintro _ ⟨hlocked, rfl, -⟩ hsome
          exact (hleaves hsome).2 hlocked
  | _ => exact iff_of_true (clear_of_lock?_none rfl _) trivial

/-- An access that a thread has to make again leaves the locks ahead of it free. -/
theorem clear_retried {heap : Heap α} {call : Call α} {instr : Instr α}
    {next : instr.Answer → Prog (sig α) (Outcome α)}
    (hclear : Clear heap (.busy call (.op instr next))) (hexec : (exec instr heap).2 = none) :
    Clear (exec instr heap).1 (.busy call (.op instr next)) := by
  refine (clear_exec_iff hclear).mpr ?_
  cases instr with
  | awaitImm => trivial
  | acquireImm slot =>
      intro _ hawaits
      cases call <;> exact hawaits
  | acquireMut slot =>
      intro hsome hawaits
      have hfree := hclear.mutFree slot hawaits hsome
      simp [exec, hfree] at hexec
  | _ => cases hexec

variable [DecidableEq ι]

theorem forall_clear_iff {t : ι} {thread : Thread (object α)} {heap : Heap α} :
    (∀ u, Clear heap (Function.update config.thread t thread u)) ↔
      Clear heap thread ∧ ∀ u, u ≠ t → Clear heap (config.thread u) :=
  Function.forall_update_iff config.thread fun _ thread => Clear heap thread

/-- An access leaves the locks ahead of the other threads free exactly if it meets the condition. -/
theorem clear_access_iff {t : ι} {call : Call α} {instr : Instr α}
    {next : instr.Answer → Prog (sig α) (Outcome α)} {thread : Thread (object α)}
    (hclear : ∀ u, Clear config.state (config.thread u)) (hat : config.At t call instr next)
    (hthread : Clear (exec instr config.state).1 thread) :
    (∀ u, Clear (exec instr config.state).1 (Function.update config.thread t thread u)) ↔
      LeavesClear config (.tick t) := by
  rw [forall_clear_iff, and_iff_right hthread, LeavesClear, TakesNoneAhead, hat.instr?_eq]
  exact forall₂_congr fun u _ => clear_exec_iff (hclear u)

/-- **A step leaves the locks ahead free** exactly if it meets the condition. -/
theorem clear_step_iff {after : Config (object α) ι} {action : Action (object α) ι}
    (hclear : ∀ t, Clear config.state (config.thread t))
    (hcode : ∀ t call code, config.thread t = .busy call code → code.Throughout (Passes call))
    (hstep : config.step action = some after) :
    (∀ u, Clear after.state (after.thread u)) ↔ LeavesClear config action := by
  have hbusy : ∀ t call code, config.thread t = .busy call code →
      Clear config.state (.busy call code) := by
    intro t call code hthread
    have ht := hclear t
    rwa [hthread] at ht
  rcases Config.step_cases hstep with ⟨t, call, rfl, -, rfl⟩ | ⟨t, call, result, rfl, hthread, rfl⟩ |
    ⟨t, call, ⟨⟩, -⟩ | ⟨t, call, instr, next, state, answer, rfl, hat, hexec, rfl⟩ |
    ⟨t, call, instr, next, state, rfl, hat, hexec, rfl⟩
  · have hbegin : Clear config.state (.busy call (enter call)) ↔
        LeavesClear config (.invoke t call) := clear_begin_iff
    exact (forall_clear_iff.trans (and_iff_left fun u _ => hclear u)).trans hbegin
  · refine iff_of_true (forall_clear_iff.mpr ⟨clear_idle _, fun u _ => hclear u⟩) ?_
    simp only [LeavesClear, TakesNoneAhead, Config.instr?, hthread]
  · have hstate : (exec instr config.state).1 = state := congrArg Prod.fst hexec
    subst hstate
    exact clear_access_iff hclear hat ((hcode t call _ hat).here.next _ instr next rfl
      (hbusy t call _ hat) answer (congrArg Prod.snd hexec))
  · have hstate : (exec instr config.state).1 = state := congrArg Prod.fst hexec
    subst hstate
    exact clear_access_iff hclear hat
      (clear_retried (hbusy t call _ hat) (congrArg Prod.snd hexec))

theorem code_passes {heap : Heap α} {cond : Config (object α) ι → Action (object α) ι → Prop}
    (hreach : ((object α).threads ι).Reach cond (.initial heap) config) (t : ι) (call : Call α)
    (code : Prog (sig α) (Outcome α)) (hthread : config.thread t = .busy call code) :
    code.Throughout (Passes call) := by
  refine Config.throughout enter_passes ?_ hreach hthread
  rintro call ⟨⟩

theorem finishes_iff_clear {heap : Heap α}
    {cond : Config (object α) ι → Action (object α) ι → Prop}
    (hreach : ((object α).threads ι).Reach cond (.initial heap) config) {t : ι} {call : Call α}
    {code : Prog (sig α) (Outcome α)} {self : CowData} (hthread : config.thread t = .busy call code)
    (hlock : call.lock? = some (self, false)) (hsome : (config.state.inner self.slot).isSome = true)
    (hpanic : ∀ message, code ≠ .panic message) :
    Finishes config.state code ↔ Clear config.state (config.thread t) := by
  rw [hthread]
  exact (code_passes hreach t call code hthread).here.finishes_iff _ self hlock hsome hpanic

/-- **Not to block** is to have the locks ahead free. -/
theorem neverBlocks_iff {heap : Heap α} {cond : Config (object α) ι → Action (object α) ι → Prop}
    (hreach : ((object α).threads ι).Reach cond (.initial heap) config) :
    NeverBlocks config ↔ ∀ t, Clear config.state (config.thread t) := by
  constructor
  · intro hnever t
    cases hthread : config.thread t with
    | idle => exact clear_idle _
    | busy call code =>
        rcases clear_or_holds config.state call code with hclear | ⟨self, hlock, hsome, hpanic⟩
        · exact hclear
        · rw [← hthread]
          exact (finishes_iff_clear hreach hthread hlock hsome hpanic).mp
            (hnever t call code self hthread hlock hsome hpanic)
  · intro hclear t call code self hthread hlock hsome hpanic
    exact (finishes_iff_clear hreach hthread hlock hsome hpanic).mpr (hclear t)

theorem clear_of_reach {heap : Heap α}
    (hreach : ((object α).threads ι).Reach LeavesClear (.initial heap) config) (t : ι) :
    Clear config.state (config.thread t) := by
  induction hreach generalizing t with
  | start => exact clear_idle heap
  | step hbefore hcond hstep ih =>
      exact (clear_step_iff ih (code_passes hbefore) hstep).mpr hcond t

/-- **`lock_ref` and `lock_mut` do not block** in any run in which nobody takes a lock of data that a
thread in one of them has yet to pass, and no data gets behind such a lock. After a step that does not
meet this they do, and wherever a thread is in any run, it finishes on its own exactly if the locks
ahead are free. -/
theorem never_blocks {heap : Heap α}
    (hreach : ((object α).threads ι).Reachable (.initial heap) config) :
    (((object α).threads ι).Reach LeavesClear (.initial heap) config →
      NeverBlocks config ∧ ∀ action after, config.step action = some after →
        (NeverBlocks after ↔ LeavesClear config action)) ∧
    ∀ t call code self, config.thread t = .busy call code → call.lock? = some (self, false) →
      (config.state.inner self.slot).isSome = true → (∀ message, code ≠ .panic message) →
      (Finishes config.state code ↔ Clear config.state (config.thread t)) := by
  refine ⟨fun hleaves => ⟨(neverBlocks_iff hreach).mpr (clear_of_reach hleaves), ?_⟩, ?_⟩
  · intro action after hstep
    rw [neverBlocks_iff (hreach.step trivial hstep)]
    exact clear_step_iff (clear_of_reach hleaves) (code_passes hreach) hstep
  · intro t call code self hthread hlock hsome hpanic
    exact finishes_iff_clear hreach hthread hlock hsome hpanic

/-- A reader behind its wait, and a writer with both locks of the `CowData`. -/
theorem never_blocks_reading : ∃ config : Config (object ℕ) Bool,
    config.state.immLock 0 = true ∧ config.state.mutLock 0 = true ∧
      ∃ code, config.thread true = .busy (.getRef ⟨0, true⟩) code ∧ Finishes config.state code := by
  obtain ⟨config, hrun, himm, hmut, hinner, code, hthread, hpanic⟩ :
      ∃ config : Config (object ℕ) Bool,
        ((object ℕ).threads Bool).runIf LeavesClear (.initial (Heap.empty.alloc (some 6)))
          (.invoke true (.getRef ⟨0, true⟩) :: List.replicate 2 (.tick true) ++
            .invoke false (.set ⟨0, true⟩ 7) :: List.replicate 3 (.tick false)) = some config ∧
        config.state.immLock 0 = true ∧ config.state.mutLock 0 = true ∧
        (config.state.inner 0).isSome = true ∧
        ∃ code, config.thread true = .busy (.getRef ⟨0, true⟩) code ∧
          ∀ message, code ≠ .panic message :=
    ⟨_, rfl, rfl, rfl, rfl, _, rfl, by rintro message ⟨⟩⟩
  have hreach := System.reach_of_runIf _ hrun
  have hnever := ((never_blocks (hreach.mono fun _ _ _ => trivial)).1 hreach).1
  exact ⟨config, himm, hmut, code, hthread,
    hnever true _ code ⟨0, true⟩ hthread rfl hinner hpanic⟩

/-- A writer is between its two accesses of the immutable lock, and a reader comes. -/
theorem never_blocks_fails :
    ¬ ∀ config : Config (object ℕ) Bool,
      ((object ℕ).threads Bool).Reachable (.initial (Heap.empty.alloc (some 6))) config →
      NeverBlocks config := by
  intro hclaim
  obtain ⟨config, hrun, hinner, hthread, himm⟩ : ∃ config : Config (object ℕ) Bool,
      ((object ℕ).threads Bool).run (.initial (Heap.empty.alloc (some 6)))
        (.invoke false (.set ⟨0, false⟩ 7) :: List.replicate 2 (.tick false) ++
          [.invoke true (.getRef ⟨0, false⟩)]) = some config ∧
      (config.state.inner 0).isSome = true ∧
      config.thread true = .busy (.getRef ⟨0, false⟩) (enter (.getRef ⟨0, false⟩)) ∧
      config.state.immLock 0 = true := ⟨_, rfl, rfl, rfl, rfl⟩
  have hfinishes := hclaim config (System.reachable_of_run _ hrun) true _ _ ⟨0, false⟩ hthread rfl
    hinner (by rintro message ⟨⟩)
  have hfree := (finishes_awaitImm.mp hfinishes).1
  rw [himm] at hfree
  cases hfree

end Runs

end Mutual.CowData.Guarded
