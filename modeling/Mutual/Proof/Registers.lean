import Mutual.Concurrency.Points
import Mutual.CowGuarded

/-!
# CowData is an atomic register

A `CowData` is read and written through several accesses: a test for null, the spin loops, and the
access to the content. Only the last of these counts. Each `set`, `set_null`, `is_null`, `get_ref`
and `get_mut`, and each drop of a mutable guard, takes effect at one access to the content, so that
all histories of these calls are those of a memory of registers, whatever the flags of the handles
are and however the calls overlap. A mutable guard is a read at `get_mut` and a write at its drop.

`bump_into_null` and `swap` write in two places, one after the other.
-/

namespace Mutual.CowData

open Concurrency

variable {α : Type}

/-- The accesses to the flags. -/
inductive Instr.Flags : Instr α → Prop
  | awaitImm {slot : Slot} : Flags (.awaitImm slot)
  | acquireMut {slot : Slot} : Flags (.acquireMut slot)
  | acquireImm {slot : Slot} : Flags (.acquireImm slot)
  | releaseMut {slot : Slot} : Flags (.releaseMut slot)
  | releaseImm {slot : Slot} : Flags (.releaseImm slot)

section NormalForms

variable {R : Type} (self : CowData)

theorem assign_bind (content : Option α) (next : Unit → Prog (sig α) R) :
    (self.assign content).bind next =
      self.createLock.bind fun _ => .op (.acquireImm self.slot) fun _ =>
        .op (.store self.slot content) fun _ => .op (.releaseImm self.slot) fun _ =>
          self.removeLock.bind next := by
  rcases self with ⟨slot, _ | _⟩ <;> rfl

theorem getRef_bind (next : Option α → Prog (sig α) R) :
    self.getRef.bind next = self.isNull.bind fun null =>
      if null then .panic "Cannot get_ref to null cow data" else .op (.loadFull self.slot) next := by
  refine congrArg (Prog.op _) (funext fun _ => congrArg (Prog.op _) (funext fun content => ?_))
  cases content <;> rfl

theorem getMut_bind (next : MutCowData α → Prog (sig α) R) :
    self.getMut.bind next = self.isNull.bind fun null =>
      if null then .panic "Cannot lock_mut to null cow data"
      else self.createLock.bind fun _ => .op (.loadFull self.slot) fun data =>
        next { originalStructure := self.slot, data := data } := by
  refine congrArg (Prog.op _) (funext fun _ => congrArg (Prog.op _) (funext fun content => ?_))
  rcases self with ⟨slot, _ | _⟩ <;> cases content <;> rfl

end NormalForms

namespace Guarded

def Call.Atomic : Call α → Prop
  | .bumpIntoNull _ _ _ | .swap _ _ => False
  | _ => True

instance : DecidablePred (Call.Atomic (α := α))
  | .bumpIntoNull _ _ _ | .swap _ _ => .isFalse id
  | .set _ _ | .setNull _ | .isNull _ | .getRef _ | .getMut _ | .dropMut _ => .isTrue trivial

/-- What a memory of registers does. A call that panics does not return. -/
inductive RegisterStep : (Slot → Option α) → Call α → Reply α → (Slot → Option α) → Prop
  | set {memory : Slot → Option α} {self : CowData} {data : α} :
      RegisterStep memory (.set self data) .unit (Function.update memory self.slot (some data))
  | setNull {memory : Slot → Option α} {self : CowData} :
      RegisterStep memory (.setNull self) .unit (Function.update memory self.slot none)
  | isNull {memory : Slot → Option α} {self : CowData} :
      RegisterStep memory (.isNull self) (.bool (memory self.slot).isNone) memory
  | getRef {memory : Slot → Option α} {self : CowData} :
      RegisterStep memory (.getRef self) (.refGuard (memory self.slot)) memory
  | getMut {memory : Slot → Option α} {self : CowData} :
      RegisterStep memory (.getMut self)
        (.mutGuard { originalStructure := self.slot, data := memory self.slot }) memory
  | dropMut {memory : Slot → Option α} {guard : MutCowData α} {data : α} :
      guard.data = some data → RegisterStep memory (.dropMut guard) .unit
        (Function.update memory guard.originalStructure (some data))

/-- The access at which a call takes effect, and what the call returns then. -/
def mark : Call α → (instr : Instr α) → instr.Answer → Option (Reply α)
  | .set _ _, .store _ _, _ | .setNull _, .store _ _, _ | .dropMut _, .store _ _, _ => some .unit
  | .isNull _, .load _, content => some (.bool content.isNone)
  | .getRef _, .loadFull _, content => some (.refGuard content)
  | .getMut _, .loadFull slot, content =>
      some (.mutGuard { originalStructure := slot, data := content })
  | _, _, _ => none

def registers (α : Type) : Pointing (object α) (Slot → Option α) where
  view := Heap.inner
  spec := RegisterStep
  mark := mark
  allowed := Call.Atomic
  stands := Empty.elim

section Accesses

variable {call : Call α} {slot : Slot}

theorem flags_quiet {instr : Instr α} (hflags : instr.Flags) : (registers α).Quiet instr := by
  intro heap
  cases hflags <;> rfl

theorem flags_mark {instr : Instr α} (hflags : instr.Flags) (call : Call α)
    (answer : instr.Answer) : mark call instr answer = none := by
  cases hflags <;> cases call <;> rfl

theorem flags_fits {instr : Instr α} (hflags : instr.Flags) : (registers α).Fits call instr :=
  (flags_quiet hflags).fits (flags_mark hflags call)

theorem load_quiet : (registers α).Quiet (.load slot) := fun _ => rfl

theorem loadFull_quiet : (registers α).Quiet (.loadFull slot) := fun _ => rfl

/-- The test for null is the point of `is_null` only. -/
theorem load_fits (hcall : ∀ self, call = .isNull self → self.slot = slot) :
    (registers α).Fits call (.load slot) := by
  apply load_quiet.fits_look
  intro heap after content result hexec hmark
  cases call with
  | isNull self =>
      obtain rfl := hcall self rfl
      cases hexec
      cases hmark
      exact .isNull
  | _ => cases hmark

theorem getRef_fits {self : CowData} : (registers α).Fits (.getRef self) (.loadFull self.slot) := by
  apply loadFull_quiet.fits_look
  intro heap after content result hexec hmark
  cases hexec
  cases hmark
  exact .getRef

theorem getMut_fits {self : CowData} : (registers α).Fits (.getMut self) (.loadFull self.slot) := by
  apply loadFull_quiet.fits_look
  intro heap after content result hexec hmark
  cases hexec
  cases hmark
  exact .getMut

theorem store_fits {content : Option α} (hmark : mark call (.store slot content) () = some .unit)
    (hspec : ∀ memory, RegisterStep memory call .unit (Function.update memory slot content)) :
    (registers α).Fits call (.store slot content) where
  retried := by
    rintro heap after ⟨⟩
  silent := by
    rintro heap after ⟨⟩ _ hsilent
    change mark call (.store slot content) () = none at hsilent
    rw [hmark] at hsilent
    cases hsilent
  point := by
    rintro heap after ⟨⟩ result hexec hresult
    change mark call (.store slot content) () = some result at hresult
    rw [hmark] at hresult
    cases hresult
    cases hexec
    exact hspec heap.inner

end Accesses

/-! ### The code -/

section Code

variable {call : Call α} {self : CowData}

/-- Before the point an access to a flag leaves the call where it is. -/
theorem flags_before {instr : Instr α} (hflags : instr.Flags)
    {next : instr.Answer → Prog (sig α) (Outcome α)}
    (hnext : ∀ answer, (registers α).protocol.Obeys call (next answer) (.called call)) :
    (registers α).protocol.Obeys call (.op instr next) (.called call) := by
  refine ⟨flags_fits hflags, ?_⟩
  rintro answer phase rfl
  have hsilent : (registers α).mark call instr answer = none := flags_mark hflags call answer
  rw [Pointing.next_silent hsilent]
  exact hnext answer

theorem flags_after {instr : Instr α} (hflags : instr.Flags) {result : Reply α}
    {next : instr.Answer → Prog (sig α) (Outcome α)}
    (hnext : ∀ answer, (registers α).protocol.Obeys call (next answer) (.effective call result)) :
    (registers α).protocol.Obeys call (.op instr next) (.effective call result) := by
  refine ⟨flags_quiet hflags, ?_⟩
  rintro answer phase rfl
  exact hnext answer

theorem createLock_obeys {next : Unit → Prog (sig α) (Outcome α)}
    (hnext : (registers α).protocol.Obeys call (next ()) (.called call)) :
    (registers α).protocol.Obeys call ((createLock self).bind next) (.called call) := by
  unfold createLock
  split
  · exact flags_before .acquireMut fun _ => hnext
  · exact hnext

theorem removeLock_obeys {result : Reply α} {next : Unit → Prog (sig α) (Outcome α)}
    (hnext : (registers α).protocol.Obeys call (next ()) (.effective call result)) :
    (registers α).protocol.Obeys call ((removeLock self).bind next) (.effective call result) := by
  unfold removeLock
  split
  · exact flags_after .releaseMut fun _ => hnext
  · exact hnext

/-- A store that is the point of the call. -/
theorem store_obeys {slot : Slot} {content : Option α}
    (hmark : mark call (.store slot content) () = some .unit)
    (hspec : ∀ memory, RegisterStep memory call .unit (Function.update memory slot content))
    {next : Unit → Prog (sig α) (Outcome α)}
    (hnext : (registers α).protocol.Obeys call (next ()) (.effective call .unit)) :
    (registers α).protocol.Obeys call (.op (.store slot content) next) (.called call) := by
  refine ⟨store_fits hmark hspec, ?_⟩
  rintro ⟨⟩ phase rfl
  have hpoint : (registers α).mark call (.store slot content) () = some .unit := hmark
  rw [Pointing.next_point hpoint]
  exact hnext

/-- The bodies of `set` and `set_null`. -/
theorem assign_registers {content : Option α}
    (hmark : mark call (.store self.slot content) () = some .unit)
    (hspec : ∀ memory, RegisterStep memory call .unit (Function.update memory self.slot content)) :
    (registers α).protocol.Obeys call
      ((self.assign content).bind fun _ => (reply .unit : Prog (sig α) (Outcome α)))
      (.called call) := by
  rw [assign_bind]
  refine createLock_obeys (flags_before .acquireImm fun _ => store_obeys hmark hspec ?_)
  exact flags_after .releaseImm fun _ => removeLock_obeys rfl

theorem isNull_obeys {next : Bool → Prog (sig α) (Outcome α)} (hcall : ∀ self, call ≠ .isNull self)
    (hnext : ∀ answer, (registers α).protocol.Obeys call (next answer) (.called call)) :
    (registers α).protocol.Obeys call (self.isNull.bind next) (.called call) := by
  refine flags_before .awaitImm fun _ => ⟨load_fits fun other hother => ?_, ?_⟩
  · exact absurd hother (hcall other)
  · rintro content phase rfl
    have hsilent : (registers α).mark call (.load self.slot) content = none := by
      cases call with
      | isNull other => exact absurd rfl (hcall other)
      | _ => rfl
    rw [Pointing.next_silent hsilent]
    exact hnext content.isNone

end Code

theorem registers_sound : (registers α).protocol.Sound where
  enter := by
    rintro call phase ⟨hatomic, rfl⟩
    cases call with
    | set self data => exact assign_registers rfl fun _ => .set
    | setNull self => exact assign_registers rfl fun _ => .setNull
    | isNull self =>
        have hfits : (registers α).Fits (.isNull self) (.load self.slot) := by
          apply load_fits
          rintro _ ⟨⟩
          rfl
        refine flags_before .awaitImm fun _ => ⟨hfits, ?_⟩
        rintro content phase rfl
        rfl
    | getRef self =>
        change (registers α).protocol.Obeys _ (self.getRef.bind _) _
        rw [getRef_bind]
        refine isNull_obeys (fun other => by rintro ⟨⟩) ?_
        rintro (_ | _)
        · refine ⟨getRef_fits, ?_⟩
          rintro content phase rfl
          rfl
        · trivial
    | getMut self =>
        change (registers α).protocol.Obeys _ (self.getMut.bind _) _
        rw [getMut_bind]
        refine isNull_obeys (fun other => by rintro ⟨⟩) ?_
        rintro (_ | _)
        · refine createLock_obeys ⟨getMut_fits, ?_⟩
          rintro content phase rfl
          rfl
        · trivial
    | dropMut guard =>
        obtain ⟨originalStructure, data⟩ := guard
        cases data with
        | none => trivial
        | some data => exact store_obeys rfl (fun _ => .dropMut rfl) rfl
    | bumpIntoNull | swap => exact hatomic.elim
  body := by
    rintro call ⟨⟩

variable {ι : Type} [DecidableEq ι]

instance : ∀ (config : Config (object α) ι) action, Decidable (OnlyCalls Call.Atomic config action) :=
  fun _ _ => inferInstance

/-- **CowData is a memory of atomic registers.** Whatever a number of `CowData`s hold and whatever
their flags are, all histories of these calls on any handles linearize, and the contents are those
that the linearization leads to. -/
theorem registers_linearizable {heap : Heap α} {config : Config (object α) ι}
    (hreach : ((object α).threads ι).Reach (OnlyCalls Call.Atomic) (.initial heap) config) :
    ∃ order, Linearization RegisterStep heap.inner config.history order config.state.inner :=
  (registers α).linearization registers_sound hreach

/-- A `get_ref` overlaps a `set` that has not stored yet. -/
theorem registers_linearizable_overlapping :
    ∃ config : Config (object Nat) Bool,
      config.history = [.invoke true (.set ⟨0, false⟩ 2), .invoke false (.getRef ⟨0, true⟩),
        .respond false (.getRef ⟨0, true⟩) (.refGuard (some 1)),
        .respond true (.set ⟨0, false⟩ 2) .unit] ∧
      ∃ order, Linearization RegisterStep (Heap.empty.alloc (some 1)).inner config.history order
        config.state.inner := by
  obtain ⟨config, hrun, hhistory⟩ : ∃ config,
      ((object Nat).threads Bool).runIf (OnlyCalls Call.Atomic)
        (.initial (Heap.empty.alloc (some 1)))
        ([.invoke true (.set ⟨0, false⟩ 2), .invoke false (.getRef ⟨0, true⟩)] ++
          List.replicate 4 (.tick false) ++ List.replicate 5 (.tick true)) = some config ∧
      config.history = [.invoke true (.set ⟨0, false⟩ 2), .invoke false (.getRef ⟨0, true⟩),
        .respond false (.getRef ⟨0, true⟩) (.refGuard (some 1)),
        .respond true (.set ⟨0, false⟩ 2) .unit] := ⟨_, rfl, rfl⟩
  exact ⟨config, hhistory, registers_linearizable (System.reach_of_runIf _ hrun)⟩

end Guarded

end Mutual.CowData
