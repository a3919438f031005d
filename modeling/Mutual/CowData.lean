import Mathlib.Logic.Function.Basic
import Mutual.Concurrency.Program

/-!
# CowData

A `CowData` holds three reference counted atomics: the content, behind an `ArcSwap`, and the two
flags `mut_lock` and `imm_lock`. A clone shares all three, so a handle is modelled as the slot they
live in, together with its own copy of `is_mut_lock_protected`. Contents are immutable values once
stored. Each instruction below is one atomic access, or one iteration of a spin loop around one.
-/

namespace Mutual

open Concurrency

/-- The address that the three atomics of a `CowData` share. -/
abbrev Slot := Nat

structure Heap (α : Type) where
  inner : Slot → Option α
  mutLock : Slot → Bool
  immLock : Slot → Bool
  fresh : Slot

namespace Heap

variable {α : Type}

def empty : Heap α :=
  { inner := fun _ => none
    mutLock := fun _ => false
    immLock := fun _ => false
    fresh := 0 }

def setInner (heap : Heap α) (slot : Slot) (content : Option α) : Heap α :=
  { heap with inner := Function.update heap.inner slot content }

def setMutLock (heap : Heap α) (slot : Slot) (locked : Bool) : Heap α :=
  { heap with mutLock := Function.update heap.mutLock slot locked }

def setImmLock (heap : Heap α) (slot : Slot) (locked : Bool) : Heap α :=
  { heap with immLock := Function.update heap.immLock slot locked }

def alloc (heap : Heap α) (content : Option α) : Heap α :=
  { inner := Function.update heap.inner heap.fresh content
    mutLock := Function.update heap.mutLock heap.fresh false
    immLock := Function.update heap.immLock heap.fresh false
    fresh := heap.fresh + 1 }

section Fields

variable (heap : Heap α) (slot : Slot) (content : Option α) (locked : Bool)

@[simp] theorem setInner_inner :
    (heap.setInner slot content).inner = Function.update heap.inner slot content := rfl

@[simp] theorem setInner_mutLock : (heap.setInner slot content).mutLock = heap.mutLock := rfl

@[simp] theorem setInner_immLock : (heap.setInner slot content).immLock = heap.immLock := rfl

@[simp] theorem setInner_fresh : (heap.setInner slot content).fresh = heap.fresh := rfl

@[simp] theorem setMutLock_inner : (heap.setMutLock slot locked).inner = heap.inner := rfl

@[simp] theorem setMutLock_mutLock :
    (heap.setMutLock slot locked).mutLock = Function.update heap.mutLock slot locked := rfl

@[simp] theorem setMutLock_immLock : (heap.setMutLock slot locked).immLock = heap.immLock := rfl

@[simp] theorem setMutLock_fresh : (heap.setMutLock slot locked).fresh = heap.fresh := rfl

@[simp] theorem setImmLock_inner : (heap.setImmLock slot locked).inner = heap.inner := rfl

@[simp] theorem setImmLock_mutLock : (heap.setImmLock slot locked).mutLock = heap.mutLock := rfl

@[simp] theorem setImmLock_immLock :
    (heap.setImmLock slot locked).immLock = Function.update heap.immLock slot locked := rfl

@[simp] theorem setImmLock_fresh : (heap.setImmLock slot locked).fresh = heap.fresh := rfl

@[simp] theorem alloc_inner :
    (heap.alloc content).inner = Function.update heap.inner heap.fresh content := rfl

@[simp] theorem alloc_mutLock :
    (heap.alloc content).mutLock = Function.update heap.mutLock heap.fresh false := rfl

@[simp] theorem alloc_immLock :
    (heap.alloc content).immLock = Function.update heap.immLock heap.fresh false := rfl

@[simp] theorem alloc_fresh : (heap.alloc content).fresh = heap.fresh + 1 := rfl

variable {heap slot locked}

theorem setMutLock_self (hslot : heap.mutLock slot = locked) :
    heap.setMutLock slot locked = heap := by
  rw [setMutLock, ← hslot, Function.update_eq_self]

@[simp] theorem setMutLock_setMutLock (locked' : Bool) :
    (heap.setMutLock slot locked).setMutLock slot locked' = heap.setMutLock slot locked' := by
  simp only [setMutLock, Function.update_idem]

@[simp] theorem setImmLock_setImmLock (locked' : Bool) :
    (heap.setImmLock slot locked).setImmLock slot locked' = heap.setImmLock slot locked' := by
  simp only [setImmLock, Function.update_idem]

theorem setImmLock_self (hslot : heap.immLock slot = locked) :
    heap.setImmLock slot locked = heap := by
  rw [setImmLock, ← hslot, Function.update_eq_self]

theorem setInner_locked (hmut : heap.mutLock slot = false) (himm : heap.immLock slot = false) :
    ((((heap.setMutLock slot true).setImmLock slot true).setInner slot content).setImmLock slot
      false).setMutLock slot false = heap.setInner slot content := by
  have hmut' := setMutLock_self hmut
  have himm' := setImmLock_self himm
  simp only [setMutLock, setImmLock, setInner, Function.update_idem] at hmut' himm' ⊢
  congr
  · exact congrArg Heap.mutLock hmut'
  · exact congrArg Heap.immLock himm'

end Fields

end Heap

structure CowData where
  slot : Slot
  isMutLockProtected : Bool

/-- The guard `get_mut` returns: where to store the data when it is dropped, and the data. -/
structure MutCowData (α : Type) where
  originalStructure : Slot
  data : Option α

namespace CowData

variable {α : Type}

inductive Instr (α : Type) where
  /-- `while self.imm_lock.load() { yield_now() }` -/
  | awaitImm (slot : Slot)
  /-- `loop { if !self.mut_lock.swap(true) { break } yield_now() }` -/
  | acquireMut (slot : Slot)
  /-- `while !self.imm_lock.swap(true) { yield_now() }` -/
  | acquireImm (slot : Slot)
  | releaseMut (slot : Slot)
  | releaseImm (slot : Slot)
  | load (slot : Slot)
  | loadFull (slot : Slot)
  | store (slot : Slot) (content : Option α)
  | swap (slot : Slot) (content : Option α)
  | alloc (content : Option α)

@[reducible]
def Instr.Answer : Instr α → Type
  | awaitImm _ | acquireMut _ | acquireImm _ | releaseMut _ | releaseImm _ | store _ _ => Unit
  | load _ | loadFull _ | swap _ _ => Option α
  | alloc _ => Slot

abbrev sig (α : Type) : Signature := ⟨Instr α, Instr.Answer⟩

def exec : (instr : Instr α) → Heap α → Heap α × Option instr.Answer
  | .awaitImm slot, heap => (heap, if heap.immLock slot then none else some ())
  | .acquireMut slot, heap =>
      (heap.setMutLock slot true, if heap.mutLock slot then none else some ())
  -- the loop goes on while the swap answers `false`
  | .acquireImm slot, heap =>
      (heap.setImmLock slot true, if heap.immLock slot then some () else none)
  | .releaseMut slot, heap => (heap.setMutLock slot false, some ())
  | .releaseImm slot, heap => (heap.setImmLock slot false, some ())
  | .load slot, heap => (heap, some (heap.inner slot))
  | .loadFull slot, heap => (heap, some (heap.inner slot))
  | .store slot content, heap => (heap.setInner slot content, some ())
  | .swap slot content, heap => (heap.setInner slot content, some (heap.inner slot))
  | .alloc content, heap => (heap.alloc content, some heap.fresh)

abbrev perform (instr : Instr α) : Prog (sig α) instr.Answer := Prog.perform (σ := sig α) instr

/-! ### The methods -/

def allocLockProtected (value : Option α) : Prog (sig α) CowData := do
  let slot ← perform (.alloc value)
  return { slot := slot, isMutLockProtected := true }

def newLockProtected (data : α) : Prog (sig α) CowData := allocLockProtected (some data)

def nullLockProtected : Prog (sig α) CowData := allocLockProtected none

def fromArcLockProtected (value : Option α) : Prog (sig α) CowData := allocLockProtected value

def isNull (self : CowData) : Prog (sig α) Bool := do
  perform (.awaitImm self.slot)
  let inner ← perform (.load self.slot)
  return inner.isNone

def createLock (self : CowData) : Prog (sig α) Unit :=
  if self.isMutLockProtected then perform (.acquireMut self.slot) else return ()

def removeLock (self : CowData) : Prog (sig α) Unit :=
  if self.isMutLockProtected then perform (.releaseMut self.slot) else return ()

/-- The bodies of `set` and `set_null`, which differ in the content they store. -/
def assign (self : CowData) (content : Option α) : Prog (sig α) Unit := do
  createLock self
  perform (.acquireImm self.slot)
  perform (.store self.slot content)
  perform (.releaseImm self.slot)
  removeLock self

def set (self : CowData) (data : α) : Prog (sig α) Unit := self.assign (some data)

def setNull (self : CowData) : Prog (sig α) Unit := self.assign none

def bumpIntoNull (self nullCow : CowData) (newData : α) : Prog (sig α) Unit := do
  if ← isNull nullCow then
    createLock self
    perform (.acquireImm self.slot)
    let oldData ← perform (.swap self.slot (some newData))
    perform (.store nullCow.slot oldData)
    perform (.releaseImm self.slot)
    removeLock self
  else .panic "bump_into_null as null_cow was not null"

def swap (self other : CowData) : Prog (sig α) (Option α) := do
  perform (.acquireImm self.slot)
  perform (.acquireImm other.slot)
  let fromOld ← perform (.loadFull other.slot)
  let selfOld ← perform (.swap self.slot fromOld)
  perform (.releaseImm other.slot)
  perform (.releaseImm self.slot)
  perform (.swap other.slot selfOld)

/-- The node of the `RefCowData` returned; dereferencing it unwraps it. -/
def getRef (self : CowData) : Prog (sig α) (Option α) := do
  if ← isNull self then .panic "Cannot get_ref to null cow data"
  else perform (.loadFull self.slot)

def getMut (self : CowData) : Prog (sig α) (MutCowData α) := do
  if ← isNull self then .panic "Cannot lock_mut to null cow data"
  else
    createLock self
    let data ← perform (.loadFull self.slot)
    return { originalStructure := self.slot, data := data }

/-! ### SharedData for CowData -/

def mayBlockRef : Bool := false

def mayBlockMut : Bool := false

def lockRef (self : CowData) : Prog (sig α) (Option α) := self.getRef

def lockMut (self : CowData) : Prog (sig α) (MutCowData α) := self.getMut

end CowData

/-- `Option::unwrap`, and with it the dereferencing of a `RefCowData` or a `MutCowData`. -/
def unwrap {σ : Signature} {α : Type} : Option α → Prog σ α
  | some data => return data
  | none => .panic "called `Option::unwrap()` on a `None` value"

namespace MutCowData

variable {α : Type}

def drop (self : MutCowData α) : Prog (CowData.sig α) Unit := do
  let data ← unwrap self.data
  CowData.perform (.store self.originalStructure (some data))

end MutCowData

end Mutual
