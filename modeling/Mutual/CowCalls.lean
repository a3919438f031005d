import Mutual.CowData

/-!
# Lock-protected CowData in the hands of one thread

The thread builds lock-protected `CowData` and calls the methods that take their mutable lock.
-/

namespace Mutual.CowData

open Concurrency

variable {α : Type}

def lockProtected (slot : Slot) : CowData := { slot := slot, isMutLockProtected := true }

inductive Call (α : Type) where
  | newLockProtected (data : α)
  | nullLockProtected
  | fromArcLockProtected (value : Option α)
  | set (self : Slot) (data : α)
  | setNull (self : Slot)
  | bumpIntoNull (self nullCow : Slot) (newData : α)
  | createRemoveLock (self : Slot)
  /-- `get_mut`, changes made through the guard, then the drop of the guard. -/
  | getMutDrop (self : Slot) (edit : α → α)

inductive Reply where
  | built (self : CowData)
  | unit

abbrev Outcome : Type := Empty ⊕ Reply

abbrev reply (result : Reply) : Prog (sig α) Outcome := .ret (.inr result)

def enter : Call α → Prog (sig α) Outcome
  | .newLockProtected data => do
      let self ← newLockProtected data
      reply (.built self)
  | .nullLockProtected => do
      let self ← nullLockProtected
      reply (.built self)
  | .fromArcLockProtected value => do
      let self ← fromArcLockProtected value
      reply (.built self)
  | .set self data => do
      (lockProtected self).set data
      reply .unit
  | .setNull self => do
      (lockProtected self).setNull
      reply .unit
  | .bumpIntoNull self nullCow newData => do
      (lockProtected self).bumpIntoNull (lockProtected nullCow) newData
      reply .unit
  | .createRemoveLock self => do
      (lockProtected self).createLock
      (lockProtected self).removeLock
      reply .unit
  | .getMutDrop self edit => do
      let guard ← (lockProtected self).getMut
      { guard with data := guard.data.map edit : MutCowData α }.drop
      reply .unit

@[reducible]
def object (α : Type) : Object where
  sig := sig α
  State := Heap α
  Call := Call α
  Label := Empty
  Reply := Reply
  exec := exec
  enter := enter
  body := Empty.elim

section NormalForms

variable {R : Type}

@[simp] theorem perform_bind (instr : Instr α) (next : instr.Answer → Prog (sig α) R) :
    @Prog.bind (sig α) (no_index instr.Answer) R (perform instr) next = .op instr next := rfl

@[simp] theorem isNull_bind (self : CowData) (next : Bool → Prog (sig α) R) :
    self.isNull.bind next =
      .op (.awaitImm self.slot) fun _ => .op (.load self.slot) fun content =>
        next content.isNone := rfl

end NormalForms

end Mutual.CowData
