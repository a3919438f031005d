import Mutual.CowData

/-!
# CowData in the hands of several threads

The methods that take an immutable lock, called on any handles. Handles that share an immutable lock
are clones of one `CowData`, so they share their slot.
-/

namespace Mutual.CowData.Shared

open Concurrency

variable {α : Type}

inductive Call (α : Type) where
  | set (self : CowData) (data : α)
  | setNull (self : CowData)
  | bumpIntoNull (self nullCow : CowData) (newData : α)
  | swap (self other : CowData)

inductive Reply (α : Type) where
  | unit
  | swapped (content : Option α)

abbrev Outcome (α : Type) : Type := Empty ⊕ Reply α

abbrev reply (result : Reply α) : Prog (sig α) (Outcome α) := .ret (.inr result)

def enter : Call α → Prog (sig α) (Outcome α)
  | .set self data => do
      self.set data
      reply .unit
  | .setNull self => do
      self.setNull
      reply .unit
  | .bumpIntoNull self nullCow newData => do
      self.bumpIntoNull nullCow newData
      reply .unit
  | .swap self other => do
      let content ← self.swap other
      reply (.swapped content)

@[reducible]
def object (α : Type) : Object where
  sig := sig α
  State := Heap α
  Call := Call α
  Label := Empty
  Reply := Reply α
  exec := exec
  enter := enter
  body := Empty.elim

end Mutual.CowData.Shared
