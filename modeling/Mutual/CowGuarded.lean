import Mutual.CowData

/-!
# CowData and its guards in the hands of several threads

The methods of `CowData` called on any handles, and the drop of the guard that `get_mut` returns.
What the thread has written through the guard is in the guard by the time it is dropped.
-/

namespace Mutual.CowData.Guarded

open Concurrency

variable {α : Type}

inductive Call (α : Type) where
  | set (self : CowData) (data : α)
  | setNull (self : CowData)
  | bumpIntoNull (self nullCow : CowData) (newData : α)
  | swap (self other : CowData)
  | isNull (self : CowData)
  | getRef (self : CowData)
  | getMut (self : CowData)
  | dropMut (guard : MutCowData α)

inductive Reply (α : Type) where
  | unit
  | swapped (content : Option α)
  | bool (answer : Bool)
  | refGuard (node : Option α)
  | mutGuard (guard : MutCowData α)

abbrev Outcome (α : Type) : Type := Empty ⊕ Reply α

abbrev reply (result : Reply α) : Prog (sig α) (Outcome α) := .ret (.inr result)

def enter : Call α → Prog (sig α) (Outcome α)
  | .set self data => do
      self.set data
      reply .unit
  | .setNull self => do
      self.setNull
      reply .unit
  | .bumpIntoNull self nullCow newData => do
      self.bumpIntoNull nullCow newData
      reply .unit
  | .swap self other => do
      let content ← self.swap other
      reply (.swapped content)
  | .isNull self => do
      let answer ← self.isNull
      reply (.bool answer)
  | .getRef self => do
      let node ← self.getRef
      reply (.refGuard node)
  | .getMut self => do
      let guard ← self.getMut
      reply (.mutGuard guard)
  | .dropMut guard => do
      guard.drop
      reply .unit

@[reducible]
def object (α : Type) : Object where
  sig := sig α
  State := Heap α
  Call := Call α
  Label := Empty
  Reply := Reply α
  exec := exec
  enter := enter
  body := Empty.elim

end Mutual.CowData.Guarded
