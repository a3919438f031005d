/-!
# BitSet

A bit set is a list of bytes, the bit of index `idx` being bit `idx % 8` of byte `idx / 8`. Bytes are
appended as far as an insertion needs them and never taken away.
-/

namespace Mutual

structure BitSet where
  internal : List UInt8
  deriving DecidableEq

namespace BitSet

def new : BitSet := { internal := [] }

def insert (self : BitSet) (idx : UInt32) : BitSet :=
  let segmentIdx := (idx / 8).toNat
  let subIdx := (idx % 8).toNat
  match self.internal[segmentIdx]? with
  | some segment =>
      { internal := self.internal.set segmentIdx (segment ||| (1 : UInt8) <<< UInt8.ofNat subIdx) }
  | none =>
      let lenDiff := segmentIdx - self.internal.length
      { internal :=
          self.internal ++ List.replicate lenDiff 0 ++ [(1 : UInt8) <<< UInt8.ofNat subIdx] }

def insertAll (self : BitSet) (iter : List UInt32) : BitSet := iter.foldl insert self

def insertSlice (self : BitSet) (slice : List UInt32) : BitSet := self.insertAll slice

def remove (self : BitSet) (idx : UInt32) : BitSet :=
  let segmentIdx := (idx / 8).toNat
  match self.internal[segmentIdx]? with
  | none => self
  | some segment =>
      let subIdx := (idx % 8).toNat
      let mask := ~~~((1 : UInt8) <<< UInt8.ofNat subIdx)
      { internal := self.internal.set segmentIdx (segment &&& mask) }

def contains (self : BitSet) (idx : UInt32) : Bool :=
  let segmentIdx := (idx / 8).toNat
  let subIdx := (idx % 8).toNat
  match self.internal[segmentIdx]? with
  | some segment => segment &&& (1 : UInt8) <<< UInt8.ofNat subIdx > 0
  | none => false

/-- The loop of `matches`, `self` having no fewer segments than `other`. -/
def matchesLoop : List UInt8 → List UInt8 → Bool
  | [], _ => true
  | selfSeg :: selfIter, [] => if selfSeg > 0 then false else matchesLoop selfIter []
  | selfSeg :: selfIter, otherSeg :: otherIter =>
      if selfSeg != otherSeg then false else matchesLoop selfIter otherIter

end BitSet

def BitSet.matches (self other : BitSet) : Bool :=
  if self.internal.length < other.internal.length then other.matches self
  else matchesLoop self.internal other.internal
termination_by other.internal.length - self.internal.length

namespace BitSet

def subsetLoop : List UInt8 → List UInt8 → Bool
  -- `empty_count` is 2 or 3
  | [], _ => true
  | subSeg :: subIter, superIter =>
      let emptyCount := if superIter.isEmpty then 1 else 0
      let superSeg := superIter.headD 0
      if emptyCount == 1 && subSeg < 1 then false
      else if superSeg &&& subSeg != subSeg then false
      else subsetLoop subIter superIter.tail

def isSubset (self superSet : BitSet) : Bool := subsetLoop self.internal superSet.internal

def isSuperset (self subSet : BitSet) : Bool := subSet.isSubset self

/-! ### Arithmetic that is checked

Where overflow is checked, an index below zero or a shift by a whole byte ends the call.
-/

def checkedSub (left right : Nat) : Option Nat := if right ≤ left then some (left - right) else none

def checkedShl (byte : UInt8) (shift : Nat) : Option UInt8 :=
  if shift < 8 then some (byte <<< UInt8.ofNat shift) else none

def insertChecked (self : BitSet) (idx : UInt32) : Option BitSet := do
  let segmentIdx := (idx / 8).toNat
  let subIdx := (idx % 8).toNat
  match self.internal[segmentIdx]? with
  | some segment =>
      let mask ← checkedShl 1 subIdx
      return { internal := self.internal.set segmentIdx (segment ||| mask) }
  | none =>
      let lenDiff ← checkedSub segmentIdx self.internal.length
      let mask ← checkedShl 1 subIdx
      return { internal := self.internal ++ List.replicate lenDiff 0 ++ [mask] }

def removeChecked (self : BitSet) (idx : UInt32) : Option BitSet := do
  let segmentIdx := (idx / 8).toNat
  match self.internal[segmentIdx]? with
  | none => return self
  | some segment =>
      let subIdx := (idx % 8).toNat
      let mask ← checkedShl 1 subIdx
      return { internal := self.internal.set segmentIdx (segment &&& ~~~mask) }

/-! ### Sets as they are built -/

inductive Op where
  | insert (idx : UInt32)
  | insertAll (iter : List UInt32)
  | insertSlice (slice : List UInt32)
  | remove (idx : UInt32)

def apply (self : BitSet) : Op → BitSet
  | .insert idx => self.insert idx
  | .insertAll iter => self.insertAll iter
  | .insertSlice slice => self.insertSlice slice
  | .remove idx => self.remove idx

def build (ops : List Op) : BitSet := ops.foldl apply new

def applyChecked (self : BitSet) : Op → Option BitSet
  | .insert idx => self.insertChecked idx
  | .insertAll iter => iter.foldlM insertChecked self
  | .insertSlice slice => slice.foldlM insertChecked self
  | .remove idx => self.removeChecked idx

def buildChecked (ops : List Op) : Option BitSet := ops.foldlM applyChecked new

namespace Op

def names (idx : UInt32) : Op → Bool
  | insert i => i == idx
  | insertAll iter => iter.contains idx
  | insertSlice slice => slice.contains idx
  | remove i => i == idx

def isInsertion : Op → Bool
  | remove _ => false
  | _ => true

end Op

end BitSet

end Mutual
