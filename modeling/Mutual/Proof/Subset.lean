import Mutual.Proof.Members

/-!
# The subset test

`is_subset` answers `false` as soon as the bytes of the super set are used up, also where the rest
of the bytes of the subset are zero. Apart from that it is inclusion.
-/

namespace Mutual.BitSet

open Data.Bytes

/-! ### Inclusion -/

def Included (sub super : BitSet) : Prop :=
  ∀ idx : UInt32, sub.contains idx = true → super.contains idx = true

theorem included_iff {sub : BitSet} (hsub : sub.internal.length ≤ maxLen) (super : BitSet) :
    Included sub super ↔
      ∀ i, bit sub.internal i = true → bit super.internal i = true := by
  constructor
  · intro hincluded i hbit
    have hlt := lt_of_bit hbit
    have hi : i < 2 ^ 32 := by
      rw [maxLen] at hsub
      omega
    have hidx : (UInt32.ofNat i).toNat = i := UInt32.toNat_ofNat_of_lt' hi
    have hcontains := hincluded (UInt32.ofNat i)
    rw [contains_eq_bit, contains_eq_bit, hidx] at hcontains
    exact hcontains hbit
  · intro hincluded idx
    rw [contains_eq_bit, contains_eq_bit]
    exact hincluded idx.toNat

theorem subsetLoop_eq_true_iff (sub super : List UInt8) :
    subsetLoop sub super = true ↔
      sub.length ≤ super.length ∧ ∀ i, bit sub i = true → bit super i = true := by
  induction sub generalizing super with
  | nil => simp [subsetLoop]
  | cons subSeg subIter ih =>
      cases super with
      | nil =>
          have hstops : subsetLoop (subSeg :: subIter) [] = false := by
            by_cases hzero : subSeg < 1
            · simp [subsetLoop, hzero]
            · have hne : 0 ≠ subSeg := by
                rintro rfl
                exact hzero (by decide)
              simp [subsetLoop, hzero, hne]
          simp [hstops]
      | cons superSeg superIter =>
          rw [forall_bit_cons]
          have hrest := ih superIter
          by_cases hseg : superSeg &&& subSeg = subSeg
          · simpa [subsetLoop, hseg] using hrest
          · simp [subsetLoop, hseg]

theorem isSubset_iff {sub : BitSet} (hsub : sub.internal.length ≤ maxLen) (super : BitSet) :
    sub.isSubset super = true ↔
      sub.internal.length ≤ super.internal.length ∧ Included sub super := by
  rw [isSubset, subsetLoop_eq_true_iff, included_iff hsub]

/-- **The subset test** is inclusion where the subset has not more bytes than the super set, and
where it is not included anyway. -/
theorem isSubset_included_iff (subOps superOps : List Op) :
    let sub := build subOps
    let super := build superOps
    ((sub.isSubset super = true ↔ Included sub super) ∧ super.isSuperset sub = sub.isSubset super) ↔
      sub.internal.length ≤ super.internal.length ∨
        ∃ idx, sub.contains idx = true ∧ super.contains idx = false := by
  intro sub super
  have hsubset : sub.isSubset super = true ↔
      sub.internal.length ≤ super.internal.length ∧ Included sub super :=
    isSubset_iff (build_length subOps) super
  have hnot : (∃ idx, sub.contains idx = true ∧ super.contains idx = false) ↔
      ¬ Included sub super := by
    simp [Included]
  rw [hnot, isSuperset, hsubset]
  by_cases hincluded : Included sub super
  · simp [hincluded]
  · simp [hincluded]

/-- Of an index inserted and removed a zero byte remains. -/
theorem isSubset_included_fails :
    let sub := build [.insert 8, .remove 8]
    let super := build []
    ¬ (sub.isSubset super = true ↔ Included sub super) := by
  intro sub super hclaim
  have hincluded : Included sub super := by
    have hzero : sub.internal = List.replicate 2 0 := rfl
    intro idx hcontains
    rw [contains_eq_bit, hzero, bit_replicate_zero] at hcontains
    cases hcontains
  have hsubset : sub.isSubset super = false := by decide
  rw [hclaim.mpr hincluded] at hsubset
  cases hsubset

end Mutual.BitSet
