import Mutual.Proof.Members

/-!
# The comparison of bit sets

Bytes that are missing compare as zero bytes, so that `matches` compares the bits of the two lists,
the longer one leading. Indices of 32 bits reach all of them.
-/

namespace Mutual.BitSet

open Data.Bytes

theorem bit_eq_iff {self other : BitSet} (hself : self.internal.length ≤ maxLen)
    (hother : other.internal.length ≤ maxLen) :
    bit self.internal = bit other.internal ↔
      ∀ idx, self.contains idx = other.contains idx := by
  constructor
  · intro heq idx
    rw [contains_eq_bit, contains_eq_bit, heq]
  · intro hcontains
    funext i
    by_cases hi : i < 2 ^ 32
    · have hidx : (UInt32.ofNat i).toNat = i := UInt32.toNat_ofNat_of_lt' hi
      have hbit := hcontains (UInt32.ofNat i)
      rwa [contains_eq_bit, contains_eq_bit, hidx] at hbit
    · -- no byte lies so far behind
      rw [bit_eq_false (by rw [maxLen] at hself; omega),
        bit_eq_false (by rw [maxLen] at hother; omega)]

theorem matchesLoop_eq_true_iff {self other : List UInt8} (hlen : other.length ≤ self.length) :
    matchesLoop self other = true ↔ bit self = bit other := by
  induction self generalizing other with
  | nil =>
      have hnil : other = [] := List.eq_nil_of_length_eq_zero (Nat.le_zero.mp hlen)
      simp [matchesLoop, hnil]
  | cons selfSeg selfIter ih =>
      cases other with
      | nil =>
          rw [bit_cons_eq_nil, ← ih (Nat.zero_le _), matchesLoop]
          by_cases hzero : selfSeg = 0
          · simp [hzero]
          · simp [UInt8.pos_iff_ne_zero, hzero]
      | cons otherSeg otherIter =>
          rw [bit_cons_inj, ← ih (Nat.le_of_succ_le_succ hlen), matchesLoop]
          by_cases hseg : selfSeg = otherSeg
          · simp [hseg]
          · simp [hseg]

theorem matches_eq_true_iff (self other : BitSet) :
    self.matches other = true ↔ bit self.internal = bit other.internal := by
  rw [BitSet.matches]
  by_cases hlen : self.internal.length < other.internal.length
  · rw [if_pos hlen, BitSet.matches, if_neg (Nat.lt_asymm hlen),
      matchesLoop_eq_true_iff (Nat.le_of_lt hlen), eq_comm]
  · rw [if_neg hlen, matchesLoop_eq_true_iff (Nat.le_of_not_lt hlen)]

/-- **The comparison is equality of sets**, and so an equivalence. -/
theorem matches_iff_contains_eq :
    (∀ ops otherOps, (build ops).matches (build otherOps) = true ↔
      ∀ idx, (build ops).contains idx = (build otherOps).contains idx) ∧
    Equivalence fun ops otherOps => (build ops).matches (build otherOps) = true := by
  refine ⟨?_, ?_⟩
  · intro ops otherOps
    rw [matches_eq_true_iff, bit_eq_iff (build_length ops) (build_length otherOps)]
  · simp only [matches_eq_true_iff]
    exact ⟨fun _ => rfl, Eq.symm, Eq.trans⟩

end Mutual.BitSet
