import Mathlib.Data.List.GetD

/-!
# Lists of bytes as sets of bits

Bit `8 * i + j` of a list of bytes is bit `j` of its byte `i`. Bits behind the end of the list are
clear.
-/

namespace Data.Bytes

def bit (bytes : List UInt8) (i : ℕ) : Bool := (bytes.getD (i / 8) 0).toBitVec.getLsbD (i % 8)

@[simp]
theorem bit_nil (i : ℕ) : bit [] i = false := by
  simp [bit]

theorem bit_replicate_zero (n i : ℕ) : bit (List.replicate n 0) i = false := by
  rw [bit, List.getD_eq_getElem?_getD, List.getElem?_getD_replicate_default_eq]
  simp

theorem bit_cons_of_lt {i : ℕ} (hi : i < 8) (byte : UInt8) (bytes : List UInt8) :
    bit (byte :: bytes) i = byte.toBitVec.getLsbD i := by
  rw [bit, Nat.div_eq_of_lt hi, Nat.mod_eq_of_lt hi, List.getD_cons_zero]

@[simp]
theorem bit_cons_add (byte : UInt8) (bytes : List UInt8) (i : ℕ) :
    bit (byte :: bytes) (i + 8) = bit bytes i := by
  rw [bit, Nat.add_div_right i (by decide), Nat.add_mod_right, List.getD_cons_succ, bit]

theorem lt_of_bit {bytes : List UInt8} {i : ℕ} (hbit : bit bytes i = true) :
    i < 8 * bytes.length := by
  refine Nat.lt_of_not_le fun hge => ?_
  have hlength : bytes.length ≤ i / 8 := by omega
  rw [bit, List.getD_eq_default _ _ hlength] at hbit
  simp at hbit

theorem bit_eq_false {bytes : List UInt8} {i : ℕ} (hi : 8 * bytes.length ≤ i) :
    bit bytes i = false := by
  refine Bool.eq_false_iff.mpr fun hbit => ?_
  exact Nat.not_lt_of_le hi (lt_of_bit hbit)

theorem toBitVec_mask (j : Fin 8) :
    ((1 : UInt8) <<< UInt8.ofNat j).toBitVec = BitVec.twoPow 8 j := by
  revert j
  decide

theorem mask_pos (byte : UInt8) {j : ℕ} (hj : j < 8) :
    0 < byte &&& (1 : UInt8) <<< UInt8.ofNat j ↔ byte.toBitVec.getLsbD j = true := by
  have hmask : (byte &&& (1 : UInt8) <<< UInt8.ofNat j).toBitVec =
      if byte.toBitVec.getLsbD j then BitVec.twoPow 8 j else 0#8 := by
    rw [UInt8.toBitVec_and, toBitVec_mask ⟨j, hj⟩, BitVec.and_twoPow]
  rw [UInt8.pos_iff_ne_zero, ne_eq, ← UInt8.toBitVec_inj, hmask]
  cases byte.toBitVec.getLsbD j with
  | false => simp
  | true =>
      have hne : BitVec.twoPow 8 j ≠ 0#8 := by
        intro hzero
        have hbit := BitVec.getLsbD_twoPow (w := 8) j j
        rw [hzero, BitVec.getLsbD_zero] at hbit
        simp [hj] at hbit
      simpa using hne

theorem getLsbD_mask {i : ℕ} (hi : i < 8) (j : ℕ) :
    ((1 : UInt8) <<< UInt8.ofNat i).toBitVec.getLsbD j = decide (j = i) := by
  rw [toBitVec_mask ⟨i, hi⟩, BitVec.getLsbD_twoPow]
  simp [hi, eq_comm]

/-! ### One byte replaced -/

theorem getD_set {bytes : List UInt8} {k : ℕ} (hk : k < bytes.length) (byte : UInt8) (n : ℕ) :
    (bytes.set k byte).getD n 0 = if n = k then byte else bytes.getD n 0 := by
  rw [List.getD_eq_getElem?_getD, List.getElem?_set]
  by_cases hn : n = k
  · simp [hn, hk]
  · rw [if_neg (Ne.symm hn), if_neg hn, ← List.getD_eq_getElem?_getD]

/-- A byte behind the end, with the zero bytes that are needed before it. -/
theorem getD_pad {bytes : List UInt8} {k : ℕ} (hk : bytes.length ≤ k) (byte : UInt8) (n : ℕ) :
    (bytes ++ List.replicate (k - bytes.length) 0 ++ [byte]).getD n 0 =
      if n = k then byte else bytes.getD n 0 := by
  have hlength : (bytes ++ List.replicate (k - bytes.length) (0 : UInt8)).length = k := by
    rw [List.length_append, List.length_replicate]
    omega
  rcases Nat.lt_trichotomy n k with hlt | heq | hgt
  · rw [if_neg (Nat.ne_of_lt hlt), List.getD_append _ _ _ _ (by omega)]
    by_cases hn : n < bytes.length
    · exact List.getD_append _ _ _ _ hn
    · have hge := Nat.le_of_not_lt hn
      rw [List.getD_append_right _ _ _ _ hge, List.getD_eq_default bytes _ hge,
        List.getD_eq_getElem?_getD, List.getElem?_getD_replicate_default_eq]
  · rw [if_pos heq, List.getD_append_right _ _ _ _ (by omega), hlength, heq, Nat.sub_self,
      List.getD_cons_zero]
  · rw [if_neg (Nat.ne_of_gt hgt), List.getD_eq_default _ _ (by simp; omega),
      List.getD_eq_default _ _ (by omega)]

theorem bit_of_or_mask {bytes bytes' : List UInt8} {i : ℕ}
    (hbytes : ∀ n, bytes'.getD n 0 =
      if n = i / 8 then bytes.getD (i / 8) 0 ||| (1 : UInt8) <<< UInt8.ofNat (i % 8)
      else bytes.getD n 0) (j : ℕ) :
    bit bytes' j = (decide (j = i) || bit bytes j) := by
  have hi : i % 8 < 8 := Nat.mod_lt i (by decide)
  rw [bit, hbytes]
  by_cases hbyte : j / 8 = i / 8
  · have heq : j % 8 = i % 8 ↔ j = i := by omega
    rw [if_pos hbyte, UInt8.toBitVec_or, BitVec.getLsbD_or, getLsbD_mask hi, bit, hbyte,
      Bool.or_comm]
    simp only [heq]
  · have hne : j ≠ i := by
      rintro rfl
      exact hbyte rfl
    simp [hbyte, hne, bit]

theorem bit_of_and_mask {bytes bytes' : List UInt8} {i : ℕ}
    (hbytes : ∀ n, bytes'.getD n 0 =
      if n = i / 8 then bytes.getD (i / 8) 0 &&& ~~~((1 : UInt8) <<< UInt8.ofNat (i % 8))
      else bytes.getD n 0) (j : ℕ) :
    bit bytes' j = (!decide (j = i) && bit bytes j) := by
  have hi : i % 8 < 8 := Nat.mod_lt i (by decide)
  have hj : j % 8 < 8 := Nat.mod_lt j (by decide)
  rw [bit, hbytes]
  by_cases hbyte : j / 8 = i / 8
  · have heq : j % 8 = i % 8 ↔ j = i := by omega
    rw [if_pos hbyte, UInt8.toBitVec_and, UInt8.toBitVec_not, BitVec.getLsbD_and,
      BitVec.getLsbD_not, getLsbD_mask hi, bit, hbyte, Bool.and_comm]
    simp only [heq, hj, decide_true, Bool.true_and]
  · have hne : j ≠ i := by
      rintro rfl
      exact hbyte rfl
    simp [hbyte, hne, bit]

/-! ### Comparisons byte by byte -/

theorem bit_cons_inj (left right : UInt8) (lefts rights : List UInt8) :
    bit (left :: lefts) = bit (right :: rights) ↔ left = right ∧ bit lefts = bit rights := by
  constructor
  · intro heq
    refine ⟨?_, ?_⟩
    · apply UInt8.eq_of_toBitVec_eq
      apply BitVec.eq_of_getLsbD_eq
      intro j hj
      rw [← bit_cons_of_lt hj left lefts, ← bit_cons_of_lt hj right rights, heq]
    · funext i
      rw [← bit_cons_add left lefts, ← bit_cons_add right rights, heq]
  · rintro ⟨rfl, hrest⟩
    funext i
    by_cases hi : i < 8
    · rw [bit_cons_of_lt hi, bit_cons_of_lt hi]
    · obtain ⟨k, rfl⟩ := Nat.exists_eq_add_of_le' (Nat.le_of_not_lt hi)
      rw [bit_cons_add, bit_cons_add, hrest]

/-- Behind the end of a list its bytes count as zero. -/
theorem bit_cons_eq_nil (byte : UInt8) (bytes : List UInt8) :
    bit (byte :: bytes) = bit [] ↔ byte = 0 ∧ bit bytes = bit [] := by
  have hzero : bit [0] = bit [] := by
    funext i
    rw [bit_nil]
    exact bit_replicate_zero 1 i
  rw [← hzero, bit_cons_inj, hzero]

/-- The test that a byte has all bits of another one. -/
theorem and_eq_right_iff (upper lower : UInt8) :
    upper &&& lower = lower ↔
      ∀ j < 8, lower.toBitVec.getLsbD j = true → upper.toBitVec.getLsbD j = true := by
  constructor
  · intro heq j _ hlower
    rw [← heq, UInt8.toBitVec_and, BitVec.getLsbD_and, Bool.and_eq_true] at hlower
    exact hlower.1
  · intro hincluded
    apply UInt8.eq_of_toBitVec_eq
    apply BitVec.eq_of_getLsbD_eq
    intro j hj
    rw [UInt8.toBitVec_and, BitVec.getLsbD_and]
    cases hlower : lower.toBitVec.getLsbD j with
    | false => exact Bool.and_false _
    | true => rw [hincluded j hj hlower, Bool.and_true]

/-- Inclusion goes byte by byte. -/
theorem forall_bit_cons (lower upper : UInt8) (lowers uppers : List UInt8) :
    (∀ i, bit (lower :: lowers) i = true → bit (upper :: uppers) i = true) ↔
      upper &&& lower = lower ∧ ∀ i, bit lowers i = true → bit uppers i = true := by
  rw [and_eq_right_iff]
  constructor
  · intro hincluded
    refine ⟨?_, ?_⟩
    · intro j hj
      have hbit := hincluded j
      rwa [bit_cons_of_lt hj, bit_cons_of_lt hj] at hbit
    · intro i
      have hbit := hincluded (i + 8)
      rwa [bit_cons_add, bit_cons_add] at hbit
  · intro ⟨hfirst, hrest⟩ i
    by_cases hi : i < 8
    · rw [bit_cons_of_lt hi, bit_cons_of_lt hi]
      exact hfirst i hi
    · obtain ⟨k, rfl⟩ := Nat.exists_eq_add_of_le' (Nat.le_of_not_lt hi)
      rw [bit_cons_add, bit_cons_add]
      exact hrest k

end Data.Bytes
