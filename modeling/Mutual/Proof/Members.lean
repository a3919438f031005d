import Mathlib.Algebra.Group.Nat.Defs
import Mathlib.Data.List.Induction
import Mathlib.Data.Set.Insert
import Mutual.BitSet
import Mutual.Data.Bytes

/-!
# A bit set as a set of indices

An insertion has two paths, a bit set in a byte that is there and a byte appended behind zero bytes.
In both the bits become those before and the inserted one, so that one lemma on bits serves for
both, and an index is contained when the last operation that names it is an insertion.
-/

namespace Mutual.BitSet

open Data.Bytes

theorem toNat_segmentIdx (idx : UInt32) : (idx / 8).toNat = idx.toNat / 8 := UInt32.toNat_div idx 8

theorem toNat_subIdx (idx : UInt32) : (idx % 8).toNat = idx.toNat % 8 := UInt32.toNat_mod idx 8

theorem contains_eq_bit (set : BitSet) (idx : UInt32) :
    set.contains idx = bit set.internal idx.toNat := by
  rw [contains, bit, toNat_segmentIdx, toNat_subIdx, List.getD_eq_getElem?_getD]
  cases hsegment : set.internal[idx.toNat / 8]? with
  | none => simp
  | some segment =>
      rw [Bool.eq_iff_iff]
      simpa [hsegment] using mask_pos segment (Nat.mod_lt idx.toNat (by decide))

/-! ### How long a set gets -/

/-- The bytes that 32-bit indices lie in. -/
def maxLen : Nat := 2 ^ 29

theorem segment_lt (idx : UInt32) : (idx / 8).toNat < maxLen := by
  have hidx := idx.toNat_lt
  rw [toNat_segmentIdx, maxLen]
  omega

theorem insert_length {set : BitSet} (hset : set.internal.length ≤ maxLen) (idx : UInt32) :
    (set.insert idx).internal.length ≤ maxLen := by
  have hidx := segment_lt idx
  unfold insert
  cases hsegment : set.internal[(idx / 8).toNat]? with
  | some segment =>
      simp only [hsegment, List.length_set]
      exact hset
  | none =>
      have hlen := List.getElem?_eq_none_iff.mp hsegment
      simp only [hsegment, List.length_append, List.length_replicate, List.length_singleton]
      omega

theorem remove_length (set : BitSet) (idx : UInt32) :
    (set.remove idx).internal.length = set.internal.length := by
  unfold remove
  cases hsegment : set.internal[(idx / 8).toNat]? with
  | none => simp only [hsegment]
  | some segment => simp only [hsegment, List.length_set]

theorem insertAll_length {set : BitSet} (hset : set.internal.length ≤ maxLen)
    (iter : List UInt32) : (set.insertAll iter).internal.length ≤ maxLen := by
  induction iter generalizing set with
  | nil => exact hset
  | cons idx iter ih => exact ih (insert_length hset idx)

theorem apply_length {set : BitSet} (hset : set.internal.length ≤ maxLen) (op : Op) :
    (set.apply op).internal.length ≤ maxLen := by
  cases op with
  | insert idx => exact insert_length hset idx
  | insertAll iter => exact insertAll_length hset iter
  | insertSlice slice => exact insertAll_length hset slice
  | remove idx =>
      rw [apply, remove_length]
      exact hset

theorem foldl_length {set : BitSet} (hset : set.internal.length ≤ maxLen) (ops : List Op) :
    (ops.foldl apply set).internal.length ≤ maxLen := by
  induction ops generalizing set with
  | nil => exact hset
  | cons op ops ih => exact ih (apply_length hset op)

theorem build_length (ops : List Op) : (build ops).internal.length ≤ maxLen :=
  foldl_length (Nat.zero_le _) ops

/-! ### One operation -/

theorem bit_insert (set : BitSet) (idx : UInt32) (i : ℕ) :
    bit (set.insert idx).internal i = (decide (i = idx.toNat) || bit set.internal i) := by
  apply bit_of_or_mask
  intro n
  rw [insert, toNat_segmentIdx, toNat_subIdx]
  cases hsegment : set.internal[idx.toNat / 8]? with
  | some segment =>
      obtain ⟨hlt, -⟩ := List.getElem?_eq_some_iff.mp hsegment
      simp only [getD_set hlt, List.getD_eq_getElem?_getD, hsegment, Option.getD_some]
  | none =>
      have hlen := List.getElem?_eq_none_iff.mp hsegment
      simp only [getD_pad hlen, List.getD_eq_default _ _ hlen, UInt8.zero_or]

theorem bit_remove (set : BitSet) (idx : UInt32) (i : ℕ) :
    bit (set.remove idx).internal i = (!decide (i = idx.toNat) && bit set.internal i) := by
  apply bit_of_and_mask
  intro n
  rw [remove, toNat_segmentIdx, toNat_subIdx]
  cases hsegment : set.internal[idx.toNat / 8]? with
  | some segment =>
      obtain ⟨hlt, -⟩ := List.getElem?_eq_some_iff.mp hsegment
      simp only [getD_set hlt, List.getD_eq_getElem?_getD, hsegment, Option.getD_some]
  | none =>
      have hlen := List.getElem?_eq_none_iff.mp hsegment
      by_cases hn : n = idx.toNat / 8
      · simp only [hn, if_true, List.getD_eq_default _ _ hlen, UInt8.zero_and]
      · rw [if_neg hn]

theorem contains_insert (set : BitSet) (idx other : UInt32) :
    (set.insert idx).contains other = (idx == other || set.contains other) := by
  have hidx : other.toNat = idx.toNat ↔ idx = other := by rw [UInt32.toNat_inj, eq_comm]
  rw [contains_eq_bit, contains_eq_bit, bit_insert, beq_eq_decide]
  simp only [hidx]

theorem contains_remove (set : BitSet) (idx other : UInt32) :
    (set.remove idx).contains other = (!(idx == other) && set.contains other) := by
  have hidx : other.toNat = idx.toNat ↔ idx = other := by rw [UInt32.toNat_inj, eq_comm]
  rw [contains_eq_bit, contains_eq_bit, bit_remove, beq_eq_decide]
  simp only [hidx]

theorem contains_insertAll (set : BitSet) (iter : List UInt32) (other : UInt32) :
    (set.insertAll iter).contains other = (iter.contains other || set.contains other) := by
  induction iter generalizing set with
  | nil => rw [List.contains_nil, Bool.false_or, insertAll, List.foldl_nil]
  | cons idx iter ih =>
      calc (set.insertAll (idx :: iter)).contains other
          = ((set.insert idx).insertAll iter).contains other := rfl
        _ = (iter.contains other || (idx == other || set.contains other)) := by
            rw [ih, contains_insert]
        _ = ((idx :: iter).contains other || set.contains other) := by
            rw [List.contains_cons, BEq.comm, ← Bool.or_assoc, Bool.or_comm (iter.contains other)]

/-- The effect of an operation on one index. -/
theorem contains_apply (set : BitSet) (op : Op) (idx : UInt32) :
    (set.apply op).contains idx =
      if op.names idx then op.isInsertion else set.contains idx := by
  cases op with
  | insert i =>
      rw [apply, contains_insert, Op.names]
      cases i == idx <;> rfl
  | insertAll iter =>
      rw [apply, contains_insertAll, Op.names]
      cases iter.contains idx <;> rfl
  | insertSlice slice =>
      rw [apply, insertSlice, contains_insertAll, Op.names]
      cases slice.contains idx <;> rfl
  | remove i =>
      rw [apply, contains_remove, Op.names]
      cases i == idx <;> rfl

theorem contains_apply_of_not_names {op : Op} {idx : UInt32} (hnames : op.names idx = false)
    (set : BitSet) : (set.apply op).contains idx = set.contains idx := by
  rw [contains_apply, hnames, if_neg Bool.false_ne_true]

/-! ### The set that is meant -/

def members (set : BitSet) : Set UInt32 := {idx | set.contains idx = true}

def Op.denote : Op → Set UInt32 → Set UInt32
  | insert idx, set => Insert.insert idx set
  | insertAll iter, set => set ∪ {idx | idx ∈ iter}
  | insertSlice slice, set => set ∪ {idx | idx ∈ slice}
  | remove idx, set => set \ {idx}

theorem members_apply (set : BitSet) (op : Op) :
    members (set.apply op) = op.denote (members set) := by
  ext idx
  rw [members, Set.mem_ofPred_eq, contains_apply]
  cases op with
  | insert i =>
      by_cases heq : i = idx
      · simp [Op.names, Op.isInsertion, Op.denote, heq]
      · simp [Op.names, Op.denote, members, heq, Ne.symm heq]
  | insertAll iter =>
      by_cases hmem : idx ∈ iter
      · simp [Op.names, Op.isInsertion, Op.denote, hmem]
      · simp [Op.names, Op.denote, members, hmem]
  | insertSlice slice =>
      by_cases hmem : idx ∈ slice
      · simp [Op.names, Op.isInsertion, Op.denote, hmem]
      · simp [Op.names, Op.denote, members, hmem]
  | remove i =>
      by_cases heq : i = idx
      · simp [Op.names, Op.isInsertion, Op.denote, heq]
      · simp [Op.names, Op.denote, members, heq, Ne.symm heq]

theorem members_foldl (set : BitSet) (ops : List Op) :
    members (ops.foldl apply set) = ops.foldl (fun s op => op.denote s) (members set) := by
  induction ops generalizing set with
  | nil => rfl
  | cons op ops ih => rw [List.foldl_cons, List.foldl_cons, ih, members_apply]

theorem members_build (ops : List Op) :
    members (build ops) = ops.foldl (fun s op => op.denote s) ∅ := by
  have hnew : members new = ∅ := by
    ext idx
    simp [members, new, contains]
  rw [build, members_foldl, hnew]

/-! ### The last operation that names an index -/

theorem build_append (ops : List Op) (op : Op) : build (ops ++ [op]) = (build ops).apply op := by
  rw [build, List.foldl_append, build, List.foldl_cons, List.foldl_nil]

theorem contains_build_iff (ops : List Op) (idx : UInt32) :
    (build ops).contains idx = true ↔
      ∃ op, (ops.filter (Op.names idx)).getLast? = some op ∧ op.isInsertion = true := by
  induction ops using List.reverseRecOn with
  | nil => simp [build, new, contains]
  | append_singleton ops op ih =>
      rw [build_append, contains_apply, List.filter_append]
      cases hnames : op.names idx with
      | true => simp [hnames]
      | false => simpa [hnames] using ih

/-! ### Arithmetic -/

theorem checkedShl_of_lt {shift : ℕ} (hshift : shift < 8) (byte : UInt8) :
    checkedShl byte shift = some (byte <<< UInt8.ofNat shift) := by
  rw [checkedShl, if_pos hshift]

theorem checkedSub_of_le {left right : ℕ} (hle : right ≤ left) :
    checkedSub left right = some (left - right) := by
  rw [checkedSub, if_pos hle]

theorem subIdx_lt (idx : UInt32) : (idx % 8).toNat < 8 := by
  rw [toNat_subIdx]
  exact Nat.mod_lt _ (by decide)

theorem insertChecked_eq (set : BitSet) (idx : UInt32) :
    set.insertChecked idx = some (set.insert idx) := by
  rw [insertChecked, insert]
  cases hsegment : set.internal[(idx / 8).toNat]? with
  | some segment =>
      simp only [checkedShl_of_lt (subIdx_lt idx)]
      rfl
  | none =>
      have hlen := List.getElem?_eq_none_iff.mp hsegment
      simp only [checkedShl_of_lt (subIdx_lt idx), checkedSub_of_le hlen]
      rfl

theorem removeChecked_eq (set : BitSet) (idx : UInt32) :
    set.removeChecked idx = some (set.remove idx) := by
  rw [removeChecked, remove]
  cases set.internal[(idx / 8).toNat]? with
  | some segment =>
      simp only [checkedShl_of_lt (subIdx_lt idx)]
      rfl
  | none => rfl

theorem foldlM_insertChecked (set : BitSet) (iter : List UInt32) :
    iter.foldlM insertChecked set = some (set.insertAll iter) := by
  induction iter generalizing set with
  | nil => rfl
  | cons idx iter ih =>
      rw [List.foldlM_cons, insertChecked_eq]
      exact ih (set.insert idx)

theorem applyChecked_eq (set : BitSet) (op : Op) :
    set.applyChecked op = some (set.apply op) := by
  cases op with
  | insert idx => exact insertChecked_eq set idx
  | insertAll iter => exact foldlM_insertChecked set iter
  | insertSlice slice => exact foldlM_insertChecked set slice
  | remove idx => exact removeChecked_eq set idx

theorem foldlM_applyChecked (set : BitSet) (ops : List Op) :
    ops.foldlM applyChecked set = some (ops.foldl apply set) := by
  induction ops generalizing set with
  | nil => rfl
  | cons op ops ih =>
      rw [List.foldlM_cons, applyChecked_eq]
      exact ih (set.apply op)

/-- **A bit set is the set its operations say.** An index is contained when the last operation that
names it is an insertion, an operation leaves the indices it does not name, and no subtraction or
shift leaves its range. -/
theorem build_refines (ops : List Op) :
    members (build ops) = ops.foldl (fun s op => op.denote s) ∅ ∧
      (∀ idx, (build ops).contains idx = true ↔
        ∃ op, (ops.filter (Op.names idx)).getLast? = some op ∧ op.isInsertion = true) ∧
      (∀ op idx, op.names idx = false →
        ((build ops).apply op).contains idx = (build ops).contains idx) ∧
      buildChecked ops = some (build ops) := by
  refine ⟨members_build ops, contains_build_iff ops, ?_, foldlM_applyChecked new ops⟩
  intro op idx hnames
  exact contains_apply_of_not_names hnames (build ops)

end Mutual.BitSet
