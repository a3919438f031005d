import Mutual.Proof.InsertFrame
import Mutual.SharedSet

/-!
# Maps of any capacity

With at least one bucket, every call of a thread on its own finds its bucket, comes to its end and
leaves each bucket sorted by hash. The constructor takes a capacity of zero as well, and with no
bucket the remainder that selects one panics in every call.
-/

namespace Mutual

open Concurrency

namespace SharedMap

variable {K V : Type} {capacity : UInt64} {hashKey : K → UInt64}

theorem withCapacity_orderly :
    Orderly hashKey (withCapacity capacity : Index capacity → SharedList (Entry K V)) :=
  ⟨_, withCapacity_shows, .empty⟩

variable [BEq K]

theorem exists_executes (hcapacity : capacity ≠ 0)
    {state : Index capacity → SharedList (Entry K V)} (hstate : Orderly hashKey state)
    (calls : List (Call K V)) :
    ∃ replies final, (object capacity V hashKey).Executes state calls replies final := by
  induction calls generalizing state with
  | nil => exact ⟨[], state, .nil⟩
  | cons call calls ih =>
      obtain ⟨next, result, hcall, hnext⟩ := exists_orderly hcapacity hstate call
      obtain ⟨replies, final, hrest⟩ := ih hnext
      exact ⟨result :: replies, final, .cons hcall hrest⟩

/-! ### Panics -/

/-- The calls go through, one after the other: the bucket of each is there, none panics, be it at the
remainder or at the `unwrap` of `compute_if_absent`, and each returns. -/
structure NeverPanics (capacity : UInt64) (hashKey : K → UInt64) (calls : List (Call K V)) :
    Prop where
  index : ∀ call ∈ calls, ∃ bucket : Index capacity,
    bucket = (hashKey call.key % capacity).toNat ∧
      ∀ next : Index capacity → Code capacity K V, bucketOf (hashKey call.key) next = next bucket
  panics : ∀ {before after : List (Call K V)} {call : Call K V} {replies : List (Reply V)}
    {state final : Index capacity → SharedList (Entry K V)} {message : String},
    calls = before ++ call :: after →
    (object capacity V hashKey).Executes (withCapacity capacity) before replies state →
    ¬ (object capacity V hashKey).Panics state (enter hashKey call) final message
  returns : ∃ replies final,
    (object capacity V hashKey).Executes (withCapacity capacity) calls replies final

theorem neverPanics_of_pos (hcapacity : capacity ≠ 0) (calls : List (Call K V)) :
    NeverPanics capacity hashKey calls where
  index call _ := ⟨indexOf hcapacity (hashKey call.key), rfl, bucketOf_eq hcapacity _⟩
  panics := by
    intro before after call replies state final message _ hrun hpanics
    have horderly : Orderly hashKey state := orderly_of_executes hcapacity hrun
    obtain ⟨next, result, hcall, -⟩ := exists_orderly hcapacity horderly call
    cases Object.alone_unique hcall hpanics rfl rfl
  returns := exists_executes hcapacity withCapacity_orderly calls

theorem neverPanics_iff (calls : List (Call K V)) :
    NeverPanics capacity hashKey calls ↔ calls = [] ∨ capacity ≠ 0 := by
  constructor
  · intro hsafe
    cases calls with
    | nil => exact .inl rfl
    | cons call calls =>
        refine .inr ?_
        rintro rfl
        obtain ⟨bucket, -, -⟩ := hsafe.index call List.mem_cons_self
        exact absurd bucket.isLt (Nat.not_lt_zero bucket)
  · rintro (rfl | hcapacity)
    · refine ⟨by simp, ?_, [], _, .nil⟩
      intro before after call replies state final message heq
      simp at heq
    · exact neverPanics_of_pos hcapacity calls

end SharedMap

namespace SharedSet

open SharedMap

variable {T : Type} [BEq T] {capacity : UInt64} {hashKey : T → UInt64}

theorem exists_executes (hcapacity : capacity ≠ 0)
    {state : Index capacity → SharedList (Entry T Unit)} (hstate : Orderly hashKey state)
    (calls : List (Call T)) : ∃ results final, Executes hashKey state calls results final := by
  induction calls generalizing state with
  | nil => exact ⟨[], state, .nil⟩
  | cons call calls ih =>
      obtain ⟨next, reply, hcall, hnext⟩ := exists_orderly hcapacity hstate call.inner
      obtain ⟨results, final, hrest⟩ := ih hnext
      exact ⟨call.result reply :: results, final, .cons hcall hrest⟩

/-- The calls of the set go through, each with its call of the map. -/
def NeverPanics (capacity : UInt64) (hashKey : T → UInt64) (calls : List (Call T)) : Prop :=
  SharedMap.NeverPanics capacity hashKey (calls.map Call.inner) ∧
    ∃ results final, Executes hashKey (withCapacity capacity) calls results final

theorem neverPanics_iff (calls : List (Call T)) :
    NeverPanics capacity hashKey calls ↔ calls = [] ∨ capacity ≠ 0 := by
  have hmap : SharedMap.NeverPanics capacity hashKey (calls.map Call.inner) ↔
      calls = [] ∨ capacity ≠ 0 := by
    rw [SharedMap.neverPanics_iff, List.map_eq_nil_iff]
  rw [NeverPanics, hmap, and_iff_left_iff_imp]
  rintro (rfl | hcapacity)
  · exact ⟨[], _, .nil⟩
  · exact exists_executes hcapacity withCapacity_orderly calls

end SharedSet

namespace SharedMap

variable {K V : Type} [BEq K] {hashKey : K → UInt64}

/-- **No call of a map or of a set panics** exactly if there is a bucket, or no call. -/
theorem never_panics_iff_capacity (capacity : UInt64) (hashKey : K → UInt64) :
    (∀ calls : List (Call K V),
      NeverPanics capacity hashKey calls ↔ calls = [] ∨ capacity ≠ 0) ∧
    ∀ calls : List (SharedSet.Call K),
      SharedSet.NeverPanics capacity hashKey calls ↔ calls = [] ∨ capacity ≠ 0 :=
  ⟨neverPanics_iff, SharedSet.neverPanics_iff⟩

/-- The first call of a map without buckets. -/
theorem never_panics_fails :
    let hashKey : UInt32 → UInt64 := UInt32.toUInt64
    (object 0 ℕ hashKey).Panics (withCapacity 0) (enter hashKey (.insert 1 10)) (withCapacity 0)
        "attempt to calculate the remainder with a divisor of zero" ∧
      ¬ NeverPanics 0 hashKey [.insert 1 10] := by
  intro hashKey
  have hpanics : (object 0 ℕ hashKey).Panics (withCapacity 0) (enter hashKey (.insert 1 10))
      (withCapacity 0) "attempt to calculate the remainder with a divisor of zero" :=
    Relation.ReflTransGen.refl
  refine ⟨hpanics, ?_⟩
  intro hsafe
  exact hsafe.panics (List.nil_append _).symm .nil hpanics

/-! ### Buckets sorted by hash -/

/-- **The bucket invariant.** Whatever calls a thread on its own makes, they return, and then each
entry has the hash of its key and is in the bucket this hash selects, where the hashes get strictly
larger along the list. -/
theorem bucket_invariant {capacity : UInt64} (hcapacity : 1 ≤ capacity) (hashKey : K → UInt64)
    (calls : List (Call K V)) :
    (∃ replies state,
      (object capacity V hashKey).Executes (withCapacity capacity) calls replies state) ∧
    ∀ replies state,
      (object capacity V hashKey).Executes (withCapacity capacity) calls replies state →
      ∀ bucket, ∃ entries : List (Entry K V), (state bucket).Holds entries ∧
        (∀ entry ∈ entries, entry.hash = hashKey entry.key ∧
          (entry.hash % capacity).toNat = bucket) ∧
        entries.Pairwise fun left right => left.hash < right.hash := by
  have hne : capacity ≠ 0 := by
    rintro rfl
    exact absurd hcapacity (by decide)
  refine ⟨exists_executes hne withCapacity_orderly calls, ?_⟩
  intro replies state hrun bucket
  obtain ⟨contents, hshows, htidy⟩ := orderly_of_executes hne hrun
  refine ⟨contents bucket, (hshows bucket).1.holds, ?_, (htidy bucket).ascending⟩
  intro entry hmem
  exact ⟨(htidy bucket).hash entry hmem, (htidy bucket).index entry hmem⟩

theorem bucket_invariant_one :
    (∃ replies state, (object 1 ℕ emptyHash).Executes (withCapacity 1)
      [.insert 3 1, .computeIfAbsent 5 2, .remove 3] replies state) ∧
    ∀ replies state, (object 1 ℕ emptyHash).Executes (withCapacity 1)
      [.insert 3 1, .computeIfAbsent 5 2, .remove 3] replies state →
      ∀ bucket, ∃ entries : List (Entry UInt32 ℕ), (state bucket).Holds entries ∧
        (∀ entry ∈ entries, entry.hash = emptyHash entry.key ∧
          (entry.hash % 1).toNat = bucket) ∧
        entries.Pairwise fun left right => left.hash < right.hash := by
  have hcapacity : (1 : UInt64) ≤ 1 := by decide
  exact bucket_invariant hcapacity emptyHash [.insert 3 1, .computeIfAbsent 5 2, .remove 3]

end SharedMap

end Mutual
