import Mathlib.Data.List.Find
import Mutual.Proof.InsertFrame

/-!
# Lookups by key and by hash

`get` compares keys, `contains` and `remove` compare hashes. They select the same entry exactly if
the entry with the hash of the key is that of the key.
-/

namespace Mutual.SharedMap

open Concurrency

variable {K V : Type} [BEq K] {capacity : UInt64} {hashKey : K → UInt64}
  {contents : Contents capacity K V} {hcapacity : capacity ≠ 0} {key other : K}

/-- No entry in the bucket of `key` has the hash of `key` and another key. -/
def Separates (hcapacity : capacity ≠ 0) (hashKey : K → UInt64) (contents : Contents capacity K V)
    (key : K) : Prop :=
  ∀ entry ∈ contents (indexOf hcapacity (hashKey key)), hashKey entry.key = hashKey key →
    (entry.key == key) = true

namespace Separates

variable (hseparates : Separates hcapacity hashKey contents key)
include hseparates

theorem hash_iff (hrespects : Respects hashKey) (htidy : Tidy hashKey contents) {entry : Entry K V}
    (hmem : entry ∈ contents (indexOf hcapacity (hashKey key))) :
    entry.hash = hashKey key ↔ (entry.key == key) = true := by
  rw [(htidy _).hash entry hmem]
  exact ⟨hseparates entry hmem, hrespects _ _⟩

/-- The search by hash finds what the search by key finds. -/
theorem find_hash (hrespects : Respects hashKey) (htidy : Tidy hashKey contents) :
    ((contents (indexOf hcapacity (hashKey key))).find? fun entry => entry.hash == hashKey key).map
      Entry.value = lookup hcapacity hashKey contents key := by
  rw [lookup]
  refine congrArg (Option.map Entry.value) (List.find?_congr ?_)
  intro entry hmem
  rw [Bool.eq_iff_iff, beq_iff_eq]
  exact hseparates.hash_iff hrespects htidy hmem

theorem any_hash (hrespects : Respects hashKey) (htidy : Tidy hashKey contents) :
    ((contents (indexOf hcapacity (hashKey key))).any fun entry => entry.hash == hashKey key) =
      (lookup hcapacity hashKey contents key).isSome := by
  rw [← hseparates.find_hash hrespects htidy, Option.isSome_map, List.isSome_find?]

end Separates

/-! ### The map after `remove` -/

abbrev removed (hcapacity : capacity ≠ 0) (hashKey : K → UInt64) (contents : Contents capacity K V)
    (key : K) : Contents capacity K V :=
  let bucket := indexOf hcapacity (hashKey key)
  Function.update contents bucket
    ((contents bucket).filter fun entry => !entry.hash == hashKey key)

omit [BEq K] in
theorem removed_tidy (htidy : Tidy hashKey contents) (key : K) :
    Tidy hashKey (removed hcapacity hashKey contents key) := htidy.update ((htidy _).filter _)

omit [BEq K] in
theorem mem_removed {entry : Entry K V} {bucket : Index capacity} :
    entry ∈ removed hcapacity hashKey contents key bucket ↔ entry ∈ contents bucket ∧
      (bucket = indexOf hcapacity (hashKey key) → entry.hash ≠ hashKey key) := by
  by_cases hbucket : bucket = indexOf hcapacity (hashKey key)
  · subst hbucket
    rw [removed, Function.update_self, List.mem_filter]
    simp
  · rw [removed, Function.update_of_ne hbucket]
    simp [hbucket]

theorem Separates.lookup_removed_of_ne [EquivBEq K]
    (hseparates : Separates hcapacity hashKey contents key) (hrespects : Respects hashKey)
    (htidy : Tidy hashKey contents) (hne : (other == key) = false) :
    lookup hcapacity hashKey (removed hcapacity hashKey contents key) other =
      lookup hcapacity hashKey contents other := by
  ext found
  rw [lookup_eq_some_iff hrespects (removed_tidy htidy key), lookup_eq_some_iff hrespects htidy]
  refine exists_congr fun entry => and_congr_left fun ⟨hkey, _⟩ => ?_
  rw [mem_removed]
  refine and_iff_left_of_imp fun hmem hbucket hhash => ?_
  rw [hbucket] at hmem
  have hself := (hseparates.hash_iff hrespects htidy hmem).mp hhash
  rw [BEq.trans (BEq.symm hkey) hself] at hne
  cases hne

theorem lookup_removed_of_hash (hrespects : Respects hashKey) (htidy : Tidy hashKey contents)
    (hsame : hashKey other = hashKey key) :
    lookup hcapacity hashKey (removed hcapacity hashKey contents key) other = none := by
  rw [Option.eq_none_iff_forall_ne_some]
  intro found hfound
  rw [lookup_eq_some_iff hrespects (removed_tidy htidy key), hsame] at hfound
  obtain ⟨entry, hmem, hkey, -⟩ := hfound
  obtain ⟨hmem, hhash⟩ := mem_removed.mp hmem
  apply hhash rfl
  calc entry.hash
      _ = hashKey entry.key := (htidy _).hash entry hmem
      _ = hashKey other := hrespects _ _ hkey
      _ = hashKey key := hsame

/-! ### Agreement -/

section Agreement

variable {state : Index capacity → SharedList (Entry K V)}

theorem separates_iff [EquivBEq K] (hshows : Shows state contents) (hrespects : Respects hashKey)
    (htidy : Tidy hashKey contents) :
    Separates hcapacity hashKey contents key ↔ ¬ Collides hashKey state key := by
  constructor
  · rintro hseparates ⟨held, value, hne, hhash, hget⟩
    have hlookup := (get_answer hcapacity hshows).mp hget
    obtain ⟨entry, hmem, hkey, -⟩ := (lookup_eq_some_iff hrespects htidy).mp hlookup.symm
    rw [hhash] at hmem
    have hself := hseparates entry hmem ((hrespects _ _ hkey).trans hhash)
    rw [BEq.trans (BEq.symm hkey) hself] at hne
    cases hne
  · intro hfree entry hmem hhash
    rw [← Bool.not_eq_false]
    intro hne
    refine hfree ⟨entry.key, entry.value, hne, hhash, (get_answer hcapacity hshows).mpr ?_⟩
    symm
    rw [lookup_eq_some_iff hrespects htidy, hhash]
    exact ⟨entry, hmem, BEq.rfl, rfl⟩

/-- `get`, `contains` and `remove` agree on `key`, and `remove` leaves all other keys alone. -/
def LookupsAgree (hashKey : K → UInt64) (state : Index capacity → SharedList (Entry K V)) (key : K) :
    Prop :=
  ∃ found answer taken final,
    (object capacity V hashKey).Completes state (enter hashKey (.get key)) state
      (.found found) ∧
    (object capacity V hashKey).Completes state (enter hashKey (.contains key)) state
      (.bool answer) ∧
    (object capacity V hashKey).Completes state (enter hashKey (.remove key)) final
      (.found taken) ∧
    (answer = true ↔ found.isSome = true) ∧ taken = found ∧
    ∀ other, (other == key) = false → ∃ held,
      (object capacity V hashKey).Completes state (enter hashKey (.get other)) state
        (.found held) ∧
      (object capacity V hashKey).Completes final (enter hashKey (.get other)) final
        (.found held)

theorem lookupsAgree_iff [EquivBEq K] (hcapacity : capacity ≠ 0) (hrespects : Respects hashKey)
    (hstate : Orderly hashKey state) (key : K) :
    LookupsAgree hashKey state key ↔ ¬ Collides hashKey state key := by
  obtain ⟨contents, hshows, htidy⟩ := hstate
  have hcontains : (object capacity V hashKey).Completes state (enter hashKey (.contains key)) state
      (.bool _) := contains_completes hcapacity hshows key
  constructor
  · rintro ⟨found, answer, taken, final, hget, hanswer, -, hagree, -⟩ ⟨held, value, hne, hhash, hheld⟩
    rw [get_answer hcapacity hshows] at hget hheld
    obtain ⟨-, hsame⟩ := hanswer.deterministic hcontains
    obtain rfl := Reply.bool.inj hsame
    obtain ⟨entry, hmem, hkey, -⟩ := (lookup_eq_some_iff hrespects htidy).mp hheld.symm
    rw [hhash] at hmem
    have hentry : entry.hash = hashKey key := by
      rw [(htidy _).hash entry hmem, hrespects _ _ hkey, hhash]
    have hfound : found.isSome = true :=
      hagree.mp (List.any_eq_true.mpr ⟨entry, hmem, beq_iff_eq.mpr hentry⟩)
    obtain ⟨value', rfl⟩ := Option.isSome_iff_exists.mp hfound
    obtain ⟨entry', hmem', hkey', -⟩ := (lookup_eq_some_iff hrespects htidy).mp hget.symm
    -- the bucket has one entry with the hash, and it is that of the other key
    have hentry' : entry'.hash = hashKey key := by
      rw [(htidy _).hash entry' hmem', hrespects _ _ hkey']
    obtain rfl := (htidy _).ascending.eq_of_hash hmem hmem' (hentry.trans hentry'.symm)
    rw [BEq.trans (BEq.symm hkey) hkey'] at hne
    cases hne
  · intro hfree
    have hseparates : Separates hcapacity hashKey contents key :=
      (separates_iff hshows hrespects htidy).mpr hfree
    obtain ⟨after, hremove, hafter⟩ := remove_completes hcapacity hshows htidy key
    rw [hseparates.any_hash hrespects htidy] at hcontains
    rw [hseparates.find_hash hrespects htidy] at hremove
    refine ⟨_, _, _, after, get_completes hcapacity hshows key, hcontains, hremove, Iff.rfl, rfl, ?_⟩
    intro other hne
    refine ⟨_, get_completes hcapacity hshows other, ?_⟩
    rw [get_answer hcapacity hafter]
    exact (hseparates.lookup_removed_of_ne hrespects htidy hne).symm

/-- **Lookups agree** on a key, in a map as it is built, exactly if no other key with the same hash
is in the map. -/
theorem lookups_agree_iff [EquivBEq K] (hcapacity : capacity ≠ 0) (hrespects : Respects hashKey)
    (hbuilt : Built hashKey state) (key : K) :
    LookupsAgree hashKey state key ↔ ¬ Collides hashKey state key :=
  lookupsAgree_iff hcapacity hrespects (hbuilt.orderly hcapacity) key

/-- A key that shares its bucket with another one, and a key that is not in the map. -/
theorem lookups_agree_iff_stored :
    ∃ state : Index 16 → SharedList (Entry UInt64 ℕ), Built id state ∧
      (object 16 ℕ id).Completes state (enter id (.get 1)) state (.found (some 10)) ∧
      (object 16 ℕ id).Completes state (enter id (.get 17)) state (.found (some 20)) ∧
      LookupsAgree id state 17 ∧ LookupsAgree id state 33 := by
  have hcapacity : (16 : UInt64) ≠ 0 := by decide
  obtain ⟨state, hbuilt, hfirst, hsecond⟩ := id_inserted
  exact ⟨state, hbuilt, hfirst, hsecond,
    (lookups_agree_iff hcapacity id_respects hbuilt 17).mpr not_collides_id,
    (lookups_agree_iff hcapacity id_respects hbuilt 33).mpr not_collides_id⟩

/-- Key 1 is in the map. `contains` and `remove` take it for key 2, `get` does not. -/
theorem lookups_agree_fails :
    ∃ state : Index 16 → SharedList (Entry UInt32 ℕ),
      (object 16 ℕ emptyHash).Executes (withCapacity 16) [.insert 1 10] [.bool false] state ∧
      ¬ LookupsAgree emptyHash state 2 := by
  obtain ⟨state, hrun, horderly, hget⟩ := emptyHash_inserted
  refine ⟨state, hrun, ?_⟩
  rw [lookupsAgree_iff (by decide) emptyHash_respects horderly, not_not]
  exact ⟨1, 10, rfl, rfl, hget⟩

end Agreement

end Mutual.SharedMap
