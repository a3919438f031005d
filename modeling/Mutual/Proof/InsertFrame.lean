import Mutual.Proof.Buckets

/-!
# What `insert` touches

`insert` takes out every entry with the hash of its key, whatever the key of that entry is. It
leaves all other keys alone exactly if no other key with this hash is in the map.
-/

namespace Mutual.SharedMap

open Concurrency

variable {K V : Type} {capacity : UInt64} {hashKey : K → UInt64}

/-! ### Maps as they are built -/

section Built

def Call.Edits : Call K V → Prop
  | .insert .. | .remove _ | .computeIfAbsent .. => True
  | .get _ | .contains _ => False

/-- The buckets are at rest and in order. -/
def Orderly (hashKey : K → UInt64) (state : Index capacity → SharedList (Entry K V)) : Prop :=
  ∃ contents, Shows state contents ∧ Tidy hashKey contents

theorem withCapacity_shows :
    Shows (withCapacity capacity : Index capacity → SharedList (Entry K V)) fun _ => [] := by
  intro bucket
  obtain ⟨slots, hlayout⟩ := SharedList.new_represents (T := Entry K V)
  exact ⟨⟨slots, hlayout.chain, hlayout.nodup, hlayout.allocated, hlayout.mutFree, hlayout.immFree,
    hlayout.len⟩, rfl⟩

variable [BEq K]

/-- A map one thread has built from an empty one. -/
def Built (hashKey : K → UInt64) (state : Index capacity → SharedList (Entry K V)) : Prop :=
  ∃ calls replies, (∀ call ∈ calls, Call.Edits call) ∧
    (object capacity V hashKey).Executes (withCapacity capacity) calls replies state

/-- **One call** comes to its end and leaves the buckets in order. -/
theorem exists_orderly (hcapacity : capacity ≠ 0)
    {state : Index capacity → SharedList (Entry K V)} (hstate : Orderly hashKey state)
    (call : Call K V) :
    ∃ final result, (object capacity V hashKey).Completes state (enter hashKey call) final result ∧
      Orderly hashKey final := by
  obtain ⟨contents, hshows, htidy⟩ := hstate
  cases call with
  | insert key value =>
      obtain ⟨after, hafter, hcontents⟩ := insert_completes hcapacity hshows htidy key value
      exact ⟨after, _, hafter, _, hcontents, htidy.update (((htidy _).filter _).push rfl rfl)⟩
  | get key => exact ⟨state, _, get_completes hcapacity hshows key, contents, hshows, htidy⟩
  | contains key =>
      exact ⟨state, _, contains_completes hcapacity hshows key, contents, hshows, htidy⟩
  | remove key =>
      obtain ⟨after, hafter, hcontents⟩ := remove_completes hcapacity hshows htidy key
      exact ⟨after, _, hafter, _, hcontents, htidy.update ((htidy _).filter _)⟩
  | computeIfAbsent key value =>
      cases hlookup : lookup hcapacity hashKey contents key with
      | some held =>
          have hafter := computeIfAbsent_present hcapacity hshows key hlookup value
          exact ⟨state, _, hafter, contents, hshows, htidy⟩
      | none =>
          obtain ⟨after, held, -, -, hafter, hcontents⟩ :=
            computeIfAbsent_absent hcapacity hshows key hlookup value
          exact ⟨after, _, hafter, _, hcontents, htidy.update ((htidy _).push rfl rfl)⟩

theorem call_orderly (hcapacity : capacity ≠ 0)
    {state final : Index capacity → SharedList (Entry K V)} (hstate : Orderly hashKey state)
    {call : Call K V} {result : Reply V}
    (hrun : (object capacity V hashKey).Completes state (enter hashKey call) final result) :
    Orderly hashKey final := by
  obtain ⟨after, result', hafter, horderly⟩ := exists_orderly hcapacity hstate call
  obtain ⟨rfl, -⟩ := hrun.deterministic hafter
  exact horderly

/-- **A map in the hands of one thread** has its buckets in order. -/
theorem orderly_of_executes (hcapacity : capacity ≠ 0) {calls : List (Call K V)}
    {replies : List (Reply V)} {state : Index capacity → SharedList (Entry K V)}
    (hrun : (object capacity V hashKey).Executes (withCapacity capacity) calls replies state) :
    Orderly hashKey state := by
  refine hrun.invariant (I := Orderly hashKey) ⟨_, withCapacity_shows, .empty⟩ ?_
  intro before after call result _ hbefore hcall
  exact call_orderly hcapacity hbefore hcall

theorem Built.orderly (hcapacity : capacity ≠ 0)
    {state : Index capacity → SharedList (Entry K V)} (hbuilt : Built hashKey state) :
    Orderly hashKey state := by
  obtain ⟨calls, replies, -, hrun⟩ := hbuilt
  exact orderly_of_executes hcapacity hrun

end Built

/-! ### Lookups -/

section Lookup

variable {contents : Contents capacity K V} {hcapacity : capacity ≠ 0}

theorem mem_put {entry other : Entry K V} {entries : List (Entry K V)} :
    other ∈ put entry entries ↔ other = entry ∨ (other ∈ entries ∧ other.hash ≠ entry.hash) := by
  have hfresh : ∀ other ∈ entries.filter (fun other => !other.hash == entry.hash),
      other.hash ≠ entry.hash := by
    intro other hother
    simpa using (List.mem_filter.mp hother).2
  rw [put, mem_insertOrdered hfresh, List.mem_filter]
  simp

abbrev inserted (hcapacity : capacity ≠ 0) (hashKey : K → UInt64) (contents : Contents capacity K V)
    (key : K) (value : V) : Contents capacity K V :=
  let bucket := indexOf hcapacity (hashKey key)
  Function.update contents bucket
    (put { hash := hashKey key, key := key, value := value } (contents bucket))

theorem inserted_tidy (htidy : Tidy hashKey contents) (key : K) (value : V) :
    Tidy hashKey (inserted hcapacity hashKey contents key value) :=
  htidy.update (((htidy _).filter _).push rfl rfl)

theorem mem_inserted_of_ne (htidy : Tidy hashKey contents) {key : K} {entry : Entry K V}
    (hhash : hashKey entry.key ≠ hashKey key) (value : V) (bucket : Index capacity) :
    entry ∈ inserted hcapacity hashKey contents key value bucket ↔ entry ∈ contents bucket := by
  by_cases hbucket : bucket = indexOf hcapacity (hashKey key)
  · subst hbucket
    rw [inserted, Function.update_self, mem_put]
    constructor
    · rintro (rfl | ⟨hmem, -⟩)
      · exact absurd rfl hhash
      · exact hmem
    · intro hmem
      have hheld := (htidy _).hash entry hmem
      exact .inr ⟨hmem, hheld ▸ hhash⟩
  · rw [inserted, Function.update_of_ne hbucket]

/-- What `insert` answers: whether an entry with the hash was there. -/
theorem any_hash_iff (htidy : Tidy hashKey contents) {key : K} :
    ((contents (indexOf hcapacity (hashKey key))).any fun entry => entry.hash == hashKey key) =
        true ↔
      ∃ entry ∈ contents (indexOf hcapacity (hashKey key)), hashKey entry.key = hashKey key := by
  rw [List.any_eq_true]
  refine exists_congr fun entry => and_congr_right fun hmem => ?_
  rw [beq_iff_eq, (htidy _).hash entry hmem]

variable [BEq K]

def Respects (hashKey : K → UInt64) : Prop := ∀ left right, (left == right) = true →
  hashKey left = hashKey right

/-- A bucket has one entry at most for a key. -/
theorem key_unique (hrespects : Respects hashKey) {bucket : Index capacity}
    {entries : List (Entry K V)} (hbucket : TidyBucket hashKey bucket entries) {key : K}
    {left right : Entry K V} (hleft : left ∈ entries) (hright : right ∈ entries)
    (hleftKey : (left.key == key) = true) (hrightKey : (right.key == key) = true) : left = right := by
  refine hbucket.ascending.eq_of_hash hleft hright ?_
  calc left.hash
      _ = hashKey left.key := hbucket.hash left hleft
      _ = hashKey key := hrespects _ _ hleftKey
      _ = hashKey right.key := (hrespects _ _ hrightKey).symm
      _ = right.hash := (hbucket.hash right hright).symm

theorem lookup_eq_some_iff (hrespects : Respects hashKey) (htidy : Tidy hashKey contents) {key : K}
    {value : V} :
    lookup hcapacity hashKey contents key = some value ↔
      ∃ entry ∈ contents (indexOf hcapacity (hashKey key)),
        (entry.key == key) = true ∧ entry.value = value := by
  rw [lookup, Option.map_eq_some_iff]
  constructor
  · rintro ⟨entry, hfind, hvalue⟩
    have hkey := List.find?_some hfind
    exact ⟨entry, List.mem_of_find?_eq_some hfind, hkey, hvalue⟩
  · rintro ⟨entry, hmem, hkey, hvalue⟩
    obtain ⟨found, hfind⟩ : ∃ found, (contents (indexOf hcapacity (hashKey key))).find?
        (fun entry => entry.key == key) = some found := by
      rw [← Option.isSome_iff_exists, List.find?_isSome]
      exact ⟨entry, hmem, hkey⟩
    have hfound := List.find?_some hfind
    rw [key_unique hrespects (htidy _) (List.mem_of_find?_eq_some hfind) hmem hfound hkey] at hfind
    exact ⟨entry, hfind, hvalue⟩

theorem lookup_inserted_of_ne (hrespects : Respects hashKey) (htidy : Tidy hashKey contents)
    {key other : K} (hhash : hashKey other ≠ hashKey key) (value : V) :
    lookup hcapacity hashKey (inserted hcapacity hashKey contents key value) other =
      lookup hcapacity hashKey contents other := by
  ext found
  rw [lookup_eq_some_iff hrespects (inserted_tidy htidy key value),
    lookup_eq_some_iff hrespects htidy]
  refine exists_congr fun entry => and_congr_left fun ⟨hkey, _⟩ => ?_
  refine mem_inserted_of_ne htidy ?_ value _
  rw [hrespects _ _ hkey]
  exact hhash

/-- Another key with the same hash is evicted. -/
theorem lookup_inserted_of_eq [EquivBEq K] (hrespects : Respects hashKey) (htidy : Tidy hashKey contents)
    {key other : K} (hne : (other == key) = false) (hhash : hashKey other = hashKey key)
    (value : V) :
    lookup hcapacity hashKey (inserted hcapacity hashKey contents key value) other = none := by
  rw [Option.eq_none_iff_forall_ne_some]
  intro found hfound
  rw [lookup_eq_some_iff hrespects (inserted_tidy htidy key value)] at hfound
  obtain ⟨entry, hmem, hkey, -⟩ := hfound
  rw [hhash, inserted, Function.update_self, mem_put] at hmem
  rcases hmem with rfl | ⟨hmem, hentry⟩
  · rw [BEq.comm, hne] at hkey
    cases hkey
  · refine hentry ?_
    rw [(htidy _).hash entry hmem, hrespects _ _ hkey, hhash]

end Lookup

/-! ### The frame of `insert` -/

section Frame

variable [BEq K]

/-- `insert` says whether the key was there and changes the answer of `get` for no other key. -/
def InsertsOnly (hashKey : K → UInt64) (state : Index capacity → SharedList (Entry K V)) (key : K)
    (value : V) : Prop :=
  ∃ final result before,
    (object capacity V hashKey).Completes state (enter hashKey (.insert key value)) final
      (.bool result) ∧
    (object capacity V hashKey).Completes state (enter hashKey (.get key)) state
      (.found before) ∧
    (result = true ↔ before.isSome = true) ∧
    ∀ other, (other == key) = false → ∃ found,
      (object capacity V hashKey).Completes state (enter hashKey (.get other)) state
        (.found found) ∧
      (object capacity V hashKey).Completes final (enter hashKey (.get other)) final
        (.found found)

/-- Another key with the hash of `key` is in the map. -/
def Collides (hashKey : K → UInt64) (state : Index capacity → SharedList (Entry K V)) (key : K) :
    Prop :=
  ∃ other value, (other == key) = false ∧ hashKey other = hashKey key ∧
    (object capacity V hashKey).Completes state (enter hashKey (.get other)) state
      (.found (some value))

theorem get_answer (hcapacity : capacity ≠ 0)
    {state : Index capacity → SharedList (Entry K V)} {contents : Contents capacity K V}
    (hshows : Shows state contents) {key : K} {found : Option V} :
    (object capacity V hashKey).Completes state (enter hashKey (.get key)) state (.found found) ↔
      found = lookup hcapacity hashKey contents key := by
  have hget : (object capacity V hashKey).Completes state (enter hashKey (.get key)) state
      (.found (lookup hcapacity hashKey contents key)) := get_completes hcapacity hshows key
  constructor
  · intro hrun
    obtain ⟨-, hsame⟩ := hrun.deterministic hget
    exact Reply.found.inj hsame
  · rintro rfl
    exact hget

theorem insertsOnly_iff [EquivBEq K] (hcapacity : capacity ≠ 0) (hrespects : Respects hashKey)
    {state : Index capacity → SharedList (Entry K V)} (hstate : Orderly hashKey state) (key : K)
    (value : V) : InsertsOnly hashKey state key value ↔ ¬ Collides hashKey state key := by
  obtain ⟨contents, hshows, htidy⟩ := hstate
  obtain ⟨after, hinsert, hafter⟩ := insert_completes hcapacity hshows htidy key value
  constructor
  · intro ⟨final, result, before, hrun, _, _, hothers⟩ ⟨other, held, hne, hhash, hheld⟩
    obtain ⟨rfl, -⟩ := hrun.deterministic hinsert
    obtain ⟨found, hold, hnew⟩ := hothers other hne
    rw [get_answer hcapacity hshows] at hold hheld
    rw [get_answer hcapacity hafter, lookup_inserted_of_eq hrespects htidy hne hhash] at hnew
    rw [← hold, hnew] at hheld
    cases hheld
  · intro hfree
    have hnone : ∀ other, (other == key) = false → hashKey other = hashKey key →
        lookup hcapacity hashKey contents other = none := by
      intro other hne hhash
      rw [Option.eq_none_iff_forall_ne_some]
      intro held hheld
      exact hfree ⟨other, held, hne, hhash, (get_answer hcapacity hshows).mpr hheld.symm⟩
    refine ⟨after, _, _, hinsert, get_completes hcapacity hshows key, ?_, ?_⟩
    · rw [any_hash_iff htidy, Option.isSome_iff_exists]
      constructor
      · intro ⟨entry, hmem, hhash⟩
        cases hkey : entry.key == key with
        | true => exact ⟨entry.value, (lookup_eq_some_iff hrespects htidy).mpr ⟨entry, hmem, hkey, rfl⟩⟩
        | false =>
            -- an entry with the hash but another key would be a collision
            have hheld : lookup hcapacity hashKey contents entry.key = some entry.value := by
              rw [lookup_eq_some_iff hrespects htidy, hhash]
              exact ⟨entry, hmem, BEq.rfl, rfl⟩
            rw [hnone entry.key hkey hhash] at hheld
            cases hheld
      · intro ⟨held, hheld⟩
        obtain ⟨entry, hmem, hkey, -⟩ := (lookup_eq_some_iff hrespects htidy).mp hheld
        exact ⟨entry, hmem, hrespects _ _ hkey⟩
    · intro other hne
      refine ⟨lookup hcapacity hashKey contents other, get_completes hcapacity hshows other, ?_⟩
      rw [get_answer hcapacity hafter]
      by_cases hhash : hashKey other = hashKey key
      · rw [hnone other hne hhash]
        exact (lookup_inserted_of_eq hrespects htidy hne hhash value).symm
      · exact (lookup_inserted_of_ne hrespects htidy hhash value).symm

theorem id_respects : Respects (id : UInt64 → UInt64) := fun _ _ hsame => eq_of_beq hsame

/-- Where a key is its own hash, no two keys collide. -/
theorem not_collides_id {state : Index capacity → SharedList (Entry UInt64 V)} {key : UInt64} :
    ¬ Collides id state key := by
  intro ⟨other, held, hne, hhash, _⟩
  rw [show other = key from hhash, BEq.rfl] at hne
  cases hne

/-- A map that one thread has built, with two keys in one bucket. -/
theorem id_inserted :
    ∃ state : Index 16 → SharedList (Entry UInt64 ℕ), Built id state ∧
      (object 16 ℕ id).Completes state (enter id (.get 1)) state (.found (some 10)) ∧
      (object 16 ℕ id).Completes state (enter id (.get 17)) state (.found (some 20)) := by
  have hcapacity : (16 : UInt64) ≠ 0 := by decide
  have hempty : Tidy id (fun _ => [] : Contents 16 UInt64 ℕ) := .empty
  obtain ⟨first, hfirst, hshows⟩ := insert_completes hcapacity withCapacity_shows hempty 1 10
  have htidy : Tidy id (inserted hcapacity id (fun _ => [] : Contents 16 UInt64 ℕ) 1 10) :=
    inserted_tidy hempty 1 10
  obtain ⟨second, hsecond, hshows'⟩ := insert_completes hcapacity hshows htidy 17 20
  have hbuilt : Built id second :=
    ⟨[.insert 1 10, .insert 17 20], _, by simp [Call.Edits], .cons hfirst (.cons hsecond .nil)⟩
  exact ⟨second, hbuilt, (get_answer hcapacity hshows').mpr rfl,
    (get_answer hcapacity hshows').mpr rfl⟩

/-- **The frame of `insert`.** In a map as it is built, `insert` touches its own key only exactly if
no other key with the same hash is in the map. -/
theorem insert_own_key_iff [EquivBEq K] (hcapacity : capacity ≠ 0) (hrespects : Respects hashKey)
    {state : Index capacity → SharedList (Entry K V)} (hbuilt : Built hashKey state) (key : K)
    (value : V) : InsertsOnly hashKey state key value ↔ ¬ Collides hashKey state key :=
  insertsOnly_iff hcapacity hrespects (hbuilt.orderly hcapacity) key value

/-- One of two keys in a bucket is inserted again, and a third key is inserted. -/
theorem insert_own_key_iff_stored :
    ∃ state : Index 16 → SharedList (Entry UInt64 ℕ), Built id state ∧
      (object 16 ℕ id).Completes state (enter id (.get 1)) state (.found (some 10)) ∧
      (object 16 ℕ id).Completes state (enter id (.get 17)) state (.found (some 20)) ∧
      InsertsOnly id state 17 30 ∧ InsertsOnly id state 33 40 := by
  have hcapacity : (16 : UInt64) ≠ 0 := by decide
  obtain ⟨state, hbuilt, hfirst, hsecond⟩ := id_inserted
  exact ⟨state, hbuilt, hfirst, hsecond,
    (insert_own_key_iff hcapacity id_respects hbuilt 17 30).mpr not_collides_id,
    (insert_own_key_iff hcapacity id_respects hbuilt 33 40).mpr not_collides_id⟩

/-- The hash of a key whose `Hash` implementation feeds nothing to the hasher. -/
def emptyHash : UInt32 → UInt64 := fun _ => 15130871412783076140

theorem emptyHash_respects : Respects emptyHash := fun _ _ _ => rfl

/-- The hash of `()`, which feeds nothing to the hasher either. -/
def unitHash : Unit → UInt64 := fun _ => 15130871412783076140

theorem unitHash_respects : Respects unitHash := fun _ _ _ => rfl

theorem emptyHash_inserted :
    ∃ state : Index 16 → SharedList (Entry UInt32 ℕ),
      (object 16 ℕ emptyHash).Executes (withCapacity 16) [.insert 1 10] [.bool false] state ∧
      Orderly emptyHash state ∧
      (object 16 ℕ emptyHash).Completes state (enter emptyHash (.get 1)) state
        (.found (some 10)) := by
  have hcapacity : (16 : UInt64) ≠ 0 := by decide
  have htidy : Tidy emptyHash (fun _ => [] : Contents 16 UInt32 ℕ) := .empty
  obtain ⟨state, hinsert, hshows⟩ := insert_completes hcapacity withCapacity_shows htidy 1 10
  have htidy' : Tidy emptyHash (inserted hcapacity emptyHash (fun _ => []) 1 10) :=
    inserted_tidy htidy 1 10
  refine ⟨state, .cons hinsert .nil, ⟨_, hshows, htidy'⟩, (get_answer hcapacity hshows).mpr ?_⟩
  symm
  rw [lookup_eq_some_iff emptyHash_respects htidy']
  refine ⟨{ hash := emptyHash 1, key := 1, value := 10 }, ?_, rfl, rfl⟩
  rw [inserted, Function.update_self, mem_put]
  exact .inl rfl

/-- The second key evicts the first one. -/
theorem insert_own_key_fails :
    ∃ state : Index 16 → SharedList (Entry UInt32 ℕ),
      (object 16 ℕ emptyHash).Executes (withCapacity 16) [.insert 1 10] [.bool false] state ∧
      ¬ InsertsOnly emptyHash state 2 20 := by
  obtain ⟨state, hrun, horderly, hget⟩ := emptyHash_inserted
  refine ⟨state, hrun, ?_⟩
  rw [insertsOnly_iff (by decide) emptyHash_respects horderly, not_not]
  exact ⟨1, 10, rfl, rfl, hget⟩

end Frame

end Mutual.SharedMap
