import Mutual.HashTable
import Mutual.Proof.Computing

/-!
# A map used by one thread, where keys collide

It is a table with one place for each hash, whatever keys are used.
-/

namespace Mutual.SharedMap

open Concurrency

variable {K V : Type} {capacity : UInt64} {hashKey : K → UInt64} {hcapacity : capacity ≠ 0}
  {contents : Contents capacity K V} {key : K} {value : V} {hash : UInt64}

/-- What the buckets hold for each hash. -/
def tableOf (hcapacity : capacity ≠ 0) (contents : Contents capacity K V) : HashTable K V :=
  fun hash => ((contents (indexOf hcapacity hash)).find? fun entry => entry.hash == hash).map
    fun entry => (entry.key, entry.value)

theorem tableOf_eq_some_iff (htidy : Tidy hashKey contents) {held : K × V} :
    tableOf hcapacity contents hash = some held ↔
      { hash := hash, key := held.1, value := held.2 } ∈ contents (indexOf hcapacity hash) := by
  unfold tableOf
  rw [Option.map_eq_some_iff]
  constructor
  · rintro ⟨entry, hfind, rfl⟩
    have hhash : entry.hash = hash := by
      simpa using List.find?_some hfind
    rw [← hhash] at hfind ⊢
    exact List.mem_of_find?_eq_some hfind
  · intro hmem
    exact ⟨_, (htidy _).ascending.find_hash hmem rfl, rfl⟩

theorem tableOf_eq_none_iff :
    tableOf hcapacity contents hash = none ↔
      ∀ entry ∈ contents (indexOf hcapacity hash), entry.hash ≠ hash := by
  simp [tableOf]

theorem any_hash_eq :
    ((contents (indexOf hcapacity hash)).any fun entry => entry.hash == hash) =
      (tableOf hcapacity contents hash).isSome := by
  rw [tableOf, Option.isSome_map, List.isSome_find?]

theorem find_hash_eq :
    ((contents (indexOf hcapacity hash)).find? fun entry => entry.hash == hash).map Entry.value =
      (tableOf hcapacity contents hash).map Prod.snd := by
  rw [tableOf, Option.map_map]
  rfl

theorem tableOf_inserted (htidy : Tidy hashKey contents) (key : K) (value : V) :
    tableOf hcapacity (inserted hcapacity hashKey contents key value) =
      Function.update (tableOf hcapacity contents) (hashKey key) (some (key, value)) := by
  funext hash
  ext held
  rw [tableOf_eq_some_iff (inserted_tidy htidy key value)]
  by_cases hhash : hash = hashKey key
  · subst hhash
    rw [Function.update_self, inserted, Function.update_self, mem_put]
    simp [Prod.ext_iff, eq_comm]
  · rw [Function.update_of_ne hhash, tableOf_eq_some_iff htidy, inserted]
    by_cases hbucket : indexOf hcapacity hash = indexOf hcapacity (hashKey key)
    · rw [hbucket, Function.update_self, mem_put]
      simp [hhash]
    · rw [Function.update_of_ne hbucket]

theorem tableOf_removed (htidy : Tidy hashKey contents) (key : K) :
    tableOf hcapacity (removed hcapacity hashKey contents key) =
      Function.update (tableOf hcapacity contents) (hashKey key) none := by
  funext hash
  ext held
  rw [tableOf_eq_some_iff (removed_tidy htidy key), mem_removed]
  by_cases hhash : hash = hashKey key
  · subst hhash
    simp
  · rw [Function.update_of_ne hhash, tableOf_eq_some_iff htidy]
    simp [hhash]

/-- An entry is in the bucket of its hash. -/
theorem Tidy.bucket_eq (htidy : Tidy hashKey contents) (hcapacity : capacity ≠ 0)
    {bucket : Index capacity} {entry : Entry K V} (hmem : entry ∈ contents bucket) :
    indexOf hcapacity (hashKey entry.key) = bucket := by
  apply Fin.ext
  calc (hashKey entry.key % capacity).toNat
      _ = (entry.hash % capacity).toNat := by rw [(htidy bucket).hash entry hmem]
      _ = bucket := (htidy bucket).index entry hmem

/-- The pass yields what the table holds. -/
theorem Tidy.lists_table (htidy : Tidy hashKey contents) :
    (tableOf hcapacity contents).Lists capacity hashKey
      (((List.finRange capacity.toNat).flatMap contents).map fun entry =>
        (entry.key, entry.value)) where
  ordered := by
    rw [List.pairwise_map, List.pairwise_flatMap]
    constructor
    · intro bucket _
      refine (htidy bucket).ascending.imp_of_mem ?_
      intro left right hleft hright hlt
      rw [(htidy bucket).hash left hleft, (htidy bucket).hash right hright] at hlt
      have hbucket : indexOf hcapacity (hashKey left.key) = indexOf hcapacity (hashKey right.key) :=
        (htidy.bucket_eq hcapacity hleft).trans (htidy.bucket_eq hcapacity hright).symm
      exact .inr ⟨UInt64.toNat_inj.mp (Fin.mk.inj hbucket), hlt⟩
    · refine (List.pairwise_lt_finRange _).imp ?_
      intro bucket bucket' hlt left hleft right hright
      rw [← htidy.bucket_eq hcapacity hleft, ← htidy.bucket_eq hcapacity hright] at hlt
      exact .inl (UInt64.lt_iff_toNat_lt.mpr hlt)
  mem_iff entry := by
    rw [tableOf_eq_some_iff htidy]
    simp only [List.mem_map, List.mem_flatMap, List.mem_finRange, true_and]
    constructor
    · rintro ⟨found, ⟨bucket, hmem⟩, rfl⟩
      rw [htidy.bucket_eq hcapacity hmem, ← (htidy bucket).hash found hmem]
      exact hmem
    · intro hmem
      exact ⟨_, ⟨_, hmem⟩, rfl⟩

/-- Where the hash is taken, the push of `compute_if_absent` does nothing. -/
theorem insertOrdered_taken (htidy : Tidy hashKey contents) {held : K × V} {entry : Entry K V}
    (hheld : tableOf hcapacity contents entry.hash = some held) :
    insertOrdered orderFn true entry (contents (indexOf hcapacity entry.hash)) =
      contents (indexOf hcapacity entry.hash) := by
  rw [tableOf_eq_some_iff htidy] at hheld
  refine insertOrdered_refused orderFn_totalPreorder (htidy _).ascending.sorted ⟨_, hheld, ?_⟩
  rw [orderFn_eq_eq]

/-- Where the hash is not taken, it does what `insert` does. -/
theorem insertOrdered_free {entry : Entry K V}
    (hfree : tableOf hcapacity contents entry.hash = none) :
    insertOrdered orderFn true entry (contents (indexOf hcapacity entry.hash)) =
      put entry (contents (indexOf hcapacity entry.hash)) := by
  unfold put
  congr 1
  symm
  rw [List.filter_eq_self]
  intro other hmem
  rw [Bool.not_eq_true', beq_eq_false_iff_ne]
  exact tableOf_eq_none_iff.mp hfree other hmem

variable [BEq K]

/-- The search by key looks at the place of the hash and at the key there. -/
theorem lookup_eq_filter (hrespects : Respects hashKey) (htidy : Tidy hashKey contents) :
    lookup hcapacity hashKey contents key =
      ((tableOf hcapacity contents (hashKey key)).filter fun held => held.1 == key).map
        Prod.snd := by
  ext found
  rw [lookup_eq_some_iff hrespects htidy]
  simp only [Option.map_eq_some_iff, Option.filter_eq_some_iff, tableOf_eq_some_iff htidy]
  constructor
  · rintro ⟨entry, hmem, hkey, hvalue⟩
    have hhash : entry.hash = hashKey key := by
      rw [(htidy _).hash entry hmem, hrespects _ _ hkey]
    refine ⟨(entry.key, entry.value), ⟨?_, hkey⟩, hvalue⟩
    rw [← hhash] at hmem ⊢
    exact hmem
  · rintro ⟨held, ⟨hmem, hkey⟩, hvalue⟩
    exact ⟨_, hmem, hkey, hvalue⟩

/-- The buckets are in order and hold what the table holds. -/
structure TableWorld (hcapacity : capacity ≠ 0) (hashKey : K → UInt64)
    (state : Index capacity → SharedList (Entry K V)) (contents : Contents capacity K V)
    (table : HashTable K V) : Prop where
  shows : Shows state contents
  tidy : Tidy hashKey contents
  table : tableOf hcapacity contents = table

namespace TableWorld

variable {state final : Index capacity → SharedList (Entry K V)} {table : HashTable K V}

omit [BEq K] in
theorem inserted (hw : TableWorld hcapacity hashKey state contents table)
    (hshows : Shows final (inserted hcapacity hashKey contents key value)) :
    TableWorld hcapacity hashKey final (inserted hcapacity hashKey contents key value)
      (Function.update table (hashKey key) (some (key, value))) where
  shows := hshows
  tidy := inserted_tidy hw.tidy key value
  table := by rw [tableOf_inserted hw.tidy, hw.table]

omit [BEq K] in
theorem removed (hw : TableWorld hcapacity hashKey state contents table)
    (hshows : Shows final (removed hcapacity hashKey contents key)) :
    TableWorld hcapacity hashKey final (removed hcapacity hashKey contents key)
      (Function.update table (hashKey key) none) where
  shows := hshows
  tidy := removed_tidy hw.tidy key
  table := by rw [tableOf_removed hw.tidy, hw.table]

/-- `compute_if_absent`, by what is at the place of the hash. -/
theorem computeIfAbsent (hw : TableWorld hcapacity hashKey state contents table)
    (hrespects : Respects hashKey) (key : K) (value : V) :
    ∃ answer final contents' table', Performs hashKey state (.computeIfAbsent key value) answer
      final ∧ HashTable.Step capacity hashKey table (.computeIfAbsent key value) answer table' ∧
      TableWorld hcapacity hashKey final contents' table' := by
  have hcalls : CallsClosure hashKey state key value ↔ _ :=
    callsClosure_iff hcapacity hw.shows key value
  have hlookup : SharedMap.lookup hcapacity hashKey contents key = _ :=
    lookup_eq_filter hrespects hw.tidy
  rw [hlookup] at hcalls
  rw [hw.table] at hlookup hcalls
  cases hplace : table (hashKey key) with
  | none =>
      rw [hplace] at hlookup hcalls
      obtain ⟨final, held, hheld, hhash, hrun, hfinal⟩ :=
        computeIfAbsent_absent hcapacity hw.shows key hlookup value
      rw [insertOrdered_free (hw.table ▸ hplace)] at hheld hfinal
      rcases mem_put.mp hheld with rfl | ⟨-, hne⟩
      · exact ⟨_, final, _, _, .computeIfAbsent hrun (by simp [hcalls]), .absent hplace,
          hw.inserted hfinal⟩
      · exact absurd hhash hne
  | some held =>
      rw [hplace] at hlookup hcalls
      cases hown : held.1 == key with
      | true =>
          rw [Option.filter_some, if_pos hown] at hlookup hcalls
          have hrun := computeIfAbsent_present hcapacity hw.shows key hlookup value
          exact ⟨_, state, contents, table, .computeIfAbsent hrun (by simp [hcalls]),
            .present hplace hown, hw⟩
      | false =>
          rw [Option.filter_some, if_neg (by simp [hown])] at hlookup hcalls
          obtain ⟨final, found, hfound, hhash, hrun, hfinal⟩ :=
            computeIfAbsent_absent hcapacity hw.shows key hlookup value
          have htaken : tableOf hcapacity contents (hashKey key) = some held := hw.table ▸ hplace
          rw [insertOrdered_taken hw.tidy htaken] at hfound hfinal
          rw [Function.update_eq_self] at hfinal
          -- the second search finds the one entry with the hash
          rw [tableOf_eq_some_iff hw.tidy] at htaken
          obtain rfl := (hw.tidy _).ascending.eq_of_hash htaken hfound hhash.symm
          exact ⟨_, final, contents, table, .computeIfAbsent hrun (by simp [hcalls]),
            .taken hplace hown, hfinal, hw.tidy, hw.table⟩

/-- **One operation.** -/
theorem step (hw : TableWorld hcapacity hashKey state contents table)
    (hrespects : Respects hashKey) (op : MapOp K V) :
    ∃ answer final contents' table', Performs hashKey state op answer final ∧
      HashTable.Step capacity hashKey table op answer table' ∧
      TableWorld hcapacity hashKey final contents' table' := by
  cases op with
  | insert key value =>
      obtain ⟨final, hrun, hfinal⟩ := insert_completes hcapacity hw.shows hw.tidy key value
      rw [any_hash_eq, hw.table] at hrun
      exact ⟨_, final, _, _, .insert hrun, .insert, hw.inserted hfinal⟩
  | get key =>
      have hrun : (object capacity V hashKey).Completes state (enter hashKey (.get key)) state
          (.found _) := get_completes hcapacity hw.shows key
      rw [lookup_eq_filter hrespects hw.tidy, hw.table] at hrun
      exact ⟨_, state, contents, table, .get hrun, .get, hw⟩
  | contains key =>
      have hrun : (object capacity V hashKey).Completes state (enter hashKey (.contains key)) state
          (.bool _) := contains_completes hcapacity hw.shows key
      rw [any_hash_eq, hw.table] at hrun
      exact ⟨_, state, contents, table, .contains hrun, .contains, hw⟩
  | remove key =>
      obtain ⟨final, hrun, hfinal⟩ := remove_completes hcapacity hw.shows hw.tidy key
      rw [find_hash_eq, hw.table] at hrun
      exact ⟨_, final, _, _, .remove hrun, .remove, hw.removed hfinal⟩
  | computeIfAbsent key value => exact hw.computeIfAbsent hrespects key value
  | iter =>
      have hpass := pass_buckets hw.shows (List.finRange capacity.toNat)
      have hlists : table.Lists capacity hashKey _ := hw.table ▸ hw.tidy.lists_table
      exact ⟨_, state, contents, table, .iter hpass, .iter hlists, hw⟩

theorem run (hw : TableWorld hcapacity hashKey state contents table)
    (hrespects : Respects hashKey) (ops : List (MapOp K V)) :
    ∃ answers final table', Runs hashKey state ops answers final ∧
      HashTable.Run capacity hashKey table ops answers table' := by
  induction ops generalizing state contents table with
  | nil => exact ⟨[], state, table, .nil, .nil⟩
  | cons op ops ih =>
      obtain ⟨answer, next, contents', table', hperforms, hstep, hnext⟩ := hw.step hrespects op
      obtain ⟨answers, final, table'', hruns, hrun⟩ := ih hnext
      exact ⟨_, final, table'', .cons hperforms hruns, .cons hstep hrun⟩

end TableWorld

/-- **The map is a table by hash** for a thread on its own, whatever its keys are: whatever it does
with a new map comes to an end, and every way it does has the answers of the table. -/
theorem hash_table_refines (hcapacity : capacity ≠ 0) (hrespects : Respects hashKey)
    (ops : List (MapOp K V)) :
    (∃ answers final, Runs hashKey (withCapacity capacity) ops answers final) ∧
      ∀ answers final, Runs hashKey (withCapacity capacity) ops answers final →
        ∃ table, HashTable.Run capacity hashKey HashTable.empty ops answers table := by
  have hstart : TableWorld hcapacity hashKey
      (withCapacity capacity : Index capacity → SharedList (Entry K V)) (fun _ => [])
      HashTable.empty := ⟨withCapacity_shows, .empty, rfl⟩
  obtain ⟨answers, final, table, hruns, hrun⟩ := hstart.run hrespects ops
  refine ⟨⟨answers, final, hruns⟩, ?_⟩
  intro answers' final' hruns'
  obtain ⟨rfl, rfl⟩ := hruns'.deterministic hruns
  exact ⟨table, hrun⟩

/-- All keys have one hash. -/
theorem hash_table_refines_one_hash :
    ∃ answers final table, Runs emptyHash (withCapacity (16 : UInt64))
        [.insert 1 10, .computeIfAbsent 2 20, .get 2, .insert 2 30, .iter, .remove 1] answers
        final ∧
      HashTable.Run (V := ℕ) 16 emptyHash HashTable.empty
        [.insert 1 10, .computeIfAbsent 2 20, .get 2, .insert 2 30, .iter, .remove 1] answers
        table := by
  obtain ⟨⟨answers, final, hruns⟩, hrun⟩ := hash_table_refines (show (16 : UInt64) ≠ 0 by decide)
    emptyHash_respects
    [.insert 1 10, .computeIfAbsent 2 20, .get 2, .insert 2 30, .iter, .remove 1]
  obtain ⟨table, hrun⟩ := hrun answers final hruns
  exact ⟨answers, final, table, hruns, hrun⟩

end Mutual.SharedMap
