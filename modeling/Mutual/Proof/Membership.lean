import Mutual.Proof.Lookups
import Mutual.SharedSet

/-!
# SharedSet as a set

The set answers by hash: an element is taken to be in the set if the last insertion or removal of an
element with its hash is an insertion.
-/

namespace Mutual.SharedMap

variable {K V : Type} {capacity : UInt64} {hashKey : K → UInt64} {contents : Contents capacity K V}
  {hcapacity : capacity ≠ 0}

/-! ### The hashes that are in a map -/

def HoldsHash (hcapacity : capacity ≠ 0) (contents : Contents capacity K V) (hash : UInt64) : Bool :=
  (contents (indexOf hcapacity hash)).any fun entry => entry.hash == hash

theorem holdsHash_iff {hash : UInt64} :
    HoldsHash hcapacity contents hash = true ↔
      ∃ entry ∈ contents (indexOf hcapacity hash), entry.hash = hash := by
  simp [HoldsHash]

theorem holdsHash_inserted (key : K) (value : V) (hash : UInt64) :
    HoldsHash hcapacity (inserted hcapacity hashKey contents key value) hash =
      (hashKey key == hash || HoldsHash hcapacity contents hash) := by
  rw [Bool.eq_iff_iff, Bool.or_eq_true, beq_iff_eq, holdsHash_iff, holdsHash_iff]
  by_cases hsame : hashKey key = hash
  · subst hsame
    refine iff_of_true ⟨{ hash := hashKey key, key := key, value := value }, ?_, rfl⟩ (.inl rfl)
    rw [inserted, Function.update_self, mem_put]
    exact .inl rfl
  · rw [or_iff_right hsame]
    refine exists_congr fun entry => and_congr_left fun hentry => ?_
    by_cases hbucket : indexOf hcapacity hash = indexOf hcapacity (hashKey key)
    · rw [hbucket, inserted, Function.update_self, mem_put]
      have hne : entry.hash ≠ hashKey key := hentry ▸ Ne.symm hsame
      have hnew : entry ≠ { hash := hashKey key, key := key, value := value } := by
        rintro rfl
        exact hne rfl
      rw [or_iff_right hnew]
      exact and_iff_left hne
    · rw [inserted, Function.update_of_ne hbucket]

theorem holdsHash_removed (key : K) (hash : UInt64) :
    HoldsHash hcapacity (removed hcapacity hashKey contents key) hash =
      (!hashKey key == hash && HoldsHash hcapacity contents hash) := by
  rw [Bool.eq_iff_iff, Bool.and_eq_true, Bool.not_eq_true', beq_eq_false_iff_ne, holdsHash_iff,
    holdsHash_iff]
  constructor
  · rintro ⟨entry, hmem, rfl⟩
    obtain ⟨hmem, hne⟩ := mem_removed.mp hmem
    refine ⟨?_, entry, hmem, rfl⟩
    intro hsame
    rw [hsame] at hne
    exact hne rfl rfl
  · rintro ⟨hne, entry, hmem, rfl⟩
    exact ⟨entry, mem_removed.mpr ⟨hmem, fun _ => Ne.symm hne⟩, rfl⟩

end Mutual.SharedMap

namespace Mutual.SharedSet

open Concurrency SharedMap

variable {T : Type} {capacity : UInt64} {hashKey : T → UInt64}

/-! ### What a set is -/

/-- Whether an element that meets `same` is in the set after a call, if it was `inside` before. -/
def Call.edit (same : T → Bool) (inside : Bool) : Call T → Bool
  | insert data => same data || inside
  | remove data => !same data && inside
  | contains _ => inside

/-- The last insertion or removal of an element that meets `same` is an insertion. -/
def LastInserted (same : T → Bool) (calls : List (Call T)) : Bool :=
  calls.foldl (Call.edit same) false

theorem lastInserted_concat (same : T → Bool) (calls : List (Call T)) (call : Call T) :
    LastInserted same (calls ++ [call]) = call.edit same (LastInserted same calls) := by
  rw [LastInserted, List.foldl_append]
  rfl

section Spec

variable [BEq T]

/-- The result of a set after the calls `before`. -/
def Call.Right (before : List (Call T)) : Call T → Reply → Prop
  | insert _, result => result = .unit
  | contains data, result | remove data, result =>
      result = .bool (LastInserted (fun other => other == data) before)

def Right : List (Call T) → List (Call T) → List Reply → Prop
  | _, [], [] => True
  | before, call :: calls, result :: results =>
      call.Right before result ∧ Right (before ++ [call]) calls results
  | _, _, _ => False

/-- If the last insertion or removal of an element with the hash of the element asked for is an
insertion, so is that of an element equal to it, and the other way round. -/
def Call.Clear (hashKey : T → UInt64) (before : List (Call T)) : Call T → Prop
  | insert _ => True
  | contains data | remove data =>
      LastInserted (fun other => hashKey other == hashKey data) before =
        LastInserted (fun other => other == data) before

def Clear (hashKey : T → UInt64) : List (Call T) → List (Call T) → Prop
  | _, [] => True
  | before, call :: calls => call.Clear hashKey before ∧ Clear hashKey (before ++ [call]) calls

end Spec

/-! ### What the code does -/

/-- The memory after the calls `before`. -/
structure SetAfter (hcapacity : capacity ≠ 0) (hashKey : T → UInt64)
    (state : Index capacity → SharedList (Entry T Unit)) (contents : Contents capacity T Unit)
    (before : List (Call T)) : Prop where
  shows : Shows state contents
  tidy : Tidy hashKey contents
  hashes : ∀ hash, HoldsHash hcapacity contents hash =
    LastInserted (fun other => hashKey other == hash) before

variable [BEq T] {hcapacity : capacity ≠ 0}
  {state : Index capacity → SharedList (Entry T Unit)} {contents : Contents capacity T Unit}
  {before : List (Call T)}

/-- **One call.** It comes to an end, and its result is right exactly if the hashes tell. -/
theorem SetAfter.step (hstate : SetAfter hcapacity hashKey state contents before) (call : Call T) :
    ∃ next reply contents', (object capacity Unit hashKey).Completes state
        (enter hashKey call.inner) next reply ∧
      SetAfter hcapacity hashKey next contents' (before ++ [call]) ∧
      (call.Right before (call.result reply) ↔ call.Clear hashKey before) := by
  obtain ⟨hshows, htidy, hhashes⟩ := hstate
  have hright (data : T) :
      Reply.bool (HoldsHash hcapacity contents (hashKey data)) =
        .bool (LastInserted (fun other => other == data) before) ↔
      LastInserted (fun other => hashKey other == hashKey data) before =
        LastInserted (fun other => other == data) before := by
    rw [hhashes, Reply.bool.injEq]
  cases call with
  | insert data =>
      obtain ⟨next, hrun, hnext⟩ := insert_completes hcapacity hshows htidy data ()
      refine ⟨next, _, _, hrun, ⟨hnext, inserted_tidy htidy data (), ?_⟩, iff_of_true rfl trivial⟩
      intro hash
      rw [lastInserted_concat, ← hhashes hash]
      exact holdsHash_inserted data () hash
  | contains data =>
      refine ⟨state, _, _, contains_completes hcapacity hshows data, ⟨hshows, htidy, ?_⟩, hright data⟩
      intro hash
      rw [lastInserted_concat]
      exact hhashes hash
  | remove data =>
      obtain ⟨next, hrun, hnext⟩ := remove_completes hcapacity hshows htidy data
      have hresult : (Call.remove data).result (.found
          (((contents (indexOf hcapacity (hashKey data))).find? fun entry =>
            entry.hash == hashKey data).map Entry.value)) =
          .bool (HoldsHash hcapacity contents (hashKey data)) := by
        simp only [Call.result, Option.isSome_map, List.isSome_find?, HoldsHash]
      refine ⟨next, _, _, hrun, ⟨hnext, removed_tidy htidy data, ?_⟩, ?_⟩
      · intro hash
        rw [lastInserted_concat, ← hhashes hash]
        exact holdsHash_removed data hash
      · rw [hresult]
        exact hright data

theorem SetAfter.run (hstate : SetAfter hcapacity hashKey state contents before)
    (calls : List (Call T)) :
    ∃ results final, Executes hashKey state calls results final ∧
      (Right before calls results ↔ Clear hashKey before calls) := by
  induction calls generalizing state contents before with
  | nil => exact ⟨[], state, .nil, Iff.rfl⟩
  | cons call calls ih =>
      obtain ⟨next, reply, contents', hcall, hnext, hfirst⟩ := hstate.step call
      obtain ⟨results, final, hrun, hrest⟩ := ih hnext
      exact ⟨_, final, .cons hcall hrun, and_congr hfirst hrest⟩

theorem Executes.deterministic {left right : Index capacity → SharedList (Entry T Unit)}
    {calls : List (Call T)} {resultsL resultsR : List Reply}
    (hleft : Executes hashKey state calls resultsL left)
    (hright : Executes hashKey state calls resultsR right) : left = right ∧ resultsL = resultsR := by
  induction hleft generalizing resultsR with
  | nil =>
      cases hright
      exact ⟨rfl, rfl⟩
  | cons hcall _ ih =>
      cases hright with
      | cons hcall' hrest' =>
          obtain ⟨rfl, rfl⟩ := hcall.deterministic hcall'
          obtain ⟨rfl, rfl⟩ := ih hrest'
          exact ⟨rfl, rfl⟩

omit [BEq T] in
theorem SetAfter.start (hcapacity : capacity ≠ 0) :
    SetAfter hcapacity hashKey (withCapacity capacity : Index capacity → SharedList (Entry T Unit))
      (fun _ => []) [] := ⟨withCapacity_shows, .empty, fun _ => rfl⟩

theorem results_right_iff (hcapacity : capacity ≠ 0) {calls : List (Call T)} {results : List Reply}
    {final : Index capacity → SharedList (Entry T Unit)}
    (hrun : Executes hashKey (withCapacity capacity) calls results final) :
    Right [] calls results ↔ Clear hashKey [] calls := by
  obtain ⟨results', final', hrun', hright⟩ := (SetAfter.start hcapacity).run calls
  obtain ⟨-, rfl⟩ := hrun.deterministic hrun'
  exact hright

/-- **The set under one thread.** Every sequence of calls comes to an end, and all its results are
those of a set exactly if for each element asked for the calls with its hash end as those of the
element itself do. -/
theorem set_answers_iff (hcapacity : capacity ≠ 0) (hashKey : T → UInt64) (calls : List (Call T)) :
    (∃ results final, Executes hashKey (withCapacity capacity) calls results final) ∧
      ∀ results final, Executes hashKey (withCapacity capacity) calls results final →
        (Right [] calls results ↔ Clear hashKey [] calls) := by
  obtain ⟨results, final, hrun, -⟩ := (SetAfter.start hcapacity).run calls
  exact ⟨⟨results, final, hrun⟩, fun _ _ => results_right_iff hcapacity⟩

/-- Two elements that share a bucket, one of which is removed again. -/
theorem set_answers_iff_clear :
    ∃ results, ∃ final : Index 16 → SharedList (Entry UInt64 Unit),
      Executes id (withCapacity 16)
        [.insert 1, .insert 17, .remove 1, .contains 1, .contains 17] results final ∧
      Right [] [.insert (1 : UInt64), .insert 17, .remove 1, .contains 1, .contains 17] results := by
  obtain ⟨⟨results, final, hrun⟩, hright⟩ := set_answers_iff (show (16 : UInt64) ≠ 0 by decide) id
    [.insert (1 : UInt64), .insert 17, .remove 1, .contains 1, .contains 17]
  refine ⟨results, final, hrun, (hright results final hrun).mpr ?_⟩
  exact ⟨trivial, trivial, rfl, rfl, rfl, trivial⟩

/-- The element 2 has the hash of 1. -/
theorem set_answers_fails :
    ∃ results, ∃ final : Index 16 → SharedList (Entry UInt32 Unit),
      Executes emptyHash (withCapacity 16) [.insert 1, .contains 2] results final ∧
        ¬ Right [] [.insert (1 : UInt32), .contains 2] results := by
  have hstart : SetAfter (by decide) emptyHash
      (withCapacity 16 : Index 16 → SharedList (Entry UInt32 Unit)) (fun _ => []) [] := .start _
  obtain ⟨results, final, hrun, hright⟩ := hstart.run [.insert 1, .contains 2]
  refine ⟨results, final, hrun, fun hresults => ?_⟩
  obtain ⟨-, hclear, -⟩ := hright.mp hresults
  cases hclear

end Mutual.SharedSet
