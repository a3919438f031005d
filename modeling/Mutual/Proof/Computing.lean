import Mutual.Proof.MapRefinement
import Mutual.Proof.SortedInsertion

/-!
# Whose value compute_if_absent returns

The first search compares keys, the push refuses equal hashes, the second search compares hashes. If
the bucket holds another key with the same hash, the first search does not find it, the push does
nothing, and the second search finds it.
-/

namespace Mutual.SharedMap

open Concurrency

variable {K V : Type} {capacity : UInt64} {hashKey : K → UInt64}

theorem orderFn_totalPreorder : SharedList.TotalPreorder (@orderFn K V) where
  swap a b := by
    have hswap : compare a.hash b.hash = (compare b.hash a.hash).swap := Std.OrientedCmp.eq_swap
    exact hswap
  trans a b c hab hbc := by
    rw [ne_eq, orderFn_eq_lt, UInt64.not_lt] at hab hbc ⊢
    exact UInt64.le_trans hab hbc

theorem Ascending.sorted {entries : List (Entry K V)} (hentries : Ascending entries) :
    Sorted orderFn entries := by
  refine hentries.imp fun hlt => ?_
  rw [ne_eq, orderFn_eq_lt, UInt64.not_lt]
  exact UInt64.le_of_lt hlt

variable [BEq K]

/-- `compute_if_absent` returns the value of its key if there is one. Otherwise it runs the closure
once, returns what the closure returns, and stores it for its key and no other. -/
def ComputesOwn (hashKey : K → UInt64) (state : Index capacity → SharedList (Entry K V)) (key : K)
    (value : V) : Prop :=
  ∃ found, (object capacity V hashKey).Completes state (enter hashKey (.get key)) state
      (.found found) ∧
    match found with
    | some held => (object capacity V hashKey).Traces RunsClosure
        (state, enter hashKey (.computeIfAbsent key value)) [] (state, reply (.value held))
    | none => ∃ final, (object capacity V hashKey).Traces RunsClosure
          (state, enter hashKey (.computeIfAbsent key value)) [()] (final, reply (.value value)) ∧
        (object capacity V hashKey).Completes final (enter hashKey (.get key)) final
          (.found (some value)) ∧
        ∀ other, (other == key) = false → ∃ held,
          (object capacity V hashKey).Completes state (enter hashKey (.get other)) state
            (.found held) ∧
          (object capacity V hashKey).Completes final (enter hashKey (.get other)) final
            (.found held)

section Computes

variable {state : Index capacity → SharedList (Entry K V)} {contents : Contents capacity K V}
  {key : K} {value : V}

/-- A key that collides with another one is absent, and stays so. -/
theorem computeIfAbsent_collides [EquivBEq K] (hcapacity : capacity ≠ 0)
    (hrespects : Respects hashKey) (hshows : Shows state contents) (htidy : Tidy hashKey contents)
    (hcollides : Collides hashKey state key) (value : V) :
    lookup hcapacity hashKey contents key = none ∧ ∃ final result,
      (object capacity V hashKey).Completes state (enter hashKey (.computeIfAbsent key value)) final
        result ∧
      (object capacity V hashKey).Completes final (enter hashKey (.get key)) final
        (.found none) := by
  obtain ⟨other, held, hne, hhash, hheld⟩ := hcollides
  rw [get_answer hcapacity hshows, eq_comm, lookup_eq_some_iff hrespects htidy, hhash] at hheld
  obtain ⟨entry, hmem, hkey, -⟩ := hheld
  have hentry : entry.hash = hashKey key := by
    rw [(htidy _).hash entry hmem, hrespects _ _ hkey, hhash]
  have habsent : lookup hcapacity hashKey contents key = none := by
    rw [Option.eq_none_iff_forall_ne_some]
    intro own hown
    obtain ⟨entry', hmem', hkey', -⟩ := (lookup_eq_some_iff hrespects htidy).mp hown
    have hentry' : entry'.hash = hashKey key := by
      rw [(htidy _).hash entry' hmem', hrespects _ _ hkey']
    obtain rfl := (htidy _).ascending.eq_of_hash hmem hmem' (hentry.trans hentry'.symm)
    rw [BEq.trans (BEq.symm hkey) hkey'] at hne
    cases hne
  obtain ⟨final, _, -, -, hrun, hfinal⟩ :=
    computeIfAbsent_absent hcapacity hshows key habsent value
  have hrefused : insertOrdered orderFn true { hash := hashKey key, key := key, value := value }
      (contents (indexOf hcapacity (hashKey key))) =
        contents (indexOf hcapacity (hashKey key)) := by
    refine insertOrdered_refused orderFn_totalPreorder (htidy _).ascending.sorted ⟨entry, hmem, ?_⟩
    rw [orderFn_eq_eq, hentry]
  rw [hrefused, Function.update_eq_self] at hfinal
  exact ⟨habsent, final, _, hrun, (get_answer hcapacity hfinal).mpr habsent.symm⟩

theorem computesOwn_iff [EquivBEq K] (hcapacity : capacity ≠ 0) (hrespects : Respects hashKey)
    (hstate : Orderly hashKey state) (key : K) (value : V) :
    ComputesOwn hashKey state key value ↔ ¬ Collides hashKey state key := by
  obtain ⟨contents, hshows, htidy⟩ := hstate
  constructor
  · intro ⟨found, hget, hcomputes⟩ hcollides
    obtain ⟨habsent, final, result, hrun, hnone⟩ :=
      computeIfAbsent_collides hcapacity hrespects hshows htidy hcollides value
    rw [get_answer hcapacity hshows, habsent] at hget
    subst hget
    obtain ⟨final', htrace, hown, -⟩ := hcomputes
    obtain ⟨rfl, -⟩ := hrun.deterministic htrace.completes
    cases (hnone.deterministic hown).2
  · intro hfree
    have hseparates : Separates hcapacity hashKey contents key :=
      (separates_iff hshows hrespects htidy).mpr hfree
    refine ⟨_, get_completes hcapacity hshows key, ?_⟩
    cases hlookup : lookup hcapacity hashKey contents key with
    | some held => exact computeIfAbsent_present_traces hcapacity hshows key hlookup value
    | none =>
        let entry : Entry K V := { hash := hashKey key, key := key, value := value }
        obtain ⟨final, held, hheld, hhash, htrace, hfinal⟩ :=
          computeIfAbsent_absent_traces hcapacity hshows key hlookup value
        have hput := put_eq_of_absent hseparates hrespects htidy hlookup
          (show entry.hash = hashKey key from rfl)
        rw [← hput] at hheld hfinal
        have hsame : held = entry := (mem_put.mp hheld).resolve_right fun hother => hother.2 hhash
        subst hsame
        have hafter : lookup hcapacity hashKey (inserted hcapacity hashKey contents key value) = _ :=
          lookup_inserted hseparates hrespects htidy value
        refine ⟨final, htrace, ?_, ?_⟩
        · rw [get_answer hcapacity hfinal, hafter, PlainMap.put, if_pos BEq.rfl]
        · intro other hne
          refine ⟨_, get_completes hcapacity hshows other, ?_⟩
          rw [get_answer hcapacity hfinal, hafter, PlainMap.put, if_neg (by simp [hne])]

/-- **compute_if_absent** keeps to its own key exactly if no other key with the same hash is in the
map. -/
theorem compute_own_value_iff [EquivBEq K] (hcapacity : capacity ≠ 0)
    (hrespects : Respects hashKey) {calls : List (Call K V)} {replies : List (Reply V)}
    (hrun : (object capacity V hashKey).Executes (withCapacity capacity) calls replies state)
    (key : K) (value : V) :
    ComputesOwn hashKey state key value ↔ ¬ Collides hashKey state key :=
  computesOwn_iff hcapacity hrespects (orderly_of_executes hcapacity hrun) key value

/-- A map with another key in it, where a hash says what the key is. -/
theorem compute_own_value_iff_second :
    ∃ state : Index 16 → SharedList (Entry UInt64 ℕ),
      (object 16 ℕ id).Executes (withCapacity 16) [.insert 1 10] [.bool false] state ∧
      ComputesOwn id state 2 20 := by
  have hcapacity : (16 : UInt64) ≠ 0 := by decide
  have hempty : Tidy id (fun _ => [] : Contents 16 UInt64 ℕ) := .empty
  obtain ⟨state, hinsert, -⟩ := insert_completes hcapacity withCapacity_shows hempty 1 10
  have hrun : (object 16 ℕ (id : UInt64 → UInt64)).Executes (withCapacity 16) [.insert 1 10]
      [.bool false] state := .cons hinsert .nil
  exact ⟨state, hrun, (compute_own_value_iff hcapacity id_respects hrun 2 20).mpr not_collides_id⟩

/-- Key 1 is in the map. `compute_if_absent` for key 2 returns the value of key 1. -/
theorem compute_own_value_fails :
    ∃ state : Index 16 → SharedList (Entry UInt32 ℕ),
      (object 16 ℕ emptyHash).Executes (withCapacity 16) [.insert 1 10] [.bool false] state ∧
      ¬ ComputesOwn emptyHash state 2 20 := by
  obtain ⟨state, hrun, horderly, hget⟩ := emptyHash_inserted
  refine ⟨state, hrun, ?_⟩
  rw [computesOwn_iff (by decide) emptyHash_respects horderly, not_not]
  exact ⟨1, 10, rfl, rfl, hget⟩

end Computes

end Mutual.SharedMap
