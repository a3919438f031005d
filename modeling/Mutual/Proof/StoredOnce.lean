import Mutual.Proof.Computing
import Mutual.Proof.Ordering
import Mutual.Proof.Phases
import Mutual.Proof.Recounting

/-!
# One entry for each hash

An insertion takes the entries with its hash out and then pushes its own, and a push refuses an entry
whose hash it meets. Neither is of any use to threads that find the bucket empty together, since a
push does not compare then. As long as a node gets in front of larger hashes only, a bucket stays in
order, and no hash is in it twice.
-/

namespace Mutual.SharedMap

open Concurrency Data SharedList

variable {K V : Type} {capacity : UInt64}

/-! ### The order of a bucket -/

section Buckets

variable [BEq K] {ι : Type}

/-- If `t` is about to store something in a slot of a bucket, the store meets `clean`. -/
def OnBucketStore (clean : SharedList (Entry K V) → Slot → Option (Node (Entry K V)) → Prop)
    {hashKey : K → UInt64} (config : Config (object capacity V hashKey) ι) (t : ι) : Prop :=
  match config.instr? t with
  | some (bucket, .cow (.store slot content)) => clean (config.state bucket) slot content
  | _ => True

/-- A node is stored in front of entries with a larger hash only. -/
def StoresAscending {hashKey : K → UInt64} (config : Config (object capacity V hashKey) ι) :
    Action (object capacity V hashKey) ι → Prop
  | .tick t => OnBucketStore (StoresInOrder orderFn) config t
  | .invoke _ _ => True

theorem OnBucketStore.clean
    {clean : SharedList (Entry K V) → Slot → Option (Node (Entry K V)) → Prop}
    {hashKey : K → UInt64} {config : Config (object capacity V hashKey) ι} {t : ι}
    {mapCall : Call K V} {bucket : Index capacity} {slot : Slot}
    {content : Option (Node (Entry K V))} {next : Unit → Code capacity K V}
    (hstore : OnBucketStore clean config t)
    (hat : config.At t mapCall (bucket, .cow (.store slot content)) next) :
    clean (config.state bucket) slot content := by
  rw [OnBucketStore, hat.instr?_eq] at hstore
  exact hstore

variable (hashKey : K → UInt64)

/-- The entry has the hash of its key and belongs in the bucket. -/
def Belongs (bucket : Index capacity) (entry : Entry K V) : Prop :=
  entry.hash = hashKey entry.key ∧ (entry.hash % capacity).toNat = bucket

def filling : Watch K V (Sorting (Entry K V)) where
  rest := .start none headSlot
  inside _ _ := ordering orderFn true
  begins _ _ := True
  hands _ _ _ := True
  answers _ _ _ := True

variable {hashKey} {hcapacity : capacity ≠ 0} {bucket : Index capacity} {mapCall : Call K V}
  {cont : Cont K V} {inner : SharedList.Call (Entry K V)}

theorem filling_sound : (filling (K := K) (V := V)).Sound hcapacity hashKey bucket where
  inside _ _ := ordering_sound orderFn true
  begins _ _ _ _ _ _ _ := trivial
  resume := by
    intro mapCall cont inner result g hcalls hwatched _
    refine resume_obeys hcalls (fun _ => ⟨cont, inner, hcalls, trivial⟩) (fun _ _ => trivial)
      (fun _ => ⟨cont, inner, hcalls, trivial⟩) ?_ result
    intro cont' inner' g' hcalls' _
    exact ⟨hwatched.symm, hcalls', fun _ => trivial⟩

/-- What a call to the bucket brings belongs there. -/
theorem filling_start (hcapacity : capacity ≠ 0) (hcalls : Calls hashKey mapCall cont inner) :
    ∃ data, (Sorting.start data headSlot).Begins inner ∧
      ∀ entry, data = some entry → Belongs hashKey (indexOf hcapacity (hashKey mapCall.key)) entry := by
  cases hcalls with
  | insertPush key value result | computePush key value =>
      refine ⟨some (keyed hashKey key value), rfl, ?_⟩
      rintro _ ⟨⟩
      exact ⟨rfl, rfl⟩
  | _ => exact ⟨none, rfl, by simp⟩

variable [DecidableEq ι]

/-- The bucket is in order, and its entries belong there. -/
def BucketWorld (hashKey : K → UInt64) (bucket : Index capacity)
    (state : Index capacity → SharedList (Entry K V)) (ghost : ι → Sorting (Entry K V)) : Prop :=
  ∃ g, FilledWorld orderFn true (Belongs hashKey bucket) (state bucket) ghost g

theorem filling_keeps (hcapacity : capacity ≠ 0) (bucket : Index capacity) :
    ((filling (V := V)).protocol hcapacity hashKey bucket).Keeps (StoresAscending (ι := ι))
      fun state ghost _ => BucketWorld hashKey bucket state ghost where
  invoke := by
    rintro config ghost t mapCall hw - -
    refine ⟨ghost t, trivial, ?_⟩
    rw [Function.update_eq_self]
    exact hw
  respond := by
    rintro config ghost t mapCall result ⟨g, hw⟩ - - -
    exact ⟨g, hw.restart t (by simp)⟩
  jump := by
    rintro config ghost t mapCall label ⟨g, hw⟩ - - harrive
    cases label with
    | call part inner cont =>
        obtain ⟨hpart, hcalls, -⟩ := harrive
        by_cases hwatched : part = bucket
        · subst hwatched
          obtain ⟨data, hbegins, hbelongs⟩ := filling_start hcapacity hcalls
          exact ⟨_, ⟨hpart, hcalls, fun _ => hbegins⟩, g, hw.restart t (hpart ▸ hbelongs)⟩
        · refine ⟨ghost t, ⟨hpart, hcalls, fun heq => absurd heq hwatched⟩, g, ?_⟩
          rw [Function.update_eq_self]
          exact hw
    | within part label cont =>
        obtain ⟨hpart, inner, hcalls, hcomes⟩ := harrive
        by_cases hwatched : part = bucket
        · obtain ⟨thread, hgoes, hproceeds⟩ := hw.sorted.jump (hcomes hwatched)
          exact ⟨thread, ⟨hpart, inner, hcalls, fun _ => hgoes⟩, g, hw.proceed hproceeds⟩
        · refine ⟨ghost t, ⟨hpart, inner, hcalls, fun heq => absurd heq hwatched⟩, g, ?_⟩
          rw [Function.update_eq_self]
          exact hw
  answered := by
    rintro config ghost t mapCall ⟨part, instr⟩ next state answer ⟨g, hw⟩ hat hclean hmay hexec
    obtain ⟨hinstr, hothers⟩ := Composite.exec_part hexec
    by_cases hwatched : part = bucket
    · subst hwatched
      obtain ⟨cont, inner, -, hmay⟩ := hmay rfl
      obtain ⟨thread, g', hmove, hproceeds⟩ := hw.sorted.step orderFn_totalPreorder hmay
        (by rintro slot content rfl; exact OnBucketStore.clean hclean hat) hinstr
      exact ⟨thread, ⟨fun _ _ _ _ => hmove, fun hne => absurd rfl hne⟩, g', hw.proceed hproceeds⟩
    · refine ⟨ghost t, ⟨fun heq => absurd heq hwatched, fun _ => rfl⟩, g, ?_⟩
      rw [Function.update_eq_self, hothers bucket (Ne.symm hwatched)]
      exact hw
  retried := by
    rintro config ghost t mapCall ⟨part, instr⟩ next state ⟨g, hw⟩ - - - hexec
    obtain ⟨hinstr, hothers⟩ := Composite.exec_part hexec
    by_cases hwatched : part = bucket
    · subst hwatched
      exact ⟨g, hw.sorted.retry hinstr, hw.pred, hw.data⟩
    · refine ⟨g, ?_⟩
      rw [hothers bucket (Ne.symm hwatched)]
      exact hw

end Buckets

/-! ### Maps nobody is working on -/

theorem hash_lt_of_inOrder {left right : Entry K V} (hin : InOrder orderFn true left right) :
    left.hash < right.hash := by
  obtain ⟨hlt, heq⟩ := hin
  rw [ne_eq, orderFn_eq_lt, UInt64.not_lt] at hlt
  refine UInt64.lt_of_le_of_ne hlt fun hsame => heq rfl ?_
  rw [orderFn_eq_eq, hsame]

/-- The bucket holds entries in their order; its counter and its locks may be wrong. -/
structure Arranged (hashKey : K → UInt64) (bucket : Index capacity) (list : SharedList (Entry K V))
    (entries : List (Entry K V)) : Prop where
  chain : ∃ slots, Chain list.heap.links (headSlot :: slots) entries ∧ (headSlot :: slots).Nodup ∧
    ∀ slot ∈ headSlot :: slots, slot < list.heap.fresh
  noneq : list.enforceNoneq = true
  tidy : TidyBucket hashKey bucket entries

namespace Arranged

variable {hashKey : K → UInt64} {bucket : Index capacity} {list : SharedList (Entry K V)}
  {entries : List (Entry K V)}

theorem holds (harranged : Arranged hashKey bucket list entries) : list.Holds entries := by
  obtain ⟨slots, hchain, -⟩ := harranged.chain
  exact ⟨slots, hchain⟩

theorem hashes_nodup (harranged : Arranged hashKey bucket list entries) :
    (entries.map Entry.hash).Nodup := by
  rw [List.Nodup, List.pairwise_map]
  exact harranged.tidy.ascending.imp UInt64.ne_of_lt

/-- Without locks, and with the right counter, the bucket is at rest. -/
theorem shows (harranged : Arranged hashKey bucket list entries)
    (hfree : ∀ lock : Lock, ¬ lock.Taken list) :
    ∃ surplus, (list.recount surplus).Shows { elements := entries, noneq := true } := by
  obtain ⟨slots, hchain, hnodup, hallocated⟩ := harranged.chain
  refine ⟨UInt64.ofNat entries.length - list.len, ⟨slots, hchain, hnodup, hallocated, ?_, ?_, ?_⟩,
    harranged.noneq⟩
  · exact fun slot _ => eq_false_of_ne_true (hfree (.mutLock slot))
  · exact fun slot _ => eq_false_of_ne_true (hfree (.immLock slot))
  · change list.len + (UInt64.ofNat entries.length - list.len) = UInt64.ofNat entries.length
    grind

end Arranged

section Runs

variable [BEq K] {ι : Type} [DecidableEq ι] {hashKey : K → UInt64}
  {config : Config (object capacity V hashKey) ι}

theorem arranged (hcapacity : capacity ≠ 0)
    (hreach : ((object capacity V hashKey).threads ι).Reach StoresAscending
      (.initial (withCapacity capacity)) config) (bucket : Index capacity) :
    ∃ entries, Arranged hashKey bucket (config.state bucket) entries := by
  obtain ⟨ghost, -, g, hw⟩ := Protocol.invariant (Watch.protocol_sound filling_sound)
    (filling_keeps hcapacity bucket)
    ⟨_, FilledWorld.new orderFn true (Belongs hashKey bucket)⟩ hreach
  obtain ⟨slots, entries, hchain, hnodup, hallocated, hsorted, hbelongs⟩ :=
    hw.chain orderFn_totalPreorder
  exact ⟨entries, ⟨slots, hchain, hnodup, hallocated⟩, hw.sorted.flag,
    fun entry hentry => (hbelongs entry hentry).1, fun entry hentry => (hbelongs entry hentry).2,
    hsorted.imp hash_lt_of_inOrder⟩

/-- What is true of a map whose counters are right is true of it in any case. -/
theorem removed_executes (hcapacity : capacity ≠ 0) (hrespects : Respects hashKey)
    {state : Index capacity → SharedList (Entry K V)} {contents : Contents capacity K V}
    {surplus : Index capacity → UInt64} (hshows : Shows (recount surplus state) contents)
    (htidy : Tidy hashKey contents) (key : K) :
    ∃ taken final, (object capacity V hashKey).Executes state [.remove key, .get key]
      [.found taken, .found none] final := by
  obtain ⟨final, hremove, hfinal⟩ := remove_completes hcapacity hshows htidy key
  have hget : (object capacity V hashKey).Completes final (enter hashKey (.get key)) final
      (.found none) := by
    have hnone : lookup hcapacity hashKey (removed hcapacity hashKey contents key) key = none :=
      lookup_removed_of_hash hrespects htidy rfl
    rw [← hnone]
    exact get_completes hcapacity hfinal key
  have hback : recount (fun bucket => -surplus bucket) (recount surplus state) = state := by
    funext bucket
    exact SharedList.recount_recount (state bucket) (surplus bucket)
  have hrun : (object capacity V hashKey).Executes (recount surplus state) [.remove key, .get key] _
      final := .cons hremove (.cons hget .nil)
  have hrecounted := executes_recount hrun fun bucket => -surplus bucket
  rw [hback] at hrecounted
  exact ⟨_, _, hrecounted⟩

/-- **A key is stored once.** In a run whose stores put nodes in front of larger hashes only, no bucket
holds two entries with the same hash in any state reached, and `remove` makes `get` find nothing
whenever no call is in progress. -/
theorem stored_once (hcapacity : capacity ≠ 0) (hrespects : Respects hashKey)
    (hreach : ((object capacity V hashKey).threads ι).Reach StoresAscending
      (.initial (withCapacity capacity)) config) :
    (∀ bucket, ∃ entries, (config.state bucket).Holds entries ∧ (entries.map Entry.hash).Nodup) ∧
    (config.Quiescent → ∀ key, ∃ taken final,
      (object capacity V hashKey).Executes config.state [.remove key, .get key]
        [.found taken, .found none] final) := by
  choose contents hcontents using arranged hcapacity hreach
  refine ⟨fun bucket => ⟨_, (hcontents bucket).holds, (hcontents bucket).hashes_nodup⟩, ?_⟩
  intro hquiescent key
  choose surplus hshows using fun bucket => (hcontents bucket).shows fun lock =>
    unlocked_of_quiescent hreach hquiescent bucket lock
  exact removed_executes hcapacity hrespects hshows (fun bucket => (hcontents bucket).tidy) key

end Runs

/-! ### Examples -/

instance [BEq K] {ι : Type} {hashKey : K → UInt64}
    (clean : SharedList (Entry K V) → Slot → Option (Node (Entry K V)) → Prop)
    [∀ list slot content, Decidable (clean list slot content)]
    (config : Config (object capacity V hashKey) ι) (t : ι) :
    Decidable (OnBucketStore clean config t) := by
  unfold OnBucketStore
  split <;> infer_instance

instance [DecidableEq K] [DecidableEq V] {ι : Type} {hashKey : K → UInt64}
    (config : Config (object capacity V hashKey) ι) :
    ∀ action, Decidable (StoresAscending config action)
  | .tick t => inferInstanceAs (Decidable (OnBucketStore (StoresInOrder orderFn) config t))
  | .invoke _ _ => .isTrue trivial

/-- A push is refused because of an entry that has come since the search. -/
theorem stored_once_both :
    ∃ config : Config (object 16 ℕ unitHash) Bool, config.Quiescent ∧
      config.history = [.invoke false (.computeIfAbsent () 20), .invoke true (.computeIfAbsent () 10),
        .respond true (.computeIfAbsent () 10) (.value 10),
        .respond false (.computeIfAbsent () 20) (.value 10)] ∧
      (∀ bucket, ∃ entries, (config.state bucket).Holds entries ∧
        (entries.map Entry.hash).Nodup) ∧
      ∀ key, ∃ taken final, (object 16 ℕ unitHash).Executes config.state [.remove key, .get key]
        [.found taken, .found none] final := by
  obtain ⟨config, hrun, hquiescent, hhistory⟩ : ∃ config,
      ((object 16 ℕ unitHash).threads Bool).runIf StoresAscending (.initial (withCapacity 16))
        (.invoke false (.computeIfAbsent () 20) :: .invoke true (.computeIfAbsent () 10) ::
          List.replicate 7 (.tick false) ++ List.replicate 24 (.tick true) ++
          List.replicate 20 (.tick false)) = some config ∧
      config.Quiescent ∧
      config.history = [.invoke false (.computeIfAbsent () 20), .invoke true (.computeIfAbsent () 10),
        .respond true (.computeIfAbsent () 10) (.value 10),
        .respond false (.computeIfAbsent () 20) (.value 10)] := by
    refine ⟨_, rfl, ?_, rfl⟩
    rintro (_ | _) <;> rfl
  obtain ⟨honce, hremoved⟩ :=
    stored_once (by decide) unitHash_respects (System.reach_of_runIf _ hrun)
  exact ⟨config, hquiescent, hhistory, honce, hremoved hquiescent⟩

/-- `insert` or `compute_if_absent`. -/
def Call.Brings : Call K V → Prop
  | .insert _ _ | .computeIfAbsent _ _ => True
  | .get _ | .contains _ | .remove _ => False

instance : DecidablePred (Call.Brings (K := K) (V := V))
  | .insert _ _ | .computeIfAbsent _ _ => .isTrue trivial
  | .get _ | .contains _ | .remove _ => .isFalse not_false

instance decidableBrings {ι : Type} [BEq K] {hashKey : K → UInt64} :
    ∀ (config : Config (object capacity V hashKey) ι) action,
      Decidable (OnlyCalls Call.Brings config action) := fun _ _ => inferInstance

/-- Two insertions find `head` null after each has looked for entries to take out. -/
theorem stored_once_fails :
    ¬ ∀ config : Config (object 16 ℕ unitHash) Bool,
      ((object 16 ℕ unitHash).threads Bool).Reach (OnlyCalls Call.Brings)
        (.initial (withCapacity 16)) config →
      config.Quiescent →
      (∀ bucket entries, (config.state bucket).Holds entries → (entries.map Entry.hash).Nodup) ∧
      ∀ key, ∃ taken final, (object 16 ℕ unitHash).Executes config.state [.remove key, .get key]
        [.found taken, .found none] final := by
  intro hclaim
  obtain ⟨config, hrun, hquiescent, hholds⟩ : ∃ config,
      ((object 16 ℕ unitHash).threads Bool).runIf (OnlyCalls Call.Brings)
        (.initial (withCapacity 16))
        (.invoke true (.insert () 10) :: .invoke false (.insert () 20) ::
          List.replicate 9 (.tick true) ++ List.replicate 9 (.tick false) ++
          List.replicate 8 (.tick true) ++ List.replicate 9 (.tick false)) = some config ∧
      config.Quiescent ∧ (config.state (indexOf (by decide) (unitHash ()))).Holds
        [keyed unitHash () 20, keyed unitHash () 10] := by
    refine ⟨_, rfl, ?_, [2, 1], rfl, rfl, rfl⟩
    rintro (_ | _) <;> rfl
  have hnodup := (hclaim config (System.reach_of_runIf _ hrun) hquiescent).1 _ _ hholds
  exact absurd hnodup (by decide)

end Mutual.SharedMap
