import Mutual.PlainMap
import Mutual.Proof.Lookups

/-!
# A map used by one thread is a plain map

This holds as long as no two different keys used have the same hash.
-/

namespace Mutual.SharedMap

open Concurrency

variable {K V : Type} {capacity : UInt64}

/-! ### Passes of the iterator -/

/-- What an iterator yields from `code` on, until it yields nothing. -/
inductive Pass : (Index capacity → SharedList (Entry K V)) → IterCode capacity K V →
    List (Entry K V) → (Index capacity → SharedList (Entry K V)) → Prop
  | done {state final : Index capacity → SharedList (Entry K V)} {code : IterCode capacity K V} :
      (Iter.object capacity K V).Completes state code final none → Pass state code [] final
  | more {state middle final : Index capacity → SharedList (Entry K V)}
      {code : IterCode capacity K V} {entry : Entry K V} {iter : Iter capacity}
      {rest : List (Entry K V)} :
      (Iter.object capacity K V).Completes state code middle (some (entry, iter)) →
      Pass middle iter.next rest final → Pass state code (entry :: rest) final

section Pass

variable {state final : Index capacity → SharedList (Entry K V)} {code code' : IterCode capacity K V}
  {entries : List (Entry K V)} {contents : Contents capacity K V}

theorem Pass.deterministic {left right : Index capacity → SharedList (Entry K V)}
    {entriesL entriesR : List (Entry K V)} (hleft : Pass state code entriesL left)
    (hright : Pass state code entriesR right) : left = right ∧ entriesL = entriesR := by
  induction hleft generalizing entriesR with
  | done hcall =>
      cases hright with
      | done hcall' => exact ⟨(hcall.deterministic hcall').1, rfl⟩
      | more hcall' _ => cases (hcall.deterministic hcall').2
  | more hcall _ ih =>
      cases hright with
      | done hcall' => cases (hcall.deterministic hcall').2
      | more hcall' hrest' =>
          obtain ⟨rfl, hsame⟩ := hcall.deterministic hcall'
          cases hsame
          obtain ⟨rfl, rfl⟩ := ih hrest'
          exact ⟨rfl, rfl⟩

theorem Pass.of_completes (hpass : Pass state code' entries final)
    (hcode : ∀ final result, (Iter.object capacity K V).Completes state code' final result →
      (Iter.object capacity K V).Completes state code final result) :
    Pass state code entries final := by
  cases hpass with
  | done hcall => exact .done (hcode _ _ hcall)
  | more hcall hrest => exact .more (hcode _ _ hcall) hrest

/-- The pass goes through the rest of a bucket and then through the other buckets. -/
theorem pass_bucket {bucket : Index capacity} {rest : List (Index capacity)} {current : Slot}
    {left : List (Entry K V)}
    (hleft : SharedList.Iterates (some orderFn) (state bucket) current left)
    (hrest : Pass state (Iter.nextBucket rest) entries state) :
    Pass state (.ret (.inl (.call bucket (.iterNext current) rest))) (left ++ entries) state := by
  generalize hlist : state bucket = list at hleft
  induction hleft with
  | done hcall =>
      subst hlist
      refine hrest.of_completes fun final result hrun => ?_
      refine Composite.completes_call.mpr ((Composite.completes_within hcall).mpr ?_)
      rw [Function.update_eq_self]
      exact hrun
  | @more current next entry rest' hcall _ ih =>
      subst hlist
      have hcode : (Iter.object capacity K V).Completes state
          (.ret (.inl (.call bucket (.iterNext current) rest))) state
          (some (entry, { front := some (bucket, next), rest := rest })) := by
        refine Composite.completes_call.mpr ((Composite.completes_within hcall).mpr ?_)
        rw [Function.update_eq_self]
        exact Object.completes_reply.mpr ⟨rfl, rfl⟩
      exact .more hcode ih

theorem pass_buckets (hshows : Shows state contents) (rest : List (Index capacity)) :
    Pass state (Iter.nextBucket rest) (rest.flatMap contents) state := by
  induction rest with
  | nil => exact .done (Object.completes_reply.mpr ⟨rfl, rfl⟩)
  | cons bucket rest ih =>
      obtain ⟨⟨slots, hlayout⟩, -⟩ := hshows bucket
      exact pass_bucket (SharedList.iterates hlayout.chain hlayout.immFree) ih

end Pass

variable [BEq K] {hashKey : K → UInt64} {hcapacity : capacity ≠ 0}
  {state final : Index capacity → SharedList (Entry K V)} {contents : Contents capacity K V}
  {key other : K} {value : V}

/-- The pass yields what the map holds. -/
theorem Tidy.lists (htidy : Tidy hashKey contents) (hrespects : Respects hashKey) :
    PlainMap.Lists (lookup hcapacity hashKey contents)
      (((List.finRange capacity.toNat).flatMap contents).map fun entry =>
        (entry.key, entry.value)) where
  once := by
    rw [List.pairwise_map, List.pairwise_flatMap]
    constructor
    · intro bucket _
      refine (htidy bucket).ascending.imp_of_mem ?_
      intro left right hleft hright hlt
      rw [← Bool.not_eq_true]
      intro hsame
      rw [(htidy bucket).hash left hleft, (htidy bucket).hash right hright,
        hrespects _ _ hsame] at hlt
      exact UInt64.lt_irrefl _ hlt
    · refine (List.nodup_finRange _).imp ?_
      intro bucket bucket' hne left hleft right hright
      rw [← Bool.not_eq_true]
      intro hsame
      apply hne
      apply Fin.ext
      rw [← (htidy bucket).index left hleft, ← (htidy bucket').index right hright,
        (htidy bucket).hash left hleft, (htidy bucket').hash right hright, hrespects _ _ hsame]
  mem_iff key value := by
    rw [lookup_eq_some_iff hrespects htidy]
    simp only [List.mem_map, List.mem_flatMap, List.mem_finRange, true_and]
    constructor
    · rintro ⟨entry, hmem, hkey, hvalue⟩
      exact ⟨_, ⟨entry, ⟨_, hmem⟩, rfl⟩, hkey, hvalue⟩
    · rintro ⟨_, ⟨entry, ⟨bucket, hmem⟩, rfl⟩, hkey, hvalue⟩
      have hbucket : indexOf hcapacity (hashKey key) = bucket := by
        apply Fin.ext
        rw [← (htidy bucket).index entry hmem, (htidy bucket).hash entry hmem, hrespects _ _ hkey]
        rfl
      rw [hbucket]
      exact ⟨entry, hmem, hkey, hvalue⟩

/-! ### The closure of `compute_if_absent` -/

/-- In the call on its own, the closure runs. -/
def CallsClosure (hashKey : K → UInt64) (state : Index capacity → SharedList (Entry K V)) (key : K)
    (value : V) : Prop :=
  ∃ after bucket entry, (object capacity V hashKey).Alone
    (state, enter hashKey (.computeIfAbsent key value))
    (after, resume bucket (.computeFind entry) (.found none))

theorem callsClosure_iff (hcapacity : capacity ≠ 0) (hshows : Shows state contents) (key : K)
    (value : V) :
    CallsClosure hashKey state key value ↔ lookup hcapacity hashKey contents key = none := by
  obtain ⟨found, hfind, hfound⟩ := find_completes hshows (indexOf hcapacity (hashKey key))
    fun entry => entry.key == key
  have hlookup : lookup hcapacity hashKey contents key =
      found.map fun found => found.2.value := by
    rw [lookup, ← hfound, Option.map_map]
    rfl
  rw [hlookup, Option.map_eq_none_iff]
  let entry : Entry K V := { hash := hashKey key, key := key, value := value }
  have henter : enter hashKey (.computeIfAbsent key value) =
      call (indexOf hcapacity (hashKey key)) (SharedList.find fun _ entry => entry.key == key)
        (.computeFind entry) := by
    rw [enter, computeIfAbsent, bucketOf_eq hcapacity]
  constructor
  · rintro ⟨after, bucket, entry', hrun⟩
    rw [henter] at hrun
    rcases hrun.cases_head with heq | ⟨_, hstep, hrest⟩
    · cases heq
    · cases hstep
      rcases Composite.alone_within hfind hrest with ⟨inside, heq, hinside⟩ | hafter
      · exact absurd heq (within_ne_closure hinside)
      · -- where the search has found an entry, that was the end
        cases found with
        | none => rfl
        | some found =>
            rcases hafter.cases_head with heq | ⟨_, hstep, _⟩
            · cases heq
            · cases hstep
  · rintro rfl
    have hrun : (object capacity V hashKey).Alone (state, (composite capacity V hashKey).within _
        (.computeFind entry) _) _ := Composite.alone_of_completes hfind
    rw [Function.update_eq_self] at hrun
    refine ⟨state, indexOf hcapacity (hashKey key), entry, ?_⟩
    rw [henter]
    exact hrun.head rfl

/-! ### Lookups after an edit -/

theorem lookup_inserted (hseparates : Separates hcapacity hashKey contents key) [EquivBEq K]
    (hrespects : Respects hashKey) (htidy : Tidy hashKey contents) (value : V) :
    lookup hcapacity hashKey (inserted hcapacity hashKey contents key value) =
      PlainMap.put (lookup hcapacity hashKey contents) key value := by
  funext other
  unfold PlainMap.put
  by_cases heq : (other == key) = true
  · rw [if_pos heq, lookup_eq_some_iff hrespects (inserted_tidy htidy key value), hrespects _ _ heq]
    refine ⟨{ hash := hashKey key, key := key, value := value }, ?_, BEq.symm heq, rfl⟩
    rw [inserted, Function.update_self, mem_put]
    exact .inl rfl
  · rw [if_neg heq]
    rw [Bool.not_eq_true] at heq
    by_cases hhash : hashKey other = hashKey key
    · rw [lookup_inserted_of_eq hrespects htidy heq hhash value]
      symm
      rw [Option.eq_none_iff_forall_ne_some]
      intro held hheld
      obtain ⟨entry, hmem, hkey, -⟩ := (lookup_eq_some_iff hrespects htidy).mp hheld
      rw [hhash] at hmem
      have hself := hseparates entry hmem ((hrespects _ _ hkey).trans hhash)
      rw [BEq.trans (BEq.symm hkey) hself] at heq
      cases heq
    · exact lookup_inserted_of_ne hrespects htidy hhash value

theorem lookup_removed (hseparates : Separates hcapacity hashKey contents key) [EquivBEq K]
    (hrespects : Respects hashKey) (htidy : Tidy hashKey contents) :
    lookup hcapacity hashKey (removed hcapacity hashKey contents key) =
      PlainMap.erase (lookup hcapacity hashKey contents) key := by
  funext other
  unfold PlainMap.erase
  by_cases heq : (other == key) = true
  · rw [if_pos heq]
    exact lookup_removed_of_hash hrespects htidy (hrespects _ _ heq)
  · rw [if_neg heq]
    rw [Bool.not_eq_true] at heq
    exact hseparates.lookup_removed_of_ne hrespects htidy heq

/-- Where the key is absent, `compute_if_absent` finds no entry with its hash. -/
theorem put_eq_of_absent (hseparates : Separates hcapacity hashKey contents key)
    (hrespects : Respects hashKey) (htidy : Tidy hashKey contents)
    (habsent : lookup hcapacity hashKey contents key = none) {entry : Entry K V}
    (hentry : entry.hash = hashKey key) :
    put entry (contents (indexOf hcapacity (hashKey key))) =
      insertOrdered orderFn true entry (contents (indexOf hcapacity (hashKey key))) := by
  unfold put
  congr 1
  rw [List.filter_eq_self]
  intro held hmem
  rw [Bool.not_eq_true', beq_eq_false_iff_ne, hentry]
  intro hhash
  have hkey := (hseparates.hash_iff hrespects htidy hmem).mp hhash
  have hheld : lookup hcapacity hashKey contents key = some held.value :=
    (lookup_eq_some_iff hrespects htidy).mpr ⟨held, hmem, hkey, rfl⟩
  rw [habsent] at hheld
  cases hheld

/-! ### Runs of one thread -/

/-- One thread performs an operation and gets an answer. -/
inductive Performs (hashKey : K → UInt64) : (Index capacity → SharedList (Entry K V)) →
    MapOp K V → MapAnswer K V → (Index capacity → SharedList (Entry K V)) → Prop
  | insert {state final : Index capacity → SharedList (Entry K V)} {key : K} {value : V}
      {answer : Bool} :
      (object capacity V hashKey).Completes state (enter hashKey (.insert key value)) final
        (.bool answer) → Performs hashKey state (.insert key value) (.bool answer) final
  | get {state final : Index capacity → SharedList (Entry K V)} {key : K} {found : Option V} :
      (object capacity V hashKey).Completes state (enter hashKey (.get key)) final (.found found) →
      Performs hashKey state (.get key) (.found found) final
  | contains {state final : Index capacity → SharedList (Entry K V)} {key : K} {answer : Bool} :
      (object capacity V hashKey).Completes state (enter hashKey (.contains key)) final
        (.bool answer) → Performs hashKey state (.contains key) (.bool answer) final
  | remove {state final : Index capacity → SharedList (Entry K V)} {key : K} {found : Option V} :
      (object capacity V hashKey).Completes state (enter hashKey (.remove key)) final
        (.found found) → Performs hashKey state (.remove key) (.found found) final
  | computeIfAbsent {state final : Index capacity → SharedList (Entry K V)} {key : K}
      {value held : V} {called : Bool} :
      (object capacity V hashKey).Completes state (enter hashKey (.computeIfAbsent key value)) final
        (.value held) → (called = true ↔ CallsClosure hashKey state key value) →
      Performs hashKey state (.computeIfAbsent key value) (.computed held called) final
  | iter {state final : Index capacity → SharedList (Entry K V)} {entries : List (Entry K V)} :
      Pass state iter.next entries final → Performs hashKey state .iter
        (.entries (entries.map fun entry => (entry.key, entry.value))) final

inductive Runs (hashKey : K → UInt64) : (Index capacity → SharedList (Entry K V)) →
    List (MapOp K V) → List (MapAnswer K V) → (Index capacity → SharedList (Entry K V)) → Prop
  | nil {state : Index capacity → SharedList (Entry K V)} : Runs hashKey state [] [] state
  | cons {state next final : Index capacity → SharedList (Entry K V)} {op : MapOp K V}
      {ops : List (MapOp K V)} {answer : MapAnswer K V} {answers : List (MapAnswer K V)} :
      Performs hashKey state op answer next → Runs hashKey next ops answers final →
      Runs hashKey state (op :: ops) (answer :: answers) final

theorem Performs.deterministic {left right : Index capacity → SharedList (Entry K V)}
    {op : MapOp K V} {answerL answerR : MapAnswer K V}
    (hleft : Performs hashKey state op answerL left)
    (hright : Performs hashKey state op answerR right) : left = right ∧ answerL = answerR := by
  cases hleft with
  | insert hcall | get hcall | contains hcall | remove hcall =>
      cases hright with
      | _ hcall' =>
          obtain ⟨rfl, hsame⟩ := hcall.deterministic hcall'
          cases hsame
          exact ⟨rfl, rfl⟩
  | computeIfAbsent hcall hcalled =>
      cases hright with
      | computeIfAbsent hcall' hcalled' =>
          obtain ⟨rfl, hsame⟩ := hcall.deterministic hcall'
          cases hsame
          rw [Bool.eq_iff_iff.mpr (hcalled.trans hcalled'.symm)]
          exact ⟨rfl, rfl⟩
  | iter hpass =>
      cases hright with
      | iter hpass' =>
          obtain ⟨rfl, rfl⟩ := hpass.deterministic hpass'
          exact ⟨rfl, rfl⟩

theorem Runs.deterministic {left right : Index capacity → SharedList (Entry K V)}
    {ops : List (MapOp K V)} {answersL answersR : List (MapAnswer K V)}
    (hleft : Runs hashKey state ops answersL left)
    (hright : Runs hashKey state ops answersR right) : left = right ∧ answersL = answersR := by
  induction hleft generalizing answersR with
  | nil =>
      cases hright
      exact ⟨rfl, rfl⟩
  | cons hop _ ih =>
      cases hright with
      | cons hop' hrest' =>
          obtain ⟨rfl, rfl⟩ := hop.deterministic hop'
          obtain ⟨rfl, rfl⟩ := ih hrest'
          exact ⟨rfl, rfl⟩

/-- The buckets are in order, the keys in them have been used, and they hold what the map holds. -/
structure MapWorld (hcapacity : capacity ≠ 0) (hashKey : K → UInt64) (keys : List K)
    (state : Index capacity → SharedList (Entry K V)) (contents : Contents capacity K V)
    (map : PlainMap K V) : Prop where
  shows : Shows state contents
  tidy : Tidy hashKey contents
  lookup : lookup hcapacity hashKey contents = map
  used : ∀ bucket, ∀ entry ∈ contents bucket, entry.key ∈ keys

namespace MapWorld

variable {keys : List K} {map : PlainMap K V}

theorem separates (hw : MapWorld hcapacity hashKey keys state contents map)
    (hinj : ∀ left ∈ keys, ∀ right ∈ keys, hashKey left = hashKey right → (left == right) = true)
    (hkey : key ∈ keys) : Separates hcapacity hashKey contents key :=
  fun entry hmem hhash => hinj _ (hw.used _ entry hmem) _ hkey hhash

theorem inserted [EquivBEq K] (hw : MapWorld hcapacity hashKey keys state contents map)
    (hseparates : Separates hcapacity hashKey contents key) (hrespects : Respects hashKey)
    (hkey : key ∈ keys) {final : Index capacity → SharedList (Entry K V)}
    (hshows : Shows final (inserted hcapacity hashKey contents key value)) :
    MapWorld hcapacity hashKey keys final (inserted hcapacity hashKey contents key value)
      (map.put key value) := by
  refine ⟨hshows, inserted_tidy hw.tidy key value, ?_, ?_⟩
  · rw [lookup_inserted hseparates hrespects hw.tidy value, hw.lookup]
  · intro bucket entry hmem
    by_cases hbucket : bucket = indexOf hcapacity (hashKey key)
    · rw [hbucket, SharedMap.inserted, Function.update_self, mem_put] at hmem
      rcases hmem with rfl | ⟨hmem, -⟩
      · exact hkey
      · exact hw.used _ entry hmem
    · rw [SharedMap.inserted, Function.update_of_ne hbucket] at hmem
      exact hw.used _ entry hmem

theorem removed [EquivBEq K] (hw : MapWorld hcapacity hashKey keys state contents map)
    (hseparates : Separates hcapacity hashKey contents key) (hrespects : Respects hashKey)
    {final : Index capacity → SharedList (Entry K V)}
    (hshows : Shows final (removed hcapacity hashKey contents key)) :
    MapWorld hcapacity hashKey keys final (removed hcapacity hashKey contents key)
      (map.erase key) := by
  refine ⟨hshows, removed_tidy hw.tidy key, ?_, ?_⟩
  · rw [lookup_removed hseparates hrespects hw.tidy, hw.lookup]
  · intro bucket entry hmem
    exact hw.used bucket entry (mem_removed.mp hmem).1

/-- **One operation.** -/
theorem step [EquivBEq K] (hw : MapWorld hcapacity hashKey keys state contents map)
    (hrespects : Respects hashKey)
    (hinj : ∀ left ∈ keys, ∀ right ∈ keys, hashKey left = hashKey right → (left == right) = true)
    {op : MapOp K V} (hop : ∀ key ∈ op.key, key ∈ keys) :
    ∃ answer final contents' map', Performs hashKey state op answer final ∧
      PlainMap.Step map op answer map' ∧
      MapWorld hcapacity hashKey keys final contents' map' := by
  cases op with
  | insert key value =>
      have hkey := hop key rfl
      have hseparates := hw.separates hinj hkey
      obtain ⟨final, hrun, hfinal⟩ := insert_completes hcapacity hw.shows hw.tidy key value
      rw [hseparates.any_hash hrespects hw.tidy, hw.lookup] at hrun
      exact ⟨_, final, _, _, .insert hrun, .insert, hw.inserted hseparates hrespects hkey hfinal⟩
  | get key =>
      have hrun : (object capacity V hashKey).Completes state (enter hashKey (.get key)) state
          (.found _) := get_completes hcapacity hw.shows key
      rw [hw.lookup] at hrun
      exact ⟨_, state, contents, map, .get hrun, .get, hw⟩
  | contains key =>
      have hseparates := hw.separates hinj (hop key rfl)
      have hrun : (object capacity V hashKey).Completes state (enter hashKey (.contains key)) state
          (.bool _) := contains_completes hcapacity hw.shows key
      rw [hseparates.any_hash hrespects hw.tidy, hw.lookup] at hrun
      exact ⟨_, state, contents, map, .contains hrun, .contains, hw⟩
  | remove key =>
      have hseparates := hw.separates hinj (hop key rfl)
      obtain ⟨final, hrun, hfinal⟩ := remove_completes hcapacity hw.shows hw.tidy key
      rw [hseparates.find_hash hrespects hw.tidy, hw.lookup] at hrun
      exact ⟨_, final, _, _, .remove hrun, .remove, hw.removed hseparates hrespects hfinal⟩
  | computeIfAbsent key value =>
      have hkey := hop key rfl
      have hseparates := hw.separates hinj hkey
      have hcalls : CallsClosure hashKey state key value ↔ _ :=
        callsClosure_iff hcapacity hw.shows key value
      cases hlookup : SharedMap.lookup hcapacity hashKey contents key with
      | some held =>
          have hrun := computeIfAbsent_present hcapacity hw.shows key hlookup value
          rw [hlookup] at hcalls
          have hmap : map key = some held := by
            rw [← hw.lookup, hlookup]
          refine ⟨_, state, contents, map, .computeIfAbsent hrun ?_, .present hmap, hw⟩
          simp [hcalls]
      | none =>
          obtain ⟨final, held, hheld, hhash, hrun, hfinal⟩ :=
            computeIfAbsent_absent hcapacity hw.shows key hlookup value
          rw [hlookup] at hcalls
          rw [← put_eq_of_absent hseparates hrespects hw.tidy hlookup rfl] at hheld hfinal
          have hmap : map key = none := by
            rw [← hw.lookup, hlookup]
          rcases mem_put.mp hheld with rfl | ⟨-, hne⟩
          · refine ⟨_, final, _, _, .computeIfAbsent hrun ?_, .absent hmap,
              hw.inserted hseparates hrespects hkey hfinal⟩
            simp [hcalls]
          · exact absurd hhash hne
  | iter =>
      have hpass := pass_buckets hw.shows (List.finRange capacity.toNat)
      have hlists : map.Lists _ := hw.lookup ▸ hw.tidy.lists hrespects
      exact ⟨_, state, contents, map, .iter hpass, .iter hlists, hw⟩

theorem run [EquivBEq K] (hw : MapWorld hcapacity hashKey keys state contents map)
    (hrespects : Respects hashKey)
    (hinj : ∀ left ∈ keys, ∀ right ∈ keys, hashKey left = hashKey right → (left == right) = true)
    (ops : List (MapOp K V)) (hops : ∀ key ∈ ops.filterMap MapOp.key, key ∈ keys) :
    ∃ answers final map', Runs hashKey state ops answers final ∧
      PlainMap.Run map ops answers map' := by
  induction ops generalizing state contents map with
  | nil => exact ⟨[], state, map, .nil, .nil⟩
  | cons op ops ih =>
      have hop : ∀ key ∈ op.key, key ∈ keys := by
        intro key hkey
        exact hops key (List.mem_filterMap.mpr ⟨op, List.mem_cons_self, hkey⟩)
      have hrest : ∀ key ∈ ops.filterMap MapOp.key, key ∈ keys := by
        intro key hkey
        obtain ⟨other, hmem, hother⟩ := List.mem_filterMap.mp hkey
        exact hops key (List.mem_filterMap.mpr ⟨other, List.mem_cons_of_mem op hmem, hother⟩)
      obtain ⟨answer, next, contents', map', hperforms, hstep, hnext⟩ := hw.step hrespects hinj hop
      obtain ⟨answers, final, map'', hruns, hrun⟩ := ih hnext hrest
      exact ⟨_, final, map'', .cons hperforms hruns, .cons hstep hrun⟩

end MapWorld

/-- **The map is a plain map** for a thread on its own, if its hash tells the keys apart that it
uses: whatever it does with a new map comes to an end, and every way it does has the answers of the
abstract map. -/
theorem map_refines [EquivBEq K] (hcapacity : capacity ≠ 0) (hrespects : Respects hashKey)
    (ops : List (MapOp K V))
    (hinj : ∀ left ∈ ops.filterMap MapOp.key, ∀ right ∈ ops.filterMap MapOp.key,
      hashKey left = hashKey right → (left == right) = true) :
    (∃ answers final, Runs hashKey (withCapacity capacity) ops answers final) ∧
      ∀ answers final, Runs hashKey (withCapacity capacity) ops answers final →
        ∃ map, PlainMap.Run PlainMap.empty ops answers map := by
  have hstart : MapWorld hcapacity hashKey (ops.filterMap MapOp.key)
      (withCapacity capacity : Index capacity → SharedList (Entry K V)) (fun _ => [])
      PlainMap.empty := ⟨withCapacity_shows, .empty, rfl, by simp⟩
  obtain ⟨answers, final, map, hruns, hrun⟩ := hstart.run hrespects hinj ops fun _ hkey => hkey
  refine ⟨⟨answers, final, hruns⟩, ?_⟩
  intro answers' final' hruns'
  obtain ⟨rfl, rfl⟩ := hruns'.deterministic hruns
  exact ⟨map, hrun⟩

/-- The keys 1 and 17 share a bucket. -/
theorem map_refines_shared_bucket :
    ∃ answers final map, Runs UInt32.toUInt64 (withCapacity (16 : UInt64))
        [.insert 1 10, .computeIfAbsent 17 20, .iter, .remove 1, .get 17] answers final ∧
      PlainMap.Run (V := ℕ) PlainMap.empty
        [.insert 1 10, .computeIfAbsent 17 20, .iter, .remove 1, .get 17] answers map := by
  have hrespects : Respects UInt32.toUInt64 := by
    intro left right heq
    rw [beq_iff_eq.mp heq]
  have hinj : ∀ left right : UInt32, left.toUInt64 = right.toUInt64 → (left == right) = true := by
    intro left right heq
    exact beq_iff_eq.mpr (UInt32.toUInt64_inj.mp heq)
  obtain ⟨⟨answers, final, hruns⟩, hrun⟩ := map_refines (show (16 : UInt64) ≠ 0 by decide)
    hrespects [.insert 1 10, .computeIfAbsent 17 20, .iter, .remove 1, .get 17]
    fun left _ right _ => hinj left right
  obtain ⟨map, hrun⟩ := hrun answers final hruns
  exact ⟨answers, final, map, hruns, hrun⟩

end Mutual.SharedMap
