import Mutual.Proof.InsertFrame
import Mutual.Proof.Origins
import Mutual.Proof.Phases

/-!
# Where the entries of a map come from

However calls of a map interleave and whatever keys share a hash, every entry is one that an `insert`
or a `compute_if_absent` has brought, and is in the bucket that its hash selects. So `get` returns a
value that has been stored for an equal key, and the methods that search by hash one that has been
stored for a key with the same hash.
-/

namespace Mutual.SharedMap

open Concurrency

variable {K V : Type} [BEq K] {capacity : UInt64} (hcapacity : capacity ≠ 0) (hashKey : K → UInt64)

/-- The entry a method brings, in the bucket of its key. -/
def Call.Offers (call : Call K V) (x : Index capacity × Entry K V) : Prop :=
  call.entry hashKey = some x.2 ∧ x.1 = indexOf hcapacity x.2.hash

/-- `known`, of one bucket. -/
abbrev within (known : Index capacity × Entry K V → Prop) (bucket : Index capacity)
    (entry : Entry K V) : Prop := known (bucket, entry)

def Call.Carries (known : Index capacity × Entry K V → Prop) (call : Call K V) :
    Label capacity K V → Prop
  | .call bucket inner cont =>
      bucket = indexOf hcapacity (hashKey call.key) ∧ Calls hashKey call cont inner ∧
        (∀ x, call.Offers hcapacity hashKey x → known x)
  | .within bucket label cont =>
      bucket = indexOf hcapacity (hashKey call.key) ∧
        (∀ x, call.Offers hcapacity hashKey x → known x) ∧
        ∃ inner, Calls hashKey call cont inner ∧ label.Knows (within known bucket) inner

/-- What a reply of the map tells about the entries in the bucket of the key. -/
def Explains (known : Index capacity × Entry K V → Prop) : Call K V → Reply V → Prop
  | .insert _ _, .bool _ => True
  | .get key, .found found => ∀ value ∈ found,
      ∃ entry, known (indexOf hcapacity (hashKey key), entry) ∧ (entry.key == key) = true ∧
        entry.value = value
  | .contains key, .bool answer => answer = true →
      ∃ entry, known (indexOf hcapacity (hashKey key), entry) ∧ entry.hash = hashKey key
  | .remove key, .found found => ∀ value ∈ found,
      ∃ entry, known (indexOf hcapacity (hashKey key), entry) ∧ entry.hash = hashKey key ∧
        entry.value = value
  | .computeIfAbsent key _, .value value =>
      ∃ entry, known (indexOf hcapacity (hashKey key), entry) ∧
        ((entry.key == key) = true ∨ entry.hash = hashKey key) ∧ entry.value = value
  | _, _ => False

def tracing : Tracing (object capacity V hashKey) (Index capacity × Entry K V) where
  toFlow := (SharedList.flow (some orderFn)).parts (composite capacity V hashKey)
  offers call x := call.Offers hcapacity hashKey x
  carries known call := call.Carries hcapacity hashKey known
  explains := Explains hcapacity hashKey

section Code

variable {hcapacity hashKey} {known : Index capacity × Entry K V → Prop} {mapCall : Call K V}
  {cont : Cont K V} {inner : SharedList.Call (Entry K V)} {g : Unit}

/-- What a method hands to a bucket it has brought along. -/
theorem Calls.offers (hcalls : Calls hashKey mapCall cont inner)
    (hoffers : ∀ x, mapCall.Offers hcapacity hashKey x → known x) {entry : Entry K V}
    (hentry : inner.Offers entry) :
    known (indexOf hcapacity (hashKey mapCall.key), entry) := by
  cases hcalls with
  | insertPush key value | computePush key value =>
      obtain rfl : keyed hashKey key value = entry := hentry
      exact hoffers _ ⟨rfl, rfl⟩
  | insertRemove | get | contains | remove | computeFind | computeFound => exact hentry.elim

omit [BEq K] in
/-- What a search for the key or for its hash has found. -/
theorem explained_found {func : Entry K V → Bool} {bucket : Index capacity}
    {found : Option (List (Entry K V) × Entry K V)}
    (hfound : SharedList.Explains (within known bucket) (SharedList.find fun _ => func)
      (.found found)) {value : V} (hvalue : value ∈ found.map fun found => found.2.value) :
    ∃ entry, known (bucket, entry) ∧ func entry = true ∧ entry.value = value := by
  obtain ⟨entry, hentry, rfl⟩ := Option.mem_map.mp hvalue
  obtain ⟨hknown, hfunc, -⟩ := hfound entry hentry
  exact ⟨entry.2, hknown, hfunc, rfl⟩

theorem tracing_resume (hcalls : Calls hashKey mapCall cont inner)
    (hoffers : ∀ x, mapCall.Offers hcapacity hashKey x → known x)
    (result : SharedList.Reply (Entry K V))
    (hresult : SharedList.Explains (within known (indexOf hcapacity (hashKey mapCall.key))) inner
      result) :
    ((tracing hcapacity hashKey).protocol known).Obeys mapCall
      (resume (indexOf hcapacity (hashKey mapCall.key)) cont result) g := by
  cases hcalls with
  | insertRemove key value =>
      cases result with
      | removed output => exact ⟨rfl, .insertPush key value _, hoffers⟩
      | _ => exact hresult.elim
  | insertPush key value replaced =>
      cases result with
      | unit => trivial
      | _ => exact hresult.elim
  | get key =>
      cases result with
      | found found => exact fun value hvalue => explained_found hresult hvalue
      | _ => exact hresult.elim
  | contains key =>
      cases result with
      | bool answer =>
          intro hanswer
          obtain ⟨entry, hknown, hhash⟩ := hresult hanswer
          exact ⟨entry, hknown, beq_iff_eq.mp hhash⟩
      | _ => exact hresult.elim
  | remove key =>
      cases result with
      | removed output =>
          intro value hvalue
          obtain ⟨entry, hentry, rfl⟩ := Option.mem_map.mp hvalue
          have hmem : entry ∈ output := by
            cases output with
            | nil => cases hentry
            | cons first rest =>
                cases hentry
                exact List.mem_cons_self
          obtain ⟨hknown, _, hhash⟩ := hresult entry hmem
          exact ⟨entry, hknown, beq_iff_eq.mp hhash, rfl⟩
      | _ => exact hresult.elim
  | computeFind key value =>
      cases result with
      | found found =>
          cases found with
          | some found =>
              obtain ⟨entry, hknown, hkey, hvalue⟩ := explained_found hresult rfl
              exact ⟨entry, hknown, .inl hkey, hvalue⟩
          | none =>
              refine ⟨fun x hwrites => hwrites.2.elim, fun _ _ _ => ?_⟩
              exact ⟨rfl, .computePush key value, hoffers⟩
      | _ => exact hresult.elim
  | computePush key value =>
      cases result with
      | unit => exact ⟨rfl, .computeFound key value, hoffers⟩
      | _ => exact hresult.elim
  | computeFound key value =>
      cases result with
      | found found =>
          cases found with
          | some found =>
              obtain ⟨entry, hknown, hhash, hvalue⟩ := explained_found hresult rfl
              exact ⟨entry, hknown, .inr (beq_iff_eq.mp hhash), hvalue⟩
          | none => trivial
      | _ => exact hresult.elim

theorem tracing_hosts (hcalls : Calls hashKey mapCall cont inner)
    (hoffers : ∀ x, mapCall.Offers hcapacity hashKey x → known x) :
    Hosts (C := composite capacity V hashKey) ((tracing hcapacity hashKey).protocol known)
      ((SharedList.tracing (some orderFn)).protocol
        (within known (indexOf hcapacity (hashKey mapCall.key))))
      mapCall inner (indexOf hcapacity (hashKey mapCall.key)) cont where
  may := by
    rintro g instr hmay ⟨_, entry⟩ ⟨rfl, hwrites⟩
    exact hmay entry hwrites
  move g instr answer g' hmove entry hreads := hmove (_, entry) ⟨rfl, hreads⟩
  fail _ hfail := hfail
  arrive g label harrive := ⟨rfl, hoffers, inner, hcalls, harrive⟩
  finish g result hfinish := tracing_resume hcalls hoffers result hfinish

theorem map_tracing_sound (hcapacity : capacity ≠ 0) (hashKey : K → UInt64)
    (known : Index capacity × Entry K V → Prop) :
    ((tracing hcapacity hashKey).protocol known).Sound where
  enter := by
    intro mapCall g hoffers
    obtain ⟨cont, inner, hcalls, -, henter⟩ := enter_calls hcapacity hashKey mapCall
    have harrives : ((tracing hcapacity hashKey).protocol known).Obeys mapCall
        (call (indexOf hcapacity (hashKey mapCall.key)) inner cont) g := ⟨rfl, hcalls, hoffers⟩
    rw [← henter] at harrives
    exact harrives
  body := by
    intro mapCall label g hknows
    cases label with
    | call bucket inner cont =>
        obtain ⟨rfl, hcalls, hoffers⟩ := hknows
        refine (tracing_hosts hcalls hoffers).obeys ?_
        exact (SharedList.tracing_sound _ _).enter inner g fun entry => hcalls.offers hoffers
    | within bucket label cont =>
        obtain ⟨rfl, hoffers, inner, hcalls, hlabel⟩ := hknows
        refine (tracing_hosts hcalls hoffers).obeys ?_
        exact (SharedList.tracing_sound _ _).body inner label g hlabel

end Code

/-- What has been brought to a new map has been brought by a call. -/
theorem brought_iff {ι : Type} {history : List (Event ι (Call K V) (Reply V))}
    {x : Index capacity × Entry K V} :
    (tracing hcapacity hashKey).Brought (withCapacity capacity) history x ↔
      ∃ t call, .invoke t call ∈ history ∧ call.Offers hcapacity hashKey x := by
  refine or_iff_right ?_
  rintro ⟨slot, hbears⟩
  have hnone : (withCapacity capacity x.1 : SharedList (Entry K V)).heap.inner slot = none :=
    congrFun (Function.update_eq_self (0 : Slot) fun _ => none) slot
  obtain ⟨node, hnode, -⟩ := hbears
  rw [hnone] at hnode
  cases hnode

/-- **No entry out of thin air.** In every run of any calls on a new map, each entry is in the bucket
of its hash, has the hash of its key and has been brought by an `insert` or a `compute_if_absent`;
and every reply is explained by such entries that have been brought before it. -/
theorem entries_brought {ι : Type} [DecidableEq ι] {config : Config (object capacity V hashKey) ι}
    (hreach : ((object capacity V hashKey).threads ι).Reachable (.initial (withCapacity capacity))
      config) :
    (∀ bucket slot entry, SharedList.Bears ((config.state bucket).heap.inner slot) entry →
      entry.hash = hashKey entry.key ∧ bucket = indexOf hcapacity entry.hash ∧
        ∃ t call, .invoke t call ∈ config.history ∧ call.entry hashKey = some entry) ∧
    ∀ n t call result, config.history[n]? = some (.respond t call result) →
      Explains hcapacity hashKey (fun x => ∃ u other, .invoke u other ∈ config.history.take n ∧
        other.Offers hcapacity hashKey x) call result := by
  obtain ⟨hheld, hexplained⟩ := Tracing.provenance (map_tracing_sound hcapacity hashKey) hreach
  constructor
  · intro bucket slot entry hbears
    obtain ⟨t, call, hmem, hentry, hbucket⟩ := (brought_iff hcapacity hashKey).mp
      (hheld (bucket, entry) ⟨slot, hbears⟩)
    refine ⟨?_, hbucket, t, call, hmem, hentry⟩
    cases call with
    | insert key value | computeIfAbsent key value =>
        cases hentry
        rfl
    | get | contains | remove => cases hentry
  · intro n t call result hresponse
    have hsame : (tracing hcapacity hashKey).Brought (withCapacity capacity)
        (config.history.take n) = fun x => ∃ u other, .invoke u other ∈ config.history.take n ∧
          other.Offers hcapacity hashKey x := by
      ext x
      exact brought_iff hcapacity hashKey
    rw [← hsame]
    exact hexplained n t call result hresponse

/-- A `remove` takes out the value of another key with the same hash. -/
theorem entries_brought_collision :
    ∃ config : Config (object 1 ℕ emptyHash) Bool,
      config.history = [.invoke true (.remove 2), .invoke false (.insert 1 10),
        .respond false (.insert 1 10) (.bool false),
        .respond true (.remove 2) (.found (some 10))] ∧
      Explains (by decide) emptyHash (fun x => ∃ u other, .invoke u other ∈
        ([.invoke true (.remove 2), .invoke false (.insert 1 10),
          .respond false (.insert 1 10) (.bool false)] : List (Event Bool (Call UInt32 ℕ) (Reply ℕ))) ∧
        other.Offers (by decide : (1 : UInt64) ≠ 0) emptyHash x) (.remove 2)
        (.found (some 10)) := by
  obtain ⟨config, hrun, hhistory⟩ : ∃ config : Config (object 1 ℕ emptyHash) Bool,
      ((object 1 ℕ emptyHash).threads Bool).run (.initial (withCapacity 1))
        (.invoke true (.remove 2) :: .tick true :: .invoke false (.insert 1 10) ::
          List.replicate 17 (.tick false) ++ List.replicate 16 (.tick true)) = some config ∧
      config.history = [.invoke true (.remove 2), .invoke false (.insert 1 10),
        .respond false (.insert 1 10) (.bool false),
        .respond true (.remove 2) (.found (some 10))] := ⟨_, rfl, rfl⟩
  have hexplained := (entries_brought (by decide) emptyHash (System.reachable_of_run _ hrun)).2
  rw [hhistory] at hexplained
  exact ⟨config, hhistory, hexplained 3 true _ _ rfl⟩

end Mutual.SharedMap
