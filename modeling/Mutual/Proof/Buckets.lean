import Mathlib.Data.List.Nodup
import Mathlib.Order.Basic
import Mutual.Proof.Sequential
import Mutual.SharedMap

/-!
# Buckets

A bucket holds its entries in the order of their hashes, each hash once. Each entry is in the bucket
its hash selects and has the hash of its key.
-/

namespace Mutual.SharedMap

open Concurrency

variable {K V : Type}

/-! ### The entries of one bucket -/

/-- The hashes get strictly larger. -/
def Ascending (entries : List (Entry K V)) : Prop := entries.Pairwise fun a b => a.hash < b.hash

section Order

variable {old new : Entry K V}

theorem orderFn_eq_lt : orderFn old new = .lt ↔ new.hash < old.hash := compareOfLessAndEq_eq_lt

theorem orderFn_eq_eq : orderFn old new = .eq ↔ new.hash = old.hash :=
  Std.LawfulEqOrd.compare_eq_iff_eq

theorem orderFn_eq_gt : orderFn old new = .gt ↔ old.hash < new.hash := by
  have hswap : compare new.hash old.hash = .gt ↔ compare old.hash new.hash = .lt :=
    Std.OrientedCmp.gt_iff_lt
  exact hswap.trans compareOfLessAndEq_eq_lt

end Order

namespace Ascending

variable {entries : List (Entry K V)}

theorem eq_of_hash (hentries : Ascending entries) {left right : Entry K V} (hleft : left ∈ entries)
    (hright : right ∈ entries) (hhash : left.hash = right.hash) : left = right := by
  have hnodup : (entries.map Entry.hash).Nodup := by
    rw [List.Nodup, List.pairwise_map]
    exact hentries.imp UInt64.ne_of_lt
  exact List.inj_on_of_nodup_map hnodup hleft hright hhash

theorem find_hash (hentries : Ascending entries) {entry : Entry K V} (hentry : entry ∈ entries)
    {hash : UInt64} (hhash : entry.hash = hash) :
    entries.find? (fun entry => entry.hash == hash) = some entry := by
  obtain ⟨found, hfound⟩ : ∃ found, entries.find? (fun entry => entry.hash == hash) = some found := by
    rw [← Option.isSome_iff_exists, List.find?_isSome]
    exact ⟨entry, hentry, beq_iff_eq.mpr hhash⟩
  have hfoundHash := List.find?_some hfound
  rw [beq_iff_eq, ← hhash] at hfoundHash
  rw [hfound, hentries.eq_of_hash (List.mem_of_find?_eq_some hfound) hentry hfoundHash]

theorem filter (hentries : Ascending entries) (func : Entry K V → Bool) :
    Ascending (entries.filter func) := List.Pairwise.filter func hentries

theorem length_filter_le (hentries : Ascending entries) (hash : UInt64) :
    (entries.filter fun entry => entry.hash == hash).length ≤ 1 := by
  have hascending := hentries.filter fun entry => entry.hash == hash
  have hmem : ∀ entry ∈ entries.filter fun entry => entry.hash == hash, entry.hash = hash := by
    intro entry hentry
    simpa using (List.mem_filter.mp hentry).2
  generalize entries.filter (fun entry => entry.hash == hash) = matching at hascending hmem
  match matching with
  | [] => exact Nat.zero_le 1
  | [_] => exact Nat.le_refl 1
  | first :: second :: rest =>
      have hlt := List.rel_of_pairwise_cons hascending List.mem_cons_self
      rw [hmem first (by simp), hmem second (by simp)] at hlt
      exact absurd hlt (UInt64.lt_irrefl hash)

end Ascending

section Insert

variable {entries : List (Entry K V)} {entry : Entry K V}

theorem mem_of_mem_insertOrdered {other : Entry K V}
    (hmem : other ∈ insertOrdered orderFn true entry entries) : other = entry ∨ other ∈ entries := by
  induction entries with
  | nil => exact .inl (List.mem_singleton.mp hmem)
  | cons first rest ih =>
      rw [insertOrdered] at hmem
      split at hmem
      · exact .inr hmem
      · split at hmem
        · exact List.mem_cons.mp hmem
        · rcases List.mem_cons.mp hmem with rfl | hrest
          · exact .inr List.mem_cons_self
          · exact (ih hrest).imp_right (List.mem_cons_of_mem first)

theorem insertOrdered_ascending (hentries : Ascending entries) :
    Ascending (insertOrdered orderFn true entry entries) := by
  induction entries with
  | nil => exact List.pairwise_singleton ..
  | cons first rest ih =>
      obtain ⟨hfirst, hrest⟩ := List.pairwise_cons.mp hentries
      by_cases heq : entry.hash = first.hash
      · have hinsert : insertOrdered orderFn true entry (first :: rest) = first :: rest := by
          simp [insertOrdered, orderFn_eq_eq, heq]
        rw [hinsert]
        exact hentries
      · by_cases hlt : entry.hash < first.hash
        · have hinsert : insertOrdered orderFn true entry (first :: rest) =
              entry :: first :: rest := by
            simp [insertOrdered, orderFn_eq_eq, orderFn_eq_lt, heq, hlt]
          rw [hinsert]
          refine List.pairwise_cons.mpr ⟨?_, hentries⟩
          intro other hother
          rcases List.mem_cons.mp hother with rfl | hmem
          · exact hlt
          · exact UInt64.lt_trans hlt (hfirst other hmem)
        · have hinsert : insertOrdered orderFn true entry (first :: rest) =
              first :: insertOrdered orderFn true entry rest := by
            simp [insertOrdered, orderFn_eq_eq, orderFn_eq_lt, heq, hlt]
          rw [hinsert]
          refine List.pairwise_cons.mpr ⟨?_, ih hrest⟩
          intro other hother
          rcases mem_of_mem_insertOrdered hother with rfl | hmem
          · exact UInt64.lt_of_le_of_ne (UInt64.not_lt.mp hlt) (Ne.symm heq)
          · exact hfirst other hmem

theorem mem_insertOrdered (hfresh : ∀ other ∈ entries, other.hash ≠ entry.hash) {other : Entry K V} :
    other ∈ insertOrdered orderFn true entry entries ↔ other = entry ∨ other ∈ entries := by
  refine ⟨mem_of_mem_insertOrdered, ?_⟩
  intro hmem
  induction entries with
  | nil => simpa [insertOrdered] using hmem
  | cons first rest ih =>
      have hne : entry.hash ≠ first.hash := (hfresh first List.mem_cons_self).symm
      have hrest := ih fun other hother => hfresh other (List.mem_cons_of_mem first hother)
      by_cases hlt : entry.hash < first.hash
      · simpa [insertOrdered, orderFn_eq_eq, orderFn_eq_lt, hne, hlt] using hmem
      · have hinsert : insertOrdered orderFn true entry (first :: rest) =
            first :: insertOrdered orderFn true entry rest := by
          simp [insertOrdered, orderFn_eq_eq, orderFn_eq_lt, hne, hlt]
        rw [hinsert, List.mem_cons]
        rcases hmem with rfl | hmem
        · exact .inr (hrest (.inl rfl))
        · exact (List.mem_cons.mp hmem).imp_right fun hmem => hrest (.inr hmem)

end Insert

/-! ### The entries of a map -/

variable {capacity : UInt64}

abbrev Contents (capacity : UInt64) (K V : Type) : Type := Index capacity → List (Entry K V)

def indexOf (hcapacity : capacity ≠ 0) (hash : UInt64) : Index capacity :=
  ⟨(hash % capacity).toNat, toNat_mod_lt hcapacity hash⟩

theorem bucketOf_eq (hcapacity : capacity ≠ 0) (hash : UInt64)
    (next : Index capacity → Code capacity K V) :
    bucketOf hash next = next (indexOf hcapacity hash) := dif_neg hcapacity

/-- All buckets are at rest with the given entries. -/
def Shows (state : Index capacity → SharedList (Entry K V)) (contents : Contents capacity K V) :
    Prop :=
  ∀ bucket, (state bucket).Shows { elements := contents bucket, noneq := true }

/-- **The bucket invariant.** Each entry is in the bucket its hash selects. -/
structure TidyBucket (hashKey : K → UInt64) (bucket : Index capacity)
    (entries : List (Entry K V)) : Prop where
  hash : ∀ entry ∈ entries, entry.hash = hashKey entry.key
  index : ∀ entry ∈ entries, (entry.hash % capacity).toNat = bucket
  ascending : Ascending entries

def Tidy (hashKey : K → UInt64) (contents : Contents capacity K V) : Prop :=
  ∀ bucket, TidyBucket hashKey bucket (contents bucket)

theorem Shows.update {state : Index capacity → SharedList (Entry K V)}
    {contents : Contents capacity K V} (hshows : Shows state contents) (bucket : Index capacity)
    {list : SharedList (Entry K V)} {entries : List (Entry K V)}
    (hlist : list.Shows { elements := entries, noneq := true }) :
    Shows (Function.update state bucket list) (Function.update contents bucket entries) := by
  intro other
  by_cases hother : other = bucket
  · subst hother
    rw [Function.update_self, Function.update_self]
    exact hlist
  · rw [Function.update_of_ne hother, Function.update_of_ne hother]
    exact hshows other

section Tidy

variable {hashKey : K → UInt64} {contents : Contents capacity K V} {bucket : Index capacity}
  {entries : List (Entry K V)}

theorem Tidy.update (htidy : Tidy hashKey contents) (hbucket : TidyBucket hashKey bucket entries) :
    Tidy hashKey (Function.update contents bucket entries) :=
  (Function.forall_update_iff contents (TidyBucket hashKey)).mpr ⟨hbucket, fun other _ => htidy other⟩

theorem Tidy.empty : Tidy hashKey (fun _ => [] : Contents capacity K V) := by
  intro bucket
  refine ⟨?_, ?_, .nil⟩
  all_goals
    intro entry hentry
    exact absurd hentry List.not_mem_nil

theorem TidyBucket.filter (hbucket : TidyBucket hashKey bucket entries)
    (func : Entry K V → Bool) : TidyBucket hashKey bucket (entries.filter func) where
  hash entry hentry := hbucket.hash entry (List.mem_of_mem_filter hentry)
  index entry hentry := hbucket.index entry (List.mem_of_mem_filter hentry)
  ascending := hbucket.ascending.filter func

theorem TidyBucket.push (hbucket : TidyBucket hashKey bucket entries) {entry : Entry K V}
    (hhash : entry.hash = hashKey entry.key) (hindex : (entry.hash % capacity).toNat = bucket) :
    TidyBucket hashKey bucket (insertOrdered orderFn true entry entries) where
  hash other hother := by
    rcases mem_of_mem_insertOrdered hother with rfl | hmem
    · exact hhash
    · exact hbucket.hash other hmem
  index other hother := by
    rcases mem_of_mem_insertOrdered hother with rfl | hmem
    · exact hindex
    · exact hbucket.index other hmem
  ascending := insertOrdered_ascending hbucket.ascending

end Tidy

/-! ### One call -/

section Calls

variable {hashKey : K → UInt64} {state : Index capacity → SharedList (Entry K V)}
  {contents : Contents capacity K V}

/-- A search by a predicate that does not depend on what it has seen. -/
theorem find_completes (hshows : Shows state contents) (bucket : Index capacity)
    (func : Entry K V → Bool) :
    ∃ found, (Bucket K V).Completes (state bucket)
        (SharedList.enter (some orderFn) (SharedList.find fun _ => func)) (state bucket)
        (.found found) ∧
      found.map Prod.snd = (contents bucket).find? func :=
  ⟨_, SharedList.search_completes (some orderFn) (hshows bucket) fun _ => func,
    firstMatch_find func [] _⟩

/-- The entries with a hash are taken out of a bucket, where there is one at most. -/
theorem removeHash_completes {list : SharedList (Entry K V)} {entries : List (Entry K V)}
    (hlist : list.Shows { elements := entries, noneq := true }) (hentries : Ascending entries)
    (hash : UInt64) {count : UInt32} (hcount : 1 ≤ count.toNat) :
    ∃ after, (Bucket K V).Completes list
        (SharedList.enter (some orderFn) (.removeCount (fun _ entry => entry.hash == hash) count))
        after (.removed (entries.filter fun entry => entry.hash == hash)) ∧
      after.Shows
        { elements := entries.filter fun entry => !entry.hash == hash, noneq := true } := by
  have hlength := hentries.length_filter_le hash
  have htake : takeOut (fun _ entry => entry.hash == hash) [] count.toNat entries =
      (entries.filter fun entry => entry.hash == hash,
        entries.filter fun entry => !entry.hash == hash) :=
    takeOut_eq_filter _ _ _ _ (Nat.le_trans hlength hcount)
  obtain ⟨after, hrun, hafter⟩ := SharedList.removeCount_completes (some orderFn) hlist
    (fun _ entry => entry.hash == hash) count
  rw [PlainList.removeCount, htake] at hrun hafter
  exact ⟨after, hrun, hafter⟩

/-- The bucket of an entry after `insert`. -/
def put (entry : Entry K V) (entries : List (Entry K V)) : List (Entry K V) :=
  insertOrdered orderFn true entry (entries.filter fun other => !other.hash == entry.hash)

theorem any_eq_not_isEmpty_filter (entries : List (Entry K V)) (func : Entry K V → Bool) :
    entries.any func = !(entries.filter func).isEmpty := by
  rw [Bool.eq_iff_iff]
  simp [List.filter_eq_nil_iff]

/-- The second search of `compute_if_absent` finds an entry, be it the one just pushed or one that
has kept it out. -/
theorem exists_hash_insertOrdered (entry : Entry K V) (entries : List (Entry K V)) :
    ∃ held ∈ insertOrdered orderFn true entry entries, held.hash = entry.hash := by
  induction entries with
  | nil => exact ⟨entry, List.mem_singleton_self entry, rfl⟩
  | cons first rest ih =>
      by_cases heq : entry.hash = first.hash
      · refine ⟨first, ?_, heq.symm⟩
        simp [insertOrdered, orderFn_eq_eq, heq]
      · by_cases hlt : entry.hash < first.hash
        · refine ⟨entry, ?_, rfl⟩
          simp [insertOrdered, orderFn_eq_eq, orderFn_eq_lt, heq, hlt]
        · obtain ⟨held, hheld, hhash⟩ := ih
          refine ⟨held, ?_, hhash⟩
          simp [insertOrdered, orderFn_eq_eq, orderFn_eq_lt, heq, hlt, hheld]

variable [BEq K]

def lookup (hcapacity : capacity ≠ 0) (hashKey : K → UInt64) (contents : Contents capacity K V)
    (key : K) : Option V :=
  ((contents (indexOf hcapacity (hashKey key))).find? fun entry => entry.key == key).map Entry.value

theorem completes_call {bucket : Index capacity} {listCall : SharedList.Call (Entry K V)}
    {cont : Cont K V} {after : SharedList (Entry K V)} {listReply : SharedList.Reply (Entry K V)}
    {final : Index capacity → SharedList (Entry K V)} {result : Reply V}
    (hrun : (Bucket K V).Completes (state bucket) (SharedList.enter (some orderFn) listCall) after
      listReply) :
    (object capacity V hashKey).Completes state (call bucket listCall cont) final result ↔
      (object capacity V hashKey).Completes (Function.update state bucket after)
        (resume bucket cont listReply) final result :=
  Composite.completes_call.trans (Composite.completes_within hrun)

theorem get_completes (hcapacity : capacity ≠ 0) (hshows : Shows state contents) (key : K) :
    (object capacity V hashKey).Completes state (enter hashKey (.get key)) state
      (.found (lookup hcapacity hashKey contents key)) := by
  obtain ⟨found, hfind, hfound⟩ := find_completes hshows (indexOf hcapacity (hashKey key))
    fun entry => entry.key == key
  have hvalue : found.map (fun found => found.2.value) = lookup hcapacity hashKey contents key := by
    rw [lookup, ← hfound, Option.map_map]
    rfl
  rw [enter, get, bucketOf_eq hcapacity]
  refine (completes_call hfind).mpr ?_
  rw [Function.update_eq_self, resume, hvalue]
  exact Object.completes_reply.mpr ⟨rfl, rfl⟩

theorem insert_completes (hcapacity : capacity ≠ 0) (hshows : Shows state contents)
    (htidy : Tidy hashKey contents) (key : K) (value : V) :
    let bucket := indexOf hcapacity (hashKey key)
    let entry : Entry K V := { hash := hashKey key, key := key, value := value }
    ∃ final, (object capacity V hashKey).Completes state (enter hashKey (.insert key value)) final
        (.bool ((contents bucket).any fun other => other.hash == entry.hash)) ∧
      Shows final (Function.update contents bucket (put entry (contents bucket))) := by
  intro bucket entry
  have hcount : 1 ≤ (0xFFFFFFFF : UInt32).toNat := by decide
  obtain ⟨removed, hremove, hremoved⟩ :=
    removeHash_completes (hshows bucket) (htidy bucket).ascending entry.hash hcount
  obtain ⟨pushed, hpush, hpushed⟩ := SharedList.push_completes (some orderFn) hremoved entry
  have hthen : (Bucket K V).Completes ((Function.update state bucket removed) bucket)
      (SharedList.enter (some orderFn) (.push entry)) pushed .unit := by
    rw [Function.update_self]
    exact hpush
  refine ⟨Function.update state bucket pushed, ?_, hshows.update bucket hpushed⟩
  rw [enter, insert, bucketOf_eq hcapacity]
  refine (completes_call hremove).mpr ((completes_call hthen).mpr ?_)
  rw [Function.update_idem, any_eq_not_isEmpty_filter]
  exact Object.completes_reply.mpr ⟨rfl, rfl⟩

theorem contains_completes (hcapacity : capacity ≠ 0) (hshows : Shows state contents) (key : K) :
    (object capacity V hashKey).Completes state (enter hashKey (.contains key)) state
      (.bool ((contents (indexOf hcapacity (hashKey key))).any fun entry =>
        entry.hash == hashKey key)) := by
  have hany := SharedList.any_completes (some orderFn) (hshows (indexOf hcapacity (hashKey key)))
    fun entry => entry.hash == hashKey key
  rw [enter, contains, bucketOf_eq hcapacity]
  refine (completes_call hany).mpr ?_
  rw [Function.update_eq_self]
  exact Object.completes_reply.mpr ⟨rfl, rfl⟩

theorem remove_completes (hcapacity : capacity ≠ 0) (hshows : Shows state contents)
    (htidy : Tidy hashKey contents) (key : K) :
    let bucket := indexOf hcapacity (hashKey key)
    ∃ final, (object capacity V hashKey).Completes state (enter hashKey (.remove key)) final
        (.found (((contents bucket).find? fun entry => entry.hash == hashKey key).map
          Entry.value)) ∧
      Shows final (Function.update contents bucket
        ((contents bucket).filter fun entry => !entry.hash == hashKey key)) := by
  intro bucket
  have hcount : 1 ≤ (1 : UInt32).toNat := by decide
  obtain ⟨removed, hremove, hremoved⟩ :=
    removeHash_completes (hshows bucket) (htidy bucket).ascending (hashKey key) hcount
  refine ⟨Function.update state bucket removed, ?_, hshows.update bucket hremoved⟩
  rw [enter, remove, bucketOf_eq hcapacity]
  refine (completes_call hremove).mpr ?_
  rw [resume, SharedList.firstRemoved_eq_head?, List.head?_filter]
  exact Object.completes_reply.mpr ⟨rfl, rfl⟩

/-! ### The closure of `compute_if_absent` -/

/-- The code runs the closure next. -/
def RunsClosure (code : Code capacity K V) (_ : Unit) : Prop :=
  ∃ bucket entry, code = resume bucket (.computeFind entry) (.found none)

/-- What comes after the closure does not come after anything a bucket does. -/
theorem within_ne_computePush {cont : Cont K V} {hash : UInt64} {bucket bucket' : Index capacity}
    {listCall : SharedList.Call (Entry K V)} (inside : (Bucket K V).Code) :
    (composite capacity V hashKey).within bucket cont inside ≠
      call bucket' listCall (.computePush hash) := by
  intro heq
  match inside with
  | .ret (.inl label) => cases heq
  | .ret (.inr reply) =>
      change resume bucket cont reply = _ at heq
      unfold resume at heq
      split at heq <;> cases heq
  | .panic message => cases heq
  | .op instr next => cases heq

/-- A bucket at work is not where the closure runs. -/
theorem within_ne_closure {cont : Cont K V} {entry : Entry K V} {bucket bucket' : Index capacity}
    {inside : (Bucket K V).Code} (hinside : ∀ reply, inside ≠ (Bucket K V).reply reply) :
    resume bucket' (.computeFind entry) (.found none) ≠
      (composite capacity V hashKey).within bucket cont inside := by
  intro heq
  match inside with
  | .ret (.inl label) => cases heq
  | .ret (.inr reply) => exact hinside reply rfl
  | .panic message => cases heq
  | .op instr next =>
      obtain ⟨hinstr, hnext⟩ := Prog.op.inj heq
      cases hinstr
      have hthen := congrFun (eq_of_heq hnext) ()
      exact within_ne_computePush _ hthen.symm

omit [BEq K] in
theorem not_runsClosure_call {bucket : Index capacity} {listCall : SharedList.Call (Entry K V)}
    {cont : Cont K V} (event : Unit) : ¬ RunsClosure (call bucket listCall cont) event := by
  rintro ⟨bucket', entry, heq⟩
  cases heq

/-- The closure does not run in a method of a bucket. -/
theorem traces_call {bucket : Index capacity} {listCall : SharedList.Call (Entry K V)}
    {cont : Cont K V} {after : SharedList (Entry K V)} {listReply : SharedList.Reply (Entry K V)}
    {log : List Unit} {target : (object capacity V hashKey).State × (object capacity V hashKey).Code}
    (hrun : (Bucket K V).Completes (state bucket) (SharedList.enter (some orderFn) listCall) after
      listReply)
    (hrest : (object capacity V hashKey).Traces RunsClosure
      (Function.update state bucket after, resume bucket cont listReply) log target) :
    (object capacity V hashKey).Traces RunsClosure (state, call bucket listCall cont) log target := by
  refine Composite.traces_call not_runsClosure_call ?_ hrun hrest
  rintro inside hinside event ⟨bucket', entry, heq⟩
  exact within_ne_closure hinside heq.symm

theorem computeIfAbsent_present_traces (hcapacity : capacity ≠ 0) (hshows : Shows state contents)
    (key : K) {held : V} (hheld : lookup hcapacity hashKey contents key = some held) (value : V) :
    (object capacity V hashKey).Traces RunsClosure
      (state, enter hashKey (.computeIfAbsent key value)) [] (state, reply (.value held)) := by
  obtain ⟨found, hfind, hfound⟩ := find_completes hshows (indexOf hcapacity (hashKey key))
    fun entry => entry.key == key
  rw [lookup, ← hfound, Option.map_map] at hheld
  obtain ⟨entry, rfl, rfl⟩ := Option.map_eq_some_iff.mp hheld
  rw [enter, computeIfAbsent, bucketOf_eq hcapacity]
  refine traces_call hfind ?_
  rw [Function.update_eq_self]
  exact .refl

theorem computeIfAbsent_present (hcapacity : capacity ≠ 0) (hshows : Shows state contents) (key : K)
    {held : V} (hheld : lookup hcapacity hashKey contents key = some held) (value : V) :
    (object capacity V hashKey).Completes state (enter hashKey (.computeIfAbsent key value)) state
      (.value held) :=
  (computeIfAbsent_present_traces hcapacity hshows key hheld value).completes

/-- The closure runs once. -/
theorem computeIfAbsent_absent_traces (hcapacity : capacity ≠ 0) (hshows : Shows state contents)
    (key : K) (hlookup : lookup hcapacity hashKey contents key = none) (value : V) :
    let bucket := indexOf hcapacity (hashKey key)
    let entry : Entry K V := { hash := hashKey key, key := key, value := value }
    let entries := insertOrdered orderFn true entry (contents bucket)
    ∃ final, ∃ held ∈ entries, held.hash = entry.hash ∧
      (object capacity V hashKey).Traces RunsClosure
        (state, enter hashKey (.computeIfAbsent key value)) [()] (final, reply (.value held.value)) ∧
      Shows final (Function.update contents bucket entries) := by
  intro bucket entry entries
  obtain ⟨found, hfind, hfound⟩ := find_completes hshows bucket fun entry => entry.key == key
  have hnone : found = none := by
    rw [lookup, ← hfound, Option.map_map] at hlookup
    exact Option.map_eq_none_iff.mp hlookup
  subst hnone
  obtain ⟨pushed, hpush, hpushed⟩ := SharedList.push_completes (some orderFn) (hshows bucket) entry
  have hfinal : Shows (Function.update state bucket pushed)
      (Function.update contents bucket entries) := hshows.update bucket hpushed
  obtain ⟨second, hsecond, hsome⟩ := find_completes hfinal bucket
    fun other => other.hash == entry.hash
  rw [Function.update_self] at hsome
  obtain ⟨held, hfirst⟩ : ∃ held, entries.find? (fun other => other.hash == entry.hash) = some held := by
    rw [← Option.isSome_iff_exists, List.find?_isSome]
    obtain ⟨held, hmem, hhash⟩ := exists_hash_insertOrdered entry (contents bucket)
    exact ⟨held, hmem, beq_iff_eq.mpr hhash⟩
  obtain ⟨found, rfl, rfl⟩ := Option.map_eq_some_iff.mp (hsome.trans hfirst)
  have hcallback : (object capacity V hashKey).exec (bucket, SharedList.Instr.callback) state =
      (state, some ()) := by
    simp [Composite.exec, SharedList.exec]
  have hhash := List.find?_some hfirst
  refine ⟨_, found.2, List.mem_of_find?_eq_some hfirst, beq_iff_eq.mp hhash, ?_, hfinal⟩
  rw [enter, computeIfAbsent, bucketOf_eq hcapacity]
  refine traces_call hfind ?_
  rw [Function.update_eq_self]
  refine .tell_op ⟨bucket, entry, rfl⟩ hcallback (traces_call hpush (traces_call hsecond ?_))
  rw [Function.update_eq_self]
  exact .refl

theorem computeIfAbsent_absent (hcapacity : capacity ≠ 0) (hshows : Shows state contents) (key : K)
    (hlookup : lookup hcapacity hashKey contents key = none) (value : V) :
    let bucket := indexOf hcapacity (hashKey key)
    let entry : Entry K V := { hash := hashKey key, key := key, value := value }
    let entries := insertOrdered orderFn true entry (contents bucket)
    ∃ final, ∃ held ∈ entries, held.hash = entry.hash ∧
      (object capacity V hashKey).Completes state (enter hashKey (.computeIfAbsent key value)) final
        (.value held.value) ∧
      Shows final (Function.update contents bucket entries) := by
  intro bucket entry entries
  obtain ⟨final, held, hheld, hhash, hrun, hfinal⟩ :=
    computeIfAbsent_absent_traces hcapacity hshows key hlookup value
  exact ⟨final, held, hheld, hhash, hrun.completes, hfinal⟩

end Calls

end Mutual.SharedMap
