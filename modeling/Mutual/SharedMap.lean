import Mutual.Concurrency.Composite
import Mutual.SharedList

/-!
# SharedMap

A map is a fixed number of buckets, each a `SharedList` of entries `(hash, key, value)` ordered by
hash that refuses equal hashes. `capacity` is the number of buckets, which no method changes, and
`hashKey` stands for `hash_key`, the `SipHasher13` hash of a key. The methods search a bucket by
hash, except for `get` and the first search of `compute_if_absent`, which compare keys.
-/

namespace Mutual

open Concurrency

structure Entry (K V : Type) where
  hash : UInt64
  key : K
  value : V
  deriving DecidableEq

namespace SharedMap

variable {K V : Type}

/-- The order function of a bucket: `|old, new| new.0.cmp(&old.0)`. -/
def orderFn (old new : Entry K V) : Ordering := compare new.hash old.hash

def newBucket : SharedList (Entry K V) := { SharedList.new with enforceNoneq := true }

abbrev Bucket (K V : Type) : Object := SharedList.object (some (@orderFn K V))

variable (capacity : UInt64)

abbrev Index : Type := Fin capacity.toNat

abbrev sig (K V : Type) : Signature := partSig (Bucket K V) (Index capacity)

inductive Call (K V : Type) where
  | insert (key : K) (value : V)
  | get (key : K)
  | contains (key : K)
  | remove (key : K)
  /-- `value` is what the closure returns. -/
  | computeIfAbsent (key : K) (value : V)

def Call.key : Call K V → K
  | insert key _ | get key | contains key | remove key | computeIfAbsent key _ => key

inductive Reply (V : Type) where
  | bool (answer : Bool)
  | found (value : Option V)
  | value (value : V)

inductive Cont (K V : Type) where
  /-- `insert`, at `remove_all`. -/
  | insertRemove (entry : Entry K V)
  /-- `insert`, at `push`. -/
  | insertPush (result : Bool)
  | get
  | contains
  | remove
  /-- `compute_if_absent`, at the first `find`. -/
  | computeFind (entry : Entry K V)
  /-- `compute_if_absent`, at `push`. -/
  | computePush (hash : UInt64)
  /-- `compute_if_absent`, at the second `find`. -/
  | computeFound

abbrev Label (K V : Type) : Type := PartLabel (Bucket K V) (Index capacity) (Cont K V)

abbrev Code (K V : Type) : Type := Prog (sig capacity K V) (Label capacity K V ⊕ Reply V)

variable {capacity}

abbrev reply (result : Reply V) : Code capacity K V := .ret (.inr result)

abbrev call (bucket : Index capacity) (call : SharedList.Call (Entry K V)) (cont : Cont K V) :
    Code capacity K V := .ret (.inl (.call bucket call cont))

theorem toNat_mod_lt (hcapacity : capacity ≠ 0) (hash : UInt64) :
    (hash % capacity).toNat < capacity.toNat := by
  have hpos : 0 < capacity.toNat := by
    rw [Nat.pos_iff_ne_zero]
    exact fun hzero => hcapacity (UInt64.toNat_inj.mp hzero)
  rw [UInt64.toNat_mod]
  exact Nat.mod_lt _ hpos

/-- `&self.buckets[(hash % self.capacity) as usize]`. -/
def bucketOf (hash : UInt64) (next : Index capacity → Code capacity K V) : Code capacity K V :=
  if hcapacity : capacity = 0 then
    .panic "attempt to calculate the remainder with a divisor of zero"
  else next ⟨(hash % capacity).toNat, toNat_mod_lt hcapacity hash⟩

section Methods

variable [BEq K] (hashKey : K → UInt64)

def insert (key : K) (value : V) : Code capacity K V :=
  let hash := hashKey key
  bucketOf hash fun bucket =>
    call bucket (SharedList.removeAll fun _ entry => entry.hash == hash)
      (.insertRemove { hash := hash, key := key, value := value })

def get (key : K) : Code capacity K V :=
  bucketOf (hashKey key) fun bucket =>
    call bucket (SharedList.find fun _ entry => entry.key == key) .get

def contains (key : K) : Code capacity K V :=
  let hash := hashKey key
  bucketOf hash fun bucket => call bucket (.any fun entry => entry.hash == hash) .contains

def remove (key : K) : Code capacity K V :=
  let hash := hashKey key
  bucketOf hash fun bucket =>
    call bucket (SharedList.removeSearch fun _ entry => entry.hash == hash) .remove

def computeIfAbsent (key : K) (value : V) : Code capacity K V :=
  let hash := hashKey key
  bucketOf hash fun bucket =>
    call bucket (SharedList.find fun _ entry => entry.key == key)
      (.computeFind { hash := hash, key := key, value := value })

def enter : Call K V → Code capacity K V
  | .insert key value => insert hashKey key value
  | .get key => get hashKey key
  | .contains key => contains hashKey key
  | .remove key => remove hashKey key
  | .computeIfAbsent key value => computeIfAbsent hashKey key value

end Methods

def resume (bucket : Index capacity) : Cont K V → SharedList.Reply (Entry K V) → Code capacity K V
  | .insertRemove entry, .removed output =>
      call bucket (.push entry) (.insertPush (!output.isEmpty))
  | .insertPush result, .unit => reply (.bool result)
  | .get, .found found => reply (.found (found.map fun found => found.2.value))
  | .contains, .bool answer => reply (.bool answer)
  | .remove, .removed output =>
      reply (.found ((SharedList.firstRemoved output).map fun entry => entry.value))
  | .computeFind _, .found (some found) => reply (.value found.2.value)
  | .computeFind entry, .found none =>
      -- the closure runs
      .op (bucket, .callback) fun _ => call bucket (.push entry) (.computePush entry.hash)
  | .computePush hash, .unit =>
      call bucket (SharedList.find fun _ entry => entry.hash == hash) .computeFound
  | .computeFound, .found (some found) => reply (.value found.2.value)
  | .computeFound, .found none => .panic "called `Option::unwrap()` on a `None` value"
  -- a list replies to each call in one way only
  | _, _ => .panic "unreachable"

@[reducible]
def composite [BEq K] (capacity : UInt64) (V : Type) (hashKey : K → UInt64) :
    Composite (Bucket K V) (Index capacity) where
  Call := Call K V
  Cont := Cont K V
  Reply := Reply V
  enter := enter hashKey
  resume := resume

abbrev object [BEq K] (capacity : UInt64) (V : Type) (hashKey : K → UInt64) : Object :=
  (composite capacity V hashKey).object

def withCapacity (capacity : UInt64) : Index capacity → SharedList (Entry K V) := fun _ => newBucket

/-! ### The iterator -/

/-- What `iter()` returns: a `flat_map` over the buckets. `front` is where the iterator of the
current bucket stands. -/
structure Iter (capacity : UInt64) where
  front : Option (Index capacity × Slot)
  rest : List (Index capacity)

def iter : Iter capacity := { front := none, rest := List.finRange capacity.toNat }

abbrev IterCode (capacity : UInt64) (K V : Type) : Type :=
  Prog (sig capacity K V) (PartLabel (Bucket K V) (Index capacity) (List (Index capacity)) ⊕
    Option (Entry K V × Iter capacity))

namespace Iter

def nextBucket : List (Index capacity) → IterCode capacity K V
  | [] => .ret (.inr none)
  | bucket :: rest => .ret (.inl (.call bucket (.iterNext SharedList.headSlot) rest))

def next : Iter capacity → IterCode capacity K V
  | { front := some (bucket, current), rest := rest } =>
      .ret (.inl (.call bucket (.iterNext current) rest))
  | { front := none, rest := rest } => nextBucket rest

def resume (bucket : Index capacity) (rest : List (Index capacity)) :
    SharedList.Reply (Entry K V) → IterCode capacity K V
  | .yielded (some (entry, current)) =>
      .ret (.inr (some (entry, { front := some (bucket, current), rest := rest })))
  | .yielded none => nextBucket rest
  | _ => .panic "unreachable"

@[reducible]
def composite (capacity : UInt64) (K V : Type) : Composite (Bucket K V) (Index capacity) where
  Call := Iter capacity
  Cont := List (Index capacity)
  Reply := Option (Entry K V × Iter capacity)
  enter := next
  resume := resume

abbrev object (capacity : UInt64) (K V : Type) : Object := (composite capacity K V).object

end Iter

end SharedMap

end Mutual
