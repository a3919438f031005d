import Mutual.PlainMap

/-!
# What a SharedMap is where keys collide

A table with one place for each hash. The place holds the key that came last, and `contains` and
`remove` take it for any key with that hash.
-/

namespace Mutual

abbrev HashTable (K V : Type) : Type := UInt64 → Option (K × V)

namespace HashTable

variable {K V : Type}

def empty : HashTable K V := fun _ => none

/-- The order of an iterator over `capacity` buckets. -/
def Precedes (capacity left right : UInt64) : Prop :=
  left % capacity < right % capacity ∨ left % capacity = right % capacity ∧ left < right

/-- What is in the table, in the order of an iterator. -/
structure Lists (capacity : UInt64) (hashKey : K → UInt64) (table : HashTable K V)
    (entries : List (K × V)) : Prop where
  ordered : entries.Pairwise fun left right =>
    Precedes capacity (hashKey left.1) (hashKey right.1)
  mem_iff : ∀ entry, entry ∈ entries ↔ table (hashKey entry.1) = some entry

variable [BEq K]

inductive Step (capacity : UInt64) (hashKey : K → UInt64) :
    HashTable K V → MapOp K V → MapAnswer K V → HashTable K V → Prop
  | insert {table : HashTable K V} {key : K} {value : V} :
      Step capacity hashKey table (.insert key value) (.bool (table (hashKey key)).isSome)
        (Function.update table (hashKey key) (some (key, value)))
  | get {table : HashTable K V} {key : K} :
      Step capacity hashKey table (.get key)
        (.found (((table (hashKey key)).filter fun held => held.1 == key).map Prod.snd)) table
  | contains {table : HashTable K V} {key : K} :
      Step capacity hashKey table (.contains key) (.bool (table (hashKey key)).isSome) table
  | remove {table : HashTable K V} {key : K} :
      Step capacity hashKey table (.remove key) (.found ((table (hashKey key)).map Prod.snd))
        (Function.update table (hashKey key) none)
  | present {table : HashTable K V} {key : K} {value : V} {held : K × V} :
      table (hashKey key) = some held → (held.1 == key) = true →
      Step capacity hashKey table (.computeIfAbsent key value) (.computed held.2 false) table
  /-- The closure runs, and what it returns is dropped. -/
  | taken {table : HashTable K V} {key : K} {value : V} {held : K × V} :
      table (hashKey key) = some held → (held.1 == key) = false →
      Step capacity hashKey table (.computeIfAbsent key value) (.computed held.2 true) table
  | absent {table : HashTable K V} {key : K} {value : V} : table (hashKey key) = none →
      Step capacity hashKey table (.computeIfAbsent key value) (.computed value true)
        (Function.update table (hashKey key) (some (key, value)))
  | iter {table : HashTable K V} {entries : List (K × V)} :
      table.Lists capacity hashKey entries →
      Step capacity hashKey table .iter (.entries entries) table

inductive Run (capacity : UInt64) (hashKey : K → UInt64) :
    HashTable K V → List (MapOp K V) → List (MapAnswer K V) → HashTable K V → Prop
  | nil {table : HashTable K V} : Run capacity hashKey table [] [] table
  | cons {table next final : HashTable K V} {op : MapOp K V} {ops : List (MapOp K V)}
      {answer : MapAnswer K V} {answers : List (MapAnswer K V)} :
      Step capacity hashKey table op answer next → Run capacity hashKey next ops answers final →
      Run capacity hashKey table (op :: ops) (answer :: answers) final

end HashTable

end Mutual
