import Mathlib.Logic.Function.Basic

/-!
# What a SharedMap is for

A map, given by what it holds for each key. Keys are told apart by `==`.
-/

namespace Mutual

abbrev PlainMap (K V : Type) : Type := K → Option V

variable {K V : Type}

inductive MapOp (K V : Type) where
  | insert (key : K) (value : V)
  | get (key : K)
  | contains (key : K)
  | remove (key : K)
  | computeIfAbsent (key : K) (value : V)
  | iter

def MapOp.key : MapOp K V → Option K
  | insert key _ | get key | contains key | remove key | computeIfAbsent key _ => some key
  | iter => none

inductive MapAnswer (K V : Type) where
  | bool (answer : Bool)
  | found (value : Option V)
  /-- The value returned, and whether the closure has run. -/
  | computed (value : V) (called : Bool)
  | entries (entries : List (K × V))

namespace PlainMap

def empty : PlainMap K V := fun _ => none

variable [BEq K]

def put (map : PlainMap K V) (key : K) (value : V) : PlainMap K V :=
  fun other => if other == key then some value else map other

def erase (map : PlainMap K V) (key : K) : PlainMap K V :=
  fun other => if other == key then none else map other

/-- What is in the map, each entry once. -/
structure Lists (map : PlainMap K V) (entries : List (K × V)) : Prop where
  once : entries.Pairwise fun left right => (left.1 == right.1) = false
  mem_iff : ∀ key value,
    map key = some value ↔ ∃ entry ∈ entries, (entry.1 == key) = true ∧ entry.2 = value

inductive Step : PlainMap K V → MapOp K V → MapAnswer K V → PlainMap K V → Prop
  | insert {map : PlainMap K V} {key : K} {value : V} :
      Step map (.insert key value) (.bool (map key).isSome) (map.put key value)
  | get {map : PlainMap K V} {key : K} : Step map (.get key) (.found (map key)) map
  | contains {map : PlainMap K V} {key : K} :
      Step map (.contains key) (.bool (map key).isSome) map
  | remove {map : PlainMap K V} {key : K} :
      Step map (.remove key) (.found (map key)) (map.erase key)
  | present {map : PlainMap K V} {key : K} {value held : V} : map key = some held →
      Step map (.computeIfAbsent key value) (.computed held false) map
  | absent {map : PlainMap K V} {key : K} {value : V} : map key = none →
      Step map (.computeIfAbsent key value) (.computed value true) (map.put key value)
  | iter {map : PlainMap K V} {entries : List (K × V)} : map.Lists entries →
      Step map .iter (.entries entries) map

inductive Run : PlainMap K V → List (MapOp K V) → List (MapAnswer K V) → PlainMap K V → Prop
  | nil {map : PlainMap K V} : Run map [] [] map
  | cons {map next final : PlainMap K V} {op : MapOp K V} {ops : List (MapOp K V)}
      {answer : MapAnswer K V} {answers : List (MapAnswer K V)} : Step map op answer next →
      Run next ops answers final → Run map (op :: ops) (answer :: answers) final

end PlainMap

end Mutual
