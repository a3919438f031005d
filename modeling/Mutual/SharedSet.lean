import Mutual.SharedMap

/-!
# SharedSet

A wrapper around a `SharedMap` from the elements to `()`. Each method makes one call of the map.
-/

namespace Mutual.SharedSet

open Concurrency SharedMap

inductive Call (T : Type) where
  | insert (data : T)
  | contains (data : T)
  | remove (data : T)

inductive Reply where
  | unit
  | bool (answer : Bool)
  deriving DecidableEq

variable {T : Type}

def withCapacity (capacity : UInt64) : Index capacity → SharedList (Entry T Unit) :=
  SharedMap.withCapacity capacity

namespace Call

/-- The call of the map that a method makes. -/
def inner : Call T → SharedMap.Call T Unit
  | insert data => .insert data ()
  | contains data => .contains data
  | remove data => .remove data

/-- What a method makes of the reply of the map. -/
def result : Call T → SharedMap.Reply Unit → Reply
  | contains _, .bool answer => .bool answer
  | remove _, .found found => .bool found.isSome
  | _, _ => .unit

end Call

/-- The calls of one thread on its own. -/
inductive Executes [BEq T] {capacity : UInt64} (hashKey : T → UInt64) :
    (Index capacity → SharedList (Entry T Unit)) → List (Call T) → List Reply →
      (Index capacity → SharedList (Entry T Unit)) → Prop
  | nil {state : Index capacity → SharedList (Entry T Unit)} : Executes hashKey state [] [] state
  | cons {state next final : Index capacity → SharedList (Entry T Unit)} {call : Call T}
      {calls : List (Call T)} {reply : SharedMap.Reply Unit} {results : List Reply} :
      (object capacity Unit hashKey).Completes state (enter hashKey call.inner) next reply →
      Executes hashKey next calls results final →
      Executes hashKey state (call :: calls) (call.result reply :: results) final

end Mutual.SharedSet
