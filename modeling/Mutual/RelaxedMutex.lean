import Mutual.Concurrency.Transition

/-!
# RelaxedMutex

`lock_ref` and `lock_cast_ref` run `create_ref_lock`, `lock_mut` and `lock_cast_mut` run
`create_mut_lock`. Threads share the counter `refs` and the flag `locked`; a thread is between
atomic accesses of these methods or of the `Drop` of a guard. A guard is live from the last access
of its lock call to the first access of its `Drop`, and may be sent to another thread in between, so
the live guards are counted by kind.

A guard holds a clone of the `Arc` of the mutex, and cloning aborts long before the count of clones
gets to `2 ^ 64`, so the increments of `refs` do not wrap. A decrement of `0` would.
-/

namespace Mutual.RelaxedMutex

open Concurrency

/-- `RefGuard` and `MutGuard`, or with `cast` the `RefCastGuard` and the `MutCastGuard`. -/
inductive Guard where
  | refGuard (cast : Bool)
  | mutGuard (cast : Bool)
  deriving DecidableEq

/-- The next access of a thread: `awaitUnlocked` and `addRef` in `create_ref_lock`, `swapLocked`,
`addMut` and `awaitAlone` in `create_mut_lock`, `subMut` in the `Drop` of a mutable guard. -/
inductive Point where
  | idle
  | awaitUnlocked (cast : Bool)
  | addRef (cast : Bool)
  | swapLocked (cast : Bool)
  | addMut (cast : Bool)
  | awaitAlone (cast : Bool)
  | subMut
  deriving DecidableEq

structure State (ι : Type) where
  refs : Nat
  locked : Bool
  live : Guard → Nat
  point : ι → Point

inductive Action (ι : Type) where
  /-- The thread enters the method that returns `guard`. -/
  | lock (thread : ι) (guard : Guard)
  /-- The next access of the call or of the `Drop` that the thread is in. -/
  | tick (thread : ι)
  /-- The thread drops a live guard; the first access is part of the step. -/
  | drop (thread : ι) (guard : Guard)

variable {ι : Type} [DecidableEq ι]

def new : State ι :=
  { refs := 0
    locked := false
    live := fun _ => 0
    point := fun _ => .idle }

def fetchSub : Nat → Nat
  | 0 => 2 ^ 64 - 1
  | refs + 1 => refs

namespace State

def goTo (state : State ι) (t : ι) (point : Point) : State ι :=
  { state with point := Function.update state.point t point }

def give (state : State ι) (t : ι) (guard : Guard) : State ι :=
  { state.goTo t .idle with live := Function.update state.live guard (state.live guard + 1) }

def take (state : State ι) (guard : Guard) : State ι :=
  { state with live := Function.update state.live guard (state.live guard - 1) }

end State

def step (state : State ι) : Action ι → Option (State ι)
  | .lock t guard =>
      match state.point t, guard with
      | .idle, .refGuard cast => some (state.goTo t (.awaitUnlocked cast))
      | .idle, .mutGuard cast => some (state.goTo t (.swapLocked cast))
      | _, _ => none
  | .tick t =>
      match state.point t with
      | .idle => none
      | .awaitUnlocked cast =>
          if state.locked then some state else some (state.goTo t (.addRef cast))
      | .addRef cast => some ({ state with refs := state.refs + 1 }.give t (.refGuard cast))
      | .swapLocked cast =>
          if state.locked then some state
          else some ({ state with locked := true }.goTo t (.addMut cast))
      | .addMut cast => some ({ state with refs := state.refs + 1 }.goTo t (.awaitAlone cast))
      | .awaitAlone cast =>
          if state.refs ≤ 1 then some (state.give t (.mutGuard cast)) else some state
      | .subMut => some ({ state with refs := fetchSub state.refs }.goTo t .idle)
  | .drop t guard =>
      if state.point t = .idle ∧ 0 < state.live guard then
        match guard with
        | .refGuard _ => some ({ state with refs := fetchSub state.refs }.take guard)
        | .mutGuard _ => some (({ state with locked := false }.take guard).goTo t .subMut)
      else none

def system (ι : Type) [DecidableEq ι] : System (State ι) (Action ι) := ⟨step⟩

end Mutual.RelaxedMutex
