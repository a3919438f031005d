import Mutual.Concurrency.Program
import Mutual.RelaxedMutex

/-!
# The data under a RelaxedMutex

A thread takes a `RefGuard` or a `MutGuard`, goes to the data through it as often as it likes, and
drops it. Each read through `deref` and each write through `deref_mut` is an access of its own, and
nothing but the lock keeps the accesses of different threads apart.
-/

namespace Mutual.RelaxedMutex.Sections

open Concurrency

variable {T : Type}

/-- `RelaxedMutexInner`. -/
structure Inner (T : Type) where
  data : T
  refs : Nat
  locked : Bool

def Inner.new (data : T) : Inner T := { data := data, refs := 0, locked := false }

inductive Instr (T : Type) where
  /-- `locked.load`, until the flag is down. -/
  | awaitUnlocked
  /-- `locked.swap(true)`, until the flag was down. -/
  | swapLocked
  /-- `refs.fetch_add(1)` in `create_ref_lock`. -/
  | addRef
  /-- `refs.fetch_add(1)` in `create_mut_lock`. -/
  | addMut
  /-- `refs.load`, until the count is at most 1. -/
  | awaitAlone
  /-- `locked.swap(false)`. -/
  | unlock
  | subRef
  | deref
  | derefMut (data : T)

@[reducible]
def Instr.Answer : Instr T → Type
  | deref => T
  | awaitUnlocked | swapLocked | addRef | addMut | awaitAlone | unlock | subRef | derefMut _ => Unit

abbrev sig (T : Type) : Signature := ⟨Instr T, Instr.Answer⟩

def exec : (instr : Instr T) → Inner T → Inner T × Option instr.Answer
  | .awaitUnlocked, inner => (inner, if inner.locked then none else some ())
  | .swapLocked, inner => ({ inner with locked := true }, if inner.locked then none else some ())
  | .addRef, inner | .addMut, inner => ({ inner with refs := inner.refs + 1 }, some ())
  | .awaitAlone, inner => (inner, if inner.refs ≤ 1 then some () else none)
  | .unlock, inner => ({ inner with locked := false }, some ())
  | .subRef, inner => ({ inner with refs := fetchSub inner.refs }, some ())
  | .deref, inner => (inner, some inner.data)
  | .derefMut data, inner => ({ inner with data := data }, some ())

abbrev perform (instr : Instr T) : Prog (sig T) instr.Answer := Prog.perform (σ := sig T) instr

def createRefLock : Prog (sig T) Unit := do
  perform .awaitUnlocked
  perform .addRef

def createMutLock : Prog (sig T) Unit := do
  perform .swapLocked
  perform .addMut
  perform .awaitAlone

def RefGuard.drop : Prog (sig T) Unit := perform .subRef

def MutGuard.drop : Prog (sig T) Unit := do
  perform .unlock
  perform .subRef

/-- A section is what a thread does from its lock call to the drop of the guard: it reads the data
a number of times, or it puts the data through functions one after the other. -/
inductive Call (T : Type) where
  | read (times : Nat)
  | write (funcs : List (T → T))

inductive Reply (T : Type) where
  | read (seen : List T)
  | unit

inductive Label (T : Type) where
  | reading (left : Nat) (seen : List T)
  | writing (left : List (T → T))

abbrev Outcome (T : Type) : Type := Label T ⊕ Reply T

def enter : Call T → Prog (sig T) (Outcome T)
  | .read times => do
      createRefLock
      .ret (.inl (.reading times []))
  | .write funcs => do
      createMutLock
      .ret (.inl (.writing funcs))

def body : Label T → Prog (sig T) (Outcome T)
  | .reading 0 seen => do
      RefGuard.drop
      .ret (.inr (.read seen))
  | .reading (left + 1) seen => .op .deref fun data => .ret (.inl (.reading left (seen ++ [data])))
  | .writing [] => do
      MutGuard.drop
      .ret (.inr .unit)
  | .writing (func :: left) => .op .deref fun data =>
      .op (.derefMut (func data)) fun _ => .ret (.inl (.writing left))

@[reducible]
def object (T : Type) : Object where
  sig := sig T
  State := Inner T
  Call := Call T
  Label := Label T
  Reply := Reply T
  exec := exec
  enter := enter
  body := body

end Mutual.RelaxedMutex.Sections
