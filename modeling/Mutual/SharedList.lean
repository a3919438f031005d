import Mutual.CowData

/-!
# SharedList

The list lives in slots of one heap: `head` is a slot, and the node a slot holds has the slot of the
rest of the list in its `next`. Every link is built lock-protected. The order function is fixed when
the list is built. A thread works on the shared state through the calls below; where the code calls
back into the user's code the program has an instruction of its own, which touches nothing.

`extend`, `drain`, `remove_search`, `remove_all` and `remove` are made of the other calls.
-/

namespace Mutual

open Concurrency

structure Node (T : Type) where
  data : T
  next : Slot
  deriving DecidableEq

/-- The memory of one list: its slots, its flag and its length counter. -/
structure SharedList (T : Type) where
  heap : Heap (Node T)
  enforceNoneq : Bool
  len : UInt64

namespace SharedList

variable {T : Type}

/-- The handle of a link: `null_lock_protected` and `from_arc_lock_protected` set the flag. -/
def link (slot : Slot) : CowData := { slot := slot, isMutLockProtected := true }

def headSlot : Slot := 0

def head : CowData := link headSlot

def new : SharedList T :=
  { heap := Heap.empty.alloc none
    enforceNoneq := false
    len := 0 }

inductive Instr (T : Type) where
  | cow (instr : CowData.Instr (Node T))
  | loadNoneq
  | storeNoneq (enforceNoneq : Bool)
  | fetchAddLen
  | fetchSubLen
  | loadLen
  /-- The user's code runs: the order function, a predicate, or `PartialEq::eq`. -/
  | callback

@[reducible]
def Instr.Answer : Instr T → Type
  | cow instr => instr.Answer
  | loadNoneq => Bool
  | storeNoneq _ | fetchAddLen | fetchSubLen | callback => Unit
  | loadLen => UInt64

abbrev sig (T : Type) : Signature := ⟨Instr T, Instr.Answer⟩

def exec : (instr : Instr T) → SharedList T → SharedList T × Option instr.Answer
  | .cow instr, list =>
      let (heap, answer) := CowData.exec instr list.heap
      ({ list with heap := heap }, answer)
  | .loadNoneq, list => (list, some list.enforceNoneq)
  | .storeNoneq enforceNoneq, list => ({ list with enforceNoneq := enforceNoneq }, some ())
  | .fetchAddLen, list => ({ list with len := list.len + 1 }, some ())
  | .fetchSubLen, list => ({ list with len := list.len - 1 }, some ())
  | .loadLen, list => (list, some list.len)
  | .callback, list => (list, some ())

section Spinning

variable {list after : SharedList T} {slot : Slot}

theorem awaitImm_answered {answer : Unit}
    (hexec : exec (.cow (.awaitImm slot)) list = (after, some answer)) :
    list.heap.immLock slot = false ∧ after = list := by
  by_cases hlocked : list.heap.immLock slot = true
  · simp [exec, CowData.exec, hlocked] at hexec
  · have hafter : list = after := congrArg Prod.fst hexec
    exact ⟨eq_false_of_ne_true hlocked, hafter.symm⟩

theorem acquireMut_answered {answer : Unit}
    (hexec : exec (.cow (.acquireMut slot)) list = (after, some answer)) :
    list.heap.mutLock slot = false ∧
      after = { list with heap := list.heap.setMutLock slot true } := by
  by_cases hlocked : list.heap.mutLock slot = true
  · simp [exec, CowData.exec, hlocked] at hexec
  · exact ⟨eq_false_of_ne_true hlocked, (congrArg Prod.fst hexec).symm⟩

theorem acquireImm_answered {answer : Unit}
    (hexec : exec (.cow (.acquireImm slot)) list = (after, some answer)) :
    list.heap.immLock slot = true ∧ after = list := by
  by_cases hlocked : list.heap.immLock slot = true
  · have hafter : { list with heap := list.heap.setImmLock slot true } = after :=
      congrArg Prod.fst hexec
    rw [← hafter, Heap.setImmLock_self hlocked]
    exact ⟨hlocked, rfl⟩
  · simp [exec, CowData.exec, hlocked] at hexec

theorem retried_cases {instr : Instr T} (hexec : exec instr list = (after, none)) :
    (∃ slot, instr = .cow (.awaitImm slot) ∧ after = list) ∨
    (∃ slot, instr = .cow (.acquireMut slot) ∧ list.heap.mutLock slot = true ∧ after = list) ∨
    (∃ slot, instr = .cow (.acquireImm slot) ∧ list.heap.immLock slot = false ∧
      after = { list with heap := list.heap.setImmLock slot true }) := by
  have hafter : (exec instr list).1 = after := congrArg Prod.fst hexec
  have hanswer : (exec instr list).2 = none := congrArg Prod.snd hexec
  match instr with
  | .cow (.awaitImm slot) => exact .inl ⟨slot, rfl, hafter.symm⟩
  | .cow (.acquireMut slot) =>
      refine .inr (.inl ⟨slot, rfl, ?_⟩)
      by_cases hlocked : list.heap.mutLock slot = true
      · rw [← hafter]
        change _ ∧ { list with heap := list.heap.setMutLock slot true } = list
        rw [Heap.setMutLock_self hlocked]
        exact ⟨hlocked, rfl⟩
      · simp [exec, CowData.exec, hlocked] at hanswer
  | .cow (.acquireImm slot) =>
      refine .inr (.inr ⟨slot, rfl, ?_, hafter.symm⟩)
      by_cases hlocked : list.heap.immLock slot = true
      · simp [exec, CowData.exec, hlocked] at hanswer
      · exact eq_false_of_ne_true hlocked

/-- An iteration of a spin loop that stays in the loop changes no content. -/
theorem retried_contents {instr : Instr T} (hexec : exec instr list = (after, none)) :
    after.heap.inner = list.heap.inner ∧ after.heap.fresh = list.heap.fresh ∧
      after.enforceNoneq = list.enforceNoneq := by
  rcases retried_cases hexec with ⟨slot, -, rfl⟩ | ⟨slot, -, -, rfl⟩ | ⟨slot, -, -, rfl⟩
  all_goals exact ⟨rfl, rfl, rfl⟩

end Spinning

/-- The loops. A predicate of type `FnMut(&T) -> bool` is given the elements it has seen before, so
that its answers may depend on them. -/
inductive Label (T : Type) where
  | pushWalk (orderFn : T → T → Ordering) (data : T) (current : Slot)
  | removeCount (func : List T → T → Bool) (seen : List T) (current : Slot) (count : UInt32)
      (output : List T)
  | search (func : List T → T → Bool) (seen : List T) (current : Slot)
  | any (func : T → Bool) (current : Slot)

inductive Call (T : Type) where
  | push (data : T)
  | pop
  | removeCount (func : List T → T → Bool) (count : UInt32)
  | setEnforceNoneq (enforceNoneq : Bool)
  | len
  | isEmpty
  | search (func : List T → T → Bool)
  | any (func : T → Bool)
  | iterNext (current : Slot)
  | iterMutNext (current : Slot)
  | dropMut (guard : MutCowData (Node T))

inductive Reply (T : Type) where
  | unit
  | popped (data : Option T)
  | removed (output : List T)
  | size (len : UInt64)
  | bool (answer : Bool)
  /-- The element found, after the elements the predicate has refused. -/
  | found (entry : Option (List T × T))
  /-- The element an iterator yields, and where it stands then. -/
  | yielded (entry : Option (T × Slot))
  | lent (guard : Option (MutCowData (Node T) × Slot))

abbrev Outcome (T : Type) : Type := Label T ⊕ Reply T

abbrev perform (instr : Instr T) : Prog (sig T) instr.Answer := Prog.perform (σ := sig T) instr

/-- A method of `CowData`, run on a slot of the list. -/
def cow {R : Type} (program : Prog (CowData.sig (Node T)) R) : Prog (sig T) R :=
  program.lift (τ := sig T) Instr.cow fun _ answer => answer

abbrev goto (label : Label T) : Prog (sig T) (Outcome T) := .ret (.inl label)

abbrev reply (result : Reply T) : Prog (sig T) (Outcome T) := .ret (.inr result)

/-! ### The methods of `CowData` as trees of instructions of the list -/

section NormalForms

variable {R S : Type} (slot : Slot)

@[simp] theorem perform_bind (instr : Instr T) (next : instr.Answer → Prog (sig T) R) :
    @Prog.bind (sig T) (no_index instr.Answer) R (perform instr) next = .op instr next := rfl

@[simp] theorem isNull_bind (next : Bool → Prog (sig T) R) :
    (cow (link slot).isNull).bind next =
      .op (.cow (.awaitImm slot)) fun _ => .op (.cow (.load slot)) fun content =>
        next content.isNone := rfl

@[simp] theorem createLock_bind (next : Unit → Prog (sig T) R) :
    (cow (link slot).createLock).bind next = .op (.cow (.acquireMut slot)) next := rfl

@[simp] theorem removeLock_bind (next : Unit → Prog (sig T) R) :
    (cow (link slot).removeLock).bind next = .op (.cow (.releaseMut slot)) next := rfl

@[simp] theorem set_bind (node : Node T) (next : Unit → Prog (sig T) R) :
    (cow ((link slot).set node)).bind next =
      .op (.cow (.acquireMut slot)) fun _ => .op (.cow (.acquireImm slot)) fun _ =>
        .op (.cow (.store slot (some node))) fun _ => .op (.cow (.releaseImm slot)) fun _ =>
          .op (.cow (.releaseMut slot)) next := rfl

@[simp] theorem unwrap_some_bind (data : S) (next : S → Prog (sig T) R) :
    (unwrap (some data)).bind next = next data := rfl

@[simp] theorem unwrap_none_bind (next : S → Prog (sig T) R) :
    (unwrap none).bind next = .panic "called `Option::unwrap()` on a `None` value" := rfl

/-- `get_ref` tests the slot and then reads it a second time. -/
@[simp] theorem getRef_bind (next : Option (Node T) → Prog (sig T) R) :
    (cow (link slot).getRef).bind next =
      .op (.cow (.awaitImm slot)) fun _ => .op (.cow (.load slot)) fun content =>
        if content.isNone then .panic "Cannot get_ref to null cow data"
        else .op (.cow (.loadFull slot)) next := by
  refine congrArg (Prog.op _) (funext fun _ => congrArg (Prog.op _) (funext fun content => ?_))
  cases content <;> rfl

@[simp] theorem getMut_bind (next : MutCowData (Node T) → Prog (sig T) R) :
    (cow (link slot).getMut).bind next =
      .op (.cow (.awaitImm slot)) fun _ => .op (.cow (.load slot)) fun content =>
        if content.isNone then .panic "Cannot lock_mut to null cow data"
        else
          .op (.cow (.acquireMut slot)) fun _ => .op (.cow (.loadFull slot)) fun data =>
            next { originalStructure := slot, data := data } := by
  refine congrArg (Prog.op _) (funext fun _ => congrArg (Prog.op _) (funext fun content => ?_))
  cases content <;> rfl

end NormalForms

/-- `push` where it does not look at the order: under the lock of `head`. -/
def pushHead (data : T) : Prog (sig T) (Outcome T) := do
  cow head.createLock
  if ← cow head.isNull then
    let next ← perform (.cow (.alloc none))
    perform (.cow (.store headSlot (some { data := data, next := next })))
    cow head.removeLock
    perform .fetchAddLen
    reply .unit
  else
    let oldHead ← perform (.cow (.load headSlot))
    let next ← perform (.cow (.alloc oldHead))
    perform (.cow (.store headSlot (some { data := data, next := next })))
    cow head.removeLock
    perform .fetchAddLen
    reply .unit

def push (orderFn : Option (T → T → Ordering)) (data : T) : Prog (sig T) (Outcome T) :=
  match orderFn with
  | none => pushHead data
  | some orderFn => do
      if ← cow head.isNull then pushHead data
      else
        cow head.createLock
        goto (.pushWalk orderFn data headSlot)

/-- One round of the loop of an ordered `push`, with what follows the loop. -/
def pushWalk (orderFn : T → T → Ordering) (data : T) (current : Slot) : Prog (sig T) (Outcome T) := do
  if ← cow (link current).isNull then
    let next ← perform (.cow (.alloc none))
    cow ((link current).set { data := data, next := next })
    cow (link current).removeLock
    perform .fetchAddLen
    reply .unit
  else
    let node ← unwrap (← cow (link current).getRef)
    let enforceNoneq ← perform .loadNoneq
    perform .callback
    let vsHead := orderFn node.data data
    if enforceNoneq && vsHead == .eq then
      cow (link current).removeLock
      reply .unit
    else if vsHead == .lt then
      let currentPtr ← perform (.cow (.load current))
      let next ← perform (.cow (.alloc currentPtr))
      perform (.cow (.store current (some { data := data, next := next })))
      cow (link current).removeLock
      perform .fetchAddLen
      reply .unit
    else
      cow (link current).removeLock
      goto (.pushWalk orderFn data node.next)

def pop : Prog (sig T) (Outcome T) := do
  cow head.createLock
  if ← cow head.isNull then
    cow head.removeLock
    reply (.popped none)
  else
    let oldHead ← unwrap (← cow head.getRef)
    let nextPtr ← perform (.cow (.load oldHead.next))
    perform .fetchSubLen
    perform (.cow (.store headSlot nextPtr))
    cow head.removeLock
    reply (.popped (some oldHead.data))

/-- One round of the loop of `remove_count`, with what follows the loop. -/
def removeCountLoop (func : List T → T → Bool) (seen : List T) (current : Slot) (count : UInt32)
    (output : List T) : Prog (sig T) (Outcome T) := do
  if !(← cow (link current).isNull) && count > 0 then
    let node ← unwrap (← cow (link current).getRef)
    perform .callback
    if func seen node.data then
      let nextPtr ← perform (.cow (.load node.next))
      perform (.cow (.store current nextPtr))
      perform .fetchSubLen
      goto (.removeCount func (seen ++ [node.data]) current (count - 1) (output ++ [node.data]))
    else
      cow (link current).removeLock
      cow (link node.next).createLock
      goto (.removeCount func (seen ++ [node.data]) node.next count output)
  else
    cow (link current).removeLock
    reply (.removed output)

def removeCount (func : List T → T → Bool) (count : UInt32) : Prog (sig T) (Outcome T) := do
  cow head.createLock
  goto (.removeCount func [] headSlot count [])

/-- One round of the loop that `find`, `find_map` and `contains` share. -/
def searchLoop (func : List T → T → Bool) (seen : List T) (current : Slot) : Prog (sig T) (Outcome T) := do
  if ← cow (link current).isNull then reply (.found none)
  else
    let node ← unwrap (← cow (link current).getRef)
    perform .callback
    if func seen node.data then reply (.found (some (seen, node.data)))
    else goto (.search func (seen ++ [node.data]) node.next)

def iterNext {R : Type} (current : Slot) (yield : Option (T × Slot) → Prog (sig T) R) :
    Prog (sig T) R := do
  if ← cow (link current).isNull then yield none
  else
    let node ← unwrap (← cow (link current).getRef)
    yield (some (node.data, node.next))

def anyLoop (func : T → Bool) (current : Slot) : Prog (sig T) (Outcome T) :=
  iterNext current fun
    | none => reply (.bool false)
    | some (data, next) => do
        perform .callback
        if func data then reply (.bool true) else goto (.any func next)

def iterMutNext (current : Slot) : Prog (sig T) (Outcome T) := do
  if ← cow (link current).isNull then reply (.lent none)
  else
    let guard ← cow (link current).getMut
    let node ← unwrap (← cow (link current).getRef)
    reply (.lent (some (guard, node.next)))

def enter (orderFn : Option (T → T → Ordering)) : Call T → Prog (sig T) (Outcome T)
  | .push data => push orderFn data
  | .pop => pop
  | .removeCount func count => removeCount func count
  | .setEnforceNoneq enforceNoneq => do
      perform (.storeNoneq enforceNoneq)
      reply .unit
  | .len => do
      let len ← perform .loadLen
      reply (.size len)
  | .isEmpty => do
      let len ← perform .loadLen
      reply (.bool (len == 0))
  | .search func => goto (.search func [] headSlot)
  | .any func => goto (.any func headSlot)
  | .iterNext current => iterNext current fun entry => reply (.yielded entry)
  | .iterMutNext current => iterMutNext current
  | .dropMut guard => do
      cow guard.drop
      reply .unit

def body : Label T → Prog (sig T) (Outcome T)
  | .pushWalk orderFn data current => pushWalk orderFn data current
  | .removeCount func seen current count output => removeCountLoop func seen current count output
  | .search func seen current => searchLoop func seen current
  | .any func current => anyLoop func current

@[reducible]
def object (orderFn : Option (T → T → Ordering)) : Object where
  sig := sig T
  State := SharedList T
  Call := Call T
  Label := Label T
  Reply := Reply T
  exec := exec
  enter := enter orderFn
  body := body

/-! ### The calls made of other calls -/

def extend (iter : List T) : List (Call T) := iter.map .push

def drainNext : Call T := .pop

def removeSearch (func : List T → T → Bool) : Call T := .removeCount func 1

/-- `u32::MAX` removals at most. -/
def removeAll (func : List T → T → Bool) : Call T := .removeCount func 0xFFFFFFFF

def remove [BEq T] (toRemove : T) : Call T := removeSearch fun _ entry => entry == toRemove

/-- What `remove_search` and `remove` make of the vector `remove_count` returns. -/
def firstRemoved : List T → Option T
  | [] => none
  | found :: _ => some found

def find (func : List T → T → Bool) : Call T := .search func

def findMap {O : Type} (func : List T → T → Option O) : Call T :=
  .search fun seen data => (func seen data).isSome

def contains [BEq T] (element : T) : Call T := .search fun _ data => data == element

end SharedList

end Mutual
