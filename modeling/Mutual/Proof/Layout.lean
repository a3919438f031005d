import Mutual.Data.Chain
import Mutual.SharedList

/-!
# What a list looks like in memory

The abstract value of a `SharedList` is the list of the elements on the chain that starts at `head`.
`Layout` is the memory of a list nobody is working on: the chain visits no slot twice, all its slots
are allocated and unlocked, and the counter is the length.
-/

namespace Mutual

open Data

variable {T : Type}

/-- The heap of a list as cells linked by their `next` slots. -/
def Heap.links (heap : Heap (Node T)) : Slot → Option (T × Slot) := fun slot =>
  (heap.inner slot).map fun node => (node.data, node.next)

namespace Heap

variable {heap : Heap (Node T)} {slot : Slot}

theorem links_eq_some {node : Node T} (hslot : heap.inner slot = some node) :
    heap.links slot = some (node.data, node.next) := by
  rw [links, hslot]
  rfl

theorem links_eq_none (hslot : heap.inner slot = none) : heap.links slot = none := by
  rw [links, hslot]
  rfl

theorem inner_of_links {data : T} {next : Slot} (hslot : heap.links slot = some (data, next)) :
    heap.inner slot = some { data := data, next := next } := by
  obtain ⟨⟨data', next'⟩, hinner, heq⟩ := Option.map_eq_some_iff.mp hslot
  cases heq
  exact hinner

@[simp] theorem links_setMutLock (locked : Bool) :
    (heap.setMutLock slot locked).links = heap.links := rfl

@[simp] theorem links_setImmLock (locked : Bool) :
    (heap.setImmLock slot locked).links = heap.links := rfl

@[simp]
theorem links_setInner (content : Option (Node T)) :
    (heap.setInner slot content).links =
      Function.update heap.links slot (content.map fun node => (node.data, node.next)) := by
  funext other
  by_cases hother : other = slot
  · subst hother
    simp [links]
  · simp [links, Function.update_of_ne hother]

/-- The content of one slot is copied to another. -/
theorem links_copy (next : Slot) :
    (heap.setInner slot (heap.inner next)).links =
      Function.update heap.links slot (heap.links next) := links_setInner _

theorem links_congr {next : Slot} (hsame : heap.inner next = heap.inner slot) :
    heap.links next = heap.links slot := by
  rw [links, links, hsame]

theorem links_of_inner_eq {heap' : Heap (Node T)} (hinner : heap'.inner = heap.inner) :
    heap'.links = heap.links := by
  unfold links
  rw [hinner]

@[simp]
theorem links_alloc (content : Option (Node T)) :
    (heap.alloc content).links =
      Function.update heap.links heap.fresh (content.map fun node => (node.data, node.next)) :=
  links_setInner content

end Heap

namespace SharedList

/-- The rest of the list is not at `head`. -/
def PointsOn (content : Option (Node T)) : Prop :=
  ∀ node, content = some node → node.next ≠ headSlot

@[simp] theorem pointsOn_some {node : Node T} : PointsOn (some node) ↔ node.next ≠ headSlot := by
  simp [PointsOn]

@[simp] theorem pointsOn_none : PointsOn (none : Option (Node T)) := by
  simp [PointsOn]

/-- What is stored points to a slot the thread knows. -/
def PointsTo (known : List Slot) (content : Option (Node T)) : Prop :=
  ∀ node, content = some node → node.next ∈ known

def nextOf (content : Option (Node T)) : List Slot := (content.map Node.next).toList

def dataOf (content : Option (Node T)) : List T := (content.map Node.data).toList

section Contents

variable {known : List Slot} {node : Node T} {content : Option (Node T)}

@[simp] theorem pointsTo_none : PointsTo known (none : Option (Node T)) := by
  rintro node ⟨⟩

@[simp] theorem pointsTo_some : PointsTo known (some node) ↔ node.next ∈ known := by
  simp [PointsTo]

@[simp] theorem pointsTo_nextOf : PointsTo (nextOf content ++ known) content := by
  intro node hnode
  rw [hnode]
  exact List.mem_cons_self

@[simp] theorem nextOf_none : nextOf (none : Option (Node T)) = [] := rfl

@[simp] theorem nextOf_some : nextOf (some node) = [node.next] := rfl

@[simp] theorem dataOf_none : dataOf (none : Option (Node T)) = [] := rfl

@[simp] theorem dataOf_some : dataOf (some node) = [node.data] := rfl

theorem mem_nextOf {slot : Slot} :
    slot ∈ nextOf content ↔ ∃ node, content = some node ∧ node.next = slot := by
  rw [nextOf, Option.mem_toList, Option.map_eq_some_iff]

theorem mem_dataOf {data : T} :
    data ∈ dataOf content ↔ ∃ node, content = some node ∧ node.data = data := by
  rw [dataOf, Option.mem_toList, Option.map_eq_some_iff]

end Contents

def Holds (list : SharedList T) (xs : List T) : Prop :=
  ∃ slots, Chain list.heap.links (headSlot :: slots) xs

/-- The chain from `head` passes through `slots` and nobody is working on it. -/
structure Layout (list : SharedList T) (slots : List Slot) (xs : List T) : Prop where
  chain : Chain list.heap.links (headSlot :: slots) xs
  nodup : (headSlot :: slots).Nodup
  allocated : ∀ slot ∈ headSlot :: slots, slot < list.heap.fresh
  mutFree : ∀ slot ∈ headSlot :: slots, list.heap.mutLock slot = false
  immFree : ∀ slot ∈ headSlot :: slots, list.heap.immLock slot = false
  len : list.len = UInt64.ofNat xs.length

/-- A list at rest whose elements are `xs`. -/
def Represents (list : SharedList T) (xs : List T) : Prop := ∃ slots, list.Layout slots xs

theorem Represents.holds {list : SharedList T} {xs : List T} (hlist : list.Represents xs) :
    list.Holds xs := by
  obtain ⟨slots, hlayout⟩ := hlist
  exact ⟨slots, hlayout.chain⟩

theorem Represents.len {list : SharedList T} {xs : List T} (hlist : list.Represents xs) :
    list.len = UInt64.ofNat xs.length := by
  obtain ⟨slots, hlayout⟩ := hlist
  exact hlayout.len

theorem Holds.unique {list : SharedList T} {xs ys : List T} (hxs : list.Holds xs)
    (hys : list.Holds ys) : xs = ys := by
  obtain ⟨_, hchain⟩ := hxs
  obtain ⟨_, hchain'⟩ := hys
  exact (hchain.unique hchain').2

@[simp]
theorem new_inner (slot : Slot) : (new : SharedList T).heap.inner slot = none := by
  by_cases hslot : slot = 0 <;> simp [new, Heap.empty, hslot]

@[simp]
theorem new_mutLock (slot : Slot) : (new : SharedList T).heap.mutLock slot = false := by
  by_cases hslot : slot = 0 <;> simp [new, Heap.empty, hslot]

@[simp]
theorem new_immLock (slot : Slot) : (new : SharedList T).heap.immLock slot = false := by
  by_cases hslot : slot = 0 <;> simp [new, Heap.empty, hslot]

theorem new_represents : (new : SharedList T).Represents [] := by
  refine ⟨[], ?_, by simp, ?_, ?_, ?_, rfl⟩
  · exact Heap.links_eq_none rfl
  all_goals
    intro slot hslot
    obtain rfl := List.mem_singleton.mp hslot
    first | rfl | exact Nat.zero_lt_one

/-- A list at rest with given elements, the node of the `i`-th element being in slot `i`. -/
def ofList (xs : List T) : SharedList T :=
  { heap :=
      { inner := fun slot => xs[slot]?.map fun data => { data := data, next := slot + 1 }
        mutLock := fun _ => false
        immLock := fun _ => false
        fresh := xs.length + 1 }
    enforceNoneq := false
    len := UInt64.ofNat xs.length }

@[simp]
theorem ofList_inner (xs : List T) (slot : Slot) : (ofList xs).heap.inner slot =
    xs[slot]?.map fun data => { data := data, next := slot + 1 } := rfl

theorem ofList_chain (before xs : List T) :
    Chain (ofList (before ++ xs)).heap.links
      (before.length :: List.range' (before.length + 1) xs.length) xs := by
  induction xs generalizing before with
  | nil =>
      exact Heap.links_eq_none (by simp)
  | cons x xs ih =>
      have hrest := ih (before ++ [x])
      rw [List.append_assoc, List.singleton_append, List.length_append, List.length_singleton]
        at hrest
      have hinner : (ofList (before ++ x :: xs)).heap.inner before.length =
          some { data := x, next := before.length + 1 } := by simp
      exact ⟨Heap.links_eq_some hinner, hrest⟩

theorem ofList_represents (xs : List T) : (ofList xs).Represents xs := by
  have hslots : 0 :: List.range' 1 xs.length = List.range' 0 (xs.length + 1) := rfl
  refine ⟨List.range' 1 xs.length, ofList_chain [] xs, ?_, ?_, fun _ _ => rfl, fun _ _ => rfl, rfl⟩
  · change (0 :: List.range' 1 xs.length).Nodup
    rw [hslots]
    exact List.nodup_range'
  · intro slot hslot
    change slot ∈ 0 :: List.range' 1 xs.length at hslot
    rw [hslots, List.mem_range'_1, Nat.zero_add] at hslot
    exact hslot.2

end SharedList

end Mutual
