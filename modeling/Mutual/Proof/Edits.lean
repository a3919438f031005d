import Mutual.Data.Trail
import Mutual.Proof.Layout

/-!
# Edits

A call that runs on its own changes the memory of a list by insertions and removals at slots of the
list, and leaves all other slots alone.
-/

namespace Mutual.SharedList

open Data

variable {T : Type}

/-- The slot is in use and can be read. -/
def Settled (list : SharedList T) (slot : Slot) : Prop :=
  slot < list.heap.fresh ∧ list.heap.immLock slot = false

/-- One edit, with the elements it puts on the list. -/
inductive Edit (list after : SharedList T) : List T → Prop
  /-- Only locks, the flag or the counter change. -/
  | frame (inner : after.heap.inner = list.heap.inner)
      (settled : ∀ slot, list.Settled slot → after.Settled slot) : Edit list after []
  | insert {slot : Slot} {data : T} (live : Reaches list.heap.links headSlot slot)
      (inner : after.heap.inner = Function.update
        (Function.update list.heap.inner list.heap.fresh (list.heap.inner slot)) slot
        (some { data := data, next := list.heap.fresh }))
      (fresh : after.Settled list.heap.fresh)
      (settled : ∀ slot, list.Settled slot → after.Settled slot) : Edit list after [data]
  | remove {slot : Slot} {node : Node T} (live : Reaches list.heap.links headSlot slot)
      (content : list.heap.inner slot = some node)
      (inner : after.heap.inner =
        Function.update list.heap.inner slot (list.heap.inner node.next))
      (settled : ∀ slot, list.Settled slot → after.Settled slot) : Edit list after []

inductive Edits : SharedList T → List T → SharedList T → Prop
  | nil {list : SharedList T} : Edits list [] list
  | cons {list middle final : SharedList T} {inserted rest : List T} :
      Edit list middle inserted → Edits middle rest final → Edits list (inserted ++ rest) final

namespace Edits

variable {list middle final : SharedList T} {inserted rest : List T}

theorem single (hedit : Edit list final inserted) : Edits list inserted final := by
  have hedits := Edits.cons hedit .nil
  rwa [List.append_nil] at hedits

theorem trans (hfirst : Edits list inserted middle) (hrest : Edits middle rest final) :
    Edits list (inserted ++ rest) final := by
  induction hfirst with
  | nil => exact hrest
  | cons hedit _ ih =>
      rw [List.append_assoc]
      exact .cons hedit (ih hrest)

/-- An edit that puts nothing on the list comes first. -/
theorem after (hedit : Edit list middle []) (hrest : Edits middle inserted final) :
    Edits list inserted final := .cons hedit hrest

theorem before (hrest : Edits list inserted middle) (hedit : Edit middle final []) :
    Edits list inserted final := by
  have hedits := hrest.trans (.single hedit)
  rwa [List.append_nil] at hedits

end Edits

theorem edit_setMutLock {list : SharedList T} (slot : Slot) (locked : Bool) :
    Edit list { list with heap := list.heap.setMutLock slot locked } [] := .frame rfl fun _ h => h

end Mutual.SharedList
