import Mutual.CowCalls
import Mutual.Proof.Sequential

/-!
# Mutable locks that are not given back

Every method that takes the mutable lock gives it back, except for `get_mut`: the guard it returns
has no access to the flag, and dropping the guard leaves the flag set.
-/

namespace Mutual

open Concurrency

/-- Nobody is working on a `CowData`. -/
structure Heap.Idle {α : Type} (heap : Heap α) : Prop where
  mutFree : ∀ slot, heap.mutLock slot = false
  immFree : ∀ slot, heap.immLock slot = false

namespace Heap.Idle

variable {α : Type} {heap : Heap α}

theorem empty : (Heap.empty : Heap α).Idle := ⟨fun _ => rfl, fun _ => rfl⟩

theorem alloc (hidle : heap.Idle) (content : Option α) : (heap.alloc content).Idle := by
  constructor
  · intro slot
    rw [Heap.alloc_mutLock, Function.update_apply, hidle.mutFree, ite_self]
  · intro slot
    rw [Heap.alloc_immLock, Function.update_apply, hidle.immFree, ite_self]

theorem setInner (hidle : heap.Idle) (slot : Slot) (content : Option α) :
    (heap.setInner slot content).Idle := ⟨hidle.mutFree, hidle.immFree⟩

/-- Both locks of a slot are taken and given back. -/
theorem unlocked (hidle : heap.Idle) (slot : Slot) :
    (((heap.setMutLock slot true).setImmLock slot true).setImmLock slot false).setMutLock slot
      false = heap := by
  have himm : (heap.setMutLock slot true).setImmLock slot false = heap.setMutLock slot true :=
    Heap.setImmLock_self (hidle.immFree slot)
  rw [Heap.setImmLock_setImmLock, himm, Heap.setMutLock_setMutLock,
    Heap.setMutLock_self (hidle.mutFree slot)]

end Heap.Idle

namespace CowData

variable {α : Type} {heap final : Heap α} {slot : Slot}

section Rules

@[simp] theorem ends_return {given : Reply} :
    (object α).Ends heap (reply given) final ↔ final = heap := Object.ends_reply

@[simp] theorem ends_panic {message : String} :
    (object α).Ends heap (.panic message : Prog (sig α) Outcome) final ↔ final = heap :=
  Object.ends_panic

@[simp] theorem ends_load {next : Option α → Prog (sig α) Outcome} :
    (object α).Ends heap (no_index (.op (.load slot) next)) final ↔
      (object α).Ends heap (next (heap.inner slot)) final := Object.ends_op rfl

@[simp] theorem ends_loadFull {next : Option α → Prog (sig α) Outcome} :
    (object α).Ends heap (no_index (.op (.loadFull slot) next)) final ↔
      (object α).Ends heap (next (heap.inner slot)) final := Object.ends_op rfl

@[simp] theorem ends_store {content : Option α} {next : Unit → Prog (sig α) Outcome} :
    (object α).Ends heap (no_index (.op (.store slot content) next)) final ↔
      (object α).Ends (heap.setInner slot content) (next ()) final := Object.ends_op rfl

@[simp] theorem ends_swap {content : Option α} {next : Option α → Prog (sig α) Outcome} :
    (object α).Ends heap (no_index (.op (.swap slot content) next)) final ↔
      (object α).Ends (heap.setInner slot content) (next (heap.inner slot)) final :=
  Object.ends_op rfl

@[simp] theorem ends_alloc {content : Option α} {next : Slot → Prog (sig α) Outcome} :
    (object α).Ends heap (no_index (.op (.alloc content) next)) final ↔
      (object α).Ends (heap.alloc content) (next heap.fresh) final := Object.ends_op rfl

@[simp] theorem ends_releaseMut {next : Unit → Prog (sig α) Outcome} :
    (object α).Ends heap (no_index (.op (.releaseMut slot) next)) final ↔
      (object α).Ends (heap.setMutLock slot false) (next ()) final := Object.ends_op rfl

@[simp] theorem ends_releaseImm {next : Unit → Prog (sig α) Outcome} :
    (object α).Ends heap (no_index (.op (.releaseImm slot) next)) final ↔
      (object α).Ends (heap.setImmLock slot false) (next ()) final := Object.ends_op rfl

@[simp] theorem ends_awaitImm {next : Unit → Prog (sig α) Outcome}
    (hfree : heap.immLock slot = false) :
    (object α).Ends heap (no_index (.op (.awaitImm slot) next)) final ↔
      (object α).Ends heap (next ()) final := Object.ends_op (by simp [exec, hfree])

@[simp] theorem ends_acquireMut {next : Unit → Prog (sig α) Outcome}
    (hfree : heap.mutLock slot = false) :
    (object α).Ends heap (no_index (.op (.acquireMut slot) next)) final ↔
      (object α).Ends (heap.setMutLock slot true) (next ()) final :=
  Object.ends_op (by simp [exec, hfree])

@[simp] theorem ends_acquireImm {next : Unit → Prog (sig α) Outcome}
    (hfree : heap.immLock slot = false) :
    (object α).Ends heap (no_index (.op (.acquireImm slot) next)) final ↔
      (object α).Ends (heap.setImmLock slot true) (next ()) final := by
  have hturn : exec (.acquireImm slot) heap = (heap.setImmLock slot true, none) := by
    simp [exec, hfree]
  rw [Object.ends_retry hturn]
  refine Object.ends_op ?_
  simp [exec]

theorem not_ends_of_locked {next : Unit → Prog (sig α) Outcome}
    (hlocked : heap.mutLock slot = true) :
    ¬ (object α).Ends heap (no_index (.op (.acquireMut slot) next)) final := by
  refine Object.not_ends_of_retry ?_
  simp [exec, hlocked, Heap.setMutLock_self]

end Rules

/-- The call gives back the lock it takes: no guard is handed out. -/
def Call.GivesBack (heap : Heap α) : Call α → Prop
  | .getMutDrop self _ => heap.inner self = none
  | _ => True

/-- What a call leaves of a memory in which all locks are free. -/
def Call.leaves (heap : Heap α) : Call α → Heap α
  | .newLockProtected data => heap.alloc (some data)
  | .nullLockProtected => heap.alloc none
  | .fromArcLockProtected value => heap.alloc value
  | .set self data => heap.setInner self (some data)
  | .setNull self => heap.setInner self none
  | .bumpIntoNull self nullCow newData =>
      match heap.inner nullCow with
      | none => (heap.setInner self (some newData)).setInner nullCow (heap.inner self)
      | some _ => heap
  | .createRemoveLock _ => heap
  | .getMutDrop self edit =>
      match heap.inner self with
      | none => heap
      | some data => (heap.setMutLock self true).setInner self (some (edit data))

theorem assign_ends (hidle : heap.Idle) (self : Slot) (content : Option α) :
    (object α).Ends heap (((lockProtected self).assign content).bind fun _ => reply .unit)
      (heap.setInner self content) := by
  have himm : (heap.setMutLock self true).immLock self = false := hidle.immFree self
  change (object α).Ends heap (.op (.acquireMut self) fun _ => .op (.acquireImm self) fun _ =>
    .op (.store self content) fun _ => .op (.releaseImm self) fun _ =>
      .op (.releaseMut self) fun _ => reply .unit) _
  rw [ends_acquireMut (hidle.mutFree self), ends_acquireImm himm, ends_store, ends_releaseImm,
    ends_releaseMut, ends_return]
  exact ((hidle.setInner self content).unlocked self).symm

theorem bumpIntoNull_ends (hidle : heap.Idle) (self nullCow : Slot) (newData : α) :
    (object α).Ends heap (enter (.bumpIntoNull self nullCow newData))
      (Call.leaves heap (.bumpIntoNull self nullCow newData)) := by
  have himm : (heap.setMutLock self true).immLock self = false := hidle.immFree self
  rw [Call.leaves]
  change (object α).Ends heap (((lockProtected nullCow).isNull.bind _).bind _) _
  rw [isNull_bind]
  refine (ends_awaitImm (hidle.immFree nullCow)).mpr (ends_load.mpr ?_)
  have hslot : heap.inner (lockProtected nullCow).slot = heap.inner nullCow := rfl
  rw [hslot]
  cases hcontent : heap.inner nullCow with
  | none =>
      change (object α).Ends heap (.op (.acquireMut self) fun _ => .op (.acquireImm self) fun _ =>
        .op (.swap self (some newData)) fun oldData => .op (.store nullCow oldData) fun _ =>
          .op (.releaseImm self) fun _ => .op (.releaseMut self) fun _ => reply .unit) _
      rw [ends_acquireMut (hidle.mutFree self), ends_acquireImm himm, ends_swap, ends_store,
        ends_releaseImm, ends_releaseMut, ends_return]
      exact (((hidle.setInner self _).setInner nullCow _).unlocked self).symm
  | some data => exact ends_panic.mpr rfl

theorem getMutDrop_ends (hidle : heap.Idle) (self : Slot) (edit : α → α) :
    (object α).Ends heap (enter (.getMutDrop self edit))
      (Call.leaves heap (.getMutDrop self edit)) := by
  rw [Call.leaves]
  change (object α).Ends heap (((lockProtected self).isNull.bind _).bind _) _
  rw [isNull_bind]
  refine (ends_awaitImm (hidle.immFree self)).mpr (ends_load.mpr ?_)
  have hslot : heap.inner (lockProtected self).slot = heap.inner self := rfl
  rw [hslot]
  cases hcontent : heap.inner self with
  | none => exact ends_panic.mpr rfl
  | some data =>
      change (object α).Ends heap (.op (.acquireMut self) fun _ => .op (.loadFull self) fun data =>
        (MutCowData.drop { originalStructure := self, data := data.map edit }).bind fun _ =>
          reply .unit) _
      rw [ends_acquireMut (hidle.mutFree self), ends_loadFull, Heap.setMutLock_inner, hcontent]
      exact ends_store.mpr (ends_return.mpr rfl)

/-- **One call.** Where all locks are free, a call comes to an end. -/
theorem ends_leaves (hidle : heap.Idle) (call : Call α) :
    (object α).Ends heap (enter call) (call.leaves heap) := by
  cases call with
  | newLockProtected | nullLockProtected | fromArcLockProtected =>
      exact ends_alloc.mpr (ends_return.mpr rfl)
  | set self data => exact assign_ends hidle self (some data)
  | setNull self => exact assign_ends hidle self none
  | bumpIntoNull self nullCow newData => exact bumpIntoNull_ends hidle self nullCow newData
  | createRemoveLock self =>
      change (object α).Ends heap
        (.op (.acquireMut self) fun _ => .op (.releaseMut self) fun _ => reply .unit) _
      rw [ends_acquireMut (hidle.mutFree self), ends_releaseMut, ends_return,
        Heap.setMutLock_setMutLock, Heap.setMutLock_self (hidle.mutFree self), Call.leaves]
  | getMutDrop self edit => exact getMutDrop_ends hidle self edit

/-- The locks are free again unless a guard was handed out. -/
theorem idle_leaves_iff (hidle : heap.Idle) (call : Call α) :
    (call.leaves heap).Idle ↔ call.GivesBack heap := by
  cases call with
  | newLockProtected | nullLockProtected | fromArcLockProtected =>
      exact iff_of_true (hidle.alloc _) trivial
  | set self | setNull self => exact iff_of_true (hidle.setInner self _) trivial
  | bumpIntoNull self nullCow newData =>
      refine iff_of_true ?_ trivial
      rw [Call.leaves]
      split
      · exact (hidle.setInner self _).setInner nullCow _
      · exact hidle
  | createRemoveLock self => exact iff_of_true hidle trivial
  | getMutDrop self edit =>
      rw [Call.leaves, Call.GivesBack]
      cases heap.inner self with
      | none => exact iff_of_true hidle rfl
      | some data =>
          refine iff_of_false ?_ (Option.some_ne_none data)
          intro hafter
          have hfree := hafter.mutFree self
          rw [Heap.setInner_mutLock, Heap.setMutLock_mutLock, Function.update_self] at hfree
          cases hfree

theorem call_ends (hidle : heap.Idle) (call : Call α) :
    ∃ after, (object α).Ends heap (enter call) after ∧ (after.Idle ↔ call.GivesBack heap) :=
  ⟨call.leaves heap, ends_leaves hidle call, idle_leaves_iff hidle call⟩

/-- One call of the thread, on its way to a reply or to a panic. -/
def Step (cond : Heap α → Call α → Prop) (heap after : Heap α) : Prop :=
  ∃ call, cond heap call ∧ (object α).Ends heap (enter call) after

/-- **A run of calls** none of which hands out a guard leaves all locks free. -/
theorem idle_of_run {after : Heap α} (hidle : heap.Idle)
    (hrun : Relation.ReflTransGen (Step fun heap call => call.GivesBack heap) heap after) :
    after.Idle := by
  induction hrun with
  | refl => exact hidle
  | tail _ hstep ih =>
      obtain ⟨call, hgives, hends⟩ := hstep
      obtain ⟨after, hafter, hiff⟩ := call_ends ih call
      rw [hends.deterministic hafter]
      exact hiff.mpr hgives

theorem run_leaves {before heap : Heap α} (hidle : before.Idle)
    (hrun : Relation.ReflTransGen (Step fun heap call => call.GivesBack heap) before heap)
    (call : Call α) (hgives : call.GivesBack heap) :
    Relation.ReflTransGen (Step fun heap call => call.GivesBack heap) before (call.leaves heap) :=
  hrun.tail ⟨call, hgives, ends_leaves (idle_of_run hidle hrun) call⟩

end CowData

namespace SharedList

variable {T : Type} {orderFn : Option (T → T → Ordering)}

def edit (guard : MutCowData (Node T)) (func : T → T) : MutCowData (Node T) :=
  { guard with data := guard.data.map fun node => { node with data := func node.data } }

section Calls

variable {orderFn : Option (T → T → Ordering)} {list final : SharedList T} {current : Slot}
  {node : Node T} {result : Reply T}

theorem iterMutNext_some (hmut : list.heap.mutLock current = false)
    (himm : list.heap.immLock current = false) (hinner : list.heap.inner current = some node) :
    (object orderFn).Completes list (enter orderFn (.iterMutNext current)) final result ↔
      final = { list with heap := list.heap.setMutLock current true } ∧
        result = .lent (some ({ originalStructure := current, data := some node }, node.next)) := by
  simp [enter, iterMutNext, hmut, himm, hinner]

theorem iterMutNext_none (himm : list.heap.immLock current = false)
    (hinner : list.heap.inner current = none) :
    (object orderFn).Completes list (enter orderFn (.iterMutNext current)) final result ↔
      final = list ∧ result = .lent none := by
  simp [enter, iterMutNext, himm, hinner]

theorem dropMut_completes (slot : Slot) :
    (object orderFn).Completes list
        (enter orderFn (.dropMut { originalStructure := slot, data := some node })) final result ↔
      final = { list with heap := list.heap.setInner slot (some node) } ∧ result = .unit := by
  exact completes_store.trans completes_return

end Calls

/-- A pass of `iter_mut` from a position on, `none` after the last element. The guards in `held` have
not been dropped yet; the pass is over when all of them have been. -/
inductive IterMutPass (orderFn : Option (T → T → Ordering)) :
    SharedList T → Option Slot → List (MutCowData (Node T)) → SharedList T → Prop
  | finished {list : SharedList T} : IterMutPass orderFn list none [] list
  | next {list after final : SharedList T} {current next : Slot} {guard : MutCowData (Node T)}
      {held : List (MutCowData (Node T))} :
      (object orderFn).Completes list (enter orderFn (.iterMutNext current)) after
        (.lent (some (guard, next))) →
      IterMutPass orderFn after (some next) (guard :: held) final →
      IterMutPass orderFn list (some current) held final
  | last {list after final : SharedList T} {current : Slot} {held : List (MutCowData (Node T))} :
      (object orderFn).Completes list (enter orderFn (.iterMutNext current)) after (.lent none) →
      IterMutPass orderFn after none held final →
      IterMutPass orderFn list (some current) held final
  | drop {list after final : SharedList T} {position : Option Slot} {guard : MutCowData (Node T)}
      {before rest : List (MutCowData (Node T))} (func : T → T) :
      (object orderFn).Completes list (enter orderFn (.dropMut (edit guard func))) after .unit →
      IterMutPass orderFn after position (before ++ rest) final →
      IterMutPass orderFn list position (before ++ guard :: rest) final

/-- Every slot of the list can be locked. -/
def Unlocked (list : SharedList T) : Prop :=
  ∀ slot, Data.Reaches list.heap.links headSlot slot → list.heap.mutLock slot = false

def Instr.KeepsLocks : Instr T → Prop
  | .cow (.releaseMut _) | .cow (.alloc _) => False
  | _ => True

/-- Code that gives back no mutable lock, without loops. -/
def KeepsLocks : Prog (sig T) (Outcome T) → Prop
  | .ret (.inl _) => False
  | .ret (.inr _) | .panic _ => True
  | .op instr next => instr.KeepsLocks ∧ ∀ answer, KeepsLocks (next answer)

theorem exec_keeps {list : SharedList T} {instr : Instr T} {slot : Slot} (hinstr : instr.KeepsLocks)
    (hlocked : list.heap.mutLock slot = true) : (exec instr list).1.heap.mutLock slot = true := by
  match instr with
  | .cow (.acquireMut taken) =>
      change Function.update list.heap.mutLock taken true slot = true
      rw [Function.update_apply, hlocked, ite_self]
  | .cow (.awaitImm _) | .cow (.acquireImm _) | .cow (.releaseImm _) | .cow (.load _)
  | .cow (.loadFull _) | .cow (.store _ _) | .cow (.swap _ _) | .loadNoneq | .storeNoneq _
  | .fetchAddLen | .fetchSubLen | .loadLen | .callback => exact hlocked

theorem completes_keeps {list final : SharedList T} {code : Prog (sig T) (Outcome T)}
    {result : Reply T} {slot : Slot} (hcode : KeepsLocks code)
    (hrun : (object orderFn).Completes list code final result)
    (hlocked : list.heap.mutLock slot = true) : final.heap.mutLock slot = true := by
  have halone : (object orderFn).Alone (list, code) (final, reply result) := hrun
  have hstart : list.heap.mutLock slot = true ∧ KeepsLocks code := ⟨hlocked, hcode⟩
  refine (halone.invariant (I := fun (list : SharedList T) (code : Prog (sig T) (Outcome T)) =>
    list.heap.mutLock slot = true ∧ KeepsLocks code) hstart ?_).1
  intro state state' code code' ⟨hlocked, hcode⟩ hstep
  match code with
  | .ret (.inl _) => exact absurd hcode id
  | .op instr next =>
      have hkept := exec_keeps hcode.1 hlocked
      obtain ⟨after, answer, hexec⟩ : ∃ after answer, exec instr state = (after, answer) :=
        ⟨_, _, rfl⟩
      rw [hexec] at hkept
      cases answer with
      | none =>
          simp only [Object.stepCode, hexec, Option.some.injEq, Prod.mk.injEq] at hstep
          obtain ⟨rfl, rfl⟩ := hstep
          exact ⟨hkept, hcode⟩
      | some answer =>
          simp only [Object.stepCode, hexec, Option.some.injEq, Prod.mk.injEq] at hstep
          obtain ⟨rfl, rfl⟩ := hstep
          exact ⟨hkept, hcode.2 answer⟩

theorem keepsLocks_ite {p : Prop} [Decidable p] {left right : Prog (sig T) (Outcome T)} :
    KeepsLocks (if p then left else right) ↔ (p → KeepsLocks left) ∧ (¬ p → KeepsLocks right) := by
  by_cases hp : p <;> simp [hp]

theorem keepsLocks_unwrap {content : Option (Node T)} {next : Node T → Prog (sig T) (Outcome T)} :
    KeepsLocks ((unwrap content).bind next) ↔
      ∀ node, content = some node → KeepsLocks (next node) := by
  cases content <;> simp [KeepsLocks]

theorem iterMutNext_keeps (current : Slot) :
    KeepsLocks (enter orderFn (.iterMutNext current) : Prog (sig T) (Outcome T)) := by
  simp [enter, iterMutNext, KeepsLocks, Instr.KeepsLocks, keepsLocks_ite, keepsLocks_unwrap]

theorem dropMut_keeps (guard : MutCowData (Node T)) :
    KeepsLocks (enter orderFn (.dropMut guard) : Prog (sig T) (Outcome T)) := by
  obtain ⟨slot, data⟩ := guard
  cases data with
  | none => trivial
  | some node => exact ⟨trivial, fun _ => trivial⟩

theorem pass_keeps {list final : SharedList T} {position : Option Slot}
    {held : List (MutCowData (Node T))} (hpass : IterMutPass orderFn list position held final)
    {slot : Slot} (hlocked : list.heap.mutLock slot = true) : final.heap.mutLock slot = true := by
  induction hpass with
  | finished => exact hlocked
  | next hcall _ ih => exact ih (completes_keeps (iterMutNext_keeps _) hcall hlocked)
  | last hcall _ ih => exact ih (completes_keeps (iterMutNext_keeps _) hcall hlocked)
  | drop _ hcall _ ih => exact ih (completes_keeps (dropMut_keeps _) hcall hlocked)

/-- **A pass of `iter_mut`** gives back the locks it takes if it takes none. -/
theorem pass_unlocked_iff {list final : SharedList T} {xs : List T} (hlist : list.Represents xs)
    (hpass : IterMutPass orderFn list (some headSlot) [] final) : final.Unlocked ↔ xs = [] := by
  obtain ⟨slots, hlayout⟩ := hlist
  have hc := Cursor.start hlayout
  have hmut := hlayout.mutFree headSlot List.mem_cons_self
  have himm := hc.immFree_current
  generalize hheld : ([] : List (MutCowData (Node T))) = held at hpass
  cases xs with
  | nil =>
      have hinner := hc.inner_of_nil
      cases hpass with
      | next hcall _ => cases ((iterMutNext_none himm hinner).mp hcall).2
      | last hcall hrest =>
          obtain ⟨rfl, -⟩ := (iterMutNext_none himm hinner).mp hcall
          cases hrest with
          | finished =>
              refine iff_of_true ?_ rfl
              intro slot hreaches
              exact hlayout.mutFree slot (hlayout.chain.mem_of_reaches hreaches)
          | drop => simp at hheld
      | drop => simp at hheld
  | cons entry xs =>
      obtain ⟨next, after, rfl, hinner⟩ := hc.inner_of_cons
      refine iff_of_false ?_ (List.cons_ne_nil entry xs)
      intro hunlocked
      cases hpass with
      | next hcall hrest =>
          obtain ⟨rfl, -⟩ := (iterMutNext_some hmut himm hinner).mp hcall
          have hlocked : final.heap.mutLock headSlot = true := pass_keeps hrest (by simp)
          rw [hunlocked headSlot .refl] at hlocked
          cases hlocked
      | last hcall hrest => cases ((iterMutNext_some hmut himm hinner).mp hcall).2
      | drop => simp at hheld

/-- A pass over a list of one element, which is changed before its guard is dropped. -/
theorem iterMutPass_ofList : ∃ final : SharedList ℕ,
    IterMutPass none (ofList [7]) (some headSlot) [] final ∧
      (final.heap.inner headSlot).map Node.data = some 8 := by
  let lent : SharedList ℕ := { ofList [7] with heap := (ofList [7]).heap.setMutLock headSlot true }
  let final : SharedList ℕ :=
    { lent with heap := lent.heap.setInner headSlot (some { data := 8, next := 1 }) }
  let guard : MutCowData (Node ℕ) :=
    { originalStructure := headSlot, data := some { data := 7, next := 1 } }
  have hlent : (object none).Completes (ofList [7])
      (enter none (.iterMutNext headSlot)) lent (.lent (some (guard, 1))) :=
    (iterMutNext_some rfl rfl rfl).mpr ⟨rfl, rfl⟩
  have hdropped : (object none).Completes lent
      (enter none (.dropMut (edit guard (· + 1)))) final .unit :=
    (dropMut_completes headSlot).mpr ⟨rfl, rfl⟩
  have hended : (object none).Completes final
      (enter none (.iterMutNext 1)) final (.lent none) :=
    (iterMutNext_none rfl rfl).mpr ⟨rfl, rfl⟩
  have hdrop : IterMutPass none lent (some 1) ([] ++ guard :: []) final :=
    .drop (· + 1) hdropped (.last hended .finished)
  exact ⟨final, .next hlent hdrop, rfl⟩

end SharedList

open CowData SharedList

/-- **Mutable locks are given back** in every run that hands out no guard, and a call from such a
run ends with all of them free exactly if it hands out no guard; a pass of `iter_mut` gives them
back exactly if the list is empty. -/
theorem mutLocks_given_back (α T : Type) :
    (∀ heap : Heap α,
      Relation.ReflTransGen (CowData.Step fun heap call => call.GivesBack heap) Heap.empty heap →
        heap.Idle ∧ ∀ call, ∃ after,
          (CowData.object α).Ends heap (CowData.enter call) after ∧
            (after.Idle ↔ call.GivesBack heap)) ∧
    ∀ (orderFn : Option (T → T → Ordering)) (list final : SharedList T) (xs : List T),
      list.Represents xs → IterMutPass orderFn list (some headSlot) [] final →
        (final.Unlocked ↔ xs = []) := by
  refine ⟨?_, ?_⟩
  · intro heap hrun
    have hidle := CowData.idle_of_run .empty hrun
    exact ⟨hidle, CowData.call_ends hidle⟩
  · intro orderFn list final xs hlist hpass
    exact pass_unlocked_iff hlist hpass

/-- Three `CowData` are built, the first one is set, locked and unlocked and bumped into the second
one, and the third is set to null. There are a pass over an empty list and one over an element. -/
theorem mutLocks_given_back_calls :
    (∃ heap : Heap ℕ,
      Relation.ReflTransGen (CowData.Step fun heap call => call.GivesBack heap) Heap.empty heap ∧
        [heap.inner 0, heap.inner 1, heap.inner 2] = [some 4, some 3, none] ∧ heap.Idle) ∧
    (SharedList.new : SharedList ℕ).Unlocked ∧
    ∃ final : SharedList ℕ,
      IterMutPass none (ofList [7]) (some headSlot) [] final ∧
        (final.heap.inner headSlot).map Node.data = some 8 ∧ ¬ final.Unlocked := by
  obtain ⟨hruns, hpasses⟩ := mutLocks_given_back ℕ ℕ
  refine ⟨?_, ?_, ?_⟩
  · have hrun := CowData.run_leaves .empty .refl (.newLockProtected 0) trivial
    have hrun := CowData.run_leaves .empty hrun .nullLockProtected trivial
    have hrun := CowData.run_leaves .empty hrun (.fromArcLockProtected (some 5)) trivial
    have hrun := CowData.run_leaves .empty hrun (.set 0 3) trivial
    have hrun := CowData.run_leaves .empty hrun (.createRemoveLock 0) trivial
    have hrun := CowData.run_leaves .empty hrun (.bumpIntoNull 0 1 4) trivial
    have hrun := CowData.run_leaves .empty hrun (.setNull 2) trivial
    exact ⟨_, hrun, rfl, (hruns _ hrun).1⟩
  · have hpass : IterMutPass none SharedList.new (some headSlot) [] (SharedList.new : SharedList ℕ) :=
      .last ((iterMutNext_none rfl rfl).mpr ⟨rfl, rfl⟩) .finished
    exact (hpasses none _ _ [] new_represents hpass).mpr rfl
  · obtain ⟨final, hpass, hchanged⟩ := iterMutPass_ofList
    refine ⟨final, hpass, hchanged, fun hunlocked => ?_⟩
    cases (hpasses none _ final [7] (ofList_represents [7]) hpass).mp hunlocked

/-- The lock is still taken after the first `get_mut`, and the next `set` does not come to an end. -/
theorem mutLocks_given_back_fails :
    ∃ built after : Heap ℕ,
      (CowData.object ℕ).Ends Heap.empty (CowData.enter (.newLockProtected 0)) built ∧
      (CowData.object ℕ).Ends built (CowData.enter (.getMutDrop 0 id)) after ∧
      after.mutLock 0 = true ∧
      ∀ data final, ¬ (CowData.object ℕ).Ends after (CowData.enter (.set 0 data)) final := by
  refine ⟨Heap.empty.alloc (some 0),
    ((Heap.empty.alloc (some 0)).setMutLock 0 true).setInner 0 (some 0), ?_, ?_, rfl, ?_⟩
  · simp [CowData.enter, newLockProtected, allocLockProtected]
  · simp [CowData.enter, getMut, MutCowData.drop, createLock, lockProtected, unwrap, Heap.empty]
  · intro data final
    exact CowData.not_ends_of_locked rfl

end Mutual
