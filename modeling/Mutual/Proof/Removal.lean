import Mutual.Proof.Runs

/-!
# Concurrent removals

`pop` and `remove_count` overwrite a slot they hold the lock of with the content of the next slot,
which they read without its lock. The element in the slot is thereby off the list, provided that the
slot still is on the list and that the next slot still has the content that was read. Where a store
meets these two conditions it takes exactly the element its call goes on to return; where it does
not, an element comes back or is handed out a second time.
-/

namespace Mutual.SharedList

open Concurrency Data

variable {T : Type}

def Reply.elements : Reply T → List T
  | popped data => data.toList
  | removed output => output
  | _ => []

def returned {ι : Type} (history : List (Event ι (Call T) (Reply T))) : List T :=
  history.flatMap fun
    | .respond _ _ result => result.elements
    | .invoke _ _ => []

/-- A store that takes an element off the list: the slot is reached from `head`, and it gets the
content that the next slot has at that moment. -/
def TakesCurrent (list : SharedList T) (slot : Slot) (content : Option (Node T)) : Prop :=
  Reaches list.heap.links headSlot slot ∧
    ∀ node, list.heap.inner slot = some node → content = list.heap.inner node.next

/-- Every store about to be made takes an element off the list. -/
def CleanRemoval {orderFn : Option (T → T → Ordering)} {ι : Type}
    (config : Config (object orderFn) ι) : Action (object orderFn) ι → Prop
  | .tick t => OnStore TakesCurrent config t
  | .invoke _ call => call.Removes

/-! ### What a removing thread owns -/

/-- The slot a thread holds the lock of, with its content, and the elements the thread has taken off
the list in the call it is in. -/
structure Holding (T : Type) where
  held : Option (Slot × Option (Node T))
  taken : List T

namespace Holding

variable (g : Holding T)

def May : Instr T → Prop
  | .cow (.acquireMut _) => g.held = none
  | .cow (.releaseMut slot) => ∃ content, g.held = some (slot, content)
  | .cow (.store slot _) => ∃ node, g.held = some (slot, some node)
  | .cow (.awaitImm _) | .cow (.load _) | .cow (.loadFull _) | .fetchSubLen | .callback => True
  | _ => False

def Knows (slot : Slot) (answer : Option (Node T)) : Prop :=
  ∀ content, g.held = some (slot, content) → answer = content

def Move : (instr : Instr T) → instr.Answer → Holding T → Prop
  | .cow (.acquireMut slot), _, g' => ∃ content, g' = { g with held := some (slot, content) }
  | .cow (.releaseMut _), _, g' => g' = { g with held := none }
  | .cow (.load slot), answer, g' => g.Knows slot answer ∧ g' = g
  | .cow (.loadFull slot), answer, g' => g.Knows slot answer ∧ g' = g
  | .cow (.store slot content), _, g' =>
      ∃ node, g.held = some (slot, some node) ∧
        g' = { held := some (slot, content), taken := g.taken ++ [node.data] }
  | _, _, g' => g' = g

def Loops : Label T → Prop
  | .removeCount _ _ current _ output =>
      ∃ content, g = { held := some (current, content), taken := output }
  | _ => False

end Holding

def removal (orderFn : Option (T → T → Ordering)) : Protocol (object orderFn) (Holding T) where
  rest := { held := none, taken := [] }
  start call g := call.Removes ∧ g = { held := none, taken := [] }
  may _ g := g.May
  move _ g := g.Move
  fail _ _ := False
  arrive _ label g := g.Loops label
  leave _ label g := g.Loops label
  finish _ result g := g = { held := none, taken := result.elements }

section Code

variable {orderFn : Option (T → T → Ordering)} {call : Call T} {g : Holding T}

@[simp] theorem removal_may {instr : Instr T} :
    (removal orderFn).may call g instr ↔ g.May instr := Iff.rfl

@[simp] theorem removal_move {instr : Instr T} {answer : instr.Answer} {g' : Holding T} :
    (removal orderFn).move call g instr answer g' ↔ g.Move instr answer g' := Iff.rfl

@[simp] theorem removal_finish {result : Reply T} :
    (removal orderFn).finish call result g ↔ g = { held := none, taken := result.elements } :=
  Iff.rfl

@[simp] theorem removal_arrive {label : Label T} :
    (removal orderFn).arrive call label g ↔ g.Loops label := Iff.rfl

theorem removal_pop : (removal orderFn).Obeys call pop { held := none, taken := [] } := by
  simp only [pop, head, Prog.bind_eq, removeLock_bind, perform_bind, getRef_bind,
    Option.isNone_iff_eq_none, isNull_bind, createLock_bind, Protocol.obeys_op, removal_may,
    Holding.May, removal_move, Holding.Move, Holding.Knows, and_imp, forall_eq_apply_imp_iff,
    true_and, forall_eq, forall_const, forall_exists_index, Option.some.injEq, Prod.mk.injEq,
    forall_eq']
  intro content
  cases content with
  | none => simp [Holding.May, Holding.Move, Reply.elements]
  | some node => simp [Holding.May, Holding.Move, Holding.Knows, Reply.elements]

theorem removal_removeCountLoop (func : List T → T → Bool) (seen : List T) (current : Slot)
    (count : UInt32) (output : List T) (content : Option (Node T)) :
    (removal orderFn).Obeys call (removeCountLoop func seen current count output)
      { held := some (current, content), taken := output } := by
  simp only [removeCountLoop, gt_iff_lt, Bool.and_eq_true, Bool.not_eq_eq_eq_not, Bool.not_true,
    decide_eq_true_eq, Prog.bind_eq, perform_bind, createLock_bind, removeLock_bind, getRef_bind,
    Option.isNone_iff_eq_none, isNull_bind, Option.isNone_eq_false_iff, Protocol.obeys_op,
    removal_may, Holding.May, removal_move, Holding.Move, Holding.Knows, and_imp,
    forall_eq_apply_imp_iff, true_and, forall_eq, Option.some.injEq, Prod.mk.injEq, forall_eq',
    forall_const]
  cases content with
  | none => simp [Holding.May, Holding.Move, Reply.elements]
  | some node =>
      by_cases hcount : 0 < count
      · by_cases hfunc : func seen node.data = true
        · simp [hcount, hfunc, Holding.May, Holding.Move, Holding.Knows, Holding.Loops]
        · simp [hcount, hfunc, Holding.May, Holding.Move, Holding.Knows, Holding.Loops]
      · simp [hcount, Holding.May, Holding.Move, Reply.elements]

theorem removal_sound (orderFn : Option (T → T → Ordering)) : (removal orderFn).Sound where
  enter := by
    rintro call g ⟨hremoves, rfl⟩
    cases call with
    | pop => exact removal_pop
    | removeCount func count =>
        simp [enter, removeCount, head, Holding.May, Holding.Move, Holding.Loops]
    | _ => exact hremoves.elim
  body := by
    intro call label g hleave
    cases label with
    | removeCount func seen current count output =>
        obtain ⟨content, rfl⟩ := hleave
        exact removal_removeCountLoop func seen current count output content
    | _ => exact hleave.elim

end Code

/-! ### What the memory of the list guarantees -/

variable {ι : Type} [DecidableEq ι] [Fintype ι]

structure RemovalWorld (initial : List T) (list : SharedList T) (ghost : ι → Holding T)
    (history : List (Event ι (Call T) (Reply T))) : Prop where
  owned : ∀ t slot content, (ghost t).held = some (slot, content) →
    list.heap.mutLock slot = true ∧ list.heap.inner slot = content
  exclusive : ∀ t u slot content content', (ghost t).held = some (slot, content) →
    (ghost u).held = some (slot, content') → t = u
  account : ∃ slots xs, Chain list.heap.links (headSlot :: slots) xs ∧
    (headSlot :: slots).Nodup ∧ xs.Sublist initial ∧
    (returned history : Multiset T) + ∑ t, ((ghost t).taken : Multiset T) + xs = initial

namespace RemovalWorld

variable {initial : List T} {list : SharedList T} {ghost : ι → Holding T}
  {history : List (Event ι (Call T) (Reply T))} {t : ι} {slot : Slot}

theorem sum_taken_update (ghost : ι → Holding T) (t : ι) (g : Holding T) :
    ∑ u, ((Function.update ghost t g u).taken : Multiset T) + (ghost t).taken =
      ∑ u, ((ghost u).taken : Multiset T) + g.taken :=
  sum_update (fun g : Holding T => (g.taken : Multiset T)) ghost t g

omit [DecidableEq ι] in
theorem of_heap_eq (hw : RemovalWorld initial list ghost history) {list' : SharedList T}
    (hheap : list'.heap = list.heap) : RemovalWorld initial list' ghost history where
  owned := by
    rw [hheap]
    exact hw.owned
  exclusive := hw.exclusive
  account := by
    rw [hheap]
    exact hw.account

omit [Fintype ι] in
/-- The slots the threads have are still different ones if no other thread has what `t` gets. -/
theorem exclusive_update (hexclusive : ∀ u v slot content content',
      (ghost u).held = some (slot, content) → (ghost v).held = some (slot, content') → u = v)
    {g : Holding T} (hg : ∀ slot content, g.held = some (slot, content) →
      ∀ u content', (ghost u).held = some (slot, content') → u = t) (u v : ι) (slot : Slot)
    (content content' : Option (Node T))
    (hu : (Function.update ghost t g u).held = some (slot, content))
    (hv : (Function.update ghost t g v).held = some (slot, content')) : u = v := by
  refine unique_update (fun g : Holding T => ∃ content, g.held = some (slot, content)) ghost t ?_ ?_
    u v ⟨content, hu⟩ ⟨content', hv⟩
  · rintro u v ⟨content, hu⟩ ⟨content', hv⟩
    exact hexclusive u v slot content content' hu hv
  · rintro ⟨content, hslot⟩ u ⟨content', hu⟩
    exact hg slot content hslot u content' hu

theorem acquire (hw : RemovalWorld initial list ghost history)
    (hfree : list.heap.mutLock slot = false) :
    RemovalWorld initial { list with heap := list.heap.setMutLock slot true }
      (Function.update ghost t { ghost t with held := some (slot, list.heap.inner slot) })
      history where
  owned := by
    intro u other content hheld
    by_cases hother : other = slot
    · subst hother
      refine ⟨Function.update_self .., ?_⟩
      by_cases hu : u = t
      · subst hu
        rw [Function.update_self] at hheld
        cases hheld
        rfl
      · rw [Function.update_of_ne hu] at hheld
        exact (hw.owned u other content hheld).2
    · by_cases hu : u = t
      · subst hu
        rw [Function.update_self] at hheld
        cases hheld
        exact absurd rfl hother
      · rw [Function.update_of_ne hu] at hheld
        have howned := hw.owned u other content hheld
        exact ⟨(Function.update_of_ne hother ..).trans howned.1, howned.2⟩
  exclusive := by
    -- nobody else holds the slot, its lock being free
    have hnot : ∀ u content, (ghost u).held ≠ some (slot, content) := by
      intro u content hheld
      rw [(hw.owned u slot content hheld).1] at hfree
      cases hfree
    apply exclusive_update hw.exclusive
    rintro other content ⟨⟩ u content' hu
    exact absurd hu (hnot u content')
  account := by
    obtain ⟨slots, xs, hchain, hnodup, hsublist, hcount⟩ := hw.account
    refine ⟨slots, xs, hchain, hnodup, hsublist, ?_⟩
    rw [sum_update_of_eq (fun g : Holding T => (g.taken : Multiset T)) ghost t]
    · exact hcount
    · rfl

theorem release (hw : RemovalWorld initial list ghost history) {content : Option (Node T)}
    (hheld : (ghost t).held = some (slot, content)) :
    RemovalWorld initial { list with heap := list.heap.setMutLock slot false }
      (Function.update ghost t { ghost t with held := none }) history where
  owned := by
    intro u other content' hu
    by_cases hut : u = t
    · subst hut
      rw [Function.update_self] at hu
      cases hu
    · rw [Function.update_of_ne hut] at hu
      have hother : other ≠ slot := by
        rintro rfl
        exact hut (hw.exclusive u t other content' content hu hheld)
      have howned := hw.owned u other content' hu
      exact ⟨(Function.update_of_ne hother ..).trans howned.1, howned.2⟩
  exclusive := by
    apply exclusive_update hw.exclusive
    rintro other content ⟨⟩
  account := by
    obtain ⟨slots, xs, hchain, hnodup, hsublist, hcount⟩ := hw.account
    refine ⟨slots, xs, hchain, hnodup, hsublist, ?_⟩
    rw [sum_update_of_eq (fun g : Holding T => (g.taken : Multiset T)) ghost t]
    · exact hcount
    · rfl

/-- A clean store takes the element in the slot off the list. -/
theorem store (hw : RemovalWorld initial list ghost history) {node : Node T}
    {content : Option (Node T)} (hheld : (ghost t).held = some (slot, some node))
    (htakes : list.TakesCurrent slot content) :
    RemovalWorld initial { list with heap := list.heap.setInner slot content }
      (Function.update ghost t
        { held := some (slot, content), taken := (ghost t).taken ++ [node.data] }) history where
  owned := by
    intro u other content' hu
    by_cases hut : u = t
    · subst hut
      rw [Function.update_self] at hu
      cases hu
      exact ⟨(hw.owned u slot _ hheld).1, Function.update_self ..⟩
    · rw [Function.update_of_ne hut] at hu
      have hother : other ≠ slot := by
        rintro rfl
        exact hut (hw.exclusive u t other content' _ hu hheld)
      have howned := hw.owned u other content' hu
      exact ⟨howned.1, (Function.update_of_ne hother ..).trans howned.2⟩
  exclusive := by
    -- the thread has had the slot before
    apply exclusive_update hw.exclusive
    rintro other content' ⟨⟩ u content'' hu
    exact hw.exclusive u t slot content'' (some node) hu hheld
  account := by
    obtain ⟨slots, xs, hchain, hnodup, hsublist, hcount⟩ := hw.account
    obtain ⟨hreaches, hcontent⟩ := htakes
    have hinner := (hw.owned t slot _ hheld).2
    obtain ⟨before, after, hsplit⟩ := List.append_of_mem (hchain.mem_of_reaches hreaches)
    rw [hsplit] at hchain hnodup
    obtain ⟨xs₁, xs₂, after', rfl, rfl, -, hremoved⟩ :=
      hchain.remove hnodup (Heap.links_eq_some hinner)
    obtain ⟨slots', hslots'⟩ := Chain.first_kept hsplit after'
    refine ⟨slots', xs₁ ++ xs₂, ?_, ?_, ?_, ?_⟩
    · change Chain (list.heap.setInner slot content).links _ _
      rw [hcontent node hinner, Heap.links_copy, ← hslots']
      exact hremoved
    · rw [← hslots']
      exact hnodup.sublist Chain.removed_sublist
    · exact (List.Sublist.append_left (List.sublist_cons_self ..) xs₁).trans hsublist
    · have hsum := sum_taken_update ghost t
        { held := some (slot, content), taken := (ghost t).taken ++ [node.data] }
      rw [← hcount, add_assoc, add_assoc]
      congr 1
      rw [← Multiset.coe_add, ← Multiset.coe_add, ← Multiset.cons_coe, ← Multiset.singleton_add]
      refine add_right_cancel (b := ((ghost t).taken : Multiset T)) ?_
      rw [← Multiset.coe_add, Multiset.coe_singleton] at hsum
      calc _ = (∑ u, ((ghost u).taken : Multiset T) + (((ghost t).taken : Multiset T) + {node.data}))
            + (xs₁ + xs₂) := by rw [← hsum]; abel
        _ = _ := by abel

theorem respond (hw : RemovalWorld initial list ghost history) {call : Call T} {result : Reply T}
    (hdone : ghost t = { held := none, taken := result.elements }) :
    RemovalWorld initial list (Function.update ghost t { held := none, taken := [] })
      (history ++ [.respond t call result]) where
  owned := by
    intro u other content hu
    by_cases hut : u = t
    · subst hut
      rw [Function.update_self] at hu
      cases hu
    · rw [Function.update_of_ne hut] at hu
      exact hw.owned u other content hu
  exclusive := by
    apply exclusive_update hw.exclusive
    rintro other content ⟨⟩
  account := by
    obtain ⟨slots, xs, hchain, hnodup, hsublist, hcount⟩ := hw.account
    refine ⟨slots, xs, hchain, hnodup, hsublist, ?_⟩
    have hsum := sum_taken_update ghost t { held := none, taken := [] }
    rw [hdone] at hsum
    rw [← hcount]
    congr 1
    have hreturned : returned (history ++ [.respond t call result]) =
        returned history ++ result.elements := by simp [returned]
    rw [hreturned, ← Multiset.coe_add, add_assoc, add_comm (result.elements : Multiset T), hsum]
    simp

omit [DecidableEq ι] in
theorem invoke (hw : RemovalWorld initial list ghost history) (call : Call T) :
    RemovalWorld initial list ghost (history ++ [.invoke t call]) where
  owned := hw.owned
  exclusive := hw.exclusive
  account := by
    have hreturned : returned (history ++ [.invoke t call]) = returned history := by
      simp [returned]
    rw [hreturned]
    exact hw.account

end RemovalWorld

theorem removal_keeps (orderFn : Option (T → T → Ordering)) (initial : List T) :
    (removal orderFn).Keeps (CleanRemoval (ι := ι)) (RemovalWorld initial) where
  invoke := by
    intro config ghost t call hw hremoves hrest
    refine ⟨_, ⟨hremoves, rfl⟩, ?_⟩
    rw [show { held := none, taken := [] } = ghost t from hrest.symm, Function.update_eq_self]
    exact hw.invoke call
  respond := by
    intro config ghost t call result hw _ _ hdone
    exact hw.respond hdone
  jump := by
    intro config ghost t call label hw _ _ harrive
    refine ⟨ghost t, harrive, ?_⟩
    rw [Function.update_eq_self]
    exact hw
  answered := by
    intro config ghost t call instr next state answer hw hat hclean hmay hexec
    have hsame : state.heap = config.state.heap →
        RemovalWorld initial state (Function.update ghost t (ghost t)) config.history := by
      intro hheap
      rw [Function.update_eq_self]
      exact hw.of_heap_eq hheap
    match instr, hmay with
    | .cow (.awaitImm slot), _ =>
        obtain ⟨-, rfl⟩ := awaitImm_answered hexec
        exact ⟨ghost t, rfl, hsame rfl⟩
    | .fetchSubLen, _ | .callback, _ =>
        cases hexec
        exact ⟨ghost t, rfl, hsame rfl⟩
    | .cow (.load slot), _ | .cow (.loadFull slot), _ =>
        cases hexec
        exact ⟨ghost t, ⟨fun content hheld => (hw.owned t slot content hheld).2, rfl⟩, hsame rfl⟩
    | .cow (.acquireMut slot), _ =>
        obtain ⟨hfree, rfl⟩ := acquireMut_answered hexec
        exact ⟨_, ⟨_, rfl⟩, hw.acquire hfree⟩
    | .cow (.releaseMut slot), ⟨content, hheld⟩ =>
        cases hexec
        exact ⟨_, rfl, hw.release hheld⟩
    | .cow (.store slot content), ⟨node, hheld⟩ =>
        cases hexec
        exact ⟨_, ⟨node, hheld, rfl⟩, hw.store hheld (OnStore.clean hclean hat)⟩
  retried := by
    intro config ghost t call instr next state hw _ _ hmay hexec
    rcases retried_cases hexec with ⟨slot, rfl, rfl⟩ | ⟨slot, rfl, -, rfl⟩ | ⟨slot, rfl, -, -⟩
    · exact hw
    · exact hw
    · exact hmay.elim

/-- **Removal.** In a run that makes clean stores only, no element is returned more often than the
list had it, and once all calls have returned the list and the returned elements make up the initial
list, the list being in its initial order. -/
theorem removal_exactly_once {orderFn : Option (T → T → Ordering)} {initial : List T}
    {list : SharedList T} (hlist : list.Represents initial)
    {config : Config (object orderFn) ι}
    (hreach : ((object orderFn).threads ι).Reach CleanRemoval (.initial list) config) :
    (returned config.history : Multiset T) ≤ initial ∧
      (config.Quiescent → ∃ xs, config.state.Holds xs ∧ xs.Sublist initial ∧
        (returned config.history ++ xs).Perm initial) := by
  have hstart : RemovalWorld initial list (fun _ : ι => (removal orderFn).rest) [] := by
    obtain ⟨slots, hlayout⟩ := hlist
    refine ⟨?_, ?_, slots, initial, hlayout.chain, hlayout.nodup, .refl initial, ?_⟩
    · intro t slot content hheld
      cases hheld
    · intro t u slot content content' hheld
      cases hheld
    · simp [removal, returned]
  obtain ⟨ghost, hfollows, hw⟩ :=
    Protocol.invariant (removal_sound orderFn) (removal_keeps orderFn initial) hstart hreach
  obtain ⟨slots, xs, hchain, -, hsublist, hcount⟩ := hw.account
  constructor
  · rw [← hcount, add_assoc]
    exact Multiset.le_add_right _ _
  · intro hquiescent
    -- a thread between calls has passed on everything it has taken
    have hrest : ∀ t, (ghost t).taken = [] := by
      intro t
      have ht := hfollows t
      rw [hquiescent t] at ht
      exact congrArg Holding.taken ht
    refine ⟨xs, ⟨slots, hchain⟩, hsublist, Multiset.coe_eq_coe.mp ?_⟩
    rw [← Multiset.coe_add]
    simpa [hrest] using hcount

/-! ### Runs -/

def TakesSecond (list : SharedList T) (slot : Slot) (content : Option (Node T)) : Prop :=
  slot = headSlot ∧
    content = (list.heap.inner slot).bind fun node => list.heap.inner node.next

instance [DecidableEq T] (list : SharedList T) (slot : Slot) (content : Option (Node T)) :
    Decidable (list.TakesSecond slot content) := inferInstanceAs (Decidable (_ ∧ _))

theorem TakesSecond.takesCurrent (list : SharedList T) (slot : Slot) (content : Option (Node T))
    (htakes : list.TakesSecond slot content) : list.TakesCurrent slot content := by
  obtain ⟨rfl, rfl⟩ := htakes
  refine ⟨.refl, fun node hnode => ?_⟩
  rw [hnode]
  rfl

def FrontRemoval {orderFn : Option (T → T → Ordering)} {ι : Type}
    (config : Config (object orderFn) ι) : Action (object orderFn) ι → Prop
  | .tick t => OnStore TakesSecond config t
  | .invoke _ call => call.Removes

instance [DecidableEq T] {orderFn : Option (T → T → Ordering)} {ι : Type} :
    ∀ (config : Config (object orderFn) ι) action, Decidable (FrontRemoval config action)
  | config, .tick t => inferInstanceAs (Decidable (OnStore TakesSecond config t))
  | _, .invoke _ call => inferInstanceAs (Decidable (Call.Removes call))

theorem FrontRemoval.clean {orderFn : Option (T → T → Ordering)} {ι : Type}
    (config : Config (object orderFn) ι) (action : Action (object orderFn) ι)
    (hfront : FrontRemoval config action) : CleanRemoval config action := by
  cases action with
  | invoke t call => exact hfront
  | tick t => exact OnStore.mono TakesSecond.takesCurrent hfront

/-- A `pop` and a `remove` that waits for its lock; the third element stays. -/
theorem removal_exactly_once_pop_remove :
    ∃ config : Config (object (T := Nat) none) Bool,
      returned config.history = [1, 2] ∧ config.Quiescent ∧
      (returned config.history : Multiset Nat) ≤ ↑[1, 2, 3] ∧
      ∃ xs, config.state.Holds xs ∧ xs.Sublist [1, 2, 3] ∧
        (returned config.history ++ xs).Perm [1, 2, 3] := by
  obtain ⟨config, hrun, hreturned, hfirst, hsecond⟩ : ∃ config,
      ((object (T := Nat) none).threads Bool).runIf FrontRemoval (.initial (ofList [1, 2, 3]))
        (.invoke true .pop :: .invoke false (remove 2) :: List.replicate 3 (.tick true) ++
          .tick false :: List.replicate 8 (.tick true) ++ List.replicate 16 (.tick false)) =
        some config ∧
      returned config.history = [1, 2] ∧ config.thread true = .idle ∧ config.thread false = .idle :=
    ⟨_, rfl, rfl, rfl, rfl⟩
  have hquiescent : config.Quiescent := by
    intro t
    cases t with
    | false => exact hsecond
    | true => exact hfirst
  obtain ⟨hle, hrest⟩ := removal_exactly_once (ofList_represents [1, 2, 3])
    ((System.reach_of_runIf _ hrun).mono FrontRemoval.clean)
  exact ⟨config, hreturned, hquiescent, hle, hrest hquiescent⟩

/-- `pop` reads the content of the second slot, `remove_count` empties that slot and returns its
element, and `pop` stores what it has read: the element is back on the list. -/
def popAcrossRemove : List (Action (object (T := Nat) none) Bool) :=
  .invoke false (remove 2) :: List.replicate 18 (.tick false) ++
    .invoke true .pop :: List.replicate 8 (.tick true) ++ List.replicate 7 (.tick false) ++
    List.replicate 3 (.tick true) ++ .invoke true .pop :: List.replicate 11 (.tick true)

theorem removal_exactly_once_fails :
    ¬ ∀ config : Config (object (T := Nat) none) Bool,
      ((object none).threads Bool).Reach (OnlyCalls Call.Removes) (.initial (ofList [1, 2])) config →
      (returned config.history : Multiset Nat) ≤ ↑[1, 2] := by
  intro hclaim
  have hle := hclaim _ (System.reach_of_runIf popAcrossRemove rfl)
  exact absurd hle (by decide)

end Mutual.SharedList
