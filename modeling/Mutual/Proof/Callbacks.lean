import Mutual.Concurrency.Unwinding
import Mutual.Proof.Sequential

/-!
# User code that panics

`push` calls the order function and `remove_count` the predicate in the middle of their loops. A
mutable lock is a flag that is given back by a store, and no guard does that when the user's code
unwinds. `remove_count` has the lock of the slot it is at, so that the list is left locked. `push`
has the lock of `head` at its first call, and none at the later ones.
-/

namespace Mutual.SharedList

open Concurrency Data

variable {T : Type}

def IsCallback (instr : Instr T) : Prop := instr = .callback

theorem isCallback_callback : IsCallback (.callback : Instr T) := rfl

/-- On its own, the code comes to its `n`-th call of the user's code, which unwinds. -/
abbrev Unwinds (orderFn : Option (T → T → Ordering)) (n : ℕ) (list : SharedList T)
    (code : Prog (sig T) (Outcome T)) (after : SharedList T) : Prop :=
  (object orderFn).Unwinds IsCallback n list code after

/-- The chain from `head` comes to an end and visits no slot twice, all its slots are unlocked, and
the counter is the number of elements. -/
def Usable (list : SharedList T) : Prop :=
  ∃ slots xs, Chain list.heap.links (headSlot :: slots) xs ∧ (headSlot :: slots).Nodup ∧
    (∀ slot ∈ headSlot :: slots, list.heap.mutLock slot = false) ∧
    list.len = UInt64.ofNat xs.length

theorem Represents.usable {list : SharedList T} {xs : List T} (hlist : list.Represents xs) :
    list.Usable := by
  obtain ⟨slots, hlayout⟩ := hlist
  exact ⟨slots, xs, hlayout.chain, hlayout.nodup, hlayout.mutFree, hlayout.len⟩

theorem Cursor.not_usable {list : SharedList T} {before after : List Slot} {current : Slot}
    {xs₁ xs₂ : List T} (hc : Cursor list before current after xs₁ xs₂)
    (hlocked : list.heap.mutLock current = true) : ¬ list.Usable := by
  rintro ⟨slots, xs, hchain, -, hfree, -⟩
  obtain ⟨slots', hfirst⟩ := hc.first
  have hchain' := hc.chain
  rw [hfirst] at hchain'
  obtain ⟨hslots, -⟩ := hchain'.unique hchain
  have hmem : current ∈ headSlot :: slots := by
    rw [← hslots, ← hfirst]
    exact Cursor.current_mem
  rw [hfree current hmem] at hlocked
  cases hlocked

/-! ### Instructions -/

section Rules

variable {orderFn : Option (T → T → Ordering)} {list final : SharedList T} {slot : Slot} {n : ℕ}
  {R : Type}

@[simp]
theorem not_isCallback_cow (instr : CowData.Instr (Node T)) : ¬ IsCallback (.cow instr) := by
  intro heq
  cases heq

@[simp]
theorem not_isCallback_loadNoneq : ¬ IsCallback (.loadNoneq : Instr T) := by
  intro heq
  cases heq

@[simp]
theorem not_isCallback_fetchAddLen : ¬ IsCallback (.fetchAddLen : Instr T) := by
  intro heq
  cases heq

@[simp]
theorem not_isCallback_fetchSubLen : ¬ IsCallback (.fetchSubLen : Instr T) := by
  intro heq
  cases heq

@[simp]
theorem quiet_op {instr : Instr T} {next : instr.Answer → Prog (sig T) (Outcome T)} :
    (object orderFn).Quiet IsCallback (no_index (.op instr next)) ↔
      ¬ IsCallback instr ∧ ∀ answer, (object orderFn).Quiet IsCallback (next answer) := Iff.rfl

@[simp]
theorem quiet_reply {result : Reply T} :
    (object orderFn).Quiet IsCallback (reply result) := trivial

/-- The test of a slot whose immutable lock is free. -/
theorem unwinds_isNull {next : Bool → Prog (sig T) (Outcome T)}
    (himm : list.heap.immLock slot = false) :
    Unwinds orderFn n list ((cow (link slot).isNull).bind next) final ↔
      Unwinds orderFn n list (next (list.heap.inner slot).isNone) final := by
  rw [isNull_bind]
  exact (Object.unwinds_op (not_isCallback_cow _) (exec_awaitImm himm)).trans
    (Object.unwinds_op (not_isCallback_cow _) rfl)

theorem unwinds_getRef {next : Option (Node T) → Prog (sig T) (Outcome T)} {node : Node T}
    (himm : list.heap.immLock slot = false) (hinner : list.heap.inner slot = some node) :
    Unwinds orderFn n list ((cow (link slot).getRef).bind next) final ↔
      Unwinds orderFn n list (next (some node)) final := by
  rw [getRef_bind, ← hinner]
  refine (Object.unwinds_op (not_isCallback_cow _) (exec_awaitImm himm)).trans ?_
  refine (Object.unwinds_op (not_isCallback_cow _) rfl).trans ?_
  rw [hinner, if_neg (by simp), ← hinner]
  exact Object.unwinds_op (not_isCallback_cow _) rfl

end Rules

/-! ### `push` -/

section Push

variable {orderFn : Option (T → T → Ordering)} {order : T → T → Ordering}
  {list final : SharedList T} {data : T} {current : Slot} {n : ℕ}

theorem quiet_pushHead : (object orderFn).Quiet IsCallback (pushHead data) := by
  simp only [pushHead, head, Prog.bind_eq, createLock_bind, isNull_bind, perform_bind,
    removeLock_bind, quiet_op, not_isCallback_cow, not_false_eq_true, true_and]
  intro _ _ content
  cases content <;> simp

/-- A round at the end of the list calls nothing. -/
theorem not_unwinds_pushWalk (himm : list.heap.immLock current = false)
    (hinner : list.heap.inner current = none) :
    ¬ Unwinds orderFn n list (pushWalk order data current) final := by
  rw [pushWalk, Prog.bind_eq, unwinds_isNull himm, hinner]
  refine Object.Quiet.not_unwinds ?_
  simp

/-- The call of a round unwinds, or the round leaves the slot and a later call does. -/
theorem unwinds_pushWalk {node : Node T} (himm : list.heap.immLock current = false)
    (hinner : list.heap.inner current = some node)
    (hunwinds : Unwinds orderFn n list (pushWalk order data current) final) :
    n = 1 ∧ final = list ∨
      ∃ m, n = m + 1 ∧
        Unwinds orderFn m { list with heap := list.heap.setMutLock current false }
          (pushWalk order data node.next) final := by
  rw [pushWalk, Prog.bind_eq, unwinds_isNull himm, hinner] at hunwinds
  simp only [Option.isNone_some, Bool.false_eq_true, if_false, Prog.bind_eq] at hunwinds
  rw [unwinds_getRef himm hinner] at hunwinds
  simp only [unwrap_some_bind, perform_bind] at hunwinds
  rw [Unwinds, Object.unwinds_op not_isCallback_loadNoneq rfl] at hunwinds
  rcases (Object.unwinds_call isCallback_callback rfl).mp hunwinds with hhere | ⟨m, rfl, hrest⟩
  · exact .inl hhere
  · refine .inr ⟨m, rfl, ?_⟩
    simp only [removeLock_bind] at hrest
    split at hrest
    · exact absurd hrest (Object.Quiet.not_unwinds (by simp))
    · split at hrest
      · exact absurd hrest (Object.Quiet.not_unwinds (by simp))
      · rw [Object.unwinds_op (not_isCallback_cow _) rfl] at hrest
        exact Object.unwinds_goto.mp hrest

/-- Without a lock of its own, the walk leaves the list as it is to each call. -/
theorem pushWalk_usable {before after : List Slot} {xs₁ xs₂ : List T}
    (hc : Cursor list before current after xs₁ xs₂) (hfree : list.heap.mutLock current = false)
    (hunwinds : Unwinds orderFn n list (pushWalk order data current) final) : final.Usable := by
  induction xs₂ generalizing list before current after xs₁ n with
  | nil => exact absurd hunwinds (not_unwinds_pushWalk hc.immFree_current hc.inner_of_nil)
  | cons entry xs₂ ih =>
      obtain ⟨next, after, rfl, hinner⟩ := hc.inner_of_cons
      rcases unwinds_pushWalk hc.immFree_current hinner hunwinds with ⟨-, rfl⟩ | ⟨m, -, hrest⟩
      · exact (hc.represents hfree).usable
      · have hreleased := hc.setMutLock false
        exact ih (hreleased.next (by simp)) hreleased.mutFree_next hrest

theorem push_usable_iff {xs : List T} (hlist : list.Represents xs)
    (hunwinds : Unwinds orderFn n list (enter orderFn (.push data)) final) :
    final.Usable ↔ 2 ≤ n := by
  obtain ⟨slots, hlayout⟩ := hlist
  have hc := Cursor.start hlayout
  have himm := hc.immFree_current
  have hmut := hlayout.mutFree headSlot List.mem_cons_self
  cases orderFn with
  | none => exact absurd hunwinds quiet_pushHead.not_unwinds
  | some order =>
      rw [enter, push, Prog.bind_eq, head, unwinds_isNull himm] at hunwinds
      cases xs with
      | nil =>
          rw [hc.inner_of_nil] at hunwinds
          exact absurd hunwinds quiet_pushHead.not_unwinds
      | cons entry xs =>
          obtain ⟨next, after, rfl, hinner⟩ := hc.inner_of_cons
          rw [hinner] at hunwinds
          simp only [Option.isNone_some, Bool.false_eq_true, if_false, Prog.bind_eq,
            createLock_bind] at hunwinds
          rw [Unwinds, Object.unwinds_op (not_isCallback_cow _) (exec_acquireMut hmut),
            Object.unwinds_goto] at hunwinds
          -- the first call finds `head` locked, the later ones find no lock
          have hlocked := hc.setMutLock true
          rcases unwinds_pushWalk hlocked.immFree_current hinner hunwinds with
            ⟨rfl, rfl⟩ | ⟨m, rfl, hrest⟩
          · exact iff_of_false (hlocked.not_usable (by simp)) (by omega)
          · have hreleased := hlocked.setMutLock false
            have husable := pushWalk_usable (hreleased.next (by simp)) hreleased.mutFree_next hrest
            exact iff_of_true husable (Nat.succ_le_succ hrest.pos)

end Push

/-! ### `remove_count` -/

section RemoveCount

variable {orderFn : Option (T → T → Ordering)} {list final : SharedList T}
  {func : List T → T → Bool} {seen output : List T} {current : Slot} {count : UInt32} {n : ℕ}

/-- A round that leaves the loop calls nothing. -/
theorem not_unwinds_removeCountLoop (himm : list.heap.immLock current = false)
    (hleave : list.heap.inner current = none ∨ count = 0) :
    ¬ Unwinds orderFn n list (removeCountLoop func seen current count output) final := by
  have hclosed : ¬ (!(list.heap.inner current).isNone && decide (count > 0)) = true := by
    rcases hleave with hnone | hzero
    · simp [hnone]
    · simp [hzero]
  rw [removeCountLoop, Prog.bind_eq, unwinds_isNull himm, if_neg hclosed]
  refine Object.Quiet.not_unwinds ?_
  simp

/-- The call of a round unwinds, or a later call does, after the removal or with the lock of the
next slot. -/
theorem unwinds_removeCountLoop {node : Node T} (himm : list.heap.immLock current = false)
    (hinner : list.heap.inner current = some node) (hcount : 0 < count)
    (hnext : (list.heap.setMutLock current false).mutLock node.next = false)
    (hunwinds : Unwinds orderFn n list (removeCountLoop func seen current count output) final) :
    final = list ∨
      (∃ m, Unwinds orderFn m
        { list with
          heap := list.heap.setInner current (list.heap.inner node.next)
          len := list.len - 1 }
        (removeCountLoop func (seen ++ [node.data]) current (count - 1) (output ++ [node.data]))
        final) ∨
      ∃ m, Unwinds orderFn m
        { list with heap := (list.heap.setMutLock current false).setMutLock node.next true }
        (removeCountLoop func (seen ++ [node.data]) node.next count output) final := by
  have hopen : (!(some node : Option (Node T)).isNone && decide (count > 0)) = true := by
    simpa using hcount
  rw [removeCountLoop, Prog.bind_eq, unwinds_isNull himm, hinner, if_pos hopen, Prog.bind_eq,
    unwinds_getRef himm hinner] at hunwinds
  simp only [Prog.bind_eq, unwrap_some_bind, perform_bind] at hunwinds
  rcases (Object.unwinds_call isCallback_callback rfl).mp hunwinds with ⟨-, rfl⟩ | ⟨m, -, hrest⟩
  · exact .inl rfl
  · simp only [removeLock_bind, createLock_bind] at hrest
    split at hrest
    · rw [Object.unwinds_op (not_isCallback_cow _) rfl, Object.unwinds_op (not_isCallback_cow _) rfl,
        Object.unwinds_op not_isCallback_fetchSubLen rfl, Object.unwinds_goto] at hrest
      exact .inr (.inl ⟨m, hrest⟩)
    · rw [Object.unwinds_op (not_isCallback_cow _) rfl,
        Object.unwinds_op (not_isCallback_cow _) (exec_acquireMut hnext), Object.unwinds_goto] at hrest
      exact .inr (.inr ⟨m, hrest⟩)

/-- Every call of the loop is made under the lock of the slot it is at. -/
theorem removeCountLoop_not_usable {before after : List Slot} {xs₁ xs₂ : List T}
    (hc : Cursor list before current after xs₁ xs₂) (hlocked : list.heap.mutLock current = true)
    (hunwinds : Unwinds orderFn n list (removeCountLoop func seen current count output) final) :
    ¬ final.Usable := by
  induction xs₂ generalizing list before current after xs₁ seen count output n with
  | nil =>
      exact absurd hunwinds (not_unwinds_removeCountLoop hc.immFree_current (.inl hc.inner_of_nil))
  | cons entry xs₂ ih =>
      obtain ⟨next, after, rfl, hinner⟩ := hc.inner_of_cons
      by_cases hcount : 0 < count
      · have hreleased := hc.setMutLock false
        have hmoved := (hreleased.next (by simp)).setMutLock true
        rcases unwinds_removeCountLoop hc.immFree_current hinner hcount hreleased.mutFree_next
          hunwinds with rfl | ⟨m, hrest⟩ | ⟨m, hrest⟩
        · exact hc.not_usable hlocked
        · exact ih hc.remove hlocked hrest
        · exact ih hmoved (by simp) hrest
      · have hzero : count = 0 := UInt32.le_antisymm (UInt32.not_lt.mp hcount) (UInt32.zero_le)
        exact absurd hunwinds (not_unwinds_removeCountLoop hc.immFree_current (.inr hzero))

theorem removeCount_not_usable {xs : List T} (hlist : list.Represents xs)
    (hunwinds : Unwinds orderFn n list (enter orderFn (.removeCount func count)) final) :
    ¬ final.Usable := by
  obtain ⟨slots, hlayout⟩ := hlist
  have hlocked := (Cursor.start hlayout).setMutLock true
  have hmut := hlayout.mutFree headSlot List.mem_cons_self
  simp only [enter, removeCount, Prog.bind_eq, head, createLock_bind] at hunwinds
  rw [Unwinds, Object.unwinds_op (not_isCallback_cow _) (exec_acquireMut hmut),
    Object.unwinds_goto] at hunwinds
  exact removeCountLoop_not_usable hlocked (by simp) hunwinds

end RemoveCount

/-! ### The list after a panic -/

/-- The calls that hold no lock while the user's code runs for the `n`-th time. -/
def Call.Unlocked (n : ℕ) : Call T → Prop
  | push _ => 2 ≤ n
  | _ => False

/-- **A panic of the user's code** leaves a list that can be used exactly if it comes from the order
function of a `push`, at its second call or later. -/
theorem usable_after_panic_iff {list : SharedList T} {xs : List T} (hlist : list.Represents xs)
    (orderFn : Option (T → T → Ordering)) {call : Call T}
    (hcall : (∃ data, call = .push data) ∨ ∃ func count, call = .removeCount func count) {n : ℕ}
    {after : SharedList T} (hunwinds : Unwinds orderFn n list (enter orderFn call) after) :
    after.Usable ↔ call.Unlocked n := by
  rcases hcall with ⟨data, rfl⟩ | ⟨func, count, rfl⟩
  · exact push_usable_iff hlist hunwinds
  · exact iff_of_false (removeCount_not_usable hlist hunwinds) id

/-- The order function panics at the second element, where no lock is held. -/
theorem usable_after_panic_push :
    let orderFn : Option (ℕ → ℕ → Ordering) := some fun _ _ => .gt
    ∃ after, Unwinds orderFn 2 (ofList [3, 5]) (enter orderFn (.push 4)) after ∧ after.Usable := by
  intro orderFn
  have hunwinds : Unwinds orderFn 2 (ofList [3, 5]) (enter orderFn (.push 4))
      { ofList [3, 5] with
        heap := ((ofList [3, 5]).heap.setMutLock headSlot true).setMutLock headSlot false } := by
    -- `head` is tested and locked, and a first round leaves it
    refine .op (not_isCallback_cow _) rfl (.op (not_isCallback_cow _) rfl
      (.op (not_isCallback_cow _) rfl (.goto ?_)))
    refine .op (not_isCallback_cow _) rfl (.op (not_isCallback_cow _) rfl
      (.op (not_isCallback_cow _) rfl (.op (not_isCallback_cow _) rfl
        (.op (not_isCallback_cow _) rfl (.op not_isCallback_loadNoneq rfl
          (.returns isCallback_callback rfl (.op (not_isCallback_cow _) rfl (.goto ?_))))))))
    exact .op (not_isCallback_cow _) rfl (.op (not_isCallback_cow _) rfl
      (.op (not_isCallback_cow _) rfl (.op (not_isCallback_cow _) rfl
        (.op (not_isCallback_cow _) rfl (.op not_isCallback_loadNoneq rfl
          (.here isCallback_callback))))))
  refine ⟨_, hunwinds, ?_⟩
  exact (usable_after_panic_iff (ofList_represents [3, 5]) orderFn (.inl ⟨4, rfl⟩) hunwinds).mpr
    (Nat.le_refl 2)

/-- The predicate panics at its first call. -/
theorem usable_after_panic_fails :
    ∃ after, Unwinds none 1 (ofList [3])
      (enter none (removeAll fun _ entry => entry == 3)) after ∧ ¬ after.Usable := by
  have hunwinds : Unwinds none 1 (ofList [3]) (enter none (removeAll fun _ entry => entry == 3))
      { ofList [3] with heap := (ofList [3]).heap.setMutLock headSlot true } := by
    refine .op (not_isCallback_cow _) rfl (.goto ?_)
    exact .op (not_isCallback_cow _) rfl (.op (not_isCallback_cow _) rfl
      (.op (not_isCallback_cow _) rfl (.op (not_isCallback_cow _) rfl
        (.op (not_isCallback_cow _) rfl (.here isCallback_callback)))))
  exact ⟨_, hunwinds, removeCount_not_usable (ofList_represents [3]) hunwinds⟩

end Mutual.SharedList
