import Mutual.PlainList
import Mutual.Proof.Edits

/-!
# The list under one thread
-/

namespace Mutual.SharedList

open Concurrency Data

variable {T : Type} {orderFn : Option (T → T → Ordering)}

/-! ### Instructions of a thread on its own -/

section Rules

variable {list final : SharedList T} {slot : Slot} {result : Reply T}

@[simp] theorem completes_return {given : Reply T} :
    (object orderFn).Completes list (reply given) final result ↔ final = list ∧ result = given :=
  Object.completes_reply

@[simp] theorem completes_load {next : Option (Node T) → Prog (sig T) (Outcome T)} :
    (object orderFn).Completes list (no_index (.op (.cow (.load slot)) next)) final result ↔
      (object orderFn).Completes list (next (list.heap.inner slot)) final result :=
  Object.completes_op rfl

@[simp] theorem completes_loadFull {next : Option (Node T) → Prog (sig T) (Outcome T)} :
    (object orderFn).Completes list (no_index (.op (.cow (.loadFull slot)) next)) final result ↔
      (object orderFn).Completes list (next (list.heap.inner slot)) final result :=
  Object.completes_op rfl

@[simp] theorem completes_store {content : Option (Node T)}
    {next : Unit → Prog (sig T) (Outcome T)} :
    (object orderFn).Completes list (no_index (.op (.cow (.store slot content)) next)) final result ↔
      (object orderFn).Completes { list with heap := list.heap.setInner slot content } (next ())
        final result :=
  Object.completes_op rfl

@[simp] theorem completes_alloc {content : Option (Node T)}
    {next : Slot → Prog (sig T) (Outcome T)} :
    (object orderFn).Completes list (no_index (.op (.cow (.alloc content)) next)) final result ↔
      (object orderFn).Completes { list with heap := list.heap.alloc content }
        (next list.heap.fresh) final result :=
  Object.completes_op rfl

@[simp] theorem completes_releaseMut {next : Unit → Prog (sig T) (Outcome T)} :
    (object orderFn).Completes list (no_index (.op (.cow (.releaseMut slot)) next)) final result ↔
      (object orderFn).Completes { list with heap := list.heap.setMutLock slot false } (next ())
        final result :=
  Object.completes_op rfl

@[simp] theorem completes_releaseImm {next : Unit → Prog (sig T) (Outcome T)} :
    (object orderFn).Completes list (no_index (.op (.cow (.releaseImm slot)) next)) final result ↔
      (object orderFn).Completes { list with heap := list.heap.setImmLock slot false } (next ())
        final result :=
  Object.completes_op rfl

theorem exec_awaitImm (hfree : list.heap.immLock slot = false) :
    exec (.cow (.awaitImm slot)) list = (list, some ()) := by
  simp [exec, CowData.exec, hfree]

theorem exec_acquireMut (hfree : list.heap.mutLock slot = false) :
    exec (.cow (.acquireMut slot)) list =
      ({ list with heap := list.heap.setMutLock slot true }, some ()) := by
  simp [exec, CowData.exec, hfree]

@[simp] theorem completes_awaitImm {next : Unit → Prog (sig T) (Outcome T)}
    (hfree : list.heap.immLock slot = false) :
    (object orderFn).Completes list (no_index (.op (.cow (.awaitImm slot)) next)) final result ↔
      (object orderFn).Completes list (next ()) final result :=
  Object.completes_op (exec_awaitImm hfree)

@[simp] theorem completes_acquireMut {next : Unit → Prog (sig T) (Outcome T)}
    (hfree : list.heap.mutLock slot = false) :
    (object orderFn).Completes list (no_index (.op (.cow (.acquireMut slot)) next)) final result ↔
      (object orderFn).Completes { list with heap := list.heap.setMutLock slot true } (next ())
        final result :=
  Object.completes_op (exec_acquireMut hfree)

/-- The loop that takes the immutable lock leaves at the second turn. -/
@[simp] theorem completes_acquireImm {next : Unit → Prog (sig T) (Outcome T)}
    (hfree : list.heap.immLock slot = false) :
    (object orderFn).Completes list (no_index (.op (.cow (.acquireImm slot)) next)) final result ↔
      (object orderFn).Completes { list with heap := list.heap.setImmLock slot true } (next ())
        final result := by
  have hturn : exec (.cow (.acquireImm slot)) list =
      ({ list with heap := list.heap.setImmLock slot true }, none) := by
    simp [exec, CowData.exec, hfree]
  rw [Object.completes_retry hturn]
  refine Object.completes_op ?_
  simp [exec, CowData.exec]

@[simp] theorem completes_loadNoneq {next : Bool → Prog (sig T) (Outcome T)} :
    (object orderFn).Completes list (no_index (.op .loadNoneq next)) final result ↔
      (object orderFn).Completes list (next list.enforceNoneq) final result :=
  Object.completes_op rfl

@[simp] theorem completes_storeNoneq {enforceNoneq : Bool}
    {next : Unit → Prog (sig T) (Outcome T)} :
    (object orderFn).Completes list (no_index (.op (.storeNoneq enforceNoneq) next)) final result ↔
      (object orderFn).Completes { list with enforceNoneq := enforceNoneq } (next ()) final result :=
  Object.completes_op rfl

@[simp] theorem completes_fetchAddLen {next : Unit → Prog (sig T) (Outcome T)} :
    (object orderFn).Completes list (no_index (.op .fetchAddLen next)) final result ↔
      (object orderFn).Completes { list with len := list.len + 1 } (next ()) final result :=
  Object.completes_op rfl

@[simp] theorem completes_fetchSubLen {next : Unit → Prog (sig T) (Outcome T)} :
    (object orderFn).Completes list (no_index (.op .fetchSubLen next)) final result ↔
      (object orderFn).Completes { list with len := list.len - 1 } (next ()) final result :=
  Object.completes_op rfl

@[simp] theorem completes_loadLen {next : UInt64 → Prog (sig T) (Outcome T)} :
    (object orderFn).Completes list (no_index (.op .loadLen next)) final result ↔
      (object orderFn).Completes list (next list.len) final result :=
  Object.completes_op rfl

@[simp] theorem completes_callback {next : Unit → Prog (sig T) (Outcome T)} :
    (object orderFn).Completes list (no_index (.op .callback next)) final result ↔
      (object orderFn).Completes list (next ()) final result :=
  Object.completes_op rfl

end Rules

/-! ### A place in a list -/

/-- A thread stands at the slot `current`, whose mutable lock it may have. The elements before the
slot are `xs₁`, those from it on are `xs₂`. -/
structure Cursor (list : SharedList T) (before : List Slot) (current : Slot) (after : List Slot)
    (xs₁ xs₂ : List T) : Prop where
  first : ∃ slots, before ++ current :: after = headSlot :: slots
  chain : Chain list.heap.links (before ++ current :: after) (xs₁ ++ xs₂)
  rest : Chain list.heap.links (current :: after) xs₂
  nodup : (before ++ current :: after).Nodup
  allocated : ∀ slot ∈ before ++ current :: after, slot < list.heap.fresh
  mutFree : ∀ slot ∈ before ++ current :: after, slot ≠ current → list.heap.mutLock slot = false
  immFree : ∀ slot ∈ before ++ current :: after, list.heap.immLock slot = false
  len : list.len = UInt64.ofNat (xs₁ ++ xs₂).length

namespace Cursor

variable {list : SharedList T} {before after : List Slot} {current : Slot} {xs₁ xs₂ : List T}

theorem start {slots : List Slot} {xs : List T} (hlayout : list.Layout slots xs) :
    Cursor list [] headSlot slots [] xs where
  first := ⟨slots, rfl⟩
  chain := hlayout.chain
  rest := hlayout.chain
  nodup := hlayout.nodup
  allocated := hlayout.allocated
  mutFree := fun slot hslot _ => hlayout.mutFree slot hslot
  immFree := hlayout.immFree
  len := hlayout.len

theorem represents (hc : Cursor list before current after xs₁ xs₂)
    (hfree : list.heap.mutLock current = false) : list.Represents (xs₁ ++ xs₂) := by
  obtain ⟨slots, hslots⟩ := hc.first
  refine ⟨slots, ?_, ?_, ?_, ?_, ?_, hc.len⟩
  all_goals rw [← hslots]
  · exact hc.chain
  · exact hc.nodup
  · exact hc.allocated
  · intro slot hslot
    by_cases hcurrent : slot = current
    · rw [hcurrent, hfree]
    · exact hc.mutFree slot hslot hcurrent
  · exact hc.immFree

theorem current_mem : current ∈ before ++ current :: after :=
  List.mem_append_right _ List.mem_cons_self

theorem immFree_current (hc : Cursor list before current after xs₁ xs₂) :
    list.heap.immLock current = false := hc.immFree current current_mem

theorem setMutLock (hc : Cursor list before current after xs₁ xs₂) (locked : Bool) :
    Cursor { list with heap := list.heap.setMutLock current locked } before current after xs₁ xs₂ where
  first := hc.first
  chain := hc.chain
  rest := hc.rest
  nodup := hc.nodup
  allocated := hc.allocated
  mutFree := by
    intro slot hslot hcurrent
    simp only [Heap.setMutLock_mutLock]
    rw [Function.update_of_ne hcurrent]
    exact hc.mutFree slot hslot hcurrent
  immFree := hc.immFree
  len := hc.len

theorem inner_of_nil (hc : Cursor list before current after xs₁ []) :
    list.heap.inner current = none := by
  match after, hc.rest with
  | [], hrest => exact Option.map_eq_none_iff.mp hrest

/-- An element stands in a slot that points to the slots of the rest of the list. -/
theorem inner_of_cons {data : T} (hc : Cursor list before current after xs₁ (data :: xs₂)) :
    ∃ next after', after = next :: after' ∧
      list.heap.inner current = some { data := data, next := next } := by
  match after, hc.rest with
  | next :: after', hrest => exact ⟨next, after', rfl, Heap.inner_of_links hrest.1⟩

/-- On to the next slot, the lock of this one being free. -/
theorem next {next : Slot} {data : T}
    (hc : Cursor list before current (next :: after) xs₁ (data :: xs₂))
    (hfree : list.heap.mutLock current = false) :
    Cursor list (before ++ [current]) next after (xs₁ ++ [data]) xs₂ := by
  have hslots : before ++ [current] ++ next :: after = before ++ current :: next :: after := by
    simp
  have hxs : xs₁ ++ [data] ++ xs₂ = xs₁ ++ data :: xs₂ := by
    simp
  refine ⟨?_, ?_, hc.rest.2, ?_, ?_, ?_, ?_, ?_⟩
  · rw [hslots]
    exact hc.first
  · rw [hslots, hxs]
    exact hc.chain
  · rw [hslots]
    exact hc.nodup
  · rw [hslots]
    exact hc.allocated
  · rw [hslots]
    intro slot hslot _
    by_cases hcurrent : slot = current
    · rw [hcurrent, hfree]
    · exact hc.mutFree slot hslot hcurrent
  · rw [hslots]
    exact hc.immFree
  · rw [hxs]
    exact hc.len

theorem nodup_rest (hc : Cursor list before current after xs₁ xs₂) : (current :: after).Nodup :=
  hc.nodup.sublist (List.sublist_append_right before _)

theorem mutFree_next {next : Slot}
    (hc : Cursor list before current (next :: after) xs₁ xs₂) :
    list.heap.mutLock next = false := by
  have hmem : next ∈ before ++ current :: next :: after := by simp
  refine hc.mutFree next hmem ?_
  exact (List.ne_of_not_mem_cons (List.nodup_cons.mp hc.nodup_rest).1).symm

/-- What the edited chain holds, where the edit leaves the elements before the cursor alone. -/
theorem split_unique (hc : Cursor list before current after xs₁ xs₂) {ys₁ ys₂ : List T}
    (hsplit : xs₁ ++ xs₂ = ys₁ ++ ys₂) (hrest : Chain list.heap.links (current :: after) ys₂) :
    ys₁ = xs₁ ∧ ys₂ = xs₂ := by
  obtain ⟨-, rfl⟩ := hc.rest.unique hrest
  exact ⟨(List.append_cancel_right hsplit).symm, rfl⟩

theorem fresh_not_mem (hc : Cursor list before current after xs₁ xs₂) :
    list.heap.fresh ∉ before ++ current :: after := by
  intro hmem
  exact absurd (hc.allocated _ hmem) (Nat.lt_irrefl _)

theorem ne_fresh (hc : Cursor list before current after xs₁ xs₂) : current ≠ list.heap.fresh :=
  ne_of_mem_of_not_mem current_mem hc.fresh_not_mem

theorem alloc (hc : Cursor list before current after xs₁ xs₂) (content : Option (Node T)) :
    Cursor { list with heap := list.heap.alloc content } before current after xs₁ xs₂ := by
  have hne : ∀ slot ∈ before ++ current :: after, slot ≠ list.heap.fresh :=
    fun slot hslot => ne_of_mem_of_not_mem hslot hc.fresh_not_mem
  have hlinks : ∀ slot ∈ before ++ current :: after,
      (list.heap.alloc content).links slot = list.heap.links slot := by
    intro slot hslot
    rw [Heap.links_alloc, Function.update_of_ne (hne slot hslot)]
  refine ⟨hc.first, hc.chain.congr hlinks, hc.rest.congr ?_, hc.nodup, ?_, ?_, ?_, hc.len⟩
  · intro slot hslot
    exact hlinks slot (List.mem_append_right _ hslot)
  · intro slot hslot
    exact Nat.lt_succ_of_lt (hc.allocated slot hslot)
  · intro slot hslot hcurrent
    simp only [Heap.alloc_mutLock]
    rw [Function.update_of_ne (hne slot hslot)]
    exact hc.mutFree slot hslot hcurrent
  · intro slot hslot
    simp only [Heap.alloc_immLock]
    rw [Function.update_of_ne (hne slot hslot)]
    exact hc.immFree slot hslot

/-- A new element before the cursor, where the old content of the slot has been copied to a new
slot. -/
theorem insert (hc : Cursor list before current after xs₁ xs₂) (data : T)
    {content : Option (Node T)} (hcontent : list.heap.inner current = content) :
    Cursor
      { list with
        heap := (list.heap.alloc content).setInner current
          (some { data := data, next := list.heap.fresh })
        len := list.len + 1 }
      before current (list.heap.fresh :: after) xs₁ (data :: xs₂) := by
  subst hcontent
  have halloc := hc.alloc (list.heap.inner current)
  have hne : ∀ slot ∈ before ++ current :: after, slot ≠ list.heap.fresh :=
    fun slot hslot => ne_of_mem_of_not_mem hslot hc.fresh_not_mem
  have hcopy : (list.heap.alloc (list.heap.inner current)).links list.heap.fresh =
      (list.heap.alloc (list.heap.inner current)).links current := by
    rw [Heap.links_alloc, Function.update_self, Function.update_of_ne (hne current current_mem)]
    rfl
  have hmem : ∀ slot ∈ before ++ current :: list.heap.fresh :: after,
      slot = list.heap.fresh ∨ slot ∈ before ++ current :: after :=
    fun _ hslot => Chain.mem_inserted.mp hslot
  obtain ⟨ys₁, ys₂, hsplit, hrest, hinserted⟩ :=
    halloc.chain.insert hc.nodup hc.fresh_not_mem hcopy data
  obtain ⟨rfl, rfl⟩ := halloc.split_unique hsplit hrest
  obtain ⟨slots, hfirst⟩ := hc.first
  refine ⟨Chain.first_kept hfirst.symm _, ?_, ?_, ?_, ?_, ?_, ?_, ?_⟩
  · change Chain ((list.heap.alloc (list.heap.inner current)).setInner current _).links _ _
    rw [Heap.links_setInner]
    exact hinserted
  · change Chain ((list.heap.alloc (list.heap.inner current)).setInner current _).links _ _
    rw [Heap.links_setInner]
    exact halloc.rest.insert_first hc.nodup_rest (hne current current_mem).symm hcopy data
  · exact Chain.nodup_inserted hc.nodup hc.fresh_not_mem
  · intro slot hslot
    rcases hmem slot hslot with rfl | hslot
    · exact Nat.lt_succ_self _
    · exact halloc.allocated slot hslot
  · intro slot hslot hcurrent
    rcases hmem slot hslot with rfl | hslot
    · simp
    · exact halloc.mutFree slot hslot hcurrent
  · intro slot hslot
    rcases hmem slot hslot with rfl | hslot
    · simp
    · exact halloc.immFree slot hslot
  · have hlen := hc.len
    simp only [List.length_append, List.length_cons] at hlen ⊢
    rw [hlen]
    exact (UInt64.ofNat_add _ 1).symm

/-- The element at the cursor is taken out, where the content of the next slot is copied. -/
theorem remove {data : T} {next : Slot}
    (hc : Cursor list before current (next :: after) xs₁ (data :: xs₂)) :
    Cursor
      { list with
        heap := list.heap.setInner current (list.heap.inner next)
        len := list.len - 1 }
      before current after xs₁ xs₂ := by
  have hkept : List.Sublist (before ++ current :: after) (before ++ current :: next :: after) :=
    Chain.removed_sublist
  obtain ⟨slots, hfirst⟩ := hc.first
  obtain ⟨ys₁, ys₂, after', hsplit, hafter, hrest, hremoved⟩ :=
    hc.chain.remove hc.nodup hc.rest.1
  obtain ⟨rfl, hxs⟩ := hc.split_unique hsplit hrest
  cases hafter
  cases hxs
  obtain ⟨_, _, hafter, hxs, hfirstRemoved⟩ :=
    hc.rest.remove_first hc.nodup_rest hc.rest.1
  cases hafter
  cases hxs
  refine ⟨Chain.first_kept hfirst.symm _, ?_, ?_, hc.nodup.sublist hkept, ?_, ?_, ?_, ?_⟩
  · change Chain (list.heap.setInner current _).links _ _
    rw [Heap.links_copy]
    exact hremoved
  · change Chain (list.heap.setInner current _).links _ _
    rw [Heap.links_copy]
    exact hfirstRemoved
  · intro slot hslot
    exact hc.allocated slot (hkept.subset hslot)
  · intro slot hslot hne
    exact hc.mutFree slot (hkept.subset hslot) hne
  · intro slot hslot
    exact hc.immFree slot (hkept.subset hslot)
  · have hlen := hc.len
    simp only [List.length_append, List.length_cons] at hlen ⊢
    rw [hlen, ← Nat.add_assoc, UInt64.ofNat_add]
    exact UInt64.add_sub_cancel _ _

theorem reaches (hc : Cursor list before current after xs₁ xs₂) :
    Reaches list.heap.links headSlot current := by
  obtain ⟨slots, hfirst⟩ := hc.first
  have hchain := hc.chain
  rw [hfirst] at hchain
  exact hchain.reaches (hfirst ▸ current_mem)

theorem edit_insert (hc : Cursor list before current after xs₁ xs₂) (data : T)
    {content : Option (Node T)} (hcontent : list.heap.inner current = content) :
    Edit list
      { list with
        heap := (list.heap.alloc content).setInner current
          (some { data := data, next := list.heap.fresh })
        len := list.len + 1 } [data] := by
  subst hcontent
  refine .insert hc.reaches rfl ⟨Nat.lt_succ_self _, Function.update_self ..⟩ ?_
  rintro slot ⟨hslot, himm⟩
  refine ⟨Nat.lt_succ_of_lt hslot, ?_⟩
  change Function.update list.heap.immLock list.heap.fresh false slot = false
  rw [Function.update_of_ne (Nat.ne_of_lt hslot), himm]

theorem edit_remove {data : T} {next : Slot}
    (hc : Cursor list before current (next :: after) xs₁ (data :: xs₂)) :
    Edit list
      { list with
        heap := list.heap.setInner current (list.heap.inner next)
        len := list.len - 1 } [] :=
  .remove hc.reaches (Heap.inner_of_links hc.rest.1) rfl fun _ hslot => hslot

end Cursor

/-! ### Calls -/

structure Shows (list : SharedList T) (plain : PlainList T) : Prop where
  represents : list.Represents plain.elements
  noneq : list.enforceNoneq = plain.noneq

theorem new_shows : (new : SharedList T).Shows PlainList.empty := ⟨new_represents, rfl⟩

/-- A thread that has given back its lock leaves the list at rest. -/
theorem Cursor.shows {list : SharedList T} {before after : List Slot} {current : Slot}
    {xs₁ xs₂ : List T} {noneq : Bool} (hc : Cursor list before current after xs₁ xs₂)
    (hfree : list.heap.mutLock current = false) (hnoneq : list.enforceNoneq = noneq) :
    list.Shows { elements := xs₁ ++ xs₂, noneq := noneq } :=
  ⟨hc.represents hfree, hnoneq⟩

variable (orderFn)

theorem pushHead_edits {list : SharedList T} {plain : PlainList T} (hlist : list.Shows plain)
    (data : T) :
    ∃ final, (object orderFn).Completes list (pushHead data) final .unit ∧
      final.Shows { plain with elements := data :: plain.elements } ∧ Edits list [data] final := by
  obtain ⟨⟨slots, hlayout⟩, hnoneq⟩ := hlist
  have hc := Cursor.start hlayout
  have hmut := hlayout.mutFree headSlot List.mem_cons_self
  have himm := hlayout.immFree headSlot List.mem_cons_self
  have hlocked := hc.setMutLock true
  have hedits {content : Option (Node T)} (hcontent : list.heap.inner headSlot = content) :=
    (Edits.single (hlocked.edit_insert data hcontent)).before (edit_setMutLock headSlot false)
  have hlock : Edit list { list with heap := list.heap.setMutLock headSlot true } [] :=
    edit_setMutLock headSlot true
  by_cases hhead : list.heap.inner headSlot = none
  · have hfinal := (hlocked.insert data hhead).setMutLock false
    refine ⟨_, ?_, hfinal.shows (by simp) hnoneq, .after hlock (hedits hhead)⟩
    simp [pushHead, head, hmut, himm, hhead]
  · have hfinal := (hlocked.insert data rfl).setMutLock false
    refine ⟨_, ?_, hfinal.shows (by simp) hnoneq, .after hlock (hedits rfl)⟩
    simp [pushHead, head, hmut, himm, hhead]

theorem pop_edits {list : SharedList T} {plain : PlainList T} (hlist : list.Shows plain) :
    ∃ final, (object orderFn).Completes list pop final (.popped plain.pop.2) ∧
      final.Shows plain.pop.1 ∧ Edits list [] final := by
  obtain ⟨⟨slots, hlayout⟩, hnoneq⟩ := hlist
  have hc := Cursor.start hlayout
  have hmut := hlayout.mutFree headSlot List.mem_cons_self
  have himm := hlayout.immFree headSlot List.mem_cons_self
  cases hxs : plain.elements with
  | nil =>
      rw [hxs] at hc
      rw [PlainList.pop, hxs]
      have hfinal := (hc.setMutLock true).setMutLock false
      refine ⟨_, ?_, hfinal.shows (by simp) hnoneq, .single (.frame rfl fun _ hslot => hslot)⟩
      simp [pop, head, hmut, himm, hc.inner_of_nil]
  | cons data xs =>
      rw [hxs] at hc
      rw [PlainList.pop, hxs]
      obtain ⟨next, after, rfl, hinner⟩ := hc.inner_of_cons
      have hlocked := hc.setMutLock true
      have hfinal := hlocked.remove.setMutLock false
      have hedits := (Edits.single hlocked.edit_remove).before (edit_setMutLock headSlot false)
      refine ⟨_, ?_, hfinal.shows (by simp) hnoneq, .after (edit_setMutLock headSlot true) hedits⟩
      simp [pop, head, hmut, himm, hinner]

/-- The rounds of an ordered `push`. Only `head` is locked at the start of a round. -/
theorem pushWalk_edits {list : SharedList T} {before after : List Slot} {current : Slot}
    {xs₁ xs₂ : List T} {noneq : Bool} (order : T → T → Ordering) (data : T)
    (hc : Cursor list before current after xs₁ xs₂) (hnoneq : list.enforceNoneq = noneq)
    (hend : xs₂ = [] → list.heap.mutLock current = false) :
    ∃ final inserted, (object orderFn).Completes list (pushWalk order data current) final .unit ∧
      final.Shows { elements := xs₁ ++ insertOrdered order noneq data xs₂, noneq := noneq } ∧
      inserted.Sublist [data] ∧ Edits list inserted final := by
  induction xs₂ generalizing list before current after xs₁ with
  | nil =>
      have hinner := hc.inner_of_nil
      have himm := hc.immFree_current
      have hne := hc.ne_fresh
      have halloc := hc.alloc none
      have hfree : (list.heap.alloc none).mutLock current = false := by
        rw [Heap.alloc_mutLock, Function.update_of_ne hne, hend rfl]
      have hfinal := hc.insert data hinner
      refine ⟨_, [data], ?_, hfinal.shows hfree hnoneq, .refl _,
        .single (hc.edit_insert data hinner)⟩
      simp only [pushWalk, Prog.bind_eq, perform_bind, removeLock_bind, set_bind, Bool.and_eq_true,
        beq_iff_eq, getRef_bind, Option.isNone_iff_eq_none, isNull_bind, himm, completes_awaitImm,
        completes_load, hinner, ↓reduceIte, completes_alloc, Heap.alloc_mutLock, ne_eq, hne,
        not_false_eq_true, Function.update_of_ne, hend, completes_acquireMut,
        Heap.setMutLock_immLock, Heap.alloc_immLock, completes_acquireImm, completes_store,
        completes_releaseImm, completes_releaseMut, Heap.setMutLock_setMutLock,
        completes_fetchAddLen, completes_return, mk.injEq, and_self, and_true]
      exact (Heap.setInner_locked _ hfree halloc.immFree_current).symm
  | cons entry xs₂ ih =>
      subst hnoneq
      obtain ⟨next, after, rfl, hinner⟩ := hc.inner_of_cons
      have himm := hc.immFree_current
      have hreleased := hc.setMutLock false
      by_cases hequal : list.enforceNoneq = true ∧ order entry data = .eq
      · have hinsert : insertOrdered order list.enforceNoneq data (entry :: xs₂) =
            entry :: xs₂ := by
          simp [insertOrdered, hequal]
        rw [hinsert]
        refine ⟨_, [], ?_, hreleased.shows (by simp) rfl, List.nil_sublist _,
          .single (edit_setMutLock current false)⟩
        simp [pushWalk, hinner, himm, hequal]
      · by_cases hless : order entry data = .lt
        · have hinsert : insertOrdered order list.enforceNoneq data (entry :: xs₂) =
              data :: entry :: xs₂ := by
            simp [insertOrdered, hless]
          have hfinal := (hc.insert data rfl).setMutLock false
          rw [hinsert]
          refine ⟨_, [data], ?_, hfinal.shows (by simp) rfl, .refl _,
            (Edits.single (hc.edit_insert data rfl)).before (edit_setMutLock current false)⟩
          simp [pushWalk, hinner, himm, hless]
        · have hinsert : insertOrdered order list.enforceNoneq data (entry :: xs₂) =
              entry :: insertOrdered order list.enforceNoneq data xs₂ := by
            simp [insertOrdered, hequal, hless]
          obtain ⟨final, inserted, hrun, hfinal, hinserted, hedits⟩ :=
            ih (hreleased.next (by simp)) rfl fun _ => hreleased.mutFree_next
          refine ⟨final, inserted, ?_, ?_, hinserted,
            .after (edit_setMutLock current false) hedits⟩
          · simp only [pushWalk, Prog.bind_eq, perform_bind, removeLock_bind, set_bind,
              Bool.and_eq_true, beq_iff_eq, getRef_bind, Option.isNone_iff_eq_none, isNull_bind,
              himm, completes_awaitImm, completes_load, hinner, reduceCtorEq, ↓reduceIte,
              completes_loadFull, unwrap_some_bind, hless, completes_loadNoneq, hequal,
              completes_callback, completes_releaseMut]
            exact Object.completes_goto.mpr hrun
          · rw [hinsert, List.append_cons]
            exact hfinal

theorem push_edits {list : SharedList T} {plain : PlainList T} (hlist : list.Shows plain)
    (data : T) :
    ∃ final inserted, (object orderFn).Completes list (push orderFn data) final .unit ∧
      final.Shows (plain.push orderFn data) ∧ inserted.Sublist [data] ∧
      Edits list inserted final := by
  cases orderFn with
  | none =>
      obtain ⟨final, hrun, hfinal, hedits⟩ := pushHead_edits none hlist data
      exact ⟨final, [data], hrun, hfinal, .refl _, hedits⟩
  | some order =>
      obtain ⟨final, hrun, hfinal, hedits⟩ := pushHead_edits (some order) hlist data
      obtain ⟨⟨slots, hlayout⟩, hnoneq⟩ := hlist
      have hc := Cursor.start hlayout
      have himm := hc.immFree_current
      have hmut := hlayout.mutFree headSlot List.mem_cons_self
      cases hxs : plain.elements with
      | nil =>
          rw [hxs] at hc hfinal
          refine ⟨final, [data], ?_, ?_, .refl _, hedits⟩
          · simp only [push, head, Prog.bind_eq, createLock_bind, isNull_bind,
              Option.isNone_iff_eq_none, himm, completes_awaitImm, completes_load, hc.inner_of_nil,
              ↓reduceIte]
            exact hrun
          · rw [PlainList.push, hxs]
            exact hfinal
      | cons entry xs =>
          rw [hxs] at hc
          obtain ⟨next, after, -, hinner⟩ := hc.inner_of_cons
          obtain ⟨final, inserted, hwalk, hfinal, hinserted, hedits⟩ :=
            pushWalk_edits (some order) order data (hc.setMutLock true) hnoneq (by simp)
          refine ⟨final, inserted, ?_, ?_, hinserted, .after (edit_setMutLock headSlot true) hedits⟩
          · simp only [push, head, Prog.bind_eq, createLock_bind, isNull_bind,
              Option.isNone_iff_eq_none, himm, completes_awaitImm, completes_load, hinner,
              reduceCtorEq, ↓reduceIte, hmut, completes_acquireMut]
            exact Object.completes_goto.mpr hwalk
          · rw [PlainList.push, hxs]
            exact hfinal

theorem push_completes {list : SharedList T} {plain : PlainList T} (hlist : list.Shows plain)
    (data : T) :
    ∃ final, (object orderFn).Completes list (push orderFn data) final .unit ∧
      final.Shows (plain.push orderFn data) := by
  obtain ⟨final, _, hrun, hfinal, -⟩ := push_edits orderFn hlist data
  exact ⟨final, hrun, hfinal⟩

theorem toNat_pred {count : UInt32} (hcount : 0 < count) :
    count.toNat = (count - 1).toNat + 1 := by
  have hpos : 0 < count.toNat := UInt32.lt_iff_toNat_lt.mp hcount
  have hone : 1 ≤ count := UInt32.le_iff_toNat_le.mpr hpos
  rw [UInt32.toNat_sub_of_le _ _ hone]
  exact (Nat.sub_add_cancel hpos).symm

/-! ### What a predicate is called with

Where the code calls the predicate it does not tell the element, but the label of the next round
tells all elements the predicate has been called with. -/

inductive Consult (T : Type) where
  | called
  | seen (elements : List T)

inductive Consults : Prog (sig T) (Outcome T) → Consult T → Prop
  | called {next : Unit → Prog (sig T) (Outcome T)} : Consults (.op .callback next) .called
  | seen {func : List T → T → Bool} {elements output : List T} {current : Slot} {count : UInt32} :
      Consults (goto (.removeCount func elements current count output)) (.seen elements)

theorem not_consults_cow {instr : CowData.Instr (Node T)}
    {next : instr.Answer → Prog (sig T) (Outcome T)} (event : Consult T) :
    ¬ Consults (.op (.cow instr) next) event := by
  intro hconsults
  cases hconsults

theorem not_consults_fetchSubLen {next : Unit → Prog (sig T) (Outcome T)} (event : Consult T) :
    ¬ Consults (.op .fetchSubLen next) event := by
  intro hconsults
  cases hconsults

/-- One call with each of the elements, in order, after those with `elements`. -/
def consults (elements : List T) : List T → List (Consult T)
  | [] => []
  | entry :: rest => .called :: .seen (elements ++ [entry]) :: consults (elements ++ [entry]) rest

section Rounds

variable {list : SharedList T} {current : Slot} {node : Node T} {func : List T → T → Bool}
  {seen output : List T} {count : UInt32} {log : List (Consult T)}
  {target : SharedList T × Prog (sig T) (Outcome T)}

/-- A round of `remove_count` as far as the call of the predicate. -/
theorem consult_round (himm : list.heap.immLock current = false)
    (hinner : list.heap.inner current = some node) (hcount : 0 < count)
    (hrest : (object orderFn).Traces Consults
      (list,
        if func seen node.data then
          .op (.cow (.load node.next)) fun nextPtr => .op (.cow (.store current nextPtr)) fun _ =>
            .op .fetchSubLen fun _ => goto (.removeCount func (seen ++ [node.data]) current
              (count - 1) (output ++ [node.data]))
        else
          .op (.cow (.releaseMut current)) fun _ => .op (.cow (.acquireMut node.next)) fun _ =>
            goto (.removeCount func (seen ++ [node.data]) node.next count output)) log target) :
    (object orderFn).Traces Consults (list, removeCountLoop func seen current count output)
      (.called :: log) target := by
  have hopen : (!(some node : Option (Node T)).isNone && decide (count > 0)) = true := by
    simpa using hcount
  simp only [removeCountLoop, Prog.bind_eq, isNull_bind, getRef_bind, perform_bind]
  refine .op not_consults_cow (exec_awaitImm himm) (.op not_consults_cow rfl ?_)
  rw [hinner, if_pos hopen]
  refine .op not_consults_cow (exec_awaitImm himm) (.op not_consults_cow rfl ?_)
  rw [hinner]
  refine .op not_consults_cow rfl ?_
  rw [hinner]
  refine .tell_op .called rfl ?_
  simpa using hrest

/-- The loop ends at the end of the list, or when enough elements have met the predicate. -/
theorem leave_rounds (himm : list.heap.immLock current = false)
    (hleave : list.heap.inner current = none ∨ count = 0) :
    (object orderFn).Traces Consults (list, removeCountLoop func seen current count output) []
      ({ list with heap := list.heap.setMutLock current false }, reply (.removed output)) := by
  have hclosed : ¬ (!(list.heap.inner current).isNone && decide (count > 0)) = true := by
    rcases hleave with hnone | hzero
    · simp [hnone]
    · simp [hzero]
  simp only [removeCountLoop, Prog.bind_eq, isNull_bind, removeLock_bind]
  refine .op not_consults_cow (exec_awaitImm himm) (.op not_consults_cow rfl ?_)
  rw [if_neg hclosed]
  exact .op not_consults_cow rfl .refl

end Rounds

/-- The rounds of `remove_count`, which hold the lock of the slot they are at. -/
theorem removeCountLoop_traces {list : SharedList T} {before after : List Slot} {current : Slot}
    {xs₁ xs₂ : List T} {noneq : Bool} (func : List T → T → Bool) (seen : List T) (count : UInt32)
    (output : List T) (hc : Cursor list before current after xs₁ xs₂)
    (hnoneq : list.enforceNoneq = noneq) :
    ∃ final,
      (object orderFn).Traces Consults (list, removeCountLoop func seen current count output)
        (consults seen (examined func seen count.toNat xs₂))
        (final, reply (.removed (output ++ (takeOut func seen count.toNat xs₂).1))) ∧
      final.Shows { elements := xs₁ ++ (takeOut func seen count.toNat xs₂).2, noneq := noneq } ∧
      Edits list [] final := by
  induction xs₂ generalizing list before current after xs₁ seen count output with
  | nil =>
      have htake : takeOut func seen count.toNat [] = ([], []) := by
        simp [takeOut]
      have hexamined : examined func seen count.toNat [] = [] := by
        simp [examined]
      rw [htake, hexamined, List.append_nil]
      exact ⟨_, leave_rounds orderFn hc.immFree_current (.inl hc.inner_of_nil),
        (hc.setMutLock false).shows (by simp) hnoneq, .single (edit_setMutLock current false)⟩
  | cons entry xs₂ ih =>
      obtain ⟨next, after, rfl, hinner⟩ := hc.inner_of_cons
      have himm := hc.immFree_current
      have hreleased := hc.setMutLock false
      by_cases hcount : 0 < count
      · have hpos := toNat_pred hcount
        by_cases hfunc : func seen entry = true
        · have htake : takeOut func seen count.toNat (entry :: xs₂) =
              (entry :: (takeOut func (seen ++ [entry]) (count - 1).toNat xs₂).1,
                (takeOut func (seen ++ [entry]) (count - 1).toNat xs₂).2) := by
            simp [hpos, takeOut, hfunc]
          have hexamined : examined func seen count.toNat (entry :: xs₂) =
              entry :: examined func (seen ++ [entry]) (count - 1).toNat xs₂ := by
            simp [hpos, examined, hfunc]
          obtain ⟨final, hrun, hfinal, hedits⟩ :=
            ih (seen ++ [entry]) (count - 1) (output ++ [entry]) hc.remove hnoneq
          rw [htake, hexamined]
          refine ⟨final, consult_round orderFn himm hinner hcount ?_, hfinal,
            .after hc.edit_remove hedits⟩
          rw [if_pos hfunc]
          rw [List.append_assoc] at hrun
          exact .op not_consults_cow rfl (.op not_consults_cow rfl
            (.op not_consults_fetchSubLen rfl (.tell .seen rfl hrun)))
        · have htake : takeOut func seen count.toNat (entry :: xs₂) =
              ((takeOut func (seen ++ [entry]) count.toNat xs₂).1,
                entry :: (takeOut func (seen ++ [entry]) count.toNat xs₂).2) := by
            rw [hpos]
            simp [takeOut, hfunc]
          have hexamined : examined func seen count.toNat (entry :: xs₂) =
              entry :: examined func (seen ++ [entry]) count.toNat xs₂ := by
            rw [hpos]
            simp [examined, hfunc]
          have hfree := hreleased.mutFree_next
          obtain ⟨final, hrun, hfinal, hedits⟩ := ih (seen ++ [entry]) count output
            ((hreleased.next (by simp)).setMutLock true) hnoneq
          rw [htake, hexamined]
          have hlocks := Edits.after (edit_setMutLock next true) hedits
          refine ⟨final, consult_round orderFn himm hinner hcount ?_, ?_,
            .after (edit_setMutLock current false) hlocks⟩
          · rw [if_neg hfunc]
            exact .op not_consults_cow rfl
              (.op not_consults_cow (exec_acquireMut hfree) (.tell .seen rfl hrun))
          · rw [List.append_cons]
            exact hfinal
      · have hzero : count = 0 := UInt32.le_antisymm (UInt32.not_lt.mp hcount) (UInt32.zero_le)
        subst hzero
        have htake : takeOut func seen 0 (entry :: xs₂) = ([], entry :: xs₂) := by
          simp [takeOut]
        have hexamined : examined func seen 0 (entry :: xs₂) = [] := by
          simp [examined]
        rw [UInt32.toNat_zero, htake, hexamined, List.append_nil]
        exact ⟨_, leave_rounds orderFn himm (.inr rfl), hreleased.shows (by simp) hnoneq,
          .single (edit_setMutLock current false)⟩

theorem removeCount_traces {list : SharedList T} {plain : PlainList T} (hlist : list.Shows plain)
    (func : List T → T → Bool) (count : UInt32) :
    ∃ final,
      (object orderFn).Traces Consults (list, removeCount func count)
        (.seen [] :: consults [] (examined func [] count.toNat plain.elements))
        (final, reply (.removed (plain.removeCount func count.toNat).2)) ∧
      final.Shows (plain.removeCount func count.toNat).1 ∧ Edits list [] final := by
  obtain ⟨⟨slots, hlayout⟩, hnoneq⟩ := hlist
  have hc := (Cursor.start hlayout).setMutLock true
  have hmut := hlayout.mutFree headSlot List.mem_cons_self
  obtain ⟨final, hrun, hfinal, hedits⟩ :=
    removeCountLoop_traces orderFn func [] count [] hc hnoneq
  exact ⟨final, .op not_consults_cow (exec_acquireMut hmut) (.tell .seen rfl hrun), hfinal,
    .after (edit_setMutLock headSlot true) hedits⟩

theorem removeCount_edits {list : SharedList T} {plain : PlainList T} (hlist : list.Shows plain)
    (func : List T → T → Bool) (count : UInt32) :
    ∃ final, (object orderFn).Completes list (removeCount func count) final
        (.removed (plain.removeCount func count.toNat).2) ∧
      final.Shows (plain.removeCount func count.toNat).1 ∧ Edits list [] final := by
  obtain ⟨final, hrun, hfinal, hedits⟩ := removeCount_traces orderFn hlist func count
  exact ⟨final, hrun.completes, hfinal, hedits⟩

theorem removeCount_completes {list : SharedList T} {plain : PlainList T} (hlist : list.Shows plain)
    (func : List T → T → Bool) (count : UInt32) :
    ∃ final, (object orderFn).Completes list (removeCount func count) final
        (.removed (plain.removeCount func count.toNat).2) ∧
      final.Shows (plain.removeCount func count.toNat).1 := by
  obtain ⟨final, hrun, hfinal, -⟩ := removeCount_edits orderFn hlist func count
  exact ⟨final, hrun, hfinal⟩

omit orderFn in
theorem firstRemoved_eq_head? (output : List T) : firstRemoved output = output.head? := by
  cases output <;> rfl

theorem setEnforceNoneq_edits {list : SharedList T} {plain : PlainList T}
    (hlist : list.Shows plain) (enforceNoneq : Bool) :
    ∃ final, (object orderFn).Completes list (enter orderFn (.setEnforceNoneq enforceNoneq)) final
        .unit ∧
      final.Shows (plain.setEnforceNoneq enforceNoneq) ∧ Edits list [] final := by
  obtain ⟨⟨slots, hlayout⟩, -⟩ := hlist
  refine ⟨{ list with enforceNoneq := enforceNoneq }, ?_, ⟨⟨slots, ?_⟩, rfl⟩,
    .single (.frame rfl fun _ hslot => hslot)⟩
  · simp [enter]
  · exact ⟨hlayout.chain, hlayout.nodup, hlayout.allocated, hlayout.mutFree, hlayout.immFree,
      hlayout.len⟩

/-! ### Calls that only read -/

/-- The rounds of `find`, `find_map` and `contains`. -/
theorem searchLoop_completes {list : SharedList T} {before after : List Slot} {current : Slot}
    {xs₁ xs₂ : List T} (func : List T → T → Bool) (seen : List T)
    (hc : Cursor list before current after xs₁ xs₂) (hfree : list.heap.mutLock current = false) :
    (object orderFn).Completes list (searchLoop func seen current) list
      (.found (firstMatch func seen xs₂)) := by
  induction xs₂ generalizing before current after xs₁ seen with
  | nil => simp [searchLoop, firstMatch, hc.immFree_current, hc.inner_of_nil]
  | cons entry xs₂ ih =>
      obtain ⟨next, after, rfl, hinner⟩ := hc.inner_of_cons
      have himm := hc.immFree_current
      by_cases hfunc : func seen entry = true
      · simp [searchLoop, firstMatch, himm, hinner, hfunc]
      · have hrest := ih (seen ++ [entry]) (hc.next hfree) hc.mutFree_next
        rw [firstMatch, if_neg hfunc]
        simp only [searchLoop, Prog.bind_eq, perform_bind, getRef_bind, Option.isNone_iff_eq_none,
          isNull_bind, himm, completes_awaitImm, completes_load, hinner, reduceCtorEq, ↓reduceIte,
          completes_loadFull, unwrap_some_bind, hfunc, Bool.false_eq_true, completes_callback]
        exact Object.completes_goto.mpr hrest

theorem search_completes {list : SharedList T} {plain : PlainList T} (hlist : list.Shows plain)
    (func : List T → T → Bool) :
    (object orderFn).Completes list (enter orderFn (.search func)) list
      (.found (firstMatch func [] plain.elements)) := by
  obtain ⟨slots, hlayout⟩ := hlist.represents
  have hfree := hlayout.mutFree headSlot List.mem_cons_self
  exact Object.completes_goto.mpr
    (searchLoop_completes orderFn func [] (Cursor.start hlayout) hfree)

/-- The rounds of `iter().any(..)`. -/
theorem anyLoop_completes {list : SharedList T} {before after : List Slot} {current : Slot}
    {xs₁ xs₂ : List T} (func : T → Bool) (hc : Cursor list before current after xs₁ xs₂)
    (hfree : list.heap.mutLock current = false) :
    (object orderFn).Completes list (anyLoop func current) list (.bool (xs₂.any func)) := by
  induction xs₂ generalizing before current after xs₁ with
  | nil => simp [anyLoop, iterNext, hc.immFree_current, hc.inner_of_nil]
  | cons entry xs₂ ih =>
      obtain ⟨next, after, rfl, hinner⟩ := hc.inner_of_cons
      have himm := hc.immFree_current
      by_cases hfunc : func entry = true
      · simp [anyLoop, iterNext, himm, hinner, hfunc]
      · have hrest := ih (hc.next hfree) hc.mutFree_next
        simp only [anyLoop, iterNext, Prog.bind_eq, perform_bind, getRef_bind,
          Option.isNone_iff_eq_none, isNull_bind, List.any_cons, hfunc, Bool.false_or, himm,
          completes_awaitImm, completes_load, hinner, reduceCtorEq, ↓reduceIte, completes_loadFull,
          unwrap_some_bind, Bool.false_eq_true, completes_callback]
        exact Object.completes_goto.mpr hrest

theorem any_completes {list : SharedList T} {plain : PlainList T} (hlist : list.Shows plain)
    (func : T → Bool) :
    (object orderFn).Completes list (enter orderFn (.any func)) list
      (.bool (plain.elements.any func)) := by
  obtain ⟨slots, hlayout⟩ := hlist.represents
  have hfree := hlayout.mutFree headSlot List.mem_cons_self
  exact Object.completes_goto.mpr (anyLoop_completes orderFn func (Cursor.start hlayout) hfree)

/-- What an iterator yields that stands at the slot, the list being left alone. -/
inductive Iterates (orderFn : Option (T → T → Ordering)) (list : SharedList T) : Slot → List T → Prop
  | done {current : Slot} :
      (object orderFn).Completes list (enter orderFn (.iterNext current)) list (.yielded none) →
      Iterates orderFn list current []
  | more {current next : Slot} {data : T} {rest : List T} :
      (object orderFn).Completes list (enter orderFn (.iterNext current)) list
        (.yielded (some (data, next))) →
      Iterates orderFn list next rest → Iterates orderFn list current (data :: rest)

variable {orderFn} in
/-- Mutable locks do not matter to an iterator. -/
theorem iterates {list : SharedList T} {current : Slot} {slots : List Slot} {xs : List T}
    (hchain : Chain list.heap.links (current :: slots) xs)
    (himm : ∀ slot ∈ current :: slots, list.heap.immLock slot = false) :
    Iterates orderFn list current xs := by
  have hfree := himm current List.mem_cons_self
  induction slots generalizing current xs with
  | nil =>
      match xs, hchain with
      | [], hchain =>
          refine .done ?_
          have hinner : list.heap.inner current = none := Option.map_eq_none_iff.mp hchain
          simp [enter, iterNext, hfree, hinner]
  | cons next slots ih =>
      match xs, hchain with
      | data :: xs, hchain =>
          have hrest := fun slot hslot => himm slot (List.mem_cons_of_mem current hslot)
          refine .more ?_ (ih hchain.2 hrest (hrest next List.mem_cons_self))
          simp [enter, iterNext, hfree, Heap.inner_of_links hchain.1]

end Mutual.SharedList
