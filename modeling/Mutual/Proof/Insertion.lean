import Mutual.Proof.Runs

/-!
# Concurrent ordered insertions

An ordered `push` copies the content of a slot into a fresh slot and then lets the slot point there.
It holds the lock of `head` while it looks at `head`, but later slots are not locked. The push loses
nothing if the slot still has the content that was copied when the push stores. While nothing is
removed the slots of the list stay on it, so this is the only condition.
-/

namespace Mutual.SharedList

open Concurrency Data

variable {T : Type}

def pushed {ι : Type} (history : List (Event ι (Call T) (Reply T))) : List T :=
  history.flatMap fun
    | .invoke _ (.push data) => [data]
    | _ => []

/-- What is stored continues with what is overwritten. -/
def KeepsRest (list : SharedList T) (slot : Slot) (content : Option (Node T)) : Prop :=
  ∀ node, content = some node → list.heap.inner node.next = list.heap.inner slot

/-- Every store about to be made keeps the rest of the list. -/
def CleanInsertion {orderFn : Option (T → T → Ordering)} {ι : Type}
    (config : Config (object orderFn) ι) : Action (object orderFn) ι → Prop
  | .tick t => OnStore KeepsRest config t
  | .invoke _ call => call.Pushes

/-! ### What a pushing thread knows -/

/-- The slots a thread has seen on the list, the slot it has allocated, and the element it still has
to put on the list. -/
structure Inserting (T : Type) where
  known : List Slot
  reserved : Option Slot
  owed : List T

namespace Inserting

variable (g : Inserting T)

def May : Instr T → Prop
  | .cow (.load slot) | .cow (.loadFull slot) => slot ∈ g.known
  | .cow (.alloc _) => g.reserved = none
  | .cow (.store slot content) => slot ∈ g.known ∧ ∃ data next,
      content = some { data := data, next := next } ∧ g.reserved = some next ∧ g.owed = [data]
  | .cow (.swap _ _) | .storeNoneq _ => False
  | _ => True

def see (answer : Option (Node T)) : Inserting T :=
  { g with known := (answer.map Node.next).toList ++ g.known }

def Move : (instr : Instr T) → instr.Answer → Inserting T → Prop
  | .cow (.load _), answer, g' => g' = g.see answer
  | .cow (.loadFull _), answer, g' => g' = g.see answer
  | .cow (.alloc _), slot, g' => g' = { g with reserved := some slot }
  | .cow (.store _ _), _, g' => g' = { known := g.known, reserved := none, owed := [] }
  | .loadNoneq, answer, g' => answer = false ∧ g' = g
  | _, _, g' => g' = g

def Walks : Label T → Prop
  | .pushWalk _ data current => current ∈ g.known ∧ g.reserved = none ∧ g.owed = [data]
  | _ => False

end Inserting

def insertion (orderFn : T → T → Ordering) : Protocol (object (some orderFn)) (Inserting T) where
  rest := { known := [], reserved := none, owed := [] }
  start call g := ∃ data, call = .push data ∧
    g = { known := [headSlot], reserved := none, owed := [data] }
  may _ g := g.May
  move _ g := g.Move
  -- a panicked call has not returned
  fail _ _ := True
  arrive _ label g := g.Walks label
  leave _ label g := g.Walks label
  finish _ _ g := g.reserved = none ∧ g.owed = []

section Code

variable {orderFn : T → T → Ordering} {call : Call T} {g : Inserting T}

@[simp] theorem insertion_may {instr : Instr T} :
    (insertion orderFn).may call g instr ↔ g.May instr := Iff.rfl

@[simp] theorem insertion_move {instr : Instr T} {answer : instr.Answer} {g' : Inserting T} :
    (insertion orderFn).move call g instr answer g' ↔ g.Move instr answer g' := Iff.rfl

@[simp] theorem insertion_fail : (insertion orderFn).fail call g ↔ True := Iff.rfl

@[simp] theorem insertion_arrive {label : Label T} :
    (insertion orderFn).arrive call label g ↔ g.Walks label := Iff.rfl

@[simp] theorem insertion_finish {result : Reply T} :
    (insertion orderFn).finish call result g ↔ g.reserved = none ∧ g.owed = [] := Iff.rfl

theorem insertion_pushHead {data : T} (hhead : headSlot ∈ g.known) (hreserved : g.reserved = none)
    (howed : g.owed = [data]) : (insertion orderFn).Obeys call (pushHead data) g := by
  simp only [pushHead, head, Prog.bind_eq, perform_bind, removeLock_bind, isNull_bind,
    Option.isNone_iff_eq_none, createLock_bind, Protocol.obeys_op, insertion_may, Inserting.May,
    insertion_move, Inserting.Move, Inserting.see, forall_eq, forall_const, true_and, hhead,
    hreserved, howed]
  intro content
  cases content with
  | none => simp [Inserting.May, Inserting.Move, *]
  | some node => simp [Inserting.May, Inserting.Move, Inserting.see, *]

theorem insertion_pushWalk {order : T → T → Ordering} {data : T} {current : Slot}
    (hcurrent : current ∈ g.known) (hreserved : g.reserved = none) (howed : g.owed = [data]) :
    (insertion orderFn).Obeys call (pushWalk order data current) g := by
  simp only [pushWalk, Prog.bind_eq, perform_bind, removeLock_bind, set_bind, Bool.and_eq_true,
    beq_iff_eq, getRef_bind, Option.isNone_iff_eq_none, isNull_bind, Protocol.obeys_op,
    insertion_may, Inserting.May, insertion_move, Inserting.Move, Inserting.see, forall_eq,
    true_and, forall_const, hcurrent, hreserved, howed]
  intro content
  cases content with
  | none => simp [Inserting.May, Inserting.Move, *]
  | some node =>
      simp only [reduceCtorEq, ↓reduceIte, Option.map_some, Option.toList_some, List.cons_append,
        List.nil_append, Protocol.obeys_op, insertion_may, Inserting.May, insertion_move,
        Inserting.Move, Inserting.see, forall_eq, List.mem_cons, or_true, true_and, forall_const,
        hcurrent]
      intro content
      cases content with
      | none => simp
      | some node' =>
          simp only [reduceCtorEq, ↓reduceIte, Option.map_some, Option.toList_some,
            List.cons_append, List.nil_append, Protocol.obeys_op, insertion_may, Inserting.May,
            List.mem_cons, hcurrent, or_true, insertion_move, Inserting.Move, Inserting.see,
            forall_eq, true_and]
          intro content
          cases content with
          | none => simp
          | some read =>
              by_cases hless : order read.data data = .lt
              · simp [Inserting.May, Inserting.Move, Inserting.see, hless, hcurrent]
              · simp [Inserting.May, Inserting.Move, Inserting.Walks, hless]

theorem insertion_sound (orderFn : T → T → Ordering) : (insertion orderFn).Sound where
  enter := by
    rintro call g ⟨data, rfl, rfl⟩
    simp only [enter, push]
    simp only [head, Prog.bind_eq, createLock_bind, isNull_bind, Option.isNone_iff_eq_none,
      Protocol.obeys_op, insertion_may, Inserting.May, insertion_move, Inserting.Move,
      Inserting.see, forall_eq, List.mem_cons, List.not_mem_nil, or_false, true_and, forall_const]
    intro content
    cases content with
    | none => exact insertion_pushHead (by simp) rfl rfl
    | some node => simp [Inserting.May, Inserting.Move, Inserting.Walks]
  body := by
    intro call label g hleave
    cases label with
    | pushWalk order data current =>
        obtain ⟨hcurrent, hreserved, howed⟩ := hleave
        exact insertion_pushWalk hcurrent hreserved howed
    | _ => exact hleave.elim

end Code

/-! ### What the memory of the list guarantees -/

variable {ι : Type} [DecidableEq ι] [Fintype ι]

structure InsertionWorld (initial : List T) (list : SharedList T) (ghost : ι → Inserting T)
    (history : List (Event ι (Call T) (Reply T))) (slots : List Slot) (xs : List T) : Prop where
  noneq : list.enforceNoneq = false
  chain : Chain list.heap.links (headSlot :: slots) xs
  nodup : (headSlot :: slots).Nodup
  allocated : ∀ slot ∈ headSlot :: slots, slot < list.heap.fresh
  known : ∀ t, ∀ slot ∈ (ghost t).known, slot ∈ headSlot :: slots
  reserved : ∀ t slot, (ghost t).reserved = some slot →
    slot < list.heap.fresh ∧ slot ∉ headSlot :: slots
  distinct : ∀ t u slot, (ghost t).reserved = some slot → (ghost u).reserved = some slot → t = u
  account : (xs : Multiset T) + ∑ t, ((ghost t).owed : Multiset T) =
    (initial : Multiset T) + (pushed history : Multiset T)

namespace InsertionWorld

variable {initial : List T} {list : SharedList T} {ghost : ι → Inserting T}
  {history : List (Event ι (Call T) (Reply T))} {slots : List Slot} {xs : List T} {t : ι}
  {slot : Slot}

/-- Nothing but the locks, the counter and what `t` knows changes. -/
theorem local_step (hw : InsertionWorld initial list ghost history slots xs)
    {list' : SharedList T} (hinner : list'.heap.inner = list.heap.inner)
    (hfresh : list'.heap.fresh = list.heap.fresh) (hnoneq : list'.enforceNoneq = list.enforceNoneq)
    {g : Inserting T} (hknown : ∀ slot ∈ g.known, slot ∈ headSlot :: slots)
    (hreserved : g.reserved = (ghost t).reserved) (howed : g.owed = (ghost t).owed) :
    InsertionWorld initial list' (Function.update ghost t g) history slots xs := by
  have hsame : ∀ u, (Function.update ghost t g u).reserved = (ghost u).reserved :=
    update_field_eq Inserting.reserved ghost t hreserved
  refine ⟨hnoneq.trans hw.noneq, ?_, hw.nodup, ?_, ?_, ?_, ?_, ?_⟩
  · rw [Heap.links_of_inner_eq hinner]
    exact hw.chain
  · rw [hfresh]
    exact hw.allocated
  · exact (Function.forall_update_iff ghost fun _ g => ∀ slot ∈ g.known, slot ∈ headSlot :: slots).mpr
      ⟨hknown, fun u _ => hw.known u⟩
  · intro u slot hslot
    rw [hsame] at hslot
    rw [hfresh]
    exact hw.reserved u slot hslot
  · intro u v slot hu hv
    rw [hsame] at hu hv
    exact hw.distinct u v slot hu hv
  · rw [sum_update_of_eq (fun g : Inserting T => (g.owed : Multiset T)) ghost t]
    · exact hw.account
    · rw [howed]

omit [DecidableEq ι] in
theorem next_mem (hw : InsertionWorld initial list ghost history slots xs)
    (hslot : slot ∈ headSlot :: slots) {node : Node T} (hnode : list.heap.inner slot = some node) :
    node.next ∈ headSlot :: slots := by
  obtain ⟨before, after, hsplit⟩ := List.append_of_mem hslot
  have hchain := hw.chain
  rw [hsplit] at hchain
  obtain ⟨xs₁, xs₂, -, hrest, -⟩ := hchain.focus before
  obtain ⟨after', -, rfl, -⟩ := hrest.of_head_eq_some (Heap.links_eq_some hnode)
  rw [hsplit]
  simp

omit [DecidableEq ι] in
theorem see_known (hw : InsertionWorld initial list ghost history slots xs)
    (hslot : slot ∈ (ghost t).known) :
    ∀ other ∈ ((ghost t).see (list.heap.inner slot)).known, other ∈ headSlot :: slots := by
  intro other hother
  rcases List.mem_append.mp hother with hnext | hother
  · obtain ⟨node, hnode, rfl⟩ := Option.map_eq_some_iff.mp (Option.mem_toList.mp hnext)
    exact hw.next_mem (hw.known t slot hslot) hnode
  · exact hw.known t other hother

theorem alloc (hw : InsertionWorld initial list ghost history slots xs)
    (content : Option (Node T)) :
    InsertionWorld initial { list with heap := list.heap.alloc content }
      (Function.update ghost t { ghost t with reserved := some list.heap.fresh }) history slots xs := by
  have hfresh : list.heap.fresh ∉ headSlot :: slots := by
    intro hmem
    exact absurd (hw.allocated _ hmem) (Nat.lt_irrefl _)
  have hother : ∀ u, (ghost u).reserved ≠ some list.heap.fresh := by
    intro u hu
    exact absurd (hw.reserved u _ hu).1 (Nat.lt_irrefl _)
  refine ⟨hw.noneq, ?_, hw.nodup, ?_, ?_, ?_, ?_, ?_⟩
  · change Chain (list.heap.alloc content).links _ _
    rw [Heap.links_alloc]
    refine hw.chain.congr fun key hkey => Function.update_of_ne ?_ ..
    exact ne_of_mem_of_not_mem hkey hfresh
  · intro slot hslot
    exact Nat.lt_succ_of_lt (hw.allocated slot hslot)
  · exact (Function.forall_update_iff ghost fun _ g => ∀ slot ∈ g.known, slot ∈ headSlot :: slots).mpr
      ⟨hw.known t, fun u _ => hw.known u⟩
  · intro u slot hslot
    by_cases hut : u = t
    · rw [hut, Function.update_self] at hslot
      cases hslot
      exact ⟨Nat.lt_succ_self _, hfresh⟩
    · rw [Function.update_of_ne hut] at hslot
      obtain ⟨hlt, hmem⟩ := hw.reserved u slot hslot
      exact ⟨Nat.lt_succ_of_lt hlt, hmem⟩
  · intro u v slot
    refine unique_update (fun g : Inserting T => g.reserved = some slot) ghost t
      (fun u v => hw.distinct u v slot) ?_ u v
    rintro ⟨⟩ u hu
    exact absurd hu (hother u)
  · rw [sum_update_of_eq (fun g : Inserting T => (g.owed : Multiset T)) ghost t]
    · exact hw.account
    · rfl

/-- A clean store puts the element the thread owes on the list. -/
theorem store (hw : InsertionWorld initial list ghost history slots xs) {data : T} {next : Slot}
    (hslot : slot ∈ (ghost t).known) (hreserved : (ghost t).reserved = some next)
    (howed : (ghost t).owed = [data])
    (hkeeps : list.heap.inner next = list.heap.inner slot) :
    ∃ slots' xs', InsertionWorld initial
      { list with heap := list.heap.setInner slot (some { data := data, next := next }) }
      (Function.update ghost t { known := (ghost t).known, reserved := none, owed := [] })
      history slots' xs' := by
  obtain ⟨hallocated, hfresh⟩ := hw.reserved t next hreserved
  obtain ⟨before, after, hsplit⟩ := List.append_of_mem (hw.known t slot hslot)
  have hchain := hw.chain
  have hnodup := hw.nodup
  rw [hsplit] at hchain hnodup hfresh
  obtain ⟨xs₁, xs₂, hxs, -, hinserted⟩ :=
    hchain.insert hnodup hfresh (Heap.links_congr hkeeps) data
  obtain ⟨slots', hslots'⟩ := Chain.first_kept hsplit (next :: after)
  have hmem : ∀ other, other ∈ headSlot :: slots' ↔ other = next ∨ other ∈ headSlot :: slots := by
    intro other
    rw [← hslots', hsplit]
    exact Chain.mem_inserted
  refine ⟨slots', xs₁ ++ data :: xs₂, hw.noneq, ?_, ?_, ?_, ?_, ?_, ?_, ?_⟩
  · change Chain (list.heap.setInner slot _).links _ _
    rw [Heap.links_setInner, ← hslots']
    exact hinserted
  · rw [← hslots']
    exact Chain.nodup_inserted hnodup hfresh
  · intro other hother
    rcases (hmem other).mp hother with rfl | hother
    · exact hallocated
    · exact hw.allocated other hother
  · intro u other hother
    refine (hmem other).mpr (.inr ?_)
    by_cases hut : u = t
    · rw [hut, Function.update_self] at hother
      exact hw.known t other hother
    · rw [Function.update_of_ne hut] at hother
      exact hw.known u other hother
  · intro u other hother
    by_cases hut : u = t
    · rw [hut, Function.update_self] at hother
      cases hother
    · rw [Function.update_of_ne hut] at hother
      obtain ⟨hlt, hnot⟩ := hw.reserved u other hother
      refine ⟨hlt, fun hother' => ?_⟩
      rcases (hmem other).mp hother' with rfl | hmem
      · exact hut (hw.distinct u t other hother hreserved)
      · exact hnot hmem
  · intro u v other
    refine unique_update (fun g : Inserting T => g.reserved = some other) ghost t
      (fun u v => hw.distinct u v other) ?_ u v
    rintro ⟨⟩
  · have hsum := sum_update (fun g : Inserting T => (g.owed : Multiset T)) ghost t
      { known := (ghost t).known, reserved := none, owed := [] }
    have hcount := hw.account
    rw [howed, Multiset.coe_nil, add_zero] at hsum
    rw [hxs, ← hsum] at hcount
    rw [← hcount, ← Multiset.coe_add, ← Multiset.coe_add, ← Multiset.cons_coe,
      ← Multiset.singleton_add, Multiset.coe_singleton]
    abel

theorem invoke (hw : InsertionWorld initial list ghost history slots xs) {data : T}
    (hrest : ghost t = { known := [], reserved := none, owed := [] }) :
    InsertionWorld initial list
      (Function.update ghost t { known := [headSlot], reserved := none, owed := [data] })
      (history ++ [.invoke t (.push data)]) slots xs := by
  have hsame : ∀ u, (Function.update ghost t
      { known := [headSlot], reserved := none, owed := [data] } u).reserved =
        (ghost u).reserved := by
    refine update_field_eq Inserting.reserved ghost t ?_
    rw [hrest]
  refine ⟨hw.noneq, hw.chain, hw.nodup, hw.allocated, ?_, ?_, ?_, ?_⟩
  · intro u other hother
    by_cases hut : u = t
    · rw [hut, Function.update_self, List.mem_singleton] at hother
      rw [hother]
      exact List.mem_cons_self
    · rw [Function.update_of_ne hut] at hother
      exact hw.known u other hother
  · intro u other hother
    rw [hsame] at hother
    exact hw.reserved u other hother
  · intro u v other hu hv
    rw [hsame] at hu hv
    exact hw.distinct u v other hu hv
  · have hsum := sum_update (fun g : Inserting T => (g.owed : Multiset T)) ghost t
      { known := [headSlot], reserved := none, owed := [data] }
    rw [hrest, Multiset.coe_nil, add_zero] at hsum
    have hpushed : pushed (history ++ [.invoke t (.push data)]) = pushed history ++ [data] := by
      simp [pushed]
    rw [hsum, hpushed, ← Multiset.coe_add, ← add_assoc, ← add_assoc, hw.account]

theorem respond (hw : InsertionWorld initial list ghost history slots xs) {call : Call T}
    {result : Reply T} (hdone : (ghost t).reserved = none ∧ (ghost t).owed = []) :
    InsertionWorld initial list
      (Function.update ghost t { known := [], reserved := none, owed := [] })
      (history ++ [.respond t call result]) slots xs := by
  have hpushed : pushed (history ++ [.respond t call result]) = pushed history := by
    simp [pushed]
  have hrest : InsertionWorld initial list
      (Function.update ghost t { known := [], reserved := none, owed := [] }) history slots xs :=
    hw.local_step rfl rfl rfl (by simp) hdone.1.symm hdone.2.symm
  refine { hrest with account := ?_ }
  rw [hpushed]
  exact hrest.account

end InsertionWorld

theorem insertion_keeps (orderFn : T → T → Ordering) (initial : List T) :
    (insertion orderFn).Keeps (CleanInsertion (ι := ι)) fun list ghost history =>
      ∃ slots xs, InsertionWorld initial list ghost history slots xs where
  invoke := by
    rintro config ghost t call ⟨slots, xs, hw⟩ hpushes hrest
    match call, hpushes with
    | .push data, _ => exact ⟨_, ⟨data, rfl, rfl⟩, slots, xs, hw.invoke hrest⟩
  respond := by
    rintro config ghost t call result ⟨slots, xs, hw⟩ - - hdone
    exact ⟨slots, xs, hw.respond hdone⟩
  jump := by
    rintro config ghost t call label hw _ _ harrive
    refine ⟨ghost t, harrive, ?_⟩
    rw [Function.update_eq_self]
    exact hw
  answered := by
    rintro config ghost t call instr next state answer ⟨slots, xs, hw⟩ hat hclean hmay hexec
    have hsame : state.heap.inner = config.state.heap.inner →
        state.heap.fresh = config.state.heap.fresh →
        state.enforceNoneq = config.state.enforceNoneq →
        ∃ slots xs, InsertionWorld initial state (Function.update ghost t (ghost t)) config.history
          slots xs := by
      intro hinner hfresh hnoneq
      exact ⟨slots, xs, hw.local_step hinner hfresh hnoneq (hw.known t) rfl rfl⟩
    match instr, hmay with
    | .cow (.awaitImm _), _ | .cow (.acquireMut _), _ | .cow (.acquireImm _), _
    | .cow (.releaseMut _), _ | .cow (.releaseImm _), _ | .fetchAddLen, _ | .fetchSubLen, _
    | .loadLen, _ | .callback, _ =>
        have hstate : (exec _ config.state).1 = state := congrArg Prod.fst hexec
        subst hstate
        exact ⟨_, rfl, hsame rfl rfl rfl⟩
    | .loadNoneq, _ =>
        cases hexec
        exact ⟨_, ⟨hw.noneq, rfl⟩, hsame rfl rfl rfl⟩
    | .cow (.load slot), hknown | .cow (.loadFull slot), hknown =>
        cases hexec
        exact ⟨_, rfl, slots, xs, hw.local_step rfl rfl rfl (hw.see_known hknown) rfl rfl⟩
    | .cow (.alloc content), _ =>
        cases hexec
        exact ⟨_, rfl, slots, xs, hw.alloc content⟩
    | .cow (.store slot content), ⟨hknown, data, next, hcontent, hreserved, howed⟩ =>
        cases hexec
        subst hcontent
        have hkeeps := OnStore.clean hclean hat _ rfl
        exact ⟨_, rfl, hw.store hknown hreserved howed hkeeps⟩
  retried := by
    rintro config ghost t call instr next state ⟨slots, xs, hw⟩ _ _ hmay hexec
    obtain ⟨hinner, hfresh, hnoneq⟩ := retried_contents hexec
    have hlocal := hw.local_step (t := t) hinner hfresh hnoneq (hw.known t) rfl rfl
    rw [Function.update_eq_self] at hlocal
    exact ⟨slots, xs, hlocal⟩

/-- **Insertion.** In a run of ordered pushes that make clean stores only, once all calls have
returned the list holds what it held at the start and every element pushed. -/
theorem no_push_lost {orderFn : T → T → Ordering} {initial : List T} {list : SharedList T}
    (hlist : list.Represents initial) (hnoneq : list.enforceNoneq = false)
    {config : Config (object (some orderFn)) ι}
    (hreach : ((object (some orderFn)).threads ι).Reach CleanInsertion (.initial list) config)
    (hquiescent : config.Quiescent) :
    ∃ xs, config.state.Holds xs ∧
      (xs : Multiset T) = (initial : Multiset T) + (pushed config.history : Multiset T) := by
  have hstart : ∃ slots xs, InsertionWorld initial list (fun _ : ι => (insertion orderFn).rest) []
      slots xs := by
    obtain ⟨slots, hlayout⟩ := hlist
    refine ⟨slots, initial, hnoneq, hlayout.chain, hlayout.nodup, hlayout.allocated, ?_, ?_, ?_, ?_⟩
    · intro t slot hslot
      cases hslot
    · intro t slot hslot
      cases hslot
    · intro t u slot hslot
      cases hslot
    · simp [insertion, pushed]
  obtain ⟨ghost, hfollows, slots, xs, hw⟩ :=
    Protocol.invariant (insertion_sound orderFn) (insertion_keeps orderFn initial) hstart hreach
  -- a thread between calls owes nothing
  have hrest : ∀ t, (ghost t).owed = [] := by
    intro t
    have ht := hfollows t
    rw [hquiescent t] at ht
    exact congrArg Inserting.owed ht
  refine ⟨xs, ⟨slots, hw.chain⟩, ?_⟩
  have hcount := hw.account
  simpa [hrest] using hcount

/-! ### Runs -/

instance [DecidableEq T] (list : SharedList T) (slot : Slot) :
    ∀ content, Decidable (list.KeepsRest slot content)
  | none => .isTrue (by rintro node ⟨⟩)
  | some node => decidable_of_iff (list.heap.inner node.next = list.heap.inner slot) (by
      unfold KeepsRest
      simp)

instance [DecidableEq T] {orderFn : Option (T → T → Ordering)} {ι : Type} :
    ∀ (config : Config (object orderFn) ι) action, Decidable (CleanInsertion config action)
  | config, .tick t => inferInstanceAs (Decidable (OnStore KeepsRest config t))
  | _, .invoke _ call => inferInstanceAs (Decidable (Call.Pushes call))

theorem no_push_lost_two_pushes :
    ∃ config : Config (object (some ascending)) Bool, ∃ xs,
      ((object (some ascending)).threads Bool).Reach CleanInsertion (.initial (ofList [1])) config ∧
      config.Quiescent ∧ pushed config.history = [5, 0] ∧ config.state.Holds xs ∧
      (xs : Multiset Nat) = {1, 5, 0} := by
  obtain ⟨config, hrun, hquiescent, hpushed⟩ : ∃ config,
      ((object (some ascending)).threads Bool).runIf CleanInsertion (.initial (ofList [1]))
        (.invoke false (.push 5) :: .invoke true (.push 0) :: List.replicate 16 (.tick false) ++
          List.replicate 3 (.tick true) ++ List.replicate 9 (.tick false) ++
          List.replicate 14 (.tick true)) = some config ∧
      config.Quiescent ∧ pushed config.history = [5, 0] := by
    refine ⟨_, rfl, ?_, rfl⟩
    intro t
    cases t <;> rfl
  have hreach := System.reach_of_runIf _ hrun
  obtain ⟨xs, hholds, hxs⟩ := no_push_lost (ofList_represents [1]) rfl hreach hquiescent
  rw [hpushed] at hxs
  exact ⟨config, xs, hreach, hquiescent, hpushed, hholds, hxs⟩

/-- Two pushes find the empty slot at the end and both store there, one after the other. -/
def pushesAtEnd : List (Action (object (some ascending)) Bool) :=
  .invoke false (.push 5) :: List.replicate 16 (.tick false) ++
    .invoke true (.push 6) :: List.replicate 25 (.tick true) ++ List.replicate 9 (.tick false)

theorem no_push_lost_fails :
    ¬ ∀ config : Config (object (some ascending)) Bool,
      ((object (some ascending)).threads Bool).Reach (OnlyCalls Call.Pushes)
        (.initial (ofList [1])) config → config.Quiescent →
      ∃ xs, config.state.Holds xs ∧
        (xs : Multiset Nat) = ([1] : Multiset Nat) + (pushed config.history : Multiset Nat) := by
  intro hclaim
  obtain ⟨config, hrun, hquiescent, hpushed, hholds⟩ : ∃ config,
      ((object (some ascending)).threads Bool).runIf (OnlyCalls Call.Pushes)
        (.initial (ofList [1])) pushesAtEnd = some config ∧
      config.Quiescent ∧ pushed config.history = [5, 6] ∧ config.state.Holds [1, 5] := by
    refine ⟨_, rfl, ?_, rfl, [1, 2], rfl, rfl, rfl⟩
    intro t
    cases t <;> rfl
  obtain ⟨xs, hxs, hcount⟩ := hclaim config (System.reach_of_runIf _ hrun) hquiescent
  rw [hxs.unique hholds, hpushed] at hcount
  exact absurd hcount (by decide)

end Mutual.SharedList
