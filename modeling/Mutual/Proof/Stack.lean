import Mutual.Concurrency.Linearizability
import Mutual.Proof.Runs

/-!
# The unordered list is a linearizable stack

Without an order function `push` and `pop` do all their work under the lock of `head`. A call takes
effect when it stores in `head`; a `pop` that finds `head` empty takes effect when it gives the lock
back. Slots other than `head` are written once, when they are allocated, so that what a `pop` has
read of the second slot is still there when it stores.
-/

namespace Mutual.SharedList

open Concurrency Data

variable {T : Type}

inductive StackStep : List T → Call T → Reply T → List T → Prop
  | push {xs : List T} {data : T} : StackStep xs (.push data) .unit (data :: xs)
  | pop {xs : List T} {data : T} : StackStep (data :: xs) .pop (.popped (some data)) xs
  | popEmpty : StackStep [] .pop (.popped none) []

/-! ### The stages of a call -/

/-- `content` is what `head` holds while the thread has its lock. -/
inductive Stage (T : Type) where
  | idle
  | waiting (call : Call T)
  | locked (call : Call T) (content : Option (Node T))
  | reserved (data : T) (content : Option (Node T)) (next : Slot)
  | peeked (node : Node T) (second : Option (Node T))
  | stored (call : Call T) (content : Option (Node T)) (result : Reply T)
  | finished (call : Call T) (result : Reply T)

namespace Stage

def phase : Stage T → Phase (Call T) (Reply T)
  | idle => .idle
  | waiting call | locked call _ => .called call
  | reserved data _ _ => .called (.push data)
  | peeked _ _ => .called .pop
  | stored call _ result | finished call result => .effective call result

def HasLock : Stage T → Prop
  | locked _ _ | reserved _ _ _ | peeked _ _ | stored _ _ _ => True
  | _ => False

def May : Stage T → Instr T → Prop
  | waiting _, .cow (.acquireMut slot) => slot = headSlot
  | locked _ _, .cow (.awaitImm _) => True
  | locked call content, .cow (.load slot) =>
      slot = headSlot ∨ call = .pop ∧ ∃ node, content = some node ∧ slot = node.next
  | locked _ _, .cow (.loadFull slot) => slot = headSlot
  | locked (.push _) content, .cow (.alloc copied) => copied = content
  | locked .pop content, .cow (.releaseMut slot) => slot = headSlot ∧ content = none
  | reserved data _ next, .cow (.store slot content) =>
      slot = headSlot ∧ content = some { data := data, next := next }
  | peeked _ _, .fetchSubLen => True
  | peeked _ second, .cow (.store slot content) => slot = headSlot ∧ content = second
  | stored _ _ _, .cow (.releaseMut slot) => slot = headSlot
  | finished _ _, .fetchAddLen => True
  | _, _ => False

def Move : Stage T → (instr : Instr T) → instr.Answer → Stage T → Prop
  | waiting call, .cow (.acquireMut _), _, s' => ∃ content, s' = locked call content ∧ PointsOn content
  | locked call content, .cow (.load slot), answer, s' =>
      if slot = headSlot then s' = locked call content ∧ answer = content
      else ∃ node, content = some node ∧ s' = peeked node answer
  | locked call content, .cow (.loadFull _), answer, s' => s' = locked call content ∧ answer = content
  | locked (.push data) content, .cow (.alloc _), next, s' => s' = reserved data content next
  | locked call _, .cow (.releaseMut _), _, s' => s' = finished call (.popped none)
  | reserved data _ _, .cow (.store _ content), _, s' => s' = stored (.push data) content .unit
  | peeked node _, .cow (.store _ content), _, s' =>
      s' = stored .pop content (.popped (some node.data))
  | stored call _ result, .cow (.releaseMut _), _, s' => s' = finished call result
  | s, _, _, s' => s' = s

end Stage

def stacking : Protocol (object (T := T) none) (Stage T) where
  rest := .idle
  start call s := call.PushesOrPops ∧ s = .waiting call
  may _ s := s.May
  move _ s := s.Move
  fail _ _ := False
  arrive _ _ _ := False
  leave _ _ _ := False
  finish call result s := s = .finished call result

section Code

variable {call : Call T} {s : Stage T}

@[simp] theorem stacking_may {instr : Instr T} : stacking.may call s instr ↔ s.May instr := Iff.rfl

@[simp] theorem stacking_move {instr : Instr T} {answer : instr.Answer} {s' : Stage T} :
    stacking.move call s instr answer s' ↔ s.Move instr answer s' := Iff.rfl

@[simp] theorem stacking_finish {result : Reply T} :
    stacking.finish call result s ↔ s = .finished call result := Iff.rfl

theorem stacking_pushHead {data : T} :
    stacking.Obeys (.push data) (pushHead data) (.waiting (.push data)) := by
  simp only [pushHead, head, Prog.bind_eq, perform_bind, removeLock_bind, isNull_bind,
    Option.isNone_iff_eq_none, createLock_bind, Protocol.obeys_op, stacking_may, Stage.May,
    stacking_move, Stage.Move, forall_eq, forall_const, forall_exists_index, and_imp, true_and]
  rintro _ content rfl hpoints
  cases content with
  | none => simp [Stage.May, Stage.Move]
  | some node => simp [Stage.May, Stage.Move]

theorem stacking_pop : stacking.Obeys .pop (pop : Prog (sig T) (Outcome T)) (.waiting .pop) := by
  simp only [pop, head, Prog.bind_eq, removeLock_bind, perform_bind, getRef_bind,
    Option.isNone_iff_eq_none, isNull_bind, createLock_bind, Protocol.obeys_op, stacking_may,
    Stage.May, stacking_move, Stage.Move, forall_eq, forall_const, forall_exists_index, and_imp,
    true_and]
  rintro _ content rfl hpoints
  cases content with
  | none => simp [Stage.May, Stage.Move]
  | some node =>
      rw [pointsOn_some] at hpoints
      simp [Stage.May, Stage.Move, hpoints]

theorem stacking_sound : (stacking (T := T)).Sound where
  enter := by
    rintro call s ⟨hcall, rfl⟩
    cases call with
    | push data => exact stacking_pushHead
    | pop => exact stacking_pop
    | _ => exact hcall.elim
  body := by
    intro call label s hleave
    exact hleave.elim

end Code

/-! ### What the memory of the list guarantees -/

def Stage.Knows (list : SharedList T) (slots : List Slot) : Stage T → Prop
  | locked _ content | stored _ content _ =>
      list.heap.mutLock headSlot = true ∧ list.heap.inner headSlot = content
  | reserved _ content next =>
      list.heap.mutLock headSlot = true ∧ list.heap.inner headSlot = content ∧
        next < list.heap.fresh ∧ next ∉ headSlot :: slots ∧ list.heap.inner next = content
  | peeked node second =>
      list.heap.mutLock headSlot = true ∧ list.heap.inner headSlot = some node ∧
        list.heap.inner node.next = second
  | _ => True

variable {ι : Type} [DecidableEq ι]

structure StackWorld (list : SharedList T) (stage : ι → Stage T) (slots : List Slot) (xs : List T) :
    Prop where
  chain : Chain list.heap.links (headSlot :: slots) xs
  nodup : (headSlot :: slots).Nodup
  allocated : ∀ slot ∈ headSlot :: slots, slot < list.heap.fresh
  knows : ∀ t, (stage t).Knows list slots
  exclusive : ∀ t u, (stage t).HasLock → (stage u).HasLock → t = u

theorem Stage.Knows.mutLock {list : SharedList T} {slots : List Slot} {s : Stage T}
    (hknows : s.Knows list slots) (hlock : s.HasLock) : list.heap.mutLock headSlot = true := by
  cases s with
  | locked | reserved | peeked | stored => exact hknows.1
  | _ => exact hlock.elim

theorem Stage.knows_of_not_hasLock {s : Stage T} (hlock : ¬ s.HasLock) (list : SharedList T)
    (slots : List Slot) : s.Knows list slots := by
  cases s with
  | locked | reserved | peeked | stored => exact absurd trivial hlock
  | _ => trivial

namespace StackWorld

variable {list : SharedList T} {stage : ι → Stage T} {slots : List Slot} {xs : List T} {t : ι}

/-- The thread that has the lock changes the memory. -/
theorem owner_step (hw : StackWorld list stage slots xs) (hlock : (stage t).HasLock)
    {list' : SharedList T} {slots' : List Slot} {xs' : List T} {s : Stage T}
    (hchain : Chain list'.heap.links (headSlot :: slots') xs')
    (hnodup : (headSlot :: slots').Nodup)
    (hallocated : ∀ slot ∈ headSlot :: slots', slot < list'.heap.fresh)
    (hknows : s.Knows list' slots') :
    StackWorld list' (Function.update stage t s) slots' xs' := by
  have hother : ∀ u, u ≠ t → ¬ (stage u).HasLock := by
    intro u hut hu
    exact hut (hw.exclusive u t hu hlock)
  refine ⟨hchain, hnodup, hallocated, ?_, ?_⟩
  · exact (Function.forall_update_iff stage fun _ s => s.Knows list' slots').mpr
      ⟨hknows, fun u hut => Stage.knows_of_not_hasLock (hother u hut) list' slots'⟩
  · apply unique_update Stage.HasLock stage t hw.exclusive
    intro _ u hu
    exact hw.exclusive u t hu hlock

omit [DecidableEq ι] in
theorem of_heap_eq (hw : StackWorld list stage slots xs) {list' : SharedList T}
    (hheap : list'.heap = list.heap) : StackWorld list' stage slots xs := by
  refine ⟨?_, hw.nodup, ?_, fun t => ?_, hw.exclusive⟩
  · rw [hheap]
    exact hw.chain
  · rw [hheap]
    exact hw.allocated
  · have hknows := hw.knows t
    unfold Stage.Knows at hknows ⊢
    rw [hheap]
    exact hknows

/-- A thread that does not have the lock gets to another stage without it. -/
theorem other_step (hw : StackWorld list stage slots xs) {s : Stage T} (hlock : ¬ s.HasLock) :
    StackWorld list (Function.update stage t s) slots xs := by
  refine ⟨hw.chain, hw.nodup, hw.allocated, ?_, ?_⟩
  · exact (Function.forall_update_iff stage fun _ s => s.Knows list slots).mpr
      ⟨Stage.knows_of_not_hasLock hlock list slots, fun u _ => hw.knows u⟩
  · apply unique_update Stage.HasLock stage t hw.exclusive
    intro hs
    exact absurd hs hlock

theorem acquire (hw : StackWorld list stage slots xs)
    (hfree : list.heap.mutLock headSlot = false) (call : Call T) :
    StackWorld { list with heap := list.heap.setMutLock headSlot true }
      (Function.update stage t (.locked call (list.heap.inner headSlot))) slots xs := by
  have hnobody : ∀ u, ¬ (stage u).HasLock := by
    intro u hu
    rw [(hw.knows u).mutLock hu] at hfree
    cases hfree
  refine ⟨hw.chain, hw.nodup, hw.allocated, ?_, ?_⟩
  · intro u
    by_cases hut : u = t
    · rw [hut, Function.update_self]
      refine ⟨?_, rfl⟩
      simp only [Heap.setMutLock_mutLock]
      rw [Function.update_self]
    · rw [Function.update_of_ne hut]
      exact Stage.knows_of_not_hasLock (hnobody u) _ _
  · apply unique_update Stage.HasLock stage t hw.exclusive
    intro _ u hu
    exact absurd hu (hnobody u)

omit [DecidableEq ι] in
theorem pointsOn (hw : StackWorld list stage slots xs) : PointsOn (list.heap.inner headSlot) := by
  intro node hnode hnext
  obtain ⟨slots', -, rfl, -⟩ := hw.chain.of_head_eq_some (Heap.links_eq_some hnode)
  have hnot := (List.nodup_cons.mp hw.nodup).1
  rw [hnext] at hnot
  exact hnot List.mem_cons_self

theorem store_push (hw : StackWorld list stage slots xs) {data : T} {content : Option (Node T)}
    {next : Slot} (hstage : stage t = .reserved data content next) :
    StackWorld
      { list with heap := list.heap.setInner headSlot (some { data := data, next := next }) }
      (Function.update stage t (.stored (.push data) (some { data := data, next := next }) .unit))
      (next :: slots) (data :: xs) := by
  have hknows := hw.knows t
  rw [hstage] at hknows
  obtain ⟨hlocked, hhead, hallocated, hfresh, hnext⟩ := hknows
  have hcopy : list.heap.links next = list.heap.links headSlot :=
    Heap.links_congr (hnext.trans hhead.symm)
  have hne : next ≠ headSlot := List.ne_of_not_mem_cons hfresh
  refine hw.owner_step (by rw [hstage]; trivial) ?_ ?_ ?_ ⟨hlocked, ?_⟩
  · change Chain (list.heap.setInner headSlot _).links _ _
    rw [Heap.links_setInner]
    exact hw.chain.insert_first hw.nodup hne hcopy data
  · change ([] ++ headSlot :: next :: slots).Nodup
    exact Chain.nodup_inserted hw.nodup hfresh
  · intro slot hslot
    change slot ∈ [] ++ headSlot :: next :: slots at hslot
    rcases Chain.mem_inserted.mp hslot with rfl | hslot
    · exact hallocated
    · exact hw.allocated slot hslot
  · simp only [Heap.setInner_inner]
    rw [Function.update_self]

/-- A `pop` reads the slot behind `head`. -/
theorem peek (hw : StackWorld list stage slots xs) {call : Call T} {node : Node T}
    (hstage : stage t = .locked call (some node)) :
    StackWorld list (Function.update stage t (.peeked node (list.heap.inner node.next))) slots xs := by
  have hknows := hw.knows t
  rw [hstage] at hknows
  obtain ⟨hlocked, hhead⟩ := hknows
  refine hw.owner_step ?_ hw.chain hw.nodup hw.allocated ⟨hlocked, hhead, rfl⟩
  rw [hstage]
  trivial

theorem store_pop (hw : StackWorld list stage slots xs) {node : Node T} {second : Option (Node T)}
    (hstage : stage t = .peeked node second) :
    ∃ slots' xs', xs = node.data :: xs' ∧
      StackWorld { list with heap := list.heap.setInner headSlot second }
        (Function.update stage t (.stored .pop second (.popped (some node.data)))) slots' xs' := by
  have hknows := hw.knows t
  rw [hstage] at hknows
  obtain ⟨hlocked, hhead, hsecond⟩ := hknows
  obtain ⟨slots', xs', rfl, rfl, hremoved⟩ :=
    hw.chain.remove_first hw.nodup (Heap.links_eq_some hhead)
  have hkept : List.Sublist ([] ++ headSlot :: slots') ([] ++ headSlot :: node.next :: slots') :=
    Chain.removed_sublist
  refine ⟨slots', xs', rfl, hw.owner_step (by rw [hstage]; trivial) ?_ ?_ ?_ ⟨hlocked, ?_⟩⟩
  · change Chain (list.heap.setInner headSlot second).links _ _
    rw [← hsecond, Heap.links_copy]
    exact hremoved
  · exact hw.nodup.sublist hkept
  · intro slot hslot
    exact hw.allocated slot (hkept.subset hslot)
  · simp only [Heap.setInner_inner]
    rw [Function.update_self]

theorem alloc (hw : StackWorld list stage slots xs) {data : T} {content : Option (Node T)}
    (hstage : stage t = .locked (.push data) content) :
    StackWorld { list with heap := list.heap.alloc content }
      (Function.update stage t (.reserved data content list.heap.fresh)) slots xs := by
  have hknows := hw.knows t
  rw [hstage] at hknows
  obtain ⟨hlocked, hhead⟩ := hknows
  have hfresh : list.heap.fresh ∉ headSlot :: slots := by
    intro hmem
    exact absurd (hw.allocated _ hmem) (Nat.lt_irrefl _)
  have hne : headSlot ≠ list.heap.fresh := (List.ne_of_not_mem_cons hfresh).symm
  refine hw.owner_step (by rw [hstage]; trivial) ?_ hw.nodup ?_ ⟨?_, ?_, ?_, hfresh, ?_⟩
  · change Chain (list.heap.alloc content).links _ _
    rw [Heap.links_alloc]
    refine hw.chain.congr fun key hkey => Function.update_of_ne ?_ ..
    exact ne_of_mem_of_not_mem hkey hfresh
  · intro slot hslot
    exact Nat.lt_succ_of_lt (hw.allocated slot hslot)
  · simp only [Heap.alloc_mutLock]
    rw [Function.update_of_ne hne, hlocked]
  · simp only [Heap.alloc_inner]
    rw [Function.update_of_ne hne, hhead]
  · exact Nat.lt_succ_self _
  · simp only [Heap.alloc_inner]
    rw [Function.update_self]

theorem release (hw : StackWorld list stage slots xs) (hlock : (stage t).HasLock) (call : Call T)
    (result : Reply T) :
    StackWorld { list with heap := list.heap.setMutLock headSlot false }
      (Function.update stage t (.finished call result)) slots xs :=
  hw.owner_step hlock hw.chain hw.nodup hw.allocated trivial

omit [DecidableEq ι] in
theorem eq_nil (hw : StackWorld list stage slots xs) {call : Call T}
    (hstage : stage t = .locked call none) : xs = [] := by
  have hknows := hw.knows t
  rw [hstage] at hknows
  exact (hw.chain.of_head_eq_none (Heap.links_eq_none hknows.2)).2

end StackWorld

/-! ### Points -/

theorem phase_update (stage : ι → Stage T) (t : ι) (s : Stage T) :
    (fun u => (Function.update stage t s u).phase) =
      Function.update (fun u => (stage u).phase) t s.phase := by
  funext u
  exact Function.apply_update (fun _ s => s.phase) stage t s u

/-- The stack the memory holds is the one the calls that have taken effect lead to. -/
structure Stacked (initial : List T) (list : SharedList T) (stage : ι → Stage T)
    (history : List (Event ι (Call T) (Reply T))) (slots : List Slot)
    (order : List (Entry (Call T) (Reply T))) (xs : List T) : Prop where
  world : StackWorld list stage slots xs
  pointed : Pointed StackStep initial history (fun t => (stage t).phase) order xs

namespace Stacked

variable {initial : List T} {list : SharedList T} {stage : ι → Stage T}
  {history : List (Event ι (Call T) (Reply T))} {slots : List Slot}
  {order : List (Entry (Call T) (Reply T))} {xs : List T} {t : ι}

theorem quiet (hs : Stacked initial list stage history slots order xs) {list' : SharedList T}
    {slots' : List Slot} {s : Stage T}
    (hworld : StackWorld list' (Function.update stage t s) slots' xs)
    (hphase : s.phase = (stage t).phase) :
    Stacked initial list' (Function.update stage t s) history slots' order xs := by
  refine ⟨hworld, ?_⟩
  rw [phase_update, hphase, Function.update_eq_self]
  exact hs.pointed

theorem point (hs : Stacked initial list stage history slots order xs) {list' : SharedList T}
    {slots' : List Slot} {xs' : List T} {s : Stage T} {call : Call T} {result : Reply T}
    (hworld : StackWorld list' (Function.update stage t s) slots' xs')
    (hcalled : (stage t).phase = .called call) (hphase : s.phase = .effective call result)
    (hspec : StackStep xs call result xs') :
    ∃ order', Stacked initial list' (Function.update stage t s) history slots' order' xs' := by
  obtain ⟨entry, hpointed⟩ := hs.pointed.point hcalled hspec
  refine ⟨order ++ [entry], hworld, ?_⟩
  rw [phase_update, hphase]
  exact hpointed

theorem answered (hs : Stacked initial list stage history slots order xs) {instr : Instr T}
    (hmay : (stage t).May instr) {after : SharedList T} {answer : instr.Answer}
    (hexec : exec instr list = (after, some answer)) :
    ∃ s, (stage t).Move instr answer s ∧ ∃ slots' order' xs',
      Stacked initial after (Function.update stage t s) history slots' order' xs' := by
  have hsame : ∀ {list' : SharedList T}, list'.heap = list.heap → ∃ slots' order' xs',
      Stacked initial list' (Function.update stage t (stage t)) history slots' order' xs' := by
    intro list' hheap
    rw [Function.update_eq_self]
    exact ⟨slots, order, xs, hs.world.of_heap_eq hheap, hs.pointed⟩
  have hknows := hs.world.knows t
  generalize hstage : stage t = s at hmay hknows
  rw [hstage] at hsame
  match s, instr, hmay with
  | .waiting call, .cow (.acquireMut slot), hslot =>
      obtain rfl : slot = headSlot := hslot
      obtain ⟨hfree, rfl⟩ := acquireMut_answered hexec
      refine ⟨_, ⟨_, rfl, hs.world.pointsOn⟩, slots, order, xs,
        hs.quiet (hs.world.acquire hfree call) ?_⟩
      rw [hstage]
      rfl
  | .locked call content, .cow (.awaitImm slot), _ =>
      obtain ⟨-, rfl⟩ := awaitImm_answered hexec
      exact ⟨_, rfl, hsame rfl⟩
  | .locked call content, .cow (.load slot), hslot =>
      cases hexec
      by_cases hhead : slot = headSlot
      · subst hhead
        refine ⟨_, ?_, hsame rfl⟩
        simp only [Stage.Move, if_true, true_and]
        exact hknows.2
      · obtain ⟨rfl, node, rfl, hnext⟩ := hslot.resolve_left hhead
        subst hnext
        refine ⟨_, ?_, slots, order, xs, hs.quiet (hs.world.peek hstage) ?_⟩
        · simp only [Stage.Move, if_neg hhead]
          exact ⟨node, rfl, rfl⟩
        · rw [hstage]
          rfl
  | .locked call content, .cow (.loadFull slot), hslot =>
      obtain rfl : slot = headSlot := hslot
      cases hexec
      exact ⟨_, ⟨rfl, hknows.2⟩, hsame rfl⟩
  | .locked (.push data) content, .cow (.alloc copied), hcopied =>
      obtain rfl : copied = content := hcopied
      cases hexec
      refine ⟨_, rfl, slots, order, xs, hs.quiet (hs.world.alloc hstage) ?_⟩
      rw [hstage]
      rfl
  | .locked .pop content, .cow (.releaseMut slot), ⟨hslot, hcontent⟩ =>
      subst hslot hcontent
      cases hexec
      obtain rfl := hs.world.eq_nil hstage
      have hlock : (stage t).HasLock := by
        rw [hstage]
        trivial
      obtain ⟨order', hs'⟩ := hs.point (hs.world.release hlock .pop (.popped none))
        (by rw [hstage]; rfl) rfl .popEmpty
      exact ⟨_, rfl, slots, order', [], hs'⟩
  | .reserved data content next, .cow (.store slot stored), ⟨hslot, hstored⟩ =>
      subst hslot hstored
      cases hexec
      obtain ⟨order', hs'⟩ := hs.point (hs.world.store_push hstage) (by rw [hstage]; rfl) rfl .push
      exact ⟨_, rfl, _, order', _, hs'⟩
  | .peeked node second, .fetchSubLen, _ =>
      cases hexec
      exact ⟨_, rfl, hsame rfl⟩
  | .peeked node second, .cow (.store slot stored), ⟨hslot, hstored⟩ =>
      subst hslot hstored
      cases hexec
      obtain ⟨slots', xs', rfl, hworld⟩ := hs.world.store_pop hstage
      obtain ⟨order', hs'⟩ := hs.point hworld (by rw [hstage]; rfl) rfl .pop
      exact ⟨_, rfl, slots', order', xs', hs'⟩
  | .stored call content result, .cow (.releaseMut slot), hslot =>
      obtain rfl : slot = headSlot := hslot
      cases hexec
      have hlock : (stage t).HasLock := by
        rw [hstage]
        trivial
      refine ⟨_, rfl, slots, order, xs, hs.quiet (hs.world.release hlock call result) ?_⟩
      rw [hstage]
      rfl
  | .finished call result, .fetchAddLen, _ =>
      cases hexec
      exact ⟨_, rfl, hsame rfl⟩

end Stacked

theorem stacking_keeps (initial : List T) :
    stacking.Keeps (OnlyCalls (ι := ι) Call.PushesOrPops) fun list stage history =>
      ∃ slots order xs, Stacked initial list stage history slots order xs where
  invoke := by
    rintro config stage t call ⟨slots, order, xs, hs⟩ hcall hrest
    refine ⟨.waiting call, ⟨hcall, rfl⟩, slots, order, xs, hs.world.other_step id, ?_⟩
    rw [phase_update]
    exact hs.pointed.invoke
  respond := by
    rintro config stage t call result ⟨slots, order, xs, hs⟩ - - hfinish
    refine ⟨slots, order, xs, hs.world.other_step id, ?_⟩
    rw [phase_update]
    refine hs.pointed.respond ?_
    rw [show stage t = _ from hfinish]
    rfl
  jump := by
    intro config stage t call label _ _ _ harrive
    exact harrive.elim
  answered := by
    rintro config stage t call instr next state answer ⟨slots, order, xs, hs⟩ _ _ hmay hexec
    exact hs.answered hmay hexec
  retried := by
    rintro config stage t call instr next state hs _ _ hmay hexec
    rcases retried_cases hexec with ⟨slot, rfl, rfl⟩ | ⟨slot, rfl, -, rfl⟩ | ⟨slot, rfl, -, -⟩
    · exact hs
    · exact hs
    · -- no stage takes the immutable lock
      rw [stacking_may] at hmay
      cases hstage : stage t <;> rw [hstage] at hmay <;> exact hmay.elim

/-- **Linearizability.** Every history of pushes and pops of an unordered list is that of a stack,
and the list is the stack that its linearization leads to. -/
theorem stack_linearizable {initial : List T} {list : SharedList T}
    (hlist : list.Represents initial) {config : Config (object (T := T) none) ι}
    (hreach : ((object none).threads ι).Reach (OnlyCalls Call.PushesOrPops) (.initial list) config) :
    ∃ order xs, Linearization StackStep initial config.history order xs ∧
      config.state.Holds xs := by
  have hstart : ∃ slots order xs, Stacked initial list (fun _ : ι => stacking.rest) [] slots order
      xs := by
    obtain ⟨slots, hlayout⟩ := hlist
    refine ⟨slots, [], initial, ⟨hlayout.chain, hlayout.nodup, hlayout.allocated, ?_, ?_⟩, .nil⟩
    · exact fun t => trivial
    · exact fun t u ht => ht.elim
  obtain ⟨stage, -, slots, order, xs, hs⟩ :=
    Protocol.invariant stacking_sound (stacking_keeps initial) hstart hreach
  exact ⟨order, xs, hs.pointed.linearization, slots, hs.world.chain⟩

/-- A `pop` that is called before a `push` has taken effect returns its element. -/
theorem stack_linearizable_push_pop :
    ∃ config : Config (object (T := Nat) none) Bool,
      config.history = [.invoke true .pop, .invoke false (.push 1), .respond false (.push 1) .unit,
        .respond true .pop (.popped (some 1))] ∧
      ∃ order xs, Linearization StackStep [] config.history order xs ∧ config.state.Holds xs := by
  obtain ⟨config, hrun, hhistory⟩ : ∃ config,
      ((object (T := Nat) none).threads Bool).runIf (OnlyCalls Call.PushesOrPops) (.initial new)
        (.invoke true .pop :: .invoke false (.push 1) :: List.replicate 4 (.tick false) ++
          List.replicate 2 (.tick true) ++ List.replicate 4 (.tick false) ++
          List.replicate 11 (.tick true)) = some config ∧
      config.history = [.invoke true .pop, .invoke false (.push 1), .respond false (.push 1) .unit,
        .respond true .pop (.popped (some 1))] := ⟨_, rfl, rfl⟩
  exact ⟨config, hhistory, stack_linearizable new_represents (System.reach_of_runIf _ hrun)⟩

end Mutual.SharedList
