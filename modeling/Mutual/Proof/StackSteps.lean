import Mutual.Proof.Stack

/-!
# What an access of a push or a pop does

One account of the accesses of `push` and `pop` to an unordered list: what they make of the elements,
of the slots other than `head`, of the locks of `head`. The slots other than `head` are never written
again once they are allocated.
-/

namespace Mutual.SharedList

open Concurrency Data

variable {T : Type}

namespace Stage

/-- The elements that the access adds. -/
def pushed : Stage T → Instr T → Nat
  | reserved _ _ _, .cow (.store _ _) => 1
  | _, _ => 0

/-- The elements that the access takes away. -/
def popped : Stage T → Instr T → Nat
  | peeked _ _, .cow (.store _ _) => 1
  | _, _ => 0

/-- No stage takes the immutable lock. -/
theorem not_may_acquireImm (s : Stage T) (slot : Slot) : ¬ s.May (.cow (.acquireImm slot)) := by
  cases s <;> exact id

end Stage

/-- A list at rest, and nobody in a call. -/
theorem StackWorld.of_layout {ι : Type} {list : SharedList T} {slots : List Slot} {xs : List T}
    (hlayout : list.Layout slots xs) : StackWorld list (fun _ : ι => .idle) slots xs where
  chain := hlayout.chain
  nodup := hlayout.nodup
  allocated := hlayout.allocated
  knows _ := trivial
  exclusive _ _ hlock := hlock.elim

/-- Nobody has a lock of the slot. -/
def Free (list : SharedList T) (slot : Slot) : Prop :=
  list.heap.mutLock slot = false ∧ list.heap.immLock slot = false

/-- Slots other than `head` keep what they hold, and their locks. -/
structure Frozen (list after : SharedList T) : Prop where
  kept : ∀ slot, slot ≠ headSlot → slot < list.heap.fresh →
    after.heap.inner slot = list.heap.inner slot
  free : ∀ slot, slot ≠ headSlot → slot < list.heap.fresh → Free list slot →
    Free after slot
  fresh : list.heap.fresh ≤ after.heap.fresh

/-- What the access `instr` of a thread at stage `s` does. -/
structure Effect (s : Stage T) (instr : Instr T) (list after : SharedList T) (s' : Stage T)
    (slots slots' : List Slot) (xs xs' : List T) : Prop where
  frozen : Frozen list after
  takes : s'.phase = s.phase ∧ xs' = xs ∨ ∃ call result, s.phase = .called call ∧
    s'.phase = .effective call result ∧ StackStep xs call result xs'
  length : xs'.length + s.popped instr = xs.length + s.pushed instr
  slots : ∀ slot ∈ slots', slot ∈ slots ∨ ∃ data content, s = .reserved data content slot
  reserves : ∀ data content next, s' = .reserved data content next → Free after next
  immLock : after.heap.immLock headSlot = list.heap.immLock headSlot
  mutLock : after.heap.mutLock headSlot = true →
    s'.HasLock ∨ list.heap.mutLock headSlot = true ∧ ¬ s.HasLock

namespace Frozen

variable (list : SharedList T)

theorem of_heap_eq {after : SharedList T} (hheap : after.heap = list.heap) : Frozen list after where
  kept slot _ _ := by
    rw [hheap]
  free slot _ _ hfree := by
    rw [Free, hheap]
    exact hfree
  fresh := by
    rw [hheap]

theorem setMutLock (locked : Bool) :
    Frozen list { list with heap := list.heap.setMutLock headSlot locked } where
  kept _ _ _ := rfl
  free slot hslot _ hfree := by
    refine ⟨?_, hfree.2⟩
    change Function.update list.heap.mutLock headSlot locked slot = false
    rw [Function.update_of_ne hslot]
    exact hfree.1
  fresh := Nat.le_refl _

theorem store (content : Option (Node T)) :
    Frozen list { list with heap := list.heap.setInner headSlot content } where
  kept _ hslot _ := Function.update_of_ne hslot ..
  free _ _ _ hfree := hfree
  fresh := Nat.le_refl _

theorem alloc (content : Option (Node T)) :
    Frozen list { list with heap := list.heap.alloc content } where
  kept _ _ hslot := Function.update_of_ne (Nat.ne_of_lt hslot) ..
  free slot _ hslot hfree := by
    have hne := Nat.ne_of_lt hslot
    constructor
    · exact (Function.update_of_ne hne ..).trans hfree.1
    · exact (Function.update_of_ne hne ..).trans hfree.2
  fresh := Nat.le_succ _

end Frozen

/-- An access that leaves the heap as it is. -/
theorem Effect.of_heap_eq {s s' : Stage T} {instr : Instr T} {list after : SharedList T}
    {slots : List Slot} {xs : List T} (hheap : after.heap = list.heap) (hphase : s'.phase = s.phase)
    (hpopped : s.popped instr = 0) (hpushed : s.pushed instr = 0)
    (hreserved : ∀ data content next, s' ≠ .reserved data content next)
    (hlock : s.HasLock → s'.HasLock) : Effect s instr list after s' slots slots xs xs where
  frozen := .of_heap_eq list hheap
  takes := .inl ⟨hphase, rfl⟩
  length := by
    rw [hpopped, hpushed]
  slots _ hslot := .inl hslot
  reserves data content next hs := absurd hs (hreserved data content next)
  immLock := by
    rw [hheap]
  mutLock := by
    rw [hheap]
    by_cases hs : s.HasLock
    · exact fun _ => .inl (hlock hs)
    · exact fun hlocked => .inr ⟨hlocked, hs⟩

/-- The lock of `head` is given back. -/
theorem Effect.release {s : Stage T} {list : SharedList T} {slots : List Slot} {xs : List T}
    {call : Call T} {result : Reply T}
    (htakes : Phase.effective call result = s.phase ∨
      s.phase = .called call ∧ StackStep xs call result xs) :
    Effect s (.cow (.releaseMut headSlot)) list
      { list with heap := list.heap.setMutLock headSlot false } (.finished call result) slots slots
      xs xs where
  frozen := .setMutLock list false
  takes := htakes.imp (fun hphase => ⟨hphase, rfl⟩) fun ⟨hcalled, hspec⟩ => ⟨_, _, hcalled, rfl, hspec⟩
  length := by
    cases s <;> rfl
  slots _ hslot := .inl hslot
  reserves := nofun
  immLock := rfl
  mutLock hlocked := by
    rw [Heap.setMutLock_mutLock, Function.update_self] at hlocked
    cases hlocked

namespace StackWorld

variable {ι : Type} [DecidableEq ι] {list : SharedList T} {stage : ι → Stage T} {slots : List Slot}
  {xs : List T} {t : ι}

omit [DecidableEq ι] in
/-- What is left of the chain after a `pop` has stored was in it before. -/
theorem popped_slots (hw : StackWorld list stage slots xs) {node : Node T}
    {second : Option (Node T)} (hstage : stage t = .peeked node second) {slots' : List Slot}
    {xs' : List T} (hchain : Chain (list.heap.setInner headSlot second).links (headSlot :: slots') xs')
    {slot : Slot} (hslot : slot ∈ slots') : slot ∈ slots := by
  have hknows := hw.knows t
  rw [hstage] at hknows
  obtain ⟨-, hhead, hsecond⟩ := hknows
  obtain ⟨rest, _, rfl, -, hremoved⟩ :=
    hw.chain.remove_first hw.nodup (Heap.links_eq_some hhead)
  rw [← hsecond, Heap.links_copy] at hchain
  obtain ⟨rfl, -⟩ := hchain.unique hremoved
  exact List.mem_cons_of_mem _ hslot

theorem effect (hw : StackWorld list stage slots xs) {instr : Instr T}
    (hmay : (stage t).May instr) {after : SharedList T} {answer : instr.Answer}
    (hexec : exec instr list = (after, some answer)) :
    ∃ s slots' xs', (stage t).Move instr answer s ∧
      StackWorld after (Function.update stage t s) slots' xs' ∧
      Effect (stage t) instr list after s slots slots' xs xs' := by
  have hknows := hw.knows t
  have hkept : ∀ {after : SharedList T}, after.heap = list.heap →
      StackWorld after (Function.update stage t (stage t)) slots xs := by
    intro after hheap
    rw [Function.update_eq_self]
    exact hw.of_heap_eq hheap
  generalize hstage : stage t = s at hmay hknows hkept ⊢
  match s, instr, hmay with
  | .waiting call, .cow (.acquireMut slot), hslot =>
      obtain rfl : slot = headSlot := hslot
      obtain ⟨hfree, rfl⟩ := acquireMut_answered hexec
      exact ⟨_, slots, xs, ⟨_, rfl, hw.pointsOn⟩, hw.acquire hfree call, .setMutLock list true,
        .inl ⟨rfl, rfl⟩, rfl, fun _ hslot => .inl hslot, (by simp), rfl, fun _ => .inl trivial⟩
  | .locked call content, .cow (.awaitImm slot), _ =>
      obtain ⟨-, rfl⟩ := awaitImm_answered hexec
      exact ⟨_, slots, xs, rfl, hkept rfl, .of_heap_eq rfl rfl rfl rfl (by simp) id⟩
  | .locked call content, .cow (.load slot), hslot =>
      cases hexec
      by_cases hhead : slot = headSlot
      · subst hhead
        refine ⟨_, slots, xs, ?_, hkept rfl, .of_heap_eq rfl rfl rfl rfl (by simp) id⟩
        simp only [Stage.Move, if_true, true_and]
        exact hknows.2
      · obtain ⟨rfl, node, rfl, hnext⟩ := hslot.resolve_left hhead
        subst hnext
        refine ⟨_, slots, xs, ?_, hw.peek hstage, .of_heap_eq rfl rfl rfl rfl (by simp) id⟩
        simp only [Stage.Move, if_neg hhead]
        exact ⟨node, rfl, rfl⟩
  | .locked call content, .cow (.loadFull slot), hslot =>
      obtain rfl : slot = headSlot := hslot
      cases hexec
      exact ⟨_, slots, xs, ⟨rfl, hknows.2⟩, hkept rfl, .of_heap_eq rfl rfl rfl rfl (by simp) id⟩
  | .locked (.push data) content, .cow (.alloc copied), hcopied =>
      obtain rfl : copied = content := hcopied
      cases hexec
      have hne : headSlot ≠ list.heap.fresh :=
        Nat.ne_of_lt (hw.allocated headSlot List.mem_cons_self)
      refine ⟨_, slots, xs, rfl, hw.alloc hstage, .alloc list copied, .inl ⟨rfl, rfl⟩, rfl,
        fun _ hslot => .inl hslot, ?_, Function.update_of_ne hne .., fun _ => .inl trivial⟩
      rintro _ _ _ ⟨⟩
      exact ⟨Function.update_self .., Function.update_self ..⟩
  | .locked .pop content, .cow (.releaseMut slot), ⟨hslot, hcontent⟩ =>
      subst hslot hcontent
      cases hexec
      obtain rfl := hw.eq_nil hstage
      have hlock : (stage t).HasLock := by
        rw [hstage]
        trivial
      exact ⟨_, slots, [], rfl, hw.release hlock .pop (.popped none),
        .release (.inr ⟨rfl, .popEmpty⟩)⟩
  | .reserved data content next, .cow (.store slot stored), ⟨hslot, hstored⟩ =>
      subst hslot hstored
      cases hexec
      refine ⟨_, _, _, rfl, hw.store_push hstage, .store list _, .inr ⟨_, _, rfl, rfl, .push⟩, rfl,
        ?_, (by simp), rfl, fun _ => .inl trivial⟩
      intro slot hslot
      rcases List.mem_cons.mp hslot with rfl | hslot
      · exact .inr ⟨data, content, rfl⟩
      · exact .inl hslot
  | .peeked node second, .fetchSubLen, _ =>
      cases hexec
      exact ⟨_, slots, xs, rfl, hkept rfl, .of_heap_eq rfl rfl rfl rfl (by simp) id⟩
  | .peeked node second, .cow (.store slot stored), ⟨hslot, hstored⟩ =>
      subst hslot hstored
      cases hexec
      obtain ⟨slots', xs', rfl, hworld⟩ := hw.store_pop hstage
      refine ⟨_, slots', xs', rfl, hworld, .store list _, .inr ⟨_, _, rfl, rfl, .pop⟩, rfl, ?_,
        (by simp), rfl, fun _ => .inl trivial⟩
      intro slot hslot
      exact .inl (hw.popped_slots hstage hworld.chain hslot)
  | .stored call content result, .cow (.releaseMut slot), hslot =>
      obtain rfl : slot = headSlot := hslot
      cases hexec
      have hlock : (stage t).HasLock := by
        rw [hstage]
        trivial
      exact ⟨_, slots, xs, rfl, hw.release hlock call result, .release (.inl rfl)⟩
  | .finished call result, .fetchAddLen, _ =>
      cases hexec
      exact ⟨_, slots, xs, rfl, hkept rfl, .of_heap_eq rfl rfl rfl rfl (by simp) id⟩

end StackWorld

end Mutual.SharedList
