import Mathlib.Algebra.BigOperators.Group.Finset.Piecewise
import Mathlib.Algebra.Order.BigOperators.Group.Finset
import Mutual.Concurrency.Draining
import Mutual.Proof.StackSteps

/-!
# Pushes and pops bring an unordered list from rest to rest

`push` counts its element after it has stored it, `pop` discounts it before. So between calls the
counter is exact, and during a run it lacks at most one element for each thread inside a call: one
that the thread has put into the list and not counted, or discounted and not taken out. Nobody waits
for the lock of `head` but for the thread that has it, and this thread waits for nothing. So all
calls in progress can return, and the list they leave is at rest, as if it had been used by one
thread.
-/

namespace Mutual.SharedList

open Concurrency Data

variable {T : Type}

namespace Stage

/-- `uncounted` says whether there is an element in the list that the counter lacks on account of the
thread. -/
def Weighs : Stage T → Bool → Instr T → Prop
  | _, _, .cow (.awaitImm slot) => slot = headSlot
  | reserved _ _ _, uncounted, .cow (.store _ _) => uncounted = false
  | peeked _ _, uncounted, .cow (.store _ _) => uncounted = true
  | _, uncounted, .fetchSubLen => uncounted = false
  | _, uncounted, .fetchAddLen => uncounted = true
  | _, _, _ => True

def weighed : Stage T → Bool → Instr T → Bool
  | reserved _ _ _, _, .cow (.store _ _) => true
  | peeked _ _, _, .cow (.store _ _) => false
  | _, _, .fetchSubLen => true
  | _, _, .fetchAddLen => false
  | _, uncounted, _ => uncounted

end Stage

def weighing : Protocol (object (T := T) none) (Stage T × Bool) where
  rest := (.idle, false)
  start call g := call.PushesOrPops ∧ g = (.waiting call, false)
  may _ g instr := g.1.May instr ∧ g.1.Weighs g.2 instr
  move _ g instr answer g' := g.1.Move instr answer g'.1 ∧ g'.2 = g.1.weighed g.2 instr
  fail _ _ := False
  arrive _ _ _ := False
  leave _ _ _ := False
  finish call result g := g = (.finished call result, false)

section Code

variable {call : Call T} {g : Stage T × Bool}

@[simp] theorem weighing_may {instr : Instr T} :
    weighing.may call g instr ↔ g.1.May instr ∧ g.1.Weighs g.2 instr := Iff.rfl

@[simp] theorem weighing_move {instr : Instr T} {answer : instr.Answer} {g' : Stage T × Bool} :
    weighing.move call g instr answer g' ↔
      g.1.Move instr answer g'.1 ∧ g'.2 = g.1.weighed g.2 instr := Iff.rfl

@[simp] theorem weighing_finish {result : Reply T} :
    weighing.finish call result g ↔ g = (.finished call result, false) := Iff.rfl

theorem weighing_pushHead {data : T} :
    weighing.Obeys (.push data) (pushHead data) (.waiting (.push data), false) := by
  simp only [pushHead, head, Prog.bind_eq, perform_bind, removeLock_bind, isNull_bind,
    Option.isNone_iff_eq_none, createLock_bind, Protocol.obeys_op, weighing_may, Stage.May,
    Stage.Weighs, and_self, weighing_move, Stage.Move, Stage.weighed, Instr.cow.injEq, reduceCtorEq,
    imp_self, implies_true, and_true, heq_eq_eq, imp_false, not_true_eq_false, IsEmpty.forall_iff,
    and_imp, Prod.forall, forall_eq_apply_imp_iff, forall_eq, forall_const, forall_exists_index,
    Bool.forall_bool, Bool.true_eq_false, true_and]
  rintro _ content rfl hpoints
  cases content with
  | none => simp [Stage.May, Stage.Move, Stage.Weighs, Stage.weighed]
  | some node => simp [Stage.May, Stage.Move, Stage.Weighs, Stage.weighed]

theorem weighing_pop :
    weighing.Obeys .pop (pop : Prog (sig T) (Outcome T)) (.waiting .pop, false) := by
  simp only [pop, head, Prog.bind_eq, removeLock_bind, perform_bind, getRef_bind,
    Option.isNone_iff_eq_none, isNull_bind, createLock_bind, Protocol.obeys_op, weighing_may,
    Stage.May, Stage.Weighs, and_self, weighing_move, Stage.Move, Stage.weighed, Instr.cow.injEq,
    reduceCtorEq, imp_self, implies_true, and_true, heq_eq_eq, imp_false, not_true_eq_false,
    IsEmpty.forall_iff, and_imp, Prod.forall, forall_eq_apply_imp_iff, forall_eq, forall_const,
    forall_exists_index, Bool.forall_bool, Bool.true_eq_false, true_and]
  rintro _ content rfl hpoints
  cases content with
  | none => simp [Stage.May, Stage.Move, Stage.Weighs, Stage.weighed]
  | some node =>
      rw [pointsOn_some] at hpoints
      simp [Stage.May, Stage.Move, Stage.Weighs, Stage.weighed, hpoints]

theorem weighing_sound : (weighing (T := T)).Sound where
  enter := by
    rintro call g ⟨hcall, rfl⟩
    cases call with
    | push data => exact weighing_pushHead
    | pop => exact weighing_pop
    | _ => exact hcall.elim
  body := by
    intro call label g hleave
    exact hleave.elim

end Code

/-! ### The counter and the locks -/

variable {ι : Type} [DecidableEq ι] [Fintype ι]

/-- The elements in the list that the counter lacks. -/
def uncounted (ghost : ι → Stage T × Bool) : Nat := ∑ t, (ghost t).2.toNat

structure Weighed (initial : List T) (list : SharedList T) (ghost : ι → Stage T × Bool)
    (history : List (Event ι (Call T) (Reply T))) (slots : List Slot)
    (order : List (Entry (Call T) (Reply T))) (xs : List T) : Prop where
  world : StackWorld list (fun t => (ghost t).1) slots xs
  pointed : Pointed StackStep initial history (fun t => (ghost t).1.phase) order xs
  free : ∀ slot ∈ slots, Free list slot
  reserved : ∀ t data content next, (ghost t).1 = .reserved data content next → Free list next
  immFree : list.heap.immLock headSlot = false
  owned : list.heap.mutLock headSlot = true → ∃ t, (ghost t).1.HasLock
  len : list.len + UInt64.ofNat (uncounted ghost) = UInt64.ofNat xs.length

theorem Stage.Weighs.cow {s : Stage T} {b : Bool} {instr : CowData.Instr (Node T)}
    (hweighs : s.Weighs b (.cow instr)) :
    (s.weighed b (.cow instr)).toNat + s.popped (.cow instr) = b.toNat + s.pushed (.cow instr) := by
  cases instr with
  | store slot content =>
      cases s with
      | reserved data content next =>
          obtain rfl : b = false := hweighs
          rfl
      | peeked node second =>
          obtain rfl : b = true := hweighs
          rfl
      | _ => rfl
  | _ => cases s <;> rfl

/-- What the counter gains and what it lacks after the access. -/
theorem Stage.Weighs.len {s : Stage T} {b : Bool} {instr : Instr T} (hweighs : s.Weighs b instr)
    {list after : SharedList T} {answer : instr.Answer}
    (hexec : exec instr list = (after, some answer)) :
    after.len + UInt64.ofNat ((s.weighed b instr).toNat + s.popped instr) =
      list.len + UInt64.ofNat (b.toNat + s.pushed instr) := by
  have hafter : (exec instr list).1 = after := congrArg Prod.fst hexec
  cases instr with
  | cow instr =>
      rw [hweighs.cow, ← hafter]
      rfl
  | fetchAddLen =>
      obtain rfl : b = true := by cases s <;> exact hweighs
      have hlen : after.len = list.len + 1 := by rw [← hafter]; rfl
      rw [hlen]
      cases s <;> simp [Stage.weighed, Stage.popped, Stage.pushed]
  | fetchSubLen =>
      obtain rfl : b = false := by cases s <;> exact hweighs
      have hlen : after.len = list.len - 1 := by rw [← hafter]; rfl
      rw [hlen]
      cases s <;> simp [Stage.weighed, Stage.popped, Stage.pushed]
  | _ =>
      rw [← hafter]
      cases s <;> rfl

namespace Weighed

variable {initial : List T} {list after : SharedList T} {ghost : ι → Stage T × Bool}
  {history : List (Event ι (Call T) (Reply T))} {slots : List Slot}
  {order : List (Entry (Call T) (Reply T))} {xs : List T} {t : ι}

theorem takes (hw : Weighed initial list ghost history slots order xs) {instr : Instr T}
    {s : Stage T} {b : Bool} {slots' : List Slot} {xs' : List T}
    (heffect : Effect (ghost t).1 instr list after s slots slots' xs xs') :
    ∃ order', Pointed StackStep initial history (fun u => (Function.update ghost t (s, b) u).1.phase)
      order' xs' := by
  rw [field_update fun g : Stage T × Bool => g.1.phase]
  rcases heffect.takes with ⟨hsame, rfl⟩ | ⟨call, result, hcalled, heffective, hspec⟩
  · rw [hsame, Function.update_eq_self]
    exact ⟨order, hw.pointed⟩
  · rw [heffective]
    obtain ⟨entry, hpoint⟩ := hw.pointed.point hcalled hspec
    exact ⟨_, hpoint⟩

omit [DecidableEq ι] in
/-- The slots of the list stay unlocked. -/
theorem free_of_mem (hw : Weighed initial list ghost history slots order xs)
    (hfrozen : Frozen list after) {slot : Slot} (hslot : slot ∈ slots) : Free after slot := by
  have hhead : slot ≠ headSlot := by
    rintro rfl
    exact (List.nodup_cons.mp hw.world.nodup).1 hslot
  exact hfrozen.free slot hhead (hw.world.allocated slot (List.mem_cons_of_mem _ hslot))
    (hw.free slot hslot)

omit [DecidableEq ι] in
theorem free_of_reserved (hw : Weighed initial list ghost history slots order xs)
    (hfrozen : Frozen list after) {u : ι} {data : T} {content : Option (Node T)} {next : Slot}
    (hreserved : (ghost u).1 = .reserved data content next) : Free after next := by
  have hknows := hw.world.knows u
  simp only [hreserved] at hknows
  obtain ⟨-, -, hallocated, hfresh, -⟩ := hknows
  exact hfrozen.free next (List.ne_of_not_mem_cons hfresh) hallocated
    (hw.reserved u data content next hreserved)

theorem answered (hw : Weighed initial list ghost history slots order xs) {instr : Instr T}
    (hmay : (ghost t).1.May instr) (hweighs : (ghost t).1.Weighs (ghost t).2 instr)
    {answer : instr.Answer} (hexec : exec instr list = (after, some answer)) :
    ∃ s, (ghost t).1.Move instr answer s ∧ ∃ slots' order' xs', Weighed initial after
      (Function.update ghost t (s, (ghost t).1.weighed (ghost t).2 instr)) history slots' order'
        xs' := by
  obtain ⟨s, slots', xs', hmove, hworld, heffect⟩ := hw.world.effect hmay hexec
  obtain ⟨order', hpointed⟩ := hw.takes heffect
  refine ⟨s, hmove, slots', order', xs', ?_, hpointed, ?_, ?_, ?_, ?_, ?_⟩
  · rw [field_update Prod.fst]
    exact hworld
  · intro slot hslot
    rcases heffect.slots slot hslot with hold | ⟨data, content, hreserved⟩
    · exact hw.free_of_mem heffect.frozen hold
    · exact hw.free_of_reserved heffect.frozen hreserved
  · intro u data content next hu
    by_cases hut : u = t
    · rw [hut, Function.update_self] at hu
      exact heffect.reserves data content next hu
    · rw [Function.update_of_ne hut] at hu
      exact hw.free_of_reserved heffect.frozen hu
  · rw [heffect.immLock]
    exact hw.immFree
  · intro hlocked
    rcases heffect.mutLock hlocked with hlock | ⟨hbefore, hnot⟩
    · exact ⟨t, by rwa [Function.update_self]⟩
    · obtain ⟨u, hu⟩ := hw.owned hbefore
      have hut : u ≠ t := by
        rintro rfl
        exact hnot hu
      exact ⟨u, by rwa [Function.update_of_ne hut]⟩
  · have hthread := hweighs.len hexec
    have hsum : uncounted (Function.update ghost t (s, (ghost t).1.weighed (ghost t).2 instr)) +
        (ghost t).2.toNat = uncounted ghost + ((ghost t).1.weighed (ghost t).2 instr).toNat :=
      sum_update (fun g => g.2.toNat) ghost t _
    have hlength := congrArg UInt64.ofNat heffect.length
    have hlen := hw.len
    have hsum := congrArg UInt64.ofNat hsum
    simp only [UInt64.ofNat_add] at hthread hsum hlength
    grind

/-- A call begins or returns. -/
theorem outside (hw : Weighed initial list ghost history slots order xs)
    (hbefore : ¬ (ghost t).1.HasLock) {g : Stage T × Bool} (hafter : ¬ g.1.HasLock)
    (hsame : g.2 = (ghost t).2) {history' : List (Event ι (Call T) (Reply T))}
    (hpointed : Pointed StackStep initial history'
      (Function.update (fun u => (ghost u).1.phase) t g.1.phase) order xs) :
    Weighed initial list (Function.update ghost t g) history' slots order xs where
  world := by
    rw [field_update Prod.fst]
    exact hw.world.other_step hafter
  pointed := by
    rw [field_update fun g : Stage T × Bool => g.1.phase]
    exact hpointed
  free := hw.free
  reserved := by
    refine (Function.forall_update_iff ghost fun _ g => ∀ data content next,
      g.1 = .reserved data content next → Free list next).mpr ⟨?_, fun u _ => hw.reserved u⟩
    intro data content next hreserved
    rw [hreserved] at hafter
    exact absurd trivial hafter
  immFree := hw.immFree
  owned hlocked := by
    obtain ⟨u, hu⟩ := hw.owned hlocked
    have hut : u ≠ t := by
      rintro rfl
      exact hbefore hu
    exact ⟨u, by rwa [Function.update_of_ne hut]⟩
  len := by
    have hsum : uncounted (Function.update ghost t g) = uncounted ghost :=
      sum_update_of_eq (fun g : Stage T × Bool => g.2.toNat) ghost t (congrArg Bool.toNat hsame)
    rw [hsum]
    exact hw.len

end Weighed

theorem weighing_keeps (initial : List T) :
    weighing.Keeps (OnlyCalls (ι := ι) Call.PushesOrPops) fun list ghost history =>
      ∃ slots order xs, Weighed initial list ghost history slots order xs where
  invoke := by
    rintro config ghost t call ⟨slots, order, xs, hw⟩ hcall hrest
    have hbefore : ¬ (ghost t).1.HasLock := by
      rw [hrest]
      exact id
    refine ⟨(.waiting call, false), ⟨hcall, rfl⟩, slots, order, xs, ?_⟩
    refine hw.outside hbefore id ?_ hw.pointed.invoke
    rw [hrest]
    rfl
  respond := by
    rintro config ghost t call result ⟨slots, order, xs, hw⟩ - - hfinish
    have hghost : ghost t = (.finished call result, false) := hfinish
    refine ⟨slots, order, xs, hw.outside ?_ id ?_ (hw.pointed.respond ?_)⟩
    all_goals rw [hghost]
    · exact id
    · rfl
    · rfl
  jump := by
    intro config ghost t call label _ _ _ harrive
    exact harrive.elim
  answered := by
    rintro config ghost t call instr next state answer ⟨slots, order, xs, hw⟩ _ _ hmay hexec
    obtain ⟨s, hmove, hafter⟩ := hw.answered hmay.1 hmay.2 hexec
    exact ⟨_, ⟨hmove, rfl⟩, hafter⟩
  retried := by
    rintro config ghost t call instr next state hw _ _ hmay hexec
    rcases retried_cases hexec with ⟨slot, rfl, rfl⟩ | ⟨slot, rfl, -, rfl⟩ | ⟨slot, rfl, -, -⟩
    · exact hw
    · exact hw
    · exact ((ghost t).1.not_may_acquireImm slot hmay.1).elim

omit [DecidableEq ι] in
theorem weighed_of_represents {initial : List T} {list : SharedList T}
    (hlist : list.Represents initial) : ∃ slots order xs,
      Weighed initial list (fun _ : ι => weighing.rest) [] slots order xs := by
  obtain ⟨slots, hlayout⟩ := hlist
  refine ⟨slots, [], initial, .of_layout hlayout, .nil, ?_, ?_,
    hlayout.immFree _ List.mem_cons_self, ?_, ?_⟩
  · intro slot hslot
    have hmem := List.mem_cons_of_mem headSlot hslot
    exact ⟨hlayout.mutFree slot hmem, hlayout.immFree slot hmem⟩
  · exact fun _ _ _ _ => nofun
  · intro hlocked
    rw [hlayout.mutFree headSlot List.mem_cons_self] at hlocked
    cases hlocked
  · have hzero : uncounted (fun _ : ι => (weighing (T := T)).rest) = 0 :=
      Finset.sum_eq_zero fun _ _ => rfl
    rw [hzero, hlayout.len]
    exact UInt64.add_zero _

/-! ### At rest -/

/-- What holds in every state reached. -/
structure Working (initial : List T) (config : Config (object (T := T) none) ι)
    (ghost : ι → Stage T × Bool) (slots : List Slot) (order : List (Entry (Call T) (Reply T)))
    (xs : List T) : Prop where
  follows : ∀ t, weighing.Follows (config.thread t) (ghost t)
  weighed : Weighed initial config.state ghost config.history slots order xs

namespace Working

variable {initial : List T} {config : Config (object (T := T) none) ι}
  {ghost : ι → Stage T × Bool} {slots : List Slot} {order : List (Entry (Call T) (Reply T))}
  {xs : List T} {t : ι}

omit [DecidableEq ι] in
theorem ghost_of_idle (hw : Working initial config ghost slots order xs)
    (hidle : config.thread t = .idle) : ghost t = (.idle, false) := by
  have hfollows := hw.follows t
  rw [hidle] at hfollows
  exact hfollows

omit [DecidableEq ι] in
theorem busy_of_hasLock (hw : Working initial config ghost slots order xs)
    (hlock : (ghost t).1.HasLock) : (config.thread t).isBusy = true := by
  rw [← Bool.not_eq_false, Thread.isBusy_eq_false_iff]
  intro hidle
  rw [hw.ghost_of_idle hidle] at hlock
  exact hlock

omit [DecidableEq ι] in
/-- A thread between calls leaves nothing uncounted. -/
theorem uncounted_le (hw : Working initial config ghost slots order xs) :
    uncounted ghost ≤ config.busy.card := by
  rw [uncounted, Config.busy, Finset.card_filter]
  refine Finset.sum_le_sum fun t _ => ?_
  split
  · exact Bool.toNat_le _
  · rename_i hidle
    rw [Bool.not_eq_true, Thread.isBusy_eq_false_iff] at hidle
    rw [hw.ghost_of_idle hidle]
    exact Nat.le_refl 0

omit [DecidableEq ι] in
theorem represents (hw : Working initial config ghost slots order xs)
    (hquiescent : config.Quiescent) : config.state.Represents xs := by
  have hunlocked : config.state.heap.mutLock headSlot = false := by
    rw [← Bool.not_eq_true]
    intro hlocked
    obtain ⟨t, ht⟩ := hw.weighed.owned hlocked
    rw [hw.ghost_of_idle (hquiescent t)] at ht
    exact ht
  have hlen := hw.weighed.len
  have hzero : uncounted ghost = 0 :=
    Finset.sum_eq_zero fun t _ => by rw [hw.ghost_of_idle (hquiescent t)]; rfl
  rw [hzero] at hlen
  refine ⟨slots, hw.weighed.world.chain, hw.weighed.world.nodup, hw.weighed.world.allocated, ?_, ?_,
    (UInt64.add_zero _).symm.trans hlen⟩
  · rintro slot (_ | ⟨_, hslot⟩)
    · exact hunlocked
    · exact (hw.weighed.free slot hslot).1
  · rintro slot (_ | ⟨_, hslot⟩)
    · exact hw.weighed.immFree
    · exact (hw.weighed.free slot hslot).2

end Working

theorem working {initial : List T} {list : SharedList T} (hlist : list.Represents initial)
    {config : Config (object (T := T) none) ι}
    (hreach : ((object none).threads ι).Reach (OnlyCalls Call.PushesOrPops) (.initial list) config) :
    ∃ ghost slots order xs, Working initial config ghost slots order xs := by
  obtain ⟨ghost, hfollows, slots, order, xs, hw⟩ :=
    Protocol.invariant weighing_sound (weighing_keeps initial) (weighed_of_represents hlist) hreach
  exact ⟨ghost, slots, order, xs, hfollows, hw⟩

/-- **The counter between calls and during them.** Whatever pushes and pops are in progress, `len()`
is short, modulo `2 ^ 64`, of the elements in the list, by one for some of the threads in a call.
When nobody is in a call the list is at rest, with the elements its linearization leads to. -/
theorem rests_when_quiescent {initial : List T} {list : SharedList T}
    (hlist : list.Represents initial) {config : Config (object (T := T) none) ι}
    (hreach : ((object none).threads ι).Reach (OnlyCalls Call.PushesOrPops) (.initial list) config) :
    ∃ order xs, Linearization StackStep initial config.history order xs ∧ config.state.Holds xs ∧
      (∃ short ≤ config.busy.card,
        config.state.len + UInt64.ofNat short = UInt64.ofNat xs.length) ∧
      (config.Quiescent → config.state.Represents xs) := by
  obtain ⟨ghost, slots, order, xs, hw⟩ := working hlist hreach
  exact ⟨order, xs, hw.weighed.pointed.linearization, ⟨slots, hw.weighed.world.chain⟩,
    ⟨uncounted ghost, hw.uncounted_le, hw.weighed.len⟩, hw.represents⟩

/-- An element is popped before its `push` has counted it: `len()` wraps, and is short by one. -/
theorem rests_when_quiescent_wrapped :
    ∃ config : Config (object (T := Nat) none) Bool,
      config.history = [.invoke false (.push 1), .invoke true .pop,
        .respond true .pop (.popped (some 1))] ∧ config.state.len = 0xFFFFFFFFFFFFFFFF ∧
      ∃ order xs, Linearization StackStep [] config.history order xs ∧ config.state.Holds xs ∧
        (∃ short ≤ config.busy.card,
          config.state.len + UInt64.ofNat short = UInt64.ofNat xs.length) ∧
        (config.Quiescent → config.state.Represents xs) := by
  obtain ⟨config, hrun, hhistory, hlen⟩ : ∃ config,
      ((object (T := Nat) none).threads Bool).runIf (OnlyCalls Call.PushesOrPops) (.initial new)
        (.invoke false (.push 1) :: List.replicate 6 (.tick false) ++
          .invoke true .pop :: List.replicate 11 (.tick true)) = some config ∧
      config.history = [.invoke false (.push 1), .invoke true .pop,
        .respond true .pop (.popped (some 1))] ∧
      config.state.len = 0xFFFFFFFFFFFFFFFF := ⟨_, rfl, rfl, rfl⟩
  exact ⟨config, hhistory, hlen,
    rests_when_quiescent new_represents (System.reach_of_runIf _ hrun)⟩

/-! ### Everybody returns -/

/-- Nobody but `t` has the lock of `head`. -/
def Clear (initial : List T) (t : ι) (config : Config (object (T := T) none) ι) : Prop :=
  ∃ ghost slots order xs, Working initial config ghost slots order xs ∧
    ∀ u, u ≠ t → ¬ (ghost u).1.HasLock

/-- No access of a push or a pop is tried in vain, if nobody else has the lock. -/
theorem Working.exec_answered {initial : List T} {config : Config (object (T := T) none) ι}
    {ghost : ι → Stage T × Bool} {slots : List Slot} {order : List (Entry (Call T) (Reply T))}
    {xs : List T} {t : ι} (hw : Working initial config ghost slots order xs)
    (hothers : ∀ u, u ≠ t → ¬ (ghost u).1.HasLock) {instr : Instr T} (hmay : (ghost t).1.May instr)
    (hweighs : (ghost t).1.Weighs (ghost t).2 instr) :
    ∃ state answer, exec instr config.state = (state, some answer) := by
  rcases hexec : exec instr config.state with ⟨state, _ | answer⟩
  · exfalso
    rcases retried_cases hexec with ⟨slot, rfl, rfl⟩ | ⟨slot, rfl, hlocked, -⟩ | ⟨slot, rfl, -, -⟩
    · have hslot : slot = headSlot := by
        cases hstage : (ghost t).1 <;> rw [hstage] at hweighs <;> exact hweighs
      rw [hslot] at hexec
      simp [exec, CowData.exec, hw.weighed.immFree] at hexec
    · cases hstage : (ghost t).1 with
      | waiting call =>
          rw [hstage] at hmay
          obtain rfl : slot = headSlot := hmay
          obtain ⟨u, hu⟩ := hw.weighed.owned hlocked
          by_cases hut : u = t
          · rw [hut, hstage] at hu
            exact hu
          · exact hothers u hut hu
      | _ =>
          rw [hstage] at hmay
          exact hmay
    · cases hstage : (ghost t).1 <;> rw [hstage] at hmay <;> exact hmay
  · exact ⟨state, answer, rfl⟩

theorem clear_unhindered (initial : List T) (t : ι) :
    Unhindered t (Clear initial t : Config (object (T := T) none) ι → Prop) where
  reply := by
    rintro config call result ⟨ghost, slots, order, xs, hw, hothers⟩ hthread
    have hghost : ghost t = (.finished call result, false) := by
      have hfollows := hw.follows t
      rw [hthread] at hfollows
      exact hfollows
    refine ⟨Function.update ghost t weighing.rest, slots, order, xs, ⟨?_, ?_⟩, ?_⟩
    · exact Protocol.follows_update hw.follows t .idle rfl
    · refine hw.weighed.outside ?_ id ?_ (hw.weighed.pointed.respond ?_)
      all_goals rw [hghost]
      · exact id
      · rfl
      · rfl
    · intro u hut
      rw [Function.update_of_ne hut]
      exact hothers u hut
  goto := by
    rintro config call label ⟨ghost, slots, order, xs, hw, -⟩ hthread
    have hfollows := hw.follows t
    rw [hthread] at hfollows
    exact hfollows
  panic := by
    rintro config call message ⟨ghost, slots, order, xs, hw, -⟩ hthread
    have hfollows := hw.follows t
    rw [hthread] at hfollows
    exact hfollows
  op := by
    rintro config call instr next ⟨ghost, slots, order, xs, hw, hothers⟩ hat
    have hfollows := hw.follows t
    rw [show config.thread t = _ from hat] at hfollows
    obtain ⟨⟨hmay, hweighs⟩, hnext⟩ := hfollows
    obtain ⟨state, answer, hexec⟩ := hw.exec_answered hothers hmay hweighs
    obtain ⟨s, hmove, slots', order', xs', hafter⟩ := hw.weighed.answered hmay hweighs hexec
    refine ⟨state, answer, hexec, _, slots', order', xs', ⟨?_, hafter⟩, ?_⟩
    · exact Protocol.follows_update hw.follows t _ (hnext answer _ ⟨hmove, rfl⟩)
    · intro u hut
      rw [Function.update_of_ne hut]
      exact hothers u hut

/-- **No deadlock.** From every state that pushes and pops of any threads lead to, the calls in
progress can all return, and they leave a list at rest, with the elements that the linearization of
the whole history leads to. -/
theorem comes_to_rest {initial : List T} {list : SharedList T} (hlist : list.Represents initial)
    {config : Config (object (T := T) none) ι}
    (hreach : ((object none).threads ι).Reach (OnlyCalls Call.PushesOrPops) (.initial list) config) :
    ∃ after order xs, ((object none).threads ι).Reach Continues config after ∧ after.Quiescent ∧
      Linearization StackStep initial after.history order xs ∧ after.state.Represents xs := by
  have hnext : ∀ config : Config (object (T := T) none) ι,
      (∃ ghost slots order xs, Working initial config ghost slots order xs) →
      ∀ t, (config.thread t).isBusy = true →
        ∃ u, (config.thread u).isBusy = true ∧ Clear initial u config := by
    rintro config ⟨ghost, slots, order, xs, hw⟩ t ht
    by_cases hlock : ∃ u, (ghost u).1.HasLock
    · obtain ⟨u, hu⟩ := hlock
      refine ⟨u, hw.busy_of_hasLock hu, ghost, slots, order, xs, hw, fun v hvu hv => hvu ?_⟩
      exact hw.weighed.world.exclusive v u hv hu
    · exact ⟨t, ht, ghost, slots, order, xs, hw, fun u _ hu => hlock ⟨u, hu⟩⟩
  obtain ⟨after, hafter, ⟨ghost, slots, order, xs, hw⟩, hquiescent⟩ :=
    reaches_quiescence (clear_unhindered initial) hnext
      (fun t config ⟨ghost, slots, order, xs, hw, _⟩ _ => ⟨ghost, slots, order, xs, hw⟩)
      (working hlist hreach)
  exact ⟨after, order, xs, hafter, hquiescent, hw.weighed.pointed.linearization,
    hw.represents hquiescent⟩

/-- A `pop` waits for the lock of `head`, which a `push` has. -/
theorem comes_to_rest_waiting :
    ∃ config : Config (object (T := Nat) none) Bool,
      config.history = [.invoke false (.push 1), .invoke true .pop] ∧
      config.state.heap.mutLock headSlot = true ∧
      ∃ after order xs, ((object none).threads Bool).Reach Continues config after ∧
        after.Quiescent ∧ Linearization StackStep [] after.history order xs ∧
        after.state.Represents xs := by
  obtain ⟨config, hrun, hhistory, hlocked⟩ : ∃ config,
      ((object (T := Nat) none).threads Bool).runIf (OnlyCalls Call.PushesOrPops) (.initial new)
        (.invoke false (.push 1) :: List.replicate 4 (.tick false) ++
          .invoke true .pop :: List.replicate 3 (.tick true)) = some config ∧
      config.history = [.invoke false (.push 1), .invoke true .pop] ∧
      config.state.heap.mutLock headSlot = true := ⟨_, rfl, rfl, rfl⟩
  exact ⟨config, hhistory, hlocked, comes_to_rest new_represents (System.reach_of_runIf _ hrun)⟩

end Mutual.SharedList
