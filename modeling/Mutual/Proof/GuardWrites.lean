import Mutual.Concurrency.Protocol
import Mutual.CowCalls
import Mutual.CowGuarded

/-!
# What a guard writes back

A mutable guard has read the content of its `CowData` and stores in it when it is dropped. The
mutable lock keeps everybody out who takes it. `swap` and the store of `bump_into_null` in the null
`CowData` do not take it.
-/

namespace Mutual.CowData.Guarded

open Concurrency

variable {α : Type}

namespace Call

def handles : Call α → List CowData
  | set self _ | setNull self | isNull self | getRef self | getMut self => [self]
  | bumpIntoNull self nullCow _ => [self, nullCow]
  | swap self other => [self, other]
  | dropMut _ => []

/-- The handles on the slot have the flag, which clones share. -/
def Protects (slot : Slot) (call : Call α) : Prop :=
  ∀ self ∈ call.handles, self.slot = slot → self.isMutLockProtected = true

def getsMut : Call α → Bool
  | getMut _ => true
  | _ => false

/-- The call drops a guard of the slot. -/
def drops (slot : Slot) : Call α → Bool
  | dropMut guard => guard.originalStructure == slot
  | _ => false

/-- `set` and `set_null`. -/
def assigns : Call α → Bool
  | set .. | setNull _ => true
  | _ => false

end Call

/-- The reply is a guard of the slot. -/
def Reply.lends (slot : Slot) : Reply α → Bool
  | mutGuard guard => guard.originalStructure == slot
  | _ => false

/-- What can be told of the mutable guard of a slot: what it has read, from the load in `get_mut` to
the store in its `Drop`, and whether it has been returned and not been dropped. -/
structure Watch (α : Type) where
  read : Option (Option α)
  lent : Bool

variable {ι : Type}

def Watch.after (slot : Slot) (heap : Heap α) (call : Call α) : Instr α → Watch α → Watch α
  | .loadFull other, seen =>
      if call.getsMut ∧ other = slot then { seen with read := some (heap.inner slot) } else seen
  | .store other _, seen =>
      if call.drops slot ∧ other = slot then { seen with read := none } else seen
  | _, seen => seen

def watch (slot : Slot) (config : Config (object α) ι) :
    Action (object α) ι → Watch α → Watch α
  | .invoke _ call, seen => if call.drops slot then { seen with lent := false } else seen
  | .tick t, seen =>
      match config.thread t with
      | .busy call (.op instr _) => Watch.after slot config.state call instr seen
      | .busy _ (.ret (.inr result)) =>
          if result.lends slot then { seen with lent := true } else seen
      | _ => seen

/-- The handles on the slot are lock-protected, and a guard of the slot is dropped once, after it
has been returned. -/
def Wellformed (slot : Slot) (before : Config (object α) ι × Watch α) :
    Action (object α) ι → Prop
  | .invoke _ call => call.Protects slot ∧ (call.drops slot = true → before.2.lent = true)
  | .tick _ => True

/-- If the next access of `t` is an exchange of `swap` on the slot, or the store of `bump_into_null`
in the slot as the null `CowData`, no guard of the slot is live. -/
def MeetsNoGuard (slot : Slot) (before : Config (object α) ι × Watch α) (t : ι) : Prop :=
  match before.1.thread t with
  | .busy (.swap _ _) (.op (.swap other _) _) => other = slot → before.2.read = none
  | .busy (.bumpIntoNull _ _ _) (.op (.store other _) _) => other = slot → before.2.read = none
  | _ => True

def KeepsOff (slot : Slot) (before : Config (object α) ι × Watch α) :
    Action (object α) ι → Prop
  | .tick t => MeetsNoGuard slot before t
  | .invoke _ _ => True

instance (slot : Slot) (call : Call α) : Decidable (call.Protects slot) := by
  unfold Call.Protects
  infer_instance

instance (slot : Slot) (before : Config (object α) ι × Watch α) :
    ∀ action, Decidable (Wellformed slot before action)
  | .invoke _ call => inferInstanceAs (Decidable
      (call.Protects slot ∧ (call.drops slot = true → before.2.lent = true)))
  | .tick _ => .isTrue trivial

instance (slot : Slot) (before : Config (object α) ι × Watch α) (t : ι) :
    Decidable (MeetsNoGuard slot before t) := by
  unfold MeetsNoGuard
  split <;> infer_instance

instance (slot : Slot) (before : Config (object α) ι × Watch α) :
    ∀ action, Decidable (KeepsOff slot before action)
  | .tick t => inferInstanceAs (Decidable (MeetsNoGuard slot before t))
  | .invoke _ _ => .isTrue trivial

/-! ### The code -/

/-- What a thread has to do with the mutable lock of the slot: it is between the swap that takes the
lock and the store that gives it back, or between the load in `get_mut` and the return of the guard,
or between the start of the drop and the store. -/
inductive Role where
  | outside
  | holder
  | lender
  | dropper

namespace Role

def holds : Role → Bool
  | holder => true
  | _ => false

def owns : Role → Bool
  | lender | dropper => true
  | _ => false

end Role

def mayAt (slot : Slot) (call : Call α) (g : Role) : Instr α → Prop
  | .acquireMut other => other = slot → g = .outside
  | .releaseMut other => other = slot → g = .holder
  | .loadFull other => call.getsMut = true → other = slot → g = .holder
  | .store other _ => other = slot →
      match call with
      | .bumpIntoNull .. => True
      | .dropMut _ => call.drops slot = true ∧ g = .dropper
      | _ => g = .holder
  | .swap other _ => other = slot →
      match call with
      | .swap .. => True
      | _ => g = .holder
  | .alloc _ => False
  | _ => True

def roleAfter (slot : Slot) (call : Call α) (g : Role) : Instr α → Role
  | .acquireMut other => if other = slot then .holder else g
  | .releaseMut other => if other = slot then .outside else g
  | .loadFull other => if call.getsMut ∧ other = slot then .lender else g
  | .store other _ => if call.drops slot ∧ other = slot then .outside else g
  | _ => g

def guarding (slot : Slot) : Protocol (object α) Role where
  rest := .outside
  start call g := call.Protects slot ∧ g = if call.drops slot then .dropper else .outside
  may := mayAt slot
  move call g instr _ g' := g' = roleAfter slot call g instr
  fail _ _ := True
  arrive _ _ _ := True
  leave _ _ _ := True
  finish _ result g := g = if result.lends slot then .lender else .outside

section Code

variable {slot : Slot} {call : Call α} {g : Role}

@[simp] theorem guarding_may {instr : Instr α} :
    (guarding slot).may call g instr ↔ mayAt slot call g instr := Iff.rfl

@[simp] theorem guarding_move {instr : Instr α} {answer : instr.Answer} {g' : Role} :
    (guarding slot).move call g instr answer g' ↔ g' = roleAfter slot call g instr := Iff.rfl

@[simp] theorem guarding_fail : (guarding slot).fail call g ↔ True := Iff.rfl

@[simp] theorem guarding_finish {result : Reply α} :
    (guarding slot).finish call result g ↔
      g = if result.lends slot then .lender else .outside := Iff.rfl

end Code

theorem assign_obeys {slot : Slot} {call : Call α} (self : CowData) (content : Option α)
    (hcall : call.assigns = true) (hself : self.slot = slot → self.isMutLockProtected = true) :
    (guarding slot).Obeys call
      ((self.assign content).bind fun _ => (reply .unit : Prog (sig α) (Outcome α))) .outside := by
  cases call with
  | set _ _ | setNull _ =>
      by_cases hslot : self.slot = slot
      · simp [assign, createLock, removeLock, hself hslot, hslot, mayAt, roleAfter, Call.drops,
          Reply.lends]
      · cases hlocked : self.isMutLockProtected <;>
          simp [assign, createLock, removeLock, hlocked, hslot, mayAt, roleAfter, Reply.lends]
  | _ => cases hcall

theorem guarding_sound (slot : Slot) : (guarding (α := α) slot).Sound where
  enter := by
    rintro call g ⟨hprotects, rfl⟩
    cases call with
    | set self data => exact assign_obeys self _ rfl (hprotects self List.mem_cons_self)
    | setNull self => exact assign_obeys self _ rfl (hprotects self List.mem_cons_self)
    | bumpIntoNull self nullCow newData =>
        have hself := hprotects self List.mem_cons_self
        simp only [enter, bumpIntoNull, Prog.bind_eq, perform_bind, isNull_bind,
          Option.isNone_iff_eq_none, Prog.op_bind, Call.drops, Bool.false_eq_true, ↓reduceIte,
          Protocol.obeys_op, guarding_may, mayAt, guarding_move, roleAfter, forall_eq, true_and,
          forall_const]
        intro content
        cases content with
        | some data => simp
        | none =>
            by_cases hslot : self.slot = slot
            · simp [createLock, removeLock, hself hslot, hslot, mayAt, roleAfter, Call.drops,
                Reply.lends]
            · cases hlocked : self.isMutLockProtected <;>
                simp [createLock, removeLock, hlocked, hslot, mayAt, roleAfter, Call.drops,
                  Reply.lends]
    | swap self other =>
        simp [enter, swap, mayAt, roleAfter, Call.drops, Call.getsMut, Reply.lends]
    | isNull self => simp [enter, isNull, mayAt, roleAfter, Call.drops, Reply.lends]
    | getRef self =>
        simp only [enter, getRef, Prog.bind_eq, isNull_bind, Option.isNone_iff_eq_none,
          Prog.op_bind, Call.drops, Bool.false_eq_true, ↓reduceIte, Protocol.obeys_op, guarding_may,
          mayAt, guarding_move, roleAfter, forall_eq, true_and, forall_const]
        intro content
        cases content with
        | some data => simp [mayAt, roleAfter, Call.getsMut, Reply.lends]
        | none => simp
    | getMut self =>
        have hself := hprotects self List.mem_cons_self
        simp only [enter, getMut, Prog.pure_eq, Prog.bind_eq, perform_bind, isNull_bind,
          Option.isNone_iff_eq_none, Prog.op_bind, Call.drops, Bool.false_eq_true, ↓reduceIte,
          Protocol.obeys_op, guarding_may, mayAt, guarding_move, roleAfter, forall_eq, true_and,
          forall_const]
        intro content
        cases content with
        | none => simp
        | some data =>
            by_cases hslot : self.slot = slot
            · simp [createLock, hself hslot, hslot, mayAt, roleAfter, Call.getsMut, Reply.lends]
            · cases hlocked : self.isMutLockProtected <;>
                simp [createLock, hlocked, hslot, mayAt, roleAfter, Call.getsMut, Reply.lends]
    | dropMut guard =>
        obtain ⟨originalStructure, data⟩ := guard
        cases data with
        | none => simp [enter, MutCowData.drop, unwrap]
        | some data =>
            by_cases hslot : originalStructure = slot <;>
              simp [enter, MutCowData.drop, unwrap, mayAt, roleAfter, Call.drops, Reply.lends, hslot]
  body := by
    rintro call ⟨⟩

/-! ### The lock and the guard -/

/-- Where the lock or the guard of the slot is: there is none, some thread is to give it back or has
left it taken, or it is inside of a call. -/
inductive Place (ι : Type) where
  | nowhere
  | out
  | inside (t : ι)

/-- The thread that has a role of the kind, if there is one, is the one the place is inside of. -/
def InPlace (p : Role → Bool) (ghost : ι → Role) (place : Place ι) : Prop :=
  ∀ t, p (ghost t) = true → place = .inside t

theorem InPlace.update [DecidableEq ι] {p : Role → Bool} {ghost : ι → Role} {place place' : Place ι}
    {t : ι} {g : Role} (hplace : InPlace p ghost place) (hnew : p g = true → place' = .inside t)
    (hrest : ∀ u, u ≠ t → place = .inside u → place' = .inside u) :
    InPlace p (Function.update ghost t g) place' := by
  intro u hu
  by_cases hut : u = t
  · subst hut
    rw [Function.update_self] at hu
    exact hnew hu
  · rw [Function.update_of_ne hut] at hu
    exact hrest u hut (hplace u hu)

/-- A guard that has been read keeps the lock out, and the slot holds what it has read. -/
structure Held (slot : Slot) (heap : Heap α) (ghost : ι → Role) (seen : Watch α)
    (lock guard : Place ι) : Prop where
  locked : lock ≠ .nowhere → heap.mutLock slot = true
  holder : InPlace Role.holds ghost lock
  owner : InPlace Role.owns ghost guard
  lent : seen.lent = true → guard = .out
  read : ∀ content, seen.read = some content →
    lock = .out ∧ guard ≠ .nowhere ∧ heap.inner slot = content
  unread : seen.read = none → guard = .nowhere

namespace Held

variable {slot : Slot} {heap after : Heap α} {ghost : ι → Role} {seen : Watch α}
  {lock guard : Place ι} {t : ι}

theorem start (heap : Heap α) :
    Held slot heap (fun _ : ι => Role.outside) { read := none, lent := false } .nowhere .nowhere where
  locked hlock := absurd rfl hlock
  holder t ht := by cases ht
  owner t ht := by cases ht
  lent hlent := by cases hlent
  read content hread := by cases hread
  unread _ := rfl

/-- While a thread has the lock, no guard is live. -/
theorem unread_of_holder (hheld : Held slot heap ghost seen lock guard) (ht : ghost t = .holder) :
    seen.read = none := by
  cases hread : seen.read with
  | none => rfl
  | some content =>
      have hout := (hheld.read content hread).1
      rw [hheld.holder t (by rw [ht]; rfl)] at hout
      cases hout

/-- What the invariant needs of a step that neither takes nor gives anything back. -/
theorem frame (hheld : Held slot heap ghost seen lock guard)
    (hlocked : heap.mutLock slot = true → after.mutLock slot = true)
    (hinner : ∀ content, seen.read = some content → after.inner slot = heap.inner slot) :
    Held slot after ghost seen lock guard where
  locked hlock := hlocked (hheld.locked hlock)
  holder := hheld.holder
  owner := hheld.owner
  lent := hheld.lent
  read content hread := by
    obtain ⟨hlock, hguard, hcontent⟩ := hheld.read content hread
    exact ⟨hlock, hguard, (hinner content hread).trans hcontent⟩
  unread := hheld.unread

variable [DecidableEq ι]

theorem take (hheld : Held slot heap ghost seen lock guard) (hfree : heap.mutLock slot = false) :
    Held slot (heap.setMutLock slot true) (Function.update ghost t .holder) seen (.inside t)
      guard := by
  have hnowhere : lock = .nowhere := by
    by_contra hlock
    rw [hheld.locked hlock] at hfree
    cases hfree
  constructor
  · simp
  · exact hheld.holder.update (fun _ => rfl) (by simp [hnowhere])
  · exact hheld.owner.update (by simp [Role.owns]) fun _ _ hu => hu
  · exact hheld.lent
  · intro content hread
    rw [(hheld.read content hread).1] at hnowhere
    cases hnowhere
  · exact hheld.unread

theorem giveBack (hheld : Held slot heap ghost seen lock guard) (ht : ghost t = .holder) :
    Held slot (heap.setMutLock slot false) (Function.update ghost t .outside) seen .nowhere
      guard := by
  have hlock := hheld.holder t (by rw [ht]; rfl)
  have hunread := hheld.unread_of_holder ht
  constructor
  · exact fun hnowhere => absurd rfl hnowhere
  · exact hheld.holder.update (by simp [Role.holds]) (by simp +contextual [hlock, eq_comm])
  · exact hheld.owner.update (by simp [Role.owns]) fun _ _ hu => hu
  · exact hheld.lent
  · intro content hread
    rw [hunread] at hread
    cases hread
  · exact hheld.unread

/-- The load in `get_mut`: the lock is left taken. -/
theorem load (hheld : Held slot heap ghost seen lock guard) (ht : ghost t = .holder) :
    Held slot heap (Function.update ghost t .lender) { seen with read := some (heap.inner slot) }
      .out (.inside t) := by
  have hlock := hheld.holder t (by rw [ht]; rfl)
  have hguard := hheld.unread (hheld.unread_of_holder ht)
  constructor
  · intro _
    exact hheld.locked (by simp [hlock])
  · exact hheld.holder.update (by simp [Role.holds]) (by simp +contextual [hlock, eq_comm])
  · exact hheld.owner.update (fun _ => rfl) (by simp [hguard])
  · intro hlent
    rw [hheld.lent hlent] at hguard
    cases hguard
  · intro content hread
    exact ⟨rfl, by simp, Option.some.inj hread⟩
  · intro hread
    cases hread

/-- The store of the drop. -/
theorem write (hheld : Held slot heap ghost seen lock guard) (ht : ghost t = .dropper)
    (content : Option α) :
    Held slot (heap.setInner slot content) (Function.update ghost t .outside)
      { seen with read := none } lock .nowhere := by
  have hguard := hheld.owner t (by rw [ht]; rfl)
  constructor
  · exact hheld.locked
  · exact hheld.holder.update (by simp [Role.holds]) fun _ _ hu => hu
  · exact hheld.owner.update (by simp [Role.owns]) (by simp +contextual [hguard, eq_comm])
  · intro hlent
    rw [hheld.lent hlent] at hguard
    cases hguard
  · intro content hread
    cases hread
  · exact fun _ => rfl

/-- The guard is returned. -/
theorem lend (hheld : Held slot heap ghost seen lock guard) (ht : ghost t = .lender) :
    Held slot heap (Function.update ghost t .outside) { seen with lent := true } lock .out := by
  have hguard := hheld.owner t (by rw [ht]; rfl)
  constructor
  · exact hheld.locked
  · exact hheld.holder.update (by simp [Role.holds]) fun _ _ hu => hu
  · exact hheld.owner.update (by simp [Role.owns]) (by simp +contextual [hguard, eq_comm])
  · exact fun _ => rfl
  · intro content hread
    obtain ⟨hlock, -, hcontent⟩ := hheld.read content hread
    exact ⟨hlock, by simp, hcontent⟩
  · intro hread
    rw [hheld.unread hread] at hguard
    cases hguard

/-- A thread begins to drop the guard. -/
theorem drop (hheld : Held slot heap ghost seen lock guard) (hlent : seen.lent = true) :
    Held slot heap (Function.update ghost t .dropper) { seen with lent := false } lock
      (.inside t) := by
  have hguard := hheld.lent hlent
  constructor
  · exact hheld.locked
  · exact hheld.holder.update (by simp [Role.holds]) fun _ _ hu => hu
  · exact hheld.owner.update (fun _ => rfl) (by simp [hguard])
  · intro hfalse
    cases hfalse
  · intro content hread
    obtain ⟨hlock, -, hcontent⟩ := hheld.read content hread
    exact ⟨hlock, by simp, hcontent⟩
  · intro hread
    rw [hheld.unread hread] at hguard
    cases hguard

theorem same (hheld : Held slot heap ghost seen lock guard) {g : Role} (ht : ghost t = g) :
    Held slot heap (Function.update ghost t g) seen lock guard := by
  rwa [← ht, Function.update_eq_self]

end Held

section Step

variable {slot : Slot} {config : Config (object α) ι} {seen : Watch α} {t : ι} {call : Call α}
  {instr : Instr α} {next : instr.Answer → Prog (sig α) (Outcome α)}

theorem watch_at (hat : config.At t call instr next) :
    watch slot config (.tick t) seen = Watch.after slot config.state call instr seen := by
  rw [watch, show config.thread t = _ from hat]

theorem watch_ret {result : Reply α} (hthread : config.thread t = .busy call (reply result)) :
    watch slot config (.tick t) seen =
      if result.lends slot then { seen with lent := true } else seen := by
  rw [watch, hthread]

/-- Who writes in the slot without having the lock keeps off its guard. -/
theorem Held.unread_of_swap {other : Slot} {content : Option α} {ghost : ι → Role} {lock guard : Place ι}
    (hheld : Held slot config.state ghost seen lock guard)
    {next : Option α → Prog (sig α) (Outcome α)}
    (hat : config.At t call (.swap other content) next)
    (hmay : mayAt slot call (ghost t) (.swap other content))
    (hcond : MeetsNoGuard slot (config, seen) t) (hslot : other = slot) : seen.read = none := by
  rw [MeetsNoGuard, show config.thread t = _ from hat] at hcond
  cases call with
  | swap self from' => exact hcond hslot
  | _ => exact hheld.unread_of_holder (hmay hslot)

theorem Held.unread_of_store {other : Slot} {content : Option α} {ghost : ι → Role} {lock guard : Place ι}
    (hheld : Held slot config.state ghost seen lock guard)
    {next : Unit → Prog (sig α) (Outcome α)}
    (hat : config.At t call (.store other content) next)
    (hmay : mayAt slot call (ghost t) (.store other content))
    (hcond : MeetsNoGuard slot (config, seen) t) (hdrops : call.drops slot = false)
    (hslot : other = slot) : seen.read = none := by
  rw [MeetsNoGuard, show config.thread t = _ from hat] at hcond
  cases call with
  | bumpIntoNull self nullCow data => exact hcond hslot
  | dropMut _ =>
      rw [(hmay hslot).1] at hdrops
      cases hdrops
  | _ => exact hheld.unread_of_holder (hmay hslot)

variable [DecidableEq ι]

theorem Held.answered {ghost : ι → Role} {lock guard : Place ι}
    (hheld : Held slot config.state ghost seen lock guard) (hat : config.At t call instr next)
    (hmay : mayAt slot call (ghost t) instr) (hcond : MeetsNoGuard slot (config, seen) t)
    {after : Heap α} {answer : instr.Answer}
    (hexec : exec instr config.state = (after, some answer)) :
    ∃ lock' guard', Held slot after (Function.update ghost t (roleAfter slot call (ghost t) instr))
      (Watch.after slot config.state call instr seen) lock' guard' := by
  have hstate : (exec instr config.state).1 = after := congrArg Prod.fst hexec
  subst hstate
  match instr with
  | .awaitImm _ | .load _ => exact ⟨lock, guard, hheld.same rfl⟩
  | .acquireImm _ | .releaseImm _ =>
      refine ⟨lock, guard, (hheld.same rfl).frame ?_ ?_⟩
      · exact id
      · exact fun _ _ => rfl
  | .alloc _ => exact absurd hmay id
  | .acquireMut other =>
      by_cases hslot : other = slot
      · subst hslot
        refine ⟨.inside t, guard, ?_⟩
        rw [roleAfter, if_pos rfl]
        refine hheld.take ?_
        cases hfree : config.state.mutLock other with
        | false => rfl
        | true => simp [exec, hfree] at hexec
      · refine ⟨lock, guard, (hheld.same ?_).frame ?_ fun _ _ => rfl⟩
        · rw [roleAfter, if_neg hslot]
        · intro hlocked
          simpa [exec, Function.update_of_ne (Ne.symm hslot)] using hlocked
  | .releaseMut other =>
      by_cases hslot : other = slot
      · subst hslot
        refine ⟨.nowhere, guard, ?_⟩
        rw [roleAfter, if_pos rfl]
        exact hheld.giveBack (hmay rfl)
      · refine ⟨lock, guard, (hheld.same ?_).frame ?_ fun _ _ => rfl⟩
        · rw [roleAfter, if_neg hslot]
        · intro hlocked
          simpa [exec, Function.update_of_ne (Ne.symm hslot)] using hlocked
  | .loadFull other =>
      by_cases hmut : call.getsMut = true ∧ other = slot
      · refine ⟨.out, .inside t, ?_⟩
        rw [roleAfter, Watch.after, if_pos hmut, if_pos hmut]
        exact hheld.load (hmay hmut.1 hmut.2)
      · refine ⟨lock, guard, ?_⟩
        rw [roleAfter, Watch.after, if_neg hmut, if_neg hmut]
        exact hheld.same rfl
  | .store other content =>
      by_cases hdrops : call.drops slot = true ∧ other = slot
      · refine ⟨lock, .nowhere, ?_⟩
        obtain ⟨hcall, rfl⟩ := hdrops
        rw [roleAfter, Watch.after, if_pos ⟨hcall, rfl⟩, if_pos ⟨hcall, rfl⟩]
        refine hheld.write ?_ content
        cases call with
        | dropMut _ => exact (hmay rfl).2
        | _ => cases hcall
      · refine ⟨lock, guard, ?_⟩
        rw [roleAfter, Watch.after, if_neg hdrops, if_neg hdrops]
        refine (hheld.same rfl).frame id ?_
        intro read hread
        refine Function.update_of_ne ?_ ..
        rintro rfl
        have hcall : call.drops slot = false := by
          by_contra hcall
          exact hdrops ⟨Bool.eq_true_of_not_eq_false hcall, rfl⟩
        rw [hheld.unread_of_store hat hmay hcond hcall rfl] at hread
        cases hread
  | .swap other content =>
      refine ⟨lock, guard, (hheld.same rfl).frame id ?_⟩
      intro read hread
      refine Function.update_of_ne ?_ ..
      rintro rfl
      rw [hheld.unread_of_swap hat hmay hcond rfl] at hread
      cases hread

omit [DecidableEq ι] in
/-- An access that has to be retried. -/
theorem Held.retried {ghost : ι → Role} {lock guard : Place ι}
    (hheld : Held slot config.state ghost seen lock guard) {after : Heap α}
    (hexec : exec instr config.state = (after, none)) :
    Held slot after ghost (Watch.after slot config.state call instr seen) lock guard := by
  have hstate : (exec instr config.state).1 = after := congrArg Prod.fst hexec
  subst hstate
  match instr with
  | .awaitImm _ | .acquireImm _ => exact hheld.frame id fun _ _ => rfl
  | .acquireMut other =>
      refine hheld.frame ?_ fun _ _ => rfl
      intro hlocked
      change Function.update config.state.mutLock other true slot = true
      rw [Function.update_apply, hlocked, ite_self]

end Step

def Guards (slot : Slot) (heap : Heap α) (ghost : ι → Role) (seen : Watch α)
    (_ : List (Event ι (Call α) (Reply α))) : Prop :=
  ∃ lock guard, Held slot heap ghost seen lock guard

theorem guarding_keeps [DecidableEq ι] (slot : Slot) :
    (guarding (α := α) slot).KeepsBeside (watch slot)
      (fun before (action : Action (object α) ι) =>
        Wellformed slot before action ∧ KeepsOff slot before action) (Guards slot) where
  invoke := by
    rintro config ghost seen t call ⟨lock, guard, hheld⟩ ⟨⟨hprotects, hlent⟩, -⟩ hrest
    refine ⟨if call.drops slot then .dropper else .outside, ⟨hprotects, rfl⟩, ?_⟩
    cases hdrops : call.drops slot with
    | true =>
        refine ⟨lock, .inside t, ?_⟩
        rw [watch, hdrops, if_pos rfl, if_pos rfl]
        exact hheld.drop (hlent hdrops)
    | false =>
        refine ⟨lock, guard, ?_⟩
        rw [watch, hdrops, if_neg Bool.false_ne_true, if_neg Bool.false_ne_true]
        exact hheld.same hrest
  respond := by
    rintro config ghost seen t call result ⟨lock, guard, hheld⟩ hthread - hfinish
    rw [guarding_finish] at hfinish
    rw [watch_ret hthread]
    cases hlends : result.lends slot with
    | true =>
        refine ⟨lock, .out, ?_⟩
        rw [hlends, if_pos rfl] at hfinish
        rw [if_pos rfl]
        exact hheld.lend hfinish
    | false =>
        refine ⟨lock, guard, ?_⟩
        rw [hlends, if_neg Bool.false_ne_true] at hfinish
        rw [if_neg Bool.false_ne_true]
        exact hheld.same hfinish
  jump := by
    rintro config ghost seen t call ⟨⟩
  answered := by
    rintro config ghost seen t call instr next state answer ⟨lock, guard, hheld⟩ hat ⟨-, hcond⟩ hmay
      hexec
    rw [watch_at hat]
    exact ⟨_, rfl, hheld.answered hat hmay hcond hexec⟩
  retried := by
    rintro config ghost seen t call instr next state ⟨lock, guard, hheld⟩ hat - - hexec
    rw [watch_at hat]
    exact ⟨lock, guard, hheld.retried hexec⟩

/-- **No lost updates.** In every run in which nobody writes in a `CowData` without the lock while a
guard of it is live, it holds what the guard has read until the guard stores in it. -/
theorem guard_overwrites_what_it_read [DecidableEq ι] (slot : Slot) {heap : Heap α}
    {config : Config (object α) ι} {seen : Watch α}
    (hreach : (((object α).threads ι).monitored (watch slot)).Reach
      (fun before action => Wellformed slot before action ∧ KeepsOff slot before action)
      (.initial heap, { read := none, lent := false }) (config, seen)) :
    (∀ content, seen.read = some content → config.state.inner slot = content) ∧
    ∀ t guard content next, config.At t (.dropMut guard) (.store slot content) next →
      seen.read = some (config.state.inner slot) := by
  obtain ⟨ghost, hfollows, lock, guard, hheld⟩ := Protocol.beside_invariant (guarding_sound slot)
    (guarding_keeps slot) ⟨.nowhere, .nowhere, .start heap⟩ hreach
  refine ⟨fun content hread => (hheld.read content hread).2.2, ?_⟩
  intro t dropped content next hat
  have ht := hfollows t
  rw [hat] at ht
  have hguard := hheld.owner t (by rw [(ht.1 rfl).2]; rfl)
  cases hread : seen.read with
  | none =>
      rw [hheld.unread hread] at hguard
      cases hguard
  | some read => rw [(hheld.read read hread).2.2]

theorem guard_overwrites_what_it_read_set :
    ∃ config : Config (object ℕ) Bool, config.instr? true = some (.acquireMut 0) ∧
      config.instr? false = some (.store 0 (some 7)) ∧ config.state.inner 0 = some 0 := by
  obtain ⟨config, seen, hrun, hset, hdrop, hread⟩ : ∃ config seen,
      (((object ℕ).threads Bool).monitored (watch 0)).runIf
        (fun before action => Wellformed 0 before action ∧ KeepsOff 0 before action)
        (.initial (Heap.empty.alloc (some 0)), { read := none, lent := false })
        (.invoke false (.getMut ⟨0, true⟩) :: List.replicate 5 (.tick false) ++
          [.invoke true (.set ⟨0, true⟩ 1), .tick true, .invoke false (.dropMut ⟨0, some 7⟩)]) =
          some (config, seen) ∧
      config.instr? true = some (.acquireMut 0) ∧ config.instr? false = some (.store 0 (some 7)) ∧
      seen.read = some (some 0) := ⟨_, _, rfl, rfl, rfl, rfl⟩
  refine ⟨config, hset, hdrop, ?_⟩
  exact (guard_overwrites_what_it_read 0 (System.reach_of_runIf _ hrun)).1 _ hread

/-- A thread gets a guard, another one swaps, and the first one drops the guard. -/
def swapsBelowGuard : List (Action (object ℕ) Bool) :=
  .invoke false (.getMut ⟨0, true⟩) :: List.replicate 5 (.tick false) ++
    .invoke true (.swap ⟨0, true⟩ ⟨1, true⟩) :: List.replicate 10 (.tick true) ++
    [.invoke false (.dropMut ⟨0, some 7⟩)]

theorem guard_overwrites_what_it_read_fails :
    ¬ ∀ (config : Config (object ℕ) Bool) (seen : Watch ℕ),
      (((object ℕ).threads Bool).monitored (watch 0)).Reach (Wellformed 0)
        (.initial ((Heap.empty.alloc (some 0)).alloc (some 1)), { read := none, lent := false })
        (config, seen) →
      (∀ content, seen.read = some content → config.state.inner 0 = content) ∧
      ∀ t guard content next, config.At t (.dropMut guard) (.store 0 content) next →
        seen.read = some (config.state.inner 0) := by
  intro hclaim
  obtain ⟨config, seen, hrun, hread, hinner⟩ : ∃ config seen,
      (((object ℕ).threads Bool).monitored (watch 0)).runIf (Wellformed 0)
        (.initial ((Heap.empty.alloc (some 0)).alloc (some 1)), { read := none, lent := false })
        swapsBelowGuard = some (config, seen) ∧
      seen.read = some (some 0) ∧ config.state.inner 0 = some 1 := ⟨_, _, rfl, rfl, rfl⟩
  have hsame := (hclaim config seen (System.reach_of_runIf _ hrun)).1 _ hread
  rw [hinner] at hsame
  cases hsame

end Mutual.CowData.Guarded
