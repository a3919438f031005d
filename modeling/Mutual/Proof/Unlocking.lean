import Mutual.Concurrency.Debts
import Mutual.Proof.Buckets

/-!
# Locks that are given back

Each call gives back every lock it takes: the lock of `head` that a push takes before it walks, the
locks a removal takes on its way, and the locks `set` takes. So all slots are unlocked when no call is
in progress, however the calls have interleaved.
-/

namespace Mutual.SharedList

open Concurrency

variable {T : Type}

inductive Lock where
  | mutLock (slot : Slot)
  | immLock (slot : Slot)

namespace Lock

def Raises : Lock → Instr T → Prop
  | mutLock slot, .cow (.acquireMut other) => other = slot
  | immLock slot, .cow (.acquireImm other) => other = slot
  | _, _ => False

def Lowers : Lock → Instr T → Prop
  | mutLock slot, .cow (.releaseMut other) => other = slot
  | immLock slot, .cow (.releaseImm other) => other = slot
  | _, _ => False

/-- The loops that go round with a lock. -/
def Owing : Lock → Label T → Prop
  | mutLock slot, .pushWalk _ _ current | mutLock slot, .removeCount _ _ current _ _ => current = slot
  | _, _ => False

/-- The lock is taken. -/
def Taken (list : SharedList T) : Lock → Prop
  | mutLock slot => list.heap.mutLock slot = true
  | immLock slot => list.heap.immLock slot = true

end Lock

def lockDebt (orderFn : Option (T → T → Ordering)) (lock : Lock) : Debt (object orderFn) where
  raises := lock.Raises
  lowers := lock.Lowers
  owing := lock.Owing

section Code

variable {orderFn : Option (T → T → Ordering)} {lock : Lock}

@[simp] theorem lockDebt_raises {instr : Instr T} :
    (lockDebt orderFn lock).raises instr ↔ lock.Raises instr := Iff.rfl

@[simp] theorem lockDebt_lowers {instr : Instr T} :
    (lockDebt orderFn lock).lowers instr ↔ lock.Lowers instr := Iff.rfl

@[simp] theorem lockDebt_owing {label : Label T} :
    (lockDebt orderFn lock).owing label ↔ lock.Owing label := Iff.rfl

theorem settles_pushHead (data : T) :
    (lockDebt orderFn lock).Settles (fun _ => True) (pushHead data) := by
  cases lock <;> simp +contextual [pushHead, head, Lock.Raises, Lock.Lowers]

theorem settles_pushWalk (order : T → T → Ordering) (data : T) (current : Slot) :
    (lockDebt orderFn lock).Settles (fun _ => True) (pushWalk order data current) := by
  cases lock <;> simp [pushWalk, Lock.Raises, Lock.Lowers, Option.forall]

theorem settles_removeCountLoop (func : List T → T → Bool) (seen : List T) (current : Slot)
    (count : UInt32) (output : List T) :
    (lockDebt orderFn lock).Settles (fun _ => True)
      (removeCountLoop func seen current count output) := by
  cases lock <;> simp [removeCountLoop, Lock.Raises, Lock.Owing, Option.forall]

theorem settles_searchLoop (func : List T → T → Bool) (seen : List T) (current : Slot) :
    (lockDebt orderFn lock).Settles (fun _ => True) (searchLoop func seen current) := by
  cases lock <;> simp [searchLoop, Lock.Raises, Option.forall]

theorem settles_anyLoop (func : T → Bool) (current : Slot) :
    (lockDebt orderFn lock).Settles (fun _ => True) (anyLoop func current) := by
  cases lock <;> simp [anyLoop, iterNext, Lock.Raises, Option.forall]

theorem owes_pushWalk (order : T → T → Ordering) (data : T) (current : Slot) :
    (lockDebt orderFn (.mutLock current)).Owes (pushWalk order data current) := by
  simp [pushWalk, Lock.Lowers, Option.forall]

theorem owes_removeCountLoop (func : List T → T → Bool) (seen : List T) (current : Slot)
    (count : UInt32) (output : List T) :
    (lockDebt orderFn (.mutLock current)).Owes
      (removeCountLoop func seen current count output) := by
  simp [removeCountLoop, Lock.Lowers, Lock.Owing, Option.forall]

/-- The calls a map makes to its buckets. -/
def Call.OfMap : Call T → Prop
  | .push _ | .removeCount _ _ | .search _ | .any _ => True
  | _ => False

theorem settles_enter {call : Call T} (hcall : call.OfMap) :
    (lockDebt orderFn lock).Settles (fun _ => True) (enter orderFn call) := by
  cases call with
  | push data =>
      cases orderFn with
      | none => exact settles_pushHead data
      | some order =>
          simp only [enter, push]
          cases lock with
          | mutLock slot =>
              simp only [head, Prog.bind_eq, createLock_bind, isNull_bind,
                Option.isNone_iff_eq_none, Debt.settles_op, lockDebt_raises, Lock.Raises,
                Debt.owes_op, lockDebt_lowers, Debt.owes_ite, Debt.owes_goto, lockDebt_owing,
                Lock.Owing, forall_const, Option.forall, not_true_eq_false, IsEmpty.forall_iff,
                and_true, reduceCtorEq, not_false_eq_true, true_and, Debt.settles_ite, imp_self,
                Debt.settles_goto, implies_true, and_self, forall_eq]
              exact settles_pushHead data
          | immLock slot =>
              simp only [head, Prog.bind_eq, createLock_bind, isNull_bind,
                Option.isNone_iff_eq_none, Debt.settles_op, lockDebt_raises, Lock.Raises,
                Debt.owes_op, lockDebt_lowers, Debt.owes_ite, Debt.owes_goto, lockDebt_owing,
                forall_const, Option.forall, not_true_eq_false, IsEmpty.forall_iff, and_true,
                reduceCtorEq, not_false_eq_true, true_and, Debt.settles_ite, Debt.settles_goto,
                implies_true, and_self, forall_eq]
              exact settles_pushHead data
  | removeCount func count =>
      cases lock <;> simp [enter, removeCount, head, Lock.Raises, Lock.Owing]
  | search func => trivial
  | any func => trivial
  | _ => exact hcall.elim

theorem settles_body (label : Label T) :
    (lockDebt orderFn lock).Settles (fun _ => True) (body label) := by
  cases label with
  | pushWalk order data current => exact settles_pushWalk order data current
  | removeCount func seen current count output =>
      exact settles_removeCountLoop func seen current count output
  | search func seen current => exact settles_searchLoop func seen current
  | any func current => exact settles_anyLoop func current

theorem owes_body {label : Label T} (howing : lock.Owing label) :
    (lockDebt orderFn lock).Owes (body label) := by
  cases lock with
  | mutLock slot =>
      cases label with
      | pushWalk order data current =>
          obtain rfl : current = slot := howing
          exact owes_pushWalk order data current
      | removeCount func seen current count output =>
          obtain rfl : current = slot := howing
          exact owes_removeCountLoop func seen current count output
      | _ => exact howing.elim
  | immLock slot => exact howing.elim

theorem lockDebt_governs (orderFn : Option (T → T → Ordering)) (lock : Lock) :
    (lockDebt orderFn lock).Governs fun list => lock.Taken list where
  raised instr list := by
    have hset : ∀ {flags : Slot → Bool} {other slot : Slot} {locked : Bool},
        Function.update flags other locked slot = true →
          flags slot = true ∨ locked = true ∧ other = slot := by
      intro flags other slot locked hlocked
      by_cases hslot : slot = other
      · subst hslot
        rw [Function.update_self] at hlocked
        exact .inr ⟨hlocked, rfl⟩
      · rw [Function.update_of_ne hslot] at hlocked
        exact .inl hlocked
    have hdown : ∀ {flags : Slot → Bool} {other slot : Slot},
        Function.update flags other false slot = true → flags slot = true := by
      intro flags other slot hlocked
      exact (hset hlocked).resolve_right fun hfalse => Bool.noConfusion hfalse.1
    cases lock with
    | mutLock slot =>
        match instr with
        | .cow (.acquireMut other) => exact fun hlocked => (hset hlocked).imp_right And.right
        | .cow (.releaseMut other) | .cow (.alloc content) => exact fun hlocked => .inl (hdown hlocked)
        | .cow (.awaitImm _) | .cow (.acquireImm _) | .cow (.releaseImm _) | .cow (.load _)
        | .cow (.loadFull _) | .cow (.store _ _) | .cow (.swap _ _) | .loadNoneq | .storeNoneq _
        | .fetchAddLen | .fetchSubLen | .loadLen | .callback => exact .inl
    | immLock slot =>
        match instr with
        | .cow (.acquireImm other) => exact fun hlocked => (hset hlocked).imp_right And.right
        | .cow (.releaseImm other) | .cow (.alloc content) => exact fun hlocked => .inl (hdown hlocked)
        | .cow (.awaitImm _) | .cow (.acquireMut _) | .cow (.releaseMut _) | .cow (.load _)
        | .cow (.loadFull _) | .cow (.store _ _) | .cow (.swap _ _) | .loadNoneq | .storeNoneq _
        | .fetchAddLen | .fetchSubLen | .loadLen | .callback => exact .inl
  lowered instr list hlowers := by
    have hfree : ∀ {flags : Slot → Bool} {slot : Slot},
        ¬ Function.update flags slot false slot = true := by
      intro flags slot
      rw [Function.update_self]
      exact Bool.false_ne_true
    cases lock with
    | mutLock slot =>
        match instr, hlowers with
        | .cow (.releaseMut other), hother =>
            obtain rfl : other = slot := hother
            exact hfree
    | immLock slot =>
        match instr, hlowers with
        | .cow (.releaseImm other), hother =>
            obtain rfl : other = slot := hother
            exact hfree

end Code

end Mutual.SharedList

namespace Mutual.SharedMap

open Concurrency SharedList

variable {K V : Type} [BEq K] {capacity : UInt64} {hashKey : K → UInt64} {ι : Type} [DecidableEq ι]

def OfMap : Label capacity K V → Prop
  | .call _ inner _ => inner.OfMap
  | .within _ _ _ => True

theorem settles_resume {D : Debt (object capacity V hashKey)} {bucket : Index capacity}
    (hcallback : ¬ D.raises (bucket, .callback)) (cont : Cont K V)
    (result : SharedList.Reply (Entry K V)) : D.Settles OfMap (resume bucket cont result) := by
  unfold resume
  split
  all_goals first | trivial | exact ⟨fun hraises => absurd hraises hcallback, fun _ => trivial⟩

theorem settles_bucketOf {D : Debt (object capacity V hashKey)} {hash : UInt64}
    {next : Index capacity → Code capacity K V} (hnext : ∀ bucket, D.Settles OfMap (next bucket)) :
    D.Settles OfMap (bucketOf hash next) := by
  unfold bucketOf
  split
  · trivial
  · exact hnext _

theorem settles_method (D : Debt (object capacity V hashKey)) (mapCall : Call K V) :
    D.Settles OfMap (enter hashKey mapCall) := by
  cases mapCall
  all_goals
    simp only [enter, insert, get, contains, remove, computeIfAbsent]
    exact settles_bucketOf fun _ => trivial

theorem lock_sound (bucket : Index capacity) (lock : Lock) :
    ((lockDebt (some orderFn) lock).part (composite capacity V hashKey) bucket).Sound OfMap where
  enter mapCall := settles_method _ mapCall
  body := by
    intro label hlabel
    have hcallback : ∀ place, ¬ ((lockDebt (some orderFn) lock).part (composite capacity V hashKey)
        bucket).raises (place, .callback) := by
      rintro place ⟨-, hraises⟩
      cases lock <;> exact hraises
    cases label with
    | call place inner cont =>
        exact (settles_enter hlabel).within (fun _ _ => trivial) (settles_resume (hcallback place) cont)
    | within place label cont =>
        exact (settles_body label).within (fun _ _ => trivial) (settles_resume (hcallback place) cont)
  owing := by
    intro label _ howing
    cases label with
    | call place inner cont => exact howing.elim
    | within place label cont =>
        obtain ⟨rfl, howing⟩ := howing
        exact (owes_body howing).within

/-- **No lock is left behind.** All slots of a map are unlocked when no call is in progress. -/
theorem unlocked_of_quiescent {config : Config (object capacity V hashKey) ι}
    {cond : Config (object capacity V hashKey) ι → Action (object capacity V hashKey) ι → Prop}
    (hreach : ((object capacity V hashKey).threads ι).Reach cond (.initial (withCapacity capacity))
      config) (hquiescent : config.Quiescent) (bucket : Index capacity) (lock : Lock) :
    ¬ lock.Taken (config.state bucket) := by
  have hfree : ¬ lock.Taken (newBucket : SharedList (Entry K V)) := by
    cases lock with
    | mutLock slot => simp [Lock.Taken, newBucket]
    | immLock slot => simp [Lock.Taken, newBucket]
  exact (Debt.held (lock_sound bucket lock) (lockDebt_governs _ lock).part hfree hreach).quiescent
    hquiescent

end Mutual.SharedMap
