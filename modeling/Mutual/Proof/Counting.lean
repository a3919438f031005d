import Mathlib.Algebra.BigOperators.Group.Finset.Basic
import Mathlib.Algebra.Order.Group.Multiset
import Mathlib.Data.Fintype.Basic
import Mutual.Proof.Insertion

/-!
# The length counter

A push counts its element after the element has become visible and the lock of `head` is free again,
and a removal discounts what it takes at once. So a removal may discount an element that has not
been counted yet, and the counter wraps. It may also happen that two removals take the same element.
The counter stays below the number of pushes as long as every element a removal discounts has been
counted before, and by no removal discounted.
-/

namespace Mutual.SharedList

open Concurrency

variable {T : Type} {ι : Type}

/-- What a thread has done to the counter: the elements it has counted and discounted, the last
element it has read being the one a removal discounts. -/
structure Tally (T : Type) where
  last : Option T
  counted : Multiset T
  discounted : Multiset T

namespace Tally

def empty : Tally T :=
  { last := none
    counted := 0
    discounted := 0 }

def count (tally : Tally T) : Call T → Tally T
  | .push data => { tally with counted := data ::ₘ tally.counted }
  | _ => tally

def discount (tally : Tally T) : Tally T :=
  match tally.last with
  | some data => { tally with discounted := data ::ₘ tally.discounted }
  | none => tally

end Tally

def talliesAfter (list : SharedList T) (call : Call T) : Instr T → Tally T → Tally T
  | .cow (.loadFull slot), tally =>
      { tally with last := (list.heap.inner slot).map Node.data }
  | .fetchAddLen, tally => tally.count call
  | .fetchSubLen, tally => tally.discount
  | _, tally => tally

section Totals

variable [Fintype ι]

def counted (log : ι → Tally T) : Multiset T := ∑ t, (log t).counted

def discounted (log : ι → Tally T) : Multiset T := ∑ t, (log t).discounted

/-- The last element `t` has read has been counted, and not been discounted yet. -/
def Discountable (log : ι → Tally T) (t : ι) : Prop :=
  match (log t).last with
  | some data => data ::ₘ discounted log ≤ counted log
  | none => False

/-- If `t` is about to discount an element, it may. -/
def OnDiscount {orderFn : Option (T → T → Ordering)}
    (before : Config (object orderFn) ι × (ι → Tally T)) (t : ι) : Prop :=
  match before.1.instr? t with
  | some .fetchSubLen => Discountable before.2 t
  | _ => True

/-- Only counted elements are discounted. -/
def CountsFirst {orderFn : Option (T → T → Ordering)}
    (before : Config (object orderFn) ι × (ι → Tally T)) : Action (object orderFn) ι → Prop
  | .invoke _ _ => True
  | .tick t => OnDiscount before t

instance [DecidableEq T] (log : ι → Tally T) (t : ι) : Decidable (Discountable log t) := by
  unfold Discountable
  split <;> infer_instance

instance [DecidableEq T] {orderFn : Option (T → T → Ordering)}
    (before : Config (object orderFn) ι × (ι → Tally T)) (t : ι) :
    Decidable (OnDiscount before t) := by
  unfold OnDiscount
  split <;> infer_instance

instance [DecidableEq T] {orderFn : Option (T → T → Ordering)}
    (before : Config (object orderFn) ι × (ι → Tally T)) :
    ∀ action, Decidable (CountsFirst before action)
  | .invoke _ _ => .isTrue trivial
  | .tick t => inferInstanceAs (Decidable (OnDiscount before t))

end Totals

/-! ### What a thread still has to count -/

def Call.owes : Call T → Nat
  | push _ => 1
  | _ => 0

def Instr.Counts (call : Call T) (owed : Nat) : Instr T → Prop
  | .fetchAddLen => owed = 1 ∧ call.Pushes
  | _ => True

def Instr.owedAfter (owed : Nat) : Instr T → Nat
  | .fetchAddLen => 0
  | _ => owed

/-- A push that walks has not counted its element. -/
def Label.Owes (call : Call T) (owed : Nat) : Label T → Prop
  | .pushWalk _ _ _ => owed = 1 ∧ call.Pushes
  | _ => True

def counting (orderFn : Option (T → T → Ordering)) : Protocol (object orderFn) Nat where
  rest := 0
  start call owed := owed = call.owes
  may call owed instr := instr.Counts call owed
  move _ owed instr _ owed' := owed' = instr.owedAfter owed
  fail _ _ := True
  arrive call label owed := label.Owes call owed
  leave call label owed := label.Owes call owed
  finish _ _ _ := True

section Code

variable {orderFn : Option (T → T → Ordering)} {call : Call T} {owed : Nat}

@[simp] theorem counting_may {instr : Instr T} :
    (counting orderFn).may call owed instr ↔ instr.Counts call owed := Iff.rfl

@[simp] theorem counting_move {instr : Instr T} {answer : instr.Answer} {owed' : Nat} :
    (counting orderFn).move call owed instr answer owed' ↔ owed' = instr.owedAfter owed := Iff.rfl

@[simp] theorem counting_fail : (counting orderFn).fail call owed ↔ True := Iff.rfl

@[simp] theorem counting_finish {result : Reply T} :
    (counting orderFn).finish call result owed ↔ True := Iff.rfl

@[simp] theorem counting_arrive {label : Label T} :
    (counting orderFn).arrive call label owed ↔ label.Owes call owed := Iff.rfl

theorem counting_pushHead {data : T} (howed : owed = 1) (hpushes : call.Pushes) :
    (counting orderFn).Obeys call (pushHead data) owed := by
  simp only [pushHead, head, Prog.bind_eq, perform_bind, removeLock_bind, isNull_bind,
    Option.isNone_iff_eq_none, createLock_bind, Protocol.obeys_op, counting_may, Instr.Counts,
    counting_move, Instr.owedAfter, forall_eq, true_and, forall_const]
  intro content
  cases content <;> simp [Instr.Counts, Instr.owedAfter, howed, hpushes]

theorem counting_pushWalk {order : T → T → Ordering} {data : T} {current : Slot} (howed : owed = 1)
    (hpushes : call.Pushes) : (counting orderFn).Obeys call (pushWalk order data current) owed := by
  simp only [pushWalk, Prog.bind_eq, perform_bind, removeLock_bind, set_bind, Bool.and_eq_true,
    beq_iff_eq, getRef_bind, Option.isNone_iff_eq_none, isNull_bind, Protocol.obeys_op,
    counting_may, Instr.Counts, counting_move, Instr.owedAfter, forall_eq, true_and, forall_const]
  intro content
  cases content with
  | none => simp [Instr.Counts, Instr.owedAfter, howed, hpushes]
  | some node =>
      simp only [reduceCtorEq, ↓reduceIte, Protocol.obeys_op, counting_may, Instr.Counts,
        counting_move, Instr.owedAfter, forall_eq, true_and, forall_const]
      intro content
      cases content with
      | none => simp
      | some node =>
          simp only [reduceCtorEq, ↓reduceIte, Protocol.obeys_op, counting_may, Instr.Counts,
            counting_move, Instr.owedAfter, forall_eq, true_and]
          intro content
          cases content with
          | none => simp
          | some node =>
              cases horder : order node.data data <;>
                simp [horder, Instr.Counts, Instr.owedAfter, Label.Owes, howed, hpushes]

theorem counting_iterNext {current : Slot} {yield : Option (T × Slot) → Prog (sig T) (Outcome T)}
    (hyield : ∀ entry, (counting orderFn).Obeys call (yield entry) owed) :
    (counting orderFn).Obeys call (iterNext current yield) owed := by
  simp only [iterNext, Prog.bind_eq, getRef_bind, Option.isNone_iff_eq_none, isNull_bind,
    Protocol.obeys_op, counting_may, Instr.Counts, counting_move, Instr.owedAfter, forall_eq,
    true_and, forall_const]
  intro content
  cases content with
  | none => exact hyield none
  | some node =>
      simp only [reduceCtorEq, ↓reduceIte, Protocol.obeys_op, counting_may, Instr.Counts,
        counting_move, Instr.owedAfter, forall_eq, true_and, forall_const]
      intro content
      cases content with
      | none => simp
      | some node =>
          simp only [reduceCtorEq, ↓reduceIte, Protocol.obeys_op, counting_may, Instr.Counts,
            counting_move, Instr.owedAfter, forall_eq, true_and]
          intro content
          cases content with
          | none => simp
          | some node => exact hyield _

theorem counting_pop : (counting orderFn).Obeys call pop owed := by
  simp only [pop, head, Prog.bind_eq, removeLock_bind, perform_bind, getRef_bind,
    Option.isNone_iff_eq_none, isNull_bind, createLock_bind, Protocol.obeys_op, counting_may,
    Instr.Counts, counting_move, Instr.owedAfter, forall_eq, true_and, forall_const]
  intro content
  cases content with
  | none => simp [Instr.Counts, Instr.owedAfter]
  | some node =>
      simp only [reduceCtorEq, ↓reduceIte, Protocol.obeys_op, counting_may, Instr.Counts,
        counting_move, Instr.owedAfter, forall_eq, true_and, forall_const]
      intro content
      cases content with
      | none => simp
      | some node =>
          simp only [reduceCtorEq, ↓reduceIte, Protocol.obeys_op, counting_may, Instr.Counts,
            counting_move, Instr.owedAfter, forall_eq, true_and]
          intro content
          cases content <;> simp [Instr.Counts, Instr.owedAfter]

theorem counting_iterMutNext {current : Slot} :
    (counting orderFn).Obeys call (iterMutNext current) owed := by
  simp only [iterMutNext, Prog.bind_eq, getRef_bind, Option.isNone_iff_eq_none, getMut_bind,
    isNull_bind, Protocol.obeys_op, counting_may, Instr.Counts, counting_move, Instr.owedAfter,
    forall_eq, true_and, forall_const]
  intro content
  cases content with
  | none => simp
  | some node =>
      simp only [reduceCtorEq, ↓reduceIte, Protocol.obeys_op, counting_may, Instr.Counts,
        counting_move, Instr.owedAfter, forall_eq, true_and, forall_const]
      intro lent
      cases lent with
      | none => simp
      | some node =>
          simp only [reduceCtorEq, ↓reduceIte, Protocol.obeys_op, counting_may, Instr.Counts,
            counting_move, Instr.owedAfter, forall_eq, true_and, forall_const]
          intro data content
          cases content with
          | none => simp
          | some node =>
              simp only [reduceCtorEq, ↓reduceIte, Protocol.obeys_op, counting_may, Instr.Counts,
                counting_move, Instr.owedAfter, forall_eq, true_and]
              intro content
              cases content <;> simp

theorem counting_removeCountLoop {func : List T → T → Bool} {seen : List T} {current : Slot}
    {count : UInt32} {output : List T} :
    (counting orderFn).Obeys call (removeCountLoop func seen current count output) owed := by
  simp only [removeCountLoop, gt_iff_lt, Bool.and_eq_true, Bool.not_eq_eq_eq_not, Bool.not_true,
    decide_eq_true_eq, Prog.bind_eq, perform_bind, createLock_bind, removeLock_bind, getRef_bind,
    Option.isNone_iff_eq_none, isNull_bind, Option.isNone_eq_false_iff, Protocol.obeys_op,
    counting_may, Instr.Counts, counting_move, Instr.owedAfter, forall_eq, true_and, forall_const]
  intro content
  cases content with
  | none => simp [Instr.Counts, Instr.owedAfter]
  | some node =>
      by_cases hcount : 0 < count
      · simp only [Option.isSome_some, hcount, and_self, ↓reduceIte, Protocol.obeys_op,
          counting_may, Instr.Counts, counting_move, Instr.owedAfter, forall_eq, true_and,
          forall_const]
        intro content
        cases content with
        | none => simp
        | some node =>
            simp only [reduceCtorEq, ↓reduceIte, Protocol.obeys_op, counting_may, Instr.Counts,
              counting_move, Instr.owedAfter, forall_eq, true_and]
            intro content
            cases content with
            | none => simp
            | some node =>
                by_cases hfunc : func seen node.data = true
                · simp [hfunc, Instr.Counts, Instr.owedAfter, Label.Owes]
                · simp [hfunc, Instr.Counts, Instr.owedAfter, Label.Owes]
      · simp [hcount, Instr.Counts, Instr.owedAfter]

theorem counting_searchLoop {func : List T → T → Bool} {seen : List T} {current : Slot} :
    (counting orderFn).Obeys call (searchLoop func seen current) owed := by
  simp only [searchLoop, Prog.bind_eq, perform_bind, getRef_bind, Option.isNone_iff_eq_none,
    isNull_bind, Protocol.obeys_op, counting_may, Instr.Counts, counting_move, Instr.owedAfter,
    forall_eq, true_and, forall_const]
  intro content
  cases content with
  | none => simp
  | some node =>
      simp only [reduceCtorEq, ↓reduceIte, Protocol.obeys_op, counting_may, Instr.Counts,
        counting_move, Instr.owedAfter, forall_eq, true_and, forall_const]
      intro content
      cases content with
      | none => simp
      | some node =>
          simp only [reduceCtorEq, ↓reduceIte, Protocol.obeys_op, counting_may, Instr.Counts,
            counting_move, Instr.owedAfter, forall_eq, true_and]
          intro content
          cases content with
          | none => simp
          | some node =>
              by_cases hfunc : func seen node.data = true
              · simp [hfunc, Instr.Counts]
              · simp [hfunc, Instr.Counts, Instr.owedAfter, Label.Owes]

theorem counting_anyLoop {func : T → Bool} {current : Slot} :
    (counting orderFn).Obeys call (anyLoop func current) owed := by
  rw [anyLoop]
  apply counting_iterNext
  rintro (_ | ⟨data, next⟩)
  · trivial
  · by_cases hfunc : func data = true
    · simp [hfunc, Instr.Counts]
    · simp [hfunc, Instr.Counts, Label.Owes]

theorem counting_sound (orderFn : Option (T → T → Ordering)) : (counting orderFn).Sound where
  enter := by
    rintro call owed rfl
    cases call with
    | push data =>
        cases orderFn with
        | none => exact counting_pushHead rfl trivial
        | some order =>
            simp only [enter, push]
            simp only [head, Prog.bind_eq, createLock_bind, isNull_bind, Option.isNone_iff_eq_none,
              Protocol.obeys_op, counting_may, Instr.Counts, counting_move, Instr.owedAfter,
              forall_eq, true_and, forall_const]
            intro content
            cases content with
            | none => exact counting_pushHead rfl trivial
            | some node => simp [Instr.Counts, Instr.owedAfter, Label.Owes, Call.owes, Call.Pushes]
    | pop => exact counting_pop
    | iterNext current =>
        have hyield : ∀ entry, (counting orderFn).Obeys (.iterNext current)
            (reply (.yielded entry)) (Call.owes (T := T) (.iterNext current)) := fun _ => trivial
        exact counting_iterNext hyield
    | iterMutNext current => exact counting_iterMutNext
    | dropMut guard =>
        obtain ⟨slot, content⟩ := guard
        cases content with
        | none => trivial
        | some node => exact ⟨trivial, fun _ _ _ => trivial⟩
    | removeCount func count =>
        simp [enter, removeCount, head, Instr.Counts, Instr.owedAfter, Label.Owes]
    | setEnforceNoneq enforceNoneq => simp [enter, Instr.Counts]
    | len => simp [enter, Instr.Counts]
    | isEmpty => simp [enter, Instr.Counts]
    | search func => simp [enter, Label.Owes]
    | any func => simp [enter, Label.Owes]
  body := by
    intro call label owed howes
    cases label with
    | pushWalk order data current => exact counting_pushWalk howes.1 howes.2
    | removeCount func seen current count output => exact counting_removeCountLoop
    | search func seen current => exact counting_searchLoop
    | any func current => exact counting_anyLoop

end Code

/-! ### The counter and its true value -/

section Totals

variable [DecidableEq ι] [Fintype ι]

theorem counted_update (log : ι → Tally T) (t : ι) (tally : Tally T) :
    counted (Function.update log t tally) + (log t).counted = counted log + tally.counted :=
  sum_update Tally.counted log t tally

theorem discounted_update (log : ι → Tally T) (t : ι) (tally : Tally T) :
    discounted (Function.update log t tally) + (log t).discounted =
      discounted log + tally.discounted :=
  sum_update Tally.discounted log t tally

theorem counted_same {log : ι → Tally T} {t : ι} {tally : Tally T}
    (hsame : tally.counted = (log t).counted) :
    counted (Function.update log t tally) = counted log :=
  sum_update_of_eq Tally.counted log t hsame

theorem discounted_same {log : ι → Tally T} {t : ι} {tally : Tally T}
    (hsame : tally.discounted = (log t).discounted) :
    discounted (Function.update log t tally) = discounted log :=
  sum_update_of_eq Tally.discounted log t hsame

theorem counted_count (log : ι → Tally T) (t : ι) (data : T) :
    counted (Function.update log t ((log t).count (.push data))) = data ::ₘ counted log := by
  have hsum := counted_update log t ((log t).count (.push data))
  have hcount : ((log t).count (.push data)).counted = data ::ₘ (log t).counted := rfl
  rw [hcount, ← Multiset.singleton_add, ← add_assoc, add_comm (counted log)] at hsum
  exact add_right_cancel hsum

theorem discounted_discount {log : ι → Tally T} {t : ι} {data : T}
    (hlast : (log t).last = some data) :
    discounted (Function.update log t (log t).discount) = data ::ₘ discounted log := by
  have hsum := discounted_update log t (log t).discount
  have hdiscount : (log t).discount.discounted = data ::ₘ (log t).discounted := by
    rw [Tally.discount, hlast]
  rw [hdiscount, ← Multiset.singleton_add, ← add_assoc, add_comm (discounted log)] at hsum
  exact add_right_cancel hsum

theorem Tally.discount_counted (tally : Tally T) : tally.discount.counted = tally.counted := by
  unfold Tally.discount
  split <;> rfl

structure CountingWorld (list : SharedList T) (ghost : ι → Nat) (log : ι → Tally T)
    (history : List (Event ι (Call T) (Reply T))) : Prop where
  discounted_le : discounted log ≤ counted log
  len : list.len = UInt64.ofNat ((counted log).card - (discounted log).card)
  begun : (counted log).card + ∑ t, ghost t ≤ (pushed history).length

namespace CountingWorld

variable {list : SharedList T} {ghost : ι → Nat} {log : ι → Tally T}
  {history : List (Event ι (Call T) (Reply T))} {t : ι}

/-- The counter and the numbers of elements counted and discounted stay as they are. -/
theorem local_step (hw : CountingWorld list ghost log history) {list' : SharedList T} {tally : Tally T}
    (hlen : list'.len = list.len) (hcounted : tally.counted = (log t).counted)
    (hdiscounted : tally.discounted = (log t).discounted) :
    CountingWorld list' (Function.update ghost t (ghost t)) (Function.update log t tally)
      history := by
  rw [Function.update_eq_self]
  constructor
  · rw [counted_same hcounted, discounted_same hdiscounted]
    exact hw.discounted_le
  · rw [counted_same hcounted, discounted_same hdiscounted, hlen]
    exact hw.len
  · rw [counted_same hcounted]
    exact hw.begun

theorem invoke (hw : CountingWorld list ghost log history) (call : Call T) (hrest : ghost t = 0) :
    CountingWorld list (Function.update ghost t call.owes) log (history ++ [.invoke t call]) := by
  refine ⟨hw.discounted_le, hw.len, ?_⟩
  have hsum := sum_update (fun owed : Nat => owed) ghost t call.owes
  have hpushed : (pushed (history ++ [.invoke t call])).length =
      (pushed history).length + call.owes := by
    cases call <;> simp [pushed, Call.owes]
  have hbegun := hw.begun
  simp only [hrest, add_zero] at hsum
  omega

theorem respond (hw : CountingWorld list ghost log history) (call : Call T) (result : Reply T) :
    CountingWorld list (Function.update ghost t 0) log (history ++ [.respond t call result]) := by
  refine ⟨hw.discounted_le, hw.len, ?_⟩
  have hsum := sum_update (fun owed : Nat => owed) ghost t 0
  have hpushed : pushed (history ++ [.respond t call result]) = pushed history := by
    simp [pushed]
  have hbegun := hw.begun
  rw [hpushed]
  simp only [add_zero] at hsum
  omega

theorem count (hw : CountingWorld list ghost log history) (howed : ghost t = 1) (data : T) :
    CountingWorld { list with len := list.len + 1 } (Function.update ghost t 0)
      (Function.update log t ((log t).count (.push data))) history := by
  have hcounted := counted_count log t data
  have hdiscounted : discounted (Function.update log t ((log t).count (.push data))) =
      discounted log := discounted_same rfl
  have hcard : (data ::ₘ counted log).card = (counted log).card + 1 := Multiset.card_cons ..
  have hle := Multiset.card_le_card hw.discounted_le
  have hsum := sum_update (fun owed : Nat => owed) ghost t 0
  have hbegun := hw.begun
  constructor
  · rw [hcounted, hdiscounted]
    exact hw.discounted_le.trans (Multiset.le_cons_self _ _)
  · rw [hcounted, hdiscounted, hcard, Nat.sub_add_comm hle, UInt64.ofNat_add]
    exact congrArg (· + 1) hw.len
  · rw [hcounted, hcard]
    simp only [howed, add_zero] at hsum
    omega

theorem discount (hw : CountingWorld list ghost log history) (hclean : Discountable log t) :
    CountingWorld { list with len := list.len - 1 } (Function.update ghost t (ghost t))
      (Function.update log t (log t).discount) history := by
  unfold Discountable at hclean
  split at hclean
  · rename_i data hlast
    have hcounted : counted (Function.update log t (log t).discount) = counted log :=
      counted_same (log t).discount_counted
    have hdiscounted := discounted_discount hlast
    have hcard : (data ::ₘ discounted log).card = (discounted log).card + 1 :=
      Multiset.card_cons ..
    have hle := Multiset.card_le_card hclean
    rw [hcard] at hle
    rw [Function.update_eq_self]
    constructor
    · rw [hcounted, hdiscounted]
      exact hclean
    · have hsplit : (counted log).card - (discounted log).card =
          (counted log).card - ((discounted log).card + 1) + 1 := by omega
      have hlen := hw.len
      rw [hsplit, UInt64.ofNat_add] at hlen
      rw [hcounted, hdiscounted, hcard]
      change list.len - 1 = _
      rw [hlen]
      exact UInt64.add_sub_cancel _ _
    · rw [hcounted]
      exact hw.begun
  · exact hclean.elim

end CountingWorld

theorem counting_keeps (orderFn : Option (T → T → Ordering)) :
    (counting orderFn).KeepsLog talliesAfter (CountsFirst (ι := ι)) CountingWorld where
  invoke := by
    intro config ghost log t call hw _ hrest
    exact ⟨_, rfl, hw.invoke call hrest⟩
  respond := by
    intro config ghost log t call result hw _ _ _
    exact hw.respond call result
  jump := by
    intro config ghost log t call label hw _ _ howes
    refine ⟨ghost t, howes, ?_⟩
    rw [Function.update_eq_self]
    exact hw
  answered := by
    intro config ghost log t call instr next state answer hw hat hcond hmay hexec
    match instr, hmay with
    | .cow instr, _ =>
        have hlen : state.len = config.state.len := by
          rw [← show (exec (.cow instr) config.state).1 = state from congrArg Prod.fst hexec]
          rfl
        refine ⟨ghost t, rfl, hw.local_step hlen ?_ ?_⟩
        · cases instr <;> rfl
        · cases instr <;> rfl
    | .loadNoneq, _ | .storeNoneq _, _ | .loadLen, _ | .callback, _ =>
        cases hexec
        exact ⟨ghost t, rfl, hw.local_step rfl rfl rfl⟩
    | .fetchAddLen, ⟨howed, hpushes⟩ =>
        cases hexec
        cases call with
        | push data => exact ⟨0, rfl, hw.count howed data⟩
        | _ => exact hpushes.elim
    | .fetchSubLen, _ =>
        cases hexec
        have hclean : Discountable log t := by
          change OnDiscount (config, log) t at hcond
          rw [OnDiscount, hat.instr?_eq] at hcond
          exact hcond
        exact ⟨ghost t, rfl, hw.discount hclean⟩
  retried := by
    intro config ghost log t call instr next state hw _ _ _ hexec
    have hkept : ∀ {list : SharedList T}, list.len = config.state.len →
        CountingWorld list ghost (Function.update log t (log t)) config.history := by
      intro list hlen
      have hlocal := hw.local_step (t := t) hlen rfl rfl
      rwa [Function.update_eq_self] at hlocal
    rcases retried_cases hexec with ⟨slot, rfl, rfl⟩ | ⟨slot, rfl, -, rfl⟩ | ⟨slot, rfl, -, rfl⟩
    · exact hkept rfl
    · exact hkept rfl
    · exact hkept rfl

/-- **The counter.** In a run in which only counted elements are discounted the counter is at most
the number of pushes begun, and it is not zero where it is about to be decreased, unless as many
pushes have begun as the counter has values. -/
theorem len_le_pushed {orderFn : Option (T → T → Ordering)} {config : Config (object orderFn) ι}
    {log : ι → Tally T}
    (hreach : (((object orderFn).threads ι).monitored (logging talliesAfter)).Reach CountsFirst
      (.initial new, fun _ => .empty) (config, log)) :
    config.state.len.toNat ≤ (pushed config.history).length ∧
      ∀ t, config.instr? t = some .fetchSubLen → CountsFirst (config, log) (.tick t) →
        (pushed config.history).length < 2 ^ 64 → config.state.len ≠ 0 := by
  have hstart : CountingWorld (new : SharedList T) (fun _ : ι => 0) (fun _ => .empty) [] := by
    constructor
    · simp [counted, discounted, Tally.empty]
    · simp [counted, discounted, Tally.empty, new]
    · simp [counted, Tally.empty]
  obtain ⟨ghost, -, hw⟩ :=
    Protocol.log_invariant (counting_sound orderFn) (counting_keeps orderFn) hstart hreach
  have hbegun := hw.begun
  have hlen : config.state.len.toNat =
      ((counted log).card - (discounted log).card) % 2 ^ 64 := by
    rw [hw.len, UInt64.toNat_ofNat']
  constructor
  · calc
      config.state.len.toNat = ((counted log).card - (discounted log).card) % 2 ^ 64 := hlen
      _ ≤ (counted log).card - (discounted log).card := Nat.mod_le _ _
      _ ≤ (pushed config.history).length := by omega
  · intro t hinstr hcond hbound hzero
    change OnDiscount (config, log) t at hcond
    rw [OnDiscount, hinstr] at hcond
    change Discountable log t at hcond
    unfold Discountable at hcond
    split at hcond
    · have hle := Multiset.card_le_card hcond
      rw [Multiset.card_cons] at hle
      rw [hzero, UInt64.toNat_zero] at hlen
      omega
    · exact hcond

end Totals

theorem len_le_pushed_push_pop :
    ∃ config : Config (object (some ascending)) Bool,
      config.instr? true = some .fetchSubLen ∧ pushed config.history = [1] ∧
      config.state.len.toNat ≤ (pushed config.history).length ∧ config.state.len ≠ 0 := by
  obtain ⟨config, log, hrun, hinstr, hpushed, hclean⟩ : ∃ config log,
      (((object (some ascending)).threads Bool).monitored (logging talliesAfter)).runIf
        CountsFirst (.initial new, fun _ => .empty)
        (.invoke false (.push 1) :: List.replicate 10 (.tick false) ++
          .invoke true .pop :: List.replicate 7 (.tick true)) = some (config, log) ∧
      config.instr? true = some .fetchSubLen ∧ pushed config.history = [1] ∧
      CountsFirst (config, log) (.tick true) :=
    ⟨_, _, rfl, rfl, rfl, by decide⟩
  obtain ⟨hle, hzero⟩ := len_le_pushed (System.reach_of_runIf _ hrun)
  refine ⟨config, hinstr, hpushed, hle, hzero true hinstr hclean ?_⟩
  rw [hpushed]
  decide

/-- A `pop` takes the element of a push that has not counted it. -/
def popBeforeCount : List (Action (object (some ascending)) Bool) :=
  .invoke false (.push 1) :: List.replicate 8 (.tick false) ++
    .invoke true .pop :: List.replicate 8 (.tick true)

theorem len_le_pushed_fails :
    ¬ ∀ config : Config (object (some ascending)) Bool,
      ((object (some ascending)).threads Bool).Reach (OnlyCalls Call.Writes) (.initial new) config →
      config.state.len.toNat ≤ (pushed config.history).length := by
  intro hclaim
  obtain ⟨config, hrun, hlen, hpushed⟩ : ∃ config,
      ((object (some ascending)).threads Bool).runIf (OnlyCalls Call.Writes) (.initial new)
        popBeforeCount = some config ∧
      config.state.len = 0xFFFFFFFFFFFFFFFF ∧ pushed config.history = [1] := ⟨_, rfl, rfl, rfl⟩
  have hle := hclaim config (System.reach_of_runIf _ hrun)
  rw [hlen, hpushed] at hle
  exact absurd hle (by decide)

end Mutual.SharedList
