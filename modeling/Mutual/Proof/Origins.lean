import Mutual.Concurrency.Provenance
import Mutual.SharedList

/-!
# Where the elements of a list come from

A list makes no elements up. Whatever calls any threads make and however they interleave, the
elements a list holds or hands out have been in it from the start, have been pushed, or have been
written through a guard; and what a search or a removal hands out meets its predicate.
-/

namespace Mutual.SharedList

open Concurrency

variable {T : Type}

def Bears (content : Option (Node T)) (x : T) : Prop := ∃ node, content = some node ∧ node.data = x

@[simp] theorem bears_none {x : T} : Bears none x ↔ False := by
  simp [Bears]

@[simp] theorem bears_some {node : Node T} {x : T} : Bears (some node) x ↔ node.data = x := by
  simp [Bears]

def Instr.Reads : (instr : Instr T) → instr.Answer → T → Prop
  | .cow (.load _), content, x => Bears content x
  | .cow (.loadFull _), content, x => Bears content x
  | .cow (.swap _ _), content, x => Bears content x
  | _, _, _ => False

def Instr.Writes : Instr T → T → Prop
  | .cow (.store _ content), x => Bears content x
  | .cow (.swap _ content), x => Bears content x
  | .cow (.alloc content), x => Bears content x
  | _, _ => False

theorem bears_update {inner : Slot → Option (Node T)} {slot other : Slot}
    {content : Option (Node T)} {x : T} (hbears : Bears (Function.update inner slot content other) x) :
    Bears (inner other) x ∨ Bears content x := by
  by_cases hother : other = slot
  · rw [hother, Function.update_self] at hbears
    exact .inr hbears
  · rw [Function.update_of_ne hother] at hbears
    exact .inl hbears

/-- The data of a list is in its slots, also in those that are not reached from `head` any more. -/
def flow (orderFn : Option (T → T → Ordering)) : Flow (object orderFn) T where
  holds list x := ∃ slot, Bears (list.heap.inner slot) x
  reads := Instr.Reads
  writes := Instr.Writes
  held_of_reads := by
    intro instr list after answer x hexec hreads
    have hanswer : (exec instr list).2 = some answer := congrArg Prod.snd hexec
    match instr with
    | .cow (.load slot) | .cow (.loadFull slot) | .cow (.swap slot _) =>
        cases Option.some.inj hanswer
        exact ⟨slot, hreads⟩
  held_before := by
    rintro instr list x ⟨other, hbears⟩
    match instr with
    | .cow (.store slot content) | .cow (.swap slot content) | .cow (.alloc content) =>
        exact (bears_update hbears).imp_left fun hold => ⟨other, hold⟩
    | .cow (.awaitImm _) | .cow (.acquireMut _) | .cow (.acquireImm _) | .cow (.releaseMut _)
    | .cow (.releaseImm _) | .cow (.load _) | .cow (.loadFull _) | .loadNoneq | .storeNoneq _
    | .fetchAddLen | .fetchSubLen | .loadLen | .callback =>
        exact .inl ⟨other, hbears⟩

/-- The elements a call brings. -/
def Call.Offers : Call T → T → Prop
  | .push data, x => data = x
  | .dropMut guard, x => Bears guard.data x
  | _, _ => False

def Label.Knows (known : T → Prop) (call : Call T) : Label T → Prop
  | .pushWalk _ data _ => call = .push data ∧ known data
  | .removeCount func _ _ _ output =>
      (∃ count, call = .removeCount func count) ∧
        ∀ x ∈ output, known x ∧ ∃ seen, func seen x = true
  | .search func seen _ => call = .search func ∧ ∀ x ∈ seen, known x
  | .any func _ => call = .any func

/-- What a reply of the list tells about the elements in it. -/
def Explains (known : T → Prop) : Call T → Reply T → Prop
  | .push _, .unit => True
  | .pop, .popped data => ∀ x ∈ data, known x
  | .removeCount func _, .removed output => ∀ x ∈ output, known x ∧ ∃ seen, func seen x = true
  | .setEnforceNoneq _, .unit => True
  | .len, .size _ => True
  | .isEmpty, .bool _ => True
  | .search func, .found entry =>
      ∀ found ∈ entry, known found.2 ∧ func found.1 found.2 = true ∧ ∀ x ∈ found.1, known x
  | .any func, .bool answer => answer = true → ∃ x, known x ∧ func x = true
  | .iterNext _, .yielded entry => ∀ yielded ∈ entry, known yielded.1
  | .iterMutNext _, .lent guard => ∀ lent ∈ guard, ∀ x, Bears lent.1.data x → known x
  | .dropMut _, .unit => True
  | _, _ => False

def tracing (orderFn : Option (T → T → Ordering)) : Tracing (object orderFn) T where
  toFlow := flow orderFn
  offers := Call.Offers
  carries known call label := label.Knows known call
  explains := Explains

section Code

variable {orderFn : Option (T → T → Ordering)} {known : T → Prop} {call : Call T} {g : Unit}

@[simp] theorem tracing_may {instr : Instr T} :
    ((tracing orderFn).protocol known).may call g instr ↔ ∀ x, instr.Writes x → known x := Iff.rfl

@[simp] theorem tracing_move {instr : Instr T} {answer : instr.Answer} {g' : Unit} :
    ((tracing orderFn).protocol known).move call g instr answer g' ↔
      ∀ x, instr.Reads answer x → known x := Iff.rfl

@[simp] theorem tracing_fail : ((tracing orderFn).protocol known).fail call g ↔ True := Iff.rfl

@[simp] theorem tracing_arrive {label : Label T} :
    ((tracing orderFn).protocol known).arrive call label g ↔ label.Knows known call := Iff.rfl

@[simp] theorem tracing_finish {result : Reply T} :
    ((tracing orderFn).protocol known).finish call result g ↔ Explains known call result := Iff.rfl

theorem tracing_pushHead {data : T} (hdata : known data) :
    ((tracing orderFn).protocol known).Obeys (.push data) (pushHead data) g := by
  simp only [pushHead, head, Prog.bind_eq, perform_bind, removeLock_bind, isNull_bind,
    Option.isNone_iff_eq_none, createLock_bind, Protocol.obeys_op, tracing_may, Instr.Writes,
    IsEmpty.forall_iff, implies_true, tracing_move, Instr.Reads, true_and, forall_const]
  intro content hcontent
  cases content with
  | none => simp [Instr.Writes, Instr.Reads, Explains, hdata]
  | some node =>
      simp [Instr.Writes, Instr.Reads, Explains, hdata]

theorem tracing_pushWalk {order : T → T → Ordering} {data : T} {current : Slot}
    (hdata : known data) :
    ((tracing orderFn).protocol known).Obeys (.push data) (pushWalk order data current) g := by
  simp only [pushWalk, Prog.bind_eq, perform_bind, removeLock_bind, set_bind, Bool.and_eq_true,
    beq_iff_eq, getRef_bind, Option.isNone_iff_eq_none, isNull_bind, Protocol.obeys_op, tracing_may,
    Instr.Writes, IsEmpty.forall_iff, implies_true, tracing_move, Instr.Reads, true_and,
    forall_const]
  intro content _
  cases content with
  | none => simp [Instr.Writes, Instr.Reads, Explains, hdata]
  | some node =>
      simp only [bears_some, forall_eq', reduceCtorEq, ↓reduceIte, Protocol.obeys_op, tracing_may,
        Instr.Writes, IsEmpty.forall_iff, implies_true, tracing_move, Instr.Reads, true_and,
        forall_const]
      intro _ content _ _
      cases content with
      | none => simp
      | some node =>
          simp only [reduceCtorEq, ↓reduceIte, Protocol.obeys_op, tracing_may, Instr.Writes,
            IsEmpty.forall_iff, implies_true, tracing_move, Instr.Reads, true_and]
          intro content _ _
          cases content with
          | none => simp
          | some node =>
              cases horder : order node.data data <;>
                simp [horder, Instr.Writes, Instr.Reads, Label.Knows, Explains, hdata]

theorem tracing_iterNext {current : Slot} {yield : Option (T × Slot) → Prog (sig T) (Outcome T)}
    (hyield : ∀ entry, (∀ yielded ∈ entry, known yielded.1) →
      ((tracing orderFn).protocol known).Obeys call (yield entry) g) :
    ((tracing orderFn).protocol known).Obeys call (iterNext current yield) g := by
  simp only [iterNext, Prog.bind_eq, getRef_bind, Option.isNone_iff_eq_none, isNull_bind,
    Protocol.obeys_op, tracing_may, Instr.Writes, IsEmpty.forall_iff, implies_true, tracing_move,
    Instr.Reads, true_and, forall_const]
  intro content _
  cases content with
  | none => simpa using hyield none
  | some node =>
      simp only [bears_some, forall_eq', reduceCtorEq, ↓reduceIte, Protocol.obeys_op, tracing_may,
        Instr.Writes, IsEmpty.forall_iff, implies_true, tracing_move, Instr.Reads, true_and,
        forall_const]
      intro _ content _ _
      cases content with
      | none => simp
      | some node =>
          simp only [reduceCtorEq, ↓reduceIte, Protocol.obeys_op, tracing_may, Instr.Writes,
            IsEmpty.forall_iff, implies_true, tracing_move, Instr.Reads, true_and]
          intro content _ hcontent
          cases content with
          | none => simp
          | some node => simpa using hyield (some (node.data, node.next)) (by simpa using hcontent)

theorem tracing_pop : ((tracing orderFn).protocol known).Obeys .pop pop g := by
  simp only [pop, head, Prog.bind_eq, removeLock_bind, perform_bind, getRef_bind,
    Option.isNone_iff_eq_none, isNull_bind, createLock_bind, Protocol.obeys_op, tracing_may,
    Instr.Writes, IsEmpty.forall_iff, implies_true, tracing_move, Instr.Reads, true_and,
    forall_const]
  intro content _
  cases content with
  | none => simp [Instr.Writes, Instr.Reads, Explains]
  | some node =>
      simp only [bears_some, forall_eq', reduceCtorEq, ↓reduceIte, Protocol.obeys_op, tracing_may,
        Instr.Writes, IsEmpty.forall_iff, implies_true, tracing_move, Instr.Reads, true_and,
        forall_const]
      intro _ content _ _
      cases content with
      | none => simp
      | some node =>
          simp only [reduceCtorEq, ↓reduceIte, Protocol.obeys_op, tracing_may, Instr.Writes,
            IsEmpty.forall_iff, implies_true, tracing_move, Instr.Reads, true_and]
          intro content _ hdata
          cases content with
          | none => simp
          | some node =>
              simp at hdata
              simp [Instr.Writes, Instr.Reads, Explains, hdata]

theorem tracing_iterMutNext {current start : Slot} :
    ((tracing orderFn).protocol known).Obeys (.iterMutNext start) (iterMutNext current) g := by
  simp only [iterMutNext, Prog.bind_eq, getRef_bind, Option.isNone_iff_eq_none, getMut_bind,
    isNull_bind, Protocol.obeys_op, tracing_may, Instr.Writes, IsEmpty.forall_iff, implies_true,
    tracing_move, Instr.Reads, true_and, forall_const]
  intro content _
  cases content with
  | none => simp [Explains]
  | some node =>
      simp only [bears_some, forall_eq', reduceCtorEq, ↓reduceIte, Protocol.obeys_op, tracing_may,
        Instr.Writes, IsEmpty.forall_iff, implies_true, tracing_move, Instr.Reads, true_and,
        forall_const]
      intro _ content _ _
      cases content with
      | none => simp
      | some node =>
          simp only [reduceCtorEq, ↓reduceIte, Protocol.obeys_op, tracing_may, Instr.Writes,
            IsEmpty.forall_iff, implies_true, tracing_move, Instr.Reads, true_and, forall_const]
          intro lent hlent content _ _
          cases content with
          | none => simp
          | some node =>
              simp only [reduceCtorEq, ↓reduceIte, Protocol.obeys_op, tracing_may, Instr.Writes,
                IsEmpty.forall_iff, implies_true, tracing_move, Instr.Reads, true_and]
              intro content _ _
              cases content with
              | none => simp
              | some node => simpa [Explains] using hlent

theorem tracing_removeCountLoop {func : List T → T → Bool} {seen : List T} {current : Slot}
    {total count : UInt32} {output : List T}
    (houtput : ∀ x ∈ output, known x ∧ ∃ seen, func seen x = true) :
    ((tracing orderFn).protocol known).Obeys (.removeCount func total)
      (removeCountLoop func seen current count output) g := by
  simp only [removeCountLoop, gt_iff_lt, Bool.and_eq_true, Bool.not_eq_eq_eq_not, Bool.not_true,
    decide_eq_true_eq, Prog.bind_eq, perform_bind, createLock_bind, removeLock_bind, getRef_bind,
    Option.isNone_iff_eq_none, isNull_bind, Option.isNone_eq_false_iff, Protocol.obeys_op,
    tracing_may, Instr.Writes, IsEmpty.forall_iff, implies_true, tracing_move, Instr.Reads,
    true_and, forall_const]
  intro content _
  cases content with
  | none => simpa [Instr.Writes, Instr.Reads, Explains] using houtput
  | some node =>
      by_cases hcount : 0 < count
      · simp only [bears_some, forall_eq', Option.isSome_some, hcount, and_self, ↓reduceIte,
          Protocol.obeys_op, tracing_may, Instr.Writes, IsEmpty.forall_iff, implies_true,
          tracing_move, Instr.Reads, true_and, forall_const]
        intro _ content _ _
        cases content with
        | none => simp
        | some node =>
            simp only [reduceCtorEq, ↓reduceIte, Protocol.obeys_op, tracing_may, Instr.Writes,
              IsEmpty.forall_iff, implies_true, tracing_move, Instr.Reads, true_and]
            intro content _ hdata
            cases content with
            | none => simp
            | some node =>
                simp only [bears_some, forall_eq'] at hdata
                by_cases hfunc : func seen node.data = true
                · simp only [unwrap_some_bind, hfunc, ↓reduceIte, Protocol.obeys_op, tracing_may,
                    Instr.Writes, IsEmpty.forall_iff, implies_true, tracing_move, Instr.Reads,
                    Protocol.obeys_goto, tracing_arrive, Label.Knows, Call.removeCount.injEq,
                    true_and, exists_eq', List.mem_append, List.mem_cons, List.not_mem_nil,
                    or_false, forall_const]
                  intro next hnext
                  refine ⟨hnext, ?_⟩
                  rintro x (hx | rfl)
                  · exact houtput x hx
                  · exact ⟨hdata, seen, hfunc⟩
                · simpa [hfunc, Instr.Writes, Instr.Reads, Label.Knows] using houtput
      · simp only [bears_some, forall_eq', Option.isSome_some, hcount, and_false, ↓reduceIte,
          Protocol.obeys_op, tracing_may, Instr.Writes, IsEmpty.forall_iff, implies_true,
          tracing_move, Instr.Reads, Protocol.obeys_reply, tracing_finish, Explains, forall_const,
          true_and]
        exact fun _ => houtput

theorem tracing_searchLoop {func : List T → T → Bool} {seen : List T} {current : Slot}
    (hseen : ∀ x ∈ seen, known x) :
    ((tracing orderFn).protocol known).Obeys (.search func) (searchLoop func seen current) g := by
  simp only [searchLoop, Prog.bind_eq, perform_bind, getRef_bind, Option.isNone_iff_eq_none,
    isNull_bind, Protocol.obeys_op, tracing_may, Instr.Writes, IsEmpty.forall_iff, implies_true,
    tracing_move, Instr.Reads, true_and, forall_const]
  intro content _
  cases content with
  | none => simp [Explains]
  | some node =>
      simp only [bears_some, forall_eq', reduceCtorEq, ↓reduceIte, Protocol.obeys_op, tracing_may,
        Instr.Writes, IsEmpty.forall_iff, implies_true, tracing_move, Instr.Reads, true_and,
        forall_const]
      intro _ content _ _
      cases content with
      | none => simp
      | some node =>
          simp only [reduceCtorEq, ↓reduceIte, Protocol.obeys_op, tracing_may, Instr.Writes,
            IsEmpty.forall_iff, implies_true, tracing_move, Instr.Reads, true_and]
          intro content _ hdata
          cases content with
          | none => simp
          | some node =>
              simp only [bears_some, forall_eq'] at hdata
              by_cases hfunc : func seen node.data = true
              · simpa [hfunc, Instr.Writes, Instr.Reads, Explains, hdata] using hseen
              · simp only [unwrap_some_bind, hfunc, Bool.false_eq_true, ↓reduceIte,
                  Protocol.obeys_op, tracing_may, Instr.Writes, IsEmpty.forall_iff, implies_true,
                  tracing_move, Instr.Reads, Protocol.obeys_goto, tracing_arrive, Label.Knows,
                  List.mem_append, List.mem_cons, List.not_mem_nil, or_false, true_and,
                  forall_const]
                rintro x (hx | rfl)
                · exact hseen x hx
                · exact hdata

theorem tracing_anyLoop {func : T → Bool} {current : Slot} :
    ((tracing orderFn).protocol known).Obeys (.any func) (anyLoop func current) g := by
  rw [anyLoop]
  apply tracing_iterNext
  rintro (_ | ⟨data, next⟩) hentry
  · simp [Explains]
  · have hdata : known data := hentry _ rfl
    by_cases hfunc : func data = true
    · simp only [hfunc, ↓reduceIte, Prog.bind_eq, perform_bind, Protocol.obeys_op, tracing_may,
        Instr.Writes, IsEmpty.forall_iff, implies_true, tracing_move, Protocol.obeys_reply,
        tracing_finish, Explains, forall_const, true_and]
      exact fun _ _ => ⟨data, hdata, hfunc⟩
    · simp [hfunc, Instr.Writes, Label.Knows]

theorem tracing_sound (orderFn : Option (T → T → Ordering)) (known : T → Prop) :
    ((tracing orderFn).protocol known).Sound where
  enter := by
    intro call g hoffers
    cases call with
    | push data =>
        have hdata : known data := hoffers data rfl
        cases orderFn with
        | none => exact tracing_pushHead hdata
        | some order =>
            simp only [enter, push]
            simp only [head, Prog.bind_eq, createLock_bind, isNull_bind, Option.isNone_iff_eq_none,
              Protocol.obeys_op, tracing_may, Instr.Writes, IsEmpty.forall_iff, implies_true,
              tracing_move, Instr.Reads, true_and, forall_const]
            intro content _
            cases content with
            | none => simpa using tracing_pushHead hdata
            | some node => simp [Instr.Writes, Instr.Reads, Label.Knows, hdata]
    | pop => exact tracing_pop
    | iterNext current =>
        have hyield : ∀ entry : Option (T × Slot), (∀ yielded ∈ entry, known yielded.1) →
            ((tracing orderFn).protocol known).Obeys (.iterNext current) (reply (.yielded entry)) g :=
          fun entry hentry => hentry
        exact tracing_iterNext hyield
    | iterMutNext current => exact tracing_iterMutNext
    | dropMut guard =>
        obtain ⟨slot, content⟩ := guard
        cases content with
        | none => trivial
        | some node => exact ⟨hoffers, fun _ _ _ => trivial⟩
    | removeCount func count =>
        simp [enter, removeCount, head, Instr.Writes, Instr.Reads, Label.Knows]
    | setEnforceNoneq enforceNoneq => simp [enter, Instr.Writes, Explains]
    | len => simp [enter, Instr.Writes, Explains]
    | isEmpty => simp [enter, Instr.Writes, Explains]
    | search func => simp [enter, Label.Knows]
    | any func => simp [enter, Label.Knows]
  body := by
    intro call label g hknows
    cases label with
    | pushWalk order data current =>
        obtain ⟨rfl, hdata⟩ := hknows
        exact tracing_pushWalk hdata
    | removeCount func seen current count output =>
        obtain ⟨⟨total, rfl⟩, houtput⟩ := hknows
        exact tracing_removeCountLoop houtput
    | search func seen current =>
        obtain ⟨rfl, hseen⟩ := hknows
        exact tracing_searchLoop hseen
    | any func current =>
        obtain rfl : call = .any func := hknows
        exact tracing_anyLoop

end Code

/-- **No element out of thin air.** In every run of any calls, the elements in the slots of a list
have been there from the start or have been brought by a call, and every reply is of the kind of its
call and is explained by elements that have been brought before it. -/
theorem elements_brought {ι : Type} [DecidableEq ι] {orderFn : Option (T → T → Ordering)}
    {list : SharedList T} {config : Config (object orderFn) ι}
    (hreach : ((object orderFn).threads ι).Reachable (.initial list) config) :
    (∀ slot x, Bears (config.state.heap.inner slot) x →
      (tracing orderFn).Brought list config.history x) ∧
    ∀ n t call result, config.history[n]? = some (.respond t call result) →
      Explains ((tracing orderFn).Brought list (config.history.take n)) call result := by
  obtain ⟨hheld, hexplained⟩ := Tracing.provenance (tracing_sound orderFn) hreach
  exact ⟨fun slot x hbears => hheld x ⟨slot, hbears⟩, hexplained⟩

/-- A removal that has begun first takes out what is pushed in the meantime. -/
theorem elements_brought_removed :
    ∃ config : Config (object (T := Nat) none) Bool,
      config.history = [.invoke true (removeAll fun _ x => x == 1), .invoke false (.push 1),
        .respond false (.push 1) .unit,
        .respond true (removeAll fun _ x => x == 1) (.removed [1])] ∧
      Explains ((tracing none).Brought new [.invoke true (removeAll fun _ x => x == 1),
        .invoke false (.push 1), .respond false (.push 1) .unit])
        (removeAll fun _ x => x == 1) (.removed [1]) := by
  obtain ⟨config, hrun, hhistory⟩ : ∃ config : Config (object (T := Nat) none) Bool,
      ((object (T := Nat) none).threads Bool).run (.initial new)
        (.invoke true (removeAll fun _ x => x == 1) :: .invoke false (.push 1) ::
          List.replicate 8 (.tick false) ++ List.replicate 16 (.tick true)) = some config ∧
      config.history = [.invoke true (removeAll fun _ x => x == 1), .invoke false (.push 1),
        .respond false (.push 1) .unit,
        .respond true (removeAll fun _ x => x == 1) (.removed [1])] := ⟨_, rfl, rfl⟩
  have hexplained := (elements_brought (System.reachable_of_run _ hrun)).2
  rw [hhistory] at hexplained
  exact ⟨config, hhistory, hexplained 3 true _ _ rfl⟩

end Mutual.SharedList
