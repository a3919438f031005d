import Mutual.Data.Sight
import Mutual.Proof.Phases
import Mutual.Proof.Runs

/-!
# What a thread knows of an entry that is not removed

The threads that call `compute_if_absent` with one key are to agree on one entry for it. This module
has the code's part of the argument: what a thread that works in the bucket knows of the slots it
passes and of the entries it reads. Such a thread stores only what it has read and its own new entry,
and a search that begins where the entry can be seen from does not miss it.
-/

namespace Mutual.SharedMap

open Concurrency Data SharedList

variable {K V : Type}

/-- The slots a thread may use, the entries it has read or stored, the slots it knows the entry to be
seen from, and the slot it has found full and is about to look at again. -/
structure Agreeing (K V : Type) where
  known : List Slot
  reads : List (Entry K V)
  seeing : List Slot
  full : Option Slot

namespace Agreeing

/-- The beginning of a call to a bucket. -/
def rest : Agreeing K V := { known := [headSlot], reads := [], seeing := [], full := none }

section Rules

variable (hash : UInt64) (fits : Entry K V → Prop) (own : Option (Entry K V)) (strict must : Prop)
  (g : Agreeing K V)

/-- Where the entry is seen from, if it is not the one in the slot itself. -/
def look (slot : Slot) : Option (Node (Entry K V)) → List Slot
  | some node => if slot ∈ g.seeing ∧ node.data.hash ≠ hash then [node.next] else []
  | none => []

def see (slot : Slot) (content : Option (Node (Entry K V))) (full : Option Slot) : Agreeing K V :=
  { known := nextOf content ++ g.known
    reads := dataOf content ++ g.reads
    seeing := g.look hash slot content ++ g.seeing
    full := full }

def foundAt (slot : Slot) : Option (Node (Entry K V)) → Option Slot
  | some _ => some slot
  | none => none

structure Learns (slot : Slot) (answer : Option (Node (Entry K V))) : Prop where
  fits : ∀ entry ∈ dataOf answer, fits entry
  seen : slot ∈ g.seeing → answer ≠ none
  again : strict → g.full = some slot → answer ≠ none

def May : SharedList.Instr (Entry K V) → Prop
  | .cow (.load slot) | .cow (.loadFull slot) => slot ∈ g.known
  | .cow (.alloc content) => PointsTo g.known content ∧ ∀ entry ∈ dataOf content, entry ∈ g.reads
  | .cow (.store slot content) => slot ∈ g.known ∧ PointsTo g.known content ∧
      ∀ entry ∈ dataOf content, entry ∈ g.reads ∨ own = some entry
  | .cow (.swap _ _) | .storeNoneq _ => False
  | _ => True

def Move : (instr : SharedList.Instr (Entry K V)) → instr.Answer → Agreeing K V → Prop
  | .cow (.load slot), answer, g' =>
      g' = g.see hash slot answer (foundAt slot answer) ∧ g.Learns fits strict slot answer
  | .cow (.loadFull slot), answer, g' =>
      g' = g.see hash slot answer none ∧ g.Learns fits strict slot answer
  | .cow (.alloc _), slot, g' => g' = { g with known := slot :: g.known }
  | .cow (.store _ content), _, g' => g' = { g with reads := dataOf content ++ g.reads }
  | .loadNoneq, answer, g' => answer = true ∧ g' = g
  | _, _, g' => g' = g

/-- The predicate is true of the entry looked for. -/
def Detects (func : List (Entry K V) → Entry K V → Bool) : Prop :=
  ∀ seen entry, fits entry → entry.hash = hash → func seen entry = true

def Searches (func : List (Entry K V) → Entry K V → Bool) (current : Slot) : Prop :=
  current ∈ g.known ∧ (¬ must ∧ g.seeing = [] ∨ current ∈ g.seeing ∧ Detects hash fits func)

def Starts : SharedList.Call (Entry K V) → Prop
  | .push data => headSlot ∈ g.known ∧ own = some data
  | .search func => g.Searches hash fits must func headSlot
  | .removeCount _ _ | .any _ => headSlot ∈ g.known
  | _ => False

def Arrives (inner : SharedList.Call (Entry K V)) : SharedList.Label (Entry K V) → Prop
  | .pushWalk order data current =>
      order = orderFn ∧ inner = .push data ∧ current ∈ g.known ∧ own = some data
  | .removeCount _ _ current _ _ => current ∈ g.known ∧ ∃ func count, inner = .removeCount func count
  | .any func current => current ∈ g.known ∧ inner = .any func
  | .search func _ current => inner = .search func ∧ g.Searches hash fits must func current

def Finishes : SharedList.Call (Entry K V) → SharedList.Reply (Entry K V) → Prop
  | .push data, .unit => ∃ entry ∈ g.reads, entry.hash = data.hash
  | .search _, .found none => ¬ must ∧ g.seeing = []
  | .search func, .found (some (seen, entry)) =>
      func seen entry = true ∧ entry ∈ g.reads ∧ fits entry
  | .removeCount _ _, .removed _ | .any _, .bool _ => True
  | _, _ => False

end Rules

end Agreeing

/-- The protocol of the calls to one bucket. A call that is `strict` does not fail, and a search that
`must` find the entry does. -/
def agreeing (hash : UInt64) (fits : Entry K V → Prop) (own : Option (Entry K V))
    (strict must : Prop) : Protocol (Bucket K V) (Agreeing K V) where
  rest := .rest
  start inner g := g.Starts hash fits own must inner
  may _ g := g.May own
  move _ g := g.Move hash fits strict
  fail _ _ := ¬ strict
  arrive inner label g := g.Arrives hash fits own must inner label
  leave inner label g := g.Arrives hash fits own must inner label
  finish inner reply g := g.Finishes fits must inner reply

section Code

variable {hash : UInt64} {fits : Entry K V → Prop} {own : Option (Entry K V)} {strict must : Prop}
  {inner : SharedList.Call (Entry K V)} {g : Agreeing K V}

@[simp] theorem agreeing_may {instr : SharedList.Instr (Entry K V)} :
    (agreeing hash fits own strict must).may inner g instr ↔ g.May own instr := Iff.rfl

@[simp] theorem agreeing_move {instr : SharedList.Instr (Entry K V)} {answer : instr.Answer}
    {g' : Agreeing K V} :
    (agreeing hash fits own strict must).move inner g instr answer g' ↔
      g.Move hash fits strict instr answer g' := Iff.rfl

@[simp] theorem agreeing_fail : (agreeing hash fits own strict must).fail inner g ↔ ¬ strict := Iff.rfl

@[simp] theorem agreeing_arrive {label : SharedList.Label (Entry K V)} :
    (agreeing hash fits own strict must).arrive inner label g ↔
      g.Arrives hash fits own must inner label := Iff.rfl

@[simp] theorem agreeing_finish {result : SharedList.Reply (Entry K V)} :
    (agreeing hash fits own strict must).finish inner result g ↔
      g.Finishes fits must inner result := Iff.rfl

theorem agreeing_pushHead {data : Entry K V} (hhead : headSlot ∈ g.known) (hown : own = some data) :
    (agreeing hash fits own strict must).Obeys (.push data) (pushHead data) g := by
  simp only [pushHead, head, Prog.bind_eq, perform_bind, removeLock_bind, isNull_bind,
    Option.isNone_iff_eq_none, createLock_bind, Protocol.obeys_op, agreeing_may, Agreeing.May,
    agreeing_move, Agreeing.Move, Agreeing.see, and_imp, forall_eq, forall_const, true_and, hown,
    hhead]
  intro content hlearns
  cases content with
  | none => simp [Agreeing.May, Agreeing.Move, Agreeing.Finishes, *]
  | some node =>
      simp +contextual [Agreeing.May, Agreeing.Move, Agreeing.see, Agreeing.Finishes, *]

theorem agreeing_pushWalk {data : Entry K V} {current : Slot} (hcurrent : current ∈ g.known)
    (hown : own = some data) :
    (agreeing hash fits own strict must).Obeys (.push data) (pushWalk orderFn data current) g := by
  simp only [pushWalk, Prog.bind_eq, perform_bind, removeLock_bind, set_bind, Bool.and_eq_true,
    beq_iff_eq, getRef_bind, Option.isNone_iff_eq_none, isNull_bind, Protocol.obeys_op,
    agreeing_may, Agreeing.May, agreeing_move, Agreeing.Move, Agreeing.see, and_imp, forall_eq,
    true_and, forall_const, hown, hcurrent]
  intro content hlearns
  cases content with
  | none => simp [Agreeing.May, Agreeing.Move, Agreeing.Finishes, *]
  | some node =>
      simp only [reduceCtorEq, ↓reduceIte, nextOf_some, List.cons_append, List.nil_append,
        dataOf_some, Agreeing.foundAt, Protocol.obeys_op, agreeing_may, Agreeing.May, agreeing_move,
        Agreeing.Move, Agreeing.see, and_imp, forall_eq, List.mem_cons, or_true, true_and,
        forall_const, hcurrent]
      intro content hlearns
      have hagain := hlearns.again
      cases content with
      | none => simpa using hagain
      | some node =>
          simp only [reduceCtorEq, ↓reduceIte, nextOf_some, List.cons_append, List.nil_append,
            dataOf_some, Protocol.obeys_op, agreeing_may, Agreeing.May, List.mem_cons, or_true,
            agreeing_move, Agreeing.Move, Agreeing.see, and_imp, forall_eq, true_and, hcurrent]
          intro content hlearns
          have hagain := hlearns.again
          cases content with
          | none => simpa [Agreeing.foundAt] using hagain
          | some node =>
              cases horder : orderFn node.data data with
              | lt =>
                  simp +contextual [Agreeing.May, Agreeing.Move, Agreeing.see, Agreeing.Finishes, *]
              | eq =>
                  have hsame : data.hash = node.data.hash := orderFn_eq_eq.mp horder
                  simp [horder, Agreeing.May, Agreeing.Move, Agreeing.Finishes, hsame]
              | gt => simp [Agreeing.May, Agreeing.Move, Agreeing.Arrives, *]

theorem agreeing_removeCountLoop (func : List (Entry K V) → Entry K V → Bool)
    (seen : List (Entry K V)) {current : Slot} (count : UInt32) (output : List (Entry K V))
    (hcurrent : current ∈ g.known) (bound : UInt32) (first : List (Entry K V) → Entry K V → Bool) :
    (agreeing hash fits own strict must).Obeys (.removeCount first bound)
      (removeCountLoop func seen current count output) g := by
  simp only [removeCountLoop, gt_iff_lt, Bool.and_eq_true, Bool.not_eq_eq_eq_not, Bool.not_true,
    decide_eq_true_eq, Prog.bind_eq, perform_bind, createLock_bind, removeLock_bind, getRef_bind,
    Option.isNone_iff_eq_none, isNull_bind, Option.isNone_eq_false_iff, Protocol.obeys_op,
    agreeing_may, Agreeing.May, agreeing_move, Agreeing.Move, Agreeing.see, and_imp, forall_eq,
    true_and, forall_const, hcurrent]
  intro content hlearns
  cases content with
  | none => simp [Agreeing.May, Agreeing.Move, Agreeing.Finishes]
  | some node =>
      by_cases hcount : 0 < count
      · simp only [Option.isSome_some, and_self, ↓reduceIte, nextOf_some, List.cons_append,
          List.nil_append, dataOf_some, Protocol.obeys_op, agreeing_may, Agreeing.May,
          agreeing_move, Agreeing.Move, Agreeing.see, and_imp, forall_eq, List.mem_cons, or_true,
          true_and, forall_const, hcount, hcurrent]
        intro content hlearns
        have hagain := hlearns.again
        cases content with
        | none => simpa [Agreeing.foundAt] using hagain
        | some node =>
            simp only [reduceCtorEq, ↓reduceIte, nextOf_some, List.cons_append, List.nil_append,
              dataOf_some, Protocol.obeys_op, agreeing_may, Agreeing.May, List.mem_cons, or_true,
              agreeing_move, Agreeing.Move, Agreeing.see, and_imp, forall_eq, true_and, hcurrent]
            intro content hlearns
            have hagain := hlearns.again
            cases content with
            | none => simpa [Agreeing.foundAt] using hagain
            | some node =>
                by_cases hfunc : func seen node.data = true
                · simp +contextual [Agreeing.May, Agreeing.Move, Agreeing.see, Agreeing.Arrives, *]
                · simp [Agreeing.May, Agreeing.Move, Agreeing.Arrives, *]
      · simp [Agreeing.May, Agreeing.Move, Agreeing.Finishes, *]

theorem agreeing_searchLoop {func : List (Entry K V) → Entry K V → Bool} (seen : List (Entry K V))
    {current : Slot} (hsearches : g.Searches hash fits must func current) :
    (agreeing hash fits own strict must).Obeys (.search func) (searchLoop func seen current) g := by
  obtain ⟨hcurrent, hseeing⟩ := hsearches
  simp only [searchLoop, Prog.bind_eq, perform_bind, getRef_bind, Option.isNone_iff_eq_none,
    isNull_bind, Protocol.obeys_op, agreeing_may, Agreeing.May, agreeing_move, Agreeing.Move,
    Agreeing.see, and_imp, forall_eq, true_and, forall_const, hcurrent]
  intro content hlearns
  have hseen := hlearns.seen
  cases content with
  | none =>
      rcases hseeing with ⟨hmust, hseeing⟩ | ⟨hsees, -⟩
      · simp [Agreeing.Finishes, Agreeing.look, hmust, hseeing]
      · exact absurd rfl (hseen hsees)
  | some node₁ =>
      simp only [reduceCtorEq, ↓reduceIte, nextOf_some, List.cons_append, List.nil_append,
        dataOf_some, Protocol.obeys_op, agreeing_may, Agreeing.May, agreeing_move, Agreeing.Move,
        Agreeing.see, and_imp, forall_eq, List.mem_cons, or_true, true_and, forall_const, hcurrent]
      intro content hlearns
      have hagain := hlearns.again
      cases content with
      | none => simpa [Agreeing.foundAt] using hagain
      | some node₂ =>
          simp only [reduceCtorEq, ↓reduceIte, nextOf_some, List.cons_append, List.nil_append,
            dataOf_some, Protocol.obeys_op, agreeing_may, Agreeing.May, List.mem_cons, or_true,
            agreeing_move, Agreeing.Move, Agreeing.see, and_imp, forall_eq, true_and, hcurrent]
          intro content hlearns
          have hagain := hlearns.again
          cases content with
          | none => simpa [Agreeing.foundAt] using hagain
          | some node =>
              have hfits : fits node.data := hlearns.fits _ List.mem_cons_self
              by_cases hfunc : func seen node.data = true
              · simp [Agreeing.May, Agreeing.Move, Agreeing.Finishes, *]
              · simp only [unwrap_some_bind, Bool.false_eq_true, ↓reduceIte, nextOf_some,
                  List.cons_append, List.nil_append, dataOf_some, Protocol.obeys_op, agreeing_may,
                  Agreeing.May, agreeing_move, Agreeing.Move, Protocol.obeys_goto, agreeing_arrive,
                  Agreeing.Arrives, Agreeing.Searches, true_and, forall_eq, List.mem_cons, true_or,
                  List.append_eq_nil_iff, List.mem_append, forall_const, hfunc]
                rcases hseeing with ⟨hmust, hseeing⟩ | ⟨hsees, hdetects⟩
                · simp [Agreeing.look, hmust, hseeing]
                · have hne : node.data.hash ≠ hash := by
                    intro hhash
                    exact hfunc (hdetects seen node.data hfits hhash)
                  simp [Agreeing.look, hsees, hne, hdetects]

theorem agreeing_anyLoop (func : Entry K V → Bool) {current : Slot} (hcurrent : current ∈ g.known) :
    (agreeing hash fits own strict must).Obeys (.any func) (anyLoop func current) g := by
  simp only [anyLoop, iterNext, Prog.bind_eq, perform_bind, getRef_bind, Option.isNone_iff_eq_none,
    isNull_bind, Protocol.obeys_op, agreeing_may, Agreeing.May, agreeing_move, Agreeing.Move,
    Agreeing.see, and_imp, forall_eq, true_and, forall_const, hcurrent]
  intro content hlearns
  cases content with
  | none => simp [Agreeing.Finishes]
  | some node =>
      simp only [reduceCtorEq, ↓reduceIte, nextOf_some, List.cons_append, List.nil_append,
        dataOf_some, Protocol.obeys_op, agreeing_may, Agreeing.May, agreeing_move, Agreeing.Move,
        Agreeing.see, and_imp, forall_eq, List.mem_cons, or_true, true_and, forall_const, hcurrent]
      intro content hlearns
      have hagain := hlearns.again
      cases content with
      | none => simpa [Agreeing.foundAt] using hagain
      | some node =>
          simp only [reduceCtorEq, ↓reduceIte, nextOf_some, List.cons_append, List.nil_append,
            dataOf_some, Protocol.obeys_op, agreeing_may, Agreeing.May, List.mem_cons, or_true,
            agreeing_move, Agreeing.Move, Agreeing.see, and_imp, forall_eq, true_and, hcurrent]
          intro content hlearns
          have hagain := hlearns.again
          cases content with
          | none => simpa [Agreeing.foundAt] using hagain
          | some node =>
              by_cases hfunc : func node.data = true
              · simp [Agreeing.May, Agreeing.Move, Agreeing.Finishes, *]
              · simp [Agreeing.May, Agreeing.Move, Agreeing.Arrives, *]

theorem agreeing_sound (hash : UInt64) (fits : Entry K V → Prop) (own : Option (Entry K V))
    (strict must : Prop) : (agreeing hash fits own strict must).Sound where
  enter := by
    intro inner g hstart
    cases inner with
    | push data =>
        obtain ⟨hhead, rfl⟩ := hstart
        simp only [SharedList.enter, push]
        simp only [head, Prog.bind_eq, createLock_bind, isNull_bind, Option.isNone_iff_eq_none,
          Protocol.obeys_op, agreeing_may, Agreeing.May, agreeing_move, Agreeing.Move, Agreeing.see,
          and_imp, forall_eq, true_and, forall_const, hhead]
        intro content hlearns
        cases content with
        | none => exact agreeing_pushHead (by simpa using hhead) rfl
        | some node => simp [Agreeing.May, Agreeing.Move, Agreeing.Arrives, *]
    | removeCount func count =>
        simp only [SharedList.enter, removeCount, head, Prog.bind_eq, createLock_bind,
          Protocol.obeys_op, agreeing_may, Agreeing.May, agreeing_move, Agreeing.Move,
          Protocol.obeys_goto, agreeing_arrive, Agreeing.Arrives, Call.removeCount.injEq,
          exists_and_left, ↓existsAndEq, and_true, exists_eq', forall_eq, forall_const, true_and]
        exact hstart
    | search func => exact ⟨rfl, hstart⟩
    | any func => exact ⟨hstart, rfl⟩
    | _ => exact hstart.elim
  body := by
    intro inner label g hleave
    cases label with
    | pushWalk order data current =>
        obtain ⟨rfl, rfl, hcurrent, hown⟩ := hleave
        exact agreeing_pushWalk hcurrent hown
    | removeCount func seen current count output =>
        obtain ⟨hcurrent, first, bound, rfl⟩ := hleave
        exact agreeing_removeCountLoop func seen count output hcurrent bound first
    | search func seen current =>
        obtain ⟨rfl, hsearches⟩ := hleave
        exact agreeing_searchLoop seen hsearches
    | any func current =>
        obtain ⟨hcurrent, rfl⟩ := hleave
        exact agreeing_anyLoop func hcurrent

end Code

end Mutual.SharedMap
