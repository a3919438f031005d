import Mutual.Proof.Agreement

/-!
# A search for what has been pushed

What `compute_if_absent` has pushed it looks for once more, and unwraps what it finds. This module has
what happens in the bucket: a thread waits from the end of its push on for an entry that can be seen
from where it stands, and its search goes from one such slot to the next.
-/

namespace Mutual.SharedMap

open Concurrency Data SharedList

variable {K V : Type}

/-! ### What the call waits for -/

/-- What a thread waits for that is in a `compute_if_absent` with the hash, in the bucket. -/
inductive Awaiting where
  | away
  | pushing
  /-- An entry can be seen from where the search stands, or it has been found. -/
  | placed (standing : Option Slot)

namespace Awaiting

section Rules

variable (hash : UInt64) (g : Awaiting)

def May : SharedList.Instr (Entry K V) → Prop
  | .cow (.store _ content) => g = pushing → ∃ node, content = some node ∧ node.data.hash = hash
  | _ => True

def after : Awaiting → (instr : SharedList.Instr (Entry K V)) → instr.Answer → Awaiting
  | pushing, .cow (.store _ _), _ => placed (some headSlot)
  | pushing, .cow (.loadFull _), some node =>
      if node.data.hash = hash then placed (some headSlot) else pushing
  | placed (some standing), .cow (.loadFull slot), some node =>
      if slot = standing then placed (if node.data.hash = hash then none else some node.next)
      else placed (some standing)
  | g, _, _ => g

def Finds : (instr : SharedList.Instr (Entry K V)) → instr.Answer → Prop
  | .cow (.load slot), answer | .cow (.loadFull slot), answer =>
      g = placed (some slot) → answer ≠ none
  | .loadNoneq, answer => answer = true
  | _, _ => True

/-- The call with which it begins to wait. -/
def Starts : Awaiting → SharedList.Call (Entry K V) → Prop
  | away, _ => True
  | pushing, inner => ∃ data, inner = .push data ∧ data.hash = hash
  | placed standing, inner => standing = some headSlot ∧
      inner = SharedList.find fun _ entry => entry.hash == hash

def Arrives : Awaiting → SharedList.Label (Entry K V) → Prop
  | away, _ => g = away
  | pushing, label => g = pushing ∧
      ∃ data current, label = .pushWalk orderFn data current ∧ data.hash = hash
  | placed _, label => ∃ seen current, g = placed (some current) ∧
      label = .search (fun _ entry => entry.hash == hash) seen current

def Finishes : Awaiting → SharedList.Reply (Entry K V) → Prop
  | away, _ => g = away
  | pushing, _ => g = placed (some headSlot)
  | placed _, result => ∃ found, result = .found (some found)

end Rules

end Awaiting

/-- The protocol of a call to the bucket that begins with `opening`. -/
def awaiting (hash : UInt64) (opening : Awaiting) : Protocol (Bucket K V) Awaiting where
  rest := .away
  start inner g := g = opening ∧ opening.Starts hash inner
  may _ g := g.May hash
  move _ g instr answer g' := g' = g.after hash instr answer ∧ g.Finds instr answer
  fail _ g := ∀ standing, g ≠ .placed standing
  arrive _ label g := g.Arrives hash opening label
  leave _ label g := g.Arrives hash opening label
  finish _ result g := g.Finishes opening result

section Code

variable {hash : UInt64} {opening : Awaiting} {inner : SharedList.Call (Entry K V)} {g : Awaiting}

@[simp] theorem awaiting_may {instr : SharedList.Instr (Entry K V)} :
    (awaiting hash opening).may inner g instr ↔ g.May hash instr := Iff.rfl

@[simp] theorem awaiting_move {instr : SharedList.Instr (Entry K V)} {answer : instr.Answer}
    {g' : Awaiting} :
    (awaiting hash opening).move inner g instr answer g' ↔
      g' = g.after hash instr answer ∧ g.Finds instr answer := Iff.rfl

@[simp] theorem awaiting_fail :
    (awaiting (K := K) (V := V) hash opening).fail inner g ↔ ∀ standing, g ≠ .placed standing :=
  Iff.rfl

@[simp] theorem awaiting_arrive {label : SharedList.Label (Entry K V)} :
    (awaiting hash opening).arrive inner label g ↔ g.Arrives hash opening label := Iff.rfl

@[simp] theorem awaiting_finish {result : SharedList.Reply (Entry K V)} :
    (awaiting hash opening).finish inner result g ↔ g.Finishes opening result := Iff.rfl

/-- Who waits for nothing may do anything. -/
theorem awaiting_away (code : Prog (SharedList.sig (Entry K V)) (Outcome (Entry K V))) :
    (awaiting hash .away).Obeys inner code .away := by
  induction code with
  | ret outcome =>
      cases outcome with
      | inl label => exact rfl
      | inr result => exact rfl
  | panic message =>
      rintro standing ⟨⟩
  | op instr next ih =>
      refine ⟨?_, ?_⟩
      · rw [awaiting_may]
        unfold Awaiting.May
        split
        · rintro ⟨⟩
        · trivial
      · rintro answer g' ⟨rfl, -⟩
        exact ih answer

theorem awaiting_pushHead {data : Entry K V} (hdata : data.hash = hash) :
    (awaiting hash .pushing).Obeys inner (pushHead data) .pushing := by
  simp only [pushHead, head, Prog.bind_eq, perform_bind, removeLock_bind, isNull_bind,
    Option.isNone_iff_eq_none, createLock_bind, Protocol.obeys_op, awaiting_may, Awaiting.May,
    awaiting_move, Awaiting.after, Awaiting.Finds, and_true, ne_eq, and_imp, forall_eq, true_and,
    forall_const, reduceCtorEq, IsEmpty.forall_iff]
  intro content
  cases content with
  | none => simp [Awaiting.May, Awaiting.after, Awaiting.Finds, Awaiting.Finishes, hdata]
  | some node => simp [Awaiting.May, Awaiting.after, Awaiting.Finds, Awaiting.Finishes, hdata]

theorem awaiting_pushWalk {data : Entry K V} (current : Slot) (hdata : data.hash = hash) :
    (awaiting hash .pushing).Obeys inner (pushWalk orderFn data current) .pushing := by
  simp only [pushWalk, Prog.bind_eq, perform_bind, removeLock_bind, set_bind, Bool.and_eq_true,
    beq_iff_eq, getRef_bind, Option.isNone_iff_eq_none, isNull_bind, Protocol.obeys_op,
    awaiting_may, Awaiting.May, awaiting_move, Awaiting.after, Awaiting.Finds, and_true, ne_eq,
    and_imp, forall_eq, true_and, reduceCtorEq, IsEmpty.forall_iff, forall_const]
  intro content
  cases content with
  | none => simp [Awaiting.May, Awaiting.after, Awaiting.Finds, Awaiting.Finishes, hdata]
  | some node =>
      simp only [reduceCtorEq, ↓reduceIte, Protocol.obeys_op, awaiting_may, Awaiting.May,
        awaiting_move, Awaiting.after, Awaiting.Finds, and_true, ne_eq, and_imp, forall_eq,
        true_and, IsEmpty.forall_iff, forall_const]
      intro content
      cases content with
      | none => simp
      | some node =>
          simp only [reduceCtorEq, ↓reduceIte, Protocol.obeys_op, awaiting_may, Awaiting.May,
            awaiting_move, Awaiting.Finds, ne_eq, IsEmpty.forall_iff, and_true, forall_eq, true_and]
          intro content
          cases content with
          | none => simp [Awaiting.after]
          | some node =>
              have hsame : node.data.hash = hash ↔ orderFn node.data data = .eq := by
                rw [orderFn_eq_eq, hdata]
                exact eq_comm
              cases horder : orderFn node.data data with
              | lt =>
                  simp [horder, hsame, hdata, Awaiting.May, Awaiting.after, Awaiting.Finds,
                    Awaiting.Finishes]
              | eq =>
                  simp [horder, hsame, Awaiting.May, Awaiting.after, Awaiting.Finds,
                    Awaiting.Finishes]
              | gt =>
                  simp [horder, hsame, hdata, Awaiting.May, Awaiting.after, Awaiting.Finds,
                    Awaiting.Arrives]

theorem awaiting_searchLoop (standing : Option Slot) (seen : List (Entry K V)) (current : Slot) :
    (awaiting hash (.placed standing)).Obeys inner
      (searchLoop (fun _ entry => entry.hash == hash) seen current) (.placed (some current)) := by
  simp only [searchLoop, beq_iff_eq, Prog.bind_eq, perform_bind, getRef_bind,
    Option.isNone_iff_eq_none, isNull_bind, Protocol.obeys_op, awaiting_may, Awaiting.May,
    awaiting_move, Awaiting.after, Awaiting.Finds, and_true, ne_eq, and_imp, forall_eq, true_and,
    forall_const]
  intro content hfound
  cases content with
  | none => exact absurd rfl hfound
  | some node =>
      simp only [reduceCtorEq, ↓reduceIte, Protocol.obeys_op, awaiting_may, Awaiting.May,
        awaiting_move, Awaiting.after, Awaiting.Finds, and_true, ne_eq, and_imp, forall_eq,
        true_and, forall_const]
      intro content hfound
      cases content with
      | none => exact absurd rfl hfound
      | some node =>
          simp only [reduceCtorEq, ↓reduceIte, Protocol.obeys_op, awaiting_may, Awaiting.May,
            awaiting_move, Awaiting.Finds, ne_eq, forall_const, and_imp, forall_eq, true_and]
          intro content hfound
          cases content with
          | none => exact absurd rfl hfound
          | some node =>
              by_cases hnode : node.data.hash = hash
              · simp [hnode, Awaiting.May, Awaiting.after, Awaiting.Finds, Awaiting.Finishes]
              · simp [hnode, Awaiting.May, Awaiting.after, Awaiting.Finds, Awaiting.Arrives]

theorem awaiting_sound (hash : UInt64) (opening : Awaiting) :
    (awaiting (K := K) (V := V) hash opening).Sound where
  enter := by
    rintro inner g ⟨rfl, hstarts⟩
    cases g with
    | away => exact awaiting_away _
    | pushing =>
        obtain ⟨data, rfl, hdata⟩ := hstarts
        simp only [SharedList.enter, push]
        simp only [head, Prog.bind_eq, createLock_bind, isNull_bind, Option.isNone_iff_eq_none,
          Protocol.obeys_op, awaiting_may, Awaiting.May, awaiting_move, Awaiting.after,
          Awaiting.Finds, and_true, ne_eq, and_imp, forall_eq, true_and, reduceCtorEq,
          IsEmpty.forall_iff, forall_const]
        intro content
        cases content with
        | none => exact awaiting_pushHead hdata
        | some node => simp [Awaiting.May, Awaiting.after, Awaiting.Finds, Awaiting.Arrives, hdata]
    | placed standing =>
        obtain ⟨rfl, rfl⟩ := hstarts
        exact ⟨[], headSlot, rfl, rfl⟩
  body := by
    intro inner label g hleave
    cases opening with
    | away =>
        obtain rfl : g = .away := hleave
        exact awaiting_away _
    | pushing =>
        obtain ⟨rfl, data, current, rfl, hdata⟩ := hleave
        exact awaiting_pushWalk current hdata
    | placed standing =>
        obtain ⟨seen, current, rfl, rfl⟩ := hleave
        exact awaiting_searchLoop standing seen current

end Code

/-! ### What the bucket guarantees -/

/-- The links lead to slots that have been allocated. -/
structure Bounded (list : SharedList (Entry K V)) : Prop where
  noneq : list.enforceNoneq = true
  head : headSlot < list.heap.fresh
  next : ∀ slot node, list.heap.inner slot = some node → node.next < list.heap.fresh

abbrev HashIs (hash : UInt64) (entry : Entry K V) : Prop := entry.hash = hash

/-- The store puts a node in front of what the slot holds, or it overwrites an entry with another hash
by what comes after it. -/
def LosesNone (hash : UInt64) (list : SharedList (Entry K V)) (slot : Slot)
    (content : Option (Node (Entry K V))) : Prop :=
  (∃ node, content = some node ∧ node.next ≠ slot ∧
    list.heap.inner node.next = list.heap.inner slot) ∨
  ∃ node, list.heap.inner slot = some node ∧ node.data.hash ≠ hash ∧
    content = list.heap.inner node.next

def OnList (list : SharedList (Entry K V)) (slot : Slot) : Prop :=
  Reaches list.heap.links headSlot slot

/-- Where a push of an entry with the hash ends. -/
def endsAt (list : SharedList (Entry K V)) (hash : UInt64) :
    SharedList.Instr (Entry K V) → Option Slot
  | .cow (.store slot _) => some slot
  | .cow (.loadFull slot) =>
      if ∃ node ∈ list.heap.inner slot, node.data.hash = hash then some slot else none
  | _ => none

section Memory

variable {list list' : SharedList (Entry K V)} {g : Agreeing K V} {own : Option (Entry K V)}
  {instr : SharedList.Instr (Entry K V)} {hash : UInt64}

theorem exec_contents (hmay : g.May own instr) {answer : Option instr.Answer}
    (hexec : SharedList.exec instr list = (list', answer)) :
    (∃ slot content, instr = .cow (.store slot content) ∧
      list' = { list with heap := list.heap.setInner slot content }) ∨
    (∃ content, instr = .cow (.alloc content) ∧
      list' = { list with heap := list.heap.alloc content }) ∨
    (list'.heap.inner = list.heap.inner ∧ list'.heap.fresh = list.heap.fresh ∧
      list'.enforceNoneq = list.enforceNoneq) := by
  have hlist : (SharedList.exec instr list).1 = list' := congrArg Prod.fst hexec
  match instr, hmay with
  | .cow (.store slot content), _ => exact .inl ⟨slot, content, rfl, hlist.symm⟩
  | .cow (.alloc content), _ => exact .inr (.inl ⟨content, rfl, hlist.symm⟩)
  | .cow (.awaitImm _), _ | .cow (.acquireMut _), _ | .cow (.acquireImm _), _
  | .cow (.releaseMut _), _ | .cow (.releaseImm _), _ | .cow (.load _), _ | .cow (.loadFull _), _
  | .loadNoneq, _ | .fetchAddLen, _ | .fetchSubLen, _ | .loadLen, _ | .callback, _ =>
      subst hlist
      exact .inr (.inr ⟨rfl, rfl, rfl⟩)

theorem see_seeing (hseeing : g.seeing = []) {slot : Slot} {content : Option (Node (Entry K V))}
    {full : Option Slot} : (g.see hash slot content full).seeing = [] := by
  cases content with
  | none => simp [Agreeing.see, Agreeing.look, hseeing]
  | some node => simp [Agreeing.see, Agreeing.look, hseeing]

namespace Bounded

theorem congr (hbounded : Bounded list) (hinner : list'.heap.inner = list.heap.inner)
    (hfresh : list'.heap.fresh = list.heap.fresh)
    (hnoneq : list'.enforceNoneq = list.enforceNoneq) : Bounded list' := by
  refine ⟨hnoneq.trans hbounded.noneq, ?_, ?_⟩
  · rw [hfresh]
    exact hbounded.head
  · rw [hinner, hfresh]
    exact hbounded.next

theorem store (hbounded : Bounded list) {slot : Slot} {content : Option (Node (Entry K V))}
    (hnext : ∀ node, content = some node → node.next < list.heap.fresh) :
    Bounded { list with heap := list.heap.setInner slot content } := by
  refine ⟨hbounded.noneq, hbounded.head, ?_⟩
  intro other node hnode
  change Function.update list.heap.inner slot content other = some node at hnode
  by_cases hother : other = slot
  · rw [hother, Function.update_self] at hnode
    exact hnext node hnode
  · rw [Function.update_of_ne hother] at hnode
    exact hbounded.next other node hnode

theorem alloc (hbounded : Bounded list) {content : Option (Node (Entry K V))}
    (hnext : ∀ node, content = some node → node.next < list.heap.fresh) :
    Bounded { list with heap := list.heap.alloc content } := by
  refine ⟨hbounded.noneq, Nat.lt_succ_of_lt hbounded.head, ?_⟩
  intro other node hnode
  change Function.update list.heap.inner list.heap.fresh content other = some node at hnode
  by_cases hother : other = list.heap.fresh
  · rw [hother, Function.update_self] at hnode
    exact Nat.lt_succ_of_lt (hnext node hnode)
  · rw [Function.update_of_ne hother] at hnode
    exact Nat.lt_succ_of_lt (hbounded.next other node hnode)

/-- What a thread knows after an instruction are slots that have been allocated. -/
theorem step (hash : UInt64) (hbounded : Bounded list)
    (hknown : ∀ slot ∈ g.known, slot < list.heap.fresh)
    (hseeing : g.seeing = []) (hmay : g.May own instr) {answer : instr.Answer}
    (hexec : SharedList.exec instr list = (list', some answer)) :
    ∃ g', g.Move hash (fun _ => True) False instr answer g' ∧ Bounded list' ∧
      (∀ slot ∈ g'.known, slot < list'.heap.fresh) ∧ g'.seeing = [] ∧
      list.heap.fresh ≤ list'.heap.fresh := by
  have hlearns : ∀ slot answer, g.Learns (fun _ : Entry K V => True) False slot answer := by
    intro slot answer
    refine ⟨fun _ _ => trivial, ?_, False.elim⟩
    rw [hseeing]
    rintro ⟨⟩
  have hsee : ∀ slot full, (∀ other ∈ (g.see hash slot (list.heap.inner slot) full).known,
      other < list.heap.fresh) ∧ (g.see hash slot (list.heap.inner slot) full).seeing = [] := by
    intro slot full
    constructor
    · intro other hother
      rcases List.mem_append.mp hother with hnew | hold
      · obtain ⟨node, hnode, rfl⟩ := mem_nextOf.mp hnew
        exact hbounded.next slot node hnode
      · exact hknown other hold
    · exact see_seeing hseeing
  match instr with
  | .cow (.load slot) =>
      cases hexec
      obtain ⟨hsee, hnil⟩ := hsee slot (Agreeing.foundAt slot (list.heap.inner slot))
      exact ⟨_, ⟨rfl, hlearns _ _⟩, hbounded, hsee, hnil, Nat.le_refl _⟩
  | .cow (.loadFull slot) =>
      cases hexec
      obtain ⟨hsee, hnil⟩ := hsee slot none
      exact ⟨_, ⟨rfl, hlearns _ _⟩, hbounded, hsee, hnil, Nat.le_refl _⟩
  | .cow (.alloc content) =>
      cases hexec
      have hnext := fun node hnode => hknown _ (hmay.1 node hnode)
      refine ⟨_, rfl, hbounded.alloc hnext, ?_, hseeing, Nat.le_succ _⟩
      intro slot hslot
      rcases List.mem_cons.mp hslot with rfl | hold
      · exact Nat.lt_succ_self _
      · exact Nat.lt_succ_of_lt (hknown slot hold)
  | .cow (.store slot content) =>
      cases hexec
      have hnext := fun node hnode => hknown _ (hmay.2.1 node hnode)
      exact ⟨_, rfl, hbounded.store hnext, hknown, hseeing, Nat.le_refl _⟩
  | .loadNoneq =>
      cases hexec
      exact ⟨g, ⟨hbounded.noneq, rfl⟩, hbounded, hknown, hseeing, Nat.le_refl _⟩
  | .cow (.awaitImm _) | .cow (.acquireMut _) | .cow (.acquireImm _) | .cow (.releaseMut _)
  | .cow (.releaseImm _) | .fetchAddLen | .fetchSubLen | .loadLen | .callback =>
      have hlist : (SharedList.exec _ list).1 = list' := congrArg Prod.fst hexec
      subst hlist
      exact ⟨g, rfl, hbounded.congr rfl rfl rfl, hknown, hseeing, Nat.le_refl _⟩

/-- An entry that is seen is seen afterwards. -/
theorem sees (hbounded : Bounded list) (hmay : g.May own instr) {answer : Option instr.Answer}
    (hexec : SharedList.exec instr list = (list', answer))
    (hkeeps : ∀ slot content, instr = .cow (.store slot content) → LosesNone hash list slot content)
    {slot : Slot} (hslot : slot < list.heap.fresh)
    (hsees : Sees list.heap.links (HashIs hash) slot) :
    slot < list'.heap.fresh ∧ Sees list'.heap.links (HashIs hash) slot := by
  rcases exec_contents hmay hexec with ⟨cell, content, rfl, rfl⟩ | ⟨content, rfl, rfl⟩ |
    ⟨hinner, hfresh, -⟩
  · refine ⟨hslot, ?_⟩
    rcases hkeeps cell content rfl with ⟨node, rfl, hne, hcopy⟩ | ⟨node, hnode, hhash, rfl⟩
    · rw [Heap.links_setInner]
      exact hsees.insert hne (Heap.links_congr hcopy) node.data
    · rw [Heap.links_copy]
      exact hsees.remove (Heap.links_eq_some hnode) hhash
  · refine ⟨Nat.lt_succ_of_lt hslot, ?_⟩
    have hmem : slot ∈ { slot | slot < list.heap.fresh } := hslot
    refine hsees.closed hmem ?_
    intro cell x next hcell hlink
    refine ⟨hbounded.next cell _ (Heap.inner_of_links hlink), ?_, fun hhash => hhash⟩
    rw [Heap.links_alloc, Function.update_of_ne (Nat.ne_of_lt hcell)]
    exact hlink
  · rw [hfresh, Heap.links_of_inner_eq hinner]
    exact ⟨hslot, hsees⟩

end Bounded

/-! ### One instruction of a thread that waits -/

namespace Awaiting

theorem after_away (answer : instr.Answer) : after hash away instr answer = away := by
  unfold after
  split
  all_goals first | rfl | contradiction

theorem after_pushing {answer : instr.Answer}
    (hexec : SharedList.exec instr list = (list', some answer)) :
    after hash pushing instr answer =
      if (endsAt list hash instr).isSome = true then placed (some headSlot) else pushing := by
  match instr with
  | .cow (.loadFull slot) =>
      cases hexec
      cases hnode : list.heap.inner slot with
      | none => simp [after, endsAt, hnode]
      | some node => by_cases hhash : node.data.hash = hash <;> simp [after, endsAt, hnode, hhash]
  | .cow (.store slot content) => rfl
  | .cow (.awaitImm _) | .cow (.acquireMut _) | .cow (.acquireImm _) | .cow (.releaseMut _)
  | .cow (.releaseImm _) | .cow (.load _) | .cow (.swap _ _) | .cow (.alloc _) | .loadNoneq
  | .storeNoneq _ | .fetchAddLen | .fetchSubLen | .loadLen | .callback => rfl

theorem after_found (answer : instr.Answer) :
    after hash (placed none) instr answer = placed none := by
  unfold after
  split
  all_goals first | rfl | simp_all

theorem after_placed (hash : UInt64) (standing : Option Slot) (answer : instr.Answer) :
    ∃ standing', after hash (placed standing) instr answer = placed standing' := by
  unfold after
  split
  · contradiction
  · contradiction
  · split <;> exact ⟨_, rfl⟩
  · exact ⟨_, rfl⟩

theorem finds {g : Awaiting} (hnoneq : list.enforceNoneq = true)
    (hseen : ∀ slot, g = placed (some slot) → Sees list.heap.links (HashIs hash) slot)
    {answer : instr.Answer} (hexec : SharedList.exec instr list = (list', some answer)) :
    g.Finds instr answer := by
  have hfull : ∀ slot, g = placed (some slot) → list.heap.inner slot ≠ none := by
    intro slot hg hnone
    obtain ⟨x, next, hlink, -⟩ := (hseen slot hg).cases_at
    rw [Heap.links_eq_none hnone] at hlink
    cases hlink
  match instr with
  | .cow (.load slot) | .cow (.loadFull slot) =>
      cases hexec
      exact hfull slot
  | .loadNoneq =>
      cases hexec
      exact hnoneq
  | .cow (.awaitImm _) | .cow (.acquireMut _) | .cow (.acquireImm _) | .cow (.releaseMut _)
  | .cow (.releaseImm _) | .cow (.store _ _) | .cow (.swap _ _) | .cow (.alloc _) | .storeNoneq _
  | .fetchAddLen | .fetchSubLen | .loadLen | .callback => trivial

/-- Where the push ends the entry is seen from `head`. -/
theorem sees_of_ends {slot : Slot} (hmay : May hash pushing instr)
    (hends : endsAt list hash instr = some slot) (honList : OnList list slot)
    {answer : Option instr.Answer} (hexec : SharedList.exec instr list = (list', answer)) :
    Sees list'.heap.links (HashIs hash) headSlot := by
  unfold endsAt at hends
  split at hends
  · rename_i cell content
    cases hends
    cases hexec
    obtain ⟨node, rfl, hnode⟩ := hmay rfl
    rw [Heap.links_setInner]
    exact Sees.of_store honList hnode
  · rename_i cell
    split at hends
    · rename_i hnode
      cases hends
      cases hexec
      obtain ⟨node, hinner, hnode⟩ := hnode
      exact Sees.of_reaches honList (.here (Heap.links_eq_some hinner) hnode)
    · cases hends
  · cases hends

/-- The search goes on to a slot the entry is seen from. -/
theorem seen_next {standing slot : Slot} (hbounded : Bounded list)
    (hseen : standing < list.heap.fresh ∧ Sees list.heap.links (HashIs hash) standing)
    (hkept : ∀ slot, slot < list.heap.fresh → Sees list.heap.links (HashIs hash) slot →
      slot < list'.heap.fresh ∧ Sees list'.heap.links (HashIs hash) slot)
    {answer : instr.Answer} (hexec : SharedList.exec instr list = (list', some answer))
    (hafter : after hash (placed (some standing)) instr answer = placed (some slot)) :
    slot < list'.heap.fresh ∧ Sees list'.heap.links (HashIs hash) slot := by
  have hstay := hkept standing hseen.1 hseen.2
  unfold after at hafter
  split at hafter
  · contradiction
  · contradiction
  · rename_i cell cell' node hstanding
    obtain rfl : standing = cell := by simpa using hstanding
    split at hafter
    · rename_i hcell
      subst hcell
      have hnode : list.heap.inner cell' = some node := Option.some.inj (congrArg Prod.snd hexec)
      by_cases hhash : node.data.hash = hash
      · simp [hhash] at hafter
      · obtain rfl : node.next = slot := by simpa [hhash] using hafter
        obtain ⟨x, next, hlink, hrest⟩ := hseen.2.cases_at
        rw [Heap.links_eq_some hnode] at hlink
        cases hlink
        exact hkept _ (hbounded.next _ _ hnode) (hrest.resolve_left hhash)
    · cases hafter
      exact hstay
  · cases hafter
    exact hstay

end Awaiting

end Memory

end Mutual.SharedMap
