import Mutual.Proof.Phases
import Mutual.Proof.Runs

/-!
# What a thread knows of the place of a key

The entries with smaller hashes come first in a bucket and nobody removes them, so the entry for a
key has one place, the slot behind them. Threads that overwrite the key store in this slot only: a
removal puts there what it has found further on, a push puts its entry there. A thread whose removal
has emptied the place owes an entry until it has stored one or has found one there.
-/

namespace Mutual.SharedMap

open Concurrency Data SharedList

variable {K V : Type}

/-! ### The content of a slot, by hashes -/

section Contents

variable (hash : UInt64)

/-- The slot is before the place of the hash. -/
def Precedes (content : Option (Node (Entry K V))) : Prop :=
  ∃ node, content = some node ∧ node.data.hash < hash

def HasHash (content : Option (Node (Entry K V))) : Prop :=
  ∃ node, content = some node ∧ node.data.hash = hash

/-- The slot is the place of the hash or behind it, and there is no entry with the hash in it. -/
def Misses (content : Option (Node (Entry K V))) : Prop :=
  ∀ node, content = some node → hash < node.data.hash

/-- Where an entry with a certain hash in the slot points to. -/
def Leads (p : UInt64 → Prop) (content : Option (Node (Entry K V))) : Set Slot :=
  { next | ∃ node, content = some node ∧ p node.data.hash ∧ next = node.next }

end Contents

/-- The slots up to the place, those known to be the place, those behind other entries, and those that
entries for the key point to, the entries for the key a thread has read, whether it owes one, and
whether it has found none in the place. -/
structure Overwriting (K V : Type) where
  path : Set Slot
  here : Set Slot
  far : Set Slot
  deep : Set Slot
  reads : Set (Entry K V)
  owes : Prop
  missed : Prop

namespace Overwriting

/-- The beginning of a call to the bucket. -/
def start (owes : Prop) : Overwriting K V :=
  { path := {headSlot}, here := ∅, far := ∅, deep := ∅, reads := ∅, owes := owes, missed := False }

section Rules

variable (hash : UInt64) (fits : Entry K V → Prop) (own : Option (Entry K V)) (g : Overwriting K V)

def see (slot : Slot) (content : Option (Node (Entry K V))) : Overwriting K V :=
  { path := g.path ∪ { next | slot ∈ g.path ∧ next ∈ Leads (· < hash) content }
    here := g.here ∪ { same | slot ∈ g.path ∧ ¬ Precedes hash content ∧ same = slot }
    far := g.far ∪ Leads (hash < ·) content
    deep := g.deep ∪ Leads (· = hash) content
    reads := g.reads ∪ { entry | entry ∈ dataOf content ∧ entry.hash = hash }
    owes := g.owes ∧ ¬ (slot ∈ g.path ∧ HasHash hash content)
    missed := g.missed ∨ slot ∈ g.path ∧ Misses hash content }

/-- A new slot has a content that may stand in the place. -/
def grow (slot : Slot) : Overwriting K V := { g with deep := {slot} ∪ g.deep }

/-- The content may stand in the place. -/
def Good (content : Option (Node (Entry K V))) : Prop :=
  ∀ node, content = some node →
    node.data.hash = hash ∧ (node.data ∈ g.reads ∨ own = some node.data) ∧ node.next ∈ g.deep ∨
    hash < node.data.hash ∧ fits node.data ∧ node.next ∈ g.far

structure Learns (slot : Slot) (answer : Option (Node (Entry K V))) : Prop where
  fits : ∀ entry ∈ dataOf answer, fits entry
  far : slot ∈ g.far → Misses hash answer
  here : slot ∈ g.here ∪ g.deep → ¬ Precedes hash answer

def May : SharedList.Instr (Entry K V) → Prop
  | .cow (.load slot) | .cow (.loadFull slot) => slot ∈ g.path ∪ g.far ∪ g.deep
  | .cow (.alloc content) => g.Good hash fits none content
  | .cow (.store slot content) => slot ∈ g.here ∧ g.Good hash fits own content ∧ own ≠ none
  | .cow (.swap _ _) | .storeNoneq _ => False
  | _ => True

def Move : (instr : SharedList.Instr (Entry K V)) → instr.Answer → Overwriting K V → Prop
  | .cow (.load slot), answer, g' | .cow (.loadFull slot), answer, g' =>
      g' = g.see hash slot answer ∧ g.Learns hash fits slot answer
  | .cow (.alloc _), slot, g' => g' = g.grow slot
  | .cow (.store _ content), _, g' => g' = { g with owes := ¬ HasHash hash content }
  | .loadNoneq, answer, g' => answer = true ∧ g' = g
  | _, _, g' => g' = g

/-- The predicate is true of the entries with the hash. -/
def Decides (func : List (Entry K V) → Entry K V → Bool) : Prop :=
  ∀ seen entry, fits entry → (func seen entry = true ↔ entry.hash = hash)

/-- A removal is at a slot up to the place or behind it, a reader behind the place has missed. -/
def Walks (current : Slot) : Prop := current ∈ g.path ∪ g.far

def Reads (current : Slot) : Prop :=
  ¬ g.owes ∧ (current ∈ g.path ∨ current ∈ g.far ∧ g.missed)

def Starts : SharedList.Call (Entry K V) → Prop
  | .push data => headSlot ∈ g.path ∧ own = some data ∧ data.hash = hash
  | .search func => g.Reads headSlot ∧ Decides hash fits func
  | .removeCount func _ => headSlot ∈ g.path ∧ own ≠ none ∧ Decides hash fits func
  | .any func => g.Reads headSlot ∧ Decides hash fits fun _ => func
  | _ => False

def Arrives (inner : SharedList.Call (Entry K V)) : SharedList.Label (Entry K V) → Prop
  | .pushWalk order data current => order = orderFn ∧ inner = .push data ∧ current ∈ g.path ∧
      own = some data ∧ data.hash = hash
  | .removeCount func _ current _ _ => g.Walks current ∧ own ≠ none ∧ Decides hash fits func ∧
      ∃ first count, inner = .removeCount first count
  | .search func _ current => inner = .search func ∧ g.Reads current ∧ Decides hash fits func
  | .any func current => inner = .any func ∧ g.Reads current ∧ Decides hash fits fun _ => func

def Finishes : SharedList.Call (Entry K V) → SharedList.Reply (Entry K V) → Prop
  | .push _, .unit => ¬ g.owes
  | .removeCount _ _, .removed _ => own ≠ none
  | .search _, .found none => ¬ g.owes ∧ g.missed
  | .search _, .found (some (_, entry)) => ¬ g.owes ∧ entry ∈ g.reads
  | .any _, .bool answer => ¬ g.owes ∧ (answer = false → g.missed)
  | _, _ => False

end Rules

end Overwriting

/-- The protocol of the calls to the bucket of a key that is overwritten. -/
def overwriting (hash : UInt64) (fits : Entry K V → Prop) (own : Option (Entry K V)) :
    Protocol (Bucket K V) (Overwriting K V) where
  rest := .start False
  start inner g := g.Starts hash fits own inner
  may _ g := g.May hash fits own
  move _ g := g.Move hash fits
  fail _ _ := True
  arrive inner label g := g.Arrives hash fits own inner label
  leave inner label g := g.Arrives hash fits own inner label
  finish inner reply g := g.Finishes own inner reply

section Code

variable {hash : UInt64} {fits : Entry K V → Prop} {own : Option (Entry K V)}
  {inner : SharedList.Call (Entry K V)} {g : Overwriting K V}

@[simp] theorem overwriting_may {instr : SharedList.Instr (Entry K V)} :
    (overwriting hash fits own).may inner g instr ↔ g.May hash fits own instr := Iff.rfl

@[simp] theorem overwriting_move {instr : SharedList.Instr (Entry K V)} {answer : instr.Answer}
    {g' : Overwriting K V} :
    (overwriting hash fits own).move inner g instr answer g' ↔ g.Move hash fits instr answer g' :=
  Iff.rfl

@[simp] theorem overwriting_fail : (overwriting hash fits own).fail inner g ↔ True := Iff.rfl

@[simp] theorem overwriting_arrive {label : SharedList.Label (Entry K V)} :
    (overwriting hash fits own).arrive inner label g ↔ g.Arrives hash fits own inner label := Iff.rfl

@[simp] theorem overwriting_finish {result : SharedList.Reply (Entry K V)} :
    (overwriting hash fits own).finish inner result g ↔ g.Finishes own inner result := Iff.rfl

/-! ### What a thread has learned it does not forget -/

namespace Overwriting

variable {g' g'' : Overwriting K V} {slot : Slot} {content : Option (Node (Entry K V))}
  {node : Node (Entry K V)}

structure Remembers (g g' : Overwriting K V) : Prop where
  path : g.path ⊆ g'.path
  here : g.here ⊆ g'.here
  far : g.far ⊆ g'.far
  deep : g.deep ⊆ g'.deep
  owes : g'.owes → g.owes
  missed : g.missed → g'.missed

theorem Remembers.trans (hfirst : g.Remembers g') (hsecond : g'.Remembers g'') : g.Remembers g'' where
  path := hfirst.path.trans hsecond.path
  here := hfirst.here.trans hsecond.here
  far := hfirst.far.trans hsecond.far
  deep := hfirst.deep.trans hsecond.deep
  owes howes := hfirst.owes (hsecond.owes howes)
  missed hmissed := hsecond.missed (hfirst.missed hmissed)

theorem remembers_see : g.Remembers (g.see hash slot content) where
  path := Set.subset_union_left
  here := Set.subset_union_left
  far := Set.subset_union_left
  deep := Set.subset_union_left
  owes howes := howes.1
  missed := Or.inl

/-- What is read in the place may stand there. -/
theorem good_see (hlearns : g.Learns hash fits slot content) (hcontent : ¬ Precedes hash content) :
    (g.see hash slot content).Good hash fits own content := by
  intro node hnode
  have hfits := hlearns.fits node.data (mem_dataOf.mpr ⟨node, hnode, rfl⟩)
  by_cases heq : node.data.hash = hash
  · refine .inl ⟨heq, .inl (.inr ⟨?_, heq⟩), .inr ⟨node, hnode, heq, rfl⟩⟩
    exact mem_dataOf.mpr ⟨node, hnode, rfl⟩
  · have hle : ¬ node.data.hash < hash := fun hlt => hcontent ⟨node, hnode, hlt⟩
    have hgt : hash < node.data.hash :=
      UInt64.lt_of_le_of_ne (UInt64.not_lt.mp hle) (Ne.symm heq)
    exact .inr ⟨hgt, hfits, .inr ⟨node, hnode, hgt, rfl⟩⟩

/-- Nothing precedes the place, so an empty slot on the path is the place. -/
theorem see_none (hslot : slot ∈ g.path) :
    slot ∈ (g.see hash slot none).here ∧ (g.see hash slot none).missed := by
  refine ⟨.inr ⟨hslot, ?_, rfl⟩, .inr ⟨hslot, ?_⟩⟩
  · rintro ⟨node, ⟨⟩, -⟩
  · rintro node ⟨⟩

/-- Where a thread is that has read a node. -/
inductive Meets (hash : UInt64) (g g' : Overwriting K V) (slot : Slot) (node : Node (Entry K V)) : Prop
  | before : node.data.hash < hash → node.next ∈ g'.path → Meets hash g g' slot node
  | place : node.data.hash = hash → slot ∈ g'.here → node.next ∈ g'.deep → node.data ∈ g'.reads →
      ¬ g'.owes → Meets hash g g' slot node
  | behind : hash < node.data.hash → node.next ∈ g'.far →
      (slot ∈ g.path → slot ∈ g'.here ∧ g'.missed) → Meets hash g g' slot node

theorem see_meets (hslot : g.Walks slot) (hlearns : g.Learns hash fits slot (some node)) :
    g.Meets hash (g.see hash slot (some node)) slot node := by
  by_cases hgt : hash < node.data.hash
  · refine .behind hgt (.inr ⟨node, rfl, hgt, rfl⟩) fun hpath => ⟨.inr ⟨hpath, ?_, rfl⟩, .inr ⟨hpath, ?_⟩⟩
    · rintro ⟨_, ⟨⟩, hlt⟩
      exact UInt64.lt_asymm hgt hlt
    · rintro _ ⟨⟩
      exact hgt
  · have hpath : slot ∈ g.path := hslot.resolve_right fun hfar => hgt (hlearns.far hfar node rfl)
    by_cases heq : node.data.hash = hash
    · refine .place heq (.inr ⟨hpath, ?_, rfl⟩) (.inr ⟨node, rfl, heq, rfl⟩)
        (.inr ⟨List.mem_cons_self, heq⟩) fun howes => howes.2 ⟨hpath, node, rfl, heq⟩
      rintro ⟨_, ⟨⟩, hlt⟩
      exact UInt64.lt_irrefl _ (heq ▸ hlt)
    · have hlt : node.data.hash < hash := UInt64.lt_of_le_of_ne (UInt64.not_lt.mp hgt) heq
      exact .before hlt (.inr ⟨hpath, node, rfl, hlt, rfl⟩)

theorem Meets.of_remembers (hmeets : g'.Meets hash g'' slot node) (hpath : g.path ⊆ g'.path) :
    g.Meets hash g'' slot node := by
  cases hmeets with
  | before hlt hnext => exact .before hlt hnext
  | place heq hhere hnext hread howes => exact .place heq hhere hnext hread howes
  | behind hgt hnext hmissed => exact .behind hgt hnext fun hslot => hmissed (hpath hslot)

theorem Meets.ne_or_place (hmeets : g.Meets hash g' slot node) : node.data.hash ≠ hash ∨
    node.data.hash = hash ∧ slot ∈ g'.here ∧ node.next ∈ g'.deep ∧ node.data ∈ g'.reads ∧
      ¬ g'.owes := by
  cases hmeets with
  | before hlt hnext => exact .inl (UInt64.ne_of_lt hlt)
  | place heq hhere hnext hread howes => exact .inr ⟨heq, hhere, hnext, hread, howes⟩
  | behind hgt hnext hmissed => exact .inl (UInt64.ne_of_lt hgt).symm

/-- A removal goes on behind an entry for another key. -/
theorem Meets.walks (hmeets : g.Meets hash g' slot node) (hne : node.data.hash ≠ hash) :
    g'.Walks node.next := by
  cases hmeets with
  | before hlt hnext => exact .inl hnext
  | place heq => exact absurd heq hne
  | behind hgt hnext hmissed => exact .inr hnext

/-- A reader goes on behind an entry for another key. -/
theorem Meets.reads (hmeets : g.Meets hash g' slot node) (hremembers : g.Remembers g')
    (hreads : g.Reads slot) (hne : node.data.hash ≠ hash) : g'.Reads node.next := by
  obtain ⟨howes, hslot⟩ := hreads
  refine ⟨fun h => howes (hremembers.owes h), ?_⟩
  cases hmeets with
  | before hlt hnext => exact .inl hnext
  | place heq => exact absurd heq hne
  | behind hgt hnext hmissed =>
      refine .inr ⟨hnext, ?_⟩
      rcases hslot with hpath | ⟨-, hold⟩
      · exact (hmissed hpath).2
      · exact hremembers.missed hold

theorem Remembers.walks (hremembers : g.Remembers g') (hslot : g.Walks slot) : g'.Walks slot :=
  Set.union_subset_union hremembers.path hremembers.far hslot

end Overwriting

/-! ### The code -/

section Reads

variable {R : Type} {slot : Slot}

theorem overwriting_load {next : Option (Node (Entry K V)) → (Bucket K V).Code}
    (hslot : slot ∈ g.path ∪ g.far ∪ g.deep)
    (hnext : ∀ content, g.Learns hash fits slot content →
      (overwriting hash fits own).Obeys inner (next content) (g.see hash slot content)) :
    (overwriting hash fits own).Obeys inner (no_index (.op (.cow (.load slot)) next)) g := by
  refine ⟨hslot, ?_⟩
  rintro content _ ⟨rfl, hlearns⟩
  exact hnext content hlearns

theorem overwriting_awaitImm {next : Unit → (Bucket K V).Code}
    (hnext : (overwriting hash fits own).Obeys inner (next ()) g) :
    (overwriting hash fits own).Obeys inner (no_index (.op (.cow (.awaitImm slot)) next)) g := by
  refine ⟨trivial, fun _ g' hmove => ?_⟩
  rw [show g' = g from hmove]
  exact hnext

theorem overwriting_isNull {next : Bool → (Bucket K V).Code} (hslot : g.Walks slot)
    (hnull : ∀ g' : Overwriting K V, g.Remembers g' → (slot ∈ g.path → slot ∈ g'.here ∧ g'.missed) →
      (overwriting hash fits own).Obeys inner (next true) g')
    (hsome : ∀ g' : Overwriting K V, g.Remembers g' →
      (overwriting hash fits own).Obeys inner (next false) g') :
    (overwriting hash fits own).Obeys inner ((cow (link slot).isNull).bind next) g := by
  rw [isNull_bind]
  refine overwriting_awaitImm (overwriting_load (.inl hslot) fun content hlearns => ?_)
  cases content with
  | none => exact hnull _ Overwriting.remembers_see Overwriting.see_none
  | some node => exact hsome _ Overwriting.remembers_see

theorem overwriting_getRef {found : Node (Entry K V) → (Bucket K V).Code} (hslot : g.Walks slot)
    (hfound : ∀ node (g' : Overwriting K V), g.Remembers g' → fits node.data →
      g.Meets hash g' slot node → (overwriting hash fits own).Obeys inner (found node) g') :
    (overwriting hash fits own).Obeys inner
      ((cow (link slot).getRef).bind fun data => (unwrap data).bind found) g := by
  rw [getRef_bind]
  refine overwriting_awaitImm (overwriting_load (.inl hslot) fun content _ => ?_)
  cases content with
  | none => trivial
  | some first =>
      have hfirst : g.Remembers (g.see hash slot (some first)) := Overwriting.remembers_see
      have hwalks := hfirst.walks hslot
      refine ⟨.inl hwalks, ?_⟩
      rintro content _ ⟨rfl, hlearns⟩
      cases content with
      | none => trivial
      | some node =>
          exact hfound node _ (hfirst.trans Overwriting.remembers_see)
            (hlearns.fits _ List.mem_cons_self)
            ((Overwriting.see_meets hwalks hlearns).of_remembers hfirst.path)

end Reads

section Push

variable {data : Entry K V} {slot : Slot}

@[simp] theorem Overwriting.grow_here : (g.grow slot).here = g.here := rfl

/-- The new entry may stand in the place. -/
theorem Overwriting.good_own (hhash : data.hash = hash) (g : Overwriting K V) (next : Slot) :
    (g.grow next).Good hash fits (some data) (some { data := data, next := next }) := by
  rintro _ ⟨⟩
  exact .inl ⟨hhash, .inr rfl, .inl rfl⟩

/-- A push ends with the store of its entry in front of a copy of what was there. -/
theorem overwriting_insert {content : Option (Node (Entry K V))} (hhash : data.hash = hash)
    (hhere : slot ∈ g.here) (hgood : g.Good hash fits none content) :
    (overwriting hash fits (some data)).Obeys (.push data)
      (.op (.cow (.alloc content)) fun next =>
        .op (.cow (.store slot (some { data := data, next := next }))) fun _ =>
        .op (.cow (.releaseMut slot)) fun _ => .op .fetchAddLen fun _ => SharedList.reply .unit) g := by
  refine ⟨hgood, fun next g' hmove => ?_⟩
  rw [show g' = _ from hmove]
  refine ⟨⟨hhere, Overwriting.good_own hhash g next, Option.some_ne_none data⟩, fun _ g' hmove => ?_⟩
  rw [show g' = _ from hmove]
  simp [Overwriting.May, Overwriting.Move, Overwriting.Finishes, HasHash, hhash]

theorem overwriting_pushHead (hhash : data.hash = hash) (hpath : headSlot ∈ g.path)
    (hhere : headSlot ∈ g.here) :
    (overwriting hash fits (some data)).Obeys (.push data) (pushHead data) g := by
  refine ⟨trivial, fun _ g' hmove => ?_⟩
  rw [show g' = g from hmove]
  refine overwriting_isNull (.inl hpath) ?_ ?_
  · intro g' hremembers _
    exact overwriting_insert hhash (hremembers.here hhere) fun node hnode => by cases hnode
  · intro g' hremembers
    refine overwriting_load (.inl (.inl (hremembers.path hpath))) fun content hlearns => ?_
    have hcontent := hlearns.here (.inl (hremembers.here hhere))
    exact overwriting_insert hhash (.inl (hremembers.here hhere)) (Overwriting.good_see hlearns hcontent)

theorem overwriting_pushWalk (hhash : data.hash = hash) (hslot : slot ∈ g.path) :
    (overwriting hash fits (some data)).Obeys (.push data) (pushWalk orderFn data slot) g := by
  refine overwriting_isNull (.inl hslot) ?_ ?_
  · intro g' hremembers hnull
    obtain ⟨hhere, -⟩ := hnull hslot
    refine ⟨fun node hnode => (by cases hnode), fun next g'' hmove => ?_⟩
    rw [show g'' = _ from hmove]
    simp [Overwriting.May, Overwriting.Move, Overwriting.Finishes, HasHash, hhash, hhere,
      Overwriting.good_own]
  · intro g' hremembers
    refine overwriting_getRef (.inl (hremembers.path hslot)) ?_
    intro node g'' hremembers' hfits hmeets
    refine ⟨trivial, fun enforceNoneq g₁ hmove => ?_⟩
    obtain ⟨rfl, hsame⟩ : enforceNoneq = true ∧ g₁ = g'' := hmove
    rw [hsame]
    refine ⟨trivial, fun _ g₂ hmove => ?_⟩
    rw [show g₂ = g'' from hmove]
    cases hmeets with
    | before hlt hnext =>
        have horder : orderFn node.data data = .gt := orderFn_eq_gt.mpr (hhash ▸ hlt)
        simp [horder, Overwriting.May, Overwriting.Move, Overwriting.Arrives, hnext, hhash]
    | place heq hhere hnext hread howes =>
        have horder : orderFn node.data data = .eq := orderFn_eq_eq.mpr (hhash.trans heq.symm)
        simp [horder, Overwriting.May, Overwriting.Move, Overwriting.Finishes, howes]
    | behind hgt hnext hmissed =>
        have horder : orderFn node.data data = .lt := orderFn_eq_lt.mpr (hhash ▸ hgt)
        obtain ⟨hhere, -⟩ := hmissed (hremembers.path hslot)
        rw [horder]
        refine overwriting_load (.inl (.inl (hremembers'.path (hremembers.path hslot)))) ?_
        intro content hlearns
        exact overwriting_insert hhash (.inl hhere) (Overwriting.good_see hlearns (hlearns.here (.inl hhere)))

end Push

theorem overwriting_removeCountLoop {func : List (Entry K V) → Entry K V → Bool}
    (seen : List (Entry K V)) {current : Slot} (count : UInt32) (output : List (Entry K V))
    (hwalks : g.Walks current) (hown : own ≠ none) (hdecides : Overwriting.Decides hash fits func)
    (first : List (Entry K V) → Entry K V → Bool) (bound : UInt32) :
    (overwriting hash fits own).Obeys (.removeCount first bound)
      (removeCountLoop func seen current count output) g := by
  have hdone : ∀ g' : Overwriting K V, (overwriting hash fits own).Obeys (.removeCount first bound)
      (.op (.cow (.releaseMut current)) fun _ => SharedList.reply (.removed output)) g' := by
    intro g'
    simp [Overwriting.May, Overwriting.Finishes, hown]
  refine overwriting_isNull hwalks (fun g' _ _ => hdone g') fun g' hremembers => ?_
  by_cases hcount : count > 0
  · simp only [hcount, Bool.not_false, decide_true, Bool.and_self, if_true]
    have hwalks' := hremembers.walks hwalks
    refine overwriting_getRef hwalks' fun node g'' hremembers' hfits hmeets => ?_
    refine ⟨trivial, fun _ g₁ hmove => ?_⟩
    rw [show g₁ = g'' from hmove]
    have hfunc := hdecides seen node.data hfits
    rcases hmeets.ne_or_place with hne | ⟨heq, hhere, hnext, -, -⟩
    · have hfalse : func seen node.data = false := eq_false_of_ne_true fun h => hne (hfunc.mp h)
      have hnext := hmeets.walks hne
      simp [hfalse, Overwriting.May, Overwriting.Move, Overwriting.Arrives, hnext, hown, hdecides]
    · rw [hfunc.mpr heq]
      refine overwriting_load (.inr hnext) fun content hlearns => ?_
      have hcontent := hlearns.here (.inr hnext)
      refine ⟨⟨.inl hhere, Overwriting.good_see hlearns hcontent, hown⟩, fun _ g₂ hmove => ?_⟩
      rw [show g₂ = _ from hmove]
      refine ⟨trivial, fun _ g₃ hmove => ?_⟩
      rw [show g₃ = _ from hmove]
      have hback : (g''.see hash node.next content).Walks current :=
        Overwriting.remembers_see.walks (hremembers'.walks hwalks')
      exact ⟨hback, hown, hdecides, first, bound, rfl⟩
  · simp only [hcount, decide_false, Bool.and_false, Bool.false_eq_true, if_false]
    exact hdone g'

theorem overwriting_searchLoop {func : List (Entry K V) → Entry K V → Bool}
    (seen : List (Entry K V)) {current : Slot} (hreads : g.Reads current)
    (hdecides : Overwriting.Decides hash fits func) :
    (overwriting hash fits own).Obeys (.search func) (searchLoop func seen current) g := by
  obtain ⟨howes, hcurrent⟩ := hreads
  have hwalks : g.Walks current := hcurrent.imp_right And.left
  refine overwriting_isNull hwalks ?_ fun g' hremembers => ?_
  · intro g' hremembers hnull
    refine ⟨fun h => howes (hremembers.owes h), ?_⟩
    rcases hcurrent with hpath | ⟨-, hmissed⟩
    · exact (hnull hpath).2
    · exact hremembers.missed hmissed
  · refine overwriting_getRef (hremembers.walks hwalks) fun node g'' hremembers' hfits hmeets => ?_
    refine ⟨trivial, fun _ g₁ hmove => ?_⟩
    rw [show g₁ = g'' from hmove]
    have hfunc := hdecides seen node.data hfits
    rcases hmeets.ne_or_place with hne | ⟨heq, -, -, hread, howes⟩
    · have hfalse : func seen node.data = false := eq_false_of_ne_true fun h => hne (hfunc.mp h)
      have hnext := (hmeets.of_remembers hremembers.path).reads (hremembers.trans hremembers')
        ⟨‹_›, hcurrent⟩ hne
      simp [hfalse, Overwriting.Arrives, hnext, hdecides]
    · rw [hfunc.mpr heq]
      exact ⟨howes, hread⟩

theorem overwriting_anyLoop {func : Entry K V → Bool} {current : Slot} (hreads : g.Reads current)
    (hdecides : Overwriting.Decides hash fits fun _ => func) :
    (overwriting hash fits own).Obeys (.any func) (anyLoop func current) g := by
  obtain ⟨howes, hcurrent⟩ := hreads
  have hwalks : g.Walks current := hcurrent.imp_right And.left
  refine overwriting_isNull hwalks ?_ fun g' hremembers => ?_
  · intro g' hremembers hnull
    refine ⟨fun h => howes (hremembers.owes h), fun _ => ?_⟩
    rcases hcurrent with hpath | ⟨-, hmissed⟩
    · exact (hnull hpath).2
    · exact hremembers.missed hmissed
  · refine overwriting_getRef (hremembers.walks hwalks) fun node g'' hremembers' hfits hmeets => ?_
    refine ⟨trivial, fun _ g₁ hmove => ?_⟩
    rw [show g₁ = g'' from hmove]
    have hfunc : func node.data = true ↔ node.data.hash = hash := hdecides [] node.data hfits
    rcases hmeets.ne_or_place with hne | ⟨heq, -, -, -, howes⟩
    · have hfalse : func node.data = false := eq_false_of_ne_true fun h => hne (hfunc.mp h)
      have hnext := (hmeets.of_remembers hremembers.path).reads (hremembers.trans hremembers')
        ⟨‹_›, hcurrent⟩ hne
      simp [hfalse, Overwriting.Arrives, hnext, hdecides]
    · simp [hfunc.mpr heq, Overwriting.Finishes, howes]

theorem overwriting_sound (hash : UInt64) (fits : Entry K V → Prop) (own : Option (Entry K V)) :
    (overwriting hash fits own).Sound where
  enter := by
    intro inner g hstart
    cases inner with
    | push data =>
        obtain ⟨hpath, rfl, hhash⟩ := hstart
        refine overwriting_isNull (.inl hpath) ?_ fun g' hremembers => ?_
        · intro g' hremembers hnull
          exact overwriting_pushHead hhash (hremembers.path hpath) (hnull hpath).1
        · refine ⟨trivial, fun _ g'' hmove => ?_⟩
          rw [show g'' = g' from hmove]
          exact ⟨rfl, rfl, hremembers.path hpath, rfl, hhash⟩
    | removeCount func count =>
        obtain ⟨hpath, hown, hdecides⟩ := hstart
        refine ⟨trivial, fun _ g' hmove => ?_⟩
        rw [show g' = g from hmove]
        exact ⟨.inl hpath, hown, hdecides, func, count, rfl⟩
    | search func => exact ⟨rfl, hstart⟩
    | any func => exact ⟨rfl, hstart⟩
    | _ => exact hstart.elim
  body := by
    intro inner label g hleave
    cases label with
    | pushWalk order data current =>
        obtain ⟨rfl, rfl, hslot, rfl, hhash⟩ := hleave
        exact overwriting_pushWalk hhash hslot
    | removeCount func seen current count output =>
        obtain ⟨hwalks, hown, hdecides, first, bound, rfl⟩ := hleave
        exact overwriting_removeCountLoop seen count output hwalks hown hdecides first bound
    | search func seen current =>
        obtain ⟨rfl, hreads, hdecides⟩ := hleave
        exact overwriting_searchLoop seen hreads hdecides
    | any func current =>
        obtain ⟨rfl, hreads, hdecides⟩ := hleave
        exact overwriting_anyLoop hreads hdecides

end Code

end Mutual.SharedMap
