import Mutual.Proof.Agreement
import Mutual.Proof.Lookups
import Mutual.Proof.Reading

/-!
# The entry settled for a key

At any moment the slots in use hold one entry for a key at most, and once there is one it can be seen
from `head`. The stores that keep this are those that put a node in front of what a slot holds, if
there is no entry for the key yet or the node is for another one, and those that overwrite an entry
for another key by what comes after it.
-/

namespace Mutual.SharedMap

open Concurrency Data SharedList

variable {K V : Type}

/-- No entry on the list has the hash, and the slot is on the list. -/
def Lacks (list : SharedList (Entry K V)) (hash : UInt64) (slot : Slot) : Prop :=
  ∃ slots xs, Chain list.heap.links (headSlot :: slots) xs ∧ slot ∈ headSlot :: slots ∧
    ∀ x ∈ xs, x.hash ≠ hash

/-- The store puts a node in front of what the slot holds, and no entry with the hash beside another
one, or it overwrites an entry with another hash by what comes after it. -/
def KeepsHash (hash : UInt64) (list : SharedList (Entry K V)) (slot : Slot)
    (content : Option (Node (Entry K V))) : Prop :=
  (∃ node, content = some node ∧ node.next ≠ slot ∧
    list.heap.inner node.next = list.heap.inner slot ∧
    (node.data.hash = hash → Lacks list hash slot)) ∨
  ∃ node, list.heap.inner slot = some node ∧ node.data.hash ≠ hash ∧
    content = list.heap.inner node.next

section Memory

variable (hashKey : K → UInt64) (key : K)

/-- An entry has the hash of its key, which no other key has than `key`. -/
def Fits [BEq K] (entry : Entry K V) : Prop :=
  entry.hash = hashKey entry.key ∧ (entry.hash = hashKey key → (entry.key == key) = true)

/-- The entry with the hash of `key`. -/
abbrev Keyed (entry : Entry K V) : Prop := entry.hash = hashKey key

variable [BEq K]

/-- `settled` is the one entry for `key` in the slots in use, and it can be seen from `head`. -/
structure Settled (list : SharedList (Entry K V)) (settled : Option (Entry K V))
    (cells : List Slot) : Prop where
  noneq : list.enforceNoneq = true
  head : headSlot ∈ cells
  allocated : ∀ slot ∈ cells, slot < list.heap.fresh
  content : ∀ slot ∈ cells, ∀ node, list.heap.inner slot = some node → node.next ∈ cells ∧
    Fits hashKey key node.data ∧ (node.data.hash = hashKey key → settled = some node.data)
  seen : settled ≠ none → Sees list.heap.links (Keyed hashKey key) headSlot

/-- What a thread knows is true. -/
structure Knows (list : SharedList (Entry K V)) (settled : Option (Entry K V)) (cells : List Slot)
    (g : Agreeing K V) : Prop where
  known : ∀ slot ∈ g.known, slot ∈ cells
  reads : ∀ entry ∈ g.reads, Fits hashKey key entry ∧
    (entry.hash = hashKey key → settled = some entry)
  seeing : ∀ slot ∈ g.seeing, slot ∈ cells ∧ Sees list.heap.links (Keyed hashKey key) slot

/-- What an edit leaves as it was: the entry stays settled and is seen from where it was. -/
structure Grows (list list' : SharedList (Entry K V)) (settled settled' : Option (Entry K V))
    (cells cells' : List Slot) : Prop where
  keeps : ∀ entry, settled = some entry → settled' = some entry
  subset : ∀ slot ∈ cells, slot ∈ cells'
  seen : ∀ slot ∈ cells, Sees list.heap.links (Keyed hashKey key) slot →
    Sees list'.heap.links (Keyed hashKey key) slot

end Memory

section Edits

variable [BEq K] {hashKey : K → UInt64} {key : K} {list list' : SharedList (Entry K V)}
  {settled settled' : Option (Entry K V)} {cells cells' : List Slot} {g : Agreeing K V}

theorem Knows.mono (hknows : Knows hashKey key list settled cells g)
    (hgrows : Grows hashKey key list list' settled settled' cells cells') :
    Knows hashKey key list' settled' cells' g where
  known slot hslot := hgrows.subset slot (hknows.known slot hslot)
  reads entry hentry := by
    obtain ⟨hfits, hsettled⟩ := hknows.reads entry hentry
    exact ⟨hfits, fun hhash => hgrows.keeps entry (hsettled hhash)⟩
  seeing slot hslot := by
    obtain ⟨hmem, hsees⟩ := hknows.seeing slot hslot
    exact ⟨hgrows.subset slot hmem, hgrows.seen slot hmem hsees⟩

namespace Settled

variable (hsettled : Settled hashKey key list settled cells)
include hsettled

/-- Only the contents of the slots matter. -/
theorem congr (hinner : list'.heap.inner = list.heap.inner)
    (hfresh : list'.heap.fresh = list.heap.fresh)
    (hnoneq : list'.enforceNoneq = list.enforceNoneq) :
    Settled hashKey key list' settled cells ∧
      Grows hashKey key list list' settled settled cells cells := by
  have hlinks : list'.heap.links = list.heap.links := Heap.links_of_inner_eq hinner
  refine ⟨⟨hnoneq.trans hsettled.noneq, hsettled.head, ?_, ?_, ?_⟩, fun _ heq => heq,
    fun _ hslot => hslot, ?_⟩
  · rw [hfresh]
    exact hsettled.allocated
  · rw [hinner]
    exact hsettled.content
  · rw [hlinks]
    exact hsettled.seen
  · rw [hlinks]
    exact fun _ _ hsees => hsees

theorem alloc (content : Option (Node (Entry K V))) (hnext : PointsTo cells content)
    (hdata : ∀ entry ∈ dataOf content, Fits hashKey key entry ∧
      (entry.hash = hashKey key → settled = some entry)) :
    let list' := { list with heap := list.heap.alloc content }
    Settled hashKey key list' settled (list.heap.fresh :: cells) ∧
      Grows hashKey key list list' settled settled cells (list.heap.fresh :: cells) := by
  intro list'
  have hne : ∀ slot ∈ cells, slot ≠ list.heap.fresh :=
    fun slot hslot => Nat.ne_of_lt (hsettled.allocated slot hslot)
  have hold : ∀ slot ∈ cells, list'.heap.inner slot = list.heap.inner slot :=
    fun slot hslot => Function.update_of_ne (hne slot hslot) ..
  have hsees : ∀ slot ∈ cells, Sees list.heap.links (Keyed hashKey key) slot →
      Sees list'.heap.links (Keyed hashKey key) slot := by
    intro slot hslot hsees
    have hcells : slot ∈ { slot | slot ∈ cells } := hslot
    refine hsees.closed hcells ?_
    intro slot x next hslot hlink
    have hinner := Heap.inner_of_links hlink
    refine ⟨(hsettled.content slot hslot _ hinner).1, ?_, fun hhash => hhash⟩
    exact Heap.links_eq_some ((hold slot hslot).trans hinner)
  refine ⟨⟨hsettled.noneq, List.mem_cons_of_mem _ hsettled.head, ?_, ?_, ?_⟩, fun _ heq => heq,
    fun _ hslot => List.mem_cons_of_mem _ hslot, hsees⟩
  · intro slot hslot
    change slot < list.heap.fresh + 1
    rcases List.mem_cons.mp hslot with rfl | hslot
    · exact Nat.lt_succ_self _
    · exact Nat.lt_succ_of_lt (hsettled.allocated slot hslot)
  · intro slot hslot node hnode
    rcases List.mem_cons.mp hslot with rfl | hslot
    · change Function.update list.heap.inner list.heap.fresh content list.heap.fresh = _ at hnode
      rw [Function.update_self] at hnode
      obtain ⟨hfits, hsome⟩ := hdata node.data (mem_dataOf.mpr ⟨node, hnode, rfl⟩)
      exact ⟨List.mem_cons_of_mem _ (hnext node hnode), hfits, hsome⟩
    · rw [hold slot hslot] at hnode
      obtain ⟨hmem, hfits, hsome⟩ := hsettled.content slot hslot node hnode
      exact ⟨List.mem_cons_of_mem _ hmem, hfits, hsome⟩
  · exact fun hne => hsees headSlot hsettled.head (hsettled.seen hne)

/-- A node is put in front of what a slot holds. -/
theorem insert (settled' : Option (Entry K V)) {slot : Slot} {node : Node (Entry K V)}
    (hnext : node.next ∈ cells) (hfits : Fits hashKey key node.data) (hne : node.next ≠ slot)
    (hcopy : list.heap.inner node.next = list.heap.inner slot)
    (hkeeps : ∀ entry, settled = some entry → settled' = some entry)
    (hown : node.data.hash = hashKey key → settled' = some node.data)
    (hreaches : settled' ≠ none → settled = none →
      node.data.hash = hashKey key ∧ Reaches list.heap.links headSlot slot) :
    let list' := { list with heap := list.heap.setInner slot (some node) }
    Settled hashKey key list' settled' cells ∧
      Grows hashKey key list list' settled settled' cells cells := by
  intro list'
  have hlinks : list'.heap.links =
      Function.update list.heap.links slot (some (node.data, node.next)) := Heap.links_setInner _
  have hsees : ∀ other, Sees list.heap.links (Keyed hashKey key) other →
      Sees list'.heap.links (Keyed hashKey key) other := by
    intro other hsees
    rw [hlinks]
    exact hsees.insert hne (Heap.links_congr hcopy) node.data
  refine ⟨⟨hsettled.noneq, hsettled.head, hsettled.allocated, ?_, ?_⟩, hkeeps, fun _ hmem => hmem,
    fun other _ => hsees other⟩
  · intro other hother node' hnode
    change Function.update list.heap.inner slot (some node) other = _ at hnode
    by_cases heq : other = slot
    · rw [heq, Function.update_self] at hnode
      cases hnode
      exact ⟨hnext, hfits, hown⟩
    · rw [Function.update_of_ne heq] at hnode
      obtain ⟨hmem, hfits, hsome⟩ := hsettled.content other hother node' hnode
      exact ⟨hmem, hfits, fun hhash => hkeeps _ (hsome hhash)⟩
  · intro hsome
    cases hold : settled with
    | some entry => exact hsees headSlot (hsettled.seen (by rw [hold]; exact Option.some_ne_none _))
    | none =>
        obtain ⟨hhash, hreaches⟩ := hreaches hsome hold
        rw [hlinks]
        exact Sees.of_store hreaches hhash

/-- An entry with another hash is overwritten by what comes after it. -/
theorem remove {slot : Slot} {node : Node (Entry K V)} (hslot : slot ∈ cells)
    (hnode : list.heap.inner slot = some node) (hhash : node.data.hash ≠ hashKey key) :
    let list' := { list with heap := list.heap.setInner slot (list.heap.inner node.next) }
    Settled hashKey key list' settled cells ∧
      Grows hashKey key list list' settled settled cells cells := by
  intro list'
  have hlinks : list'.heap.links =
      Function.update list.heap.links slot (list.heap.links node.next) := Heap.links_copy _
  have hsees : ∀ other, Sees list.heap.links (Keyed hashKey key) other →
      Sees list'.heap.links (Keyed hashKey key) other := by
    intro other hsees
    rw [hlinks]
    exact hsees.remove (Heap.links_eq_some hnode) hhash
  refine ⟨⟨hsettled.noneq, hsettled.head, hsettled.allocated, ?_, ?_⟩, fun _ heq => heq,
    fun _ hmem => hmem, fun other _ => hsees other⟩
  · intro other hother node' hnode'
    change Function.update list.heap.inner slot (list.heap.inner node.next) other = _ at hnode'
    by_cases heq : other = slot
    · rw [heq, Function.update_self] at hnode'
      exact hsettled.content node.next (hsettled.content slot hslot node hnode).1 node' hnode'
    · rw [Function.update_of_ne heq] at hnode'
      exact hsettled.content other hother node' hnode'
  · exact fun hne => hsees headSlot (hsettled.seen hne)

theorem lacks {slot : Slot} (hlacks : Lacks list (hashKey key) slot) :
    settled = none ∧ Reaches list.heap.links headSlot slot := by
  obtain ⟨slots, xs, hchain, hslot, hother⟩ := hlacks
  refine ⟨?_, hchain.reaches hslot⟩
  by_contra hne
  obtain ⟨x, hmem, hhash⟩ := (hsettled.seen hne).exists_mem_chain hchain
  exact hother x hmem hhash

/-- **A store.** The entry stays settled, or the first one is settled. -/
theorem store {slot : Slot} {content : Option (Node (Entry K V))} (hslot : slot ∈ cells)
    (hnext : PointsTo cells content) (hfits : ∀ entry ∈ dataOf content, Fits hashKey key entry)
    (hstore : KeepsHash (hashKey key) list slot content) :
    let list' := { list with heap := list.heap.setInner slot content }
    ∃ settled', Settled hashKey key list' settled' cells ∧
      Grows hashKey key list list' settled settled' cells cells ∧
      (∀ entry ∈ dataOf content, entry.hash = hashKey key → settled' = some entry) ∧
      (settled' = settled ∨ ∃ entry ∈ dataOf content, entry.hash = hashKey key ∧ settled = none ∧
        settled' = some entry) := by
  intro list'
  rcases hstore with ⟨node, rfl, hne, hcopy, hlacks⟩ | ⟨node, hnode, hhash, rfl⟩
  · have hnext : node.next ∈ cells := pointsTo_some.mp hnext
    have hfits : Fits hashKey key node.data := hfits _ List.mem_cons_self
    by_cases hhash : node.data.hash = hashKey key
    · obtain ⟨hnone, hreaches⟩ := hsettled.lacks (hlacks hhash)
      obtain ⟨hnew, hgrows⟩ := hsettled.insert (some node.data) hnext hfits hne
        hcopy (by simp [hnone]) (fun _ => rfl) fun _ _ => ⟨hhash, hreaches⟩
      exact ⟨_, hnew, hgrows, by simp, .inr ⟨node.data, by simp, hhash, hnone, rfl⟩⟩
    · obtain ⟨hnew, hgrows⟩ := hsettled.insert settled hnext hfits hne hcopy
        (fun _ heq => heq) (fun heq => absurd heq hhash) fun hsome hnone => absurd hnone hsome
      exact ⟨_, hnew, hgrows, by simp [hhash], .inl rfl⟩
  · obtain ⟨hnew, hgrows⟩ := hsettled.remove hslot hnode hhash
    refine ⟨_, hnew, hgrows, ?_, .inl rfl⟩
    intro entry hentry hhash
    obtain ⟨after, hafter, rfl⟩ := mem_dataOf.mp hentry
    have hmem := (hsettled.content slot hslot node hnode).1
    exact (hsettled.content node.next hmem after hafter).2.2 hhash

/-- What a thread reads is true, and it finds something where the entry is seen from. -/
theorem see {slot : Slot} (hknows : Knows hashKey key list settled cells g) (hslot : slot ∈ g.known)
    (full : Option Slot) :
    Knows hashKey key list settled cells (g.see (hashKey key) slot (list.heap.inner slot) full) := by
  have hcell := hknows.known slot hslot
  refine ⟨?_, ?_, ?_⟩
  · intro next hnext
    rcases List.mem_append.mp hnext with hnew | hold
    · obtain ⟨node, hnode, rfl⟩ := mem_nextOf.mp hnew
      exact (hsettled.content slot hcell node hnode).1
    · exact hknows.known next hold
  · intro entry hentry
    rcases List.mem_append.mp hentry with hnew | hold
    · obtain ⟨node, hnode, rfl⟩ := mem_dataOf.mp hnew
      exact (hsettled.content slot hcell node hnode).2
    · exact hknows.reads entry hold
  · intro next hnext
    rcases List.mem_append.mp hnext with hnew | hold
    · cases hnode : list.heap.inner slot with
      | none =>
          rw [hnode] at hnew
          cases hnew
      | some node =>
          rw [hnode, Agreeing.look] at hnew
          split at hnew
          · rename_i hsees
            obtain ⟨hseeing, hhash⟩ := hsees
            rw [List.mem_singleton.mp hnew]
            refine ⟨(hsettled.content slot hcell node hnode).1, ?_⟩
            obtain ⟨x, next', hlink, hrest⟩ := (hknows.seeing slot hseeing).2.cases_at
            rw [Heap.links_eq_some hnode] at hlink
            cases hlink
            exact hrest.resolve_left hhash
          · cases hnew
    · exact hknows.seeing next hold

theorem learns {slot : Slot} {strict : Prop} {seen : Option Slot}
    (hknows : Knows hashKey key list settled cells g) (hslot : slot ∈ g.known)
    (hfull : g.full = some slot → seen = some slot)
    (hagain : strict → seen = some slot → (list.heap.inner slot).isSome = true) :
    g.Learns (Fits hashKey key) strict slot (list.heap.inner slot) where
  fits entry hentry := by
    obtain ⟨node, hnode, rfl⟩ := mem_dataOf.mp hentry
    exact (hsettled.content slot (hknows.known slot hslot) node hnode).2.1
  seen hseeing hnone := by
    obtain ⟨x, next, hlink, -⟩ := (hknows.seeing slot hseeing).2.cases_at
    rw [Heap.links_eq_none hnone] at hlink
    cases hlink
  again hstrict hslot hnone := by
    have hsome := hagain hstrict (hfull hslot)
    rw [hnone] at hsome
    cases hsome

end Settled

/-! ### One instruction -/

/-- What an instruction makes of what is settled and of what its thread knows. -/
structure Advances (hashKey : K → UInt64) (key : K) (own : Option (Entry K V))
    (list list' : SharedList (Entry K V)) (settled settled' : Option (Entry K V))
    (cells cells' : List Slot) (g g' : Agreeing K V) : Prop where
  memory : Settled hashKey key list' settled' cells'
  grows : Grows hashKey key list list' settled settled' cells cells'
  knows : Knows hashKey key list' settled' cells' g'
  seeing : g.seeing ≠ [] → g'.seeing ≠ []
  origin : settled' = settled ∨ settled = none ∧ ∃ entry, own = some entry ∧
    entry.hash = hashKey key ∧ settled' = some entry

theorem Settled.stays {own : Option (Entry K V)} (hsettled : Settled hashKey key list settled cells)
    (hknows : Knows hashKey key list settled cells g) (hinner : list'.heap.inner = list.heap.inner)
    (hfresh : list'.heap.fresh = list.heap.fresh)
    (hnoneq : list'.enforceNoneq = list.enforceNoneq) :
    Advances hashKey key own list list' settled settled cells cells g g := by
  obtain ⟨hmemory, hgrows⟩ := hsettled.congr hinner hfresh hnoneq
  exact ⟨hmemory, hgrows, hknows.mono hgrows, fun hne => hne, .inl rfl⟩

theorem Settled.reads {own : Option (Entry K V)} {slot : Slot}
    (hsettled : Settled hashKey key list settled cells)
    (hknows : Knows hashKey key list settled cells g) (hslot : slot ∈ g.known)
    (full : Option Slot) :
    Advances hashKey key own list list settled settled cells cells g
      (g.see (hashKey key) slot (list.heap.inner slot) full) := by
  refine ⟨hsettled, ⟨fun _ heq => heq, fun _ hmem => hmem, fun _ _ hsees => hsees⟩,
    hsettled.see hknows hslot full, ?_, .inl rfl⟩
  intro hne hnil
  exact hne (List.append_eq_nil_iff.mp hnil).2

theorem Settled.allocs {own : Option (Entry K V)} {content : Option (Node (Entry K V))}
    (hsettled : Settled hashKey key list settled cells)
    (hknows : Knows hashKey key list settled cells g) (hmay : g.May own (.cow (.alloc content))) :
    Advances hashKey key own list { list with heap := list.heap.alloc content } settled settled cells
      (list.heap.fresh :: cells) g { g with known := list.heap.fresh :: g.known } := by
  obtain ⟨hnext, hdata⟩ := hmay
  obtain ⟨hmemory, hgrows⟩ := hsettled.alloc content
    (fun node hnode => hknows.known _ (hnext node hnode))
    (fun entry hentry => hknows.reads entry (hdata entry hentry))
  have hknows' := hknows.mono hgrows
  refine ⟨hmemory, hgrows, ⟨?_, hknows'.reads, hknows'.seeing⟩, fun hne => hne, .inl rfl⟩
  intro slot hslot
  rcases List.mem_cons.mp hslot with rfl | hold
  · exact List.mem_cons_self
  · exact hknows'.known slot hold

/-- What the store settles is the entry the thread has brought: it has read no other. -/
theorem Settled.stores {own : Option (Entry K V)} {slot : Slot} {content : Option (Node (Entry K V))}
    (hsettled : Settled hashKey key list settled cells)
    (hknows : Knows hashKey key list settled cells g)
    (hown : ∀ entry, own = some entry → Fits hashKey key entry)
    (hmay : g.May own (.cow (.store slot content)))
    (hstore : KeepsHash (hashKey key) list slot content) :
    ∃ settled', Advances hashKey key own list { list with heap := list.heap.setInner slot content }
      settled settled' cells cells g { g with reads := dataOf content ++ g.reads } := by
  obtain ⟨hslot, hnext, hdata⟩ := hmay
  have hfits : ∀ entry ∈ dataOf content, Fits hashKey key entry := by
    intro entry hentry
    rcases hdata entry hentry with hread | hmine
    · exact (hknows.reads entry hread).1
    · exact hown entry hmine
  obtain ⟨settled', hmemory, hgrows, hsome, horigin⟩ := hsettled.store
    (hknows.known slot hslot) (fun node hnode => hknows.known _ (hnext node hnode)) hfits hstore
  have hknows' := hknows.mono hgrows
  refine ⟨settled', hmemory, hgrows, ⟨hknows'.known, ?_, hknows'.seeing⟩, fun hne => hne, ?_⟩
  · intro entry hentry
    rcases List.mem_append.mp hentry with hnew | hold
    · exact ⟨hfits entry hnew, hsome entry hnew⟩
    · exact hknows'.reads entry hold
  · refine horigin.imp_right ?_
    rintro ⟨entry, hentry, hhash, hnone, hsettled'⟩
    refine ⟨hnone, entry, (hdata entry hentry).resolve_left ?_, hhash, hsettled'⟩
    intro hread
    have hheld := (hknows.reads entry hread).2 hhash
    rw [hnone] at hheld
    cases hheld

/-- **One instruction** that the protocol allows and that is answered. -/
theorem Settled.step {own : Option (Entry K V)} {strict : Prop} {seen : Option Slot}
    (hsettled : Settled hashKey key list settled cells)
    (hknows : Knows hashKey key list settled cells g)
    (hfull : ∀ slot, g.full = some slot → seen = some slot)
    (hown : ∀ entry, own = some entry → Fits hashKey key entry)
    {instr : SharedList.Instr (Entry K V)} (hmay : g.May own instr)
    (hstore : ∀ slot content, instr = .cow (.store slot content) →
      KeepsHash (hashKey key) list slot content)
    (hagain : strict → list.FoundAgain seen instr) {answer : instr.Answer}
    (hexec : SharedList.exec instr list = (list', some answer)) :
    ∃ g' settled' cells', g.Move (hashKey key) (Fits hashKey key) strict instr answer g' ∧
      Advances hashKey key own list list' settled settled' cells cells' g g' ∧
      ∀ slot, g'.full = some slot → list.sees seen instr = some slot := by
  match instr with
  | .cow (.load slot) =>
      cases hexec
      refine ⟨_, _, _, ⟨rfl, hsettled.learns hknows hmay (hfull slot) hagain⟩,
        hsettled.reads hknows hmay _, ?_⟩
      intro other hother
      cases hnode : list.heap.inner slot with
      | none =>
          rw [hnode] at hother
          cases hother
      | some node =>
          rw [hnode] at hother
          rw [SharedList.sees, hnode]
          exact hother
  | .cow (.loadFull slot) =>
      cases hexec
      refine ⟨_, _, _, ⟨rfl, hsettled.learns hknows hmay (hfull slot) hagain⟩,
        hsettled.reads hknows hmay _, ?_⟩
      rintro other ⟨⟩
  | .cow (.alloc content) =>
      cases hexec
      exact ⟨_, _, _, rfl, hsettled.allocs hknows hmay, hfull⟩
  | .cow (.store slot content) =>
      cases hexec
      obtain ⟨settled', hadvances⟩ := hsettled.stores hknows hown hmay (hstore slot content rfl)
      exact ⟨_, _, _, rfl, hadvances, hfull⟩
  | .loadNoneq =>
      cases hexec
      exact ⟨g, _, _, ⟨hsettled.noneq, rfl⟩, hsettled.stays hknows rfl rfl rfl, hfull⟩
  | .cow (.awaitImm _) | .cow (.acquireMut _) | .cow (.acquireImm _) | .cow (.releaseMut _)
  | .cow (.releaseImm _) | .fetchAddLen | .fetchSubLen | .loadLen | .callback =>
      have hlist : (SharedList.exec _ list).1 = list' := congrArg Prod.fst hexec
      subst hlist
      exact ⟨g, _, _, rfl, hsettled.stays hknows rfl rfl rfl, hfull⟩

end Edits

end Mutual.SharedMap
