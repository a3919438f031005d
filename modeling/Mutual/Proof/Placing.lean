import Mutual.Proof.Overwriting
import Mutual.Proof.Settling

/-!
# The place of a key

The slots of a bucket of which a key is overwritten: those with smaller hashes, which lead to the
place of the key, those with larger ones behind it, and those made for the rest of the list by
pushes. Only what is in the place changes.
-/

namespace Mutual.SharedMap

open Concurrency Data SharedList

variable {K V : Type}

structure Regions where
  near : Set Slot
  place : Slot
  far : Set Slot
  deep : Set Slot

namespace Regions

def grow (r : Regions) (slot : Slot) : Regions := { r with deep := {slot} ∪ r.deep }

/-- The other regions stay as they are. -/
structure Grows (r r' : Regions) : Prop where
  near : r'.near = r.near
  place : r'.place = r.place
  far : r'.far = r.far
  deep : r.deep ⊆ r'.deep

theorem Grows.refl (r : Regions) : r.Grows r := ⟨rfl, rfl, rfl, subset_rfl⟩

theorem grows_grow (r : Regions) (slot : Slot) : r.Grows (r.grow slot) :=
  ⟨rfl, rfl, rfl, Set.subset_union_right⟩

end Regions

section Memory

variable [BEq K] (hashKey : K → UInt64) (key : K) (allowed : Set (Entry K V))

/-- What may be found in the place and in the slots pushes make. `allowed` says which entries for the
key there may be. -/
def Stands (r : Regions) (content : Option (Node (Entry K V))) : Prop :=
  ∀ node, content = some node → Fits hashKey key node.data ∧
    (node.data.hash = hashKey key ∧ node.data ∈ allowed ∧ node.next ∈ r.deep ∨
      hashKey key < node.data.hash ∧ node.next ∈ r.far)

structure Placed (r : Regions) (list : SharedList (Entry K V)) : Prop where
  noneq : list.enforceNoneq = true
  head : headSlot = r.place ∨ headSlot ∈ r.near
  near : ∀ slot ∈ r.near, ∃ node, list.heap.inner slot = some node ∧
    node.data.hash < hashKey key ∧ Fits hashKey key node.data ∧
    (node.next = r.place ∨ node.next ∈ r.near)
  far : ∀ slot ∈ r.far, ∀ node, list.heap.inner slot = some node →
    Fits hashKey key node.data ∧ hashKey key < node.data.hash ∧ node.next ∈ r.far
  deep : ∀ slot, slot = r.place ∨ slot ∈ r.deep →
    Stands hashKey key allowed r (list.heap.inner slot)
  apart : r.place ∉ r.far
  allocated : ∀ slot, slot = r.place ∨ slot ∈ r.near ∨ slot ∈ r.far ∨ slot ∈ r.deep →
    slot < list.heap.fresh

/-- What a thread knows of the bucket is true. -/
structure Overwriting.Knows (r : Regions) (g : Overwriting K V) : Prop where
  path : ∀ slot ∈ g.path, slot = r.place ∨ slot ∈ r.near
  here : ∀ slot ∈ g.here, slot = r.place
  far : ∀ slot ∈ g.far, slot ∈ r.far
  deep : ∀ slot ∈ g.deep, slot ∈ r.deep
  reads : ∀ entry ∈ g.reads, Fits hashKey key entry ∧ entry.hash = hashKey key ∧ entry ∈ allowed

end Memory

section Steps

variable [BEq K] {hashKey : K → UInt64} {key : K} {allowed allowed' : Set (Entry K V)}
  {list list' : SharedList (Entry K V)} {r r' : Regions} {g : Overwriting K V}
  {content : Option (Node (Entry K V))} {slot : Slot}

theorem Stands.mono (hstands : Stands hashKey key allowed r content) (hallowed : allowed ⊆ allowed')
    (hgrows : r.Grows r') : Stands hashKey key allowed' r' content := by
  intro node hnode
  obtain ⟨hfits, ⟨hhash, hmem, hnext⟩ | ⟨hgt, hnext⟩⟩ := hstands node hnode
  · exact ⟨hfits, .inl ⟨hhash, hallowed hmem, hgrows.deep hnext⟩⟩
  · exact ⟨hfits, .inr ⟨hgt, hgrows.far ▸ hnext⟩⟩

theorem Stands.not_precedes (hstands : Stands hashKey key allowed r content) :
    ¬ Precedes (hashKey key) content := by
  rintro ⟨node, hnode, hlt⟩
  obtain ⟨-, ⟨heq, -⟩ | ⟨hgt, -⟩⟩ := hstands node hnode
  · exact UInt64.ne_of_lt hlt heq
  · exact UInt64.lt_asymm hlt hgt

theorem Placed.mono (hplaced : Placed hashKey key allowed r list) (hallowed : allowed ⊆ allowed') :
    Placed hashKey key allowed' r list :=
  { hplaced with deep := fun slot hslot => (hplaced.deep slot hslot).mono hallowed (.refl r) }

namespace Overwriting.Knows

variable (hknows : g.Knows hashKey key allowed r)
include hknows

theorem mono (hallowed : allowed ⊆ allowed') (hgrows : r.Grows r') :
    g.Knows hashKey key allowed' r' where
  path := by
    rw [hgrows.place, hgrows.near]
    exact hknows.path
  here := by
    rw [hgrows.place]
    exact hknows.here
  far := by
    rw [hgrows.far]
    exact hknows.far
  deep slot hslot := hgrows.deep (hknows.deep slot hslot)
  reads entry hentry := by
    obtain ⟨hfits, hhash, hmem⟩ := hknows.reads entry hentry
    exact ⟨hfits, hhash, hallowed hmem⟩

/-- What a thread takes for good may stand in the place. -/
theorem stands {own : Option (Entry K V)}
    (hown : ∀ entry, own = some entry → Fits hashKey key entry ∧ entry ∈ allowed)
    (hgood : g.Good (hashKey key) (Fits hashKey key) own content) :
    Stands hashKey key allowed r content := by
  intro node hnode
  rcases hgood node hnode with ⟨hhash, hread | hmine, hnext⟩ | ⟨hgt, hfits, hnext⟩
  · obtain ⟨hfits, -, hmem⟩ := hknows.reads _ hread
    exact ⟨hfits, .inl ⟨hhash, hmem, hknows.deep _ hnext⟩⟩
  · obtain ⟨hfits, hmem⟩ := hown _ hmine
    exact ⟨hfits, .inl ⟨hhash, hmem, hknows.deep _ hnext⟩⟩
  · exact ⟨hfits, .inr ⟨hgt, hknows.far _ hnext⟩⟩

end Overwriting.Knows

namespace Placed

variable (hplaced : Placed hashKey key allowed r list)
include hplaced

theorem congr (hinner : list'.heap.inner = list.heap.inner)
    (hfresh : list'.heap.fresh = list.heap.fresh)
    (hnoneq : list'.enforceNoneq = list.enforceNoneq) : Placed hashKey key allowed r list' := by
  obtain ⟨h1, h2, h3, h4, h5, h6, h7⟩ := hplaced
  refine ⟨hnoneq.trans h1, h2, ?_, ?_, ?_, h6, ?_⟩
  all_goals simpa only [hinner, hfresh]

theorem place_notMem_near : r.place ∉ r.near := by
  intro hmem
  obtain ⟨node, hnode, hlt, -⟩ := hplaced.near _ hmem
  exact (hplaced.deep _ (.inl rfl)).not_precedes ⟨node, hnode, hlt⟩

theorem alloc (hstands : Stands hashKey key allowed r content) :
    Placed hashKey key allowed (r.grow list.heap.fresh)
      { list with heap := list.heap.alloc content } := by
  have hold : ∀ slot, slot = r.place ∨ slot ∈ r.near ∨ slot ∈ r.far ∨ slot ∈ r.deep →
      (list.heap.alloc content).inner slot = list.heap.inner slot :=
    fun slot hslot => Function.update_of_ne (Nat.ne_of_lt (hplaced.allocated slot hslot)) ..
  have hgrows := r.grows_grow list.heap.fresh
  refine ⟨hplaced.noneq, hplaced.head, ?_, ?_, ?_, hplaced.apart, ?_⟩
  · intro slot hslot
    rw [hold slot (.inr (.inl hslot))]
    exact hplaced.near slot hslot
  · intro slot hslot
    rw [hold slot (.inr (.inr (.inl hslot)))]
    exact hplaced.far slot hslot
  · rintro slot (rfl | rfl | hslot)
    · change Stands hashKey key allowed _ ((list.heap.alloc content).inner r.place)
      rw [hold _ (.inl rfl)]
      exact (hplaced.deep _ (.inl rfl)).mono subset_rfl hgrows
    · change Stands hashKey key allowed _ (Function.update list.heap.inner _ content _)
      rw [Function.update_self]
      exact hstands.mono subset_rfl hgrows
    · rw [hold slot (.inr (.inr (.inr hslot)))]
      exact (hplaced.deep slot (.inr hslot)).mono subset_rfl hgrows
  · intro slot hslot
    change slot < list.heap.fresh + 1
    rcases hslot with hplace | hnear | hfar | rfl | hdeep
    · exact Nat.lt_succ_of_lt (hplaced.allocated slot (.inl hplace))
    · exact Nat.lt_succ_of_lt (hplaced.allocated slot (.inr (.inl hnear)))
    · exact Nat.lt_succ_of_lt (hplaced.allocated slot (.inr (.inr (.inl hfar))))
    · exact Nat.lt_succ_self _
    · exact Nat.lt_succ_of_lt (hplaced.allocated slot (.inr (.inr (.inr hdeep))))

theorem store (hstands : Stands hashKey key allowed r content) :
    Placed hashKey key allowed r { list with heap := list.heap.setInner r.place content } := by
  have hold : ∀ slot, slot ≠ r.place →
      (list.heap.setInner r.place content).inner slot = list.heap.inner slot :=
    fun slot hslot => Function.update_of_ne hslot ..
  refine ⟨hplaced.noneq, hplaced.head, ?_, ?_, ?_, hplaced.apart, hplaced.allocated⟩
  · intro slot hslot
    rw [hold slot (ne_of_mem_of_not_mem hslot hplaced.place_notMem_near)]
    exact hplaced.near slot hslot
  · intro slot hslot
    rw [hold slot (ne_of_mem_of_not_mem hslot hplaced.apart)]
    exact hplaced.far slot hslot
  · intro slot hslot
    by_cases heq : slot = r.place
    · change Stands hashKey key allowed r (Function.update list.heap.inner r.place content slot)
      rw [heq, Function.update_self]
      exact hstands
    · rw [hold slot heq]
      exact hplaced.deep slot hslot

/-- What a thread finds in the slots it knows. -/
theorem finds (hknows : g.Knows hashKey key allowed r) (hslot : slot ∈ g.path ∪ g.far ∪ g.deep)
    {node : Node (Entry K V)} (hnode : list.heap.inner slot = some node) :
    Fits hashKey key node.data ∧
      (node.data.hash < hashKey key ∧ (node.next = r.place ∨ node.next ∈ r.near) ∨
        node.data.hash = hashKey key ∧ node.data ∈ allowed ∧ node.next ∈ r.deep ∨
        hashKey key < node.data.hash ∧ node.next ∈ r.far) := by
  have hbehind : slot = r.place ∨ slot ∈ r.deep → _ := fun hslot =>
    hplaced.deep slot hslot node hnode
  rcases hslot with (hpath | hfar) | hdeep
  · rcases hknows.path slot hpath with hplace | hnear
    · exact (hbehind (.inl hplace)).imp_right .inr
    · obtain ⟨node', hnode', hlt, hfits, hnext⟩ := hplaced.near slot hnear
      rw [hnode] at hnode'
      cases hnode'
      exact ⟨hfits, .inl ⟨hlt, hnext⟩⟩
  · obtain ⟨hfits, hgt, hnext⟩ := hplaced.far slot (hknows.far slot hfar) node hnode
    exact ⟨hfits, .inr (.inr ⟨hgt, hnext⟩)⟩
  · exact (hbehind (.inr (hknows.deep slot hdeep))).imp_right .inr

theorem learns (hknows : g.Knows hashKey key allowed r) (hslot : slot ∈ g.path ∪ g.far ∪ g.deep) :
    g.Learns (hashKey key) (Fits hashKey key) slot (list.heap.inner slot) where
  fits := by
    intro entry hentry
    obtain ⟨node, hnode, rfl⟩ := mem_dataOf.mp hentry
    exact (hplaced.finds hknows hslot hnode).1
  far hfar node hnode := (hplaced.far slot (hknows.far slot hfar) node hnode).2.1
  here := by
    rintro (hhere | hdeep)
    · exact (hplaced.deep slot (.inl (hknows.here slot hhere))).not_precedes
    · exact (hplaced.deep slot (.inr (hknows.deep slot hdeep))).not_precedes

/-- On the path, a slot that does not precede the place is the place. -/
theorem eq_place (hknows : g.Knows hashKey key allowed r) (hpath : slot ∈ g.path)
    (hcontent : ¬ Precedes (hashKey key) (list.heap.inner slot)) : slot = r.place := by
  rcases hknows.path slot hpath with hplace | hnear
  · exact hplace
  · obtain ⟨node, hnode, hlt, -⟩ := hplaced.near slot hnear
    exact absurd ⟨node, hnode, hlt⟩ hcontent

theorem see (hknows : g.Knows hashKey key allowed r) (hslot : slot ∈ g.path ∪ g.far ∪ g.deep) :
    (g.see (hashKey key) slot (list.heap.inner slot)).Knows hashKey key allowed r where
  path := by
    rintro next (hold | ⟨-, node, hnode, hlt, rfl⟩)
    · exact hknows.path next hold
    · obtain ⟨-, ⟨-, hnext⟩ | ⟨heq, -⟩ | ⟨hgt, -⟩⟩ := hplaced.finds hknows hslot hnode
      · exact hnext
      · exact absurd heq (UInt64.ne_of_lt hlt)
      · exact absurd hgt (UInt64.lt_asymm hlt)
  here := by
    rintro same (hold | ⟨hpath, hcontent, rfl⟩)
    · exact hknows.here same hold
    · exact hplaced.eq_place hknows hpath hcontent
  far := by
    rintro next (hold | ⟨node, hnode, hgt, rfl⟩)
    · exact hknows.far next hold
    · obtain ⟨-, ⟨hlt, -⟩ | ⟨heq, -⟩ | ⟨-, hnext⟩⟩ := hplaced.finds hknows hslot hnode
      · exact absurd hlt (UInt64.lt_asymm hgt)
      · exact absurd heq.symm (UInt64.ne_of_lt hgt)
      · exact hnext
  deep := by
    rintro next (hold | ⟨node, hnode, heq, rfl⟩)
    · exact hknows.deep next hold
    · obtain ⟨-, ⟨hlt, -⟩ | ⟨-, -, hnext⟩ | ⟨hgt, -⟩⟩ := hplaced.finds hknows hslot hnode
      · exact absurd heq (UInt64.ne_of_lt hlt)
      · exact hnext
      · exact absurd heq.symm (UInt64.ne_of_lt hgt)
  reads := by
    rintro entry (hold | ⟨hmem, heq⟩)
    · exact hknows.reads entry hold
    · obtain ⟨node, hnode, rfl⟩ := mem_dataOf.mp hmem
      obtain ⟨hfits, ⟨hlt, -⟩ | ⟨-, hallowed, -⟩ | ⟨hgt, -⟩⟩ := hplaced.finds hknows hslot hnode
      · exact absurd heq (UInt64.ne_of_lt hlt)
      · exact ⟨hfits, heq, hallowed⟩
      · exact absurd heq.symm (UInt64.ne_of_lt hgt)

end Placed

/-- In a bucket at rest the place is where the entry is. -/
theorem Placed.of_layout {slots : List Slot} {xs₁ xs₂ : List (Entry K V)} {entry : Entry K V}
    (hlayout : list.Layout slots (xs₁ ++ entry :: xs₂)) (hnoneq : list.enforceNoneq = true)
    (hascending : Ascending (xs₁ ++ entry :: xs₂))
    (hfits : ∀ x ∈ xs₁ ++ entry :: xs₂, Fits hashKey key x) (hhash : entry.hash = hashKey key)
    (hallowed : entry ∈ allowed) :
    ∃ r, Placed hashKey key allowed r list ∧ HasHash (hashKey key) (list.heap.inner r.place) := by
  obtain ⟨-, hlarger, hsmaller⟩ := List.pairwise_append.mp hascending
  obtain ⟨near, place, after, hslots, hrest, hnear⟩ := hlayout.chain.split_at
  obtain ⟨next, keys, rfl, hplace, htail⟩ :
      ∃ next keys, after = next :: keys ∧ list.heap.links place = some (entry, next) ∧
        Chain list.heap.links (next :: keys) xs₂ := by
    match after, hrest with
    | next :: keys, hrest => exact ⟨next, keys, rfl, hrest.1, hrest.2⟩
  have hinner := Heap.inner_of_links hplace
  have hfar : ∀ slot ∈ next :: keys, ∀ node, list.heap.inner slot = some node →
      Fits hashKey key node.data ∧ hashKey key < node.data.hash ∧ node.next ∈ next :: keys := by
    intro slot hslot node hnode
    obtain ⟨hnext, hdata⟩ := htail.mem_of_link hslot (Heap.links_eq_some hnode)
    refine ⟨hfits _ (List.mem_append_right _ (List.mem_cons_of_mem _ hdata)), ?_, hnext⟩
    rw [← hhash]
    exact (List.pairwise_cons.mp hlarger).1 _ hdata
  let r : Regions :=
    { near := { slot | slot ∈ near }
      place := place
      far := { slot | slot ∈ next :: keys }
      deep := { slot | slot ∈ next :: keys } }
  refine ⟨r, ⟨hnoneq, ?_, ?_, hfar, ?_, ?_, ?_⟩, ⟨_, hinner, hhash⟩⟩
  · cases near with
    | nil =>
        cases hslots
        exact .inl rfl
    | cons first near =>
        cases hslots
        exact .inr List.mem_cons_self
  · intro slot hslot
    obtain ⟨x, target, hlink, hx, htarget⟩ := hnear slot hslot
    refine ⟨_, Heap.inner_of_links hlink, ?_, hfits _ (List.mem_append_left _ hx), htarget⟩
    rw [← hhash]
    exact hsmaller x hx entry List.mem_cons_self
  · rintro slot (rfl | hslot) node hnode
    · rw [hinner] at hnode
      cases hnode
      exact ⟨hfits entry (by simp), .inl ⟨hhash, hallowed, List.mem_cons_self⟩⟩
    · obtain ⟨hfit, hgt, hnext⟩ := hfar slot hslot node hnode
      exact ⟨hfit, .inr ⟨hgt, hnext⟩⟩
  · have hnodup := hlayout.nodup
    rw [hslots] at hnodup
    exact (List.nodup_cons.mp (List.nodup_append.mp hnodup).2.1).1
  · intro slot hslot
    refine hlayout.allocated slot ?_
    rw [hslots]
    rcases hslot with rfl | hmem | hmem | hmem
    · simp
    · exact List.mem_append_left _ hmem
    · exact List.mem_append_right _ (List.mem_cons_of_mem _ hmem)
    · exact List.mem_append_right _ (List.mem_cons_of_mem _ hmem)

/-! ### One instruction -/

/-- What an instruction makes of the place and of what its thread knows. Whoever takes the entry out
of the place owes one. -/
structure Overwrites (hashKey : K → UInt64) (key : K) (allowed : Set (Entry K V))
    (own : Option (Entry K V)) (list list' : SharedList (Entry K V)) (r r' : Regions)
    (g g' : Overwriting K V) : Prop where
  memory : Placed hashKey key allowed r' list'
  grows : r.Grows r'
  knows : g'.Knows hashKey key allowed r'
  covered : HasHash (hashKey key) (list.heap.inner r.place) ∨ g.owes →
    HasHash (hashKey key) (list'.heap.inner r.place) ∨ g'.owes
  owes : g'.owes → g.owes ∨ own ≠ none
  missed : g'.missed → g.missed ∨ ¬ HasHash (hashKey key) (list.heap.inner r.place)

section Step

variable {own : Option (Entry K V)} (hplaced : Placed hashKey key allowed r list)
  (hknows : g.Knows hashKey key allowed r)
include hplaced hknows

theorem Placed.stays (hinner : list'.heap.inner = list.heap.inner)
    (hfresh : list'.heap.fresh = list.heap.fresh)
    (hnoneq : list'.enforceNoneq = list.enforceNoneq) :
    Overwrites hashKey key allowed own list list' r r g g :=
  ⟨hplaced.congr hinner hfresh hnoneq, .refl r, hknows, by rw [hinner]; exact id, .inl, .inl⟩

theorem Placed.reads (hslot : slot ∈ g.path ∪ g.far ∪ g.deep) :
    Overwrites hashKey key allowed own list list r r g
      (g.see (hashKey key) slot (list.heap.inner slot)) := by
  refine ⟨hplaced, .refl r, hplaced.see hknows hslot, ?_, fun howes => .inl howes.1, ?_⟩
  · rintro (hhash | howes)
    · exact .inl hhash
    · by_cases hfound : slot ∈ g.path ∧ HasHash (hashKey key) (list.heap.inner slot)
      · obtain ⟨hpath, hhash⟩ := hfound
        obtain ⟨node, hnode, heq⟩ := id hhash
        have hcontent : ¬ Precedes (hashKey key) (list.heap.inner slot) := by
          rintro ⟨node', hnode', hlt⟩
          rw [hnode] at hnode'
          cases hnode'
          exact UInt64.ne_of_lt hlt heq
        rw [hplaced.eq_place hknows hpath hcontent] at hhash
        exact .inl hhash
      · exact .inr ⟨howes, hfound⟩
  · rintro (hmissed | ⟨hpath, hmisses⟩)
    · exact .inl hmissed
    · have hcontent : ¬ Precedes (hashKey key) (list.heap.inner slot) := by
        rintro ⟨node, hnode, hlt⟩
        exact UInt64.lt_asymm hlt (hmisses node hnode)
      rw [hplaced.eq_place hknows hpath hcontent] at hmisses
      refine .inr ?_
      rintro ⟨node, hnode, heq⟩
      exact UInt64.ne_of_lt (hmisses node hnode) heq.symm

/-- **One instruction** that the protocol allows and that is answered. -/
theorem Placed.step
    (hown : ∀ entry, own = some entry → Fits hashKey key entry ∧ entry ∈ allowed)
    {instr : SharedList.Instr (Entry K V)}
    (hmay : g.May (hashKey key) (Fits hashKey key) own instr) {answer : instr.Answer}
    (hexec : SharedList.exec instr list = (list', some answer)) :
    ∃ g' r', g.Move (hashKey key) (Fits hashKey key) instr answer g' ∧
      Overwrites hashKey key allowed own list list' r r' g g' := by
  match instr with
  | .cow (.load slot) | .cow (.loadFull slot) =>
      cases hexec
      exact ⟨_, r, ⟨rfl, hplaced.learns hknows hmay⟩, hplaced.reads hknows hmay⟩
  | .cow (.alloc content) =>
      cases hexec
      have hnone : ∀ entry, (none : Option (Entry K V)) = some entry →
          Fits hashKey key entry ∧ entry ∈ allowed := by simp
      have hstands : Stands hashKey key allowed r content := hknows.stands hnone hmay
      have hgrows := r.grows_grow list.heap.fresh
      have hplace : (list.heap.alloc content).inner r.place = list.heap.inner r.place :=
        Function.update_of_ne (Nat.ne_of_lt (hplaced.allocated _ (.inl rfl))) ..
      have hold := hknows.mono subset_rfl hgrows
      refine ⟨_, _, rfl, hplaced.alloc hstands, hgrows, ⟨hold.path, hold.here, hold.far, ?_,
        hold.reads⟩, ?_, .inl, .inl⟩
      · rintro slot (rfl | hslot)
        · exact .inl rfl
        · exact hold.deep slot hslot
      · change _ → HasHash (hashKey key) ((list.heap.alloc content).inner r.place) ∨ g.owes
        rw [hplace]
        exact id
  | .cow (.store slot content) =>
      cases hexec
      obtain ⟨hhere, hgood, hsome⟩ := hmay
      have hslot := hknows.here slot hhere
      subst hslot
      refine ⟨_, r, rfl, hplaced.store (hknows.stands hown hgood), .refl r,
        ⟨hknows.path, hknows.here, hknows.far, hknows.deep, hknows.reads⟩, fun _ => ?_,
        fun _ => .inr hsome, .inl⟩
      change HasHash _ (Function.update list.heap.inner r.place content r.place) ∨ ¬ HasHash _ content
      rw [Function.update_self]
      exact Classical.em _
  | .loadNoneq =>
      cases hexec
      exact ⟨g, r, ⟨hplaced.noneq, rfl⟩, hplaced.stays hknows rfl rfl rfl⟩
  | .cow (.awaitImm _) | .cow (.acquireMut _) | .cow (.acquireImm _) | .cow (.releaseMut _)
  | .cow (.releaseImm _) | .fetchAddLen | .fetchSubLen | .loadLen | .callback =>
      have hlist : (SharedList.exec _ list).1 = list' := congrArg Prod.fst hexec
      subst hlist
      exact ⟨g, r, rfl, hplaced.stays hknows rfl rfl rfl⟩

end Step

end Steps

end Mutual.SharedMap
