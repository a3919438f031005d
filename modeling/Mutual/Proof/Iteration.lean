import Mathlib.Data.List.Perm.Subperm
import Mutual.Proof.Refinement

/-!
# Iterators over a changing list

An iterator holds a slot. A removal may take this slot off the list; nobody writes to it from then on
and it leads back to the list, or it has become the end of the way.
-/

namespace Mutual.SharedList

open Concurrency Data

variable {T : Type}

/-! ### A reader of the list under edits -/

/-- A reader that stands at `current` and has read `seen`. -/
def ReaderAt (list : SharedList T) (current : Slot) (old all seen : List T) : Prop :=
  ∃ slots xs, Chain list.heap.links (headSlot :: slots) xs ∧ (headSlot :: slots).Nodup ∧
    (∀ slot ∈ headSlot :: slots, list.Settled slot) ∧
    Reader list.heap.links list.Settled (headSlot :: slots) current old all seen

namespace ReaderAt

variable {list after final : SharedList T} {current next slot : Slot}
  {old all seen inserted : List T} {data : T}

theorem start {xs : List T} (hlist : list.Represents xs) (hxs : xs.Nodup) :
    list.ReaderAt headSlot xs xs [] := by
  obtain ⟨slots, hlayout⟩ := hlist
  have hsettled : ∀ slot ∈ headSlot :: slots, list.Settled slot :=
    fun slot hslot => ⟨hlayout.allocated slot hslot, hlayout.immFree slot hslot⟩
  exact ⟨slots, xs, hlayout.chain, hlayout.nodup, hsettled,
    .start hlayout.chain hlayout.nodup hxs⟩

theorem settled (hr : list.ReaderAt current old all seen) : list.Settled current := by
  obtain ⟨slots, xs, -, -, hsettled, hr⟩ := hr
  exact hr.allocated_current hsettled

theorem move (hr : list.ReaderAt current old all seen)
    (hcurrent : list.heap.links current = some (data, next)) :
    list.ReaderAt next old all (seen ++ [data]) := by
  obtain ⟨slots, xs, hchain, hnodup, hsettled, hr⟩ := hr
  exact ⟨slots, xs, hchain, hnodup, hsettled, hr.move hcurrent⟩

theorem frame (hr : list.ReaderAt current old all seen)
    (hinner : after.heap.inner = list.heap.inner)
    (hsettled : ∀ slot, list.Settled slot → after.Settled slot) :
    after.ReaderAt current old all seen := by
  obtain ⟨slots, xs, hchain, hnodup, hallocated, hr⟩ := hr
  have hlinks : after.heap.links = list.heap.links := Heap.links_of_inner_eq hinner
  rw [← hlinks] at hchain hr
  exact ⟨slots, xs, hchain, hnodup, fun slot hslot => hsettled slot (hallocated slot hslot),
    hr.mono hsettled⟩

theorem insert (hr : list.ReaderAt current old all seen) (hold : data ∉ old) (hall : data ∉ all)
    (hlive : Reaches list.heap.links headSlot slot)
    (hinner : after.heap.inner = Function.update
      (Function.update list.heap.inner list.heap.fresh (list.heap.inner slot)) slot
      (some { data := data, next := list.heap.fresh }))
    (hfresh : after.Settled list.heap.fresh)
    (hsettled : ∀ slot, list.Settled slot → after.Settled slot) :
    after.ReaderAt current old (all ++ [data]) seen := by
  obtain ⟨slots, xs, hchain, hnodup, hallocated, hr⟩ := hr
  obtain ⟨keys₁, keys₂, hsplit⟩ := List.append_of_mem (hchain.mem_of_reaches hlive)
  obtain ⟨slots', hslots'⟩ := Chain.first_kept hsplit (list.heap.fresh :: keys₂)
  rw [hsplit] at hchain hnodup hallocated hr
  -- first the content of the slot is copied to a fresh slot
  have halloc : ∀ k, list.Settled k →
      (list.heap.alloc (list.heap.inner slot)).links k = list.heap.links k := by
    intro k hk
    rw [Heap.links_alloc, Function.update_of_ne (Nat.ne_of_lt hk.1)]
  have hcopy : (list.heap.alloc (list.heap.inner slot)).links list.heap.fresh =
      (list.heap.alloc (list.heap.inner slot)).links slot := by
    rw [halloc slot (hallocated slot (by simp)), Heap.links_alloc, Function.update_self]
    rfl
  have hlinks : after.heap.links =
      Function.update (list.heap.alloc (list.heap.inner slot)).links slot
        (some (data, list.heap.fresh)) := by
    have hsame : after.heap.links = ((list.heap.alloc (list.heap.inner slot)).setInner slot
        (some { data := data, next := list.heap.fresh })).links := Heap.links_of_inner_eq hinner
    rw [hsame, Heap.links_setInner]
    rfl
  have hunsettled : ¬ list.Settled list.heap.fresh := fun h => Nat.lt_irrefl _ h.1
  have hnot : list.heap.fresh ∉ keys₁ ++ slot :: keys₂ := fun hmem => hunsettled (hallocated _ hmem)
  have hallocated' : ∀ k ∈ keys₁ ++ slot :: list.heap.fresh :: keys₂, after.Settled k := by
    intro k hk
    rcases Chain.mem_inserted.mp hk with rfl | hk
    · exact hfresh
    · exact hsettled k (hallocated k hk)
  obtain ⟨xs₁, xs₂, -, -, hinserted⟩ :=
    (hchain.congr fun k hk => halloc k (hallocated k hk)).insert hnodup hnot hcopy data
  have hread := (hr.congr hallocated halloc).insert hallocated hunsettled hcopy hold hall
  rw [← hlinks] at hinserted hread
  have hnodup' := Chain.nodup_inserted hnodup hnot
  rw [hslots'] at hinserted hread hnodup' hallocated'
  exact ⟨slots', _, hinserted, hnodup', hallocated', hread.mono hsettled⟩

theorem remove (hr : list.ReaderAt current old all seen) {node : Node T}
    (hlive : Reaches list.heap.links headSlot slot) (hcontent : list.heap.inner slot = some node)
    (hinner : after.heap.inner = Function.update list.heap.inner slot (list.heap.inner node.next))
    (hsettled : ∀ slot, list.Settled slot → after.Settled slot) :
    after.ReaderAt current old all seen := by
  obtain ⟨slots, xs, hchain, hnodup, hallocated, hr⟩ := hr
  obtain ⟨keys₁, keys₂, hsplit⟩ := List.append_of_mem (hchain.mem_of_reaches hlive)
  rw [hsplit] at hchain hnodup hallocated hr
  have hkey := Heap.links_eq_some hcontent
  obtain ⟨xs₁, xs₂, keys₃, -, rfl, -, hremoved⟩ := hchain.remove hnodup hkey
  obtain ⟨slots', hslots'⟩ := Chain.first_kept hsplit keys₃
  have hread := hr.remove hallocated hkey
  have hlinks : after.heap.links =
      Function.update list.heap.links slot (list.heap.links node.next) := by
    have hsame : after.heap.links = (list.heap.setInner slot (list.heap.inner node.next)).links :=
      Heap.links_of_inner_eq hinner
    rw [hsame, Heap.links_copy]
  have hnodup' := hnodup.sublist Chain.removed_sublist
  have hallocated' : ∀ k ∈ keys₁ ++ slot :: keys₃, after.Settled k :=
    fun k hk => hsettled k (hallocated k (Chain.removed_sublist.subset hk))
  rw [← hlinks] at hremoved hread
  rw [hslots'] at hremoved hread hnodup' hallocated'
  exact ⟨slots', _, hremoved, hnodup', hallocated', hread.mono hsettled⟩

theorem edit (hr : list.ReaderAt current old all seen) (hedit : Edit list after inserted)
    (hold : ∀ x ∈ inserted, x ∉ old) (hall : ∀ x ∈ inserted, x ∉ all) :
    after.ReaderAt current old (all ++ inserted) seen := by
  cases hedit with
  | frame hinner hsettled =>
      rw [List.append_nil]
      exact hr.frame hinner hsettled
  | insert hlive hinner hfresh hsettled =>
      exact hr.insert (hold _ List.mem_cons_self) (hall _ List.mem_cons_self) hlive hinner hfresh
        hsettled
  | remove hlive hcontent hinner hsettled =>
      rw [List.append_nil]
      exact hr.remove hlive hcontent hinner hsettled

theorem edits (hr : list.ReaderAt current old all seen) (hedits : Edits list inserted final)
    (hdistinct : inserted.Nodup) (hold : ∀ x ∈ inserted, x ∉ old)
    (hall : ∀ x ∈ inserted, x ∉ all) : final.ReaderAt current old (all ++ inserted) seen := by
  induction hedits generalizing all with
  | nil =>
      rw [List.append_nil]
      exact hr
  | @cons list middle final first rest hedit _ ih =>
      obtain ⟨-, hrest, hdisjoint⟩ := List.nodup_append.mp hdistinct
      have hread := hr.edit hedit (fun x hx => hold x (List.mem_append_left rest hx))
        (fun x hx => hall x (List.mem_append_left rest hx))
      rw [← List.append_assoc]
      refine ih hread hrest (fun x hx => hold x (List.mem_append_right first hx)) ?_
      intro x hx hmem
      rcases List.mem_append.mp hmem with hmem | hmem
      · exact hall x (List.mem_append_right first hx) hmem
      · exact hdisjoint x hmem x hx rfl

end ReaderAt

/-! ### What the list keeps -/

/-- `elements` are those that are on the list in all the states, in the order they have there. -/
structure Throughout (states : List (SharedList T)) (elements : List T) : Prop where
  mem_iff : ∀ x, x ∈ elements ↔ ∀ state ∈ states, ∃ ys, state.Holds ys ∧ x ∈ ys
  sublist : ∀ state ∈ states, ∃ ys, state.Holds ys ∧ elements.Sublist ys

theorem Throughout.start {list : SharedList T} {xs : List T} (hlist : list.Holds xs) :
    Throughout [list] xs where
  mem_iff x := by
    rw [List.forall_mem_singleton]
    constructor
    · exact fun hx => ⟨xs, hlist, hx⟩
    · rintro ⟨ys, hys, hx⟩
      rwa [hlist.unique hys]
  sublist state hstate := by
    rw [List.mem_singleton.mp hstate]
    exact ⟨xs, hlist, .refl xs⟩

/-- The list has only gained elements, or only lost some. -/
theorem Throughout.step {states : List (SharedList T)} {elements ys zs : List T}
    {list after : SharedList T} (hthrough : Throughout states elements) (hmem : list ∈ states)
    (hlist : list.Holds ys) (hafter : after.Holds zs) (hnodup : ys.Nodup)
    (hchange : ys.Sublist zs ∨ zs.Sublist ys) :
    ∃ elements', Throughout (states ++ [after]) elements' := by
  classical
  obtain ⟨_, hys, hsub⟩ := hthrough.sublist list hmem
  obtain rfl := hlist.unique hys
  -- the elements still there, in the order they have before and after
  have hkept : (elements.filter (· ∈ zs)).Sublist zs := by
    rcases hchange with hgrows | hshrinks
    · exact (List.filter_sublist ..).trans (hsub.trans hgrows)
    · have hfilter : ys.filter (· ∈ zs) = zs := by
        apply (List.Nodup.perm_iff_eq_of_sublist hnodup (List.filter_sublist ..) hshrinks).mp
        refine (List.perm_ext_iff_of_nodup (hnodup.filter _) (hshrinks.nodup hnodup)).mpr ?_
        intro x
        rw [List.mem_filter, decide_eq_true_iff]
        exact and_iff_right_of_imp fun hx => hshrinks.subset hx
      have hsub' := hsub.filter (· ∈ zs)
      rwa [hfilter] at hsub'
  refine ⟨elements.filter (· ∈ zs), ?_, ?_⟩
  · intro x
    rw [List.forall_mem_append, List.forall_mem_singleton, ← hthrough.mem_iff]
    have hx : (∃ ys, after.Holds ys ∧ x ∈ ys) ↔ x ∈ zs := by
      constructor
      · rintro ⟨ys, hys, hx⟩
        rwa [hafter.unique hys]
      · exact fun hx => ⟨zs, hafter, hx⟩
    rw [hx]
    simp
  · intro state hstate
    rcases List.mem_append.mp hstate with hstate | hstate
    · obtain ⟨ys', hys', hsub'⟩ := hthrough.sublist state hstate
      exact ⟨ys', hys', (List.filter_sublist ..).trans hsub'⟩
    · rw [List.mem_singleton.mp hstate]
      exact ⟨zs, hafter, hkept⟩

/-! ### Operations on the elements -/

section Plain

variable (orderFn : Option (T → T → Ordering)) (plain : PlainList T)

theorem push_elements (data : T) :
    plain.elements.Sublist (plain.push orderFn data).elements ∧
      (plain.push orderFn data).elements.Subperm (plain.elements ++ [data]) := by
  have hperm (xs₁ xs₂ : List T) : (xs₁ ++ data :: xs₂).Perm (xs₁ ++ xs₂ ++ [data]) :=
    List.perm_middle.trans (List.perm_append_singleton ..).symm
  cases orderFn with
  | none => exact ⟨List.sublist_cons_self .., (hperm [] plain.elements).subperm⟩
  | some order =>
      simp only [PlainList.push]
      rcases insertOrdered_cases order plain.noneq data plain.elements with
        hsame | ⟨xs₁, xs₂, hsplit, hinserted⟩
      · rw [hsame]
        exact ⟨.refl _, (List.sublist_append_left ..).subperm⟩
      · rw [hinserted, hsplit]
        exact ⟨(List.sublist_cons_self ..).append_left xs₁, (hperm xs₁ xs₂).subperm⟩

theorem extend_elements (iter : List T) :
    plain.elements.Sublist (iter.foldl (fun list data => list.push orderFn data) plain).elements ∧
      (iter.foldl (fun list data => list.push orderFn data) plain).elements.Subperm
        (plain.elements ++ iter) := by
  induction iter generalizing plain with
  | nil =>
      rw [List.append_nil]
      exact ⟨.refl _, .refl _⟩
  | cons data iter ih =>
      obtain ⟨hgrows, hwithin⟩ := push_elements orderFn plain data
      obtain ⟨hgrows', hwithin'⟩ := ih (plain.push orderFn data)
      refine ⟨hgrows.trans hgrows', hwithin'.trans ?_⟩
      rw [List.append_cons]
      exact (List.subperm_append_right iter).mpr hwithin

omit orderFn in
theorem removeCount_elements (func : List T → T → Bool) (count : Nat) :
    (plain.removeCount func count).1.elements.Sublist plain.elements :=
  takeOut_sublist func [] count plain.elements

variable [BEq T]

/-- An operation does not both insert and remove. -/
theorem apply_elements (op : Op T) :
    (plain.elements.Sublist (plain.apply orderFn op).1.elements ∧
      (plain.apply orderFn op).1.elements.Subperm (plain.elements ++ op.pushed)) ∨
    (plain.apply orderFn op).1.elements.Sublist plain.elements := by
  cases op with
  | push data => exact .inl (push_elements orderFn plain data)
  | extend iter => exact .inl (extend_elements orderFn plain iter)
  | setEnforceNoneq enforceNoneq => exact .inr (.refl _)
  | pop => exact .inr (List.tail_sublist _)
  | drainNext => exact .inr (List.tail_sublist _)
  | removeCount func count => exact .inr (removeCount_elements plain func count.toNat)
  | removeAll func => exact .inr (removeCount_elements plain func (2 ^ 32 - 1))
  | removeSearch func => exact .inr (removeCount_elements plain func 1)
  | remove toRemove => exact .inr (removeCount_elements plain _ 1)

theorem apply_subperm (op : Op T) :
    (plain.apply orderFn op).1.elements.Subperm (plain.elements ++ op.pushed) := by
  rcases apply_elements orderFn plain op with ⟨-, hwithin⟩ | hshrinks
  · exact hwithin
  · exact (hshrinks.trans (List.sublist_append_left ..)).subperm

end Plain

/-! ### Runs of an iterator -/

section Runs

variable {orderFn : Option (T → T → Ordering)} {list after now : SharedList T}
  {ops : List (Op T)} {states : List (SharedList T)} {current : Slot} {xs yielded : List T}

/-- What holds of an iterator that was made when the list had the elements `xs`. -/
structure IterationWorld (xs : List T) (ops : List (Op T)) (states : List (SharedList T))
    (now : SharedList T) (current : Slot) (yielded : List T) (plain : PlainList T)
    (all throughout : List T) : Prop where
  shows : now.Shows plain
  within : plain.elements.Subperm (xs ++ ops.flatMap Op.pushed)
  reader : now.ReaderAt current xs all yielded
  known : ∀ x ∈ all, x ∈ xs ++ ops.flatMap Op.pushed
  mem : now ∈ states
  first : ∃ state ∈ states, state.Holds xs
  throughout : Throughout states throughout

/-- `Iter::next` returns, and it leaves the list alone. -/
theorem iterNext_completes (orderFn : Option (T → T → Ordering))
    (hcurrent : list.heap.immLock current = false) :
    (object orderFn).Completes list (enter orderFn (.iterNext current)) list
      (.yielded (list.heap.links current)) := by
  cases hinner : list.heap.inner current with
  | none => simp [enter, iterNext, hcurrent, hinner, Heap.links]
  | some node => simp [enter, iterNext, hcurrent, hinner, Heap.links]

/-- A call of `Iter::next` is no step of the list. -/
theorem Throughout.stay {states : List (SharedList T)} {elements : List T}
    (hthrough : Throughout states elements) (hmem : list ∈ states) :
    Throughout (states ++ [list]) elements where
  mem_iff x := by
    rw [hthrough.mem_iff, List.forall_mem_append, List.forall_mem_singleton]
    exact ⟨fun h => ⟨h, h list hmem⟩, fun h => h.1⟩
  sublist state hstate := by
    rcases List.mem_append.mp hstate with hstate | hstate
    · exact hthrough.sublist state hstate
    · rw [List.mem_singleton.mp hstate]
      exact hthrough.sublist list hmem

namespace IterationWorld

variable {plain : PlainList T} {all throughout : List T} {next : Slot} {data : T}

theorem immFree (hw : IterationWorld xs ops states now current yielded plain all throughout) :
    now.heap.immLock current = false := hw.reader.settled.2

theorem start (hlist : list.Represents xs) (hxs : xs.Nodup) :
    IterationWorld xs ([] : List (Op T)) [list] list headSlot []
      { elements := xs, noneq := list.enforceNoneq } xs xs where
  shows := ⟨hlist, rfl⟩
  within := by
    rw [List.flatMap_nil, List.append_nil]
  reader := .start hlist hxs
  known x hx := by simpa using hx
  mem := List.mem_cons_self
  first := ⟨list, List.mem_cons_self, hlist.holds⟩
  throughout := .start hlist.holds

theorem yield (hw : IterationWorld xs ops states now current yielded plain all throughout)
    (hcurrent : now.heap.links current = some (data, next)) :
    IterationWorld xs ops (states ++ [now]) now next (yielded ++ [data]) plain all throughout := by
  obtain ⟨state, hstate, hfirst⟩ := hw.first
  exact ⟨hw.shows, hw.within, hw.reader.move hcurrent, hw.known, by simp,
    ⟨state, List.mem_append_left _ hstate, hfirst⟩, hw.throughout.stay hw.mem⟩

theorem exhaust (hw : IterationWorld xs ops states now current yielded plain all throughout) :
    IterationWorld xs ops (states ++ [now]) now current yielded plain all throughout := by
  obtain ⟨state, hstate, hfirst⟩ := hw.first
  exact ⟨hw.shows, hw.within, hw.reader, hw.known, by simp,
    ⟨state, List.mem_append_left _ hstate, hfirst⟩, hw.throughout.stay hw.mem⟩

/-- The iterator has come to an empty slot. -/
theorem complete (hw : IterationWorld xs ops states now current yielded plain all throughout)
    (hcurrent : now.heap.links current = none) : throughout.Sublist yielded := by
  obtain ⟨slots, ys, hchain, -, -, hreader⟩ := hw.reader
  obtain ⟨ys', hchain', hkept⟩ := hreader.complete hcurrent
  obtain ⟨-, rfl⟩ := hchain.unique hchain'
  obtain ⟨state, hstate, hfirst⟩ := hw.first
  obtain ⟨zs, hzs, hsub⟩ := hw.throughout.sublist now hw.mem
  obtain rfl : ys = zs := Holds.unique ⟨slots, hchain⟩ hzs
  refine hkept throughout ?_ hsub
  intro x hx
  obtain ⟨zs, hzs, hx⟩ := (hw.throughout.mem_iff x).mp hx state hstate
  rwa [hfirst.unique hzs]

variable [BEq T] in
theorem performed (hw : IterationWorld xs ops states now current yielded plain all throughout)
    {op : Op T} {answer : Answer T} (hperforms : Performs orderFn now op answer after)
    (hdistinct : (xs ++ (ops ++ [op]).flatMap Op.pushed).Nodup) :
    ∃ plain' all' throughout', IterationWorld xs (ops ++ [op]) (states ++ [after]) after current
      yielded plain' all' throughout' := by
  obtain ⟨final, inserted, hrun, hshows, hinserted, hedits⟩ := apply_edits orderFn hw.shows op
  obtain ⟨rfl, -⟩ := hrun.deterministic hperforms
  have hpushed : xs ++ (ops ++ [op]).flatMap Op.pushed =
      xs ++ ops.flatMap Op.pushed ++ op.pushed := by
    simp
  rw [hpushed] at hdistinct
  obtain ⟨hbefore, hop, hdisjoint⟩ := List.nodup_append.mp hdistinct
  have hnew : ∀ x ∈ inserted, x ∉ xs ++ ops.flatMap Op.pushed :=
    fun x hx hmem => hdisjoint x hmem x (hinserted.subset hx) rfl
  have hnodup : plain.elements.Nodup := by
    obtain ⟨zs, hperm, hsub⟩ := hw.within
    exact hperm.nodup_iff.mp (hsub.nodup hbefore)
  obtain ⟨throughout', hthroughout⟩ :=
    hw.throughout.step hw.mem hw.shows.represents.holds hshows.represents.holds hnodup
      ((apply_elements orderFn plain op).imp_left And.left)
  have hreader := hw.reader.edits hedits (hinserted.nodup hop)
    (fun x hx hmem => hnew x hx (List.mem_append_left _ hmem))
    (fun x hx hmem => hnew x hx (hw.known x hmem))
  obtain ⟨state, hstate, hfirst⟩ := hw.first
  refine ⟨_, _, throughout', hshows, ?_, hreader, ?_, by simp,
    ⟨state, List.mem_append_left _ hstate, hfirst⟩, hthroughout⟩
  · rw [hpushed]
    exact (apply_subperm orderFn plain op).trans ((List.subperm_append_right op.pushed).mpr hw.within)
  · intro x hx
    rw [hpushed]
    rcases List.mem_append.mp hx with hx | hx
    · exact List.mem_append_left _ (hw.known x hx)
    · exact List.mem_append_right _ (hinserted.subset hx)

end IterationWorld

variable [BEq T]

/-- `iter()` is called on `list`. From then on operations run to their end, and the iterator is
asked for its next element, in any order. `states` are those the list has been in since, the last of
them is `now`. -/
inductive Iteration (orderFn : Option (T → T → Ordering)) (list : SharedList T) :
    List (Op T) → List (SharedList T) → SharedList T → Slot → List T → Prop
  | created : Iteration orderFn list [] [list] list headSlot []
  | performed {ops : List (Op T)} {states : List (SharedList T)} {now after : SharedList T}
      {current : Slot} {yielded : List T} {op : Op T} {answer : Answer T} :
      Iteration orderFn list ops states now current yielded →
      Performs orderFn now op answer after →
      Iteration orderFn list (ops ++ [op]) (states ++ [after]) after current yielded
  | yielded {ops : List (Op T)} {states : List (SharedList T)} {now after : SharedList T}
      {current next : Slot} {yielded : List T} {data : T} :
      Iteration orderFn list ops states now current yielded →
      (object orderFn).Completes now (enter orderFn (.iterNext current)) after
        (.yielded (some (data, next))) →
      Iteration orderFn list ops (states ++ [after]) after next (yielded ++ [data])
  | exhausted {ops : List (Op T)} {states : List (SharedList T)} {now after : SharedList T}
      {current : Slot} {yielded : List T} :
      Iteration orderFn list ops states now current yielded →
      (object orderFn).Completes now (enter orderFn (.iterNext current)) after (.yielded none) →
      Iteration orderFn list ops (states ++ [after]) after current yielded

theorem iteration_world (hlist : list.Represents xs)
    (hrun : Iteration orderFn list ops states now current yielded)
    (hdistinct : (xs ++ ops.flatMap Op.pushed).Nodup) :
    ∃ plain all throughout,
      IterationWorld xs ops states now current yielded plain all throughout := by
  induction hrun with
  | created => exact ⟨_, _, _, .start hlist (hdistinct.sublist (List.sublist_append_left ..))⟩
  | @performed ops states now after current yielded op answer _ hperforms ih =>
      have hbefore : (xs ++ ops.flatMap Op.pushed).Sublist
          (xs ++ (ops ++ [op]).flatMap Op.pushed) := by
        rw [List.flatMap_append]
        exact (List.sublist_append_left ..).append_left xs
      obtain ⟨plain, all, throughout, hw⟩ := ih (hdistinct.sublist hbefore)
      exact hw.performed hperforms hdistinct
  | yielded _ hnext ih =>
      obtain ⟨plain, all, throughout, hw⟩ := ih hdistinct
      obtain ⟨rfl, hyields⟩ := hnext.deterministic (iterNext_completes orderFn hw.immFree)
      injection hyields with hyields
      exact ⟨plain, all, throughout, hw.yield hyields.symm⟩
  | exhausted _ hnext ih =>
      obtain ⟨plain, all, throughout, hw⟩ := ih hdistinct
      obtain ⟨rfl, -⟩ := hnext.deterministic (iterNext_completes orderFn hw.immFree)
      exact ⟨plain, all, throughout, hw.exhaust⟩

/-- **Weak consistency.** Whatever happens to the list, the iterator can be asked for its next
element, it yields no element twice, and when it has no next element it has yielded those that have
been on the list all the time, in the order of the list. -/
theorem iteration_weakly_consistent (hlist : list.Represents xs)
    (hrun : Iteration orderFn list ops states now current yielded)
    (hdistinct : (xs ++ ops.flatMap Op.pushed).Nodup) :
    (∃ entry, (object orderFn).Completes now (enter orderFn (.iterNext current)) now
      (.yielded entry)) ∧
    yielded.Nodup ∧
    ∀ after, (object orderFn).Completes now (enter orderFn (.iterNext current)) after
        (.yielded none) →
      ∃ throughout, Throughout states throughout ∧ throughout.Sublist yielded := by
  obtain ⟨plain, all, throughout, hw⟩ := iteration_world hlist hrun hdistinct
  have hnext := iterNext_completes orderFn hw.immFree
  obtain ⟨_, _, _, _, _, hreader⟩ := hw.reader
  refine ⟨⟨_, hnext⟩, hreader.nodup, ?_⟩
  intro after hdone
  obtain ⟨-, hyields⟩ := hdone.deterministic hnext
  injection hyields with hyields
  exact ⟨throughout, hw.throughout, hw.complete hyields.symm⟩

end Runs

/-- A `pop` takes the slot off the list at which the iterator stands. -/
theorem iteration_weakly_consistent_pop : ∃ (states : List (SharedList Nat)) (now : SharedList Nat)
    (current : Slot), Iteration none (ofList [1, 2]) [.pop] states now current [1, 2] ∧
      [1, 2].Nodup ∧ ∃ throughout, Throughout states throughout ∧ throughout.Sublist [1, 2] := by
  obtain ⟨popped, hpop, hsecond, hend, himm⟩ : ∃ popped,
      (object none).Completes (ofList [1, 2]) (enter none .pop) popped (.popped (some 1)) ∧
        popped.heap.links 1 = some (2, 2) ∧ popped.heap.links 2 = none ∧
        ∀ slot, popped.heap.immLock slot = false := by
    have hmut : (ofList [1, 2]).heap.mutLock headSlot = false := rfl
    have himm : (ofList [1, 2]).heap.immLock headSlot = false := rfl
    have hinner : (ofList [1, 2]).heap.inner headSlot = some { data := 1, next := 1 } := rfl
    have hsecond : (ofList [1, 2]).heap.inner 1 = some { data := 2, next := 2 } := rfl
    refine ⟨{ ofList [1, 2] with
      heap := (((ofList [1, 2]).heap.setMutLock headSlot true).setInner headSlot
        (some { data := 2, next := 2 })).setMutLock headSlot false
      len := (ofList [1, 2]).len - 1 }, ?_, rfl, rfl, fun _ => rfl⟩
    simp [-ofList_inner, enter, pop, head, hmut, himm, hinner, hsecond]
  have hstart : (object none).Completes (ofList [1, 2]) (enter none (.iterNext headSlot))
      (ofList [1, 2]) (.yielded (some (1, 1))) := iterNext_completes none rfl
  have hmiddle := iterNext_completes none (himm 1)
  have hlast := iterNext_completes none (himm 2)
  rw [hsecond] at hmiddle
  rw [hend] at hlast
  have hperforms : Performs none (ofList [1, 2]) .pop (.entry (some 1)) popped :=
    performs_of_completes none rfl hpop rfl
  have hrun := ((Iteration.created.yielded hstart).performed hperforms).yielded hmiddle
  obtain ⟨-, hnodup, hthroughout⟩ :=
    iteration_weakly_consistent (ofList_represents [1, 2]) hrun (by decide)
  exact ⟨_, popped, 2, hrun, hnodup, hthroughout popped hlast⟩

end Mutual.SharedList
