import Mathlib.Data.List.Nodup
import Mutual.Concurrency.Protocol
import Mutual.CowCalls
import Mutual.CowShared

/-!
# What concurrent calls of `bump_into_null` do together

Each call exchanges its new data for the content of one shared `CowData` and then stores what it got
in a slot of its own. The order of the exchanges is a chain: each call got what the call before it
had put in, and the first one got the initial content. The store may come at any time after the
exchange, in any order of the calls; until then the value of the link is in the hands of the thread.
The locks play no part in this.
-/

namespace Mutual

open Concurrency

open scoped List

/-! ### Chains of exchanges -/

section Displaced

variable {ι β : Type}

/-- The content `top` of a cell was put there by the last of the exchanges (the last one comes first),
which displaced what is `below` it, and so on down to the initial content. -/
def Displaced (new below : ι → β) (initial : β) : β → List ι → Prop
  | top, [] => top = initial
  | top, t :: earlier => top = new t ∧ Displaced new below initial (below t) earlier

namespace Displaced

variable {new below below' : ι → β} {initial top : β} {order : List ι}

theorem congr (hsame : ∀ t ∈ order, below' t = below t)
    (hchain : Displaced new below initial top order) : Displaced new below' initial top order := by
  induction order generalizing top with
  | nil => exact hchain
  | cons t earlier ih =>
      obtain ⟨htop, hrest⟩ := hchain
      refine ⟨htop, ih (fun u hu => hsame u (List.mem_cons_of_mem t hu)) ?_⟩
      rwa [hsame t List.mem_cons_self]

/-- One more exchange. -/
theorem push {t : ι} (hsame : ∀ u ∈ order, below' u = below u) (ht : below' t = top)
    (hchain : Displaced new below initial top order) :
    Displaced new below' initial (new t) (t :: order) := by
  refine ⟨rfl, ?_⟩
  rw [ht]
  exact hchain.congr hsame

theorem exists_new (hchain : Displaced new below initial top order) (hsome : order ≠ []) :
    ∃ t ∈ order, top = new t := by
  cases order with
  | nil => exact absurd rfl hsome
  | cons t earlier => exact ⟨t, List.mem_cons_self, hchain.1⟩

/-- Nothing is lost and nothing is there twice. -/
theorem perm (hchain : Displaced new below initial top order) :
    (top :: order.map below).Perm (initial :: order.map new) := by
  induction order generalizing top with
  | nil =>
      have htop : top = initial := hchain
      rw [htop, List.map_nil, List.map_nil]
  | cons t earlier ih =>
      obtain ⟨htop, hrest⟩ := hchain
      have hbelow : (below t :: earlier.map below).Perm (initial :: earlier.map new) := ih hrest
      calc top :: below t :: earlier.map below
          ~ top :: initial :: earlier.map new := hbelow.cons top
        _ ~ initial :: top :: earlier.map new := List.Perm.swap ..
        _ = initial :: new t :: earlier.map new := by rw [htop]

end Displaced

/-- Where the contents of some slots are some different values in another order, each value is in one
slot. -/
theorem existsUnique_of_perm {slots : List Slot} {inner : Slot → β} {values : List β}
    (hperm : (slots.map inner).Perm values) (hvalues : values.Nodup) {value : β}
    (hvalue : value ∈ values) : ∃! slot, slot ∈ slots ∧ inner slot = value := by
  obtain ⟨slot, hslot, rfl⟩ := List.mem_map.mp (hperm.mem_iff.mpr hvalue)
  have hnodup : (slots.map inner).Nodup := hperm.nodup_iff.mpr hvalues
  refine ⟨slot, ⟨hslot, rfl⟩, ?_⟩
  intro other hother
  exact List.inj_on_of_nodup_map hnodup hother.1 hslot hother.2

end Displaced

namespace CowData.Shared

variable {α : Type} {ι : Type}

/-- One call of `bump_into_null` for each thread, all of the same `CowData`, into different ones. -/
structure Bumps (ι α : Type) where
  self : CowData
  nullCow : ι → CowData
  newData : ι → α
  apart : ∀ t, (nullCow t).slot ≠ self.slot
  nullCow_injective : Function.Injective fun t => (nullCow t).slot
  newData_injective : Function.Injective newData

namespace Bumps

def call (bumps : Bumps ι α) (t : ι) : Call α :=
  .bumpIntoNull bumps.self (bumps.nullCow t) (bumps.newData t)

def Touches (bumps : Bumps ι α) (slot : Slot) : Prop :=
  slot = bumps.self.slot ∨ ∃ t, slot = (bumps.nullCow t).slot

/-- `self` and the slots of some calls. -/
def slots (bumps : Bumps ι α) (order : List ι) : List Slot :=
  bumps.self.slot :: order.map fun t => (bumps.nullCow t).slot

/-- The initial content and the new data of some calls. -/
def given (bumps : Bumps ι α) (initial : Option α) (order : List ι) : List (Option α) :=
  initial :: order.map fun t => some (bumps.newData t)

end Bumps

/-- Calls on other `CowData`s. -/
def Call.Avoids (touched : Slot → Prop) : Call α → Prop
  | set self _ | setNull self => ¬ touched self.slot
  | bumpIntoNull self nullCow _ => ¬ touched self.slot ∧ ¬ touched nullCow.slot
  | swap self other => ¬ touched self.slot ∧ ¬ touched other.slot

namespace Bumps

/-- A thread makes its call once, and any other calls on other `CowData`s. -/
def Only (bumps : Bumps ι α) (config : Config (object α) ι) : Action (object α) ι → Prop
  | .invoke t call => call = bumps.call t ∧ .invoke t (bumps.call t) ∉ config.history ∨
      call.Avoids bumps.Touches
  | .tick _ => True

deriving instance DecidableEq for CowData, Call, Reply, Event

instance (bumps : Bumps ι α) [Fintype ι] : DecidablePred bumps.Touches := fun slot =>
  inferInstanceAs (Decidable (slot = bumps.self.slot ∨ ∃ t, slot = (bumps.nullCow t).slot))

instance (touched : Slot → Prop) [DecidablePred touched] :
    DecidablePred (Call.Avoids (α := α) touched)
  | .set self _ | .setNull self => inferInstanceAs (Decidable (¬ touched self.slot))
  | .bumpIntoNull self nullCow _ =>
      inferInstanceAs (Decidable (¬ touched self.slot ∧ ¬ touched nullCow.slot))
  | .swap self other =>
      inferInstanceAs (Decidable (¬ touched self.slot ∧ ¬ touched other.slot))

instance (bumps : Bumps ι α) [Fintype ι] [DecidableEq ι] [DecidableEq α]
    (config : Config (object α) ι) : ∀ action, Decidable (bumps.Only config action)
  | .invoke t call => inferInstanceAs (Decidable (call = bumps.call t ∧
      .invoke t (bumps.call t) ∉ config.history ∨ call.Avoids bumps.Touches))
  | .tick _ => .isTrue trivial

end Bumps

/-! ### The code -/

/-- How far a thread is in its call: before the exchange, with what it got, or behind the store. -/
inductive Bump (ι α : Type) where
  | away
  | waiting (thread : ι)
  | holding (thread : ι) (content : Option α)
  | stored (thread : ι)

namespace Bumps

def bumping (bumps : Bumps ι α) : Protocol (object α) (Bump ι α) where
  rest := .away
  start call g := (∃ t, call = bumps.call t ∧ g = .waiting t) ∨
    call.Avoids bumps.Touches ∧ g = .away
  may _ g instr :=
    match instr with
    | .swap slot content => (∃ t, g = .waiting t ∧ slot = bumps.self.slot ∧
        content = some (bumps.newData t)) ∨ ¬ bumps.Touches slot ∧ g = .away
    | .store slot content => (∃ t, g = .holding t content ∧ slot = (bumps.nullCow t).slot) ∨
        ¬ bumps.Touches slot ∧ g = .away
    | .alloc _ => False
    | _ => True
  move _ g instr answer g' :=
    match instr, answer with
    | .swap _ _, found => g' = match g with
        | .waiting t => .holding t found
        | _ => g
    | .store _ _, _ => g' = match g with
        | .holding t _ => .stored t
        | _ => g
    | _, _ => g' = g
  fail _ _ := True
  arrive _ _ _ := True
  leave _ _ _ := True
  finish call _ g := (∃ t, call = bumps.call t ∧ g = .stored t) ∨
    call.Avoids bumps.Touches ∧ g = .away

theorem bumping_sound (bumps : Bumps ι α) : bumps.bumping.Sound where
  enter := by
    rintro call g (⟨t, rfl, rfl⟩ | ⟨hcall, rfl⟩)
    · simp only [bumping, call, enter, bumpIntoNull, Prog.bind_eq, perform_bind, isNull_bind,
        Option.isNone_iff_eq_none, Prog.op_bind, Protocol.obeys_op, forall_eq, true_and,
        forall_const]
      intro content
      cases content with
      | some data => simp
      | none => cases hlocked : bumps.self.isMutLockProtected <;> simp [createLock, removeLock, hlocked]
    · cases call with
      | set self data =>
          have hself : ¬ bumps.Touches self.slot := hcall
          cases hlocked : self.isMutLockProtected <;>
            simp [enter, set, assign, createLock, removeLock, hlocked, bumping, hself, hcall]
      | setNull self =>
          have hself : ¬ bumps.Touches self.slot := hcall
          cases hlocked : self.isMutLockProtected <;>
            simp [enter, setNull, assign, createLock, removeLock, hlocked, bumping, hself, hcall]
      | bumpIntoNull self nullCow newData =>
          obtain ⟨hself, hnull⟩ := id hcall
          simp only [bumping, enter, bumpIntoNull, Prog.bind_eq, perform_bind, isNull_bind,
            Option.isNone_iff_eq_none, Prog.op_bind, Protocol.obeys_op, forall_eq, true_and,
            forall_const]
          intro content
          cases content with
          | some data => simp
          | none =>
              cases hlocked : self.isMutLockProtected <;>
                simp [createLock, removeLock, hlocked, hself, hnull, hcall]
      | swap self other =>
          obtain ⟨hself, hother⟩ := id hcall
          simp [enter, swap, bumping, hself, hother, hcall]
  body := by
    rintro call ⟨⟩

/-! ### The chain -/

/-- What is displaced by the call of `t`, once it is: in the hands of the thread or in its slot. -/
def displaced (bumps : Bumps ι α) (heap : Heap α) (ghost : ι → Bump ι α) (t : ι) : Option α :=
  match ghost t with
  | .holding _ content => content
  | _ => heap.inner (bumps.nullCow t).slot

def Returned (bumps : Bumps ι α) (history : List (Event ι (Call α) (Reply α))) (t : ι) : Prop :=
  ∃ result, .respond t (bumps.call t) result ∈ history

/-- Where a thread in its call is: before its exchange it has no place in the chain, behind it it has
one. -/
def Placed (bumps : Bumps ι α) (order : List ι) (history : List (Event ι (Call α) (Reply α)))
    (t : ι) : Bump ι α → Prop
  | .away => True
  | .waiting u => u = t ∧ t ∉ order ∧ .invoke t (bumps.call t) ∈ history
  | .holding u _ => u = t ∧ t ∈ order ∧ ¬ bumps.Returned history t
  | .stored u => u = t ∧ t ∈ order

/-- The calls that have made their exchange form a chain from the content of `self` down. -/
structure Chaining (bumps : Bumps ι α) (initial : Option α) (order : List ι) (heap : Heap α)
    (ghost : ι → Bump ι α) (history : List (Event ι (Call α) (Reply α))) : Prop where
  nodup : order.Nodup
  begun : ∀ t ∈ order, .invoke t (bumps.call t) ∈ history
  returned : ∀ t, bumps.Returned history t → t ∈ order
  placed : ∀ t, bumps.Placed order history t (ghost t)
  chain : Displaced (fun t => some (bumps.newData t)) (bumps.displaced heap ghost) initial
    (heap.inner bumps.self.slot) order

section Displacing

variable {bumps : Bumps ι α} {heap : Heap α} {ghost : ι → Bump ι α} {t u : ι} {g : Bump ι α}

theorem displaced_holding {content : Option α} (ht : ghost t = .holding u content) :
    bumps.displaced heap ghost t = content := by
  rw [displaced, ht]

theorem displaced_of_ne (ht : ∀ u content, ghost t ≠ .holding u content) :
    bumps.displaced heap ghost t = heap.inner (bumps.nullCow t).slot := by
  rw [displaced]
  split
  · rename_i u content hu
    exact absurd hu (ht u content)
  · rfl

theorem displaced_update [DecidableEq ι] (hut : u ≠ t) :
    bumps.displaced heap (Function.update ghost t g) u = bumps.displaced heap ghost u := by
  rw [displaced, displaced, Function.update_of_ne hut]

theorem displaced_setInner {slot : Slot} {content : Option α}
    (hslot : slot ≠ (bumps.nullCow u).slot) :
    bumps.displaced (heap.setInner slot content) ghost u = bumps.displaced heap ghost u := by
  rw [displaced, displaced, Heap.setInner_inner, Function.update_of_ne hslot.symm]

end Displacing

theorem returned_concat {bumps : Bumps ι α} {history : List (Event ι (Call α) (Reply α))}
    {event : Event ι (Call α) (Reply α)} {t : ι}
    (hevent : ∀ result, event ≠ .respond t (bumps.call t) result)
    (hreturned : bumps.Returned (history ++ [event]) t) : bumps.Returned history t := by
  obtain ⟨result, hmem⟩ := hreturned
  rcases List.mem_append.mp hmem with hmem | hmem
  · exact ⟨result, hmem⟩
  · exact absurd (List.mem_singleton.mp hmem).symm (hevent result)

theorem Placed.concat {bumps : Bumps ι α} {order : List ι}
    {history : List (Event ι (Call α) (Reply α))} {event : Event ι (Call α) (Reply α)} {t : ι}
    {g : Bump ι α} (hevent : ∀ result, event ≠ .respond t (bumps.call t) result)
    (hplaced : bumps.Placed order history t g) :
    bumps.Placed order (history ++ [event]) t g := by
  cases g with
  | away => trivial
  | waiting u => exact ⟨hplaced.1, hplaced.2.1, List.mem_append_left _ hplaced.2.2⟩
  | holding u content =>
      exact ⟨hplaced.1, hplaced.2.1, fun h => hplaced.2.2 (returned_concat hevent h)⟩
  | stored u => exact hplaced

/-- The exchange of another thread. -/
theorem Placed.cons {bumps : Bumps ι α} {order : List ι}
    {history : List (Event ι (Call α) (Reply α))} {t u : ι} {g : Bump ι α} (hut : u ≠ t)
    (hplaced : bumps.Placed order history u g) : bumps.Placed (t :: order) history u g := by
  cases g with
  | away => trivial
  | waiting v =>
      exact ⟨hplaced.1, List.not_mem_cons_of_ne_of_not_mem hut hplaced.2.1, hplaced.2.2⟩
  | holding v content => exact ⟨hplaced.1, List.mem_cons_of_mem t hplaced.2.1, hplaced.2.2⟩
  | stored v => exact ⟨hplaced.1, List.mem_cons_of_mem t hplaced.2⟩

namespace Chaining

variable {bumps : Bumps ι α} {initial : Option α} {order : List ι} {heap heap' : Heap α}
  {ghost : ι → Bump ι α} {history : List (Event ι (Call α) (Reply α))} {t u : ι}
  {content : Option α}

theorem start (bumps : Bumps ι α) (heap : Heap α) :
    bumps.Chaining (heap.inner bumps.self.slot) [] heap (fun _ => .away) [] where
  nodup := List.nodup_nil
  begun := by
    rintro t ⟨⟩
  returned := by
    rintro t ⟨result, ⟨⟩⟩
  placed _ := trivial
  chain := rfl

theorem waiting (hw : bumps.Chaining initial order heap ghost history)
    (ht : ghost t = .waiting u) :
    u = t ∧ t ∉ order ∧ .invoke t (bumps.call t) ∈ history := by
  have hplaced := hw.placed t
  rwa [ht] at hplaced

theorem holding (hw : bumps.Chaining initial order heap ghost history)
    (ht : ghost t = .holding u content) : u = t ∧ t ∈ order ∧ ¬ bumps.Returned history t := by
  have hplaced := hw.placed t
  rwa [ht] at hplaced

theorem stored (hw : bumps.Chaining initial order heap ghost history) (ht : ghost t = .stored u) :
    u = t ∧ t ∈ order := by
  have hplaced := hw.placed t
  rwa [ht] at hplaced

/-- Nothing is written where the chain lies. -/
theorem frame (hw : bumps.Chaining initial order heap ghost history)
    (hinner : ∀ slot, bumps.Touches slot → heap'.inner slot = heap.inner slot) :
    bumps.Chaining initial order heap' ghost history := by
  refine { hw with chain := ?_ }
  rw [hinner _ (.inl rfl)]
  refine hw.chain.congr fun t _ => ?_
  rw [displaced, displaced, hinner _ (.inr ⟨t, rfl⟩)]

theorem write (hw : bumps.Chaining initial order heap ghost history) {slot : Slot}
    (hslot : ¬ bumps.Touches slot) (content : Option α) :
    bumps.Chaining initial order (heap.setInner slot content) ghost history := by
  refine hw.frame fun touched htouched => ?_
  rw [Heap.setInner_inner, Function.update_of_ne]
  rintro rfl
  exact hslot htouched

/-- A call begins, or something returns that is not a call of the chain. -/
theorem extend (hw : bumps.Chaining initial order heap ghost history)
    {event : Event ι (Call α) (Reply α)}
    (hevent : ∀ t result, event ≠ .respond t (bumps.call t) result) :
    bumps.Chaining initial order heap ghost (history ++ [event]) :=
  { hw with
    begun := fun t ht => List.mem_append_left _ (hw.begun t ht)
    returned := fun t ht => hw.returned t (returned_concat (hevent t) ht)
    placed := fun t => (hw.placed t).concat (hevent t) }

variable [DecidableEq ι]

/-- A call of the chain begins. -/
theorem wait (hw : bumps.Chaining initial order heap ghost history)
    (hfirst : .invoke t (bumps.call t) ∉ history) :
    bumps.Chaining initial order heap (Function.update ghost t (.waiting t))
      (history ++ [.invoke t (bumps.call t)]) := by
  have hbegun : bumps.Chaining initial order heap ghost
      (history ++ [.invoke t (bumps.call t)]) := hw.extend (by rintro u result ⟨⟩)
  have hnot : t ∉ order := fun hmem => hfirst (hw.begun t hmem)
  refine { hbegun with
    placed := ?_
    chain := ?_ }
  · refine (Function.forall_update_iff ghost fun u g => bumps.Placed order _ u g).mpr
      ⟨?_, fun u _ => hbegun.placed u⟩
    exact ⟨rfl, hnot, List.mem_append_right _ (List.mem_singleton_self _)⟩
  · refine hw.chain.congr fun u hu => displaced_update ?_
    rintro rfl
    exact hnot hu

/-- The exchange. -/
theorem exchange (hw : bumps.Chaining initial order heap ghost history)
    (ht : ghost t = .waiting t) :
    bumps.Chaining initial (t :: order)
      (heap.setInner bumps.self.slot (some (bumps.newData t)))
      (Function.update ghost t (.holding t (heap.inner bumps.self.slot))) history := by
  obtain ⟨-, hnot, hbegun⟩ := hw.waiting ht
  refine ⟨List.nodup_cons.mpr ⟨hnot, hw.nodup⟩, ?_, ?_, ?_, ?_⟩
  · intro u hu
    rcases List.mem_cons.mp hu with rfl | hu
    · exact hbegun
    · exact hw.begun u hu
  · exact fun u hu => List.mem_cons_of_mem t (hw.returned u hu)
  · refine (Function.forall_update_iff ghost fun u g =>
      bumps.Placed (t :: order) history u g).mpr ⟨?_, fun u hut => (hw.placed u).cons hut⟩
    exact ⟨rfl, List.mem_cons_self, fun hreturned => hnot (hw.returned t hreturned)⟩
  · rw [Heap.setInner_inner, Function.update_self]
    refine hw.chain.push (fun u hu => ?_) (displaced_holding (Function.update_self t _ ghost))
    have hut : u ≠ t := by
      rintro rfl
      exact hnot hu
    rw [displaced_setInner (bumps.apart u).symm, displaced_update hut]

/-- The store. -/
theorem store (hw : bumps.Chaining initial order heap ghost history)
    (ht : ghost t = .holding t content) :
    bumps.Chaining initial order (heap.setInner (bumps.nullCow t).slot content)
      (Function.update ghost t (.stored t)) history := by
  obtain ⟨-, hmem, -⟩ := hw.holding ht
  refine { hw with
    placed := ?_
    chain := ?_ }
  · exact (Function.forall_update_iff ghost fun u g => bumps.Placed order history u g).mpr
      ⟨⟨rfl, hmem⟩, fun u _ => hw.placed u⟩
  · rw [Heap.setInner_inner, Function.update_of_ne (bumps.apart t).symm]
    refine hw.chain.congr fun u _ => ?_
    by_cases hut : u = t
    · rw [hut, displaced_holding ht, displaced_of_ne]
      · simp
      · intro v content
        rw [Function.update_self]
        rintro ⟨⟩
    · have hslot : (bumps.nullCow t).slot ≠ (bumps.nullCow u).slot := fun hslot =>
        hut (bumps.nullCow_injective hslot).symm
      rw [displaced_setInner hslot, displaced_update hut]

/-- A call of the chain returns. -/
theorem respond (hw : bumps.Chaining initial order heap ghost history) (ht : ghost t = .stored t)
    (result : Reply α) :
    bumps.Chaining initial order heap (Function.update ghost t .away)
      (history ++ [.respond t (bumps.call t) result]) := by
  obtain ⟨-, hmem⟩ := hw.stored ht
  have hevent : ∀ u, u ≠ t → ∀ result', Event.respond t (bumps.call t) result ≠
      .respond u (bumps.call u) result' := by
    rintro u hut result' ⟨⟩
    exact hut rfl
  refine { hw with
    begun := fun u hu => List.mem_append_left _ (hw.begun u hu)
    returned := ?_
    placed := ?_
    chain := ?_ }
  · intro u hu
    by_cases hut : u = t
    · rwa [hut]
    · exact hw.returned u (returned_concat (hevent u hut) hu)
  · exact (Function.forall_update_iff ghost fun u g => bumps.Placed order _ u g).mpr
      ⟨trivial, fun u hut => (hw.placed u).concat (hevent u hut)⟩
  · refine hw.chain.congr fun u _ => ?_
    by_cases hut : u = t
    · rw [hut, displaced_of_ne, displaced_of_ne]
      · intro v content
        rw [ht]
        rintro ⟨⟩
      · intro v content
        rw [Function.update_self]
        rintro ⟨⟩
    · exact displaced_update hut

end Chaining

theorem not_avoids (bumps : Bumps ι α) (t : ι) : ¬ (bumps.call t).Avoids bumps.Touches :=
  fun havoids => havoids.1 (.inl rfl)

theorem bumping_keeps [DecidableEq ι] (bumps : Bumps ι α) (initial : Option α) :
    bumps.bumping.Keeps bumps.Only fun heap ghost history =>
      ∃ order, bumps.Chaining initial order heap ghost history where
  invoke := by
    rintro config ghost t call ⟨order, hw⟩ hcond hrest
    have hrest : ghost t = .away := hrest
    rcases hcond with ⟨rfl, hfirst⟩ | hcall
    · exact ⟨.waiting t, .inl ⟨t, rfl, rfl⟩, order, hw.wait hfirst⟩
    · refine ⟨.away, .inr ⟨hcall, rfl⟩, order, ?_⟩
      rw [← hrest, Function.update_eq_self]
      exact hw.extend (by rintro u result ⟨⟩)
  respond := by
    rintro config ghost t call result ⟨order, hw⟩ - - (⟨u, rfl, hstored⟩ | ⟨hcall, haway⟩)
    · obtain ⟨rfl, -⟩ := hw.stored hstored
      exact ⟨order, hw.respond hstored result⟩
    · have hrest : ghost t = bumps.bumping.rest := haway
      refine ⟨order, ?_⟩
      rw [← hrest, Function.update_eq_self]
      refine hw.extend ?_
      rintro u result' hevent
      injection hevent with _ hsame
      rw [hsame] at hcall
      exact bumps.not_avoids u hcall
  jump := by
    rintro config ghost t call ⟨⟩
  answered := by
    rintro config ghost t call instr next state answer ⟨order, hw⟩ - - hmay hexec
    have hstate : (exec instr config.state).1 = state := congrArg Prod.fst hexec
    subst hstate
    match instr with
    | .swap slot content =>
        cases hexec
        rcases hmay with ⟨u, hwaiting, rfl, rfl⟩ | ⟨hslot, haway⟩
        · obtain ⟨rfl, -⟩ := hw.waiting hwaiting
          refine ⟨_, ?_, u :: order, hw.exchange hwaiting⟩
          rw [hwaiting]
          rfl
        · refine ⟨ghost t, ?_, order, ?_⟩
          · rw [haway]
            rfl
          · rw [Function.update_eq_self]
            exact hw.write hslot content
    | .store slot content =>
        cases hexec
        rcases hmay with ⟨u, hholding, rfl⟩ | ⟨hslot, haway⟩
        · obtain ⟨rfl, -⟩ := hw.holding hholding
          refine ⟨_, ?_, order, hw.store hholding⟩
          rw [hholding]
          rfl
        · refine ⟨ghost t, ?_, order, ?_⟩
          · rw [haway]
            rfl
          · rw [Function.update_eq_self]
            exact hw.write hslot content
    | .alloc content => exact absurd hmay id
    | .awaitImm slot | .acquireMut slot | .acquireImm slot | .releaseMut slot | .releaseImm slot
    | .load slot | .loadFull slot =>
        refine ⟨ghost t, rfl, order, ?_⟩
        rw [Function.update_eq_self]
        exact hw.frame fun _ _ => rfl
  retried := by
    rintro config ghost t call instr next state ⟨order, hw⟩ - - - hexec
    have hstate : (exec instr config.state).1 = state := congrArg Prod.fst hexec
    subst hstate
    match instr with
    | .awaitImm _ | .acquireMut _ | .acquireImm _ => exact ⟨order, hw.frame fun _ _ => rfl⟩

/-- **Nothing is lost** in calls of `bump_into_null` that interleave in any way. When every call begun
has returned, the calls form one chain from the content of `self` down to the initial content. So the
slots hold the initial content and the new data, each once, and `self` holds the data of a call. -/
theorem bumps_chain [DecidableEq ι] (bumps : Bumps ι α) {heap : Heap α}
    {config : Config (object α) ι}
    (hreach : ((object α).threads ι).Reach bumps.Only (.initial heap) config)
    (hreturned : ∀ t, .invoke t (bumps.call t) ∈ config.history →
      bumps.Returned config.history t) :
    ∃ order : List ι, order.Nodup ∧ (∀ t, t ∈ order ↔ bumps.Returned config.history t) ∧
      Displaced (fun t => some (bumps.newData t))
        (fun t => config.state.inner (bumps.nullCow t).slot) (heap.inner bumps.self.slot)
        (config.state.inner bumps.self.slot) order ∧
      (order ≠ [] → ∃ t ∈ order, config.state.inner bumps.self.slot = some (bumps.newData t)) ∧
      ((bumps.slots order).map config.state.inner).Perm
        (bumps.given (heap.inner bumps.self.slot) order) ∧
      ((∀ t, heap.inner bumps.self.slot ≠ some (bumps.newData t)) →
        ∀ content ∈ bumps.given (heap.inner bumps.self.slot) order,
          ∃! slot, slot ∈ bumps.slots order ∧ config.state.inner slot = content) := by
  obtain ⟨ghost, -, order, hw⟩ := Protocol.invariant bumps.bumping_sound
    (bumps.bumping_keeps (heap.inner bumps.self.slot)) ⟨[], Chaining.start bumps heap⟩ hreach
  have hdone : ∀ t ∈ order, bumps.Returned config.history t :=
    fun t ht => hreturned t (hw.begun t ht)
  have hchain : Displaced (fun t => some (bumps.newData t))
      (fun t => config.state.inner (bumps.nullCow t).slot) (heap.inner bumps.self.slot)
      (config.state.inner bumps.self.slot) order := by
    refine hw.chain.congr fun t ht => (displaced_of_ne ?_).symm
    intro u content hholding
    exact (hw.holding hholding).2.2 (hdone t ht)
  have hperm : ((bumps.slots order).map config.state.inner).Perm
      (bumps.given (heap.inner bumps.self.slot) order) := by
    rw [slots, List.map_cons, List.map_map]
    exact hchain.perm
  refine ⟨order, hw.nodup, fun t => ⟨hdone t, hw.returned t⟩, hchain, hchain.exists_new, hperm, ?_⟩
  intro hinitial content hcontent
  refine existsUnique_of_perm hperm (List.nodup_cons.mpr ⟨?_, hw.nodup.map ?_⟩) hcontent
  · intro hmem
    obtain ⟨t, -, ht⟩ := List.mem_map.mp hmem
    exact hinitial t ht.symm
  · intro t u htu
    exact bumps.newData_injective (Option.some.inj htu)

/-- Two threads, of which the first to exchange is the last to store. -/
def two : Bumps Bool ℕ where
  self := ⟨0, false⟩
  nullCow t := ⟨if t then 2 else 1, false⟩
  newData t := if t then 8 else 7
  apart := by decide
  nullCow_injective := by decide
  newData_injective := by decide

theorem bumps_chain_two : ∃ (config : Config (object ℕ) Bool) (order : List Bool),
    (∀ t, t ∈ order) ∧
      ((two.slots order).map config.state.inner).Perm (two.given (some 6) order) ∧
      ∃! slot, slot ∈ two.slots order ∧ config.state.inner slot = some 6 := by
  obtain ⟨config, hrun, hreturned⟩ : ∃ config : Config (object ℕ) Bool,
      ((object ℕ).threads Bool).runIf two.Only
        (.initial (((Heap.empty.alloc (some 6)).alloc none).alloc none))
        (.invoke false (two.call false) :: .invoke true (two.call true) ::
          List.replicate 5 (.tick false) ++ List.replicate 7 (.tick true) ++
          List.replicate 3 (.tick false)) = some config ∧
      ∀ t, .respond t (two.call t) .unit ∈ config.history := ⟨_, rfl, by decide⟩
  obtain ⟨order, -, horder, -, -, hperm, hunique⟩ :=
    bumps_chain two (System.reach_of_runIf _ hrun) fun t _ => ⟨_, hreturned t⟩
  refine ⟨config, order, fun t => (horder t).mpr ⟨_, hreturned t⟩, hperm, ?_⟩
  exact hunique (by decide) (some 6) List.mem_cons_self

end Bumps

end CowData.Shared

end Mutual
