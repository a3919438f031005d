import Mathlib.Data.Fintype.Basic
import Mutual.Concurrency.Protocol
import Mutual.CowCalls
import Mutual.CowGuarded

/-!
# What readers see of `bump_into_null`

Between the exchange in `self` and the store in `null_cow` the old data is in neither of them. The
immutable lock of `self` holds back readers that come for it in this time. A reader that has waited
for the lock before loads later, without looking at it again, and if its load falls into this time,
it has the new data while `null_cow` is null.

One thread executes `bump_into_null` once, from `c` into `n`. The others call `get_ref` of `c` and
`is_null` of `n`, in any order. The new data is told from the old by its value.
-/

namespace Mutual.CowData.Guarded

open Concurrency

variable {α : Type} {ι : Type}

namespace Call

def bumps : Call α → Bool
  | bumpIntoNull .. => true
  | _ => false

def looks : Call α → Bool
  | isNull _ => true
  | _ => false

/-- `c.get_ref()`, `n.is_null()` and `c.bump_into_null(&n, new)`. -/
def Visits (c n : Slot) (new : α) : Call α → Prop
  | getRef self => self.slot = c
  | isNull self => self.slot = n
  | bumpIntoNull self nullCow newData => self.slot = c ∧ nullCow.slot = n ∧ newData = new
  | _ => False

end Call

/-- The call of `bump_into_null`. -/
def Bumps : Event ι (Call α) (Reply α) → Prop
  | .invoke _ call => call.bumps = true
  | .respond _ _ _ => False

/-- `bump_into_null` is called once. -/
def Visited (c n : Slot) (new : α) (config : Config (object α) ι) :
    Action (object α) ι → Prop
  | .invoke _ call => call.Visits c n new ∧
      (call.bumps = true → ∀ event ∈ config.history, ¬ Bumps event)
  | .tick _ => True

/-! ### The condition -/

/-- The thread has exchanged the content of `c` and not stored the old one in `n`. -/
def movingAfter (_ : Heap α) (_ : Call α) : Instr α → Bool → Bool
  | .swap _ _, _ => true
  | .store _ _, _ => false
  | _, moving => moving

/-- If the next access of `t` is the load of `get_ref`, nobody is between the exchange and the
store. -/
def LoadsSettled (before : Config (object α) ι × (ι → Bool)) (t : ι) : Prop :=
  match before.1.instr? t with
  | some (.loadFull _) => ∀ u, before.2 u = false
  | _ => True

def LoadsOnlySettled (before : Config (object α) ι × (ι → Bool)) : Action (object α) ι → Prop
  | .tick t => LoadsSettled before t
  | .invoke _ _ => True

instance : DecidablePred (Bumps (α := α) (ι := ι))
  | .invoke _ call => inferInstanceAs (Decidable (call.bumps = true))
  | .respond _ _ _ => .isFalse id

instance [DecidableEq α] (c n : Slot) (new : α) : DecidablePred (Call.Visits c n new)
  | .getRef self => inferInstanceAs (Decidable (self.slot = c))
  | .isNull self => inferInstanceAs (Decidable (self.slot = n))
  | .bumpIntoNull self nullCow newData =>
      inferInstanceAs (Decidable (self.slot = c ∧ nullCow.slot = n ∧ newData = new))
  | .set .. | .setNull _ | .swap .. | .getMut _ | .dropMut _ => .isFalse id

instance [DecidableEq α] (c n : Slot) (new : α) (config : Config (object α) ι) :
    ∀ action, Decidable (Visited c n new config action)
  | .invoke _ call => inferInstanceAs (Decidable (call.Visits c n new ∧
      (call.bumps = true → ∀ event ∈ config.history, ¬ Bumps event)))
  | .tick _ => .isTrue trivial

instance [Fintype ι] (before : Config (object α) ι × (ι → Bool)) (t : ι) :
    Decidable (LoadsSettled before t) := by
  unfold LoadsSettled
  split <;> infer_instance

instance [Fintype ι] (before : Config (object α) ι × (ι → Bool)) :
    ∀ action, Decidable (LoadsOnlySettled before action)
  | .tick t => inferInstanceAs (Decidable (LoadsSettled before t))
  | .invoke _ _ => .isTrue trivial

/-! ### The code -/

/-- How far a thread is: in `bump_into_null`, before the exchange, with the old data, or behind the
store; with what `get_ref` has loaded, or with the answer of `is_null`. -/
inductive Visit (α : Type) where
  | away
  | waiting
  | moving (oldData : Option α)
  | moved
  | got (node : Option α)
  | looked (answer : Bool)

def Visit.writes : Visit α → Prop
  | waiting | moving _ | moved => True
  | _ => False

def visiting (c n : Slot) (new : α) : Protocol (object α) (Visit α) where
  rest := .away
  start call g := call.Visits c n new ∧ g = if call.bumps then .waiting else .away
  may call g instr :=
    match instr with
    | .load slot => call.looks = true → slot = n ∧ g = .away
    | .loadFull slot => slot = c ∧ g = .away
    | .swap slot content => slot = c ∧ content = some new ∧ g = .waiting
    | .store slot content => slot = n ∧ g = .moving content
    | .alloc _ => False
    | _ => True
  move call g instr answer g' :=
    match instr, answer with
    | .load _, content => g' = if call.looks then .looked content.isNone else g
    | .loadFull _, content => g' = .got content
    | .swap _ _, content => g' = .moving content
    | .store _ _, _ => g' = .moved
    | _, _ => g' = g
  fail _ _ := True
  arrive _ _ _ := True
  leave _ _ _ := True
  finish _ result g :=
    match result with
    | .refGuard node => g = .got node
    | .bool answer => g = .looked answer
    | .unit => g = .moved
    | _ => False

theorem visiting_sound (c n : Slot) (new : α) : (visiting c n new).Sound where
  enter := by
    rintro call g ⟨hcall, rfl⟩
    cases call with
    | getRef self =>
        simp only [visiting, Call.bumps, Call.looks, enter, getRef, Prog.bind_eq, isNull_bind,
          Option.isNone_iff_eq_none, Prog.op_bind, Bool.false_eq_true, ↓reduceIte,
          Protocol.obeys_op, IsEmpty.forall_iff, forall_eq, true_and, forall_const]
        intro content
        cases content with
        | none => simp
        | some data => simpa [Call.Visits] using hcall
    | isNull self =>
        have hslot : self.slot = n := hcall
        simp [enter, isNull, visiting, Call.looks, Call.bumps, hslot]
    | bumpIntoNull self nullCow newData =>
        obtain ⟨rfl, rfl, rfl⟩ := hcall
        simp only [visiting, Call.bumps, Call.looks, enter, bumpIntoNull, Prog.bind_eq,
          perform_bind, isNull_bind, Option.isNone_iff_eq_none, Prog.op_bind, ↓reduceIte,
          Protocol.obeys_op, Bool.false_eq_true, true_and, IsEmpty.forall_iff, forall_eq,
          forall_const]
        intro content
        cases content with
        | some data => simp
        | none => cases hlocked : self.isMutLockProtected <;> simp [createLock, removeLock, hlocked]
    | set | setNull | swap | getMut | dropMut => exact absurd hcall id
  body := by
    rintro call ⟨⟩

/-! ### The move -/

/-- The thread has got the new data from `c`. -/
def Informed (new : α) (history : List (Event ι (Call α) (Reply α))) (t : ι) : Prop :=
  ∃ self, .respond t (.getRef self) (.refGuard (some new)) ∈ history

/-- Where the old data is. -/
inductive Stage where
  | before
  | between
  | behind

/-- The old data is in `c`, in the hands of the thread that moves it, or in `n`. Who has the new data
has got it with the old one in `n`. -/
structure BumpWorld (c n : Slot) (new : α) (stage : Stage) (heap : Heap α) (ghost : ι → Visit α)
    (moving : ι → Bool) (history : List (Event ι (Call α) (Reply α))) : Prop where
  source : stage = .before → ∃ old, old ≠ new ∧ heap.inner c = some old
  target : stage = .behind → (heap.inner n).isSome = true
  waiting : ∀ t, ghost t = .waiting → stage = .before
  taken : ∀ t oldData, ghost t = .moving oldData →
    stage = .between ∧ oldData.isSome = true ∧ moving t = true
  mover : stage = .between → ∃ t oldData, ghost t = .moving oldData
  got : ∀ t, ghost t = .got (some new) → stage = .behind
  informed : ∀ t, Informed new history t → stage = .behind
  looked : ∀ t, ghost t = .looked true → ¬ Informed new history t
  unique : ∀ t u, (ghost t).writes → (ghost u).writes → t = u
  bumped : stage ≠ .before ∨ (∃ t, (ghost t).writes) → ∃ event ∈ history, Bumps event
  apart : ∀ t self other, ¬ [.respond t (.getRef self) (.refGuard (some new)),
    .respond t (.isNull other) (.bool true)].Sublist history

theorem pair_sublist_concat {β : Type} {first second event : β} {history : List β}
    (hpair : [first, second].Sublist (history ++ [event])) :
    [first, second].Sublist history ∨ first ∈ history ∧ second = event := by
  obtain ⟨left, right, hsplit, hleft, hright⟩ := List.sublist_append_iff.mp hpair
  match left, hsplit with
  | [], hsplit =>
      have hlength := hright.length_le
      rw [List.nil_append] at hsplit
      simp [← hsplit] at hlength
  | [_], hsplit =>
      cases hsplit
      exact .inr ⟨hleft.subset List.mem_cons_self, List.mem_singleton.mp (hright.subset (by simp))⟩
  | [_, _], hsplit =>
      cases hsplit
      exact .inl hleft

namespace BumpWorld

variable {c n : Slot} {new : α} {stage : Stage} {heap : Heap α} {ghost : ι → Visit α}
  {moving : ι → Bool} {history : List (Event ι (Call α) (Reply α))}

/-- Locks do not matter. -/
theorem frame {heap' : Heap α} (hw : BumpWorld c n new stage heap ghost moving history)
    (hinner : heap'.inner = heap.inner) : BumpWorld c n new stage heap' ghost moving history where
  source := by
    rw [hinner]
    exact hw.source
  target := by
    rw [hinner]
    exact hw.target
  waiting := hw.waiting
  taken := hw.taken
  mover := hw.mover
  got := hw.got
  informed := hw.informed
  looked := hw.looked
  unique := hw.unique
  bumped := hw.bumped
  apart := hw.apart

/-- What a thread does that does not write. -/
theorem visit [DecidableEq ι] (hw : BumpWorld c n new stage heap ghost moving history) {t : ι}
    {g : Visit α} (ht : ∀ oldData, ghost t ≠ .moving oldData) (hg : ¬ g.writes)
    (hgot : g = .got (some new) → stage = .behind)
    (hlooked : g = .looked true → ¬ Informed new history t) :
    BumpWorld c n new stage heap (Function.update ghost t g) moving history where
  source := hw.source
  target := hw.target
  waiting := by
    refine (Function.forall_update_iff ghost fun _ g => g = .waiting → stage = .before).mpr
      ⟨?_, fun u _ => hw.waiting u⟩
    rintro rfl
    exact absurd trivial hg
  taken := by
    refine (Function.forall_update_iff ghost fun u g => ∀ oldData, g = .moving oldData →
      stage = .between ∧ oldData.isSome = true ∧ moving u = true).mpr ⟨?_, fun u _ => hw.taken u⟩
    rintro oldData rfl
    exact absurd trivial hg
  mover := by
    intro hstage
    obtain ⟨u, oldData, hu⟩ := hw.mover hstage
    refine ⟨u, oldData, ?_⟩
    rw [Function.update_of_ne, hu]
    rintro rfl
    exact ht oldData hu
  got := (Function.forall_update_iff ghost fun _ g => g = .got (some new) → stage = .behind).mpr
    ⟨hgot, fun u _ => hw.got u⟩
  informed := hw.informed
  looked := (Function.forall_update_iff ghost fun u g => g = .looked true →
    ¬ Informed new history u).mpr ⟨hlooked, fun u _ => hw.looked u⟩
  unique := unique_update Visit.writes ghost t hw.unique fun hwrites => absurd hwrites hg
  bumped := by
    rintro (hstage | ⟨u, hu⟩)
    · exact hw.bumped (.inl hstage)
    · refine hw.bumped (.inr ⟨u, ?_⟩)
      by_cases hut : u = t
      · rw [hut, Function.update_self] at hu
        exact absurd hu hg
      · rwa [Function.update_of_ne hut] at hu
  apart := hw.apart

theorem rest [DecidableEq ι] (hw : BumpWorld c n new stage heap ghost moving history) {t : ι}
    (ht : ∀ oldData, ghost t ≠ .moving oldData) :
    BumpWorld c n new stage heap (Function.update ghost t .away) moving history :=
  hw.visit ht id (by rintro ⟨⟩) (by rintro ⟨⟩)

/-- A call that does not write begins. -/
theorem begin (hw : BumpWorld c n new stage heap ghost moving history) (t : ι) (call : Call α) :
    BumpWorld c n new stage heap ghost moving (history ++ [.invoke t call]) := by
  have hinformed : ∀ u, Informed new (history ++ [.invoke t call]) u → Informed new history u := by
    rintro u ⟨self, hmem⟩
    refine ⟨self, ?_⟩
    simpa using hmem
  refine ⟨hw.source, hw.target, hw.waiting, hw.taken, hw.mover, hw.got, ?_, ?_, hw.unique, ?_, ?_⟩
  · exact fun u hu => hw.informed u (hinformed u hu)
  · exact fun u hlooked hu => hw.looked u hlooked (hinformed u hu)
  · intro hwrites
    obtain ⟨event, hevent, hbumps⟩ := hw.bumped hwrites
    exact ⟨event, List.mem_append_left _ hevent, hbumps⟩
  · intro u self other hpair
    rcases pair_sublist_concat hpair with hpair | ⟨-, heq⟩
    · exact hw.apart u self other hpair
    · cases heq

/-- The call of `bump_into_null` begins. -/
theorem wait [DecidableEq ι] (hw : BumpWorld c n new stage heap ghost moving history) {t : ι}
    {call : Call α} (hcall : call.bumps = true) (hfirst : ∀ event ∈ history, ¬ Bumps event) :
    BumpWorld c n new stage heap (Function.update ghost t .waiting) moving
      (history ++ [.invoke t call]) := by
  have hstage : stage = .before := by
    by_contra hne
    obtain ⟨event, hevent, hbumps⟩ := hw.bumped (.inl hne)
    exact hfirst event hevent hbumps
  have hnobody : ∀ u, ¬ (ghost u).writes := by
    intro u hu
    obtain ⟨event, hevent, hbumps⟩ := hw.bumped (.inr ⟨u, hu⟩)
    exact hfirst event hevent hbumps
  have hbegun := hw.begin t call
  refine ⟨hw.source, hw.target, fun _ _ => hstage, ?_, ?_, ?_, hbegun.informed, ?_, ?_, ?_,
    hbegun.apart⟩
  · refine (Function.forall_update_iff ghost fun u g => ∀ oldData, g = .moving oldData →
      stage = .between ∧ oldData.isSome = true ∧ moving u = true).mpr ⟨?_, fun u _ => hw.taken u⟩
    rintro oldData ⟨⟩
  · rw [hstage]
    rintro ⟨⟩
  · refine (Function.forall_update_iff ghost fun _ g => g = .got (some new) →
      stage = .behind).mpr ⟨?_, fun u _ => hw.got u⟩
    rintro ⟨⟩
  · refine (Function.forall_update_iff ghost fun u g => g = .looked true →
      ¬ Informed new (history ++ [.invoke t call]) u).mpr ⟨?_, fun u _ => hbegun.looked u⟩
    rintro ⟨⟩
  · exact unique_update Visit.writes ghost t hw.unique fun _ u hu => absurd hu (hnobody u)
  · exact fun _ => ⟨.invoke t call, List.mem_append_right _ (List.mem_singleton_self _), hcall⟩

/-- The exchange in `c`. -/
theorem exchange [DecidableEq ι] (hw : BumpWorld c n new stage heap ghost moving history) {t : ι}
    (ht : ghost t = .waiting) :
    BumpWorld c n new .between (heap.setInner c (some new))
      (Function.update ghost t (.moving (heap.inner c))) (Function.update moving t true)
      history := by
  obtain rfl := hw.waiting t ht
  have hwrites : (ghost t).writes := by
    rw [ht]
    trivial
  have hnot : Stage.before ≠ .behind := by
    rintro ⟨⟩
  refine ⟨?_, ?_, ?_, ?_, ?_, ?_, ?_, ?_, ?_, ?_, hw.apart⟩
  · rintro ⟨⟩
  · rintro ⟨⟩
  · refine (Function.forall_update_iff ghost fun _ g => g = .waiting →
      Stage.between = .before).mpr ⟨by rintro ⟨⟩, fun u hut hu => ?_⟩
    exact absurd (hw.unique u t (by rw [hu]; trivial) hwrites) hut
  · refine forall_update₂ (p := fun _ g moving => ∀ oldData, g = .moving oldData →
      Stage.between = .between ∧ oldData.isSome = true ∧ moving = true) ghost moving t ?_ ?_
    · rintro oldData ⟨⟩
      obtain ⟨old, -, hold⟩ := hw.source rfl
      exact ⟨rfl, by rw [hold]; rfl, rfl⟩
    · intro u _ oldData hu
      cases (hw.taken u oldData hu).1
  · exact fun _ => ⟨t, heap.inner c, Function.update_self ..⟩
  · refine (Function.forall_update_iff ghost fun _ g => g = .got (some new) →
      Stage.between = .behind).mpr ⟨?_, fun u _ hu => absurd (hw.got u hu) hnot⟩
    rintro ⟨⟩
  · exact fun u hu => absurd (hw.informed u hu) hnot
  · refine (Function.forall_update_iff ghost fun u g => g = .looked true →
      ¬ Informed new history u).mpr ⟨?_, fun u _ => hw.looked u⟩
    rintro ⟨⟩
  · exact unique_update Visit.writes ghost t hw.unique fun _ u hu => hw.unique u t hu hwrites
  · exact fun _ => hw.bumped (.inr ⟨t, hwrites⟩)

/-- The store in `n`. -/
theorem store [DecidableEq ι] (hw : BumpWorld c n new stage heap ghost moving history) {t : ι}
    {oldData : Option α} (ht : ghost t = .moving oldData) :
    BumpWorld c n new .behind (heap.setInner n oldData) (Function.update ghost t .moved)
      (Function.update moving t false) history := by
  obtain ⟨rfl, hsome, -⟩ := hw.taken t oldData ht
  have hwrites : (ghost t).writes := by
    rw [ht]
    trivial
  refine ⟨?_, ?_, ?_, ?_, ?_, fun _ _ => rfl, fun _ _ => rfl, ?_, ?_, ?_, hw.apart⟩
  · rintro ⟨⟩
  · intro _
    rwa [Heap.setInner_inner, Function.update_self]
  · refine (Function.forall_update_iff ghost fun _ g => g = .waiting →
      Stage.behind = .before).mpr ⟨by rintro ⟨⟩, fun u _ hu => ?_⟩
    cases hw.waiting u hu
  · refine forall_update₂ (p := fun _ g moving => ∀ oldData, g = .moving oldData →
      Stage.behind = .between ∧ oldData.isSome = true ∧ moving = true) ghost moving t ?_ ?_
    · rintro oldData ⟨⟩
    · intro u hut oldData hu
      exact absurd (hw.unique u t (by rw [hu]; trivial) hwrites) hut
  · rintro ⟨⟩
  · refine (Function.forall_update_iff ghost fun u g => g = .looked true →
      ¬ Informed new history u).mpr ⟨?_, fun u _ => hw.looked u⟩
    rintro ⟨⟩
  · exact unique_update Visit.writes ghost t hw.unique fun _ u hu => hw.unique u t hu hwrites
  · exact fun _ => hw.bumped (.inr ⟨t, hwrites⟩)

/-- A call returns. -/
theorem finish (hw : BumpWorld c n new stage heap ghost moving history) {t : ι} {call : Call α}
    {result : Reply α} (ht : ghost t = .away)
    (hgot : result = .refGuard (some new) → stage = .behind)
    (hlooked : result = .bool true → ¬ Informed new history t) :
    BumpWorld c n new stage heap ghost moving (history ++ [.respond t call result]) := by
  have hinformed : ∀ u, Informed new (history ++ [.respond t call result]) u →
      Informed new history u ∨ u = t ∧ result = .refGuard (some new) := by
    rintro u ⟨self, hmem⟩
    rcases List.mem_append.mp hmem with hmem | hmem
    · exact .inl ⟨self, hmem⟩
    · cases List.mem_singleton.mp hmem
      exact .inr ⟨rfl, rfl⟩
  refine ⟨hw.source, hw.target, hw.waiting, hw.taken, hw.mover, hw.got, ?_, ?_, hw.unique, ?_, ?_⟩
  · intro u hu
    rcases hinformed u hu with hu | ⟨-, hresult⟩
    · exact hw.informed u hu
    · exact hgot hresult
  · intro u hlook hu
    rcases hinformed u hu with hu | ⟨rfl, -⟩
    · exact hw.looked u hlook hu
    · rw [ht] at hlook
      cases hlook
  · intro hwrites
    obtain ⟨event, hevent, hbumps⟩ := hw.bumped hwrites
    exact ⟨event, List.mem_append_left _ hevent, hbumps⟩
  · intro u self other hpair
    rcases pair_sublist_concat hpair with hpair | ⟨hmem, heq⟩
    · exact hw.apart u self other hpair
    · cases heq
      exact hlooked rfl ⟨self, hmem⟩

end BumpWorld

/-! ### Steps -/

def BumpKept (c n : Slot) (new : α) (heap : Heap α) (ghost : ι → Visit α) (moving : ι → Bool)
    (history : List (Event ι (Call α) (Reply α))) : Prop :=
  ∃ stage, BumpWorld c n new stage heap ghost moving history

section Step

variable {c n : Slot} {new : α} {stage : Stage} {config : Config (object α) ι}
  {ghost : ι → Visit α} {moving : ι → Bool} {t : ι} {call : Call α} {instr : Instr α}
  {next : instr.Answer → Prog (sig α) (Outcome α)}

/-- What the load of `get_ref` gets, if nobody is between the exchange and the store. -/
theorem BumpWorld.behind_of_load
    (hw : BumpWorld c n new stage config.state ghost moving config.history)
    {next : Option α → Prog (sig α) (Outcome α)} {slot : Slot}
    (hat : config.At t call (.loadFull slot) next) (hcond : LoadsSettled (config, moving) t)
    (hnew : config.state.inner c = some new) : stage = .behind := by
  rw [LoadsSettled, hat.instr?_eq] at hcond
  have hsettled : ∀ u, moving u = false := hcond
  match stage, hw with
  | .behind, _ => rfl
  | .before, hw =>
      obtain ⟨old, hne, hold⟩ := hw.source rfl
      rw [hnew, Option.some.injEq] at hold
      exact absurd hold.symm hne
  | .between, hw =>
      obtain ⟨u, oldData, hu⟩ := hw.mover rfl
      have hmoving := (hw.taken u oldData hu).2.2
      rw [hsettled u] at hmoving
      cases hmoving

/-- A call returns what the thread has. -/
theorem BumpWorld.respond [DecidableEq ι]
    (hw : BumpWorld c n new stage config.state ghost moving config.history) {result : Reply α}
    (hfinish : (visiting c n new).finish call result (ghost t)) :
    BumpWorld c n new stage config.state (Function.update ghost t .away) moving
      (config.history ++ [.respond t call result]) := by
  have haway : Function.update ghost t .away t = .away := Function.update_self ..
  match result with
  | .refGuard node =>
      have ht : ghost t = .got node := hfinish
      have hrest := hw.rest (t := t) (by rw [ht]; rintro _ ⟨⟩)
      refine hrest.finish haway ?_ (by rintro ⟨⟩)
      rintro ⟨⟩
      exact hw.got t ht
  | .bool answer =>
      have ht : ghost t = .looked answer := hfinish
      have hrest := hw.rest (t := t) (by rw [ht]; rintro _ ⟨⟩)
      refine hrest.finish haway (by rintro ⟨⟩) ?_
      rintro ⟨⟩
      exact hw.looked t ht
  | .unit =>
      have ht : ghost t = .moved := hfinish
      have hrest := hw.rest (t := t) (by rw [ht]; rintro _ ⟨⟩)
      exact hrest.finish haway (by rintro ⟨⟩) (by rintro ⟨⟩)
  | .swapped _ | .mutGuard _ => exact absurd hfinish id

/-- What the load of `is_null` gets. -/
theorem BumpWorld.look [DecidableEq ι]
    (hw : BumpWorld c n new stage config.state ghost moving config.history)
    (ht : ghost t = .away) :
    BumpWorld c n new stage config.state
      (Function.update ghost t (.looked (config.state.inner n).isNone)) moving config.history := by
  refine hw.visit (by rw [ht]; rintro _ ⟨⟩) id (by rintro ⟨⟩) ?_
  intro hnull hinformed
  have hsome := hw.target (hw.informed t hinformed)
  rw [Visit.looked.injEq, Option.isNone_iff_eq_none] at hnull
  rw [hnull] at hsome
  cases hsome

/-- An access. -/
theorem BumpWorld.access [DecidableEq ι]
    (hw : BumpWorld c n new stage config.state ghost moving config.history)
    (hat : config.At t call instr next) (hcond : LoadsSettled (config, moving) t)
    (hmay : (visiting c n new).may call (ghost t) instr) {answer : instr.Answer}
    (hexec : (exec instr config.state).2 = some answer) :
    ∃ g, (visiting c n new).move call (ghost t) instr answer g ∧
      BumpKept c n new (exec instr config.state).1 (Function.update ghost t g)
        (Function.update moving t (movingAfter config.state call instr (moving t)))
        config.history := by
  have hlog : movingAfter config.state call instr (moving t) = moving t →
      Function.update moving t (movingAfter config.state call instr (moving t)) = moving := by
    intro hsame
    rw [hsame, Function.update_eq_self]
  have hlocks : (exec instr config.state).1.inner = config.state.inner →
      movingAfter config.state call instr (moving t) = moving t →
      BumpKept c n new (exec instr config.state).1 (Function.update ghost t (ghost t))
        (Function.update moving t (movingAfter config.state call instr (moving t)))
        config.history := by
    intro hinner hsame
    rw [hlog hsame, Function.update_eq_self]
    exact ⟨stage, hw.frame hinner⟩
  match instr with
  | .awaitImm _ | .acquireMut _ | .acquireImm _ | .releaseMut _ | .releaseImm _ =>
      exact ⟨ghost t, rfl, hlocks rfl rfl⟩
  | .load slot =>
      cases hexec
      refine ⟨_, rfl, ?_⟩
      cases hlooks : call.looks with
      | false => exact hlocks rfl rfl
      | true =>
          obtain ⟨rfl, ht⟩ := hmay hlooks
          refine ⟨stage, ?_⟩
          rw [hlog rfl, if_pos rfl]
          exact hw.look ht
  | .loadFull slot =>
      obtain ⟨rfl, ht⟩ := hmay
      cases hexec
      refine ⟨_, rfl, stage, ?_⟩
      rw [hlog rfl]
      refine hw.visit (by rw [ht]; rintro _ ⟨⟩) id ?_ (by rintro ⟨⟩)
      intro hnew
      exact hw.behind_of_load hat hcond (Visit.got.inj hnew)
  | .store slot content =>
      obtain ⟨rfl, ht⟩ := hmay
      exact ⟨_, rfl, .behind, hw.store ht⟩
  | .swap slot content =>
      obtain ⟨rfl, rfl, ht⟩ := hmay
      cases hexec
      exact ⟨_, rfl, .between, hw.exchange ht⟩
  | .alloc content => exact absurd hmay id

end Step

theorem visiting_keeps [DecidableEq ι] (c n : Slot) (new : α) :
    (visiting c n new).KeepsLog movingAfter
      (fun before (action : Action (object α) ι) =>
        Visited c n new before.1 action ∧ LoadsOnlySettled before action) (BumpKept c n new) where
  invoke := by
    rintro config ghost moving t call ⟨stage, hw⟩ ⟨⟨hcall, hfirst⟩, -⟩ hrest
    have hrest : ghost t = .away := hrest
    refine ⟨if call.bumps then .waiting else .away, ⟨hcall, rfl⟩, stage, ?_⟩
    cases hbumps : call.bumps with
    | true => exact hw.wait hbumps (hfirst hbumps)
    | false =>
        rw [if_neg Bool.false_ne_true, ← hrest, Function.update_eq_self]
        exact hw.begin t call
  respond := by
    rintro config ghost moving t call result ⟨stage, hw⟩ - - hfinish
    exact ⟨stage, hw.respond hfinish⟩
  jump := by
    rintro config ghost moving t call ⟨⟩
  answered := by
    rintro config ghost moving t call instr next state answer ⟨stage, hw⟩ hat ⟨-, hcond⟩ hmay hexec
    have hstate : (exec instr config.state).1 = state := congrArg Prod.fst hexec
    subst hstate
    exact hw.access hat hcond hmay (congrArg Prod.snd hexec)
  retried := by
    rintro config ghost moving t call instr next state ⟨stage, hw⟩ - - - hexec
    have hstate : (exec instr config.state).1 = state := congrArg Prod.fst hexec
    subst hstate
    have hsame : (exec instr config.state).1.inner = config.state.inner ∧
        movingAfter config.state call instr (moving t) = moving t := by
      match instr with
      | .awaitImm _ | .acquireMut _ | .acquireImm _ => exact ⟨rfl, rfl⟩
    rw [hsame.2, Function.update_eq_self]
    exact ⟨stage, hw.frame hsame.1⟩

/-- **A move is atomic to readers** in every run in which no reader loads between the exchange and the
store: who has got the new data from `c` does not see `n` null any more. -/
theorem bump_atomic [DecidableEq ι] {c n : Slot} {old new : α} (hne : old ≠ new) {heap : Heap α}
    (hold : heap.inner c = some old) {config : Config (object α) ι} {moving : ι → Bool}
    (hreach : (((object α).threads ι).monitored (logging movingAfter)).Reach
      (fun before action => Visited c n new before.1 action ∧ LoadsOnlySettled before action)
      (.initial heap, fun _ => false) (config, moving)) (t : ι) (self other : CowData) :
    ¬ [.respond t (.getRef self) (.refGuard (some new)),
      .respond t (.isNull other) (.bool true)].Sublist config.history := by
  have hstart : BumpKept c n new heap (fun _ : ι => .away) (fun _ => false) [] := by
    refine ⟨.before, fun _ => ⟨old, hne, hold⟩, ?_, ?_, ?_, ?_, ?_, ?_, ?_, ?_, ?_, ?_⟩
    · rintro ⟨⟩
    · rintro u ⟨⟩
    · rintro u oldData ⟨⟩
    · rintro ⟨⟩
    · rintro u ⟨⟩
    · rintro u ⟨self, ⟨⟩⟩
    · rintro u ⟨⟩
    · rintro u v ⟨⟩
    · rintro (hfalse | ⟨u, ⟨⟩⟩)
      exact absurd rfl hfalse
    · rintro u self other ⟨⟩
  obtain ⟨ghost, -, stage, hw⟩ :=
    Protocol.log_invariant (visiting_sound c n new) (visiting_keeps c n new) hstart hreach
  exact hw.apart t self other

/-- The reader waits before the move and loads behind the store. -/
theorem bump_atomic_waited :
    ∃ config : Config (object ℕ) Bool,
      .respond false (.getRef ⟨0, false⟩) (.refGuard (some 7)) ∈ config.history ∧
      config.history.getLast? = some (.respond false (.isNull ⟨1, false⟩) (.bool false)) ∧
      ¬ [.respond false (.getRef ⟨0, false⟩) (.refGuard (some 7)),
        .respond false (.isNull ⟨1, false⟩) (.bool true)].Sublist config.history := by
  obtain ⟨config, moving, hrun, hgot, hlast⟩ : ∃ config moving,
      (((object ℕ).threads Bool).monitored (logging movingAfter)).runIf
        (fun before action => Visited 0 1 7 before.1 action ∧ LoadsOnlySettled before action)
        (.initial ((Heap.empty.alloc (some 0)).alloc none), fun _ => false)
        (.invoke false (.getRef ⟨0, false⟩) :: List.replicate 2 (.tick false) ++
          .invoke true (.bumpIntoNull ⟨0, false⟩ ⟨1, false⟩ 7) :: List.replicate 6 (.tick true) ++
          List.replicate 2 (.tick false) ++ .invoke false (.isNull ⟨1, false⟩) ::
          List.replicate 3 (.tick false)) = some (config, moving) ∧
      config.history[2]? = some (.respond false (.getRef ⟨0, false⟩) (.refGuard (some 7))) ∧
      config.history.getLast? = some (.respond false (.isNull ⟨1, false⟩) (.bool false)) :=
    ⟨_, _, rfl, rfl, rfl⟩
  have hne : (0 : ℕ) ≠ 7 := by decide
  exact ⟨config, List.mem_of_getElem? hgot, hlast,
    bump_atomic hne rfl (System.reach_of_runIf _ hrun) false ⟨0, false⟩ ⟨1, false⟩⟩

/-- The reader waits before the move and loads between the exchange and the store. -/
def loadsBetween : List (Action (object ℕ) Bool) :=
  .invoke false (.getRef ⟨0, false⟩) :: List.replicate 2 (.tick false) ++
    .invoke true (.bumpIntoNull ⟨0, false⟩ ⟨1, false⟩ 7) :: List.replicate 5 (.tick true) ++
    List.replicate 2 (.tick false) ++ .invoke false (.isNull ⟨1, false⟩) ::
    List.replicate 3 (.tick false)

theorem bump_atomic_fails :
    ¬ ∀ config : Config (object ℕ) Bool,
      ((object ℕ).threads Bool).Reach (Visited 0 1 7)
        (.initial ((Heap.empty.alloc (some 0)).alloc none)) config →
      ∀ t self other, ¬ [.respond t (.getRef self) (.refGuard (some 7)),
        .respond t (.isNull other) (.bool true)].Sublist config.history := by
  intro hclaim
  obtain ⟨config, hrun, hhistory⟩ : ∃ config : Config (object ℕ) Bool,
      ((object ℕ).threads Bool).runIf (Visited 0 1 7)
        (.initial ((Heap.empty.alloc (some 0)).alloc none)) loadsBetween = some config ∧
      config.history = [.invoke false (.getRef ⟨0, false⟩),
        .invoke true (.bumpIntoNull ⟨0, false⟩ ⟨1, false⟩ 7),
        .respond false (.getRef ⟨0, false⟩) (.refGuard (some 7)),
        .invoke false (.isNull ⟨1, false⟩),
        .respond false (.isNull ⟨1, false⟩) (.bool true)] := ⟨_, rfl, rfl⟩
  refine hclaim config (System.reach_of_runIf _ hrun) false ⟨0, false⟩ ⟨1, false⟩ ?_
  rw [hhistory]
  simp

end Mutual.CowData.Guarded
