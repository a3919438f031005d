import Mutual.Concurrency.Completion
import Mutual.Proof.Snapshots

/-!
# An iterator of an unordered list goes through one state of it

An iterator stands at a slot, at first at `head`. Its first `next` reads the content of `head`, and
then the iterator stands behind a node, where nothing is written any more. So what it yields is what
was in the list at one moment of its first `next`, however much time passes between its calls and
whatever is pushed and popped in the meantime. Clones of an iterator, and iterators that have come to
the same slot, have the same before them.
-/

namespace Mutual.SharedList

open Concurrency Data

variable {T : Type}

/-- A list, with what iterators have before them where they stand. -/
structure Tour (T : Type) where
  elements : List T
  ahead : Slot → Option (List T)

namespace Tour

def start (elements : List T) : Tour T := { elements := elements, ahead := fun _ => none }

/-- A new iterator has the whole list before it. -/
def before (tour : Tour T) (current : Slot) : Option (List T) :=
  if current = headSlot then some tour.elements else tour.ahead current

def reach (tour : Tour T) (next : Slot) (rest : List T) : Tour T :=
  { tour with ahead := Function.update tour.ahead next (some rest) }

/-- What is known of a slot stays known. -/
def Grows (tour after : Tour T) : Prop :=
  ∀ slot, (tour.ahead slot).isSome → (after.ahead slot).isSome

theorem grows_of_eq {tour after : Tour T} (hahead : after.ahead = tour.ahead) : tour.Grows after := by
  intro slot hslot
  rw [hahead]
  exact hslot

theorem grows_reach (tour : Tour T) (next : Slot) (rest : List T) :
    tour.Grows (tour.reach next rest) := by
  intro slot hslot
  change (Function.update tour.ahead next (some rest) slot).isSome
  by_cases hnext : slot = next
  · rw [hnext, Function.update_self]
    rfl
  · rw [Function.update_of_ne hnext]
    exact hslot

theorem Grows.before {tour after : Tour T} (hgrows : tour.Grows after) {current : Slot}
    (hbefore : (tour.before current).isSome) : (after.before current).isSome := by
  unfold Tour.before at hbefore ⊢
  split
  · rfl
  · rename_i hhead
    rw [if_neg hhead] at hbefore
    exact hgrows current hbefore

end Tour

/-- A stack with iterators. Where an iterator gets to, there is nothing known yet or just what it
leaves behind. -/
inductive TourStep : Tour T → Call T → Reply T → Tour T → Prop
  | edit {tour : Tour T} {call : Call T} {result : Reply T} {xs' : List T} :
      StackStep tour.elements call result xs' →
      TourStep tour call result { tour with elements := xs' }
  | ended {tour : Tour T} {current : Slot} : tour.before current = some [] →
      TourStep tour (.iterNext current) (.yielded none) tour
  | yields {tour : Tour T} {current next : Slot} {data : T} {rest : List T} :
      tour.before current = some (data :: rest) → next ≠ headSlot →
      (∀ known ∈ tour.ahead next, known = rest) →
      TourStep tour (.iterNext current) (.yielded (some (data, next))) (tour.reach next rest)

namespace TourStep

variable {tour after : Tour T} {call : Call T} {result : Reply T}

/-- What an iterator has before it does not change any more. -/
theorem kept (hstep : TourStep tour call result after) {slot : Slot} {rest : List T}
    (hahead : tour.ahead slot = some rest) : after.ahead slot = some rest := by
  cases hstep with
  | edit | ended => exact hahead
  | @yields _ next _ rest' _ _ hknown =>
      change Function.update tour.ahead next (some rest') slot = some rest
      by_cases hnext : slot = next
      · subst hnext
        rw [Function.update_self, hknown rest hahead]
      · rw [Function.update_of_ne hnext]
        exact hahead

/-- At `head` there is the list itself. -/
theorem ahead_head (hstep : TourStep tour call result after) (hhead : tour.ahead headSlot = none) :
    after.ahead headSlot = none := by
  cases hstep with
  | edit | ended => exact hhead
  | yields _ hnext _ => exact (Function.update_of_ne (Ne.symm hnext) ..).trans hhead

end TourStep

theorem stackStep_pushesOrPops {xs xs' : List T} {call : Call T} {result : Reply T}
    (hstep : StackStep xs call result xs') : call.PushesOrPops := by
  cases hstep <;> trivial

/-! ### What an iterator yields -/

/-- An iterator goes from one slot to another, and `xs` is what it yields on the way. -/
inductive Trip (order : List (Entry (Call T) (Reply T))) : Slot → List T → Slot → Prop
  | stay {current : Slot} : Trip order current [] current
  | next {invoked : Nat} {current next last : Slot} {data : T} {xs : List T} :
      ⟨invoked, .iterNext current, .yielded (some (data, next))⟩ ∈ order →
      Trip order next xs last → Trip order current (data :: xs) last

/-- The iterator has come to its end. -/
def Ends (order : List (Entry (Call T) (Reply T))) (current : Slot) : Prop :=
  ∃ invoked, ⟨invoked, .iterNext current, .yielded none⟩ ∈ order

section Trips

variable {elements : List T} {order : List (Entry (Call T) (Reply T))} {tour : Tour T}
  {current next last : Slot} {data : T} {xs : List T}

theorem ahead_head_eq_none (hseq : Sequential TourStep (.start elements) order tour) :
    tour.ahead headSlot = none :=
  hseq.keeps (I := fun tour => tour.ahead headSlot = none)
    (fun _ _ _ _ hstep => hstep.ahead_head) rfl

theorem Tour.before_of_ahead {rest : List T} (hhead : current ≠ headSlot) :
    tour.before current = some rest ↔ tour.ahead current = some rest := by
  rw [Tour.before, if_neg hhead]

theorem Tour.ahead_kept {tour' : Tour T} (hseq : Sequential TourStep tour' order tour) {slot : Slot}
    {rest : List T} (hahead : tour'.ahead slot = some rest) : tour.ahead slot = some rest :=
  hseq.keeps (I := fun tour => tour.ahead slot = some rest) (fun _ _ _ _ hstep => hstep.kept) hahead

/-- An iterator yields the first of what it has before it. -/
theorem yields_of_mem (hseq : Sequential TourStep (.start elements) order tour) {invoked : Nat}
    (hmem : ⟨invoked, .iterNext current, .yielded (some (data, next))⟩ ∈ order) :
    ∃ earlier later tour' rest,
      order = earlier ++ ⟨invoked, .iterNext current, .yielded (some (data, next))⟩ :: later ∧
        Sequential TourStep (.start elements) earlier tour' ∧
        tour'.before current = some (data :: rest) ∧ tour.ahead next = some rest ∧
        (current ≠ headSlot → tour.ahead current = some (data :: rest)) := by
  obtain ⟨earlier, later, tour', after, horder, hearlier, hstep, hlater⟩ := hseq.split hmem
  have hfirst : ∀ {slot : Slot} {rest : List T}, tour'.ahead slot = some rest →
      tour.ahead slot = some rest := fun hahead => Tour.ahead_kept hlater (hstep.kept hahead)
  cases hstep with
  | edit hstack => exact (stackStep_pushesOrPops hstack).elim
  | @yields _ _ _ rest hbefore hnext hknown =>
      refine ⟨earlier, later, tour', rest, horder, hearlier, hbefore, ?_, fun hhead => ?_⟩
      · exact Tour.ahead_kept hlater (Function.update_self ..)
      · exact hfirst ((Tour.before_of_ahead hhead).mp hbefore)

theorem Ends.ahead_eq_nil (hends : Ends order last)
    (hseq : Sequential TourStep (.start elements) order tour) (hhead : last ≠ headSlot) :
    tour.ahead last = some [] := by
  obtain ⟨invoked, hmem⟩ := hends
  obtain ⟨earlier, later, tour', after, -, -, hstep, hlater⟩ := hseq.split hmem
  cases hstep with
  | edit hstack => exact (stackStep_pushesOrPops hstack).elim
  | ended hbefore => exact Tour.ahead_kept hlater ((Tour.before_of_ahead hhead).mp hbefore)

/-- What an iterator yields on its way is the first of what it has before it, and it comes to its end
when that is all. -/
theorem Trip.ahead (htrip : Trip order current xs last)
    (hseq : Sequential TourStep (.start elements) order tour) {before : List T}
    (hbefore : tour.ahead current = some before) :
    ∃ rest, before = xs ++ rest ∧ (Ends order last → rest = []) := by
  have hne : ∀ {slot : Slot} {rest : List T}, tour.ahead slot = some rest → slot ≠ headSlot := by
    rintro slot rest hahead rfl
    rw [ahead_head_eq_none hseq] at hahead
    cases hahead
  induction htrip generalizing before with
  | stay =>
      refine ⟨before, rfl, fun hends => ?_⟩
      rw [hends.ahead_eq_nil hseq (hne hbefore)] at hbefore
      exact (Option.some.inj hbefore).symm
  | next hmem _ ih =>
      obtain ⟨-, -, -, rest, -, -, -, hnext, hcurrent⟩ := yields_of_mem hseq hmem
      obtain ⟨rest', hrest, hends⟩ := ih hnext
      have hsame := (hcurrent (hne hbefore)).symm.trans hbefore
      refine ⟨rest', ?_, hends⟩
      rw [← Option.some.inj hsame, hrest, List.cons_append]

end Trips

/-- Where the iterator stands that a reply leaves behind. -/
def leftAt {ι : Type} : Event ι (Call T) (Reply T) → Option Slot
  | .respond _ (.iterNext _) (.yielded (some (_, next))) => some next
  | _ => none

/-- The iterators are those of the list: new ones, and ones that earlier calls have left behind. -/
def Call.OnTour {ι : Type} (history : List (Event ι (Call T) (Reply T))) : Call T → Prop
  | push _ | pop => True
  | iterNext current => current = headSlot ∨ ∃ event ∈ history, leftAt event = some current
  | _ => False

def Touring {ι : Type} {orderFn : Option (T → T → Ordering)} (config : Config (object orderFn) ι) :
    Action (object orderFn) ι → Prop
  | .invoke _ call => call.OnTour config.history
  | .tick _ => True

instance {ι : Type} (history : List (Event ι (Call T) (Reply T))) :
    DecidablePred (Call.OnTour history)
  | .push _ | .pop => .isTrue trivial
  | .iterNext current =>
      inferInstanceAs (Decidable (current = headSlot ∨ ∃ event ∈ history, leftAt event = some current))
  | .removeCount _ _ | .setEnforceNoneq _ | .len | .isEmpty | .search _ | .any _
  | .iterMutNext _ | .dropMut _ => .isFalse id

instance {ι : Type} {orderFn : Option (T → T → Ordering)} (config : Config (object orderFn) ι) :
    ∀ action, Decidable (Touring config action)
  | .invoke _ call => inferInstanceAs (Decidable (call.OnTour config.history))
  | .tick _ => .isTrue trivial

/-! ### The code -/

/-- A thread edits the list, or it is in the `next` of an iterator. -/
inductive Guest (T : Type) where
  | editor (s : Stage T)
  | looking (current : Slot)
  | told (current : Slot) (result : Reply T)

namespace Guest

def stage : Guest T → Stage T
  | editor s => s
  | looking _ | told _ _ => .idle

def phase : Guest T → Phase (Call T) (Reply T)
  | editor s => s.phase
  | looking current => .called (.iterNext current)
  | told current result => .effective (.iterNext current) result

def May : Guest T → Instr T → Prop
  | editor s, instr => s.May instr
  | looking _, .cow (.awaitImm _) => True
  | looking current, .cow (.load slot) | looking current, .cow (.loadFull slot) => slot = current
  | _, _ => False

def Move : Guest T → (instr : Instr T) → instr.Answer → Guest T → Prop
  | editor s, instr, answer, guest => ∃ s', s.Move instr answer s' ∧ guest = editor s'
  | looking current, .cow (.load _), none, guest => guest = told current (.yielded none)
  | looking current, .cow (.loadFull _), some node, guest =>
      guest = told current (.yielded (some (node.data, node.next)))
  | guest, _, _, guest' => guest' = guest

theorem not_may_acquireImm (guest : Guest T) (slot : Slot) :
    ¬ guest.May (.cow (.acquireImm slot)) := by
  cases guest with
  | editor s => exact s.not_may_acquireImm slot
  | looking | told => exact id

end Guest

def touring : Protocol (object (T := T) none) (Guest T) where
  rest := .editor .idle
  start call guest := call.PushesOrPops ∧ guest = .editor (.waiting call) ∨
    ∃ current, call = .iterNext current ∧ guest = .looking current
  may _ guest := guest.May
  move _ guest := guest.Move
  fail _ _ := True
  arrive _ _ _ := False
  leave _ _ _ := False
  finish call result guest := call.PushesOrPops ∧ guest = .editor (.finished call result) ∨
    ∃ current, call = .iterNext current ∧ guest = .told current result

section Code

variable {call : Call T}

/-- Code of a push or a pop. -/
theorem touring_of_stacking (hcall : call.PushesOrPops) {code : Prog (sig T) (Outcome T)}
    {s : Stage T} (hobeys : stacking.Obeys call code s) : touring.Obeys call code (.editor s) := by
  induction code generalizing s with
  | ret outcome =>
      cases outcome with
      | inl label => exact hobeys.elim
      | inr result => exact .inl ⟨hcall, congrArg Guest.editor hobeys⟩
  | panic message => trivial
  | op instr next ih =>
      obtain ⟨hmay, hnext⟩ := hobeys
      refine ⟨hmay, ?_⟩
      rintro answer guest ⟨s', hmove, rfl⟩
      exact ih answer (hnext answer s' hmove)

/-- The `next` of an iterator tests its slot and reads the node. -/
theorem touring_iterNext {current : Slot} :
    touring.Obeys (.iterNext current)
      (iterNext current fun entry => reply (.yielded entry) : Prog (sig T) (Outcome T))
      (.looking current) := by
  change touring.Obeys _ ((cow (link current).isNull).bind fun null =>
    if null then reply (.yielded none)
    else (cow (link current).getRef).bind fun content => (unwrap content).bind fun node =>
      reply (.yielded (some (node.data, node.next)))) _
  simp only [isNull_bind, getRef_bind]
  refine ⟨trivial, ?_⟩
  rintro _ guest rfl
  refine ⟨rfl, ?_⟩
  intro content guest hmove
  cases content with
  | none =>
      obtain rfl : guest = .told current (.yielded none) := hmove
      exact .inr ⟨current, rfl, rfl⟩
  | some node =>
      obtain rfl : guest = .looking current := hmove
      refine ⟨trivial, ?_⟩
      rintro _ guest rfl
      refine ⟨rfl, ?_⟩
      intro content guest hmove
      cases content with
      | none => trivial
      | some node =>
          obtain rfl : guest = .looking current := hmove
          refine ⟨rfl, ?_⟩
          intro content guest hmove
          cases content with
          | none => trivial
          | some node =>
              obtain rfl : guest = .told current (.yielded (some (node.data, node.next))) := hmove
              exact .inr ⟨current, rfl, rfl⟩

theorem touring_sound : (touring (T := T)).Sound where
  enter := by
    rintro call guest (⟨hcall, rfl⟩ | ⟨current, rfl, rfl⟩)
    · exact touring_of_stacking hcall (stacking_sound.enter call _ ⟨hcall, rfl⟩)
    · exact touring_iterNext
  body _ _ _ hleave := hleave.elim

end Code

/-! ### The memory -/

/-- The chain behind a slot is one. -/
theorem Behind.unique {list : SharedList T} {slot : Slot} {rest rest' : List T}
    (hbehind : Behind list slot rest) (hbehind' : Behind list slot rest') : rest = rest' := by
  obtain ⟨slots, hchain, -, -⟩ := hbehind
  obtain ⟨slots', hchain', -, -⟩ := hbehind'
  exact (hchain.unique hchain').2

theorem Behind.ne_head {list : SharedList T} {slot : Slot} {rest : List T}
    (hbehind : Behind list slot rest) : slot ≠ headSlot := by
  obtain ⟨slots, -, hhead, -⟩ := hbehind
  exact (List.ne_of_not_mem_cons hhead).symm

namespace Guest

/-- An iterator is at a slot that is known, and so is the slot it gets to. -/
def Knows (tour : Tour T) : Guest T → Prop
  | looking current => (tour.before current).isSome
  | told _ (.yielded (some (_, next))) => (tour.ahead next).isSome
  | _ => True

theorem Knows.grows {tour after : Tour T} (hgrows : tour.Grows after) {guest : Guest T}
    (hknows : guest.Knows tour) : guest.Knows after := by
  match guest, hknows with
  | looking _, hknows => exact hgrows.before hknows
  | told _ (.yielded (some (_, next))), hknows => exact hgrows next hknows
  | told _ (.yielded none), _ | editor _, _ => trivial
  | told _ .unit, _ | told _ (.popped _), _ | told _ (.removed _), _ | told _ (.size _), _
  | told _ (.bool _), _ | told _ (.found _), _ | told _ (.lent _), _ => trivial

end Guest

variable {ι : Type} [DecidableEq ι]

/-- The memory holds the list, and what the iterators have before them. -/
structure Guided (initial : List T) (list : SharedList T) (guest : ι → Guest T)
    (history : List (Event ι (Call T) (Reply T))) (slots : List Slot)
    (order : List (Entry (Call T) (Reply T))) (tour : Tour T) : Prop where
  world : StackWorld list (fun t => (guest t).stage) slots tour.elements
  ahead : ∀ slot rest, tour.ahead slot = some rest → Behind list slot rest
  knows : ∀ t, (guest t).Knows tour
  known : ∀ event ∈ history, ∀ slot, leftAt event = some slot → (tour.ahead slot).isSome
  pointed : Pointed TourStep (.start initial) history (fun t => (guest t).phase) order tour

namespace Guided

variable {initial : List T} {list after : SharedList T} {guest : ι → Guest T}
  {history : List (Event ι (Call T) (Reply T))} {slots : List Slot}
  {order : List (Entry (Call T) (Reply T))} {tour : Tour T} {t : ι}

/-- A thread goes on; it takes effect or it does not. -/
theorem move (hg : Guided initial list guest history slots order tour) {slots' : List Slot}
    {tour' : Tour T} {s : Guest T}
    (hworld : StackWorld after (Function.update (fun u => (guest u).stage) t s.stage) slots'
      tour'.elements)
    (hahead : ∀ slot rest, tour'.ahead slot = some rest → Behind after slot rest)
    (hgrows : tour.Grows tour') (hknows : s.Knows tour')
    (htakes : s.phase = (guest t).phase ∧ tour' = tour ∨ ∃ call result,
      (guest t).phase = .called call ∧ s.phase = .effective call result ∧
        TourStep tour call result tour') :
    ∃ order', Guided initial after (Function.update guest t s) history slots' order' tour' := by
  have hworld' : StackWorld after (fun u => (Function.update guest t s u).stage) slots'
      tour'.elements := by
    rw [field_update]
    exact hworld
  have hknows' : ∀ u, (Function.update guest t s u).Knows tour' :=
    (Function.forall_update_iff guest fun _ s => s.Knows tour').mpr
      ⟨hknows, fun u _ => (hg.knows u).grows hgrows⟩
  have hknown : ∀ event ∈ history, ∀ slot, leftAt event = some slot →
      (tour'.ahead slot).isSome := by
    intro event hmem slot hslot
    exact hgrows slot (hg.known event hmem slot hslot)
  have hphase := field_update Guest.phase guest t s
  rcases htakes with ⟨hsame, rfl⟩ | ⟨call, result, hcalled, heffective, hspec⟩
  · refine ⟨order, hworld', hahead, hknows', hknown, ?_⟩
    rw [hphase, hsame, Function.update_eq_self]
    exact hg.pointed
  · obtain ⟨entry, hpoint⟩ := hg.pointed.point hcalled hspec
    refine ⟨order ++ [entry], hworld', hahead, hknows', hknown, ?_⟩
    rw [hphase, heffective]
    exact hpoint

/-- An iterator gets its answer. -/
theorem tell (hg : Guided initial list guest history slots order tour) {current : Slot}
    (hguest : guest t = .looking current) {result : Reply T} {tour' : Tour T}
    (helements : tour'.elements = tour.elements)
    (hahead : ∀ slot rest, tour'.ahead slot = some rest → Behind list slot rest)
    (hgrows : tour.Grows tour') (hknows : (Guest.told current result).Knows tour')
    (hspec : TourStep tour (.iterNext current) result tour') :
    ∃ order', Guided initial list (Function.update guest t (.told current result)) history slots
      order' tour' := by
  refine hg.move ?_ hahead hgrows hknows (.inr ⟨_, _, ?_, rfl, hspec⟩)
  · have hstage : (Guest.told current result).stage = (guest t).stage := by
      rw [hguest]
      rfl
    rw [hstage, Function.update_eq_self, helements]
    exact hg.world
  · rw [hguest]
    rfl

omit [DecidableEq ι] in
/-- An iterator finds its slot empty: it has nothing before it. -/
theorem before_eq_nil (hg : Guided initial list guest history slots order tour) {current : Slot}
    (hknown : (tour.before current).isSome) (hcontent : list.heap.inner current = none) :
    tour.before current = some [] := by
  unfold Tour.before at hknown ⊢
  split
  · rename_i hhead
    subst hhead
    rw [(hg.world.chain.of_head_eq_none (Heap.links_eq_none hcontent)).2]
  · rename_i hhead
    rw [if_neg hhead] at hknown
    obtain ⟨rest, hrest⟩ := Option.isSome_iff_exists.mp hknown
    rw [hrest, (hg.ahead current rest hrest).eq_nil hcontent]

omit [DecidableEq ι] in
/-- An iterator reads a node: it is the first of what the iterator has before it. -/
theorem before_eq_cons (hg : Guided initial list guest history slots order tour) {current : Slot}
    (hknown : (tour.before current).isSome) {node : Node T}
    (hcontent : list.heap.inner current = some node) :
    ∃ rest, tour.before current = some (node.data :: rest) ∧ Behind list node.next rest := by
  unfold Tour.before at hknown ⊢
  split
  · rename_i hhead
    subst hhead
    obtain ⟨rest, helements, hbehind⟩ := hg.world.behind hcontent
    exact ⟨rest, congrArg some helements, hbehind⟩
  · rename_i hhead
    rw [if_neg hhead] at hknown
    obtain ⟨before, hbefore⟩ := Option.isSome_iff_exists.mp hknown
    obtain ⟨rest, rfl, hbehind⟩ := (hg.ahead current before hbefore).next hcontent
    exact ⟨rest, hbefore, hbehind⟩

theorem reads_end (hg : Guided initial list guest history slots order tour) {current : Slot}
    (hguest : guest t = .looking current) (hcontent : list.heap.inner current = none) :
    ∃ order', Guided initial list (Function.update guest t (.told current (.yielded none))) history
      slots order' tour := by
  have hknows := hg.knows t
  rw [hguest] at hknows
  exact hg.tell hguest rfl hg.ahead (Tour.grows_of_eq rfl) trivial
    (.ended (hg.before_eq_nil hknows hcontent))

theorem reads_node (hg : Guided initial list guest history slots order tour) {current : Slot}
    (hguest : guest t = .looking current) {node : Node T}
    (hcontent : list.heap.inner current = some node) :
    ∃ order' tour', Guided initial list
      (Function.update guest t (.told current (.yielded (some (node.data, node.next))))) history
        slots order' tour' := by
  have hknows := hg.knows t
  rw [hguest] at hknows
  obtain ⟨rest, hbefore, hbehind⟩ := hg.before_eq_cons hknows hcontent
  have hconsistent : ∀ known ∈ tour.ahead node.next, known = rest := by
    intro known hknown
    exact (hg.ahead node.next known hknown).unique hbehind
  have hahead : ∀ slot rest', (tour.reach node.next rest).ahead slot = some rest' →
      Behind list slot rest' := by
    intro slot rest' hslot
    change Function.update tour.ahead node.next (some rest) slot = some rest' at hslot
    by_cases hnext : slot = node.next
    · rw [hnext, Function.update_self] at hslot
      rw [hnext, ← Option.some.inj hslot]
      exact hbehind
    · rw [Function.update_of_ne hnext] at hslot
      exact hg.ahead slot rest' hslot
  have hreached : (Guest.told current (.yielded (some (node.data, node.next)))).Knows
      (tour.reach node.next rest) := by
    change (Function.update tour.ahead node.next (some rest) node.next).isSome
    rw [Function.update_self]
    rfl
  have hsame : (tour.reach node.next rest).elements = tour.elements := rfl
  obtain ⟨order', hg'⟩ := hg.tell hguest hsame hahead (tour.grows_reach node.next rest) hreached
    (.yields hbefore hbehind.ne_head hconsistent)
  exact ⟨order', _, hg'⟩

/-- An access of a push or a pop. -/
theorem edits (hg : Guided initial list guest history slots order tour) {s : Stage T}
    (hguest : guest t = .editor s) {instr : Instr T} (hmay : s.May instr) {answer : instr.Answer}
    (hexec : exec instr list = (after, some answer)) :
    ∃ s', s.Move instr answer s' ∧ ∃ slots' order' tour',
      Guided initial after (Function.update guest t (.editor s')) history slots' order' tour' := by
  have hstage : (guest t).stage = s := by
    rw [hguest]
    rfl
  rw [← hstage] at hmay
  obtain ⟨s', slots', xs', hmove, hworld, heffect⟩ := hg.world.effect hmay hexec
  rw [hstage] at hmove heffect
  have htakes : (Guest.editor s').phase = (guest t).phase ∧ { tour with elements := xs' } = tour ∨
      ∃ call result, (guest t).phase = .called call ∧
        (Guest.editor s').phase = .effective call result ∧
          TourStep tour call result { tour with elements := xs' } := by
    rw [hguest]
    rcases heffect.takes with ⟨hphase, hsame⟩ | ⟨call, result, hcalled, heffective, hspec⟩
    · refine .inl ⟨hphase, ?_⟩
      rw [hsame]
    · exact .inr ⟨call, result, hcalled, heffective, .edit hspec⟩
  have hahead : ∀ slot rest, ({ tour with elements := xs' } : Tour T).ahead slot = some rest →
      Behind after slot rest := fun slot rest hslot =>
    (hg.ahead slot rest hslot).frozen heffect.frozen
  have hknows : (Guest.editor s').Knows { tour with elements := xs' } := trivial
  obtain ⟨order', hg'⟩ := hg.move hworld hahead (Tour.grows_of_eq rfl) hknows htakes
  exact ⟨s', hmove, slots', order', _, hg'⟩

theorem answered (hg : Guided initial list guest history slots order tour) {instr : Instr T}
    (hmay : (guest t).May instr) {answer : instr.Answer}
    (hexec : exec instr list = (after, some answer)) :
    ∃ s, (guest t).Move instr answer s ∧ ∃ slots' order' tour',
      Guided initial after (Function.update guest t s) history slots' order' tour' := by
  cases hguest : guest t with
  | editor s =>
      rw [hguest] at hmay
      obtain ⟨s', hmove, hg'⟩ := hg.edits hguest hmay hexec
      exact ⟨.editor s', ⟨s', hmove, rfl⟩, hg'⟩
  | told current result =>
      rw [hguest] at hmay
      exact hmay.elim
  | looking current =>
      rw [hguest] at hmay
      have hstay : after = list → ∃ slots' order' tour',
          Guided initial after (Function.update guest t (.looking current)) history slots' order'
            tour' := by
        rintro rfl
        rw [← hguest, Function.update_eq_self]
        exact ⟨slots, order, tour, hg⟩
      match instr, hmay with
      | .cow (.awaitImm slot), _ =>
          obtain ⟨-, rfl⟩ := awaitImm_answered hexec
          exact ⟨_, rfl, hstay rfl⟩
      | .cow (.load slot), hslot =>
          obtain rfl : slot = current := hslot
          cases hexec
          cases hcontent : list.heap.inner slot with
          | some node => exact ⟨_, rfl, hstay rfl⟩
          | none =>
              obtain ⟨order', hg'⟩ := hg.reads_end hguest hcontent
              exact ⟨_, rfl, slots, order', tour, hg'⟩
      | .cow (.loadFull slot), hslot =>
          obtain rfl : slot = current := hslot
          cases hexec
          cases hcontent : list.heap.inner slot with
          | none => exact ⟨_, rfl, hstay rfl⟩
          | some node =>
              obtain ⟨order', tour', hg'⟩ := hg.reads_node hguest hcontent
              exact ⟨_, rfl, slots, order', tour', hg'⟩

omit [DecidableEq ι] in
/-- An iterator of the list has something known before it. -/
theorem isSome_before (hg : Guided initial list guest history slots order tour) {current : Slot}
    (hcall : (Call.iterNext current : Call T).OnTour history) : (tour.before current).isSome := by
  unfold Tour.before
  split
  · rfl
  · rename_i hhead
    obtain ⟨event, hmem, hleft⟩ := hcall.resolve_left hhead
    exact hg.known event hmem current hleft

omit [DecidableEq ι] in
/-- So has the iterator that an answer leaves behind. -/
theorem isSome_ahead (hg : Guided initial list guest history slots order tour) {call : Call T}
    {result : Reply T} (hfinish : touring.finish call result (guest t)) {next : Slot}
    (hleft : leftAt (.respond t call result) = some next) : (tour.ahead next).isSome := by
  rcases hfinish with ⟨hcall, -⟩ | ⟨current, rfl, hguest⟩
  · cases call with
    | push | pop => cases hleft
    | _ => exact hcall.elim
  · have hknows := hg.knows t
    rw [hguest] at hknows
    match result, hleft with
    | .yielded (some (data, _)), hleft =>
        obtain rfl := Option.some.inj hleft
        exact hknows

/-- A call begins or returns. -/
theorem outside (hg : Guided initial list guest history slots order tour)
    {event : Event ι (Call T) (Reply T)} {s : Guest T} (hlock : ¬ s.stage.HasLock)
    (hknows : s.Knows tour) (hleft : ∀ slot, leftAt event = some slot → (tour.ahead slot).isSome)
    (hpointed : Pointed TourStep (.start initial) (history ++ [event])
      (Function.update (fun u => (guest u).phase) t s.phase) order tour) :
    Guided initial list (Function.update guest t s) (history ++ [event]) slots order tour where
  world := by
    rw [field_update]
    exact hg.world.other_step hlock
  ahead := hg.ahead
  knows := (Function.forall_update_iff guest fun _ s => s.Knows tour).mpr
    ⟨hknows, fun u _ => hg.knows u⟩
  known := by
    intro event' hmem slot hslot
    rcases List.mem_append.mp hmem with hmem | hmem
    · exact hg.known event' hmem slot hslot
    · rw [List.mem_singleton.mp hmem] at hslot
      exact hleft slot hslot
  pointed := by
    rw [field_update]
    exact hpointed

theorem invoke (hg : Guided initial list guest history slots order tour) {call : Call T}
    {s : Guest T} (hlock : ¬ s.stage.HasLock) (hphase : s.phase = .called call)
    (hknows : s.Knows tour) :
    Guided initial list (Function.update guest t s) (history ++ [.invoke t call]) slots order
      tour := by
  refine hg.outside hlock hknows (fun _ => nofun) ?_
  rw [hphase]
  exact hg.pointed.invoke

end Guided

theorem touring_keeps (initial : List T) :
    touring.Keeps (Touring (ι := ι)) fun list guest history =>
      ∃ slots order tour, Guided initial list guest history slots order tour where
  invoke := by
    rintro config guest t call ⟨slots, order, tour, hg⟩ hcall hrest
    cases call with
    | push data => exact ⟨_, .inl ⟨trivial, rfl⟩, slots, order, tour, hg.invoke id rfl trivial⟩
    | pop => exact ⟨_, .inl ⟨trivial, rfl⟩, slots, order, tour, hg.invoke id rfl trivial⟩
    | iterNext current =>
        exact ⟨_, .inr ⟨current, rfl, rfl⟩, slots, order, tour,
          hg.invoke id rfl (hg.isSome_before hcall)⟩
    | _ => exact hcall.elim
  respond := by
    rintro config guest t call result ⟨slots, order, tour, hg⟩ - - hfinish
    have heffective : (guest t).phase = .effective call result := by
      rcases hfinish with ⟨-, hguest⟩ | ⟨current, rfl, hguest⟩
      all_goals
        rw [hguest]
        rfl
    exact ⟨slots, order, tour, hg.outside id trivial (fun _ => hg.isSome_ahead hfinish)
      (hg.pointed.respond heffective)⟩
  jump := by
    intro config guest t call label _ _ _ harrive
    exact harrive.elim
  answered := by
    rintro config guest t call instr next state answer ⟨slots, order, tour, hg⟩ _ _ hmay hexec
    exact hg.answered hmay hexec
  retried := by
    rintro config guest t call instr next state hg _ _ hmay hexec
    rcases retried_cases hexec with ⟨slot, rfl, rfl⟩ | ⟨slot, rfl, -, rfl⟩ | ⟨slot, rfl, -, -⟩
    · exact hg
    · exact hg
    · exact ((guest t).not_may_acquireImm slot hmay).elim

/-- **Iterators are snapshots.** In every run of pushes, pops and iterators of an unordered list the
calls linearize, and what an iterator has yielded is what was in the list when its first `next` took
effect: the first elements, and all of them if the iterator has come to its end. -/
theorem iterators_linearizable {initial : List T} {list : SharedList T}
    (hlist : list.Represents initial) {config : Config (object (T := T) none) ι}
    (hreach : ((object none).threads ι).Reach Touring (.initial list) config) :
    ∃ order tour, Linearization TourStep (.start initial) config.history order tour ∧
      config.state.Holds tour.elements ∧
      ∀ invoked data next xs last,
        ⟨invoked, .iterNext headSlot, .yielded (some (data, next))⟩ ∈ order →
        Trip order next xs last →
        ∃ earlier later tour' rest,
          order = earlier ++ ⟨invoked, .iterNext headSlot, .yielded (some (data, next))⟩ :: later ∧
            Sequential TourStep (.start initial) earlier tour' ∧
            tour'.elements = data :: xs ++ rest ∧ (Ends order last → rest = []) := by
  have hstart : ∃ slots order tour, Guided initial list (fun _ : ι => touring.rest) [] slots order
      tour := by
    obtain ⟨slots, hlayout⟩ := hlist
    refine ⟨slots, [], .start initial, .of_layout hlayout, ?_, fun _ => trivial, ?_, .nil⟩
    · rintro slot rest ⟨⟩
    · rintro event ⟨⟩
  obtain ⟨guest, -, slots, order, tour, hg⟩ :=
    Protocol.invariant touring_sound (touring_keeps initial) hstart hreach
  have hlin := hg.pointed.linearization
  refine ⟨order, tour, hlin, ⟨slots, hg.world.chain⟩, ?_⟩
  intro invoked data next xs last hfirst htrip
  obtain ⟨earlier, later, tour', rest, horder, hearlier, hbefore, hnext, -⟩ :=
    yields_of_mem hlin.sequential hfirst
  obtain ⟨rest', hrest, hends⟩ := htrip.ahead hlin.sequential hnext
  refine ⟨earlier, later, tour', rest', horder, hearlier, ?_, hends⟩
  rw [hrest] at hbefore
  exact Option.some.inj hbefore

/-- An iterator goes on through nodes that have been popped between its calls. -/
theorem iterators_linearizable_popped :
    ∃ config : Config (object (T := Nat) none) Bool,
      config.history = [.invoke true (.iterNext headSlot),
        .respond true (.iterNext headSlot) (.yielded (some (2, 1))), .invoke false .pop,
        .respond false .pop (.popped (some 2)), .invoke false .pop,
        .respond false .pop (.popped (some 1)), .invoke true (.iterNext 1),
        .respond true (.iterNext 1) (.yielded (some (1, 2)))] ∧
      ∃ order tour, Linearization TourStep (.start [2, 1]) config.history order tour ∧
        config.state.Holds tour.elements ∧
        ∀ invoked data next xs last,
          ⟨invoked, .iterNext headSlot, .yielded (some (data, next))⟩ ∈ order →
          Trip order next xs last →
          ∃ earlier later tour' rest,
            order = earlier ++ ⟨invoked, .iterNext headSlot, .yielded (some (data, next))⟩ :: later ∧
              Sequential TourStep (.start [2, 1]) earlier tour' ∧
              tour'.elements = data :: xs ++ rest ∧ (Ends order last → rest = []) := by
  obtain ⟨config, hrun, hhistory⟩ : ∃ config,
      ((object (T := Nat) none).threads Bool).runIf Touring (.initial (ofList [2, 1]))
        (.invoke true (.iterNext headSlot) :: List.replicate 6 (.tick true) ++
          .invoke false .pop :: List.replicate 11 (.tick false) ++
          .invoke false .pop :: List.replicate 11 (.tick false) ++
          .invoke true (.iterNext 1) :: List.replicate 6 (.tick true)) = some config ∧
      config.history = [.invoke true (.iterNext headSlot),
        .respond true (.iterNext headSlot) (.yielded (some (2, 1))), .invoke false .pop,
        .respond false .pop (.popped (some 2)), .invoke false .pop,
        .respond false .pop (.popped (some 1)), .invoke true (.iterNext 1),
        .respond true (.iterNext 1) (.yielded (some (1, 2)))] := ⟨_, rfl, rfl⟩
  exact ⟨config, hhistory,
    iterators_linearizable (ofList_represents [2, 1]) (System.reach_of_runIf _ hrun)⟩

end Mutual.SharedList
