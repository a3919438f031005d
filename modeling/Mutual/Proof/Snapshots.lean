import Mutual.PlainList
import Mutual.Proof.StackSteps

/-!
# A search of an unordered list sees one state of it

As long as the list is changed by `push` and `pop` only, `head` is the only slot that is ever written
again. What lies behind a node stays as it is, even if the node is removed. So all that `find`,
`find_map`, `contains` and `any` on an iterator see is what was in the list at one moment, when they
read `head`; what other threads do to the list in the course of the search makes no difference. The
calls are linearizable together with the pushes and pops.

A search that finds `head` empty at its second test panics.
-/

namespace Mutual.SharedList

open Concurrency Data

variable {T : Type}

def Call.Searches : Call T → Prop
  | search _ | any _ => True
  | _ => False

instance : DecidablePred (Call.Searches (T := T))
  | .search _ | .any _ => .isTrue trivial
  | .push _ | .pop | .removeCount _ _ | .setEnforceNoneq _ | .len | .isEmpty | .iterNext _
  | .iterMutNext _ | .dropMut _ => .isFalse id

def Call.EditsOrSearches (call : Call T) : Prop := call.PushesOrPops ∨ call.Searches

instance : DecidablePred (Call.EditsOrSearches (T := T)) := fun call =>
  inferInstanceAs (Decidable (call.PushesOrPops ∨ call.Searches))

instance {ι : Type} {orderFn : Option (T → T → Ordering)} :
    ∀ (config : Config (object orderFn) ι) action,
      Decidable (OnlyCalls Call.EditsOrSearches config action) := fun _ _ => inferInstance

/-- A stack that can be searched. -/
inductive ListStep : List T → Call T → Reply T → List T → Prop
  | edit {xs xs' : List T} {call : Call T} {result : Reply T} :
      StackStep xs call result xs' → ListStep xs call result xs'
  | search {xs : List T} {func : List T → T → Bool} :
      ListStep xs (.search func) (.found (firstMatch func [] xs)) xs
  | any {xs : List T} {func : T → Bool} : ListStep xs (.any func) (.bool (xs.any func)) xs

/-! ### What a search makes of the elements -/

namespace Call

/-- The reply of a search that ends at an element. -/
def verdict : Call T → List T → T → Option (Reply T)
  | search func, seen, data => if func seen data then some (.found (some (seen, data))) else none
  | any func, _, data => if func data then some (.bool true) else none
  | _, _, _ => none

/-- The reply of a search that comes to the end of the list. -/
def nothing : Call T → Reply T
  | any _ => .bool false
  | _ => .found none

/-- What a search returns that has seen `seen` and has the rest before it. -/
def outcome (call : Call T) : List T → List T → Reply T
  | _, [] => call.nothing
  | seen, data :: rest => (call.verdict seen data).getD (call.outcome (seen ++ [data]) rest)

theorem outcome_search (func : List T → T → Bool) (seen xs : List T) :
    (Call.search func).outcome seen xs = .found (firstMatch func seen xs) := by
  induction xs generalizing seen with
  | nil => rfl
  | cons data rest ih =>
      by_cases hfunc : func seen data = true
      · simp [outcome, verdict, firstMatch, hfunc]
      · simp [outcome, verdict, firstMatch, hfunc, ih]

theorem outcome_any (func : T → Bool) (seen xs : List T) :
    (Call.any func).outcome seen xs = .bool (xs.any func) := by
  induction xs generalizing seen with
  | nil => rfl
  | cons data rest ih =>
      by_cases hfunc : func data = true
      · simp [outcome, verdict, hfunc]
      · simp [outcome, verdict, hfunc, ih]

theorem Searches.step {call : Call T} (hcall : call.Searches) (xs : List T) :
    ListStep xs call (call.outcome [] xs) xs := by
  cases call with
  | search func =>
      rw [outcome_search]
      exact .search
  | any func =>
      rw [outcome_any]
      exact .any
  | _ => exact hcall.elim

end Call

/-! ### Where a search stands -/

/-- `known` is what the search has before it, and nothing until it has read `head`. -/
inductive Look (T : Type) where
  | reading (seen : List T) (current : Slot) (known : Option (List T))
  | examining (seen : List T) (node : Node T) (rest : List T)
  | told (result : Reply T)

namespace Look

def looking : Look T := reading [] headSlot none

def May : Look T → Instr T → Prop
  | reading _ _ _, .cow (.awaitImm _) => True
  | reading _ current _, .cow (.load slot) | reading _ current _, .cow (.loadFull slot) =>
      slot = current
  | examining _ _ _, .callback => True
  | _, _ => False

/-- The element the search is at settles what it returns, or it goes on. -/
def examined (call : Call T) (seen : List T) (node : Node T) (rest : List T) : Look T :=
  match call.verdict seen node.data with
  | some result => told result
  | none => reading (seen ++ [node.data]) node.next (some rest)

def Move (call : Call T) : Look T → (instr : Instr T) → instr.Answer → Look T → Prop
  | reading _ _ _, .cow (.load _), none, look => look = told call.nothing
  | reading seen _ known, .cow (.loadFull _), some node, look => ∃ rest,
      look = examining seen node rest ∧ ∀ before ∈ known, before = node.data :: rest
  | examining seen node rest, .callback, _, look => look = examined call seen node rest
  | look, _, _, look' => look' = look

def phase (call : Call T) : Look T → Phase (Call T) (Reply T)
  | reading _ _ none => .called call
  | reading seen _ (some rest) => .effective call (call.outcome seen rest)
  | examining seen node rest => .effective call (call.outcome seen (node.data :: rest))
  | told result => .effective call result

/-- A search closes its loop at the slot it goes on from. -/
def Stands (call : Call T) : Label T → Look T → Prop
  | .search func seen current, look =>
      call = .search func ∧ ∃ known, look = reading seen current known
  | .any func current, look => call = .any func ∧ ∃ seen known, look = reading seen current known
  | _, _ => False

theorem phase_examined (call : Call T) (seen : List T) (node : Node T) (rest : List T) :
    (examined call seen node rest).phase call = (examining seen node rest).phase call := by
  simp only [examined, phase, Call.outcome]
  cases call.verdict seen node.data <;> rfl

end Look

/-- A thread edits the list or searches it. -/
inductive Seat (T : Type) where
  | editor (s : Stage T)
  | searcher (call : Call T) (look : Look T)

namespace Seat

def stage : Seat T → Stage T
  | editor s => s
  | searcher _ _ => .idle

def phase : Seat T → Phase (Call T) (Reply T)
  | editor s => s.phase
  | searcher call look => look.phase call

def May : Seat T → Instr T → Prop
  | editor s, instr => s.May instr
  | searcher _ look, instr => look.May instr

def Move : Seat T → (instr : Instr T) → instr.Answer → Seat T → Prop
  | editor s, instr, answer, seat => ∃ s', s.Move instr answer s' ∧ seat = editor s'
  | searcher call look, instr, answer, seat =>
      ∃ look', look.Move call instr answer look' ∧ seat = searcher call look'

theorem not_may_acquireImm (seat : Seat T) (slot : Slot) :
    ¬ seat.May (.cow (.acquireImm slot)) := by
  cases seat with
  | editor s => exact s.not_may_acquireImm slot
  | searcher _ look => cases look <;> exact id

end Seat

def seating : Protocol (object (T := T) none) (Seat T) where
  rest := .editor .idle
  start call seat := call.PushesOrPops ∧ seat = .editor (.waiting call) ∨
    call.Searches ∧ seat = .searcher call .looking
  may _ seat := seat.May
  move _ seat := seat.Move
  fail _ _ := True
  arrive call label seat := ∃ look, seat = .searcher call look ∧ look.Stands call label
  leave call label seat := ∃ look, seat = .searcher call look ∧ look.Stands call label
  finish call result seat :=
    seat = .editor (.finished call result) ∨ seat = .searcher call (.told result)

section Code

variable {call : Call T} {seat seat' : Seat T} {instr : Instr T}

@[simp] theorem seating_may : seating.may call seat instr ↔ seat.May instr := Iff.rfl

@[simp] theorem seating_move {answer : instr.Answer} :
    seating.move call seat instr answer seat' ↔ seat.Move instr answer seat' := Iff.rfl

@[simp] theorem seating_fail : seating.fail call seat ↔ True := Iff.rfl

@[simp] theorem seating_arrive {label : Label T} : seating.arrive call label seat ↔
    ∃ look, seat = .searcher call look ∧ look.Stands call label := Iff.rfl

@[simp] theorem seating_finish {result : Reply T} : seating.finish call result seat ↔
    seat = .editor (.finished call result) ∨ seat = .searcher call (.told result) := Iff.rfl

/-- Code of a push or a pop. -/
theorem seating_of_stacking {code : Prog (sig T) (Outcome T)} {s : Stage T}
    (hobeys : stacking.Obeys call code s) : seating.Obeys call code (.editor s) := by
  induction code generalizing s with
  | ret outcome =>
      cases outcome with
      | inl label => exact hobeys.elim
      | inr result => exact .inl (congrArg Seat.editor hobeys)
  | panic message => trivial
  | op instr next ih =>
      obtain ⟨hmay, hnext⟩ := hobeys
      refine ⟨hmay, ?_⟩
      rintro answer seat ⟨s', hmove, rfl⟩
      exact ih answer (hnext answer s' hmove)

/-- A search tests the slot and reads its node. -/
theorem seating_read {seen : List T} {current : Slot} {known : Option (List T)}
    {ended : Prog (sig T) (Outcome T)} {next : Node T → Prog (sig T) (Outcome T)}
    (hended : seating.Obeys call ended (.searcher call (.told call.nothing)))
    (hnext : ∀ node rest, seating.Obeys call (next node) (.searcher call (.examining seen node rest))) :
    seating.Obeys call ((cow (link current).isNull).bind fun null =>
      if null then ended
      else (cow (link current).getRef).bind fun content => (unwrap content).bind next)
      (.searcher call (.reading seen current known)) := by
  simp only [isNull_bind, getRef_bind]
  refine ⟨trivial, ?_⟩
  rintro _ seat ⟨_, rfl, rfl⟩
  refine ⟨rfl, ?_⟩
  rintro content seat ⟨look, hlook, rfl⟩
  cases content with
  | none =>
      obtain rfl : look = .told call.nothing := hlook
      exact hended
  | some node =>
      obtain rfl : look = .reading seen current known := hlook
      refine ⟨trivial, ?_⟩
      rintro _ seat ⟨_, rfl, rfl⟩
      refine ⟨rfl, ?_⟩
      rintro content seat ⟨look, hlook, rfl⟩
      cases content with
      | none => trivial
      | some node =>
          obtain rfl : look = .reading seen current known := hlook
          refine ⟨rfl, ?_⟩
          rintro content seat ⟨look, hlook, rfl⟩
          cases content with
          | none => trivial
          | some node =>
              obtain ⟨rest, rfl, -⟩ := hlook
              exact hnext node rest

theorem seating_examine {seen : List T} {node : Node T} {rest : List T}
    {next : Unit → Prog (sig T) (Outcome T)}
    (hnext : seating.Obeys call (next ()) (.searcher call (.examined call seen node rest))) :
    seating.Obeys call (.op .callback next) (.searcher call (.examining seen node rest)) := by
  refine ⟨trivial, ?_⟩
  rintro answer seat ⟨_, rfl, rfl⟩
  exact hnext

theorem seating_searchLoop {func : List T → T → Bool} {seen : List T} {current : Slot}
    {known : Option (List T)} : seating.Obeys (.search func) (searchLoop func seen current)
      (.searcher (.search func) (.reading seen current known)) := by
  refine seating_read (.inr rfl) fun node rest => seating_examine ?_
  by_cases hfunc : func seen node.data = true
  · simp [Look.examined, Call.verdict, hfunc]
  · simp [Look.examined, Call.verdict, hfunc, Look.Stands]

theorem seating_anyLoop {func : T → Bool} {seen : List T} {current : Slot}
    {known : Option (List T)} : seating.Obeys (.any func) (anyLoop func current)
      (.searcher (.any func) (.reading seen current known)) := by
  refine seating_read (.inr rfl) fun node rest => seating_examine ?_
  by_cases hfunc : func node.data = true
  · simp [Look.examined, Call.verdict, hfunc]
  · simp [Look.examined, Call.verdict, hfunc, Look.Stands]

theorem seating_sound : (seating (T := T)).Sound where
  enter := by
    rintro call seat (⟨hcall, rfl⟩ | ⟨hcall, rfl⟩)
    · exact seating_of_stacking (stacking_sound.enter call _ ⟨hcall, rfl⟩)
    · cases call with
      | search func => exact ⟨_, rfl, rfl, none, rfl⟩
      | any func => exact ⟨_, rfl, rfl, [], none, rfl⟩
      | _ => exact hcall.elim
  body := by
    rintro call label seat ⟨look, rfl, hstands⟩
    cases label with
    | search func seen current =>
        obtain ⟨rfl, known, rfl⟩ := hstands
        exact seating_searchLoop
    | any func current =>
        obtain ⟨rfl, seen, known, rfl⟩ := hstands
        exact seating_anyLoop
    | _ => exact hstands.elim

end Code

/-! ### What lies behind a node -/

/-- The elements from the slot on, none of which is in `head`. -/
def Behind (list : SharedList T) (slot : Slot) (rest : List T) : Prop :=
  ∃ slots, Chain list.heap.links (slot :: slots) rest ∧ headSlot ∉ slot :: slots ∧
    ∀ other ∈ slot :: slots, other < list.heap.fresh

namespace Behind

variable {list after : SharedList T} {slot : Slot} {rest : List T}

/-- Nobody writes there any more. -/
theorem frozen (hbehind : Behind list slot rest) (hfrozen : Frozen list after) :
    Behind after slot rest := by
  obtain ⟨slots, hchain, hhead, hallocated⟩ := hbehind
  refine ⟨slots, hchain.congr ?_, hhead, ?_⟩
  · intro key hkey
    rw [Heap.links, Heap.links]
    rw [hfrozen.kept key (ne_of_mem_of_not_mem hkey hhead) (hallocated key hkey)]
  · intro other hother
    exact Nat.lt_of_lt_of_le (hallocated other hother) hfrozen.fresh

theorem eq_nil (hbehind : Behind list slot rest) (hslot : list.heap.inner slot = none) :
    rest = [] := by
  obtain ⟨slots, hchain, -, -⟩ := hbehind
  exact (hchain.of_head_eq_none (Heap.links_eq_none hslot)).2

theorem next (hbehind : Behind list slot rest) {node : Node T}
    (hslot : list.heap.inner slot = some node) :
    ∃ rest', rest = node.data :: rest' ∧ Behind list node.next rest' := by
  obtain ⟨slots, hchain, hhead, hallocated⟩ := hbehind
  obtain ⟨slots', rest', rfl, rfl, hchain'⟩ := hchain.of_head_eq_some (Heap.links_eq_some hslot)
  refine ⟨rest', rfl, slots', hchain', ?_, ?_⟩
  · exact fun hmem => hhead (List.mem_cons_of_mem _ hmem)
  · exact fun other hother => hallocated other (List.mem_cons_of_mem _ hother)

end Behind

variable {ι : Type} [DecidableEq ι]

omit [DecidableEq ι] in
/-- What a reader of `head` sees at that moment. -/
theorem StackWorld.behind {list : SharedList T} {stage : ι → Stage T} {slots : List Slot}
    {xs : List T} (hw : StackWorld list stage slots xs) {node : Node T}
    (hhead : list.heap.inner headSlot = some node) :
    ∃ rest, xs = node.data :: rest ∧ Behind list node.next rest := by
  obtain ⟨slots', rest, hslots, rfl, hchain⟩ := hw.chain.of_head_eq_some (Heap.links_eq_some hhead)
  have hnodup := hw.nodup
  have hallocated := hw.allocated
  rw [hslots] at hnodup hallocated
  refine ⟨rest, rfl, slots', hchain, (List.nodup_cons.mp hnodup).1, ?_⟩
  exact fun other hother => hallocated other (List.mem_cons_of_mem _ hother)

/-! ### Points -/

namespace Seat

/-- What a search has before it is there. -/
def Knows (list : SharedList T) : Seat T → Prop
  | editor _ => True
  | searcher call look => call.Searches ∧
      match look with
      | .reading seen current none => seen = [] ∧ current = headSlot
      | .reading _ current (some rest) => Behind list current rest
      | .examining _ node rest => Behind list node.next rest
      | .told _ => True

theorem Knows.frozen {seat : Seat T} {list after : SharedList T} (hknows : seat.Knows list)
    (hfrozen : Frozen list after) : seat.Knows after := by
  match seat, hknows with
  | editor _, _ => trivial
  | searcher _ (.reading _ _ none), hknows => exact hknows
  | searcher _ (.reading _ _ (some _)), ⟨hcall, hbehind⟩ => exact ⟨hcall, hbehind.frozen hfrozen⟩
  | searcher _ (.examining _ _ _), ⟨hcall, hbehind⟩ => exact ⟨hcall, hbehind.frozen hfrozen⟩
  | searcher _ (.told _), hknows => exact hknows

end Seat

/-- The list the memory holds is the one the calls that have taken effect lead to, and what a search
is to return is settled. -/
structure Seated (initial : List T) (list : SharedList T) (seat : ι → Seat T)
    (history : List (Event ι (Call T) (Reply T))) (slots : List Slot)
    (order : List (Entry (Call T) (Reply T))) (xs : List T) : Prop where
  world : StackWorld list (fun t => (seat t).stage) slots xs
  knows : ∀ t, (seat t).Knows list
  pointed : Pointed ListStep initial history (fun t => (seat t).phase) order xs

namespace Seated

variable {initial : List T} {list after : SharedList T} {seat : ι → Seat T}
  {history : List (Event ι (Call T) (Reply T))} {slots : List Slot}
  {order : List (Entry (Call T) (Reply T))} {xs : List T} {t : ι}

/-- A thread gets to another seat; it takes effect there or it does not. -/
theorem move (hs : Seated initial list seat history slots order xs) {slots' : List Slot}
    {xs' : List T} {s : Seat T}
    (hworld : StackWorld after (Function.update (fun u => (seat u).stage) t s.stage) slots' xs')
    (hfrozen : Frozen list after) (hknows : s.Knows after)
    (htakes : s.phase = (seat t).phase ∧ xs' = xs ∨ ∃ call result, (seat t).phase = .called call ∧
      s.phase = .effective call result ∧ ListStep xs call result xs') :
    ∃ order', Seated initial after (Function.update seat t s) history slots' order' xs' := by
  have hworld' : StackWorld after (fun u => (Function.update seat t s u).stage) slots' xs' := by
    rw [field_update]
    exact hworld
  have hknows' : ∀ u, (Function.update seat t s u).Knows after :=
    (Function.forall_update_iff seat fun _ s => s.Knows after).mpr
      ⟨hknows, fun u _ => (hs.knows u).frozen hfrozen⟩
  have hphase := field_update Seat.phase seat t s
  rcases htakes with ⟨hsame, rfl⟩ | ⟨call, result, hcalled, heffective, hspec⟩
  · refine ⟨order, hworld', hknows', ?_⟩
    rw [hphase, hsame, Function.update_eq_self]
    exact hs.pointed
  · obtain ⟨entry, hpoint⟩ := hs.pointed.point hcalled hspec
    refine ⟨order ++ [entry], hworld', hknows', ?_⟩
    rw [hphase, heffective]
    exact hpoint

/-- A search only looks. -/
theorem search (hs : Seated initial list seat history slots order xs) {call : Call T}
    {look look' : Look T} (hseat : seat t = .searcher call look)
    (hknows : (Seat.searcher call look').Knows list)
    (htakes : look'.phase call = look.phase call ∨ look.phase call = .called call ∧
      look'.phase call = .effective call (call.outcome [] xs)) :
    ∃ order', Seated initial list (Function.update seat t (.searcher call look')) history slots order'
      xs := by
  refine hs.move ?_ (.of_heap_eq list rfl) hknows ?_
  · have hstage : (Seat.searcher call look').stage = (seat t).stage := by
      rw [hseat]
      rfl
    rw [hstage, Function.update_eq_self]
    exact hs.world
  · rw [hseat]
    rcases htakes with hsame | ⟨hcalled, heffective⟩
    · exact .inl ⟨hsame, rfl⟩
    · exact .inr ⟨call, _, hcalled, heffective, hknows.1.step xs⟩

/-- A search finds the slot empty. -/
theorem reads_end (hs : Seated initial list seat history slots order xs) {call : Call T}
    {seen : List T} {current : Slot} {known : Option (List T)}
    (hseat : seat t = .searcher call (.reading seen current known))
    (hcontent : list.heap.inner current = none) :
    ∃ order' xs', Seated initial list
      (Function.update seat t (.searcher call (.told call.nothing))) history slots order' xs' := by
  have hknows := hs.knows t
  rw [hseat] at hknows
  have htold : (Seat.searcher call (.told call.nothing)).Knows list := ⟨hknows.1, trivial⟩
  cases known with
  | none =>
      obtain ⟨-, rfl, rfl⟩ := hknows
      have hempty : xs = [] := (hs.world.chain.of_head_eq_none (Heap.links_eq_none hcontent)).2
      obtain ⟨order', hs'⟩ := hs.search hseat htold (.inr ⟨rfl, by rw [hempty]; rfl⟩)
      exact ⟨order', xs, hs'⟩
  | some rest =>
      obtain rfl := hknows.2.eq_nil hcontent
      obtain ⟨order', hs'⟩ := hs.search hseat htold (.inl rfl)
      exact ⟨order', xs, hs'⟩

/-- A search reads a node. If it is the one in `head`, this is its point. -/
theorem reads_node (hs : Seated initial list seat history slots order xs) {call : Call T}
    {seen : List T} {current : Slot} {known : Option (List T)}
    (hseat : seat t = .searcher call (.reading seen current known)) {node : Node T}
    (hcontent : list.heap.inner current = some node) :
    ∃ rest, (∀ before ∈ known, before = node.data :: rest) ∧ ∃ order', Seated initial list
      (Function.update seat t (.searcher call (.examining seen node rest))) history slots order'
        xs := by
  have hknows := hs.knows t
  rw [hseat] at hknows
  cases known with
  | none =>
      obtain ⟨hcall, rfl, rfl⟩ := hknows
      obtain ⟨rest, rfl, hbehind⟩ := hs.world.behind hcontent
      exact ⟨rest, nofun, hs.search hseat ⟨hcall, hbehind⟩ (.inr ⟨rfl, rfl⟩)⟩
  | some before =>
      obtain ⟨hcall, hbehind⟩ := hknows
      obtain ⟨rest, rfl, hrest⟩ := hbehind.next hcontent
      refine ⟨rest, ?_, hs.search hseat ⟨hcall, hrest⟩ (.inl rfl)⟩
      rintro _ ⟨⟩
      rfl

/-- A search has called its predicate. -/
theorem examines (hs : Seated initial list seat history slots order xs) {call : Call T}
    {seen : List T} {node : Node T} {rest : List T}
    (hseat : seat t = .searcher call (.examining seen node rest)) :
    ∃ order' xs', Seated initial list
      (Function.update seat t (.searcher call (.examined call seen node rest))) history slots order'
        xs' := by
  have hknows := hs.knows t
  rw [hseat] at hknows
  obtain ⟨hcall, hbehind⟩ := hknows
  have hknows' : (Seat.searcher call (.examined call seen node rest)).Knows list := by
    refine ⟨hcall, ?_⟩
    unfold Look.examined
    cases call.verdict seen node.data with
    | some result => trivial
    | none => exact hbehind
  obtain ⟨order', hs'⟩ := hs.search hseat hknows' (.inl (Look.phase_examined call seen node rest))
  exact ⟨order', xs, hs'⟩

theorem answered (hs : Seated initial list seat history slots order xs) {instr : Instr T}
    (hmay : (seat t).May instr) {answer : instr.Answer}
    (hexec : exec instr list = (after, some answer)) :
    ∃ s, (seat t).Move instr answer s ∧ ∃ slots' order' xs',
      Seated initial after (Function.update seat t s) history slots' order' xs' := by
  have hknows := hs.knows t
  cases hseat : seat t with
  | editor stage =>
      rw [hseat] at hmay
      have hstage : (seat t).stage = stage := by
        rw [hseat]
        rfl
      rw [← hstage] at hmay
      obtain ⟨s, slots', xs', hmove, hworld, heffect⟩ := hs.world.effect hmay hexec
      rw [hstage] at hmove
      have htakes : s.phase = (seat t).phase ∧ xs' = xs ∨ ∃ call result,
          (seat t).phase = .called call ∧ s.phase = .effective call result ∧
            ListStep xs call result xs' := by
        rw [hseat]
        rw [hstage] at heffect
        refine heffect.takes.imp_right ?_
        rintro ⟨call, result, hcalled, heffective, hspec⟩
        exact ⟨call, result, hcalled, heffective, .edit hspec⟩
      obtain ⟨order', hs'⟩ := hs.move (s := .editor s) hworld heffect.frozen trivial htakes
      exact ⟨_, ⟨s, hmove, rfl⟩, slots', order', xs', hs'⟩
  | searcher call look =>
      rw [hseat] at hmay hknows
      obtain ⟨hcall, hlook⟩ := hknows
      have hstay : after = list → ∃ slots' order' xs',
          Seated initial after (Function.update seat t (.searcher call look)) history slots' order'
            xs' := by
        rintro rfl
        rw [← hseat, Function.update_eq_self]
        exact ⟨slots, order, xs, hs⟩
      match look, instr, hmay with
      | .reading seen current known, .cow (.awaitImm slot), _ =>
          obtain ⟨-, rfl⟩ := awaitImm_answered hexec
          exact ⟨_, ⟨_, rfl, rfl⟩, hstay rfl⟩
      | .reading seen current known, .cow (.load slot), hslot =>
          obtain rfl : slot = current := hslot
          cases hexec
          cases hcontent : list.heap.inner slot with
          | some node => exact ⟨_, ⟨_, rfl, rfl⟩, hstay rfl⟩
          | none => exact ⟨_, ⟨_, rfl, rfl⟩, slots, hs.reads_end hseat hcontent⟩
      | .reading seen current known, .cow (.loadFull slot), hslot =>
          obtain rfl : slot = current := hslot
          cases hexec
          cases hcontent : list.heap.inner slot with
          | none => exact ⟨_, ⟨_, rfl, rfl⟩, hstay rfl⟩
          | some node =>
              obtain ⟨rest, hknown, order', hs'⟩ := hs.reads_node hseat hcontent
              exact ⟨_, ⟨_, ⟨rest, rfl, hknown⟩, rfl⟩, slots, order', xs, hs'⟩
      | .examining seen node rest, .callback, _ =>
          cases hexec
          exact ⟨_, ⟨_, rfl, rfl⟩, slots, hs.examines hseat⟩

end Seated

theorem seating_keeps (initial : List T) :
    seating.Keeps (OnlyCalls (ι := ι) Call.EditsOrSearches) fun list seat history =>
      ∃ slots order xs, Seated initial list seat history slots order xs where
  invoke := by
    rintro config seat t call ⟨slots, order, xs, hs⟩ hcall hrest
    have hinvoke : ∀ s : Seat T, ¬ s.stage.HasLock → s.phase = .called call →
        s.Knows config.state → ∃ slots order xs, Seated initial config.state
          (Function.update seat t s) (config.history ++ [.invoke t call]) slots order xs := by
      intro s hlock hphase hknows
      refine ⟨slots, order, xs, ?_, ?_, ?_⟩
      · rw [field_update]
        exact hs.world.other_step hlock
      · exact (Function.forall_update_iff seat fun _ s => s.Knows config.state).mpr
          ⟨hknows, fun u _ => hs.knows u⟩
      · rw [field_update, hphase]
        exact hs.pointed.invoke
    rcases hcall with hcall | hcall
    · exact ⟨_, .inl ⟨hcall, rfl⟩, hinvoke _ id rfl trivial⟩
    · exact ⟨_, .inr ⟨hcall, rfl⟩, hinvoke _ id rfl ⟨hcall, rfl, rfl⟩⟩
  respond := by
    rintro config seat t call result ⟨slots, order, xs, hs⟩ - - hfinish
    refine ⟨slots, order, xs, ?_, ?_, ?_⟩
    · rw [field_update]
      exact hs.world.other_step id
    · exact (Function.forall_update_iff seat fun _ s => s.Knows config.state).mpr
        ⟨trivial, fun u _ => hs.knows u⟩
    · rw [field_update]
      refine hs.pointed.respond ?_
      rcases hfinish with hseat | hseat
      all_goals
        rw [hseat]
        rfl
  jump := by
    rintro config seat t call label hs _ _ harrive
    refine ⟨seat t, harrive, ?_⟩
    rwa [Function.update_eq_self]
  answered := by
    rintro config seat t call instr next state answer ⟨slots, order, xs, hs⟩ _ _ hmay hexec
    exact hs.answered hmay hexec
  retried := by
    rintro config seat t call instr next state hs _ _ hmay hexec
    rcases retried_cases hexec with ⟨slot, rfl, rfl⟩ | ⟨slot, rfl, -, rfl⟩ | ⟨slot, rfl, -, -⟩
    · exact hs
    · exact hs
    · exact ((seat t).not_may_acquireImm slot hmay).elim

/-- **Searches are linearizable** together with pushes and pops: each search of an unordered list
returns what it would return on the list as it is at one moment of the search. -/
theorem search_linearizable {initial : List T} {list : SharedList T}
    (hlist : list.Represents initial) {config : Config (object (T := T) none) ι}
    (hreach : ((object none).threads ι).Reach (OnlyCalls Call.EditsOrSearches) (.initial list)
      config) :
    ∃ order xs, Linearization ListStep initial config.history order xs ∧
      config.state.Holds xs := by
  have hstart : ∃ slots order xs, Seated initial list (fun _ : ι => seating.rest) [] slots order
      xs := by
    obtain ⟨slots, hlayout⟩ := hlist
    exact ⟨slots, [], initial, .of_layout hlayout, fun _ => trivial, .nil⟩
  obtain ⟨seat, -, slots, order, xs, hs⟩ :=
    Protocol.invariant seating_sound (seating_keeps initial) hstart hreach
  exact ⟨order, xs, hs.pointed.linearization, slots, hs.world.chain⟩

/-- A search goes on through nodes that are popped in the meantime. -/
theorem search_linearizable_popped :
    ∃ config : Config (object (T := Nat) none) Bool,
      config.history = [.invoke true (contains 1), .invoke false .pop,
        .respond false .pop (.popped (some 2)), .invoke false .pop,
        .respond false .pop (.popped (some 1)),
        .respond true (contains 1) (.found (some ([2], 1)))] ∧
      ∃ order xs, Linearization ListStep [2, 1] config.history order xs ∧ config.state.Holds xs := by
  obtain ⟨config, hrun, hhistory⟩ : ∃ config,
      ((object (T := Nat) none).threads Bool).runIf (OnlyCalls Call.EditsOrSearches)
        (.initial (ofList [2, 1]))
        (.invoke true (contains 1) :: List.replicate 6 (.tick true) ++
          .invoke false .pop :: List.replicate 11 (.tick false) ++
          .invoke false .pop :: List.replicate 11 (.tick false) ++
          List.replicate 9 (.tick true)) = some config ∧
      config.history = [.invoke true (contains 1), .invoke false .pop,
        .respond false .pop (.popped (some 2)), .invoke false .pop,
        .respond false .pop (.popped (some 1)),
        .respond true (contains 1) (.found (some ([2], 1)))] := ⟨_, rfl, rfl⟩
  exact ⟨config, hhistory,
    search_linearizable (ofList_represents [2, 1]) (System.reach_of_runIf _ hrun)⟩

end Mutual.SharedList
