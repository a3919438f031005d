import Mutual.Proof.Runs

/-!
# Readers of a SharedList

`find`, `find_map`, `contains` and the iterators test a slot for null, and `get_ref` tests it a
second time and then loads it a third time, with no lock taken. A reader panics exactly if the slot
is empty when it comes back to it.
-/

namespace Mutual.SharedList

open Concurrency

variable {T : Type} {ι : Type} [DecidableEq ι]

/-- The slot a reader has found to hold an element and not fetched the element of. -/
def sees (list : SharedList T) (seen : Option Slot) : Instr T → Option Slot
  | .cow (.load slot) => if (list.heap.inner slot).isSome then some slot else none
  | .cow (.loadFull _) => none
  | _ => seen

def seenAfter (list : SharedList T) (call : Call T) (instr : Instr T) (seen : Option Slot) :
    Option Slot :=
  if call.Reads then list.sees seen instr else none

/-- An instruction that comes back to the slot that has been seen still finds an element there. -/
def FoundAgain (list : SharedList T) (seen : Option Slot) : Instr T → Prop
  | .cow (.load slot) | .cow (.loadFull slot) =>
      seen = some slot → (list.heap.inner slot).isSome = true
  | _ => True

def FindsAgain {orderFn : Option (T → T → Ordering)}
    (before : Config (object orderFn) ι × (ι → Option Slot)) : Action (object orderFn) ι → Prop
  | .tick t => ∀ instr, before.1.instr? t = some instr → before.1.state.FoundAgain (before.2 t) instr
  | .invoke _ _ => True

instance (list : SharedList T) (seen : Option Slot) :
    ∀ instr, Decidable (list.FoundAgain seen instr) := by
  intro instr
  unfold FoundAgain
  split <;> infer_instance

instance {orderFn : Option (T → T → Ordering)} :
    ∀ (before : Config (object orderFn) ι × (ι → Option Slot)) action,
      Decidable (FindsAgain before action)
  | _, .invoke _ _ => .isTrue trivial
  | before, .tick t =>
      match hinstr : before.1.instr? t with
      | none => .isTrue (by simp [FindsAgain, hinstr])
      | some instr => decidable_of_iff (before.1.state.FoundAgain (before.2 t) instr) (by
          simp [FindsAgain, hinstr])

def NoReaderPanic {orderFn : Option (T → T → Ordering)} (config : Config (object orderFn) ι) : Prop :=
  ∀ t call message, config.thread t = .busy call (.panic message) → ¬ call.Reads

/-! ### What a reader has seen -/

structure Reading where
  seen : Option Slot
  failed : Bool
  deriving DecidableEq

namespace Reading

def rest : Reading := { seen := none, failed := false }

def after (g : Reading) : (instr : Instr T) → instr.Answer → Reading
  | .cow (.load slot), some _ => { seen := some slot, failed := false }
  | .cow (.load slot), none => { seen := none, failed := g.seen = some slot }
  | .cow (.loadFull _), some _ => rest
  | .cow (.loadFull slot), none => { seen := none, failed := g.seen = some slot }
  | _, _ => g

end Reading

def Label.Reads : Label T → Prop
  | search _ _ _ | any _ _ => True
  | _ => False

def reading (orderFn : Option (T → T → Ordering)) : Protocol (object orderFn) Reading where
  rest := .rest
  start _ g := g = .rest
  may call g _ := if call.Reads then g.failed = false else g = .rest
  move call g instr answer g' := g' = if call.Reads then g.after instr answer else g
  fail call g := if call.Reads then g.failed = true else g = .rest
  arrive call label g := g = .rest ∧ (call.Reads → label.Reads)
  leave call label g := g = .rest ∧ (call.Reads → label.Reads)
  finish _ _ g := g = .rest

section Code

variable {orderFn : Option (T → T → Ordering)} {call : Call T} {g : Reading}

theorem reading_other (hcall : ¬ call.Reads) (code : Prog (sig T) (Outcome T)) :
    (reading orderFn).Obeys call code .rest := by
  induction code with
  | ret outcome =>
      cases outcome with
      | inl label => exact ⟨rfl, fun hreads => absurd hreads hcall⟩
      | inr result => rfl
  | panic message =>
      change if call.Reads then _ else _
      rw [if_neg hcall]
  | op instr next ih =>
      refine ⟨?_, ?_⟩
      · change if call.Reads then _ else _
        rw [if_neg hcall]
      · intro answer g' hmove
        rw [show g' = _ from hmove, if_neg hcall]
        exact ih answer

theorem reading_op (hcall : call.Reads) {instr : Instr T}
    {next : instr.Answer → Prog (sig T) (Outcome T)} :
    (reading orderFn).Obeys call (no_index (.op instr next)) g ↔ g.failed = false ∧
      ∀ answer, (reading orderFn).Obeys call (next answer) (g.after instr answer) := by
  refine and_congr ?_ (forall_congr' fun answer => ?_)
  · change (if call.Reads then _ else _) ↔ _
    rw [if_pos hcall]
  · constructor
    · intro hnext
      refine hnext _ ?_
      change _ = if call.Reads then _ else _
      rw [if_pos hcall]
    · intro hnext g' hmove
      rw [show g' = _ from hmove, if_pos hcall]
      exact hnext

theorem reading_panic (hcall : call.Reads) {message : String} :
    (reading orderFn).Obeys call (.panic message) g ↔ g.failed = true := by
  change (if call.Reads then _ else _) ↔ _
  rw [if_pos hcall]

@[simp] theorem reading_finish {result : Reply T} :
    (reading orderFn).finish call result g ↔ g = .rest := Iff.rfl

@[simp] theorem reading_arrive {label : Label T} :
    (reading orderFn).arrive call label g ↔ g = .rest ∧ (call.Reads → label.Reads) := Iff.rfl

/-- The test, the second test and the load that all readers begin with. -/
theorem reading_getRef (hcall : call.Reads) {current : Slot}
    {empty : Prog (sig T) (Outcome T)} {found : Node T → Prog (sig T) (Outcome T)}
    (hempty : (reading orderFn).Obeys call empty .rest)
    (hfound : ∀ node, (reading orderFn).Obeys call (found node) .rest) :
    (reading orderFn).Obeys call ((cow (link current).isNull).bind fun isNull =>
      if isNull then empty
      else (cow (link current).getRef).bind fun data => (unwrap data).bind found) .rest := by
  rw [isNull_bind, reading_op hcall]
  refine ⟨rfl, fun _ => ?_⟩
  rw [reading_op hcall]
  refine ⟨rfl, fun content => ?_⟩
  cases content with
  | none => exact hempty
  | some node =>
      simp only [Option.isNone_some, Bool.false_eq_true, if_false, getRef_bind]
      rw [reading_op hcall]
      refine ⟨rfl, fun _ => ?_⟩
      rw [reading_op hcall]
      refine ⟨rfl, fun content => ?_⟩
      cases content with
      | none =>
          simp only [Option.isNone_none, if_true]
          rw [reading_panic hcall]
          simp [Reading.after]
      | some node =>
          simp only [Option.isNone_some, Bool.false_eq_true, if_false]
          rw [reading_op hcall]
          refine ⟨rfl, fun content => ?_⟩
          cases content with
          | none =>
              rw [unwrap_none_bind, reading_panic hcall]
              simp [Reading.after]
          | some node =>
              rw [unwrap_some_bind]
              exact hfound node

theorem reading_sound (orderFn : Option (T → T → Ordering)) : (reading orderFn).Sound where
  enter := by
    rintro call g rfl
    by_cases hcall : call.Reads
    · cases call with
      | search func => exact ⟨rfl, fun _ => trivial⟩
      | any func => exact ⟨rfl, fun _ => trivial⟩
      | iterNext current => exact reading_getRef hcall rfl fun node => rfl
      | _ => exact hcall.elim
    · exact reading_other hcall _
  body := by
    rintro call label g ⟨rfl, hlabel⟩
    by_cases hcall : call.Reads
    · cases label with
      | search func seen current =>
          refine reading_getRef hcall rfl fun node => ?_
          refine (reading_op hcall).mpr ⟨rfl, fun _ => ?_⟩
          cases func seen node.data with
          | true => rfl
          | false => exact ⟨rfl, fun _ => trivial⟩
      | any func current =>
          refine reading_getRef hcall rfl fun node => ?_
          refine (reading_op hcall).mpr ⟨rfl, fun _ => ?_⟩
          change Protocol.Obeys _ _ (if func node.data = true then _ else _) _
          by_cases hfunc : func node.data = true
          · rw [if_pos hfunc]
            rfl
          · rw [if_neg hfunc]
            exact ⟨rfl, fun _ => trivial⟩
      | _ => exact (hlabel hcall).elim
    · exact reading_other hcall _

end Code

/-- A thread has failed if it is a reader that has panicked, and not otherwise. -/
theorem failed_iff {orderFn : Option (T → T → Ordering)} {thread : Thread (object orderFn)}
    {g : Reading} (hfollows : (reading orderFn).Follows thread g) :
    g.failed = true ↔ ∃ call message, thread = .busy call (.panic message) ∧ call.Reads := by
  match thread with
  | .idle =>
      rw [show g = .rest from hfollows]
      simp [Reading.rest]
  | .busy call (.ret (.inl label)) =>
      rw [show g = .rest from hfollows.1]
      simp [Reading.rest]
  | .busy call (.ret (.inr result)) =>
      rw [show g = .rest from hfollows]
      simp [Reading.rest]
  | .busy call (.op instr next) =>
      have hmay : if call.Reads then g.failed = false else g = .rest := hfollows.1
      have hfailed : g.failed = false := by
        split at hmay
        · exact hmay
        · rw [hmay]
          rfl
      simp [hfailed]
  | .busy call (.panic message) =>
      have hfail : if call.Reads then g.failed = true else g = .rest := hfollows
      by_cases hcall : call.Reads
      · rw [if_pos hcall] at hfail
        exact ⟨fun _ => ⟨call, message, rfl, hcall⟩, fun _ => hfail⟩
      · rw [if_neg hcall] at hfail
        rw [hfail]
        constructor
        · rintro ⟨⟩
        · rintro ⟨_, _, heq, hreads⟩
          cases heq
          exact absurd hreads hcall

theorem sees_eq {list after : SharedList T} {instr : Instr T} {answer : instr.Answer}
    (hexec : exec instr list = (after, some answer)) (g : Reading) :
    list.sees g.seen instr = (g.after instr answer).seen := by
  match instr with
  | .cow (.load slot) | .cow (.loadFull slot) =>
      cases hexec
      cases hslot : list.heap.inner slot <;> simp [sees, Reading.after, Reading.rest, hslot]
  | .cow (.awaitImm _) | .cow (.acquireMut _) | .cow (.acquireImm _) | .cow (.releaseMut _)
  | .cow (.releaseImm _) | .cow (.store _ _) | .cow (.swap _ _) | .cow (.alloc _) | .loadNoneq
  | .storeNoneq _ | .fetchAddLen | .fetchSubLen | .loadLen | .callback => rfl

theorem failed_after {list after : SharedList T} {instr : Instr T} {answer : instr.Answer}
    (hexec : exec instr list = (after, some answer)) {g : Reading} (hfine : g.failed = false) :
    (g.after instr answer).failed = false ↔ list.FoundAgain g.seen instr := by
  match instr with
  | .cow (.load slot) | .cow (.loadFull slot) =>
      cases hexec
      change _ ↔ (g.seen = some slot → (list.heap.inner slot).isSome = true)
      cases hslot : list.heap.inner slot <;> simp [Reading.after, Reading.rest]
  | .cow (.awaitImm _) | .cow (.acquireMut _) | .cow (.acquireImm _) | .cow (.releaseMut _)
  | .cow (.releaseImm _) | .cow (.store _ _) | .cow (.swap _ _) | .cow (.alloc _) | .loadNoneq
  | .storeNoneq _ | .fetchAddLen | .fetchSubLen | .loadLen
  | .callback => exact ⟨fun _ => trivial, fun _ => hfine⟩

theorem foundAgain_none (list : SharedList T) (instr : Instr T) : list.FoundAgain none instr := by
  unfold FoundAgain
  split
  · rintro ⟨⟩
  · rintro ⟨⟩
  · trivial

theorem retried_sees {list after : SharedList T} {instr : Instr T}
    (hexec : exec instr list = (after, none)) (seen : Option Slot) :
    list.sees seen instr = seen ∧ list.FoundAgain seen instr := by
  rcases retried_cases hexec with ⟨slot, rfl, -⟩ | ⟨slot, rfl, -⟩ | ⟨slot, rfl, -⟩
  all_goals exact ⟨rfl, trivial⟩

theorem seen_update (ghost : ι → Reading) (t : ι) (g : Reading) :
    Function.update (fun u => (ghost u).seen) t g.seen =
      fun u => (Function.update ghost t g u).seen := by
  funext u
  exact (Function.apply_update (fun _ g => g.seen) ghost t g u).symm

theorem failed_update {ghost : ι → Reading} (hfine : ∀ t, (ghost t).failed = false) (t : ι)
    (g : Reading) :
    (∀ u, (Function.update ghost t g u).failed = false) ↔ g.failed = false := by
  constructor
  · intro hupdate
    have ht := hupdate t
    rwa [Function.update_self] at ht
  · intro hg u
    by_cases hut : u = t
    · rw [hut, Function.update_self, hg]
    · rw [Function.update_of_ne hut, hfine]

/-- What a step does to what the readers have seen. -/
theorem reading_step {orderFn : Option (T → T → Ordering)} {config after : Config (object orderFn) ι}
    {action : Action (object orderFn) ι} (hstep : config.step action = some after)
    {ghost : ι → Reading} (hfollows : ∀ t, (reading orderFn).Follows (config.thread t) (ghost t))
    (hfine : ∀ t, (ghost t).failed = false) :
    ∃ ghost' : ι → Reading, (∀ t, (reading orderFn).Follows (after.thread t) (ghost' t)) ∧
      logging seenAfter config action (fun t => (ghost t).seen) = (fun t => (ghost' t).seen) ∧
      ((∀ t, (ghost' t).failed = false) ↔ FindsAgain (config, fun t => (ghost t).seen) action) := by
  rcases Protocol.step_cases (reading_sound orderFn) hfollows hstep with
    ⟨t, call, rfl, rfl, hrest, hnext⟩ | ⟨t, call, result, rfl, hthread, rfl, hfinish, hnext⟩ |
    ⟨t, call, label, rfl, hthread, rfl, harrive, hnext⟩ |
    ⟨t, call, instr, next, state, answer, rfl, hat, rfl, hmay, hexec, hnext⟩ |
    ⟨t, call, instr, next, state, rfl, hat, rfl, hmay, hexec, hnext⟩
  · have hself := hnext (ghost t) hrest
    rw [Function.update_eq_self] at hself
    exact ⟨ghost, hself, rfl, fun _ => trivial, fun _ => hfine⟩
  · have hself : ghost t = (reading orderFn).rest := hfinish
    rw [← hself, Function.update_eq_self] at hnext
    refine ⟨ghost, hnext, logging_ret _ hthread, fun _ instr hinstr => ?_, fun _ => hfine⟩
    rw [Config.instr?, hthread] at hinstr
    cases hinstr
  · have hself := hnext (ghost t) harrive
    rw [Function.update_eq_self] at hself
    refine ⟨ghost, hself, logging_ret _ hthread, fun _ instr hinstr => ?_, fun _ => hfine⟩
    rw [Config.instr?, hthread] at hinstr
    cases hinstr
  · have hfinds : FindsAgain (config, fun t => (ghost t).seen) (.tick t) ↔
        config.state.FoundAgain (ghost t).seen instr := by
      simp [FindsAgain, hat.instr?_eq]
    by_cases hcall : call.Reads
    · have hmove := hnext ((ghost t).after instr answer) (if_pos hcall).symm
      refine ⟨_, hmove, ?_, ?_⟩
      · rw [logging_at _ hat, seenAfter, if_pos hcall, sees_eq hexec, seen_update]
      · rw [failed_update hfine, failed_after hexec (hfine t), hfinds]
    · have hmove := hnext (ghost t) (if_neg hcall).symm
      rw [Function.update_eq_self] at hmove
      have hrest : ghost t = .rest := by
        change if call.Reads then _ else _ at hmay
        rwa [if_neg hcall] at hmay
      have hseen : (ghost t).seen = none := by rw [hrest, Reading.rest]
      refine ⟨ghost, hmove, ?_, ?_⟩
      · rw [logging_at _ hat, seenAfter, if_neg hcall, ← hseen, Function.update_eq_self]
      · rw [hfinds, hseen]
        exact ⟨fun _ => foundAgain_none _ _, fun _ => hfine⟩
  · obtain ⟨hsees, hfound⟩ := retried_sees hexec (ghost t).seen
    refine ⟨ghost, hnext, ?_, fun _ instr' hinstr => ?_, fun _ => hfine⟩
    · rw [logging_at _ hat]
      have hsame : config.state.seenAfter call instr (ghost t).seen = (ghost t).seen := by
        by_cases hcall : call.Reads
        · rw [seenAfter, if_pos hcall, hsees]
        · have hrest : ghost t = .rest := by
            change if call.Reads then _ else _ at hmay
            rwa [if_neg hcall] at hmay
          rw [seenAfter, if_neg hcall, hrest, Reading.rest]
      rw [hsame, Function.update_eq_self]
    · rw [hat.instr?_eq] at hinstr
      cases hinstr
      exact hfound

omit [DecidableEq ι] in
theorem noReaderPanic_iff {orderFn : Option (T → T → Ordering)} {config : Config (object orderFn) ι}
    {ghost : ι → Reading} (hfollows : ∀ t, (reading orderFn).Follows (config.thread t) (ghost t)) :
    NoReaderPanic config ↔ ∀ t, (ghost t).failed = false := by
  constructor
  · intro hno t
    by_contra hfailed
    obtain ⟨call, message, hthread, hcall⟩ :=
      (failed_iff (hfollows t)).mp (by simpa using hfailed)
    exact hno t call message hthread hcall
  · intro hfine t call message hthread hcall
    have hfailed := (failed_iff (hfollows t)).mpr ⟨call, message, hthread, hcall⟩
    rw [hfine t] at hfailed
    cases hfailed

/-- **Readers.** While every reader that comes back to a slot still finds an element there, no reader
panics, and the next step makes a reader panic exactly if the reader comes back to an empty slot. -/
theorem readers_never_panic {orderFn : Option (T → T → Ordering)} {list : SharedList T}
    {config : Config (object orderFn) ι} {seen : ι → Option Slot}
    (hreach : (((object orderFn).threads ι).monitored (logging seenAfter)).Reach FindsAgain
      (.initial list, fun _ => none) (config, seen)) :
    NoReaderPanic config ∧ ∀ action next, config.step action = some next →
      (NoReaderPanic next ↔ FindsAgain (config, seen) action) := by
  obtain ⟨ghost, hfollows, hfine, hseen⟩ :
      ∃ ghost : ι → Reading, (∀ t, (reading orderFn).Follows (config.thread t) (ghost t)) ∧
        (∀ t, (ghost t).failed = false) ∧ seen = fun t => (ghost t).seen := by
    refine System.Reach.invariant (I := fun before => ∃ ghost : ι → Reading,
      (∀ t, (reading orderFn).Follows (before.1.thread t) (ghost t)) ∧
        (∀ t, (ghost t).failed = false) ∧ before.2 = fun t => (ghost t).seen) ?_ ?_ hreach
    · exact ⟨fun _ => .rest, fun _ => rfl, fun _ => rfl, rfl⟩
    · rintro ⟨before, seen⟩ action ⟨after, seen'⟩ ⟨ghost, hfollows, hfine, hseen⟩ hfinds hstep
      obtain ⟨hstep, hlog⟩ := System.monitored_step.mp hstep
      obtain ⟨ghost', hfollows', hlog', hfine'⟩ := reading_step hstep hfollows hfine
      change seen = _ at hseen
      subst hseen
      exact ⟨ghost', hfollows', hfine'.mpr hfinds, hlog.trans hlog'⟩
  refine ⟨(noReaderPanic_iff hfollows).mpr hfine, fun action next hstep => ?_⟩
  obtain ⟨ghost', hfollows', -, hfine'⟩ := reading_step hstep hfollows hfine
  rw [noReaderPanic_iff hfollows', hfine', hseen]

theorem readers_never_panic_behind :
    ∃ (config : Config (object (T := Nat) none) Bool) (seen : Bool → Option Slot),
      config.state.heap.inner headSlot = none ∧ seen true = some 1 ∧
      (NoReaderPanic config ∧ ∀ action next, config.step action = some next →
        (NoReaderPanic next ↔ FindsAgain (config, seen) action)) := by
  obtain ⟨config, seen, hrun, hhead, hseen⟩ : ∃ config seen,
      (((object (T := Nat) none).threads Bool).monitored (logging seenAfter)).runIf FindsAgain
        (.initial (ofList [1, 2]), fun _ => none)
        (.invoke true (find fun _ data => data == 2) :: List.replicate 10 (.tick true) ++
          .invoke false .pop :: List.replicate 11 (.tick false) ++
          .invoke false .pop :: List.replicate 11 (.tick false)) = some (config, seen) ∧
      config.state.heap.inner headSlot = none ∧ seen true = some 1 := ⟨_, _, rfl, rfl, rfl⟩
  exact ⟨config, seen, hhead, hseen, readers_never_panic (System.reach_of_runIf _ hrun)⟩

/-- `find` tests `head`, a `pop` takes the only element, and `get_ref` tests `head` again. -/
def popAfterTest : List (Action (object (T := Nat) none) Bool) :=
  .invoke true (find fun _ data => data == 1) :: List.replicate 3 (.tick true) ++
    .invoke false .pop :: List.replicate 11 (.tick false) ++ List.replicate 2 (.tick true)

theorem readers_never_panic_fails :
    ∃ config : Config (object (T := Nat) none) Bool,
      ((object none).threads Bool).Reach (OnlyCalls Call.ReadsOrWrites)
        (.initial (ofList [1])) config ∧ ¬ NoReaderPanic config := by
  obtain ⟨config, hrun, hthread⟩ : ∃ config,
      ((object none).threads Bool).runIf (OnlyCalls Call.ReadsOrWrites)
        (.initial (ofList [1])) popAfterTest = some config ∧
      config.thread true = .busy (find fun _ data => data == 1)
        (.panic "Cannot get_ref to null cow data") := ⟨_, rfl, rfl⟩
  exact ⟨config, System.reach_of_runIf _ hrun, fun hno => hno true _ _ hthread trivial⟩

end Mutual.SharedList
