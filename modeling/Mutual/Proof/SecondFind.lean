import Mutual.Proof.Awaiting
import Mutual.Proof.InsertFrame
import Mutual.Proof.Reading

/-!
# The second search of compute_if_absent

No lock is held between the push of `compute_if_absent` and its second search, so another thread may
take the entry away, and the `unwrap` panics. The search finds an entry as long as the push ends at a
slot on the list and no store from then on loses an entry with the hash.
-/

namespace Mutual.SharedMap

open Concurrency Data SharedList

variable {K V : Type} {capacity : UInt64}

/-! ### How far a call of compute_if_absent has come -/

inductive Progress where
  | pushing
  /-- The push has stored its entry, or it has found one with the hash. -/
  | placed
  | finding
  deriving DecidableEq

structure Stage (capacity : UInt64) where
  bucket : Index capacity
  hash : UInt64
  progress : Progress

def Cont.progress : Cont K V → Option Progress
  | .computePush _ => some .pushing
  | .computeFound => some .finding
  | _ => none

def Stage.after (state : Index capacity → SharedList (Entry K V)) (instr : (sig capacity K V).Instr)
    (stage : Stage capacity) : Stage capacity :=
  if stage.progress = .pushing ∧ instr.1 = stage.bucket ∧
      (endsAt (state instr.1) stage.hash instr.2).isSome = true
  then { stage with progress := .placed } else stage

section Stages

variable {ι : Type} [DecidableEq ι] [BEq K]

def stages (hashKey : K → UInt64) (config : Config (object capacity V hashKey) ι) :
    Action (object capacity V hashKey) ι → (ι → Option (Stage capacity)) →
      ι → Option (Stage capacity)
  | .invoke _ _, log => log
  | .tick t, log =>
      match config.thread t with
      | .busy mapCall (.ret (.inl (.call bucket _ cont))) =>
          Function.update log t (cont.progress.map fun progress =>
            { bucket := bucket, hash := hashKey mapCall.key, progress := progress })
      | .busy _ (.ret (.inr _)) => Function.update log t none
      | .busy _ (.op instr _) => Function.update log t ((log t).map (Stage.after config.state instr))
      | _ => log

section Watching

variable {hashKey : K → UInt64} {config : Config (object capacity V hashKey) ι} {t : ι}
  {mapCall : Call K V} {log : ι → Option (Stage capacity)}

theorem stages_op {instr : (sig capacity K V).Instr}
    {next : (sig capacity K V).Answer instr → Code capacity K V}
    (hat : config.At t mapCall instr next) :
    stages hashKey config (.tick t) log =
      Function.update log t ((log t).map (Stage.after config.state instr)) := by
  rw [stages, show config.thread t = _ from hat]

theorem stages_call {bucket : Index capacity} {inner : SharedList.Call (Entry K V)} {cont : Cont K V}
    (hthread : config.thread t = .busy mapCall (call bucket inner cont)) :
    stages hashKey config (.tick t) log = Function.update log t (cont.progress.map fun progress =>
      { bucket := bucket, hash := hashKey mapCall.key, progress := progress }) := by
  rw [stages, hthread]

theorem stages_within {bucket : Index capacity} {label : SharedList.Label (Entry K V)}
    {cont : Cont K V}
    (hthread : config.thread t = .busy mapCall (.ret (.inl (.within bucket label cont)))) :
    stages hashKey config (.tick t) log = log := by
  rw [stages, hthread]

theorem stages_reply {result : Reply V}
    (hthread : config.thread t = .busy mapCall (reply result)) :
    stages hashKey config (.tick t) log = Function.update log t none := by
  rw [stages, hthread]

end Watching

section Condition

variable (onList : SharedList (Entry K V) → Slot → Prop)
  (clean : UInt64 → SharedList (Entry K V) → Slot → Option (Node (Entry K V)) → Prop)

/-- A push of `compute_if_absent` ends at a slot on the list. -/
def EndsOnList (state : Index capacity → SharedList (Entry K V))
    (instr : (sig capacity K V).Instr) (stage : Stage capacity) : Prop :=
  stage.progress = .pushing → ∀ slot ∈ endsAt (state instr.1) stage.hash instr.2,
    onList (state instr.1) slot

/-- A store in the bucket meets `clean` from the end of the push to the end of the search. -/
def KeepsPlaced (state : Index capacity → SharedList (Entry K V)) (stage : Stage capacity) :
    (sig capacity K V).Instr → Prop
  | (bucket, .cow (.store slot content)) => stage.bucket = bucket → stage.progress ≠ .pushing →
      clean stage.hash (state bucket) slot content
  | _ => True

def OnWaiting {hashKey : K → UInt64}
    (before : Config (object capacity V hashKey) ι × (ι → Option (Stage capacity))) (t : ι) : Prop :=
  match before.1.thread t with
  | .busy _ (.op instr _) =>
      (∀ stage ∈ before.2 t, EndsOnList onList before.1.state instr stage) ∧
        ∀ u, ∀ stage ∈ before.2 u, KeepsPlaced clean before.1.state stage instr
  | _ => True

def KeepsWaiting {hashKey : K → UInt64}
    (before : Config (object capacity V hashKey) ι × (ι → Option (Stage capacity))) :
    Action (object capacity V hashKey) ι → Prop
  | .invoke _ _ => True
  | .tick t => OnWaiting onList clean before t

instance [∀ list slot, Decidable (onList list slot)] (state : Index capacity → SharedList (Entry K V))
    (instr : (sig capacity K V).Instr) (stage : Stage capacity) :
    Decidable (EndsOnList onList state instr stage) :=
  inferInstanceAs (Decidable (stage.progress = .pushing →
    ∀ slot ∈ endsAt (state instr.1) stage.hash instr.2, onList (state instr.1) slot))

instance [∀ hash list slot content, Decidable (clean hash list slot content)]
    (state : Index capacity → SharedList (Entry K V)) (stage : Stage capacity)
    (instr : (sig capacity K V).Instr) : Decidable (KeepsPlaced clean state stage instr) := by
  unfold KeepsPlaced
  split <;> infer_instance

instance [Fintype ι] [∀ list slot, Decidable (onList list slot)]
    [∀ hash list slot content, Decidable (clean hash list slot content)] {hashKey : K → UInt64}
    (before : Config (object capacity V hashKey) ι × (ι → Option (Stage capacity))) (t : ι) :
    Decidable (OnWaiting onList clean before t) := by
  unfold OnWaiting
  split <;> infer_instance

instance [Fintype ι] [∀ list slot, Decidable (onList list slot)]
    [∀ hash list slot content, Decidable (clean hash list slot content)] {hashKey : K → UInt64}
    (before : Config (object capacity V hashKey) ι × (ι → Option (Stage capacity))) :
    ∀ action, Decidable (KeepsWaiting onList clean before action)
  | .invoke _ _ => .isTrue trivial
  | .tick t => inferInstanceAs (Decidable (OnWaiting onList clean before t))

end Condition

end Stages

/-! ### What is true of a thread in a stage -/

section Worlds

variable {bucket other : Index capacity} {hash : UInt64}
  {state : Index capacity → SharedList (Entry K V)} {list list' : SharedList (Entry K V)}
  {g : Agreeing K V × Awaiting} {stage : Option (Stage capacity)} {own : Option (Entry K V)}
  {instr : SharedList.Instr (Entry K V)}

namespace Awaiting

/-- The thread is in the stage the monitor has for it. -/
def Matches (bucket : Index capacity) (hash : UInt64) (stage : Option (Stage capacity)) :
    Awaiting → Prop
  | away => ∀ here ∈ stage, here.bucket = bucket → here.hash ≠ hash
  | pushing => stage = some { bucket := bucket, hash := hash, progress := .pushing }
  | placed _ => ∃ progress, progress ≠ Progress.pushing ∧
      stage = some { bucket := bucket, hash := hash, progress := progress }

theorem Matches.away (hmatches : away.Matches bucket hash stage) (instr : (sig capacity K V).Instr) :
    away.Matches bucket hash (stage.map (Stage.after state instr)) := by
  intro here hhere
  obtain ⟨before, hbefore, rfl⟩ := Option.map_eq_some_iff.mp hhere
  have hsame := hmatches before hbefore
  unfold Stage.after
  split <;> exact hsame

variable {g : Awaiting}

theorem Matches.elsewhere (hmatches : g.Matches bucket hash stage) (hother : other ≠ bucket)
    (instr : SharedList.Instr (Entry K V)) :
    g.Matches bucket hash (stage.map (Stage.after state (other, instr))) := by
  cases g with
  | away => exact hmatches.away (other, instr)
  | pushing =>
      rw [show stage = _ from hmatches, Option.map_some, Stage.after, if_neg (by simp [hother])]
      rfl
  | placed standing =>
      obtain ⟨progress, hprogress, rfl⟩ := hmatches
      rw [Option.map_some, Stage.after, if_neg (by simp [hprogress])]
      exact ⟨progress, hprogress, rfl⟩

theorem Matches.step (hmatches : g.Matches bucket hash stage) {answer : instr.Answer}
    (hexec : SharedList.exec instr (state bucket) = (list', some answer)) :
    (g.after hash instr answer).Matches bucket hash
      (stage.map (Stage.after state (bucket, instr))) := by
  cases g with
  | away =>
      rw [after_away]
      exact hmatches.away (bucket, instr)
  | pushing =>
      rw [after_pushing hexec, show stage = _ from hmatches, Option.map_some, Stage.after]
      by_cases hends : (endsAt (state bucket) hash instr).isSome = true
      · rw [if_pos hends, if_pos ⟨rfl, rfl, hends⟩]
        exact ⟨.placed, by decide, rfl⟩
      · rw [if_neg hends, if_neg (fun hall => hends hall.2.2)]
        rfl
  | placed standing =>
      obtain ⟨standing', hafter⟩ := after_placed hash standing answer
      obtain ⟨progress, hprogress, rfl⟩ := hmatches
      rw [hafter, Option.map_some, Stage.after, if_neg (by simp [hprogress])]
      exact ⟨progress, hprogress, rfl⟩

end Awaiting

/-- What is true of a thread whose call waits for an entry with the hash. -/
structure Waits (bucket : Index capacity) (hash : UInt64) (list : SharedList (Entry K V))
    (g : Agreeing K V × Awaiting) (stage : Option (Stage capacity)) : Prop where
  known : ∀ slot ∈ g.1.known, slot < list.heap.fresh
  seeing : g.1.seeing = []
  stage : g.2.Matches bucket hash stage
  seen : ∀ slot, g.2 = .placed (some slot) →
    slot < list.heap.fresh ∧ Sees list.heap.links (HashIs hash) slot

namespace Waits

theorem loses_none (hwaits : Waits bucket hash list g stage) {standing : Option Slot}
    (hplaced : g.2 = .placed standing)
    (hkeeps : ∀ here ∈ stage, KeepsPlaced LosesNone state here (bucket, instr)) :
    ∀ slot content, instr = .cow (.store slot content) →
      LosesNone hash (state bucket) slot content := by
  rintro slot content rfl
  have hstage := hwaits.stage
  rw [hplaced] at hstage
  obtain ⟨progress, hprogress, hstage⟩ := hstage
  exact hkeeps _ hstage rfl hprogress

/-- An instruction of another thread. -/
theorem others (hbounded : Bounded (state bucket))
    (hwaits : Waits bucket hash (state bucket) g stage) {h : Agreeing K V} (hmay : h.May own instr)
    {answer : Option instr.Answer}
    (hexec : SharedList.exec instr (state bucket) = (list', answer))
    (hkeeps : ∀ here ∈ stage, KeepsPlaced LosesNone state here (bucket, instr)) :
    Waits bucket hash list' g stage where
  known slot hslot := by
    have hbound := hwaits.known slot hslot
    rcases exec_contents hmay hexec with ⟨cell, content, rfl, rfl⟩ | ⟨content, rfl, rfl⟩ |
      ⟨-, hfresh, -⟩
    · exact hbound
    · exact Nat.lt_succ_of_lt hbound
    · rw [hfresh]
      exact hbound
  seeing := hwaits.seeing
  stage := hwaits.stage
  seen slot hslot := by
    obtain ⟨hbound, hsees⟩ := hwaits.seen slot hslot
    exact hbounded.sees hmay hexec (hwaits.loses_none hslot hkeeps) hbound hsees

/-- **One instruction** of the thread itself. -/
theorem step (hbounded : Bounded (state bucket))
    (hwaits : Waits bucket hash (state bucket) g stage) (hmay : g.1.May own instr)
    (hmay' : g.2.May hash instr) {answer : instr.Answer}
    (hexec : SharedList.exec instr (state bucket) = (list', some answer))
    (hends : ∀ here ∈ stage, EndsOnList OnList state (bucket, instr) here)
    (hkeeps : ∀ here ∈ stage, KeepsPlaced LosesNone state here (bucket, instr)) :
    ∃ g', g.1.Move hash (fun _ => True) False instr answer g' ∧ g.2.Finds instr answer ∧
      Bounded list' ∧ Waits bucket hash list' (g', g.2.after hash instr answer)
        (stage.map (Stage.after state (bucket, instr))) := by
  obtain ⟨g', hmove, hbounded', hknown, hseeing, hfresh⟩ :=
    hbounded.step hash hwaits.known hwaits.seeing hmay hexec
  refine ⟨g', hmove, Awaiting.finds hbounded.noneq (fun slot hslot => (hwaits.seen slot hslot).2)
    hexec, hbounded', hknown, hseeing, hwaits.stage.step hexec, ?_⟩
  intro slot hslot
  have hstage := hwaits.stage
  cases hg : g.2 with
  | away =>
      rw [hg, Awaiting.after_away] at hslot
      cases hslot
  | pushing =>
      rw [hg] at hslot hmay' hstage
      rw [Awaiting.after_pushing hexec] at hslot
      split at hslot
      · rename_i hsome
        cases hslot
        obtain ⟨cell, hcell⟩ := Option.isSome_iff_exists.mp hsome
        have honList : OnList (state bucket) cell := hends _ hstage rfl cell hcell
        exact ⟨Nat.lt_of_lt_of_le hbounded.head hfresh,
          Awaiting.sees_of_ends hmay' hcell honList hexec⟩
      · cases hslot
  | placed standing =>
      cases standing with
      | none =>
          rw [hg, Awaiting.after_found] at hslot
          cases hslot
      | some standing =>
          rw [hg] at hslot
          refine Awaiting.seen_next hbounded (hwaits.seen standing hg) ?_ hexec hslot
          exact fun other => hbounded.sees hmay hexec (hwaits.loses_none hg hkeeps)

end Waits

end Worlds

section Methods

variable [BEq K]

def Cont.opening (cont : Cont K V) : Awaiting :=
  match cont.progress with
  | none => .away
  | some .pushing => .pushing
  | some _ => .placed (some headSlot)

/-- What the next call to the bucket begins with, if the key of the method has the hash. -/
def openingOf (hashKey : K → UInt64) (hash : UInt64) (mapCall : Call K V) (cont : Cont K V) :
    Awaiting :=
  if hashKey mapCall.key = hash then cont.opening else .away

def searching (hashKey : K → UInt64) (hash : UInt64) : Watch K V (Agreeing K V × Awaiting) where
  rest := (.rest, .away)
  inside mapCall cont :=
    (agreeing hash (fun _ => True) (mapCall.entry hashKey) False False).both
      (awaiting hash (openingOf hashKey hash mapCall cont))
  begins _ g := g = (.rest, .away)
  hands mapCall cont g := cont = .computeFound → hashKey mapCall.key = hash →
    g.2 = .placed (some headSlot)
  answers _ _ _ := True

variable {hashKey : K → UInt64} {hash : UInt64} {mapCall : Call K V} {cont : Cont K V}
  {inner : SharedList.Call (Entry K V)} {bucket : Index capacity}

theorem searching_start (hcalls : Calls hashKey mapCall cont inner) :
    ((searching hashKey hash).inside mapCall cont).start inner
      (.rest, openingOf hashKey hash mapCall cont) := by
  refine ⟨?_, rfl, ?_⟩
  · have hfinds : ∀ func, (Agreeing.rest : Agreeing K V).Searches hash (fun _ => True) False func
        headSlot := fun func => ⟨List.mem_cons_self, .inl ⟨not_false, rfl⟩⟩
    cases hcalls with
    | insertPush other value result | computePush other value => exact ⟨List.mem_cons_self, rfl⟩
    | get other | computeFind other value | computeFound other value => exact hfinds _
    | insertRemove other value | contains other | remove other => exact List.mem_cons_self
  · unfold openingOf
    split
    · rename_i hhash
      cases hcalls with
      | computePush other value => exact ⟨_, rfl, hhash⟩
      | computeFound other value =>
          obtain rfl : hashKey other = hash := hhash
          exact ⟨rfl, rfl⟩
      | _ => trivial
    · trivial

omit [BEq K] in
theorem openingOf_matches (mapCall : Call K V) (cont : Cont K V) :
    (openingOf hashKey hash mapCall cont).Matches bucket hash (cont.progress.map fun progress =>
      { bucket := bucket, hash := hashKey mapCall.key, progress := progress }) := by
  unfold openingOf
  split
  · rename_i hhash
    unfold Cont.opening
    rw [hhash]
    cases cont with
    | computePush pushed => rfl
    | computeFound => exact ⟨.finding, by decide, rfl⟩
    | _ => rintro here ⟨⟩
  · rename_i hne
    intro here hhere hbucket
    obtain ⟨progress, -, rfl⟩ := Option.map_eq_some_iff.mp hhere
    exact hne

omit [BEq K] in
theorem openingOf_placed {standing : Option Slot}
    (hopening : openingOf hashKey hash mapCall cont = .placed standing) :
    hashKey mapCall.key = hash ∧ cont = .computeFound ∧ standing = some headSlot := by
  unfold openingOf at hopening
  split at hopening
  · rename_i hhash
    cases cont with
    | computeFound =>
        cases hopening
        exact ⟨hhash, rfl, rfl⟩
    | _ => cases hopening
  · cases hopening

theorem searching_sound (hcapacity : capacity ≠ 0) (watched : Index capacity) :
    (searching (V := V) hashKey hash).Sound hcapacity hashKey watched where
  inside mapCall cont := (agreeing_sound ..).both (awaiting_sound ..)
  begins := by
    rintro mapCall cont inner g - hfirst - rfl
    exact hfirst.elim
  resume := by
    intro mapCall cont inner result g hcalls hwatched hfinish
    obtain ⟨hfinish, hawaits⟩ := hfinish
    cases hcalls with
    | insertRemove other value =>
        cases result with
        | removed output => exact ⟨hwatched.symm, .insertPush other value _, fun _ => by rintro ⟨⟩⟩
        | _ => exact hfinish.elim
    | insertPush other value answer =>
        cases result with
        | unit => exact fun _ => trivial
        | _ => exact hfinish.elim
    | get other =>
        cases result with
        | found found => exact fun _ => trivial
        | _ => exact hfinish.elim
    | contains other =>
        cases result with
        | bool answer => exact fun _ => trivial
        | _ => exact hfinish.elim
    | remove other =>
        cases result with
        | removed output => exact fun _ => trivial
        | _ => exact hfinish.elim
    | computeFind other value =>
        cases result with
        | found found =>
            cases found with
            | none =>
                refine ⟨fun _ => ⟨_, _, .computeFind other value, trivial, trivial⟩,
                  fun answer g' hmove => ?_⟩
                exact ⟨hwatched.symm, .computePush other value, fun _ => by rintro ⟨⟩⟩
            | some found => exact fun _ => trivial
        | _ => exact hfinish.elim
    | computePush other value =>
        cases result with
        | unit =>
            refine ⟨hwatched.symm, .computeFound other value, fun _ _ hhash => ?_⟩
            rw [openingOf, if_pos hhash] at hawaits
            exact hawaits
        | _ => exact hfinish.elim
    | computeFound other value =>
        cases result with
        | found found =>
            cases found with
            | some found => exact fun _ => trivial
            | none =>
                refine fun _ => ⟨_, _, .computeFound other value, not_false, ?_⟩
                by_cases hhash : hashKey (Call.computeIfAbsent other value).key = hash
                · rw [openingOf, if_pos hhash] at hawaits
                  obtain ⟨_, ⟨⟩⟩ := hawaits
                · rw [openingOf, if_neg hhash] at hawaits
                  rw [show g.2 = .away from hawaits]
                  rintro standing ⟨⟩
        | _ => exact hfinish.elim

end Methods

/-! ### Runs -/

section Runs

variable {ι : Type} [DecidableEq ι] [BEq K] {hashKey : K → UInt64} {bucket : Index capacity}
  {hash : UInt64}

/-- What is true of the bucket and of all threads. -/
def SearchWorld (bucket : Index capacity) (hash : UInt64)
    (state : Index capacity → SharedList (Entry K V)) (ghost : ι → Agreeing K V × Awaiting)
    (log : ι → Option (Stage capacity)) : Prop :=
  Bounded (state bucket) ∧ ∀ t, Waits bucket hash (state bucket) (ghost t) (log t)

omit [BEq K] in
/-- A thread begins something else. -/
theorem SearchWorld.restart {state : Index capacity → SharedList (Entry K V)}
    {ghost : ι → Agreeing K V × Awaiting} {log : ι → Option (Stage capacity)}
    (hw : SearchWorld bucket hash state ghost log) (t : ι) {g : Awaiting}
    {stage : Option (Stage capacity)} (hstage : g.Matches bucket hash stage)
    (hseen : ∀ slot, g = .placed (some slot) → slot = headSlot ∧
      ∃ u, (ghost u).2 = .placed (some headSlot)) :
    SearchWorld bucket hash state (Function.update ghost t (.rest, g))
      (Function.update log t stage) := by
  obtain ⟨hbounded, hwaits⟩ := hw
  refine ⟨hbounded, forall_update₂ ghost log t ⟨?_, rfl, hstage, ?_⟩ fun u _ => hwaits u⟩
  · intro slot hslot
    rw [List.mem_singleton.mp hslot]
    exact hbounded.head
  · intro slot hslot
    obtain ⟨rfl, u, hu⟩ := hseen slot hslot
    exact (hwaits u).seen headSlot hu

omit [BEq K] in
theorem retried_stage {state : Index capacity → SharedList (Entry K V)} {part : Index capacity}
    {instr : SharedList.Instr (Entry K V)} {after : SharedList (Entry K V)}
    (hexec : SharedList.exec instr (state part) = (after, none)) (stage : Option (Stage capacity)) :
    stage.map (Stage.after state (part, instr)) = stage := by
  have hends : ∀ hash, endsAt (state part) hash instr = none := by
    rcases retried_cases hexec with ⟨slot, rfl, -⟩ | ⟨slot, rfl, -⟩ | ⟨slot, rfl, -⟩
    all_goals exact fun _ => rfl
  have hsame : Stage.after state (part, instr) = id := by
    funext here
    simp [Stage.after, hends]
  rw [hsame, Option.map_id, id]

theorem searching_keeps (hcapacity : capacity ≠ 0) (bucket : Index capacity) (hash : UInt64) :
    ((searching (V := V) hashKey hash).protocol hcapacity hashKey bucket).KeepsBeside
      (stages (ι := ι) hashKey) (KeepsWaiting OnList LosesNone)
      fun state ghost log _ => SearchWorld bucket hash state ghost log where
  invoke := by
    rintro config ghost log t mapCall hw - hrest
    refine ⟨ghost t, hrest, ?_⟩
    rw [Function.update_eq_self]
    exact hw
  respond := by
    rintro config ghost log t mapCall result hw hthread - -
    rw [stages_reply hthread]
    refine hw.restart t ?_ ?_
    · rintro here ⟨⟩
    · rintro slot ⟨⟩
  jump := by
    rintro config ghost log t mapCall label hw hthread - harrive
    cases label with
    | call part inner cont =>
        obtain ⟨hpart, hcalls, hhands⟩ := harrive
        rw [stages_call hthread]
        by_cases hwatched : part = bucket
        · subst hwatched
          refine ⟨_, ⟨hpart, hcalls, fun _ => searching_start hcalls⟩, hw.restart t ?_ ?_⟩
          · exact openingOf_matches mapCall cont
          · intro slot hslot
            obtain ⟨hhash, hcont, ⟨⟩⟩ := openingOf_placed hslot
            exact ⟨rfl, t, hhands rfl hcont hhash⟩
        · refine ⟨(.rest, .away), ⟨hpart, hcalls, fun heq => absurd heq hwatched⟩,
            hw.restart t ?_ ?_⟩
          · intro here hhere hbucket
            obtain ⟨progress, -, rfl⟩ := Option.map_eq_some_iff.mp hhere
            exact absurd hbucket hwatched
          · rintro slot ⟨⟩
    | within part label cont =>
        rw [stages_within hthread]
        refine ⟨ghost t, harrive, ?_⟩
        rw [Function.update_eq_self]
        exact hw
  answered := by
    rintro config ghost log t mapCall ⟨part, instr⟩ next state answer ⟨hbounded, hwaits⟩ hat hcond
      hmay hexec
    obtain ⟨hinstr, hothers⟩ := Composite.exec_part hexec
    rw [KeepsWaiting, OnWaiting, show config.thread t = _ from hat] at hcond
    obtain ⟨hends, hkeeps⟩ := hcond
    rw [stages_op hat]
    by_cases hwatched : part = bucket
    · subst hwatched
      obtain ⟨cont, inner, -, hmay, hmay'⟩ := hmay rfl
      obtain ⟨g, hmove, hfinds, hbounded', hstep⟩ :=
        (hwaits t).step hbounded hmay hmay' hinstr hends (hkeeps t)
      refine ⟨(g, (ghost t).2.after hash instr answer),
        ⟨fun _ _ _ _ => ⟨hmove, rfl, hfinds⟩, fun hne => absurd rfl hne⟩, hbounded', ?_⟩
      exact forall_update₂ ghost log t hstep fun u _ =>
        (hwaits u).others hbounded hmay hinstr (hkeeps u)
    · refine ⟨ghost t, ⟨fun heq => absurd heq hwatched, fun _ => rfl⟩, ?_⟩
      rw [Function.update_eq_self, SearchWorld, hothers bucket (Ne.symm hwatched)]
      refine ⟨hbounded, fun u => ?_⟩
      by_cases hut : u = t
      · subst hut
        rw [Function.update_self]
        have hu := hwaits u
        exact ⟨hu.known, hu.seeing, hu.stage.elsewhere hwatched instr, hu.seen⟩
      · rw [Function.update_of_ne hut]
        exact hwaits u
  retried := by
    rintro config ghost log t mapCall ⟨part, instr⟩ next state ⟨hbounded, hwaits⟩ hat hcond hmay
      hexec
    obtain ⟨hinstr, hothers⟩ := Composite.exec_part hexec
    rw [KeepsWaiting, OnWaiting, show config.thread t = _ from hat] at hcond
    obtain ⟨-, hkeeps⟩ := hcond
    rw [stages_op hat, retried_stage hinstr, Function.update_eq_self]
    by_cases hwatched : part = bucket
    · subst hwatched
      obtain ⟨cont, inner, -, hmay, -⟩ := hmay rfl
      obtain ⟨hinner, hfresh, hnoneq⟩ := retried_contents hinstr
      exact ⟨hbounded.congr hinner hfresh hnoneq,
        fun u => (hwaits u).others hbounded hmay hinstr (hkeeps u)⟩
    · rw [SearchWorld, hothers bucket (Ne.symm hwatched)]
      exact ⟨hbounded, hwaits⟩

omit [DecidableEq ι] [BEq K] in
theorem search_start (bucket : Index capacity) (hash : UInt64) :
    SearchWorld (ι := ι) bucket hash (withCapacity capacity : _ → SharedList (Entry K V))
      (fun _ => (.rest, .away)) fun _ => none := by
  have hbounded : Bounded (newBucket : SharedList (Entry K V)) := by
    refine ⟨rfl, Nat.zero_lt_one, ?_⟩
    intro slot node hnode
    change new.heap.inner slot = some node at hnode
    rw [new_inner] at hnode
    cases hnode
  refine ⟨hbounded, fun t => ⟨?_, rfl, ?_, ?_⟩⟩
  · intro slot hslot
    rw [List.mem_singleton.mp hslot]
    exact hbounded.head
  · rintro here ⟨⟩
  · rintro slot ⟨⟩

abbrev searches (ι : Type) [DecidableEq ι] (capacity : UInt64) (V : Type) (hashKey : K → UInt64) :=
  ((object capacity V hashKey).threads ι).monitored (stages hashKey)

variable {before : Config (object capacity V hashKey) ι × (ι → Option (Stage capacity))}

theorem search_invariant (hcapacity : capacity ≠ 0)
    (hreach : (searches ι capacity V hashKey).Reach (KeepsWaiting OnList LosesNone)
      (.initial (withCapacity capacity), fun _ => none) before) (bucket : Index capacity)
    (hash : UInt64) :
    ∃ ghost, (∀ t, ((searching hashKey hash).protocol hcapacity hashKey bucket).Follows
        (before.1.thread t) (ghost t)) ∧
      SearchWorld bucket hash before.1.state ghost before.2 :=
  Protocol.beside_invariant (Watch.protocol_sound (searching_sound hcapacity bucket))
    (searching_keeps hcapacity bucket hash) (search_start bucket hash) hreach

/-- A thread that is in a stage is in the bucket of its key. -/
def Located (hcapacity : capacity ≠ 0) (hashKey : K → UInt64) (thread : Thread (object capacity V hashKey))
    (stage : Option (Stage capacity)) : Prop :=
  ∀ here ∈ stage, ∃ mapCall code, thread = .busy mapCall code ∧
    here.bucket = indexOf hcapacity (hashKey mapCall.key)

theorem located_update {hcapacity : capacity ≠ 0}
    (hlocated : ∀ t, Located hcapacity hashKey (before.1.thread t) (before.2 t)) (t : ι)
    {thread : Thread (object capacity V hashKey)} {stage : Option (Stage capacity)}
    (hthread : Located hcapacity hashKey thread stage) (u : ι) :
    Located hcapacity hashKey (Function.update before.1.thread t thread u)
      (Function.update before.2 t stage u) :=
  forall_update₂ (p := fun _ thread stage => Located hcapacity hashKey thread stage) _ _ t hthread
    (fun u _ => hlocated u) u

omit [DecidableEq ι] in
theorem Located.after {hcapacity : capacity ≠ 0} {thread : Thread (object capacity V hashKey)}
    {stage : Option (Stage capacity)} (hlocated : Located hcapacity hashKey thread stage)
    {state : Index capacity → SharedList (Entry K V)} (instr : (sig capacity K V).Instr) :
    Located hcapacity hashKey thread (stage.map (Stage.after state instr)) := by
  intro here hhere
  obtain ⟨first, hfirst, rfl⟩ := Option.map_eq_some_iff.mp hhere
  have hbucket := hlocated first hfirst
  unfold Stage.after
  split <;> exact hbucket

theorem located (hcapacity : capacity ≠ 0)
    (hreach : (searches ι capacity V hashKey).Reach (KeepsWaiting OnList LosesNone)
      (.initial (withCapacity capacity), fun _ => none) before) (t : ι) :
    Located hcapacity hashKey (before.1.thread t) (before.2 t) := by
  induction hreach generalizing t with
  | start => rintro here ⟨⟩
  | @step before after action hbefore hcond hstep ih =>
      obtain ⟨hstep, hlog⟩ := System.monitored_step.mp hstep
      obtain ⟨ghost, hfollows, -⟩ := search_invariant hcapacity hbefore (indexOf hcapacity 0) 0
      have hsame : ∀ {u mapCall code code'}, before.1.thread u = .busy mapCall code →
          Located hcapacity hashKey (.busy mapCall code') (before.2 u) := by
        intro u mapCall code code' hthread here hhere
        obtain ⟨_, _, hbusy, hbucket⟩ := ih u here hhere
        rw [hthread] at hbusy
        cases hbusy
        exact ⟨mapCall, code', rfl, hbucket⟩
      rw [hlog]
      rcases Config.step_cases hstep with ⟨u, mapCall, rfl, hidle, hafter⟩ |
        ⟨u, mapCall, result, rfl, hthread, hafter⟩ | ⟨u, mapCall, label, rfl, hthread, hafter⟩ |
        ⟨u, mapCall, instr, next, state, answer, rfl, hat, -, hafter⟩ |
        ⟨u, mapCall, instr, next, state, rfl, hat, -, hafter⟩
      · have hnone : Located hcapacity hashKey (.busy mapCall (enter hashKey mapCall))
            (before.2 u) := by
          intro here hhere
          obtain ⟨_, _, hbusy, -⟩ := ih u here hhere
          rw [hidle] at hbusy
          cases hbusy
        rw [hafter, stages, ← Function.update_eq_self u before.2]
        exact located_update ih u hnone t
      · rw [hafter, stages_reply hthread]
        refine located_update ih u ?_ t
        rintro here ⟨⟩
      · have harrive := hfollows u
        rw [hthread] at harrive
        rw [hafter]
        cases label with
        | call part inner cont =>
            rw [stages_call hthread]
            refine located_update ih u ?_ t
            intro here hhere
            obtain ⟨progress, -, rfl⟩ := Option.map_eq_some_iff.mp hhere
            exact ⟨mapCall, _, rfl, harrive.1⟩
        | within part label cont =>
            rw [stages_within hthread, ← Function.update_eq_self u before.2]
            exact located_update ih u (hsame hthread) t
      · rw [hafter, stages_op hat]
        exact located_update ih u ((hsame hat).after instr) t
      · rw [hafter, stages_op hat]
        exact located_update ih u ((hsame hat).after instr) t

/-- **The second search finds something.** In a run in which the pushes of `compute_if_absent` end on
the list, and in which from there on no store loses an entry with the hash, no call of
`compute_if_absent` panics that has begun its second search. -/
theorem second_find_finds (hcapacity : capacity ≠ 0)
    (hreach : (searches ι capacity V hashKey).Reach (KeepsWaiting OnList LosesNone)
      (.initial (withCapacity capacity), fun _ => none) before) (t : ι) (stage : Stage capacity)
    (hstage : before.2 t = some stage) (hfinding : stage.progress = .finding)
    (mapCall : Call K V) (message : String) :
    before.1.thread t ≠ .busy mapCall (.panic message) := by
  intro hthread
  obtain ⟨ghost, hfollows, -, hwaits⟩ :=
    search_invariant hcapacity hreach stage.bucket stage.hash
  obtain ⟨_, _, hbusy, hbucket⟩ := located hcapacity hreach t stage hstage
  rw [hthread] at hbusy
  cases hbusy
  have hfail := hfollows t
  rw [hthread] at hfail
  obtain ⟨cont, inner, -, -, hfail⟩ := hfail hbucket.symm
  have hmatches := (hwaits t).stage
  rw [hstage] at hmatches
  cases hg : (ghost t).2 with
  | away =>
      rw [hg] at hmatches
      exact hmatches stage rfl rfl rfl
  | pushing =>
      rw [hg] at hmatches
      have hsome : some stage = _ := hmatches
      rw [Option.some.inj hsome] at hfinding
      cases hfinding
  | placed standing => exact hfail standing hg

end Runs

/-! ### Examples -/

section Examples

variable {ι : Type} [BEq K] {hashKey : K → UInt64}
  {onList onList' : SharedList (Entry K V) → Slot → Prop}
  {clean clean' : UInt64 → SharedList (Entry K V) → Slot → Option (Node (Entry K V)) → Prop}
  {before : Config (object capacity V hashKey) ι × (ι → Option (Stage capacity))}

theorem KeepsWaiting.mono [DecidableEq ι] (honList : ∀ list slot, onList list slot → onList' list slot)
    (hclean : ∀ hash list slot content, clean hash list slot content →
      clean' hash list slot content)
    {action : Action (object capacity V hashKey) ι} (hkeeps : KeepsWaiting onList clean before action) :
    KeepsWaiting onList' clean' before action := by
  cases action with
  | invoke t mapCall => trivial
  | tick t =>
      rw [KeepsWaiting, OnWaiting] at hkeeps ⊢
      split at hkeeps
      · obtain ⟨hends, hplaced⟩ := hkeeps
        refine ⟨fun stage hstage hpushing slot hslot =>
          honList _ _ (hends stage hstage hpushing slot hslot), fun u stage hstage => ?_⟩
        have hkept := hplaced u stage hstage
        unfold KeepsPlaced at hkept ⊢
        split at hkept
        · exact fun hbucket hprogress => hclean _ _ _ _ (hkept hbucket hprogress)
        · trivial
      · trivial

end Examples

/-- A node is put into `head`, in front of what it holds. -/
def InFront (list : SharedList (Entry K V)) (slot : Slot) (content : Option (Node (Entry K V))) :
    Prop :=
  ∃ node ∈ content, node.next ≠ slot ∧ list.heap.inner node.next = list.heap.inner slot

instance [DecidableEq K] [DecidableEq V] (list : SharedList (Entry K V)) (slot : Slot)
    (content : Option (Node (Entry K V))) : Decidable (InFront list slot content) :=
  inferInstanceAs (Decidable (∃ node ∈ content, node.next ≠ slot ∧
    list.heap.inner node.next = list.heap.inner slot))

/-- Both calls are in their second search. -/
theorem second_find_finds_both :
    ∃ (config : Config (object 16 ℕ unitHash) Bool) (log : Bool → Option (Stage 16)),
      (∀ t, ∃ stage, log t = some stage ∧ stage.progress = .finding) ∧
      ∀ t mapCall message, config.thread t ≠ .busy mapCall (.panic message) := by
  obtain ⟨config, log, hrun, htrue, hfalse⟩ : ∃ config log,
      (searches Bool 16 ℕ unitHash).runIf
        (KeepsWaiting (fun _ slot => slot = headSlot) fun _ => InFront)
        (.initial (withCapacity 16), fun _ => none)
        (.invoke true (.computeIfAbsent () 10) :: .invoke false (.computeIfAbsent () 20) ::
          List.replicate 5 (.tick false) ++ List.replicate 20 (.tick true) ++
          List.replicate 18 (.tick false)) = some (config, log) ∧
      ((log true).map Stage.progress = some .finding) ∧
      ((log false).map Stage.progress = some .finding) := ⟨_, _, rfl, rfl, rfl⟩
  have hreach : (searches Bool 16 ℕ unitHash).Reach (KeepsWaiting OnList LosesNone)
      (.initial (withCapacity 16), fun _ => none) (config, log) := by
    refine (System.reach_of_runIf _ hrun).mono fun before action hkeeps => hkeeps.mono ?_ ?_
    · rintro list slot rfl
      exact .refl
    · rintro hash list slot content ⟨node, rfl, hfront⟩
      exact .inl ⟨node, rfl, hfront⟩
  have hfinding : ∀ t, ∃ stage, log t = some stage ∧ stage.progress = .finding := by
    rintro (_ | _)
    · exact Option.map_eq_some_iff.mp hfalse
    · exact Option.map_eq_some_iff.mp htrue
  refine ⟨config, log, hfinding, fun t mapCall message => ?_⟩
  obtain ⟨stage, hstage, hprogress⟩ := hfinding t
  exact second_find_finds (by decide) hreach t stage hstage hprogress mapCall message

def Call.Updates : Call K V → Prop
  | .insert _ _ | .remove _ | .computeIfAbsent _ _ => True
  | .get _ | .contains _ => False

instance : DecidablePred (Call.Updates (K := K) (V := V))
  | .insert _ _ | .remove _ | .computeIfAbsent _ _ => .isTrue trivial
  | .get _ | .contains _ => .isFalse not_false

section Reads

variable {ι : Type} [BEq K] {hashKey : K → UInt64}

/-- The slot a thread has found to hold an element. -/
def seenBy (state : Index capacity → SharedList (Entry K V)) (_ : Call K V)
    (instr : (sig capacity K V).Instr) (seen : Option Slot) : Option Slot :=
  (state instr.1).sees seen instr.2

/-- A slot that holds an element is not emptied before the element is read. -/
def ReadsOnce (before : Config (object capacity V hashKey) ι × (ι → Option Slot)) :
    Action (object capacity V hashKey) ι → Prop
  | .invoke _ mapCall => mapCall.Updates
  | .tick t => ∀ instr, before.1.instr? t = some instr →
      (before.1.state instr.1).FoundAgain (before.2 t) instr.2

instance (before : Config (object capacity V hashKey) ι × (ι → Option Slot)) :
    ∀ action, Decidable (ReadsOnce before action)
  | .invoke _ mapCall => inferInstanceAs (Decidable mapCall.Updates)
  | .tick t =>
      match hinstr : before.1.instr? t with
      | none => .isTrue (by simp [ReadsOnce, hinstr])
      | some instr => decidable_of_iff ((before.1.state instr.1).FoundAgain (before.2 t) instr.2)
          (by simp [ReadsOnce, hinstr])

end Reads

/-- Another thread removes the entry before the second search. -/
theorem second_find_finds_fails :
    ¬ ∀ (config : Config (object 16 ℕ unitHash) Bool) (seen : Bool → Option Slot),
      (((object 16 ℕ unitHash).threads Bool).monitored (logging seenBy)).Reach ReadsOnce
        (.initial (withCapacity 16), fun _ => none) (config, seen) →
      ∀ t mapCall message, config.thread t ≠ .busy mapCall (.panic message) := by
  intro hclaim
  obtain ⟨config, seen, hrun, hpanic⟩ : ∃ config seen,
      (((object 16 ℕ unitHash).threads Bool).monitored (logging seenBy)).runIf ReadsOnce
        (.initial (withCapacity 16), fun _ => none)
        (.invoke true (.computeIfAbsent () 10) :: List.replicate 16 (.tick true) ++
          .invoke false (.remove ()) :: List.replicate 17 (.tick false) ++
          List.replicate 3 (.tick true)) = some (config, seen) ∧
      config.thread true = .busy (.computeIfAbsent () 10)
        (.panic "called `Option::unwrap()` on a `None` value") := ⟨_, _, rfl, rfl⟩
  exact hclaim config seen (System.reach_of_runIf _ hrun) true _ _ hpanic

end Mutual.SharedMap
