import Mutual.Concurrency.Linearizability
import Mutual.Proof.Settling

/-!
# Agreement of compute_if_absent

Two threads that find a bucket empty both push to its head, where `push` does not look for an equal
entry, and each gets its own value back. All callers agree as long as no store puts an entry with the
hash of the key beside another, or loses one.
-/

namespace Mutual.SharedMap

open Concurrency Data SharedList

variable {K V : Type}

/-! ### The methods -/

/-- The beginning of a call for which the entry can be seen from `head`. -/
def Agreeing.sighted : Agreeing K V :=
  { known := [headSlot], reads := [], seeing := [headSlot], full := none }

section Methods

variable [BEq K]

def Call.Gets (key : K) : Call K V → Prop
  | .get other => (other == key) = true
  | _ => False

section Watch

variable (hashKey : K → UInt64) (key : K)

def Call.Begins (mapCall : Call K V) (g : Agreeing K V) : Prop :=
  g = .rest ∨ g = .sighted ∧ mapCall.Gets key

/-- What the reply to a method is taken from. -/
def Answers (g : Agreeing K V) : Call K V → Reply V → Prop
  | .computeIfAbsent other _, result => hashKey other = hashKey key →
      ∃ entry ∈ g.reads, entry.hash = hashKey key ∧ result = .value entry.value
  | .get other, .found (some value) => hashKey other = hashKey key →
      ∃ entry ∈ g.reads, entry.hash = hashKey key ∧ entry.value = value
  | .get _, .found none => g.seeing = []
  | .get _, _ => False
  | _, _ => True

def agreement : Watch K V (Agreeing K V) where
  rest := .rest
  inside mapCall cont := agreeing (hashKey key) (Fits hashKey key) (mapCall.entry hashKey)
    (hashKey mapCall.key = hashKey key) (hashKey mapCall.key = hashKey key ∧ cont = .computeFound)
  begins mapCall g := mapCall.Begins key g
  hands mapCall cont g := (cont.First → mapCall.Begins key g) ∧
    (cont = .computeFound → hashKey mapCall.key = hashKey key →
      ∃ entry ∈ g.reads, entry.hash = hashKey key)
  answers mapCall result g := Answers hashKey key g mapCall result

end Watch

variable {capacity : UInt64} {hcapacity : capacity ≠ 0} {hashKey : K → UInt64} {key : K}

theorem agreement_start [EquivBEq K] {mapCall : Call K V} {cont : Cont K V}
    {inner : SharedList.Call (Entry K V)} {g : Agreeing K V}
    (hcalls : Calls hashKey mapCall cont inner) (hfirst : cont.First)
    (hbegins : mapCall.Begins key g) : ((agreement hashKey key).inside mapCall cont).start inner g := by
  have hhead : headSlot ∈ g.known := by
    rcases hbegins with rfl | ⟨rfl, -⟩ <;> exact List.mem_cons_self
  cases hcalls with
  | insertRemove other value => exact hhead
  | get other =>
      refine ⟨hhead, ?_⟩
      rcases hbegins with rfl | ⟨rfl, hgets⟩
      · refine .inl ⟨?_, rfl⟩
        rintro ⟨-, ⟨⟩⟩
      · refine .inr ⟨List.mem_cons_self, ?_⟩
        intro seen entry hfits hhash
        exact BEq.trans (hfits.2 hhash) (BEq.symm hgets)
  | contains other => exact hhead
  | remove other => exact hhead
  | computeFind other value =>
      refine ⟨hhead, .inl ⟨?_, ?_⟩⟩
      · rintro ⟨-, ⟨⟩⟩
      · rcases hbegins with rfl | ⟨rfl, ⟨⟩⟩
        rfl
  | insertPush other value result => exact hfirst.elim
  | computePush other value => exact hfirst.elim
  | computeFound other value => exact hfirst.elim

theorem agreement_sound (hrespects : Respects hashKey) :
    (agreement (V := V) hashKey key).Sound hcapacity hashKey
      (indexOf hcapacity (hashKey key)) where
  inside mapCall cont := agreeing_sound ..
  begins := by
    intro mapCall cont inner g hcalls hfirst hbegins
    refine ⟨fun _ => hbegins, ?_⟩
    rintro rfl
    exact hfirst.elim
  resume := by
    intro mapCall cont inner result g hcalls hwatched hfinish
    have hhash : ∀ {other : K} {entry : Entry K V}, Fits hashKey key entry →
        (entry.key == other) = true → hashKey other = hashKey key → entry.hash = hashKey key :=
      fun hfits hkey hother => hfits.1.trans ((hrespects _ _ hkey).trans hother)
    cases hcalls with
    | insertRemove other value =>
        cases result with
        | removed output =>
            refine ⟨hwatched.symm, .insertPush other value _, fun _ => ⟨False.elim, ?_⟩⟩
            rintro ⟨⟩
        | _ => exact hfinish.elim
    | insertPush other value answer =>
        cases result with
        | unit => exact fun _ => trivial
        | _ => exact hfinish.elim
    | get other =>
        cases result with
        | found found =>
            cases found with
            | none => exact fun _ => hfinish.2
            | some found =>
                obtain ⟨hkey, hread, hfits⟩ := hfinish
                exact fun _ hother => ⟨found.2, hread, hhash hfits hkey hother, rfl⟩
        | _ => exact hfinish.elim
    | contains other =>
        cases result with
        | bool answer => exact fun _ => trivial
        | _ => exact hfinish.elim
    | remove other =>
        cases result with
        | removed output => exact fun _ => trivial
        | _ => exact hfinish.elim
    | computeFind other value =>
        cases result with
        | found found =>
            cases found with
            | none =>
                refine ⟨fun _ => ⟨_, _, .computeFind other value, trivial⟩, fun answer g' hmove => ?_⟩
                obtain rfl : g' = g := hmove.1 rfl _ _ (.computeFind other value)
                refine ⟨hwatched.symm, .computePush other value, fun _ => ⟨False.elim, ?_⟩⟩
                rintro ⟨⟩
            | some found =>
                obtain ⟨hkey, hread, hfits⟩ := hfinish
                exact fun _ hother => ⟨found.2, hread, hhash hfits hkey hother, rfl⟩
        | _ => exact hfinish.elim
    | computePush other value =>
        cases result with
        | unit =>
            obtain ⟨entry, hread, hentry⟩ := hfinish
            exact ⟨hwatched.symm, .computeFound other value, fun _ =>
              ⟨False.elim, fun _ hother => ⟨entry, hread, hentry.trans hother⟩⟩⟩
        | _ => exact hfinish.elim
    | computeFound other value =>
        cases result with
        | found found =>
            cases found with
            | none =>
                refine fun _ => ⟨_, _, .computeFound other value, fun hother => ?_⟩
                exact hfinish.1 ⟨hother, rfl⟩
            | some found =>
                obtain ⟨hkey, hread, hfits⟩ := hfinish
                exact fun _ hother => ⟨found.2, hread, (beq_iff_eq.mp hkey).trans hother, rfl⟩
        | _ => exact hfinish.elim

end Methods

namespace Settled

variable [BEq K] {hashKey : K → UInt64} {key : K} {list : SharedList (Entry K V)}
  {settled : Option (Entry K V)} {cells : List Slot}
  (hsettled : Settled hashKey key list settled cells)
include hsettled

theorem knows_rest : Knows hashKey key list settled cells .rest where
  known slot hslot := by
    rw [List.mem_singleton.mp hslot]
    exact hsettled.head
  reads := by simp [Agreeing.rest]
  seeing := by simp [Agreeing.rest]

theorem knows_sighted (hne : settled ≠ none) : Knows hashKey key list settled cells .sighted where
  known := hsettled.knows_rest.known
  reads := by simp [Agreeing.sighted]
  seeing slot hslot := by
    rw [List.mem_singleton.mp hslot]
    exact ⟨hsettled.head, hsettled.seen hne⟩

end Settled

/-! ### Runs -/

section Runs

variable {ι : Type} [BEq K] {capacity : UInt64}

/-- The call neither inserts nor removes `key`, and its key has another hash if it is another key. -/
def Call.LeavesAlone (hashKey : K → UInt64) (key : K) (mapCall : Call K V) : Prop :=
  (hashKey mapCall.key = hashKey key → (mapCall.key == key) = true) ∧
    match mapCall with
    | .insert other _ | .remove other => (other == key) = false
    | .get _ | .contains _ | .computeIfAbsent _ _ => True

instance (hashKey : K → UInt64) (key : K) : DecidablePred (Call.LeavesAlone (V := V) hashKey key)
  | .insert other _ | .remove other => inferInstanceAs (Decidable
      ((hashKey other = hashKey key → (other == key) = true) ∧ (other == key) = false))
  | .get other | .contains other | .computeIfAbsent other _ => inferInstanceAs (Decidable
      ((hashKey other = hashKey key → (other == key) = true) ∧ True))

instance {hashKey : K → UInt64} {key : K} :
    ∀ (config : Config (object capacity V hashKey) ι) action,
      Decidable (OnlyCalls (Call.LeavesAlone hashKey key) config action) := fun _ _ => inferInstance

/-- In the bucket of the key: the slot a thread has found to hold an element. -/
def seenIn (watched : Index capacity) (state : Index capacity → SharedList (Entry K V))
    (_ : Call K V) (instr : (sig capacity K V).Instr) (seen : Option Slot) : Option Slot :=
  if instr.1 = watched then (state watched).sees seen instr.2 else seen

/-- A store meets `clean`, and a call with the key still finds an element in a slot it comes back to. -/
def Agrees (hashKey : K → UInt64) (key : K)
    (clean : SharedList (Entry K V) → Slot → Option (Node (Entry K V)) → Prop)
    (list : SharedList (Entry K V)) (seen : Option Slot) (mapCall : Call K V) :
    SharedList.Instr (Entry K V) → Prop
  | .cow (.store slot content) => clean list slot content
  | instr => hashKey mapCall.key = hashKey key → list.FoundAgain seen instr

/-- If `t` is about to execute an instruction in the bucket of the key, it agrees. -/
def OnAgreement (hcapacity : capacity ≠ 0) (hashKey : K → UInt64) (key : K)
    (clean : SharedList (Entry K V) → Slot → Option (Node (Entry K V)) → Prop)
    (before : Config (object capacity V hashKey) ι × (ι → Option Slot)) (t : ι) : Prop :=
  match before.1.thread t with
  | .busy mapCall (.op instr _) => instr.1 = indexOf hcapacity (hashKey key) →
      Agrees hashKey key clean (before.1.state instr.1) (before.2 t) mapCall instr.2
  | _ => True

def KeepsAgreement (hcapacity : capacity ≠ 0) (hashKey : K → UInt64) (key : K)
    (clean : SharedList (Entry K V) → Slot → Option (Node (Entry K V)) → Prop)
    (before : Config (object capacity V hashKey) ι × (ι → Option Slot)) :
    Action (object capacity V hashKey) ι → Prop
  | .invoke _ mapCall => mapCall.LeavesAlone hashKey key
  | .tick t => OnAgreement hcapacity hashKey key clean before t

section Clean

variable {hcapacity : capacity ≠ 0} {hashKey : K → UInt64} {key : K}
  {clean weaker : SharedList (Entry K V) → Slot → Option (Node (Entry K V)) → Prop}
  {before : Config (object capacity V hashKey) ι × (ι → Option Slot)}

instance [∀ list slot content, Decidable (clean list slot content)] (list : SharedList (Entry K V))
    (seen : Option Slot) (mapCall : Call K V) :
    ∀ instr, Decidable (Agrees hashKey key clean list seen mapCall instr) := by
  intro instr
  unfold Agrees
  split <;> infer_instance

instance [∀ list slot content, Decidable (clean list slot content)] (t : ι) :
    Decidable (OnAgreement hcapacity hashKey key clean before t) := by
  unfold OnAgreement
  split <;> infer_instance

instance [∀ list slot content, Decidable (clean list slot content)] :
    ∀ action, Decidable (KeepsAgreement hcapacity hashKey key clean before action)
  | .invoke _ mapCall => inferInstanceAs (Decidable (mapCall.LeavesAlone hashKey key))
  | .tick t => inferInstanceAs (Decidable (OnAgreement hcapacity hashKey key clean before t))

theorem OnAgreement.mono
    (himp : ∀ list slot content, clean list slot content → weaker list slot content) {t : ι}
    (hon : OnAgreement hcapacity hashKey key clean before t) :
    OnAgreement hcapacity hashKey key weaker before t := by
  unfold OnAgreement at hon ⊢
  split at hon
  · intro hwatched
    have hagrees := hon hwatched
    unfold Agrees at hagrees ⊢
    split at hagrees
    · exact himp _ _ _ hagrees
    · exact hagrees
  · trivial

theorem KeepsAgreement.mono
    (himp : ∀ list slot content, clean list slot content → weaker list slot content)
    {action : Action (object capacity V hashKey) ι}
    (hkeeps : KeepsAgreement hcapacity hashKey key clean before action) :
    KeepsAgreement hcapacity hashKey key weaker before action := by
  cases action with
  | invoke t mapCall => exact hkeeps
  | tick t => exact OnAgreement.mono himp hkeeps

end Clean

abbrev History (ι K V : Type) : Type := List (Event ι (Call K V) (Reply V))

/-- A `compute_if_absent` with the key has returned `result`. -/
def Computed (key : K) (history : History ι K V) (invoked returned : Nat) (result : Reply V) : Prop :=
  ∃ other value, Returns history invoked returned (.computeIfAbsent other value) result ∧
    (other == key) = true

def ComputedBefore (key : K) (history : History ι K V) (position : Nat) : Prop :=
  ∃ invoked returned result, Computed key history invoked returned result ∧ returned < position

/-- A `compute_if_absent` with the key has been called that computes `value`. -/
def Offered (key : K) (history : History ι K V) (value : V) : Prop :=
  ∃ t other, Event.invoke t (.computeIfAbsent other value) ∈ history ∧ (other == key) = true

section Histories

variable {key : K} {history : History ι K V} {event : Event ι (Call K V) (Reply V)}

theorem Computed.of_append {invoked returned : Nat} {result : Reply V}
    (hcomputed : Computed key (history ++ [event]) invoked returned result) :
    Computed key history invoked returned result ∨
      ∃ t other value, event = .respond t (.computeIfAbsent other value) result ∧
        returned = history.length ∧ (other == key) = true := by
  obtain ⟨other, value, hreturns, hkey⟩ := hcomputed
  rcases hreturns.of_append with hold | ⟨t, hevent, hlast, -⟩
  · exact .inl ⟨other, value, hold, hkey⟩
  · exact .inr ⟨t, other, value, hevent, hlast, hkey⟩

theorem ComputedBefore.of_append {position : Nat} (hposition : position ≤ history.length)
    (hbefore : ComputedBefore key (history ++ [event]) position) :
    ComputedBefore key history position := by
  obtain ⟨invoked, returned, result, hcomputed, hlt⟩ := hbefore
  rcases hcomputed.of_append with hold | ⟨-, -, -, -, rfl, -⟩
  · exact ⟨invoked, returned, result, hold, hlt⟩
  · exact absurd hlt (Nat.not_lt_of_le hposition)

theorem Offered.append {value : V} (hoffered : Offered key history value) :
    Offered key (history ++ [event]) value := by
  obtain ⟨t, other, hmem, hkey⟩ := hoffered
  exact ⟨t, other, List.mem_append_left _ hmem, hkey⟩

end Histories

/-- `before` is what the map had for the key when the run began. -/
structure AgreementWorld (hashKey : K → UInt64) (key : K) (before : Option V)
    (list : SharedList (Entry K V)) (settled : Option (Entry K V)) (cells : List Slot)
    (ghost : ι → Agreeing K V) (log : ι → Option Slot) (history : History ι K V) : Prop where
  memory : Settled hashKey key list settled cells
  knows : ∀ t, Knows hashKey key list settled cells (ghost t)
  full : ∀ t slot, (ghost t).full = some slot → log t = some slot
  calls : ∀ t mapCall, Event.invoke t mapCall ∈ history → mapCall.LeavesAlone hashKey key
  held : ∀ value, before = some value → ∃ entry, settled = some entry ∧ entry.value = value
  origin : before = none → ∀ entry, settled = some entry → Offered key history entry.value
  computed : ∀ invoked returned result, Computed key history invoked returned result →
    ∃ entry, settled = some entry ∧ result = .value entry.value
  sighted : ∀ t invoked other, Latest history t invoked (.get other) → (other == key) = true →
    ComputedBefore key history invoked → (ghost t).seeing ≠ []
  got : ∀ invoked returned other result, Returns history invoked returned (.get other) result →
    (other == key) = true → ComputedBefore key history invoked →
    ∃ entry, settled = some entry ∧ result = .found (some entry.value)

namespace AgreementWorld

variable [DecidableEq ι] {hashKey : K → UInt64} {key : K} {before : Option V}
  {list : SharedList (Entry K V)} {settled : Option (Entry K V)} {cells : List Slot}
  {ghost : ι → Agreeing K V} {log : ι → Option Slot} {history : History ι K V}
  (hw : AgreementWorld hashKey key before list settled cells ghost log history)
include hw

omit [DecidableEq ι] in
theorem knows_fresh {g : Agreeing K V} (hg : g = .rest ∨ g = .sighted ∧ settled ≠ none) :
    Knows hashKey key list settled cells g := by
  rcases hg with rfl | ⟨rfl, hne⟩
  · exact hw.memory.knows_rest
  · exact hw.memory.knows_sighted hne

theorem restart {t : ι} {g : Agreeing K V} (hg : g = .rest ∨ g = .sighted ∧ settled ≠ none) :
    (∀ u, Knows hashKey key list settled cells (Function.update ghost t g u)) ∧
      ∀ u slot, (Function.update ghost t g u).full = some slot → log u = some slot := by
  constructor
  · exact (Function.forall_update_iff ghost fun _ => Knows hashKey key list settled cells).mpr
      ⟨hw.knows_fresh hg, fun u _ => hw.knows u⟩
  · intro u slot hfull
    by_cases hut : u = t
    · subst hut
      rw [Function.update_self] at hfull
      rcases hg with rfl | ⟨rfl, -⟩ <;> cases hfull
    · rw [Function.update_of_ne hut] at hfull
      exact hw.full u slot hfull

/-- A thread begins with another call to the bucket. -/
theorem fresh {t : ι} {g : Agreeing K V} (hg : g = .rest ∨ g = .sighted ∧ settled ≠ none)
    (hget : ∀ invoked other, ¬ Latest history t invoked (.get other)) :
    AgreementWorld hashKey key before list settled cells (Function.update ghost t g) log history := by
  obtain ⟨hknows, hfull⟩ := hw.restart (t := t) hg
  refine ⟨hw.memory, hknows, hfull, hw.calls, hw.held, hw.origin, hw.computed, ?_, hw.got⟩
  intro u invoked other hlatest hkey hbefore
  by_cases hut : u = t
  · subst hut
    exact absurd hlatest (hget invoked other)
  · rw [Function.update_of_ne hut]
    exact hw.sighted u invoked other hlatest hkey hbefore

theorem invoke {t : ι} {mapCall : Call K V} (halone : mapCall.LeavesAlone hashKey key) :
    ∃ g, mapCall.Begins key g ∧ AgreementWorld hashKey key before list settled cells
      (Function.update ghost t g) log (history ++ [.invoke t mapCall]) := by
  obtain ⟨g, hbegins, hg, hsighted⟩ : ∃ g : Agreeing K V, mapCall.Begins key g ∧
      (g = .rest ∨ g = .sighted ∧ settled ≠ none) ∧
      (mapCall.Gets key → settled ≠ none → g.seeing ≠ []) := by
    by_cases hgets : mapCall.Gets key ∧ settled ≠ none
    · exact ⟨.sighted, .inr ⟨rfl, hgets.1⟩, .inr ⟨rfl, hgets.2⟩, fun _ _ => List.cons_ne_nil _ _⟩
    · exact ⟨.rest, .inl rfl, .inl rfl, fun hget hne => absurd ⟨hget, hne⟩ hgets⟩
  obtain ⟨hknows, hfull⟩ := hw.restart (t := t) hg
  refine ⟨g, hbegins, hw.memory, hknows, hfull, ?_, hw.held,
    fun hnone entry hentry => (hw.origin hnone entry hentry).append, ?_, ?_, ?_⟩
  · intro u mapCall' hmem
    rcases List.mem_append.mp hmem with hold | hnew
    · exact hw.calls u mapCall' hold
    · cases List.mem_singleton.mp hnew
      exact halone
  · intro invoked returned result hcomputed
    rcases hcomputed.of_append with hold | ⟨_, _, _, hevent, -⟩
    · exact hw.computed invoked returned result hold
    · cases hevent
  · intro u invoked other hlatest hkey hbefore
    rcases hlatest.of_append with ⟨hevent, rfl⟩ | ⟨hother, hold⟩
    · cases hevent
      rw [Function.update_self]
      obtain ⟨invoked, returned, result, hcomputed, -⟩ := hbefore.of_append (Nat.le_refl _)
      obtain ⟨entry, hsettled, -⟩ := hw.computed invoked returned result hcomputed
      exact hsighted hkey (by rw [hsettled]; exact Option.some_ne_none entry)
    · have hut : u ≠ t := Ne.symm hother
      rw [Function.update_of_ne hut]
      exact hw.sighted u invoked other hold hkey (hbefore.of_append (Nat.le_of_lt hold.lt_length))
  · intro invoked returned other result hreturns hkey hbefore
    rcases hreturns.of_append with hold | ⟨_, hevent, -⟩
    · have hle : invoked ≤ history.length := by
        obtain ⟨-, -, hlt, -⟩ := id hold
        exact Nat.le_of_lt (Nat.lt_trans hlt hold.lt_length)
      exact hw.got invoked returned other result hold hkey (hbefore.of_append hle)
    · cases hevent

theorem respond {t : ι} {mapCall : Call K V} {result : Reply V}
    (hanswers : hashKey mapCall.key = hashKey key → Answers hashKey key (ghost t) mapCall result)
    (hrespects : Respects hashKey) :
    AgreementWorld hashKey key before list settled cells (Function.update ghost t .rest) log
      (history ++ [.respond t mapCall result]) := by
  obtain ⟨hknows, hfull⟩ := hw.restart (t := t) (.inl rfl)
  refine ⟨hw.memory, hknows, hfull, ?_, hw.held,
    fun hnone entry hentry => (hw.origin hnone entry hentry).append, ?_, ?_, ?_⟩
  · intro u mapCall' hmem
    rcases List.mem_append.mp hmem with hold | hnew
    · exact hw.calls u mapCall' hold
    · cases List.mem_singleton.mp hnew
  · intro invoked returned result' hcomputed
    rcases hcomputed.of_append with hold | ⟨_, _, _, hevent, -, hkey⟩
    · exact hw.computed invoked returned result' hold
    · cases hevent
      have hhash := hrespects _ _ hkey
      obtain ⟨entry, hread, hentry, hresult⟩ := hanswers hhash hhash
      exact ⟨entry, ((hw.knows t).reads entry hread).2 hentry, hresult⟩
  · intro u invoked other hlatest hkey hbefore
    rcases hlatest.of_append with ⟨hevent, -⟩ | ⟨hother, hold⟩
    · cases hevent
    · have hut : u ≠ t := Ne.symm hother
      rw [Function.update_of_ne hut]
      exact hw.sighted u invoked other hold hkey (hbefore.of_append (Nat.le_of_lt hold.lt_length))
  · intro invoked returned other result' hreturns hkey hbefore
    rcases hreturns.of_append with hold | ⟨_, hevent, -, hlatest⟩
    · have hle : invoked ≤ history.length := by
        obtain ⟨-, -, hlt, -⟩ := id hold
        exact Nat.le_of_lt (Nat.lt_trans hlt hold.lt_length)
      exact hw.got invoked returned other result' hold hkey (hbefore.of_append hle)
    · cases hevent
      have hhash := hrespects _ _ hkey
      have hseeing := hw.sighted t invoked other hlatest hkey
        (hbefore.of_append (Nat.le_of_lt hlatest.lt_length))
      have hthis := hanswers hhash
      cases result with
      | found found =>
          cases found with
          | none => exact absurd hthis hseeing
          | some value =>
              obtain ⟨entry, hread, hentry, rfl⟩ := hthis hhash
              exact ⟨entry, ((hw.knows t).reads entry hread).2 hentry, rfl⟩
      | _ => exact hthis.elim

/-- The bucket changes, and what its thread knows. -/
theorem advance {t : ι} {mapCall : Call K V} {list' : SharedList (Entry K V)}
    {settled' : Option (Entry K V)} {cells' : List Slot} {g : Agreeing K V} {seen : Option Slot}
    (hadvances : Advances hashKey key (mapCall.entry hashKey) list list' settled settled' cells
      cells' (ghost t) g)
    (hfull : ∀ slot, g.full = some slot → seen = some slot)
    (hcall : Event.invoke t mapCall ∈ history) :
    AgreementWorld hashKey key before list' settled' cells' (Function.update ghost t g)
      (Function.update log t seen) history := by
  have hkeeps := hadvances.grows.keeps
  refine ⟨hadvances.memory, ?_, ?_, hw.calls, ?_, ?_, ?_, ?_, ?_⟩
  · exact (Function.forall_update_iff ghost fun _ => Knows hashKey key list' settled' cells').mpr
      ⟨hadvances.knows, fun u _ => (hw.knows u).mono hadvances.grows⟩
  · exact forall_update₂ (p := fun _ g seen => ∀ slot, g.full = some slot → seen = some slot) ghost
      log t hfull fun u _ => hw.full u
  · intro value hvalue
    obtain ⟨entry, hsettled, hentry⟩ := hw.held value hvalue
    exact ⟨entry, hkeeps entry hsettled, hentry⟩
  · intro hnone entry hentry
    rcases hadvances.origin with hsame | ⟨-, mine, hmine, hhash, hsettled⟩
    · exact hw.origin hnone entry (hsame ▸ hentry)
    · rw [hsettled] at hentry
      cases hentry
      obtain ⟨hsame, hkind⟩ := hw.calls t mapCall hcall
      cases mapCall with
      | insert other value =>
          cases hmine
          have hother : (other == key) = false := hkind
          rw [show (other == key) = true from hsame hhash] at hother
          cases hother
      | computeIfAbsent other value =>
          cases hmine
          exact ⟨t, other, hcall, hsame hhash⟩
      | _ => cases hmine
  · intro invoked returned result hcomputed
    obtain ⟨entry, hsettled, hresult⟩ := hw.computed invoked returned result hcomputed
    exact ⟨entry, hkeeps entry hsettled, hresult⟩
  · intro u invoked other hlatest hkey hbefore
    have hseeing := hw.sighted u invoked other hlatest hkey hbefore
    by_cases hut : u = t
    · subst hut
      rw [Function.update_self]
      exact hadvances.seeing hseeing
    · rw [Function.update_of_ne hut]
      exact hseeing
  · intro invoked returned other result hreturns hkey hbefore
    obtain ⟨entry, hsettled, hresult⟩ := hw.got invoked returned other result hreturns hkey hbefore
    exact ⟨entry, hkeeps entry hsettled, hresult⟩

end AgreementWorld

section Keeps

variable [DecidableEq ι] {hcapacity : capacity ≠ 0} {hashKey : K → UInt64} {key : K}

omit [DecidableEq ι] [BEq K] in
theorem Agrees.foundAgain {clean : SharedList (Entry K V) → Slot → Option (Node (Entry K V)) → Prop}
    {list : SharedList (Entry K V)} {seen : Option Slot} {mapCall : Call K V}
    {instr : SharedList.Instr (Entry K V)}
    (hagrees : Agrees hashKey key clean list seen mapCall instr)
    (hhash : hashKey mapCall.key = hashKey key) : list.FoundAgain seen instr := by
  unfold Agrees at hagrees
  split at hagrees
  · trivial
  · exact hagrees hhash

theorem Call.entry_fits {mapCall : Call K V} (halone : mapCall.LeavesAlone hashKey key)
    (entry : Entry K V) (hentry : mapCall.entry hashKey = some entry) : Fits hashKey key entry := by
  cases mapCall with
  | insert other value | computeIfAbsent other value =>
      cases hentry
      exact ⟨rfl, halone.1⟩
  | _ => cases hentry

/-- What a thread may begin the next call to the bucket with. -/
theorem agreement_jump [EquivBEq K] {before : Option V} {list : SharedList (Entry K V)}
    {settled : Option (Entry K V)} {cells : List Slot} {ghost : ι → Agreeing K V}
    {log : ι → Option Slot} {history : History ι K V}
    (hw : AgreementWorld hashKey key before list settled cells ghost log history) {t : ι}
    {mapCall : Call K V} {cont : Cont K V} {inner : SharedList.Call (Entry K V)}
    (hcalls : Calls hashKey mapCall cont inner) (hpending : ∃ invoked, Latest history t invoked mapCall)
    (hhands : (agreement hashKey key).hands mapCall cont (ghost t)) :
    ∃ g, ((agreement hashKey key).inside mapCall cont).start inner g ∧
      AgreementWorld hashKey key before list settled cells (Function.update ghost t g) log history := by
  obtain ⟨hfirst, hfound⟩ := hhands
  by_cases hcont : cont.First
  · refine ⟨ghost t, agreement_start hcalls hcont (hfirst hcont), ?_⟩
    rw [Function.update_eq_self]
    exact hw
  · have hget : (∀ other, mapCall ≠ .get other) →
        ∀ invoked other, ¬ Latest history t invoked (.get other) := by
      intro hother invoked other hlatest
      obtain ⟨invoked', hlatest'⟩ := hpending
      exact hother other (hlatest'.unique hlatest).2
    cases hcalls with
    | insertPush other value result =>
        exact ⟨.rest, ⟨List.mem_cons_self, rfl⟩, hw.fresh (.inl rfl) (hget (by simp))⟩
    | computePush other value =>
        exact ⟨.rest, ⟨List.mem_cons_self, rfl⟩, hw.fresh (.inl rfl) (hget (by simp))⟩
    | computeFound other value =>
        by_cases hhash : hashKey other = hashKey key
        · obtain ⟨entry, hread, hentry⟩ := hfound rfl hhash
          have hsettled := ((hw.knows t).reads entry hread).2 hentry
          refine ⟨.sighted, ⟨List.mem_cons_self, .inr ⟨List.mem_cons_self, ?_⟩⟩,
            hw.fresh (.inr ⟨rfl, by simp [hsettled]⟩) (hget (by simp))⟩
          intro seen entry _ hentry
          exact beq_iff_eq.mpr (hentry.trans hhash.symm)
        · refine ⟨.rest, ⟨List.mem_cons_self, .inl ⟨?_, rfl⟩⟩, hw.fresh (.inl rfl) (hget (by simp))⟩
          exact fun hmust => hhash hmust.1
    | _ => exact absurd trivial hcont

theorem agreement_keeps [EquivBEq K] (hrespects : Respects hashKey) (before : Option V) :
    ((agreement hashKey key).protocol hcapacity hashKey (indexOf hcapacity (hashKey key))).KeepsLog
      (seenIn (indexOf hcapacity (hashKey key)))
      (fun (at_ : Config (object capacity V hashKey) ι × (ι → Option Slot)) action =>
        at_.1.Pending ∧ KeepsAgreement hcapacity hashKey key (KeepsHash (hashKey key)) at_ action)
      fun state ghost log history => ∃ settled cells, AgreementWorld hashKey key before
        (state (indexOf hcapacity (hashKey key))) settled cells ghost log history where
  invoke := by
    rintro config ghost log t mapCall ⟨settled, cells, hw⟩ ⟨-, halone⟩ -
    obtain ⟨g, hbegins, hw⟩ := hw.invoke (t := t) halone
    exact ⟨g, hbegins, settled, cells, hw⟩
  respond := by
    rintro config ghost log t mapCall result ⟨settled, cells, hw⟩ - - hfinish
    refine ⟨settled, cells, hw.respond (fun hhash => hfinish ?_) hrespects⟩
    rw [hhash]
  jump := by
    rintro config ghost log t mapCall label ⟨settled, cells, hw⟩ hthread ⟨hpending, -⟩ harrive
    cases label with
    | call bucket inner cont =>
        obtain ⟨hbucket, hcalls, hhands⟩ := harrive
        by_cases hwatched : bucket = indexOf hcapacity (hashKey key)
        · obtain ⟨g, hstart, hw⟩ := agreement_jump hw hcalls (hpending t mapCall _ hthread)
            (hhands hwatched)
          exact ⟨g, ⟨hbucket, hcalls, fun _ => hstart⟩, settled, cells, hw⟩
        · refine ⟨ghost t, ⟨hbucket, hcalls, fun heq => absurd heq hwatched⟩, settled, cells, ?_⟩
          rw [Function.update_eq_self]
          exact hw
    | within bucket label cont =>
        refine ⟨ghost t, harrive, settled, cells, ?_⟩
        rw [Function.update_eq_self]
        exact hw
  answered := by
    rintro config ghost log t mapCall ⟨bucket, instr⟩ next state answer ⟨settled, cells, hw⟩ hat
      ⟨hpending, hagrees⟩ hmay hexec
    obtain ⟨hinstr, hothers⟩ := Composite.exec_part hexec
    by_cases hwatched : bucket = indexOf hcapacity (hashKey key)
    · subst hwatched
      obtain ⟨cont, inner, -, hmay⟩ := hmay rfl
      obtain ⟨invoked, hlatest⟩ := hpending t mapCall _ hat
      rw [KeepsAgreement, OnAgreement, show config.thread t = _ from hat] at hagrees
      have hagrees := hagrees rfl
      obtain ⟨g, settled', cells', hmove, hadvances, hfull⟩ := hw.memory.step (hw.knows t)
        (hw.full t) (Call.entry_fits (hw.calls t mapCall hlatest.mem)) hmay
        (by rintro slot content rfl; exact hagrees) hagrees.foundAgain hinstr
      refine ⟨g, ⟨fun _ _ _ _ => hmove, fun hne => absurd rfl hne⟩, settled', cells',
        hw.advance hadvances ?_ hlatest.mem⟩
      rw [seenIn, if_pos rfl]
      exact hfull
    · refine ⟨ghost t, ⟨fun heq => absurd heq hwatched, fun _ => rfl⟩, settled, cells, ?_⟩
      rw [seenIn, if_neg hwatched, Function.update_eq_self, Function.update_eq_self,
        hothers _ (Ne.symm hwatched)]
      exact hw
  retried := by
    rintro config ghost log t mapCall ⟨bucket, instr⟩ next state ⟨settled, cells, hw⟩ hat
      ⟨hpending, -⟩ - hexec
    obtain ⟨hinstr, hothers⟩ := Composite.exec_part hexec
    refine ⟨settled, cells, ?_⟩
    by_cases hwatched : bucket = indexOf hcapacity (hashKey key)
    · subst hwatched
      obtain ⟨invoked, hlatest⟩ := hpending t mapCall _ hat
      obtain ⟨hinner, hfresh, hnoneq⟩ := retried_contents hinstr
      have hnext := hw.advance (hw.memory.stays (hw.knows t) hinner hfresh hnoneq) (hw.full t)
        hlatest.mem
      rw [Function.update_eq_self] at hnext
      rw [seenIn, if_pos rfl, (retried_sees hinstr (log t)).1]
      exact hnext
    · rw [seenIn, if_neg hwatched, Function.update_eq_self, hothers _ (Ne.symm hwatched)]
      exact hw

omit [DecidableEq ι] in
/-- The entry a map at rest has for the key is settled. -/
theorem agreement_start_world (hrespects : Respects hashKey)
    {state : Index capacity → SharedList (Entry K V)} {contents : Contents capacity K V}
    (hshows : Shows state contents) (htidy : Tidy hashKey contents)
    (hseparates : Separates hcapacity hashKey contents key) :
    ∃ settled cells, AgreementWorld hashKey key (lookup hcapacity hashKey contents key)
      (state (indexOf hcapacity (hashKey key))) settled cells (fun _ : ι => .rest) (fun _ => none)
      [] := by
  obtain ⟨⟨slots, hlayout⟩, hnoneq⟩ := hshows (indexOf hcapacity (hashKey key))
  have hbucket := htidy (indexOf hcapacity (hashKey key))
  have hlookup := hseparates.find_hash hrespects htidy
  let held := (contents (indexOf hcapacity (hashKey key))).find? fun entry =>
    entry.hash == hashKey key
  have hlinks : ∀ {slot node}, slot ∈ headSlot :: slots →
      (state (indexOf hcapacity (hashKey key))).heap.inner slot = some node →
      node.next ∈ headSlot :: slots ∧ node.data ∈ contents (indexOf hcapacity (hashKey key)) :=
    fun hslot hnode => hlayout.chain.mem_of_link hslot (Heap.links_eq_some hnode)
  have hmemory : Settled hashKey key (state (indexOf hcapacity (hashKey key))) held
      (headSlot :: slots) := by
    refine ⟨hnoneq, List.mem_cons_self, hlayout.allocated, fun slot hslot node hnode => ?_, ?_⟩
    · obtain ⟨hnext, hdata⟩ := hlinks hslot hnode
      have hhash := hbucket.hash node.data hdata
      refine ⟨hnext, ⟨hhash, fun heq => hseparates _ hdata (hhash ▸ heq)⟩, fun heq => ?_⟩
      exact hbucket.ascending.find_hash hdata heq
    · intro hne
      obtain ⟨entry, hentry⟩ := Option.ne_none_iff_exists'.mp hne
      have hhash := List.find?_some hentry
      exact .of_mem_chain hlayout.chain (List.mem_of_find?_eq_some hentry) (beq_iff_eq.mp hhash)
  refine ⟨held, headSlot :: slots, hmemory, fun _ => hmemory.knows_rest, ?_, ?_, ?_, ?_, ?_, ?_, ?_⟩
  · rintro t slot ⟨⟩
  · rintro t mapCall ⟨⟩
  · intro value hvalue
    rw [← hlookup] at hvalue
    exact Option.map_eq_some_iff.mp hvalue
  · intro hnone entry hentry
    rw [← hlookup, Option.map_eq_none_iff] at hnone
    cases hnone.symm.trans hentry
  · rintro invoked returned result ⟨other, value, hreturns, -⟩
    exact absurd hreturns.lt_length (Nat.not_lt_zero _)
  · intro t invoked other hlatest
    exact absurd hlatest.lt_length (Nat.not_lt_zero _)
  · intro invoked returned other result hreturns
    exact absurd hreturns.lt_length (Nat.not_lt_zero _)

end Keeps

/-- What the threads that call `compute_if_absent` with `key` are told: one value, which the map had
before or which one of them offers, and no other by a `get` that comes after. -/
structure AgreeOn (key : K) (before : Option V) (history : History ι K V) (agreed : Option V) :
    Prop where
  computed : ∀ invoked returned result, Computed key history invoked returned result →
    ∃ value, agreed = some value ∧ result = .value value
  origin : ∀ value, agreed = some value →
    before = some value ∨ before = none ∧ Offered key history value
  got : ∀ invoked returned other result, Returns history invoked returned (.get other) result →
    (other == key) = true → ComputedBefore key history invoked →
    ∃ value, agreed = some value ∧ result = .found (some value)

theorem AgreementWorld.agreeOn {hashKey : K → UInt64} {key : K} {before : Option V}
    {list : SharedList (Entry K V)} {settled : Option (Entry K V)} {cells : List Slot}
    {ghost : ι → Agreeing K V} {log : ι → Option Slot} {history : History ι K V}
    (hw : AgreementWorld hashKey key before list settled cells ghost log history) :
    AgreeOn key before history (settled.map Entry.value) where
  computed invoked returned result hcomputed := by
    obtain ⟨entry, rfl, hresult⟩ := hw.computed invoked returned result hcomputed
    exact ⟨entry.value, rfl, hresult⟩
  origin value hvalue := by
    obtain ⟨entry, hentry, rfl⟩ := Option.map_eq_some_iff.mp hvalue
    cases hbefore : before with
    | none => exact .inr ⟨rfl, hw.origin hbefore entry hentry⟩
    | some held =>
        obtain ⟨entry', hentry', rfl⟩ := hw.held held hbefore
        rw [hentry] at hentry'
        cases hentry'
        exact .inl rfl
  got invoked returned other result hreturns hkey hbefore := by
    obtain ⟨entry, rfl, hresult⟩ := hw.got invoked returned other result hreturns hkey hbefore
    exact ⟨entry.value, rfl, hresult⟩

/-- **Agreement.** In a run in which every store in the bucket keeps the entry with the hash of the
key, and in which the calls with the key find again what they have found, none of these calls panics
and all callers of `compute_if_absent` agree. -/
theorem compute_if_absent_agrees [EquivBEq K] [DecidableEq ι] {hashKey : K → UInt64}
    (hcapacity : capacity ≠ 0) (hrespects : Respects hashKey)
    {state : Index capacity → SharedList (Entry K V)} {contents : Contents capacity K V}
    (hshows : Shows state contents) (htidy : Tidy hashKey contents) {key : K}
    (hseparates : Separates hcapacity hashKey contents key)
    {config : Config (object capacity V hashKey) ι} {seen : ι → Option Slot}
    (hreach : (((object capacity V hashKey).threads ι).monitored
      (logging (seenIn (indexOf hcapacity (hashKey key))))).Reach
        (KeepsAgreement hcapacity hashKey key (KeepsHash (hashKey key)))
        (.initial state, fun _ => none) (config, seen)) :
    (∀ t mapCall message, config.thread t = .busy mapCall (.panic message) →
      (mapCall.key == key) = false) ∧
    ∃ agreed, AgreeOn key (lookup hcapacity hashKey contents key) config.history agreed := by
  have hpending := hreach.with_invariant (I := fun at_ => at_.1.Pending)
    (Config.pending_initial state) fun at_ action next hpending _ hstep =>
      hpending.step (System.monitored_step.mp hstep).1
  obtain ⟨ghost, hfollows, settled, cells, hw⟩ := Protocol.log_invariant
    (Watch.protocol_sound (agreement_sound hrespects)) (agreement_keeps hrespects _)
    (agreement_start_world hrespects hshows htidy hseparates) hpending
  refine ⟨fun t mapCall message hthread => ?_, _, hw.agreeOn⟩
  rw [← Bool.not_eq_true]
  intro hkey
  have hfail := hfollows t
  rw [hthread] at hfail
  have hhash := hrespects _ _ hkey
  obtain ⟨cont, inner, -, hstrict⟩ := hfail (by rw [hhash])
  exact hstrict hhash

end Runs

/-! ### Examples -/

/-- The first node is put into an empty bucket. -/
def FirstNode (list : SharedList (Entry K V)) (slot : Slot) (content : Option (Node (Entry K V))) :
    Prop :=
  slot = headSlot ∧ list.heap.inner headSlot = none ∧
    ∃ node ∈ content, node.next ≠ headSlot ∧ list.heap.inner node.next = none

theorem FirstNode.keepsHash {hash : UInt64} {list : SharedList (Entry K V)} {slot : Slot}
    {content : Option (Node (Entry K V))} (hfirst : FirstNode list slot content) :
    KeepsHash hash list slot content := by
  obtain ⟨rfl, hempty, node, hnode, hne, hnext⟩ := hfirst
  refine .inl ⟨node, hnode, hne, hnext.trans hempty.symm, fun _ => ?_⟩
  exact ⟨[], [], Heap.links_eq_none hempty, List.mem_cons_self, by simp⟩

instance [DecidableEq K] [DecidableEq V] (list : SharedList (Entry K V)) (slot : Slot)
    (content : Option (Node (Entry K V))) : Decidable (FirstNode list slot content) :=
  match content with
  | none => .isFalse (by simp [FirstNode])
  | some node => decidable_of_iff (slot = headSlot ∧ list.heap.inner headSlot = none ∧
      node.next ≠ headSlot ∧ list.heap.inner node.next = none) (by simp [FirstNode])

theorem compute_if_absent_agrees_first :
    ∃ config : Config (object 16 ℕ unitHash) Bool,
      config.history = [.invoke true (.computeIfAbsent () 10), .invoke false (.computeIfAbsent () 20),
        .respond true (.computeIfAbsent () 10) (.value 10),
        .respond false (.computeIfAbsent () 20) (.value 10), .invoke true (.get ()),
        .respond true (.get ()) (.found (some 10))] ∧
      (∀ t mapCall message, config.thread t = .busy mapCall (.panic message) →
        (mapCall.key == ()) = false) ∧
      ∃ agreed, AgreeOn () none config.history agreed := by
  have hcapacity : (16 : UInt64) ≠ 0 := by decide
  obtain ⟨config, seen, hrun, hhistory⟩ : ∃ config seen,
      (((object 16 ℕ unitHash).threads Bool).monitored
        (logging (seenIn (indexOf hcapacity (unitHash ()))))).runIf
        (KeepsAgreement hcapacity unitHash () FirstNode) (.initial (withCapacity 16), fun _ => none)
        (.invoke true (.computeIfAbsent () 10) :: .invoke false (.computeIfAbsent () 20) ::
          List.replicate 5 (.tick false) ++ List.replicate 24 (.tick true) ++
          List.replicate 22 (.tick false) ++ .invoke true (.get ()) ::
          List.replicate 9 (.tick true)) = some (config, seen) ∧
      config.history = [.invoke true (.computeIfAbsent () 10), .invoke false (.computeIfAbsent () 20),
        .respond true (.computeIfAbsent () 10) (.value 10),
        .respond false (.computeIfAbsent () 20) (.value 10), .invoke true (.get ()),
        .respond true (.get ()) (.found (some 10))] := ⟨_, _, rfl, rfl⟩
  have hreach : (((object 16 ℕ unitHash).threads Bool).monitored
      (logging (seenIn (indexOf hcapacity (unitHash ()))))).Reach
      (KeepsAgreement hcapacity unitHash () (KeepsHash (unitHash ())))
      (.initial (withCapacity 16), fun _ => none) (config, seen) :=
    (System.reach_of_runIf _ hrun).mono fun before action hkeeps =>
      KeepsAgreement.mono (fun _ _ _ => FirstNode.keepsHash) hkeeps
  exact ⟨config, hhistory, compute_if_absent_agrees hcapacity unitHash_respects
    withCapacity_shows .empty (by simp [Separates]) hreach⟩

/-- Both threads find the bucket empty, and `push` looks for no equal entry then. -/
def computeBoth : List (Action (object 16 ℕ unitHash) Bool) :=
  .invoke true (.computeIfAbsent () 10) :: List.replicate 8 (.tick true) ++
    .invoke false (.computeIfAbsent () 20) :: List.replicate 8 (.tick false) ++
    List.replicate 16 (.tick true) ++ List.replicate 17 (.tick false)

theorem compute_if_absent_agrees_fails :
    ∃ config : Config (object 16 ℕ unitHash) Bool,
      ((object 16 ℕ unitHash).threads Bool).Reach (OnlyCalls (Call.LeavesAlone unitHash ()))
        (.initial (withCapacity 16)) config ∧
      ¬ ∃ agreed, AgreeOn () none config.history agreed := by
  obtain ⟨config, hrun, hhistory⟩ : ∃ config,
      ((object 16 ℕ unitHash).threads Bool).runIf (OnlyCalls (Call.LeavesAlone unitHash ()))
        (.initial (withCapacity 16)) computeBoth = some config ∧
      config.history = [.invoke true (.computeIfAbsent () 10), .invoke false (.computeIfAbsent () 20),
        .respond true (.computeIfAbsent () 10) (.value 10),
        .respond false (.computeIfAbsent () 20) (.value 20)] := ⟨_, rfl, rfl⟩
  refine ⟨config, System.reach_of_runIf _ hrun, ?_⟩
  rintro ⟨agreed, hagree⟩
  rw [hhistory] at hagree
  let begun : History Bool Unit ℕ := [.invoke true (.computeIfAbsent () 10)]
  have htrue : Latest ([] ++ begun) true 0 (.computeIfAbsent () 10) := latest_invoke
  have hfalse : Latest (begun ++ [.invoke false (.computeIfAbsent () 20)]) false 1
      (.computeIfAbsent () 20) := latest_invoke
  obtain ⟨value, rfl, hvalue⟩ := hagree.computed 0 2 (.value 10)
    ⟨(), 10, ⟨true, rfl, by decide, htrue.append (by decide)⟩, rfl⟩
  obtain ⟨value', hsame, hvalue'⟩ := hagree.computed 1 3 (.value 20)
    ⟨(), 20, ⟨false, rfl, by decide, hfalse.append (by decide)⟩, rfl⟩
  cases hvalue
  cases hvalue'
  cases hsame

end Mutual.SharedMap
