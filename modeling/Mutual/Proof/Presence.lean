import Mutual.Concurrency.Linearizability
import Mutual.Proof.Lookups
import Mutual.Proof.Placing

/-!
# A key that is overwritten

`insert` takes the old entry out with one call to the bucket and pushes the new one with another, so
that a lookup in between finds nothing. That is the only time it does: a lookup that finds nothing has
been at the place of the key while some `insert` owed an entry, and what it finds is the old entry or
one an `insert` has brought.
-/

namespace Mutual.SharedMap

open Concurrency Data SharedList

variable {K V : Type}

/-! ### The methods -/

section Methods

variable [BEq K]

/-- The call is about the key and does not remove it. -/
def Call.Overwrites (key : K) : Call K V → Prop
  | .insert other _ | .get other | .contains other => (other == key) = true
  | .remove _ | .computeIfAbsent _ _ => False

instance (key : K) : DecidablePred (Call.Overwrites (V := V) key)
  | .insert other _ | .get other | .contains other =>
      inferInstanceAs (Decidable ((other == key) = true))
  | .remove _ | .computeIfAbsent _ _ => inferInstanceAs (Decidable False)

theorem Call.Overwrites.key_eq {key : K} {mapCall : Call K V} (hcall : mapCall.Overwrites key) :
    (mapCall.key == key) = true := by
  cases mapCall with
  | insert | get | contains => exact hcall
  | remove | computeIfAbsent => exact hcall.elim

/-- What the reply to a lookup is taken from. -/
def Overwriting.Tells (g : Overwriting K V) : Call K V → Reply V → Prop
  | .get _, result => ∃ found, result = .found found ∧ (found = none → g.missed) ∧
      ∀ value, found = some value → ∃ entry ∈ g.reads, entry.value = value
  | .contains _, result => ∃ answer, result = .bool answer ∧ (answer = false → g.missed)
  | _, _ => True

section Watch

variable (hashKey : K → UInt64) (key : K)

def overwrites : Watch K V (Overwriting K V) where
  rest := .start False
  inside mapCall _ := overwriting (hashKey key) (Fits hashKey key) (mapCall.entry hashKey)
  begins mapCall g := mapCall.Overwrites key ∧ g = .start False
  hands mapCall cont g := cont.First → mapCall.Overwrites key ∧ g = .start False
  answers mapCall result g := ¬ g.owes ∧ g.Tells mapCall result

end Watch

variable {capacity : UInt64} {hcapacity : capacity ≠ 0} {hashKey : K → UInt64} {key : K}

theorem decides_hash {other : K} (hhash : hashKey other = hashKey key) :
    Overwriting.Decides (V := V) (hashKey key) (Fits hashKey key)
      fun _ entry => entry.hash == hashKey other := by
  intro seen entry _
  rw [hhash]
  exact beq_iff_eq

theorem decides_key [EquivBEq K] (hrespects : Respects hashKey) {other : K}
    (hother : (other == key) = true) :
    Overwriting.Decides (V := V) (hashKey key) (Fits hashKey key)
      fun _ entry => entry.key == other := by
  intro seen entry hfits
  constructor
  · intro hkey
    calc entry.hash = hashKey entry.key := hfits.1
      _ = hashKey other := hrespects _ _ hkey
      _ = hashKey key := hrespects _ _ hother
  · exact fun hhash => BEq.trans (hfits.2 hhash) (BEq.symm hother)

theorem overwrites_start [EquivBEq K] (hrespects : Respects hashKey) {mapCall : Call K V}
    {cont : Cont K V} {inner : SharedList.Call (Entry K V)} {owes : Prop}
    (hcalls : Calls hashKey mapCall cont inner) (hcall : mapCall.Overwrites key)
    (howes : cont.First → ¬ owes) :
    ((overwrites hashKey key).inside mapCall cont).start inner (.start owes) := by
  have hhash := hrespects _ _ hcall.key_eq
  have hhead : headSlot ∈ (Overwriting.start (K := K) (V := V) owes).path := rfl
  cases hcalls with
  | insertRemove other value => exact ⟨hhead, Option.some_ne_none _, decides_hash hhash⟩
  | insertPush other value result => exact ⟨hhead, rfl, hhash⟩
  | get other => exact ⟨⟨howes trivial, .inl hhead⟩, decides_key hrespects hcall⟩
  | contains other => exact ⟨⟨howes trivial, .inl hhead⟩, decides_hash hhash⟩
  | _ => exact hcall.elim

theorem overwrites_sound : (overwrites (V := V) hashKey key).Sound hcapacity hashKey
    (indexOf hcapacity (hashKey key)) where
  inside mapCall cont := overwriting_sound ..
  begins mapCall cont inner g hcalls hfirst hbegins := fun _ => hbegins
  resume := by
    intro mapCall cont inner result g hcalls hwatched hfinish
    cases hcalls with
    | insertRemove other value =>
        cases result with
        | removed output => exact ⟨hwatched.symm, .insertPush other value _, fun _ => False.elim⟩
        | _ => exact hfinish.elim
    | insertPush other value answer =>
        cases result with
        | unit => exact fun _ => ⟨hfinish, trivial⟩
        | _ => exact hfinish.elim
    | get other =>
        cases result with
        | found found =>
            cases found with
            | none => exact fun _ => ⟨hfinish.1, none, rfl, fun _ => hfinish.2, by simp⟩
            | some found =>
                obtain ⟨howes, hread⟩ := hfinish
                refine fun _ => ⟨howes, _, rfl, by simp, fun value hvalue => ?_⟩
                exact ⟨found.2, hread, Option.some.inj hvalue⟩
        | _ => exact hfinish.elim
    | contains other =>
        cases result with
        | bool answer => exact fun _ => ⟨hfinish.1, answer, rfl, hfinish.2⟩
        | _ => exact hfinish.elim
    | remove other =>
        cases result with
        | removed output => exact absurd rfl hfinish
        | _ => exact hfinish.elim
    | computeFind other value =>
        cases result with
        | found found =>
            cases found with
            | none =>
                refine ⟨fun _ => ⟨_, _, .computeFind other value, trivial⟩, fun answer g' hmove => ?_⟩
                exact ⟨hwatched.symm, .computePush other value, fun _ => False.elim⟩
            | some found => exact fun _ => ⟨hfinish.1, trivial⟩
        | _ => exact hfinish.elim
    | computePush other value =>
        cases result with
        | unit => exact ⟨hwatched.symm, .computeFound other value, fun _ => False.elim⟩
        | _ => exact hfinish.elim
    | computeFound other value =>
        cases result with
        | found found =>
            cases found with
            | none => exact fun _ => ⟨_, _, .computeFound other value, trivial⟩
            | some found => exact fun _ => ⟨hfinish.1, trivial⟩
        | _ => exact hfinish.elim

end Methods

/-! ### Histories -/

section Histories

variable {ι : Type} [BEq K]

/-- An `insert` with the key has been called that brings `value`. -/
def Stored (key : K) (history : List (Event ι (Call K V) (Reply V))) (value : V) : Prop :=
  ∃ t other, Event.invoke t (.insert other value) ∈ history ∧ (other == key) = true

/-- A thread is in an `insert` with the key. -/
def Inserting (key : K) (history : List (Event ι (Call K V) (Reply V))) : Prop :=
  ∃ t invoked other value, Latest history t invoked (.insert other value) ∧ (other == key) = true

/-- At some moment after `invoked` and not after `returned` a thread is in an `insert` with the key. -/
def InsertDuring (key : K) (history : List (Event ι (Call K V) (Reply V)))
    (invoked returned : Nat) : Prop :=
  ∃ moment, invoked < moment ∧ moment ≤ returned ∧ Inserting key (history.take moment)

/-- What lookups of a key are told that had the value `old` and that is overwritten. -/
structure Shown (key : K) (old : V) (history : List (Event ι (Call K V) (Reply V))) : Prop where
  got : ∀ invoked returned other result, Returns history invoked returned (.get other) result →
    (other == key) = true → ∃ found, result = .found found ∧
      (found = none → InsertDuring key history invoked returned) ∧
      ∀ value, found = some value → value = old ∨ Stored key (history.take returned) value
  told : ∀ invoked returned other result, Returns history invoked returned (.contains other) result →
    (other == key) = true → ∃ answer, result = .bool answer ∧
      (answer = false → InsertDuring key history invoked returned)

variable {key : K} {old : V} {history : List (Event ι (Call K V) (Reply V))}
  {event : Event ι (Call K V) (Reply V)} {invoked returned : Nat}

theorem Stored.append {value : V} (hstored : Stored key history value) :
    Stored key (history ++ [event]) value := by
  obtain ⟨t, other, hmem, hkey⟩ := hstored
  exact ⟨t, other, List.mem_append_left _ hmem, hkey⟩

theorem InsertDuring.append (hduring : InsertDuring key history invoked returned)
    (hreturned : returned ≤ history.length) :
    InsertDuring key (history ++ [event]) invoked returned := by
  obtain ⟨moment, hafter, hbefore, hinserting⟩ := hduring
  refine ⟨moment, hafter, hbefore, ?_⟩
  rw [List.take_append_of_le_length (Nat.le_trans hbefore hreturned)]
  exact hinserting

theorem InsertDuring.later {returned' : Nat} (hduring : InsertDuring key history invoked returned)
    (hle : returned ≤ returned') : InsertDuring key history invoked returned' := by
  obtain ⟨moment, hafter, hbefore, hinserting⟩ := hduring
  exact ⟨moment, hafter, Nat.le_trans hbefore hle, hinserting⟩

/-- A thread is in an `insert` now. -/
theorem InsertDuring.now (hinvoked : invoked < history.length) (hinserting : Inserting key history) :
    InsertDuring key history invoked history.length := by
  refine ⟨history.length, hinvoked, Nat.le_refl _, ?_⟩
  rw [List.take_length]
  exact hinserting

/-- The last event is not the return of a lookup, or its reply is as it has to be. -/
theorem Shown.append (hshown : Shown key old history)
    (hgot : ∀ t invoked other result, event = .respond t (.get other) result →
      Latest history t invoked (.get other) → ∃ found, result = .found found ∧
        (found = none → InsertDuring key history invoked history.length) ∧
        ∀ value, found = some value → value = old ∨ Stored key history value)
    (htold : ∀ t invoked other result, event = .respond t (.contains other) result →
      Latest history t invoked (.contains other) → ∃ answer, result = .bool answer ∧
        (answer = false → InsertDuring key history invoked history.length)) :
    Shown key old (history ++ [event]) where
  got := by
    intro invoked returned other result hreturns hkey
    rcases hreturns.of_append with hold | ⟨t, hevent, rfl, hlatest⟩
    · have hlt := Nat.le_of_lt hold.lt_length
      obtain ⟨found, hresult, hnone, hsome⟩ := hshown.got invoked returned other result hold hkey
      rw [List.take_append_of_le_length hlt]
      exact ⟨found, hresult, fun h => (hnone h).append hlt, hsome⟩
    · obtain ⟨found, hresult, hnone, hsome⟩ := hgot t invoked other result hevent hlatest
      rw [List.take_left]
      exact ⟨found, hresult, fun h => (hnone h).append (Nat.le_refl _), hsome⟩
  told := by
    intro invoked returned other result hreturns hkey
    rcases hreturns.of_append with hold | ⟨t, hevent, rfl, hlatest⟩
    · have hlt := Nat.le_of_lt hold.lt_length
      obtain ⟨answer, hresult, hfalse⟩ := hshown.told invoked returned other result hold hkey
      exact ⟨answer, hresult, fun h => (hfalse h).append hlt⟩
    · obtain ⟨answer, hresult, hfalse⟩ := htold t invoked other result hevent hlatest
      exact ⟨answer, hresult, fun h => (hfalse h).append (Nat.le_refl _)⟩

end Histories

/-! ### Runs -/

instance decidableOverwrites {ι : Type} [BEq K] {capacity : UInt64} {hashKey : K → UInt64} {key : K} :
    ∀ (config : Config (object capacity V hashKey) ι) action,
      Decidable (OnlyCalls (Call.Overwrites key) config action) := fun _ _ => inferInstance

section World

variable {ι : Type} [BEq K]

/-- The entries for the key there may be. -/
def allowed (key : K) (old : V) (history : List (Event ι (Call K V) (Reply V))) : Set (Entry K V) :=
  { entry | entry.value = old ∨ Stored key history entry.value }

structure PresenceWorld (hashKey : K → UInt64) (key : K) (old : V) (list : SharedList (Entry K V))
    (r : Regions) (ghost : ι → Overwriting K V) (history : List (Event ι (Call K V) (Reply V))) :
    Prop where
  memory : Placed hashKey key (allowed key old history) r list
  knows : ∀ t, (ghost t).Knows hashKey key (allowed key old history) r
  /-- Where there is no entry in the place, a thread owes one. -/
  covered : HasHash (hashKey key) (list.heap.inner r.place) ∨ ∃ t, (ghost t).owes
  owing : ∀ t, (ghost t).owes → ∃ invoked other value,
    Latest history t invoked (.insert other value) ∧ (other == key) = true
  missing : ∀ t, (ghost t).missed → ∃ invoked mapCall, Latest history t invoked mapCall ∧
    InsertDuring key history invoked history.length
  calls : ∀ t mapCall, Event.invoke t mapCall ∈ history → mapCall.Overwrites key
  shown : Shown key old history

section Lemmas

variable {hashKey : K → UInt64} {key : K} {old : V} {list list' : SharedList (Entry K V)}
  {r r' : Regions} {history : List (Event ι (Call K V) (Reply V))}

theorem allowed_append (event : Event ι (Call K V) (Reply V)) :
    allowed key old history ⊆ allowed key old (history ++ [event]) :=
  fun _ hentry => hentry.imp_right Stored.append

theorem Placed.knows_start {entries : Set (Entry K V)} (hplaced : Placed hashKey key entries r list)
    (owes : Prop) : (Overwriting.start owes).Knows hashKey key entries r where
  path := by
    rintro slot rfl
    exact hplaced.head
  here := by rintro slot ⟨⟩
  far := by rintro slot ⟨⟩
  deep := by rintro slot ⟨⟩
  reads := by rintro entry ⟨⟩

/-- The entry a call brings may stand in the place. -/
theorem Call.Overwrites.entry_allowed {mapCall : Call K V} (hcall : mapCall.Overwrites key) {t : ι}
    (hmem : Event.invoke t mapCall ∈ history)
    (entry : Entry K V) (hentry : mapCall.entry hashKey = some entry) :
    Fits hashKey key entry ∧ entry ∈ allowed key old history := by
  cases mapCall with
  | insert other value =>
      cases hentry
      exact ⟨⟨rfl, fun _ => hcall⟩, .inr ⟨t, other, hmem, hcall⟩⟩
  | get | contains => cases hentry
  | remove | computeIfAbsent => exact hcall.elim

namespace PresenceWorld

variable [DecidableEq ι] {ghost : ι → Overwriting K V} {t : ι}
  (hw : PresenceWorld hashKey key old list r ghost history)
include hw

omit [DecidableEq ι] in
theorem inserting {u : ι} (howes : (ghost u).owes) : Inserting key history := by
  obtain ⟨invoked, other, value, hlatest, hkey⟩ := hw.owing u howes
  exact ⟨u, invoked, other, value, hlatest, hkey⟩

/-- A call begins or ends. -/
theorem append {event : Event ι (Call K V) (Reply V)} (hthread : event.thread = t)
    (howes : ¬ (ghost t).owes)
    (hcalls : ∀ u mapCall, event = .invoke u mapCall → mapCall.Overwrites key)
    (hshown : Shown key old (history ++ [event])) :
    PresenceWorld hashKey key old list r (Function.update ghost t (.start False))
      (history ++ [event]) := by
  have hallowed : allowed key old history ⊆ allowed key old (history ++ [event]) :=
    allowed_append event
  have hmemory := hw.memory.mono hallowed
  refine ⟨hmemory, ?_, ?_, ?_, ?_, ?_, hshown⟩
  · refine (Function.forall_update_iff ghost fun _ =>
      Overwriting.Knows hashKey key (allowed key old (history ++ [event])) r).mpr ?_
    exact ⟨hmemory.knows_start False, fun u _ => (hw.knows u).mono hallowed (.refl r)⟩
  · refine hw.covered.imp_right ?_
    rintro ⟨u, hu⟩
    have hut : u ≠ t := by
      rintro rfl
      exact howes hu
    exact ⟨u, by rwa [Function.update_of_ne hut]⟩
  · intro u hu
    by_cases hut : u = t
    · subst hut
      rw [Function.update_self] at hu
      exact hu.elim
    · rw [Function.update_of_ne hut] at hu
      obtain ⟨invoked, other, value, hlatest, hkey⟩ := hw.owing u hu
      exact ⟨invoked, other, value, hlatest.append (hthread ▸ Ne.symm hut), hkey⟩
  · intro u hu
    by_cases hut : u = t
    · subst hut
      rw [Function.update_self] at hu
      exact hu.elim
    · rw [Function.update_of_ne hut] at hu
      obtain ⟨invoked, mapCall, hlatest, hduring⟩ := hw.missing u hu
      refine ⟨invoked, mapCall, hlatest.append (hthread ▸ Ne.symm hut), ?_⟩
      exact (hduring.append (Nat.le_refl _)).later (by simp)
  · intro u mapCall hmem
    rcases List.mem_append.mp hmem with hold | hnew
    · exact hw.calls u mapCall hold
    · exact hcalls u mapCall (List.mem_singleton.mp hnew).symm

theorem invoke {mapCall : Call K V} (hrest : ghost t = .start False)
    (hcall : mapCall.Overwrites key) :
    PresenceWorld hashKey key old list r (Function.update ghost t (.start False))
      (history ++ [.invoke t mapCall]) := by
  refine hw.append rfl ?_ ?_ (hw.shown.append ?_ ?_)
  · rw [hrest]
    exact id
  · rintro u mapCall' ⟨⟩
    exact hcall
  · rintro u invoked other result ⟨⟩
  · rintro u invoked other result ⟨⟩

theorem respond {mapCall : Call K V} {result : Reply V} (howes : ¬ (ghost t).owes)
    (htells : (ghost t).Tells mapCall result) :
    PresenceWorld hashKey key old list r (Function.update ghost t (.start False))
      (history ++ [.respond t mapCall result]) := by
  have hmissed : ∀ {invoked : Nat}, Latest history t invoked mapCall → (ghost t).missed →
      InsertDuring key history invoked history.length := by
    intro invoked hlatest hmissed
    obtain ⟨invoked', mapCall', hlatest', hduring⟩ := hw.missing t hmissed
    obtain ⟨rfl, -⟩ := hlatest.unique hlatest'
    exact hduring
  refine hw.append rfl howes ?_ (hw.shown.append ?_ ?_)
  · rintro u mapCall' ⟨⟩
  · rintro u invoked other _ ⟨⟩ hlatest
    obtain ⟨found, hresult, hnone, hsome⟩ := htells
    refine ⟨found, hresult, fun h => hmissed hlatest (hnone h), fun value hvalue => ?_⟩
    obtain ⟨entry, hread, rfl⟩ := hsome value hvalue
    exact ((hw.knows t).reads entry hread).2.2
  · rintro u invoked other _ ⟨⟩ hlatest
    obtain ⟨answer, hresult, hfalse⟩ := htells
    exact ⟨answer, hresult, fun h => hmissed hlatest (hfalse h)⟩

/-- An `insert` goes on to its push with what it owes. -/
theorem goOn : PresenceWorld hashKey key old list r
    (Function.update ghost t (.start (ghost t).owes)) history := by
  have howes : ∀ u, (Function.update ghost t (.start (ghost t).owes) u).owes = (ghost u).owes :=
    update_field_eq Overwriting.owes ghost t rfl
  refine ⟨hw.memory, ?_, ?_, ?_, ?_, hw.calls, hw.shown⟩
  · exact (Function.forall_update_iff ghost fun _ =>
      Overwriting.Knows hashKey key (allowed key old history) r).mpr
        ⟨hw.memory.knows_start _, fun u _ => hw.knows u⟩
  · simp only [howes]
    exact hw.covered
  · simp only [howes]
    exact hw.owing
  · exact (Function.forall_update_iff ghost fun u g => g.missed → _).mpr
      ⟨False.elim, fun u _ => hw.missing u⟩

/-- The bucket changes, and what its thread knows. -/
theorem advance {mapCall : Call K V} {invoked : Nat} {g : Overwriting K V}
    (hlatest : Latest history t invoked mapCall)
    (hoverwrites : Overwrites hashKey key (allowed key old history) (mapCall.entry hashKey) list
      list' r r' (ghost t) g) :
    PresenceWorld hashKey key old list' r' (Function.update ghost t g) history := by
  have howner : (Function.update ghost t g t).owes = g.owes := by rw [Function.update_self]
  refine ⟨hoverwrites.memory, ?_, ?_, ?_, ?_, hw.calls, hw.shown⟩
  · exact (Function.forall_update_iff ghost fun _ =>
      Overwriting.Knows hashKey key (allowed key old history) r').mpr
        ⟨hoverwrites.knows, fun u _ => (hw.knows u).mono subset_rfl hoverwrites.grows⟩
  · rw [hoverwrites.grows.place]
    have hthis : HasHash (hashKey key) (list.heap.inner r.place) ∨ (ghost t).owes →
        HasHash (hashKey key) (list'.heap.inner r.place) ∨
          ∃ u, (Function.update ghost t g u).owes :=
      fun h => (hoverwrites.covered h).imp_right fun howes => ⟨t, howner ▸ howes⟩
    rcases hw.covered with hhash | ⟨u, hu⟩
    · exact hthis (.inl hhash)
    · by_cases hut : u = t
      · exact hthis (.inr (hut ▸ hu))
      · exact .inr ⟨u, by rwa [Function.update_of_ne hut]⟩
  · intro u hu
    by_cases hut : u = t
    · subst hut
      rw [Function.update_self] at hu
      rcases hoverwrites.owes hu with hold | hown
      · exact hw.owing u hold
      · have hcall := hw.calls u mapCall hlatest.mem
        cases mapCall with
        | insert other value => exact ⟨invoked, other, value, hlatest, hcall⟩
        | get | contains => exact absurd rfl hown
        | remove | computeIfAbsent => exact hcall.elim
    · rw [Function.update_of_ne hut] at hu
      exact hw.owing u hu
  · intro u hu
    by_cases hut : u = t
    · subst hut
      rw [Function.update_self] at hu
      rcases hoverwrites.missed hu with hold | hempty
      · exact hw.missing u hold
      · obtain ⟨owner, howes⟩ := hw.covered.resolve_left hempty
        exact ⟨invoked, mapCall, hlatest, .now hlatest.lt_length (hw.inserting howes)⟩
    · rw [Function.update_of_ne hut] at hu
      exact hw.missing u hu

end PresenceWorld

end Lemmas

end World

section Keeps

variable {ι : Type} [BEq K] [EquivBEq K] [DecidableEq ι] {capacity : UInt64} {hcapacity : capacity ≠ 0}
  {hashKey : K → UInt64} {key : K}

/-- What a thread may begin the next call to the bucket with. -/
theorem overwrites_jump (hrespects : Respects hashKey) {old : V} {list : SharedList (Entry K V)}
    {r : Regions} {ghost : ι → Overwriting K V} {history : List (Event ι (Call K V) (Reply V))}
    (hw : PresenceWorld hashKey key old list r ghost history) {t : ι} {mapCall : Call K V}
    {cont : Cont K V} {inner : SharedList.Call (Entry K V)}
    (hcalls : Calls hashKey mapCall cont inner) (hcall : mapCall.Overwrites key)
    (hhands : (overwrites hashKey key).hands mapCall cont (ghost t)) :
    ∃ g, ((overwrites hashKey key).inside mapCall cont).start inner g ∧
      PresenceWorld hashKey key old list r (Function.update ghost t g) history := by
  refine ⟨_, overwrites_start hrespects hcalls hcall fun hfirst => ?_, hw.goOn⟩
  rw [(hhands hfirst).2]
  exact id

theorem overwrites_keeps (hrespects : Respects hashKey) (old : V) :
    ((overwrites hashKey key).protocol hcapacity hashKey (indexOf hcapacity (hashKey key))).Keeps
      (fun (config : Config (object capacity V hashKey) ι) action =>
        config.Pending ∧ OnlyCalls (Call.Overwrites key) config action)
      fun state ghost history => ∃ r, PresenceWorld hashKey key old
        (state (indexOf hcapacity (hashKey key))) r ghost history where
  invoke := by
    rintro config ghost t mapCall ⟨r, hw⟩ ⟨-, hcall⟩ hrest
    exact ⟨.start False, ⟨hcall, rfl⟩, r, hw.invoke hrest hcall⟩
  respond := by
    rintro config ghost t mapCall result ⟨r, hw⟩ hthread ⟨hpending, -⟩ hfinish
    obtain ⟨invoked, hlatest⟩ := hpending t mapCall _ hthread
    have hhash := hrespects _ _ (hw.calls t mapCall hlatest.mem).key_eq
    obtain ⟨howes, htells⟩ := hfinish (by rw [hhash])
    exact ⟨r, hw.respond howes htells⟩
  jump := by
    rintro config ghost t mapCall label ⟨r, hw⟩ hthread ⟨hpending, -⟩ harrive
    obtain ⟨invoked, hlatest⟩ := hpending t mapCall _ hthread
    cases label with
    | call bucket inner cont =>
        obtain ⟨hbucket, hcalls, hhands⟩ := harrive
        by_cases hwatched : bucket = indexOf hcapacity (hashKey key)
        · obtain ⟨g, hstart, hw⟩ := overwrites_jump hrespects hw hcalls
            (hw.calls t mapCall hlatest.mem) (hhands hwatched)
          exact ⟨g, ⟨hbucket, hcalls, fun _ => hstart⟩, r, hw⟩
        · refine ⟨ghost t, ⟨hbucket, hcalls, fun heq => absurd heq hwatched⟩, r, ?_⟩
          rw [Function.update_eq_self]
          exact hw
    | within bucket label cont =>
        refine ⟨ghost t, harrive, r, ?_⟩
        rw [Function.update_eq_self]
        exact hw
  answered := by
    rintro config ghost t mapCall ⟨bucket, instr⟩ next state answer ⟨r, hw⟩ hat ⟨hpending, -⟩ hmay hexec
    obtain ⟨hinstr, hothers⟩ := Composite.exec_part hexec
    by_cases hwatched : bucket = indexOf hcapacity (hashKey key)
    · subst hwatched
      obtain ⟨cont, inner, -, hmay⟩ := hmay rfl
      obtain ⟨invoked, hlatest⟩ := hpending t mapCall _ hat
      have hcall := hw.calls t mapCall hlatest.mem
      obtain ⟨g, r', hmove, hoverwrites⟩ := hw.memory.step (hw.knows t)
        (hcall.entry_allowed hlatest.mem) hmay hinstr
      exact ⟨g, ⟨fun _ _ _ _ => hmove, fun hne => absurd rfl hne⟩, r', hw.advance hlatest hoverwrites⟩
    · refine ⟨ghost t, ⟨fun heq => absurd heq hwatched, fun _ => rfl⟩, r, ?_⟩
      rw [Function.update_eq_self, hothers _ (Ne.symm hwatched)]
      exact hw
  retried := by
    rintro config ghost t mapCall ⟨bucket, instr⟩ next state ⟨r, hw⟩ hat ⟨hpending, -⟩ - hexec
    obtain ⟨hinstr, hothers⟩ := Composite.exec_part hexec
    refine ⟨r, ?_⟩
    by_cases hwatched : bucket = indexOf hcapacity (hashKey key)
    · subst hwatched
      obtain ⟨invoked, hlatest⟩ := hpending t mapCall _ hat
      obtain ⟨hinner, hfresh, hnoneq⟩ := retried_contents hinstr
      have hnext := hw.advance hlatest (hw.memory.stays (hw.knows t) hinner hfresh hnoneq)
      rw [Function.update_eq_self] at hnext
      exact hnext
    · rw [hothers _ (Ne.symm hwatched)]
      exact hw

omit [EquivBEq K] [DecidableEq ι] in
/-- The place of the key in a map at rest is where its entry is. -/
theorem presence_start (hrespects : Respects hashKey)
    {state : Index capacity → SharedList (Entry K V)} {contents : Contents capacity K V}
    (hshows : Shows state contents) (htidy : Tidy hashKey contents)
    (hseparates : Separates hcapacity hashKey contents key) {old : V}
    (hheld : lookup hcapacity hashKey contents key = some old) :
    ∃ r, PresenceWorld hashKey key old (state (indexOf hcapacity (hashKey key))) r
      (fun _ : ι => .start False) [] := by
  obtain ⟨⟨slots, hlayout⟩, hnoneq⟩ := hshows (indexOf hcapacity (hashKey key))
  have hbucket := htidy (indexOf hcapacity (hashKey key))
  have hfits : ∀ entry ∈ contents (indexOf hcapacity (hashKey key)), Fits hashKey key entry := by
    intro entry hmem
    have hhash := hbucket.hash entry hmem
    exact ⟨hhash, fun heq => hseparates entry hmem (hhash ▸ heq)⟩
  obtain ⟨entry, hfind, rfl⟩ := Option.map_eq_some_iff.mp hheld
  have hmem := List.mem_of_find?_eq_some hfind
  have hkey := List.find?_some hfind
  have hhash : entry.hash = hashKey key := (hbucket.hash entry hmem).trans (hrespects entry.key key hkey)
  obtain ⟨xs₁, xs₂, hsplit⟩ := List.append_of_mem hmem
  have hascending := hbucket.ascending
  rw [hsplit] at hlayout hascending hfits
  have hallowed : entry ∈ allowed (ι := ι) key entry.value [] := .inl rfl
  obtain ⟨r, hplaced, hplace⟩ := Placed.of_layout hlayout hnoneq hascending hfits hhash hallowed
  refine ⟨r, hplaced, fun _ => hplaced.knows_start False, .inl hplace, ?_, ?_, ?_, ?_, ?_⟩
  · rintro t ⟨⟩
  · rintro t ⟨⟩
  · rintro t mapCall ⟨⟩
  · intro invoked returned other result hreturns
    exact absurd hreturns.lt_length (Nat.not_lt_zero _)
  · intro invoked returned other result hreturns
    exact absurd hreturns.lt_length (Nat.not_lt_zero _)

/-- **A key that is overwritten.** In a run in which threads only insert the key and look it up, a `get`
of it returns the old value or one an `insert` has brought; only if an `insert` of it is in progress
during the `get` it may find nothing, and the same is true of `contains`. -/
theorem overwritten_shown (hcapacity : capacity ≠ 0) (hrespects : Respects hashKey)
    {state : Index capacity → SharedList (Entry K V)} {contents : Contents capacity K V}
    (hshows : Shows state contents) (htidy : Tidy hashKey contents)
    (hseparates : Separates hcapacity hashKey contents key) {old : V}
    (hheld : lookup hcapacity hashKey contents key = some old)
    {config : Config (object capacity V hashKey) ι}
    (hreach : ((object capacity V hashKey).threads ι).Reach (OnlyCalls (Call.Overwrites key))
      (.initial state) config) : Shown key old config.history := by
  have hpending := hreach.with_invariant (I := fun config => config.Pending)
    (Config.pending_initial state) fun config action next hpending _ hstep => hpending.step hstep
  obtain ⟨ghost, -, r, hw⟩ := Protocol.invariant (Watch.protocol_sound overwrites_sound)
    (overwrites_keeps hrespects old) (presence_start hrespects hshows htidy hseparates hheld) hpending
  exact hw.shown

end Keeps

/-! ### Examples -/

/-- A map with one bucket and one entry. -/
def oneEntry : Index 1 → SharedList (Entry Unit ℕ) := fun _ =>
  { ofList [keyed unitHash () 10] with enforceNoneq := true }

theorem oneEntry_shows : Shows oneEntry fun _ => [keyed unitHash () 10] := by
  intro bucket
  obtain ⟨slots, hlayout⟩ := ofList_represents [keyed unitHash () 10]
  exact ⟨⟨slots, hlayout.chain, hlayout.nodup, hlayout.allocated, hlayout.mutFree, hlayout.immFree,
    hlayout.len⟩, rfl⟩

theorem oneEntry_tidy :
    Tidy unitHash (fun _ => [keyed unitHash () 10] : Contents 1 Unit ℕ) := by
  intro bucket
  refine ⟨by simp [keyed], fun entry _ => ?_, List.pairwise_singleton ..⟩
  have hbucket : bucket.val < 1 := bucket.isLt
  rw [UInt64.mod_one, Nat.lt_one_iff.mp hbucket]
  rfl

/-- Lookups while an `insert` is between its removal and its push, and one after it. -/
def lookupBetween : List (Action (object 1 ℕ unitHash) Bool) :=
  .invoke true (.insert () 20) :: List.replicate 15 (.tick true) ++
    .invoke false (.get ()) :: List.replicate 5 (.tick false) ++
    .invoke false (.contains ()) :: List.replicate 5 (.tick false) ++
    List.replicate 12 (.tick true) ++ .invoke false (.get ()) :: List.replicate 9 (.tick false)

theorem overwritten_shown_between :
    ∃ config : Config (object 1 ℕ unitHash) Bool,
      config.history = [.invoke true (.insert () 20), .invoke false (.get ()),
        .respond false (.get ()) (.found none), .invoke false (.contains ()),
        .respond false (.contains ()) (.bool false), .respond true (.insert () 20) (.bool true),
        .invoke false (.get ()), .respond false (.get ()) (.found (some 20))] ∧
      Shown () 10 config.history := by
  have hcapacity : (1 : UInt64) ≠ 0 := by decide
  obtain ⟨config, hrun, hhistory⟩ : ∃ config,
      ((object 1 ℕ unitHash).threads Bool).runIf (OnlyCalls (Call.Overwrites ())) (.initial oneEntry)
        lookupBetween = some config ∧
      config.history = [.invoke true (.insert () 20), .invoke false (.get ()),
        .respond false (.get ()) (.found none), .invoke false (.contains ()),
        .respond false (.contains ()) (.bool false), .respond true (.insert () 20) (.bool true),
        .invoke false (.get ()), .respond false (.get ()) (.found (some 20))] := ⟨_, rfl, rfl⟩
  have hseparates : Separates hcapacity unitHash (fun _ => [keyed unitHash () 10]) () :=
    fun _ _ _ => rfl
  exact ⟨config, hhistory, overwritten_shown hcapacity unitHash_respects oneEntry_shows
    oneEntry_tidy hseparates rfl (System.reach_of_runIf _ hrun)⟩

/-- A key that is only inserted and looked up is not found. -/
theorem overwritten_always_found_fails :
    ∃ config : Config (object 1 ℕ unitHash) Bool,
      ((object 1 ℕ unitHash).threads Bool).Reach (OnlyCalls (Call.Overwrites ())) (.initial oneEntry)
        config ∧
      Returns config.history 1 2 (.get ()) (.found none) ∧
      Returns config.history 3 4 (.contains ()) (.bool false) := by
  obtain ⟨config, hrun, hhistory⟩ : ∃ config,
      ((object 1 ℕ unitHash).threads Bool).runIf (OnlyCalls (Call.Overwrites ())) (.initial oneEntry)
        (lookupBetween.take 28) = some config ∧
      config.history = [.invoke true (.insert () 20), .invoke false (.get ()),
        .respond false (.get ()) (.found none), .invoke false (.contains ()),
        .respond false (.contains ()) (.bool false)] := ⟨_, rfl, rfl⟩
  refine ⟨config, System.reach_of_runIf _ hrun, ?_⟩
  rw [hhistory]
  let begun : List (Event Bool (Call Unit ℕ) (Reply ℕ)) := [.invoke true (.insert () 20)]
  have hget : Latest (begun ++ [.invoke false (.get ())]) false 1 (.get ()) := latest_invoke
  have hcontains : Latest ((begun ++ [.invoke false (.get ()), .respond false (.get ()) (.found none)]) ++
      [.invoke false (.contains ())]) false 3 (.contains ()) := latest_invoke
  exact ⟨⟨false, rfl, by decide, hget⟩, ⟨false, rfl, by decide, hcontains⟩⟩

end Mutual.SharedMap
