import Mutual.Concurrency.Layers
import Mutual.Proof.Buckets

/-!
# What the methods of a map do in a bucket

A method of the map makes one to three calls to the bucket of its key, one after the other. `Calls`
lists them, each with what the method does with the reply.
-/

namespace Mutual.SharedMap

open Concurrency

variable {K V : Type} {capacity : UInt64}

def keyed (hashKey : K → UInt64) (key : K) (value : V) : Entry K V :=
  { hash := hashKey key, key := key, value := value }

/-- The entry a method may push. -/
def Call.entry (hashKey : K → UInt64) : Call K V → Option (Entry K V)
  | insert key value | computeIfAbsent key value => some (keyed hashKey key value)
  | get _ | contains _ | remove _ => none

/-- What a method begins with. -/
def Cont.First : Cont K V → Prop
  | insertRemove _ | get | contains | remove | computeFind _ => True
  | insertPush _ | computePush _ | computeFound => False

section Calls

variable [BEq K]

/-- The method makes a call to its bucket and goes on with the reply as the continuation says. -/
inductive Calls (hashKey : K → UInt64) :
    Call K V → Cont K V → SharedList.Call (Entry K V) → Prop
  | insertRemove (key : K) (value : V) :
      Calls hashKey (.insert key value) (.insertRemove (keyed hashKey key value))
        (SharedList.removeAll fun _ entry => entry.hash == hashKey key)
  | insertPush (key : K) (value : V) (result : Bool) :
      Calls hashKey (.insert key value) (.insertPush result) (.push (keyed hashKey key value))
  | get (key : K) :
      Calls hashKey (.get key) .get (SharedList.find fun _ entry => entry.key == key)
  | contains (key : K) :
      Calls hashKey (.contains key) .contains (.any fun entry => entry.hash == hashKey key)
  | remove (key : K) :
      Calls hashKey (.remove key) .remove
        (SharedList.removeSearch fun _ entry => entry.hash == hashKey key)
  | computeFind (key : K) (value : V) :
      Calls hashKey (.computeIfAbsent key value) (.computeFind (keyed hashKey key value))
        (SharedList.find fun _ entry => entry.key == key)
  | computePush (key : K) (value : V) :
      Calls hashKey (.computeIfAbsent key value) (.computePush (hashKey key))
        (.push (keyed hashKey key value))
  | computeFound (key : K) (value : V) :
      Calls hashKey (.computeIfAbsent key value) .computeFound
        (SharedList.find fun _ entry => entry.hash == hashKey key)

/-- A method begins with a call to the bucket of its key. -/
theorem enter_calls (hcapacity : capacity ≠ 0) (hashKey : K → UInt64) (mapCall : Call K V) :
    ∃ cont inner, Calls hashKey mapCall cont inner ∧ cont.First ∧
      enter hashKey mapCall = call (indexOf hcapacity (hashKey mapCall.key)) inner cont := by
  cases mapCall with
  | insert key value =>
      refine ⟨_, _, .insertRemove key value, trivial, ?_⟩
      rw [enter, insert, bucketOf_eq hcapacity]
      rfl
  | get key =>
      refine ⟨_, _, .get key, trivial, ?_⟩
      rw [enter, get, bucketOf_eq hcapacity]
      rfl
  | contains key =>
      refine ⟨_, _, .contains key, trivial, ?_⟩
      rw [enter, contains, bucketOf_eq hcapacity]
      rfl
  | remove key =>
      refine ⟨_, _, .remove key, trivial, ?_⟩
      rw [enter, remove, bucketOf_eq hcapacity]
      rfl
  | computeIfAbsent key value =>
      refine ⟨_, _, .computeFind key value, trivial, ?_⟩
      rw [enter, computeIfAbsent, bucketOf_eq hcapacity]
      rfl

end Calls

/-! ### Watching one bucket

A proof about one bucket follows the methods of the map with a protocol of the bucket for each of
their calls. What goes on in the other buckets it leaves alone.
-/

section Watching

variable [BEq K] {G : Type}

/-- After a call to its bucket a method replies, makes another one, or panics. -/
theorem resume_obeys {hashKey : K → UInt64} {P : Protocol (object capacity V hashKey) G}
    {mapCall : Call K V} {cont : Cont K V} {inner : SharedList.Call (Entry K V)} {g : G}
    {bucket : Index capacity} (hcalls : Calls hashKey mapCall cont inner)
    (hpanic : P.fail mapCall g) (hreply : ∀ answer, P.finish mapCall answer g)
    (hmay : P.may mapCall g (bucket, .callback))
    (hcall : ∀ {cont' inner' g'}, Calls hashKey mapCall cont' inner' →
      g' = g ∨ P.move mapCall g (bucket, .callback) () g' →
      P.arrive mapCall (.call bucket inner' cont') g')
    (result : SharedList.Reply (Entry K V)) :
    P.Obeys mapCall (resume bucket cont result) g := by
  cases hcalls with
  | insertRemove key value =>
      cases result with
      | removed output => exact hcall (.insertPush key value _) (.inl rfl)
      | _ => exact hpanic
  | insertPush key value =>
      cases result with
      | unit => exact hreply _
      | _ => exact hpanic
  | get key =>
      cases result with
      | found found => exact hreply _
      | _ => exact hpanic
  | contains key =>
      cases result with
      | bool answer => exact hreply _
      | _ => exact hpanic
  | remove key =>
      cases result with
      | removed output => exact hreply _
      | _ => exact hpanic
  | computeFind key value =>
      cases result with
      | found found =>
          cases found with
          | some found => exact hreply _
          | none => exact ⟨hmay, fun answer g' hmove => hcall (.computePush key value) (.inr hmove)⟩
      | _ => exact hpanic
  | computePush key value =>
      cases result with
      | unit => exact hcall (.computeFound key value) (.inl rfl)
      | _ => exact hpanic
  | computeFound key value =>
      cases result with
      | found found =>
          cases found with
          | some found => exact hreply _
          | none => exact hpanic
      | _ => exact hpanic

/-- `inside` is the protocol in the bucket that is watched. `hands` is what a method has to know when
it calls the bucket, and `answers` when it replies. -/
structure Watch (K V G : Type) where
  rest : G
  inside : Call K V → Cont K V → Protocol (Bucket K V) G
  begins : Call K V → G → Prop
  hands : Call K V → Cont K V → G → Prop
  answers : Call K V → Reply V → G → Prop

namespace Watch

variable (watch : Watch K V G) (hcapacity : capacity ≠ 0) (hashKey : K → UInt64)
  (watched : Index capacity)

def Arrives (mapCall : Call K V) (g : G) : Label capacity K V → Prop
  | .call part inner cont =>
      part = indexOf hcapacity (hashKey mapCall.key) ∧ Calls hashKey mapCall cont inner ∧
        (part = watched → watch.hands mapCall cont g)
  | .within part label cont =>
      part = indexOf hcapacity (hashKey mapCall.key) ∧ ∃ inner, Calls hashKey mapCall cont inner ∧
        (part = watched → (watch.inside mapCall cont).arrive inner label g)

def Leaves (mapCall : Call K V) (g : G) : Label capacity K V → Prop
  | .call part inner cont =>
      part = indexOf hcapacity (hashKey mapCall.key) ∧ Calls hashKey mapCall cont inner ∧
        (part = watched → (watch.inside mapCall cont).start inner g)
  | .within part label cont =>
      part = indexOf hcapacity (hashKey mapCall.key) ∧ ∃ inner, Calls hashKey mapCall cont inner ∧
        (part = watched → (watch.inside mapCall cont).leave inner label g)

def protocol : Protocol (object capacity V hashKey) G where
  rest := watch.rest
  start := watch.begins
  may mapCall g instr := instr.1 = watched → ∃ cont inner, Calls hashKey mapCall cont inner ∧
    (watch.inside mapCall cont).may inner g instr.2
  move mapCall g instr answer g' :=
    (instr.1 = watched → ∀ cont inner, Calls hashKey mapCall cont inner →
      (watch.inside mapCall cont).move inner g instr.2 answer g') ∧ (instr.1 ≠ watched → g' = g)
  fail mapCall g := indexOf hcapacity (hashKey mapCall.key) = watched →
    ∃ cont inner, Calls hashKey mapCall cont inner ∧ (watch.inside mapCall cont).fail inner g
  arrive mapCall label g := watch.Arrives hcapacity hashKey watched mapCall g label
  leave mapCall label g := watch.Leaves hcapacity hashKey watched mapCall g label
  finish mapCall reply g := indexOf hcapacity (hashKey mapCall.key) = watched →
    watch.answers mapCall reply g

/-- What the proof has to show of its protocols. -/
structure Sound : Prop where
  inside : ∀ mapCall cont, (watch.inside mapCall cont).Sound
  begins : ∀ mapCall cont inner g, Calls hashKey mapCall cont inner → cont.First →
    watch.begins mapCall g → watch.hands mapCall cont g
  resume : ∀ mapCall cont inner result g, Calls hashKey mapCall cont inner →
    indexOf hcapacity (hashKey mapCall.key) = watched →
    (watch.inside mapCall cont).finish inner result g →
    (watch.protocol hcapacity hashKey watched).Obeys mapCall (SharedMap.resume watched cont result) g

section Code

variable {watch hcapacity hashKey watched} {mapCall : Call K V} {cont : Cont K V}
  {inner : SharedList.Call (Entry K V)} {g : G} {bucket : Index capacity}

theorem hosts_watched (hsound : watch.Sound hcapacity hashKey watched)
    (hcalls : Calls hashKey mapCall cont inner)
    (hwatched : indexOf hcapacity (hashKey mapCall.key) = watched) :
    Hosts (C := composite capacity V hashKey) (watch.protocol hcapacity hashKey watched)
      (watch.inside mapCall cont) mapCall inner watched cont where
  may _ _ hmay _ := ⟨cont, inner, hcalls, hmay⟩
  move _ _ _ _ hmove := hmove.1 rfl cont inner hcalls
  fail _ hfail _ := ⟨cont, inner, hcalls, hfail⟩
  arrive _ _ harrive := ⟨hwatched.symm, inner, hcalls, fun _ => harrive⟩
  finish g result hfinish := hsound.resume mapCall cont inner result g hcalls hwatched hfinish

/-- In a bucket that is not watched a method does as it likes. -/
theorem resume_other (hcalls : Calls hashKey mapCall cont inner)
    (hbucket : bucket = indexOf hcapacity (hashKey mapCall.key)) (hother : bucket ≠ watched)
    (result : SharedList.Reply (Entry K V)) (g : G) :
    (watch.protocol hcapacity hashKey watched).Obeys mapCall (SharedMap.resume bucket cont result)
      g := by
  have hne : indexOf hcapacity (hashKey mapCall.key) ≠ watched := hbucket ▸ hother
  refine resume_obeys hcalls (fun hwatched => absurd hwatched hne)
    (fun _ hwatched => absurd hwatched hne) (fun hwatched => absurd hwatched hother) ?_ result
  rintro cont' inner' g' hcalls' -
  exact ⟨hbucket, hcalls', fun hwatched => absurd hwatched hother⟩

theorem hosts_other (hcalls : Calls hashKey mapCall cont inner)
    (hbucket : bucket = indexOf hcapacity (hashKey mapCall.key)) (hother : bucket ≠ watched) :
    Hosts (C := composite capacity V hashKey) (watch.protocol hcapacity hashKey watched)
      (.free (Bucket K V) watch.rest) mapCall inner bucket cont where
  may _ _ _ hwatched := absurd hwatched hother
  move _ _ _ _ _ := trivial
  fail _ _ hwatched := absurd (hbucket.trans hwatched) hother
  arrive _ _ _ := ⟨hbucket, inner, hcalls, fun hwatched => absurd hwatched hother⟩
  finish g result _ := resume_other hcalls hbucket hother result g

/-- **Watching one bucket.** If the protocols of the bucket are sound and each goes on where the one
before it ends, the methods follow them. -/
theorem protocol_sound (hsound : watch.Sound hcapacity hashKey watched) :
    (watch.protocol hcapacity hashKey watched).Sound where
  enter := by
    intro mapCall g hbegins
    obtain ⟨cont, inner, hcalls, hfirst, henter⟩ := enter_calls hcapacity hashKey mapCall
    have harrives : (watch.protocol hcapacity hashKey watched).Obeys mapCall
        (call (indexOf hcapacity (hashKey mapCall.key)) inner cont) g :=
      ⟨rfl, hcalls, fun _ => hsound.begins mapCall cont inner g hcalls hfirst hbegins⟩
    rw [← henter] at harrives
    exact harrives
  body := by
    intro mapCall label g hleave
    cases label with
    | call bucket inner cont =>
        obtain ⟨hbucket, hcalls, hstart⟩ := hleave
        by_cases hwatched : bucket = watched
        · subst hwatched
          exact (hosts_watched hsound hcalls hbucket.symm).obeys
            ((hsound.inside mapCall cont).enter inner g (hstart rfl))
        · exact (hosts_other hcalls hbucket hwatched).obeys (Protocol.free_obeys _ _ _ g)
    | within bucket label cont =>
        obtain ⟨hbucket, inner, hcalls, hleave⟩ := hleave
        by_cases hwatched : bucket = watched
        · subst hwatched
          exact (hosts_watched hsound hcalls hbucket.symm).obeys
            ((hsound.inside mapCall cont).body inner label g (hleave rfl))
        · exact (hosts_other hcalls hbucket hwatched).obeys (Protocol.free_obeys _ _ _ g)

end Code

end Watch

end Watching

end Mutual.SharedMap
