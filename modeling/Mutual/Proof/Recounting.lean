import Mutual.Concurrency.Altered
import Mutual.Proof.Unlocking

/-!
# Counters

No method of a map reads the counter of a bucket. Where pushes and removals have met, a counter may
have come out wrong; the methods do what they do all the same.
-/

namespace Mutual.SharedList

open Concurrency

variable {T : Type}

def recount (surplus : UInt64) (list : SharedList T) : SharedList T :=
  { list with len := list.len + surplus }

theorem recount_recount (list : SharedList T) (surplus : UInt64) :
    (list.recount surplus).recount (-surplus) = list := by
  have hlen : list.len + surplus + -surplus = list.len := by grind
  unfold recount
  rw [hlen]

variable {orderFn : Option (T → T → Ordering)}

/-- Only `len` and `is_empty` read the counter. -/
def Uncounted (instr : Instr T) : Prop := instr ≠ .loadLen

theorem recount_unseen (surplus : UInt64) :
    (object orderFn).Unseen (recount surplus) Uncounted := by
  intro instr list hinstr
  match instr with
  | .fetchAddLen =>
      have hlen : list.len + surplus + 1 = list.len + 1 + surplus := by grind
      simp only [exec, recount, hlen]
  | .fetchSubLen =>
      have hlen : list.len + surplus - 1 = list.len - 1 + surplus := by grind
      simp only [exec, recount, hlen]
  | .loadLen => exact absurd rfl hinstr
  | .cow _ | .loadNoneq | .storeNoneq _ | .callback => rfl

theorem limited_enter {call : Call T} (hcall : call.OfMap) :
    (object orderFn).Limited Uncounted (fun _ => True) (enter orderFn call) := by
  cases call with
  | push data => cases orderFn <;> simp [enter, push, pushHead, head, Uncounted]
  | removeCount func count => simp [enter, removeCount, head, Uncounted]
  | search func => trivial
  | any func => trivial
  | _ => exact hcall.elim

theorem limited_body (label : Label T) :
    (object orderFn).Limited Uncounted (fun _ => True) (body label) := by
  cases label with
  | pushWalk order data current => simp [body, pushWalk, Uncounted, Option.forall]
  | removeCount func seen current count output =>
      simp [body, removeCountLoop, Uncounted, Option.forall]
  | search func seen current => simp [body, searchLoop, Uncounted, Option.forall]
  | any func current => simp [body, anyLoop, iterNext, Uncounted, Option.forall]

end Mutual.SharedList

namespace Mutual.SharedMap

open Concurrency SharedList

variable {K V : Type} [BEq K] {capacity : UInt64} {hashKey : K → UInt64}

def recount (surplus : Index capacity → UInt64) (state : Index capacity → SharedList (Entry K V)) :
    Index capacity → SharedList (Entry K V) :=
  fun bucket => (state bucket).recount (surplus bucket)

abbrev Uncounted (instr : (sig capacity K V).Instr) : Prop := SharedList.Uncounted instr.2

theorem limited_resume (bucket : Index capacity) (cont : Cont K V)
    (result : SharedList.Reply (Entry K V)) :
    (object capacity V hashKey).Limited Uncounted OfMap (resume bucket cont result) := by
  unfold resume
  split
  all_goals first | trivial | exact ⟨by rintro ⟨⟩, fun _ => trivial⟩

theorem limited_method (mapCall : Call K V) :
    (object capacity V hashKey).Limited Uncounted OfMap (enter hashKey mapCall) := by
  cases mapCall
  all_goals
    simp only [enter, insert, get, contains, remove, computeIfAbsent]
    unfold bucketOf
    split <;> trivial

theorem limited_label (label : Label capacity K V) (hlabel : OfMap label) :
    (object capacity V hashKey).Limited Uncounted OfMap ((object capacity V hashKey).body label) := by
  cases label with
  | call bucket inner cont =>
      exact Composite.limited_within (limited_enter hlabel) (fun _ _ => trivial)
        (limited_resume bucket cont)
  | within bucket label cont =>
      exact Composite.limited_within (limited_body label) (fun _ _ => trivial)
        (limited_resume bucket cont)

/-- **Counters do not matter.** The methods give the same replies whatever the counters say. -/
theorem executes_recount {state final : Index capacity → SharedList (Entry K V)}
    {calls : List (Call K V)} {replies : List (Reply V)}
    (hrun : (object capacity V hashKey).Executes state calls replies final)
    (surplus : Index capacity → UInt64) :
    (object capacity V hashKey).Executes (recount surplus state) calls replies
      (recount surplus final) :=
  hrun.altered (Composite.unseen fun bucket => recount_unseen (surplus bucket)) limited_method
    limited_label

end Mutual.SharedMap
