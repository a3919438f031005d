import Mutual.Concurrency.Weaving
import Mutual.Proof.Phases

/-!
# The runs of the buckets inside the runs of a map

The buckets of a map do not know of each other, and a method of the map does nothing to its bucket
but call the methods of a list. So a run of the map is made of one run for each bucket, of a list
that refuses equal hashes, and the replies of the map are what its methods make of the replies of
these lists.
-/

namespace Mutual.SharedMap

open Concurrency

variable {K V : Type} [BEq K] {capacity : UInt64}

/-- The method makes a call to the bucket of its key. -/
def Makes (hashKey : K → UInt64) (mapCall : Call K V) (bucket : Index capacity) (cont : Cont K V)
    (inner : SharedList.Call (Entry K V)) : Prop :=
  bucket.val = (hashKey mapCall.key % capacity).toNat ∧ Calls hashKey mapCall cont inner

/-- A map without buckets only panics. -/
theorem enter_of_capacity_zero (hcapacity : capacity = 0) (hashKey : K → UInt64)
    (mapCall : Call K V) :
    ∃ message, (enter hashKey mapCall : Code capacity K V) = .panic message := by
  cases mapCall with
  | insert | get | contains | remove | computeIfAbsent => exact ⟨_, dif_pos hcapacity⟩

theorem delegates (hashKey : K → UInt64) :
    Delegates (composite capacity V hashKey) (Makes hashKey) where
  enter := by
    intro mapCall
    by_cases hcapacity : capacity = 0
    · obtain ⟨message, henter⟩ := enter_of_capacity_zero hcapacity hashKey mapCall
      change (between (Makes hashKey)).Obeys mapCall (enter hashKey mapCall) ()
      rw [henter]
      trivial
    · obtain ⟨cont, inner, hcalls, -, henter⟩ := enter_calls hcapacity hashKey mapCall
      have hbucket : Makes hashKey mapCall (indexOf hcapacity (hashKey mapCall.key)) cont inner :=
        ⟨rfl, hcalls⟩
      change (between (Makes hashKey)).Obeys mapCall (enter hashKey mapCall) ()
      rw [henter]
      exact hbucket
  resume := by
    rintro mapCall bucket cont inner result ⟨hbucket, hcalls⟩
    refine resume_obeys hcalls trivial (fun _ => trivial) (fun _ => rfl) ?_ result
    rintro cont' inner' - hcalls' -
    exact ⟨hbucket, hcalls'⟩

/-- **A map is its buckets.** Whatever calls any threads make on a new map and however they
interleave, each bucket goes through a run of an ordered list that refuses equal hashes, in which
only calls for keys of this bucket are made. The histories of the lists can be woven into that of
the map so that each thread takes the course that the methods of the map prescribe. -/
theorem buckets_woven {ι : Type} [DecidableEq ι] {hashKey : K → UInt64}
    {config : Config (object capacity V hashKey) ι}
    (hreach : ((object capacity V hashKey).threads ι).Reachable (.initial (withCapacity capacity))
      config) :
    ∃ inside history, Woven (Makes hashKey) (withCapacity capacity) config inside history :=
  weave (delegates hashKey) hreach

/-- Two threads are in two buckets, and one of them asks for the key that the other one inserts. -/
theorem buckets_woven_apart :
    ∃ config : Config (object 2 ℕ (id : UInt64 → UInt64)) Bool,
      config.history = [.invoke true (.insert 4 10), .invoke false (.insert 1 20),
        .respond false (.insert 1 20) (.bool false), .invoke false (.get 4),
        .respond false (.get 4) (.found none), .respond true (.insert 4 10) (.bool false)] ∧
      ∃ inside history, Woven (Makes id) (withCapacity 2) config inside history := by
  obtain ⟨config, hrun, hhistory⟩ : ∃ config : Config (object 2 ℕ (id : UInt64 → UInt64)) Bool,
      ((object 2 ℕ (id : UInt64 → UInt64)).threads Bool).run (.initial (withCapacity 2))
        (.invoke true (.insert 4 10) :: .tick true :: .invoke false (.insert 1 20) ::
          List.replicate 17 (.tick false) ++ .invoke false (.get 4) ::
          List.replicate 5 (.tick false) ++ List.replicate 16 (.tick true)) = some config ∧
      config.history = [.invoke true (.insert 4 10), .invoke false (.insert 1 20),
        .respond false (.insert 1 20) (.bool false), .invoke false (.get 4),
        .respond false (.get 4) (.found none), .respond true (.insert 4 10) (.bool false)] :=
    ⟨_, rfl, rfl⟩
  exact ⟨config, hhistory, buckets_woven (System.reachable_of_run _ hrun)⟩

end Mutual.SharedMap
