import Mutual.Concurrency.Completion
import Mutual.Proof.Resting

/-!
# What is pushed is popped or still there

No push is lost and no element is popped twice, whatever the pushes and pops of an unordered list
overlap with. A call in progress may have taken effect already; it is counted with the calls that
have returned, and with the result that it is going to return.
-/

namespace Mutual.SharedList

open Concurrency

variable {T : Type}

def pushedBy : Call T × Reply T → Multiset T
  | (.push data, _) => {data}
  | _ => 0

def poppedBy : Call T × Reply T → Multiset T
  | (_, .popped (some data)) => {data}
  | _ => 0

def totalPushed (outcomes : List (Call T × Reply T)) : Multiset T := (outcomes.map pushedBy).sum

def totalPopped (outcomes : List (Call T × Reply T)) : Multiset T := (outcomes.map poppedBy).sum

theorem stackStep_balance (xs : List T) (call : Call T) (result : Reply T) (ys : List T)
    (hstep : StackStep xs call result ys) :
    (xs : Multiset T) + pushedBy (call, result) = ys + poppedBy (call, result) := by
  cases hstep with
  | @push _ data =>
      change (xs : Multiset T) + {data} = ((data :: xs : List T) : Multiset T) + 0
      rw [add_zero, ← Multiset.cons_coe, ← Multiset.singleton_add, add_comm]
  | @pop _ data =>
      change ((data :: ys : List T) : Multiset T) + 0 = (ys : Multiset T) + {data}
      rw [add_zero, ← Multiset.cons_coe, ← Multiset.singleton_add, add_comm]
  | popEmpty => rfl

variable {ι : Type} [DecidableEq ι] [Fintype ι]

/-- **Conservation.** What was in the list and what the pushes have put into it is what the pops have
taken out and what is in it. -/
theorem elements_conserved {initial : List T} {list : SharedList T}
    (hlist : list.Represents initial) {config : Config (object (T := T) none) ι}
    (hreach : ((object none).threads ι).Reach (OnlyCalls Call.PushesOrPops) (.initial list) config) :
    ∃ xs inside, config.state.Holds xs ∧ config.InProgress inside ∧
      (initial : Multiset T) + totalPushed (completedCalls config.history ++ inside.map Entry.outcome) =
        xs + totalPopped (completedCalls config.history ++ inside.map Entry.outcome) ∧
      (config.Quiescent → inside = [] ∧ config.state.Represents xs) := by
  obtain ⟨ghost, slots, order, xs, hw⟩ := working hlist hreach
  have hlin := hw.weighed.pointed.linearization
  obtain ⟨entries, haccounted, hawaited⟩ := accounted_of_reach hreach
  obtain ⟨inside, hperm, hprogress⟩ := hlin.completion haccounted hawaited
  have houtcomes : (order.map Entry.outcome).Perm
      (completedCalls config.history ++ inside.map Entry.outcome) := by
    rw [← haccounted.outcomes, ← List.map_append]
    exact hperm.map Entry.outcome
  have hbalance := hlin.sequential.balance (fun xs : List T => (xs : Multiset T)) pushedBy poppedBy
    stackStep_balance
  refine ⟨xs, inside, ⟨slots, hw.weighed.world.chain⟩, hprogress, ?_, ?_⟩
  · rw [(houtcomes.map pushedBy).sum_eq, (houtcomes.map poppedBy).sum_eq] at hbalance
    exact hbalance
  · exact fun hquiescent => ⟨hprogress.eq_nil hquiescent, hw.represents hquiescent⟩

/-- An element is popped while the `push` that has put it into the list is in progress. -/
theorem elements_conserved_early :
    ∃ config : Config (object (T := Nat) none) Bool,
      completedCalls config.history = [(.pop, .popped (some 1))] ∧
      ∃ xs inside, config.state.Holds xs ∧ config.InProgress inside ∧
        ((([] : List Nat) : Multiset Nat) +
            totalPushed (completedCalls config.history ++ inside.map Entry.outcome) =
          xs + totalPopped (completedCalls config.history ++ inside.map Entry.outcome)) ∧
        (config.Quiescent → inside = [] ∧ config.state.Represents xs) := by
  obtain ⟨config, hrun, hreturned⟩ : ∃ config,
      ((object (T := Nat) none).threads Bool).runIf (OnlyCalls Call.PushesOrPops) (.initial new)
        (.invoke false (.push 1) :: List.replicate 6 (.tick false) ++
          .invoke true .pop :: List.replicate 11 (.tick true)) = some config ∧
      completedCalls config.history = [(.pop, .popped (some 1))] := ⟨_, rfl, rfl⟩
  exact ⟨config, hreturned, elements_conserved new_represents (System.reach_of_runIf _ hrun)⟩

end Mutual.SharedList
