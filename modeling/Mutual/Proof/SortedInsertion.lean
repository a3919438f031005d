import Mutual.Proof.Refinement
import Mutual.Proof.Sorting

/-!
# A list used by one thread stays sorted

An ordered `push` stops at the first element that the order puts behind the new one, or at the first
that is equal to it if equal elements are refused. Why it does not have to look further is that the
list is sorted, whatever has been removed from it and however the flag has been set in between: an
element equal to the new one stands before every element that belongs behind.
-/

namespace Mutual

variable {T : Type}

/-- No element comes before one that the order puts ahead of it. -/
def Sorted (order : T → T → Ordering) (xs : List T) : Prop :=
  xs.Pairwise fun x y => order x y ≠ .lt

/-- `data` has been put behind every element that may come before it, those equal to it included,
and ahead of all others. -/
def Inserted (order : T → T → Ordering) (data : T) (xs ys : List T) : Prop :=
  ∃ xs₁ xs₂, xs = xs₁ ++ xs₂ ∧ ys = xs₁ ++ data :: xs₂ ∧ (∀ x ∈ xs₁, order x data ≠ .lt) ∧
    ∀ x ∈ xs₂, order x data = .lt

section Insertion

open SharedList

variable {order : T → T → Ordering} {data : T} {xs ys : List T}

theorem Inserted.length (hinserted : Inserted order data xs ys) : ys.length = xs.length + 1 := by
  obtain ⟨xs₁, xs₂, rfl, rfl, -⟩ := hinserted
  simp only [List.length_append, List.length_cons]
  omega

theorem Inserted.sorted (hinserted : Inserted order data xs ys) (horder : TotalPreorder order)
    (hsorted : Sorted order xs) : Sorted order ys := by
  obtain ⟨xs₁, xs₂, rfl, rfl, hbefore, hbehind⟩ := hinserted
  obtain ⟨hfirst, hsecond, hcross⟩ := List.pairwise_append.mp hsorted
  refine List.pairwise_append.mpr ⟨hfirst, List.pairwise_cons.mpr ⟨?_, hsecond⟩, ?_⟩
  · intro y hy
    rw [horder.swap, hbehind y hy]
    simp
  · intro x hx y hy
    rcases List.mem_cons.mp hy with rfl | hy
    · exact hbefore x hx
    · exact hcross x hx y hy

/-- **Insertion.** If no element is refused, the new one is put where it belongs. -/
theorem insertOrdered_inserted (horder : TotalPreorder order) (hsorted : Sorted order xs)
    {noneq : Bool} (hfree : noneq = true → ∀ x ∈ xs, order x data ≠ .eq) :
    Inserted order data xs (insertOrdered order noneq data xs) := by
  induction xs with
  | nil => exact ⟨[], [], rfl, rfl, by simp, by simp⟩
  | cons entry rest ih =>
      obtain ⟨hentry, hrest⟩ := List.pairwise_cons.mp hsorted
      have haccepted : ¬ ((noneq && order entry data == .eq) = true) := by
        rw [Bool.and_eq_true, beq_iff_eq]
        exact fun ⟨hnoneq, hequal⟩ => hfree hnoneq entry List.mem_cons_self hequal
      rw [insertOrdered, if_neg haccepted]
      by_cases hless : order entry data = .lt
      · rw [hless]
        refine ⟨[], entry :: rest, rfl, rfl, by simp, ?_⟩
        intro x hx
        rcases List.mem_cons.mp hx with rfl | hx
        · exact hless
        · by_contra hne
          exact horder.trans entry x data (hentry x hx) hne hless
      · rw [if_neg (by simp [hless])]
        obtain ⟨xs₁, xs₂, rfl, hys, hbefore, hbehind⟩ :=
          ih hrest fun hnoneq x hx => hfree hnoneq x (List.mem_cons_of_mem _ hx)
        refine ⟨entry :: xs₁, xs₂, rfl, congrArg _ hys, ?_, hbehind⟩
        intro x hx
        rcases List.mem_cons.mp hx with rfl | hx
        · exact hless
        · exact hbefore x hx

/-- **Refusal.** An equal element is met before the walk would stop, wherever it stands. -/
theorem insertOrdered_refused (horder : TotalPreorder order) (hsorted : Sorted order xs)
    (hequal : ∃ x ∈ xs, order x data = .eq) : insertOrdered order true data xs = xs := by
  induction xs with
  | nil => simp at hequal
  | cons entry rest ih =>
      obtain ⟨hentry, hrest⟩ := List.pairwise_cons.mp hsorted
      by_cases hfirst : order entry data = .eq
      · simp [insertOrdered, hfirst]
      · obtain ⟨x, hx, hequal⟩ := hequal
        have hx : x ∈ rest := by
          rcases List.mem_cons.mp hx with rfl | hx
          · exact absurd hequal hfirst
          · exact hx
        have hless : order entry data ≠ .lt :=
          horder.trans entry x data (hentry x hx) (by simp [hequal])
        have hrest := ih hrest ⟨x, hx, hequal⟩
        simp [insertOrdered, hfirst, hless, hrest]

theorem sorted_insertOrdered (horder : TotalPreorder order) (hsorted : Sorted order xs)
    (noneq : Bool) (data : T) : Sorted order (insertOrdered order noneq data xs) := by
  by_cases hrefused : noneq = true ∧ ∃ x ∈ xs, order x data = .eq
  · rw [hrefused.1, insertOrdered_refused horder hsorted hrefused.2]
    exact hsorted
  · refine (insertOrdered_inserted horder hsorted ?_).sorted horder hsorted
    intro hnoneq x hx hequal
    exact hrefused ⟨hnoneq, x, hx, hequal⟩

namespace PlainList

variable {list : PlainList T}

theorem sorted_push (horder : TotalPreorder order) (hsorted : Sorted order list.elements)
    (data : T) : Sorted order (list.push (some order) data).elements :=
  sorted_insertOrdered horder hsorted list.noneq data

theorem sorted_removeCount (hsorted : Sorted order list.elements) (func : List T → T → Bool)
    (count : Nat) : Sorted order (list.removeCount func count).1.elements :=
  hsorted.sublist (takeOut_sublist func [] count list.elements)

/-- Every operation keeps the list sorted. -/
theorem sorted_apply [BEq T] (horder : TotalPreorder order) (hsorted : Sorted order list.elements)
    (op : Op T) : Sorted order (list.apply (some order) op).1.elements := by
  cases op with
  | push data => exact sorted_push horder hsorted data
  | extend iter =>
      change Sorted order (iter.foldl (fun list data => list.push (some order) data) list).elements
      induction iter generalizing list with
      | nil => exact hsorted
      | cons data iter ih => exact ih (sorted_push horder hsorted data)
  | setEnforceNoneq enforceNoneq => exact hsorted
  | pop => exact hsorted.tail
  | drainNext => exact hsorted.tail
  | removeCount func count => exact sorted_removeCount hsorted func _
  | removeAll func => exact sorted_removeCount hsorted func _
  | removeSearch func => exact sorted_removeCount hsorted func 1
  | remove toRemove => exact sorted_removeCount hsorted _ 1

theorem sorted_run [BEq T] (horder : TotalPreorder order) (hsorted : Sorted order list.elements)
    (ops : List (Op T)) : Sorted order (list.run (some order) ops).1.elements := by
  induction ops generalizing list with
  | nil => exact hsorted
  | cons op ops ih => exact ih (sorted_apply horder hsorted op)

end PlainList

end Insertion

namespace SharedList

open Concurrency

variable {order : T → T → Ordering}

/-- The elements `ys` are those of `xs` and `data`, and the counter says so. -/
structure Gains (order : T → T → Ordering) (data : T) (list : SharedList T) (xs : List T)
    (final : SharedList T) (ys : List T) : Prop where
  inserted : Inserted order data xs ys
  len : final.len = list.len + 1

/-- What `push(data)` makes of the elements `xs`. -/
structure PushesSorted (order : T → T → Ordering) (list : SharedList T) (xs : List T) (data : T)
    (final : SharedList T) (ys : List T) : Prop where
  completes : (object (some order)).Completes list (enter (some order) (.push data)) final .unit
  represents : final.Represents ys
  stable : list.enforceNoneq = false → Gains order data list xs final ys
  refused_iff : list.enforceNoneq = true →
    (ys = xs ∧ final.len = list.len ↔ ∃ x ∈ xs, order x data = .eq)
  accepted : list.enforceNoneq = true → (∀ x ∈ xs, order x data ≠ .eq) →
    Gains order data list xs final ys

theorem push_sorted (horder : TotalPreorder order) {list : SharedList T} {plain : PlainList T}
    (hlist : list.Shows plain) (hsorted : Sorted order plain.elements) (data : T) :
    ∃ final ys, PushesSorted order list plain.elements data final ys := by
  obtain ⟨final, hrun, hfinal⟩ := push_completes (some order) hlist data
  have hgains (hfree : plain.noneq = true → ∀ x ∈ plain.elements, order x data ≠ .eq) :
      Gains order data list plain.elements final (plain.push (some order) data).elements := by
    have hinserted := insertOrdered_inserted horder hsorted hfree
    refine ⟨hinserted, ?_⟩
    rw [hfinal.represents.len, hlist.represents.len, PlainList.push, hinserted.length]
    exact UInt64.ofNat_add _ 1
  refine ⟨final, _, hrun, hfinal.represents, ?_, ?_, ?_⟩
  all_goals rw [hlist.noneq]
  · intro hnoneq
    exact hgains (by simp [hnoneq])
  · intro hnoneq
    constructor
    · rintro ⟨hsame, -⟩
      by_contra hnone
      push Not at hnone
      have hlength := (hgains fun _ => hnone).inserted.length
      rw [hsame] at hlength
      omega
    · intro hequal
      have hsame : (plain.push (some order) data).elements = plain.elements := by
        rw [PlainList.push, hnoneq]
        exact insertOrdered_refused horder hsorted hequal
      refine ⟨hsame, ?_⟩
      rw [hfinal.represents.len, hlist.represents.len, hsame]
  · intro _ hfree
    exact hgains fun _ => hfree

variable [BEq T]

/-- **An ordered push is a stable sorted insertion**, whatever one thread has done to the list
before. -/
theorem stays_sorted_sequential (horder : TotalPreorder order) {ops : List (Op T)}
    {answers : List (Answer T)} {list : SharedList T} (hrun : Runs (some order) new ops answers list) :
    ∃ xs, list.Represents xs ∧ Sorted order xs ∧
      ∀ data, ∃ final ys, PushesSorted order list xs data final ys := by
  obtain ⟨final, hrun', hfinal⟩ := run_performs (some order) new_shows ops
  obtain ⟨rfl, -⟩ := hrun.deterministic hrun'
  have hempty : Sorted order (PlainList.empty : PlainList T).elements := List.Pairwise.nil
  have hsorted := PlainList.sorted_run horder hempty ops
  exact ⟨_, hfinal.represents, hsorted, push_sorted horder hfinal hsorted⟩

/-- With equal elements from before the flag was set, and after a removal. -/
theorem stays_sorted_sequential_removed :
    ∃ answers list xs,
      Runs (some ascending) new [.push 3, .push 1, .push 3, .remove 1, .setEnforceNoneq true]
        answers list ∧
      list.Represents xs ∧ Sorted ascending xs ∧
      ∀ data, ∃ final ys, PushesSorted ascending list xs data final ys := by
  obtain ⟨list, hrun, -⟩ := run_performs (some ascending) new_shows
    [.push 3, .push 1, .push 3, .remove 1, .setEnforceNoneq true]
  obtain ⟨xs, hlist⟩ := stays_sorted_sequential ascending_totalPreorder hrun
  exact ⟨_, list, xs, hrun, hlist⟩

end SharedList

end Mutual
