import Mutual.Proof.Sequential

/-!
# remove_count takes out the first matches

After a match the loop stays at its slot, which has got the content of the next one, and after a
miss it goes on. In both cases the next element is the next one of the list.
-/

namespace Mutual

variable {T : Type}

/-- The elements to which `func` answers `answer`, when it is called with all of them in order. -/
def answering (func : List T → T → Bool) (answer : Bool) : List T → List T → List T
  | _, [] => []
  | seen, entry :: rest =>
      if func seen entry = answer then entry :: answering func answer (seen ++ [entry]) rest
      else answering func answer (seen ++ [entry]) rest

/-- `called` are the elements of `xs` up to the one that is the last of `count` matches, or all of
them. -/
structure CalledUntil (func : List T → T → Bool) (seen : List T) (count : Nat)
    (xs called : List T) : Prop where
  inOrder : called <+: xs
  stops : called = xs ∨ (answering func true seen called).length = count
  goesOn : ∀ before, before <+: called → before ≠ called →
    (answering func true seen before).length < count

section Lists

variable (func : List T → T → Bool) (seen : List T) (count : Nat) (xs : List T)

theorem length_answering :
    (answering func true seen xs).length + (answering func false seen xs).length = xs.length := by
  induction xs generalizing seen with
  | nil => rfl
  | cons entry rest ih =>
      have hrest := ih (seen ++ [entry])
      cases hfunc : func seen entry <;> simp [answering, hfunc] <;> omega

theorem takeOut_fst :
    (takeOut func seen count xs).1 = (answering func true seen xs).take count := by
  induction xs generalizing seen count with
  | nil => simp [takeOut, answering]
  | cons entry rest ih =>
      cases count with
      | zero => simp [takeOut]
      | succ count => cases hfunc : func seen entry <;> simp [takeOut, answering, hfunc, ih]

/-- What is taken out and what is kept, by the answers for the elements examined. -/
theorem takeOut_examined :
    takeOut func seen count xs =
      (answering func true seen (examined func seen count xs),
        answering func false seen (examined func seen count xs) ++
          xs.drop (examined func seen count xs).length) := by
  induction xs generalizing seen count with
  | nil => simp [takeOut, examined, answering]
  | cons entry rest ih =>
      cases count with
      | zero => simp [takeOut, examined, answering]
      | succ count =>
          cases hfunc : func seen entry <;> simp [takeOut, examined, answering, hfunc, ih]

theorem examined_calledUntil : CalledUntil func seen count xs (examined func seen count xs) := by
  induction xs generalizing seen count with
  | nil =>
      refine ⟨by simp [examined], .inl (by simp [examined]), ?_⟩
      intro before hbefore hne
      simp only [examined, List.prefix_nil, ne_eq] at hbefore hne
      exact absurd hbefore hne
  | cons entry rest ih =>
      cases count with
      | zero =>
          refine ⟨by simp [examined], .inr (by simp [examined, answering]), ?_⟩
          intro before hbefore hne
          simp only [examined, List.prefix_nil, ne_eq] at hbefore hne
          exact absurd hbefore hne
      | succ count =>
          have hrest := ih (seen ++ [entry]) (if func seen entry then count else count + 1)
          rw [examined]
          refine ⟨?_, ?_, ?_⟩
          · exact List.cons_prefix_cons.mpr ⟨rfl, hrest.inOrder⟩
          · refine hrest.stops.imp (congrArg _) fun hstops => ?_
            cases hfunc : func seen entry <;> simpa [answering, hfunc] using hstops
          · intro before hbefore hne
            cases before with
            | nil => exact Nat.succ_pos count
            | cons first before =>
                obtain ⟨rfl, hbefore⟩ := List.cons_prefix_cons.mp hbefore
                have hlt := hrest.goesOn before hbefore fun heq => hne (congrArg _ heq)
                cases hfunc : func seen first <;> simpa [answering, hfunc] using hlt

end Lists

theorem head?_answering (func : List T → T → Bool) (seen xs : List T) :
    (answering func true seen xs).head? = (firstMatch func seen xs).map Prod.snd := by
  rw [← takeOut_one, takeOut_fst]
  cases answering func true seen xs <;> rfl

namespace SharedList

open Concurrency

variable (orderFn : Option (T → T → Ordering))

/-- `remove_count` calls the predicate with the elements of `called`, in order and once each, and
removes those it answers `true` to. -/
structure RemovesFirst (list : SharedList T) (xs : List T) (func : List T → T → Bool)
    (count : UInt32) (called : List T) (final : SharedList T) : Prop where
  calledUntil : CalledUntil func [] count.toNat xs called
  runs : (object orderFn).Traces Consults (list, enter orderFn (.removeCount func count))
    (.seen [] :: consults [] called) (final, reply (.removed (answering func true [] called)))
  returned : answering func true [] called = (answering func true [] xs).take count.toNat
  represents : final.Represents (answering func false [] called ++ xs.drop called.length)
  len : final.len = list.len - UInt64.ofNat (answering func true [] called).length

theorem Represents.shows {list : SharedList T} {xs : List T} (hlist : list.Represents xs) :
    list.Shows { elements := xs, noneq := list.enforceNoneq } := ⟨hlist, rfl⟩

theorem removeCount_first {list : SharedList T} {xs : List T} (hlist : list.Represents xs)
    (func : List T → T → Bool) (count : UInt32) :
    ∃ called final, RemovesFirst orderFn list xs func count called final := by
  obtain ⟨final, hrun, hfinal, -⟩ := removeCount_traces orderFn hlist.shows func count
  have hrepresents := hfinal.represents
  simp only [PlainList.removeCount, takeOut_examined] at hrun hrepresents
  have hcalled := examined_calledUntil func [] count.toNat xs
  have hreturned := takeOut_fst func [] count.toNat xs
  rw [takeOut_examined] at hreturned
  generalize examined func [] count.toNat xs = called at hrun hrepresents hcalled hreturned
  refine ⟨called, final, hcalled, hrun, hreturned, hrepresents, ?_⟩
  obtain ⟨rest, rfl⟩ := hcalled.inOrder
  have hlength : (called ++ rest).length =
      (answering func false [] called ++ (called ++ rest).drop called.length).length +
        (answering func true [] called).length := by
    have hcount := length_answering func [] called
    rw [List.drop_left]
    simp only [List.length_append]
    omega
  rw [hrepresents.len, hlist.len, hlength, UInt64.ofNat_add]
  exact (UInt64.add_sub_cancel _ _).symm

variable {orderFn} in
/-- The first of the elements returned is the first match. -/
theorem RemovesFirst.first {list final : SharedList T} {xs called : List T}
    {func : List T → T → Bool} (hremoves : RemovesFirst orderFn list xs func 1 called final) :
    firstRemoved (answering func true [] called) = (firstMatch func [] xs).map Prod.snd := by
  have hreturned : answering func true [] called = (answering func true [] xs).take 1 :=
    hremoves.returned
  rw [firstRemoved_eq_head?, hreturned, ← head?_answering]
  cases answering func true [] xs <;> rfl

/-- **First matches.** `remove_count` calls the predicate with the elements in order, once each,
until it has met `count` of them, and removes exactly these. So `remove_all` returns all matches if
they are not more than `u32::MAX`, and `remove_search` and `remove` return the first one. -/
theorem removes_first_matches [BEq T] {list : SharedList T} {xs : List T}
    (hlist : list.Represents xs) (func : List T → T → Bool) :
    (∀ count, ∃ called final, RemovesFirst orderFn list xs func count called final) ∧
    ((answering func true [] xs).length ≤ 2 ^ 32 - 1 → ∃ final,
      (object orderFn).Completes list (enter orderFn (removeAll func)) final
        (.removed (answering func true [] xs))) ∧
    (∃ final output, (object orderFn).Completes list (enter orderFn (removeSearch func)) final
        (.removed output) ∧
      firstRemoved output = (answering func true [] xs).head?) ∧
    ∀ toRemove, ∃ final output,
      (object orderFn).Completes list (enter orderFn (remove toRemove)) final (.removed output) ∧
      firstRemoved output = xs.find? fun entry => entry == toRemove := by
  refine ⟨removeCount_first orderFn hlist func, ?_, ?_, ?_⟩
  · intro hmany
    obtain ⟨called, final, hremoves⟩ := removeCount_first orderFn hlist func 0xFFFFFFFF
    have hall : answering func true [] called = answering func true [] xs := by
      rw [hremoves.returned]
      exact List.take_of_length_le hmany
    have hrun := hremoves.runs.completes
    rw [hall] at hrun
    exact ⟨final, hrun⟩
  · obtain ⟨called, final, hremoves⟩ := removeCount_first orderFn hlist func 1
    refine ⟨final, _, hremoves.runs.completes, ?_⟩
    rw [hremoves.first, head?_answering]
  · intro toRemove
    obtain ⟨called, final, hremoves⟩ := removeCount_first orderFn hlist (fun _ entry => entry == toRemove) 1
    refine ⟨final, _, hremoves.runs.completes, ?_⟩
    rw [hremoves.first, firstMatch_find]

/-- Two matches in a row at the head, the second only because of the first. -/
theorem removes_first_matches_in_a_row :
    let func : List Nat → Nat → Bool := fun seen entry => seen.length < 2 || entry == 7
    answering func true [] [3, 5, 6, 7] = [3, 5, 7] ∧
    ∃ called final, RemovesFirst none (ofList [3, 5, 6, 7]) [3, 5, 6, 7] func 2 called final :=
  ⟨by decide, (removes_first_matches none (ofList_represents [3, 5, 6, 7]) _).1 2⟩

end SharedList

end Mutual
