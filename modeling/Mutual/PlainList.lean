import Mathlib.Algebra.Group.Nat.Defs

/-!
# What a SharedList is for

A list of elements, with the flag that makes an ordered insertion refuse equal elements. Predicates
are given the elements they have been called with before.
-/

namespace Mutual

structure PlainList (T : Type) where
  elements : List T
  noneq : Bool

variable {T : Type}

/-- Before the first element that the order puts behind `data`; nowhere, if an element equal to
`data` comes first and `noneq` is set. -/
def insertOrdered (orderFn : T → T → Ordering) (noneq : Bool) (data : T) : List T → List T
  | [] => [data]
  | entry :: rest =>
      if noneq && orderFn entry data == .eq then entry :: rest
      else if orderFn entry data == .lt then data :: entry :: rest
      else entry :: insertOrdered orderFn noneq data rest

/-- The first `count` elements that meet `func`, and the other elements. -/
def takeOut (func : List T → T → Bool) : List T → Nat → List T → List T × List T
  | _, _, [] => ([], [])
  | _, 0, rest => ([], rest)
  | seen, count + 1, entry :: rest =>
      if func seen entry then
        let (removed, kept) := takeOut func (seen ++ [entry]) count rest
        (entry :: removed, kept)
      else
        let (removed, kept) := takeOut func (seen ++ [entry]) (count + 1) rest
        (removed, entry :: kept)

/-- The elements `func` is called with until `count` of them have met it. -/
def examined (func : List T → T → Bool) : List T → Nat → List T → List T
  | _, _, [] => []
  | _, 0, _ => []
  | seen, count + 1, entry :: rest =>
      entry :: examined func (seen ++ [entry]) (if func seen entry then count else count + 1) rest

/-- The first element that meets `func`, after the elements that do not. -/
def firstMatch (func : List T → T → Bool) : List T → List T → Option (List T × T)
  | _, [] => none
  | seen, entry :: rest =>
      if func seen entry then some (seen, entry) else firstMatch func (seen ++ [entry]) rest

def firstImage {O : Type} (func : List T → T → Option O) : List T → List T → Option O
  | _, [] => none
  | seen, entry :: rest =>
      match func seen entry with
      | some image => some image
      | none => firstImage func (seen ++ [entry]) rest

inductive Op (T : Type) where
  | push (data : T)
  | extend (iter : List T)
  | setEnforceNoneq (enforceNoneq : Bool)
  | pop
  | drainNext
  | removeCount (func : List T → T → Bool) (count : UInt32)
  | removeAll (func : List T → T → Bool)
  | removeSearch (func : List T → T → Bool)
  | remove (toRemove : T)

inductive Answer (T : Type) where
  | unit
  | entry (data : Option T)
  | entries (output : List T)

namespace PlainList

def empty : PlainList T := { elements := [], noneq := false }

def push (orderFn : Option (T → T → Ordering)) (data : T) (list : PlainList T) : PlainList T :=
  match orderFn with
  | none => { list with elements := data :: list.elements }
  | some orderFn => { list with elements := insertOrdered orderFn list.noneq data list.elements }

def pop (list : PlainList T) : PlainList T × Option T :=
  ({ list with elements := list.elements.tail }, list.elements.head?)

def removeCount (func : List T → T → Bool) (count : Nat) (list : PlainList T) :
    PlainList T × List T :=
  let (removed, kept) := takeOut func [] count list.elements
  ({ list with elements := kept }, removed)

def setEnforceNoneq (enforceNoneq : Bool) (list : PlainList T) : PlainList T :=
  { list with noneq := enforceNoneq }

def removeSearch (func : List T → T → Bool) (list : PlainList T) : PlainList T × Option T :=
  ((list.removeCount func 1).1, (firstMatch func [] list.elements).map Prod.snd)

def apply [BEq T] (orderFn : Option (T → T → Ordering)) (list : PlainList T) :
    Op T → PlainList T × Answer T
  | .push data => (list.push orderFn data, .unit)
  | .extend iter => (iter.foldl (fun list data => list.push orderFn data) list, .unit)
  | .setEnforceNoneq enforceNoneq => (list.setEnforceNoneq enforceNoneq, .unit)
  | .pop | .drainNext => (list.pop.1, .entry list.pop.2)
  | .removeCount func count =>
      ((list.removeCount func count.toNat).1, .entries (list.removeCount func count.toNat).2)
  -- the code stops after `u32::MAX` elements
  | .removeAll func =>
      ((list.removeCount func (2 ^ 32 - 1)).1, .entries (list.removeCount func (2 ^ 32 - 1)).2)
  | .removeSearch func => ((list.removeSearch func).1, .entry (list.removeSearch func).2)
  | .remove toRemove =>
      let (kept, removed) := list.removeSearch fun _ entry => entry == toRemove
      (kept, .entry removed)

def run [BEq T] (orderFn : Option (T → T → Ordering)) :
    PlainList T → List (Op T) → PlainList T × List (Answer T)
  | list, [] => (list, [])
  | list, op :: ops =>
      let (next, answer) := list.apply orderFn op
      let (final, answers) := next.run orderFn ops
      (final, answer :: answers)

end PlainList

/-- An insertion keeps the order of the elements that are there. -/
theorem insertOrdered_cases (orderFn : T → T → Ordering) (noneq : Bool) (data : T) (xs : List T) :
    insertOrdered orderFn noneq data xs = xs ∨ ∃ xs₁ xs₂, xs = xs₁ ++ xs₂ ∧
      insertOrdered orderFn noneq data xs = xs₁ ++ data :: xs₂ := by
  induction xs with
  | nil => exact .inr ⟨[], [], rfl, rfl⟩
  | cons entry rest ih =>
      unfold insertOrdered
      split
      · exact .inl rfl
      · split
        · exact .inr ⟨[], entry :: rest, rfl, rfl⟩
        · rcases ih with ih | ⟨xs₁, xs₂, rfl, ih⟩
          · rw [ih]
            exact .inl rfl
          · rw [ih]
            exact .inr ⟨entry :: xs₁, xs₂, rfl, rfl⟩

theorem takeOut_sublist (func : List T → T → Bool) (seen : List T) (count : Nat) (xs : List T) :
    (takeOut func seen count xs).2.Sublist xs := by
  fun_induction takeOut func seen count xs with
  | case1 => exact .refl _
  | case2 => exact .refl _
  | case3 seen count entry rest hfunc removed kept htake ih =>
      rw [htake] at ih
      exact ih.trans (List.sublist_cons_self ..)
  | case4 seen count entry rest hfunc removed kept htake ih =>
      rw [htake] at ih
      exact ih.cons_cons entry

/-- All elements that meet `func` are taken out, if there are not more than `count` of them. -/
theorem takeOut_eq_filter (func : T → Bool) (seen : List T) (count : Nat) (xs : List T)
    (hcount : (xs.filter func).length ≤ count) :
    takeOut (fun _ => func) seen count xs = (xs.filter func, xs.filter fun entry => !func entry) := by
  induction xs generalizing seen count with
  | nil => simp [takeOut]
  | cons entry rest ih =>
      by_cases hfunc : func entry = true
      · rw [List.filter_cons_of_pos hfunc, List.length_cons] at hcount
        obtain ⟨count, rfl⟩ := Nat.exists_eq_add_one_of_ne_zero (Nat.ne_of_gt (Nat.zero_lt_of_lt hcount))
        simp [takeOut, hfunc, ih (seen ++ [entry]) count (Nat.le_of_succ_le_succ hcount)]
      · rw [List.filter_cons_of_neg hfunc] at hcount
        cases count with
        | zero =>
            have hnone : rest.filter func = [] := List.length_eq_zero_iff.mp (Nat.le_zero.mp hcount)
            have hall : rest.filter (fun entry => !func entry) = rest := by
              rw [List.filter_eq_self]
              intro other hother
              simpa using List.filter_eq_nil_iff.mp hnone other hother
            simp [takeOut, hfunc, hnone, hall]
        | succ count => simp [takeOut, hfunc, ih (seen ++ [entry]) (count + 1) hcount]

theorem takeOut_one (func : List T → T → Bool) (seen xs : List T) :
    (takeOut func seen 1 xs).1.head? = (firstMatch func seen xs).map Prod.snd := by
  induction xs generalizing seen with
  | nil => rfl
  | cons entry rest ih =>
      by_cases hfunc : func seen entry = true
      · simp [takeOut, firstMatch, hfunc]
      · simp [takeOut, firstMatch, hfunc, ih]

theorem firstImage_eq {O : Type} (func : List T → T → Option O) (seen xs : List T) :
    firstImage func seen xs =
      (firstMatch (fun seen entry => (func seen entry).isSome) seen xs).bind fun found =>
        func found.1 found.2 := by
  induction xs generalizing seen with
  | nil => rfl
  | cons entry rest ih =>
      cases hfunc : func seen entry with
      | none => simp [firstImage, firstMatch, hfunc, ih]
      | some image => simp [firstImage, firstMatch, hfunc]

/-! ### Predicates that do not depend on what they have seen -/

theorem firstMatch_find (func : T → Bool) (seen xs : List T) :
    (firstMatch (fun _ => func) seen xs).map Prod.snd = xs.find? func := by
  induction xs generalizing seen with
  | nil => rfl
  | cons entry rest ih =>
      by_cases hfunc : func entry = true
      · simp [firstMatch, hfunc]
      · simp [firstMatch, hfunc, ih]

theorem firstMatch_isSome (func : T → Bool) (seen xs : List T) :
    (firstMatch (fun _ => func) seen xs).isSome = xs.any func := by
  rw [← Option.isSome_map (f := Prod.snd), firstMatch_find, List.isSome_find?]

end Mutual
