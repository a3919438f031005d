import Mathlib.Data.Finset.Card
import Mathlib.Data.List.Chain
import Mathlib.Order.Max
import Mutual.Data.Chain

/-!
# Graded cells

Linked cells that several writers edit, with what is true of a cell for good: the element that comes
before it, and a rank that grows along the links. A writer that has seen a content somewhere knows
where it fits, however much the memory has changed since, so that stores of old contents can be
judged too. Elements that are next to each other are related by `R`.
-/

namespace Data

variable {κ α β : Type*}

structure Grading (κ α β : Type*) where
  pred : κ → Option α
  rank : κ → β

namespace Grading

section Fits

variable [Preorder β] (g : Grading κ α β) (R : α → α → Prop)

/-- The content may stand in the cell. -/
def Fits (cell : κ) (content : Option (α × κ)) : Prop :=
  ∀ x next, content = some (x, next) →
    g.pred next = some x ∧ g.rank cell < g.rank next ∧ ∀ p, g.pred cell = some p → R p x

def Grades (link : κ → Option (α × κ)) : Prop := ∀ cell, g.Fits R cell (link cell)

variable {g R} {cell fresh next : κ} {content : Option (α × κ)} {x : α}

theorem Fits.none : g.Fits R cell none := by
  intro x next hcontent
  cases hcontent

/-- What fits behind an element fits in its place. -/
theorem Fits.skip (htrans : ∀ a b c, R a b → R b c → R a c)
    (hcell : g.Fits R cell (some (x, next))) (hnext : g.Fits R next content) :
    g.Fits R cell content := by
  intro y other hcontent
  obtain ⟨hpred, hrank, hbefore⟩ := hcell x next rfl
  obtain ⟨hother, hrank', hafter⟩ := hnext y other hcontent
  refine ⟨hother, hrank.trans hrank', fun p hp => ?_⟩
  exact htrans p x y (hbefore p hp) (hafter x hpred)

theorem Fits.next_ne (hfits : g.Fits R cell (some (x, next))) (hfresh : g.pred fresh = .none) :
    next ≠ fresh := by
  rintro rfl
  rw [(hfits x _ rfl).1] at hfresh
  cases hfresh

variable [DecidableEq κ]

/-! ### A fresh cell -/

/-- The cell is given a rank. -/
def place (g : Grading κ α β) (fresh : κ) (rank : β) : Grading κ α β :=
  { g with rank := Function.update g.rank fresh rank }

/-- The cell is given the element before it. -/
def claim (g : Grading κ α β) (fresh : κ) (x : α) : Grading κ α β :=
  { g with pred := Function.update g.pred fresh (some x) }

omit [Preorder β] in
@[simp] theorem place_pred (rank : β) : (g.place fresh rank).pred = g.pred := rfl

omit [Preorder β] in
@[simp] theorem place_rank (rank : β) :
    (g.place fresh rank).rank = Function.update g.rank fresh rank := rfl

omit [Preorder β] in
@[simp] theorem claim_pred : (g.claim fresh x).pred = Function.update g.pred fresh (some x) := rfl

omit [Preorder β] in
@[simp] theorem claim_rank : (g.claim fresh x).rank = g.rank := rfl

theorem Fits.place (hfits : g.Fits R cell content) (hfresh : g.pred fresh = .none)
    (hcell : cell ≠ fresh) (rank : β) : (g.place fresh rank).Fits R cell content := by
  intro x next hcontent
  subst hcontent
  have hnext := hfits.next_ne hfresh
  obtain ⟨hpred, hrank, hbefore⟩ := hfits x next rfl
  refine ⟨hpred, ?_, hbefore⟩
  rwa [place_rank, Function.update_of_ne hcell, Function.update_of_ne hnext]

/-- A fresh cell can get a content that fits in another cell, and a rank behind that cell. -/
theorem Fits.copy [DenselyOrdered β] [NoMaxOrder β] (hfits : g.Fits R cell content)
    (hfresh : g.pred fresh = .none) : ∃ rank, g.rank cell < rank ∧
      (g.place fresh rank).Fits R fresh content := by
  cases content with
  | none =>
      obtain ⟨rank, hrank⟩ := exists_gt (g.rank cell)
      exact ⟨rank, hrank, .none⟩
  | some entry =>
      obtain ⟨x, next⟩ := entry
      have hnext := hfits.next_ne hfresh
      obtain ⟨hpred, hrank, -⟩ := hfits x next rfl
      obtain ⟨rank, hbelow, habove⟩ := exists_between hrank
      refine ⟨rank, hbelow, ?_⟩
      intro y other hcontent
      cases hcontent
      refine ⟨hpred, ?_, ?_⟩
      · rwa [place_rank, Function.update_self, Function.update_of_ne hnext]
      · intro p hp
        rw [place_pred, hfresh] at hp
        cases hp

theorem Fits.claim (hfits : g.Fits R cell content) (hfresh : g.pred fresh = .none)
    (hcell : cell ≠ fresh) (x : α) : (g.claim fresh x).Fits R cell content := by
  intro y next hcontent
  subst hcontent
  have hnext := hfits.next_ne hfresh
  obtain ⟨hpred, hrank, hbefore⟩ := hfits y next rfl
  refine ⟨?_, hrank, ?_⟩
  · rwa [claim_pred, Function.update_of_ne hnext]
  · rwa [claim_pred, Function.update_of_ne hcell]

theorem Fits.claim_self (hfits : g.Fits R fresh content) (hfresh : g.pred fresh = .none)
    (hcontent : ∀ y next, content = some (y, next) → R x y) :
    (g.claim fresh x).Fits R fresh content := by
  intro y next heq
  subst heq
  have hnext := hfits.next_ne hfresh
  obtain ⟨hpred, hrank, -⟩ := hfits y next rfl
  refine ⟨?_, hrank, ?_⟩
  · rwa [claim_pred, Function.update_of_ne hnext]
  · intro p hp
    rw [claim_pred, Function.update_self, Option.some.injEq] at hp
    rw [← hp]
    exact hcontent y next rfl

/-- A new element fits in a cell if it belongs behind the element before the cell. -/
theorem fits_claimed (hcell : cell ≠ fresh) (hrank : g.rank cell < g.rank fresh)
    (hbefore : ∀ p, g.pred cell = some p → R p x) :
    (g.claim fresh x).Fits R cell (some (x, fresh)) := by
  intro y next heq
  cases heq
  refine ⟨Function.update_self .., hrank, ?_⟩
  rwa [claim_pred, Function.update_of_ne hcell]

theorem Grades.update {link : κ → Option (α × κ)} (hgrades : g.Grades R link)
    (hfits : g.Fits R cell content) : g.Grades R (Function.update link cell content) :=
  (Function.forall_update_iff link (fun cell => g.Fits R cell)).mpr
    ⟨hfits, fun other _ => hgrades other⟩

end Fits

/-! ### The chain from a cell on -/

section Chain

variable [Preorder β] {g : Grading κ α β} {R : α → α → Prop} {link : κ → Option (α × κ)}

theorem Grades.isChain (hgrades : g.Grades R link) {key : κ} {keys : List κ} {xs : List α}
    (hchain : Chain link (key :: keys) xs) :
    List.IsChain R xs ∧ ∀ p, g.pred key = some p → ∀ x ∈ xs.head?, R p x := by
  induction keys generalizing key xs with
  | nil =>
      match xs, hchain with
      | [], _ => exact ⟨.nil, by simp⟩
  | cons next keys ih =>
      match xs, hchain with
      | x :: xs, hchain =>
          obtain ⟨hnext, -, hbefore⟩ := hgrades key x next hchain.1
          obtain ⟨hrest, hfirst⟩ := ih hchain.2
          refine ⟨List.isChain_cons.mpr ⟨hfirst x hnext, hrest⟩, ?_⟩
          intro p hp y hy
          cases hy
          exact hbefore p hp

/-- The ranks grow along a chain, so that no cell comes twice. -/
theorem Grades.rank_lt (hgrades : g.Grades R link) {keys : List κ} {xs : List α}
    (hchain : Chain link keys xs) : keys.IsChain fun key next => g.rank key < g.rank next := by
  induction keys generalizing xs with
  | nil => exact .nil
  | cons key keys ih =>
      match keys, xs, hchain with
      | [], [], _ => exact .singleton key
      | next :: keys, x :: xs, hchain =>
          obtain ⟨-, hrank, -⟩ := hgrades key x next hchain.1
          exact List.isChain_cons_cons.mpr ⟨hrank, ih hchain.2⟩

theorem Grades.nodup (hgrades : g.Grades R link) {keys : List κ} {xs : List α}
    (hchain : Chain link keys xs) : keys.Nodup := by
  have hranks : (keys.map g.rank).IsChain (· < ·) :=
    (List.isChain_map g.rank).mpr (hgrades.rank_lt hchain)
  exact List.Nodup.of_map g.rank (hranks.pairwise.imp ne_of_lt)

/-- The elements of a chain come before cells. -/
theorem Grades.exists_pred (hgrades : g.Grades R link) {keys : List κ} {xs : List α}
    (hchain : Chain link keys xs) {x : α} (hx : x ∈ xs) : ∃ next, g.pred next = some x := by
  induction keys generalizing xs with
  | nil => exact hchain.elim
  | cons key keys ih =>
      match keys, xs, hchain with
      | [], [], _ => cases hx
      | next :: keys, first :: xs, hchain =>
          rcases List.mem_cons.mp hx with rfl | hx
          · exact ⟨next, (hgrades key x next hchain.1).1⟩
          · exact ih hchain.2 hx

/-- Finitely many cells are used up along the links. -/
theorem Grades.exists_chain (hgrades : g.Grades R link) (cells : Finset κ)
    (hclosed : ∀ cell ∈ cells, ∀ x next, link cell = some (x, next) → next ∈ cells) {key : κ}
    (hkey : key ∈ cells) : ∃ keys xs, Chain link (key :: keys) xs := by
  classical
  generalize hcount : (cells.filter fun cell => g.rank key < g.rank cell).card = count
  induction count using Nat.strong_induction_on generalizing key with
  | _ count ih =>
      cases hlink : link key with
      | none => exact ⟨[], [], hlink⟩
      | some entry =>
          obtain ⟨x, next⟩ := entry
          have hnext := hclosed key hkey x next hlink
          obtain ⟨-, hrank, -⟩ := hgrades key x next hlink
          have hfewer : (cells.filter fun cell => g.rank next < g.rank cell).card < count := by
            rw [← hcount]
            apply Finset.card_lt_card
            refine (Finset.ssubset_iff_of_subset ?_).mpr ⟨next, ?_, ?_⟩
            · intro cell hcell
              rw [Finset.mem_filter] at hcell ⊢
              exact ⟨hcell.1, hrank.trans hcell.2⟩
            · exact Finset.mem_filter.mpr ⟨hnext, hrank⟩
            · exact fun hmem => lt_irrefl _ (Finset.mem_filter.mp hmem).2
          obtain ⟨keys, xs, hchain⟩ := ih _ hfewer hnext rfl
          exact ⟨next :: keys, x :: xs, hlink, hchain⟩

end Chain

end Grading

end Data
