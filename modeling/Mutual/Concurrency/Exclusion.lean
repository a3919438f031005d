import Mathlib.Data.List.Nodup
import Mathlib.Logic.Function.Basic

/-!
# Flags as locks

Each thread has a list of the flags it has set and not cleared yet. `Excludes` says that the flags
work as locks. A thread that sets a flag or clears it keeps this exactly if no other thread has the
flag, so a lock that does not ask who has it is as good as its callers.
-/

namespace Concurrency

variable {ι κ : Type*}

/-- No two threads have the same flag, and a flag a thread has is set. -/
structure Excludes (flag : κ → Bool) (held : ι → List κ) : Prop where
  exclusive : ∀ t u key, key ∈ held t → key ∈ held u → t = u
  flagged : ∀ t key, key ∈ held t → flag key = true

/-- A flag that is set belongs to a thread, which has it once. -/
structure Owns (flag : κ → Bool) (held : ι → List κ) : Prop extends Excludes flag held where
  owned : ∀ key, flag key = true → ∃ t, key ∈ held t
  nodup : ∀ t, (held t).Nodup

variable {flag : κ → Bool} {held : ι → List κ} {t : ι} {key : κ} {rest : List κ}

theorem Excludes.not_held (hw : Excludes flag held) (hfree : flag key = false) (u : ι) :
    key ∉ held u := by
  intro hkey
  rw [hw.flagged u key hkey] at hfree
  cases hfree

theorem Excludes.nil : Excludes flag fun _ : ι => [] where
  exclusive := by
    rintro t u key ⟨⟩
  flagged := by
    rintro t key ⟨⟩

theorem Owns.nil (hfree : ∀ key, flag key = false) : Owns flag fun _ : ι => [] where
  toExcludes := .nil
  owned := by
    intro key hkey
    rw [hfree key] at hkey
    cases hkey
  nodup := fun _ => List.nodup_nil

variable [DecidableEq κ] [DecidableEq ι]

namespace Excludes

/-- The thread sets the flag. -/
theorem acquire_iff (hw : Excludes flag held) :
    Excludes (Function.update flag key true) (Function.update held t (key :: held t)) ↔
      ∀ u, u ≠ t → key ∉ held u := by
  constructor
  · intro hafter u hut hu
    apply hut
    refine hafter.exclusive u t key ?_ ?_
    · rw [Function.update_of_ne hut]
      exact hu
    · rw [Function.update_self]
      exact List.mem_cons_self
  · intro hfree
    have hmem : ∀ u other, other ∈ Function.update held t (key :: held t) u →
        other ∈ held u ∨ u = t ∧ other = key := by
      intro u other hother
      by_cases hut : u = t
      · rw [hut, Function.update_self, List.mem_cons] at hother
        rcases hother with hother | hother
        · exact .inr ⟨hut, hother⟩
        · exact .inl (hut ▸ hother)
      · rw [Function.update_of_ne hut] at hother
        exact .inl hother
    have hself : ∀ u, key ∈ held u → u = t := by
      intro u hu
      by_contra hut
      exact hfree u hut hu
    constructor
    · intro u v other hu hv
      rcases hmem u other hu with hu | ⟨hut, hother⟩ <;>
        rcases hmem v other hv with hv | ⟨hvt, hother'⟩
      · exact hw.exclusive u v other hu hv
      · rw [hvt]
        exact hself u (hother' ▸ hu)
      · rw [hut]
        exact (hself v (hother ▸ hv)).symm
      · rw [hut, hvt]
    · intro u other hother
      by_cases hkey : other = key
      · rw [hkey, Function.update_self]
      · rw [Function.update_of_ne hkey]
        rcases hmem u other hother with hold | ⟨-, hsame⟩
        · exact hw.flagged u other hold
        · exact absurd hsame hkey

omit [DecidableEq ι] in
/-- A flag that nobody has may change. -/
theorem change (hw : Excludes flag held) (hfree : ∀ u, key ∉ held u) (value : Bool) :
    Excludes (Function.update flag key value) held where
  exclusive := hw.exclusive
  flagged := by
    intro u other hother
    rw [Function.update_of_ne (ne_of_mem_of_not_mem hother (hfree u))]
    exact hw.flagged u other hother

/-- The thread clears the flag, and has `rest` from then on. -/
theorem release_iff (hw : Excludes flag held) (hrest : key ∉ rest)
    (hsubset : ∀ other ∈ rest, other ∈ held t) :
    Excludes (Function.update flag key false) (Function.update held t rest) ↔
      ∀ u, u ≠ t → key ∉ held u := by
  constructor
  · intro hafter u hut hu
    have hflag := hafter.flagged u key (by rwa [Function.update_of_ne hut])
    rw [Function.update_self] at hflag
    cases hflag
  · intro hfree
    have hmem : ∀ u other, other ∈ Function.update held t rest u →
        other ∈ held u ∧ other ≠ key := by
      intro u other hother
      by_cases hut : u = t
      · rw [hut, Function.update_self] at hother
        rw [hut]
        exact ⟨hsubset other hother, ne_of_mem_of_not_mem hother hrest⟩
      · rw [Function.update_of_ne hut] at hother
        exact ⟨hother, ne_of_mem_of_not_mem hother (hfree u hut)⟩
    constructor
    · intro u v other hu hv
      exact hw.exclusive u v other (hmem u other hu).1 (hmem v other hv).1
    · intro u other hother
      obtain ⟨hold, hkey⟩ := hmem u other hother
      rw [Function.update_of_ne hkey]
      exact hw.flagged u other hold

end Excludes

namespace Owns

/-- The thread takes a lock that is free. -/
theorem acquire (hw : Owns flag held) (hfree : flag key = false) :
    Owns (Function.update flag key true) (Function.update held t (key :: held t)) where
  toExcludes := hw.acquire_iff.mpr fun u _ => hw.not_held hfree u
  owned := by
    intro other hother
    by_cases hkey : other = key
    · refine ⟨t, ?_⟩
      rw [hkey, Function.update_self]
      exact List.mem_cons_self
    · rw [Function.update_of_ne hkey] at hother
      obtain ⟨u, hu⟩ := hw.owned other hother
      refine ⟨u, ?_⟩
      by_cases hut : u = t
      · rw [hut, Function.update_self]
        exact List.mem_cons_of_mem _ (hut ▸ hu)
      · rwa [Function.update_of_ne hut]
  nodup := by
    exact (Function.forall_update_iff held fun _ keys => keys.Nodup).mpr
      ⟨List.nodup_cons.mpr ⟨hw.not_held hfree t, hw.nodup t⟩, fun u _ => hw.nodup u⟩

omit [DecidableEq κ] in
/-- What clearing the flag means to the other threads depends on whether the thread has it. -/
theorem others_iff (hw : Owns flag held) :
    (∀ u, u ≠ t → key ∉ held u) ↔ key ∈ held t ∨ flag key = false := by
  constructor
  · intro hothers
    cases hflag : flag key with
    | false => exact .inr rfl
    | true =>
        obtain ⟨u, hu⟩ := hw.owned key hflag
        by_cases hut : u = t
        · exact .inl (hut ▸ hu)
        · exact absurd hu (hothers u hut)
  · rintro (hheld | hfree) u hut hu
    · exact hut (hw.exclusive u t key hu hheld)
    · exact hw.not_held hfree u hu

theorem release_iff (hw : Owns flag held) :
    Excludes (Function.update flag key false) (Function.update held t ((held t).erase key)) ↔
      key ∈ held t ∨ flag key = false := by
  rw [hw.toExcludes.release_iff (hw.nodup t).not_mem_erase fun _ => List.mem_of_mem_erase]
  exact hw.others_iff

theorem release (hw : Owns flag held) (hclean : key ∈ held t ∨ flag key = false) :
    Owns (Function.update flag key false)
      (Function.update held t ((held t).erase key)) where
  toExcludes := hw.release_iff.mpr hclean
  owned := by
    intro other hother
    by_cases hkey : other = key
    · rw [hkey, Function.update_self] at hother
      cases hother
    · rw [Function.update_of_ne hkey] at hother
      obtain ⟨u, hu⟩ := hw.owned other hother
      refine ⟨u, ?_⟩
      by_cases hut : u = t
      · rw [hut, Function.update_self, List.mem_erase_of_ne hkey]
        exact hut ▸ hu
      · rwa [Function.update_of_ne hut]
  nodup := by
    exact (Function.forall_update_iff held fun _ keys => keys.Nodup).mpr
      ⟨(hw.nodup t).erase key, fun u _ => hw.nodup u⟩

omit [DecidableEq ι] in
/-- A flag that nobody has is cleared. -/
theorem reset (hw : Owns flag held) (hfree : ∀ u, key ∉ held u) :
    Owns (Function.update flag key false) held := by
  classical
  have hcleared : flag key = false := by
    by_contra hflag
    obtain ⟨u, hu⟩ := hw.owned key (by simpa using hflag)
    exact hfree u hu
  rw [← hcleared, Function.update_eq_self]
  exact hw

end Owns

end Concurrency
