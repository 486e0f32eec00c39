import Mathlib

/-! # Ownership — every resource in use has one owner

    Resources are handed out and taken back, and a number that was taken back
    can be handed out again.  `Owned` says that what is in use is what the
    owners hold, each piece held once: nobody holds what was taken back, and
    nothing in use is held by nobody. -/

namespace Ownership

variable {I R : Type} [DecidableEq I] [DecidableEq R]

/-- What is in use, and what each owner holds. -/
structure Owned (inUse : Finset R) (holds : I → Option R) : Prop where
  held : ∀ i r, holds i = some r → r ∈ inUse
  alone : ∀ i j r, holds i = some r → holds j = some r → i = j
  covered : ∀ r ∈ inUse, ∃ i, holds i = some r

variable {inUse : Finset R} {holds : I → Option R} {i : I} {r : R}

omit [DecidableEq I] [DecidableEq R] in
/-- In the beginning nobody holds anything. -/
theorem Owned.initial : Owned (∅ : Finset R) (fun _ : I => none) where
  held := fun _ r h => absurd h.symm (Option.some_ne_none r)
  alone := fun _ _ r h _ => absurd h.symm (Option.some_ne_none r)
  covered := fun _ hmem => absurd hmem (Finset.notMem_empty _)

/-- One that is not in use is handed to an owner without any. -/
theorem Owned.acquire (h : Owned inUse holds) (hfree : r ∉ inUse)
    (hnone : holds i = none) :
    Owned (insert r inUse) (Function.update holds i (some r)) where
  held := by
    intro j q hj
    by_cases heq : j = i
    · subst heq
      rw [Function.update_self] at hj
      rw [← Option.some.inj hj]
      exact Finset.mem_insert_self _ _
    · rw [Function.update_of_ne heq] at hj
      exact Finset.mem_insert_of_mem (h.held j q hj)
  alone := by
    -- what the others hold is in use, and the new one was not
    have hother : ∀ j q, j ≠ i → holds j = some q → q ≠ r := by
      rintro j q - hj rfl
      exact hfree (h.held j q hj)
    intro j k q hj hk
    by_cases hji : j = i <;> by_cases hki : k = i
    · rw [hji, hki]
    · subst hji
      rw [Function.update_self] at hj
      rw [Function.update_of_ne hki] at hk
      exact absurd (Option.some.inj hj).symm (hother k q hki hk)
    · subst hki
      rw [Function.update_self] at hk
      rw [Function.update_of_ne hji] at hj
      exact absurd (Option.some.inj hk).symm (hother j q hji hj)
    · rw [Function.update_of_ne hji] at hj
      rw [Function.update_of_ne hki] at hk
      exact h.alone j k q hj hk
  covered := by
    intro q hq
    rcases Finset.mem_insert.mp hq with rfl | hq
    · exact ⟨i, Function.update_self ..⟩
    · obtain ⟨j, hj⟩ := h.covered q hq
      have hne : j ≠ i := by
        rintro rfl
        rw [hnone] at hj
        cases hj
      exact ⟨j, (Function.update_of_ne hne _ _).trans hj⟩

/-- An owner gives back what it holds. -/
theorem Owned.release (h : Owned inUse holds) (hi : holds i = some r) :
    Owned (inUse.erase r) (Function.update holds i none) where
  held := by
    intro j q hj
    have hne : j ≠ i := by
      rintro rfl
      rw [Function.update_self] at hj
      cases hj
    rw [Function.update_of_ne hne] at hj
    refine Finset.mem_erase.mpr ⟨?_, h.held j q hj⟩
    rintro rfl
    exact hne (h.alone j i q hj hi)
  alone := by
    have hsame : ∀ j q, Function.update holds i none j = some q →
        holds j = some q := by
      intro j q hj
      by_cases heq : j = i
      · subst heq
        rw [Function.update_self] at hj
        cases hj
      · rw [Function.update_of_ne heq] at hj
        exact hj
    intro j k q hj hk
    exact h.alone j k q (hsame j q hj) (hsame k q hk)
  covered := by
    intro q hq
    obtain ⟨hne, hq⟩ := Finset.mem_erase.mp hq
    obtain ⟨j, hj⟩ := h.covered q hq
    refine ⟨j, (Function.update_of_ne ?_ _ _).trans hj⟩
    rintro rfl
    rw [hi] at hj
    exact hne (Option.some.inj hj).symm

omit [DecidableEq I] [DecidableEq R] in
/-- **THE BALANCE**: as many are in use as there are owners that hold one. -/
theorem Owned.card (h : Owned inUse holds) {owners : Finset I}
    (howners : ∀ i, i ∈ owners ↔ (holds i).isSome) :
    inUse.card = owners.card := by
  refine Finset.card_bij (fun r hr => (h.covered r hr).choose) ?_ ?_ ?_
  · intro r hr
    rw [howners, (h.covered r hr).choose_spec]
    rfl
  · intro r hr q hq heq
    have hq' := (h.covered q hq).choose_spec
    rw [← heq, (h.covered r hr).choose_spec] at hq'
    exact Option.some.inj hq'
  · intro i hi
    obtain ⟨r, hr⟩ := Option.isSome_iff_exists.mp ((howners i).mp hi)
    have hmem := h.held i r hr
    exact ⟨r, hmem, h.alone _ i r (h.covered r hmem).choose_spec hr⟩

end Ownership
