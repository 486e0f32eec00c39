import Mathlib

/-! # Tickets — one counter and its callers

    A dispenser hands out the numbers 1, 2, 3, … to callers.  A caller takes a
    number, holds it for as long as it likes, and uses it; other callers take
    and use theirs in between.  `Moves` is what may happen next.

    However the callers interleave, no number is used twice: `Distinct` is kept
    by every move, because what is held and what is used are apart. -/

namespace Ticket

variable {C : Type}

/-- How many numbers were handed out, who holds one, and which were used. -/
structure Dispenser (C : Type) where
  handed : Nat
  held : C → Option Nat
  used : List Nat

namespace Dispenser

/-- No number handed out yet. -/
def new : Dispenser C := ⟨0, fun _ => none, []⟩

end Dispenser

/-- Every number handed out is held by one caller at most, or was used once. -/
structure Distinct (d : Dispenser C) : Prop where
  usedOnce : d.used.Nodup
  usedHanded : ∀ n ∈ d.used, 1 ≤ n ∧ n ≤ d.handed
  heldHanded : ∀ c n, d.held c = some n → 1 ≤ n ∧ n ≤ d.handed
  heldUnused : ∀ c n, d.held c = some n → n ∉ d.used
  heldOnce : ∀ c c' n, d.held c = some n → d.held c' = some n → c = c'

theorem distinct_new : Distinct (.new : Dispenser C) where
  usedOnce := List.nodup_nil
  usedHanded := List.forall_mem_nil _
  heldHanded := by intro c n h; cases h
  heldUnused := by intro c n h; cases h
  heldOnce := by intro c c' n h; cases h

variable [DecidableEq C]

namespace Dispenser

/-- The caller takes the next number. -/
def take (d : Dispenser C) (c : C) : Dispenser C where
  handed := d.handed + 1
  held := Function.update d.held c (some (d.handed + 1))
  used := d.used

/-- The caller uses the number it holds. -/
def use (d : Dispenser C) (c : C) (n : Nat) : Dispenser C where
  handed := d.handed
  held := Function.update d.held c none
  used := d.used ++ [n]

@[simp] theorem handed_take (d : Dispenser C) (c : C) :
    (d.take c).handed = d.handed + 1 := rfl

@[simp] theorem used_take (d : Dispenser C) (c : C) :
    (d.take c).used = d.used := rfl

@[simp] theorem handed_use (d : Dispenser C) (c : C) (n : Nat) :
    (d.use c n).handed = d.handed := rfl

@[simp] theorem used_use (d : Dispenser C) (c : C) (n : Nat) :
    (d.use c n).used = d.used ++ [n] := rfl

@[simp] theorem held_take (d : Dispenser C) (c : C) :
    (d.take c).held = Function.update d.held c (some (d.handed + 1)) := rfl

@[simp] theorem held_use (d : Dispenser C) (c : C) (n : Nat) :
    (d.use c n).held = Function.update d.held c none := rfl

end Dispenser

/-- What may happen next; a caller that holds a number takes no other. -/
inductive Moves : Dispenser C → Dispenser C → Prop where
  | stay (d : Dispenser C) : Moves d d
  | take {d : Dispenser C} {c : C} (h : d.held c = none) :
      Moves d (d.take c)
  | use {d : Dispenser C} {c : C} {n : Nat} (h : d.held c = some n) :
      Moves d (d.use c n)

/-- The next number is new. -/
theorem Distinct.take {d : Dispenser C} (h : Distinct d) (c : C) :
    Distinct (d.take c) := by
  have hnext : ∀ r n, (d.take c).held r = some n →
      (r = c ∧ n = d.handed + 1) ∨ (r ≠ c ∧ d.held r = some n) := by
    intro r n hr
    by_cases hc : r = c
    · subst hc
      rw [Dispenser.held_take, Function.update_self] at hr
      exact Or.inl ⟨rfl, (Option.some.inj hr).symm⟩
    · rw [Dispenser.held_take, Function.update_of_ne hc] at hr
      exact Or.inr ⟨hc, hr⟩
  refine ⟨h.usedOnce, fun n hn => ?_, fun r n hr => ?_, fun r n hr => ?_,
    fun r r' n hr hr' => ?_⟩
  · have := h.usedHanded n hn
    exact ⟨this.1, Nat.le_succ_of_le this.2⟩
  · rcases hnext r n hr with ⟨-, rfl⟩ | ⟨-, hold⟩
    · exact ⟨Nat.le_add_left 1 d.handed, Nat.le_refl _⟩
    · have := h.heldHanded r n hold
      exact ⟨this.1, Nat.le_succ_of_le this.2⟩
  · rcases hnext r n hr with ⟨-, rfl⟩ | ⟨-, hold⟩
    · intro hused
      have := (h.usedHanded _ hused).2
      omega
    · exact h.heldUnused r n hold
  · rcases hnext r n hr with ⟨rfl, rfl⟩ | ⟨-, hold⟩
    · rcases hnext r' _ hr' with ⟨rfl, -⟩ | ⟨-, hold'⟩
      · rfl
      · have := (h.heldHanded r' _ hold').2
        omega
    · rcases hnext r' n hr' with ⟨rfl, rfl⟩ | ⟨-, hold'⟩
      · have := (h.heldHanded r _ hold).2
        omega
      · exact h.heldOnce r r' n hold hold'

/-- A number that is used is held no more. -/
theorem Distinct.use {d : Dispenser C} (h : Distinct d) {c : C} {n : Nat}
    (hc : d.held c = some n) : Distinct (d.use c n) := by
  have hstill : ∀ r k, (d.use c n).held r = some k →
      r ≠ c ∧ d.held r = some k := by
    intro r k hr
    by_cases heq : r = c
    · subst heq
      rw [Dispenser.held_use, Function.update_self] at hr
      cases hr
    · rw [Dispenser.held_use, Function.update_of_ne heq] at hr
      exact ⟨heq, hr⟩
  refine ⟨?_, fun k hk => ?_, fun r k hr => ?_, fun r k hr => ?_,
    fun r r' k hr hr' => ?_⟩
  · refine List.nodup_append.mpr ⟨h.usedOnce, List.nodup_singleton n, ?_⟩
    rintro k hk r hr rfl
    exact h.heldUnused c n hc (List.mem_singleton.mp hr ▸ hk)
  · rcases List.mem_append.mp hk with hk | hk
    · exact h.usedHanded k hk
    · rw [List.mem_singleton.mp hk]
      exact h.heldHanded c n hc
  · exact h.heldHanded r k (hstill r k hr).2
  · obtain ⟨hne, hold⟩ := hstill r k hr
    intro hk
    rcases List.mem_append.mp hk with hk | hk
    · exact h.heldUnused r k hold hk
    · rw [List.mem_singleton.mp hk] at hold
      exact hne (h.heldOnce r c n hold hc)
  · exact h.heldOnce r r' k (hstill r k hr).2 (hstill r' k hr').2

/-- **NO MOVE REPEATS A NUMBER.** -/
theorem Distinct.moves {d d' : Dispenser C} (h : Distinct d)
    (hmoves : Moves d d') : Distinct d' := by
  cases hmoves with
  | stay => exact h
  | take _ => exact h.take _
  | use hc => exact h.use hc

end Ticket
