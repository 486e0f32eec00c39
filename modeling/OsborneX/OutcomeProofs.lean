import Mathlib

/-! # Outcomes — rules for computations that may fault

    A fallible computation is an `Except`.  Two ways of reasoning about one
    without running it:

    * `Ends`, a triple: it ends in a value of one kind or in a fault of one
      kind;
    * `Lockstep`, its relational form: two computations end in related values,
      or both in the same fault.

    One rule for each way a computation is put together. -/

namespace Outcome

variable {A B C D E : Type}

/-! ## One computation -/

/-- The computation ends in a value with `Q`, or in a fault with `F`. -/
def Ends (F : E → Prop) (Q : A → Prop) : Except E A → Prop
  | .ok a => Q a
  | .error e => F e

section Ends

variable {F : E → Prop} {Q : A → Prop} {R : B → Prop}

/-- Sequencing: what follows a value of the first kind ends in the second. -/
theorem Ends.bind {x : Except E A} {f : A → Except E B} (hx : Ends F Q x)
    (hf : ∀ a, Q a → Ends F R (f a)) : Ends F R (x >>= f) := by
  cases x with
  | error e => exact hx
  | ok a => exact hf a hx

theorem Ends.map {x : Except E A} {f : A → B} (hx : Ends F Q x)
    (hf : ∀ a, Q a → R (f a)) : Ends F R (x.map f) := by
  cases x with
  | error e => exact hx
  | ok a => exact hf a hx

theorem Ends.mono {Q' : A → Prop} {x : Except E A} (hx : Ends F Q x)
    (h : ∀ a, Q a → Q' a) : Ends F Q' x := by
  cases x with
  | error e => exact hx
  | ok a => exact h a hx

theorem Ends.ite {c : Prop} [Decidable c] {x y : Except E A}
    (hx : c → Ends F Q x) (hy : ¬ c → Ends F Q y) :
    Ends F Q (if c then x else y) := by
  by_cases h : c
  · rw [if_pos h]
    exact hx h
  · rw [if_neg h]
    exact hy h

/-- A value the computation ended in is of its kind. -/
theorem Ends.of_ok {x : Except E A} {a : A} (hx : Ends F Q x)
    (h : x = .ok a) : Q a := by
  subst h
  exact hx

/-- And so is a fault. -/
theorem Ends.of_error {x : Except E A} {e : E} (hx : Ends F Q x)
    (h : x = .error e) : F e := by
  subst h
  exact hx

end Ends

/-! ## Two computations -/

/-- The computations end in related values, or in the same fault. -/
def Lockstep (R : A → B → Prop) : Except E A → Except E B → Prop
  | .ok a, .ok b => R a b
  | .error e, .error e' => e = e'
  | _, _ => False

section Lockstep

variable {R : A → B → Prop} {S : C → D → Prop}

/-- A computation goes in step with itself. -/
theorem Lockstep.refl (x : Except E A) : Lockstep (fun a b => b = a) x x := by
  cases x with
  | error e => exact rfl
  | ok a => exact rfl

theorem Lockstep.bind {x : Except E A} {y : Except E B} {f : A → Except E C}
    {g : B → Except E D} (hxy : Lockstep R x y)
    (hfg : ∀ a b, R a b → Lockstep S (f a) (g b)) :
    Lockstep S (x >>= f) (y >>= g) := by
  cases x with
  | error e =>
      cases y with
      | error e' => exact hxy
      | ok b => exact hxy.elim
  | ok a =>
      cases y with
      | error e' => exact hxy.elim
      | ok b => exact hfg a b hxy

theorem Lockstep.map {x : Except E A} {y : Except E B} {f : A → C}
    {g : B → D} (hxy : Lockstep R x y) (hfg : ∀ a b, R a b → S (f a) (g b)) :
    Lockstep S (x.map f) (y.map g) := by
  cases x with
  | error e =>
      cases y with
      | error e' => exact hxy
      | ok b => exact hxy.elim
  | ok a =>
      cases y with
      | error e' => exact hxy.elim
      | ok b => exact hfg a b hxy

/-- Two branchings on equivalent conditions. -/
theorem Lockstep.ite {c d : Prop} [Decidable c] [Decidable d]
    {x x' : Except E A} {y y' : Except E B} (hcd : c ↔ d)
    (hpos : c → Lockstep R x y) (hneg : ¬ c → Lockstep R x' y') :
    Lockstep R (if c then x else x') (if d then y else y') := by
  by_cases h : c
  · rw [if_pos h, if_pos (hcd.mp h)]
    exact hpos h
  · rw [if_neg h, if_neg (fun hd => h (hcd.mpr hd))]
    exact hneg h

/-- Where one of the two returns, so does the other. -/
theorem Lockstep.of_ok {x : Except E A} {y : Except E B} {b : B}
    (h : Lockstep R x y) (hy : y = .ok b) : ∃ a, x = .ok a ∧ R a b := by
  subst hy
  cases x with
  | error e => exact h.elim
  | ok a => exact ⟨a, rfl, h⟩

theorem Lockstep.follows {x : Except E A} {y : Except E B} {a : A}
    (h : Lockstep R x y) (hx : x = .ok a) : ∃ b, y = .ok b ∧ R a b := by
  subst hx
  cases y with
  | error e => exact h.elim
  | ok b => exact ⟨b, rfl, h⟩

end Lockstep

end Outcome
