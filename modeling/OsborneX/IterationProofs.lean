import Mathlib

/-! # Iteration — the passes of a `while` loop

    A loop is given by one look at its state: `look` runs the body once and
    answers the state behind it, answers nothing where the loop is left, or
    faults.  `Passes` is a run of the loop to its end, with the states its
    passes begin in; there is no budget in it, so that the loop terminates is
    the EXISTENCE of such a run.

    `exists_passes` gets it from a measure that every pass lowers, and bounds
    the number of passes by the measure; `Passes.within` carries it over to a
    loop written with a budget. -/

namespace Iteration

variable {S E : Type}

/-- A run of the loop from a state to the one it is left in, with the states
    in which its passes begin. -/
inductive Passes (look : S → Except E (Option S)) :
    S → List S → S → Prop where
  | left {s : S} (h : look s = .ok none) : Passes look s [] s
  | pass {s s' t : S} {begun : List S} (h : look s = .ok (some s'))
      (rest : Passes look s' begun t) : Passes look s (s :: begun) t

variable {look : S → Except E (Option S)} {s t : S} {begun : List S}

/-- Every state a pass begins in is followed by the one the pass leaves. -/
theorem Passes.forall {Q : S → S → Prop} {I : S → Prop}
    (hstep : ∀ s s', I s → look s = .ok (some s') → I s' ∧ Q s s')
    (h : Passes look s begun t) (hI : I s) :
    I t ∧ ∀ r ∈ begun, ∃ r', look r = .ok (some r') ∧ Q r r' := by
  induction h with
  | left _ => exact ⟨hI, List.forall_mem_nil _⟩
  | pass hpass _ ih =>
      obtain ⟨hI', hQ⟩ := hstep _ _ hI hpass
      obtain ⟨ht, hall⟩ := ih hI'
      exact ⟨ht, List.forall_mem_cons.mpr ⟨⟨_, hpass, hQ⟩, hall⟩⟩

/-- **A LOOP WHOSE PASSES LOWER A MEASURE TERMINATES**, and the measure bounds
    its passes. -/
theorem exists_passes {I : S → Prop} (measure : S → Nat)
    (hstep : ∀ s, I s → look s = .ok none ∨
      ∃ s', look s = .ok (some s') ∧ I s' ∧ measure s' < measure s)
    (hI : I s) :
    ∃ begun t, Passes look s begun t ∧
      begun.length + measure t ≤ measure s := by
  -- strong induction on the measure of the state the loop is looked at in
  induction hn : measure s using Nat.strong_induction_on generalizing s with
  | _ n ih =>
      rcases hstep s hI with hleft | ⟨s', hpass, hI', hlt⟩
      · exact ⟨[], s, .left hleft, by simp [hn]⟩
      · obtain ⟨begun, t, hrest, hlen⟩ := ih (measure s') (hn ▸ hlt) hI' rfl
        refine ⟨s :: begun, t, .pass hpass hrest, ?_⟩
        rw [List.length_cons]
        omega

/-- A loop written with a budget ends as its passes do, when the budget covers
    them. -/
theorem Passes.within (run : Nat → S → Except E S)
    (hleft : ∀ n s, look s = .ok none → run n s = .ok s)
    (hpass : ∀ n s s', look s = .ok (some s') → run (n + 1) s = run n s')
    (h : Passes look s begun t) {n : Nat} (hn : begun.length ≤ n) :
    run n s = .ok t := by
  induction h generalizing n with
  | left h => exact hleft n _ h
  | pass h _ ih =>
      cases n with
      | zero => cases hn
      | succ n =>
          rw [hpass n _ _ h]
          exact ih (Nat.le_of_succ_le_succ hn)

end Iteration
