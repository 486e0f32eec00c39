import OsborneX.ExecutionProofs

/-! # Ranking — how long a component can go on

    A rank that no step raises, and every step but idle ones lowers, bounds the
    steps of a run that are not idle (`busySteps_le`).  Where a component that is
    not done always has a step that lowers it, some run is done (`reaches`).
    Together they say that the component comes to its end under every schedule
    that does not only let idle steps happen. -/

namespace Execution

variable {S C O E : Type} {step : S → C → Except E (S × O)}

/-- The steps of a run that are not idle. -/
def busySteps (step : S → C → Except E (S × O)) (idles : S → C → Prop)
    [∀ s c, Decidable (idles s c)] : S → List C → Nat
  | _, [] => 0
  | s, c :: cs =>
      match step s c with
      | .error _ => 0
      | .ok (s', _) => (if idles s c then 0 else 1) + busySteps step idles s' cs

variable {idles : S → C → Prop} [∀ s c, Decidable (idles s c)] {I : S → Prop}
  {p : C → Prop} {rank : S → Nat}

/-- **THE RANK PAYS FOR EVERY STEP** that is not idle. -/
theorem busySteps_le
    (hstep : ∀ s c s' o, I s → p c → step s c = .ok (s', o) →
      I s' ∧ rank s' + (if idles s c then 0 else 1) ≤ rank s) :
    ∀ {cs : List C} {s t : S} {os : List O}, I s → (∀ c ∈ cs, p c) →
      execute step s cs = .ok (t, os) →
      I t ∧ busySteps step idles s cs + rank t ≤ rank s := by
  intro cs
  induction cs with
  | nil =>
      intro s t os hI _ hrun
      cases hrun
      exact ⟨hI, Nat.le_of_eq (Nat.zero_add _)⟩
  | cons c cs ih =>
      intro s t os hI hp hrun
      obtain ⟨s₁, o, os', hone, hrest, -⟩ := execute_cons_ok hrun
      obtain ⟨hI₁, hle⟩ := hstep s c s₁ o hI (hp c List.mem_cons_self) hone
      obtain ⟨hI', hle'⟩ :=
        ih hI₁ (fun c' hc' => hp c' (List.mem_cons_of_mem c hc')) hrest
      refine ⟨hI', ?_⟩
      rw [busySteps, hone]
      show _ + busySteps step idles s₁ cs + _ ≤ _
      omega

/-- **A COMPONENT WITH SOMETHING TO DO UNTIL IT IS DONE GETS DONE.** -/
theorem reaches {Done : S → Prop}
    (hprogress : ∀ s, I s → ¬ Done s → ∃ c s' o, p c ∧
      step s c = .ok (s', o) ∧ I s' ∧ rank s' < rank s) :
    ∀ s, I s → ∃ cs t os, (∀ c ∈ cs, p c) ∧
      execute step s cs = .ok (t, os) ∧ Done t := by
  intro s
  induction hrank : rank s using Nat.strong_induction_on generalizing s with
  | _ n ih =>
      intro hI
      by_cases hdone : Done s
      · exact ⟨[], s, [], fun _ hmem => absurd hmem List.not_mem_nil, rfl, hdone⟩
      · obtain ⟨c, s', o, hc, hstep, hI', hlt⟩ := hprogress s hI hdone
        obtain ⟨cs, t, os, hp, hrun, ht⟩ := ih _ (hrank ▸ hlt) s' rfl hI'
        refine ⟨c :: cs, t, o :: os, ?_, execute_cons_of hstep hrun, ht⟩
        intro c' hmem
        rcases List.mem_cons.mp hmem with rfl | hmem
        · exact hc
        · exact hp c' hmem

/-- A sum after one of its terms was replaced. -/
theorem sum_update {ι : Type} [DecidableEq ι] {s : Finset ι} {i : ι}
    (hi : i ∈ s) (f : ι → Nat) (b : Nat) :
    ∑ j ∈ s, Function.update f i b j + f i = ∑ j ∈ s, f j + b := by
  rw [Finset.sum_update_of_mem hi, ← Finset.add_sum_erase s f hi,
    Finset.sdiff_singleton_eq_erase]
  omega

end Execution
