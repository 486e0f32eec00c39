import OsborneX.ExecutionProofs

/-! # Linearization — many small steps, one call

    A fine machine makes several steps for one call of a coarse machine.  One of
    these steps, the call's point, is where the coarse machine makes the whole
    call; every other step it does not see.  A run of the fine machine is then a
    run of the coarse one, on the calls in the order of their points
    (`Linearizes.run`).

    A machine that keeps a record besides, and checks it, runs as it would
    without while its checks hold (`execute_monitored`). -/

namespace Execution

variable {S C E O S' C' E' O' V : Type}

/-- The calls whose points a run passes, in order. -/
def passed (step : S → C → Except E (S × O)) (point : S → C → Option C') :
    S → List C → List C'
  | _, [] => []
  | s, c :: cs =>
      match step s c with
      | .error _ => []
      | .ok (t, _) => (point s c).toList ++ passed step point t cs

/-- **THE FINE MACHINE LINEARIZES** to the coarse one: a step at no point stays
    where it is and shows nothing, a step at a point makes the call and shows
    what it returns. -/
structure Linearizes (step : S → C → Except E (S × O))
    (step' : S' → C' → Except E' (S' × O')) (point : S → C → Option C')
    (shown : O → Option V) (shown' : O' → Option V) (R : S → S' → Prop) :
    Prop where
  stays : ∀ s s' c t o, R s s' → step s c = .ok (t, o) → point s c = none →
    R t s' ∧ shown o = none
  calls : ∀ s s' c c' t o, R s s' → step s c = .ok (t, o) →
    point s c = some c' → ∃ t' o', step' s' c' = .ok (t', o') ∧ R t t' ∧
      shown' o' = shown o

variable {step : S → C → Except E (S × O)}
  {step' : S' → C' → Except E' (S' × O')} {point : S → C → Option C'}
  {shown : O → Option V} {shown' : O' → Option V} {R : S → S' → Prop}

theorem passed_cons {s t : S} {c : C} {o : O} (h : step s c = .ok (t, o))
    (cs : List C) : passed step point s (c :: cs)
      = (point s c).toList ++ passed step point t cs := by
  rw [passed, h]

theorem Linearizes.run (h : Linearizes step step' point shown shown' R) :
    ∀ {cs : List C} {s t : S} {s' : S'} {os : List O}, R s s' →
      execute step s cs = .ok (t, os) →
      ∃ t' os', execute step' s' (passed step point s cs) = .ok (t', os') ∧
        R t t' ∧ os'.filterMap shown' = os.filterMap shown := by
  intro cs
  induction cs with
  | nil =>
      intro s t s' os hR hrun
      cases hrun
      exact ⟨s', [], rfl, hR, rfl⟩
  | cons c cs ih =>
      intro s t s' os hR hrun
      obtain ⟨s₁, o, os₁, hstep, hrest, rfl⟩ := execute_cons_ok hrun
      rw [passed_cons hstep]
      cases hpoint : point s c with
      | none =>
          obtain ⟨hR₁, hquiet⟩ := h.stays s s' c s₁ o hR hstep hpoint
          obtain ⟨t', os', hrun', hR', hshown⟩ := ih hR₁ hrest
          refine ⟨t', os', hrun', hR', ?_⟩
          rw [List.filterMap_cons_none hquiet]
          exact hshown
      | some c' =>
          obtain ⟨s₁', o', hstep', hR₁, heq⟩ :=
            h.calls s s' c c' s₁ o hR hstep hpoint
          obtain ⟨t', os', hrun', hR', hshown⟩ := ih hR₁ hrest
          refine ⟨t', o' :: os', execute_cons_of hstep' hrun', hR', ?_⟩
          rw [List.filterMap_cons, List.filterMap_cons, heq, hshown]

/-- **A MONITOR THAT NEVER COMPLAINS** changes nothing: with the invariant the
    step of the monitored machine is that of the machine, its faults included,
    and so are its runs. -/
theorem execute_monitored {step : S → C → Except E (S × O)}
    {step' : S' → C → Except E' (S' × O)} {f : S' → S} {e : E → E'}
    {I : S' → Prop}
    (hstep : ∀ s c, I s → (step' s c).map (fun r => (f r.1, r.2))
      = (step (f s) c).mapError e)
    (hkeeps : ∀ s c s' o, I s → step' s c = .ok (s', o) → I s') :
    ∀ cs s, I s → (execute step' s cs).map (fun r => (f r.1, r.2))
      = (execute step (f s) cs).mapError e := by
  intro cs
  induction cs with
  | nil => exact fun _ _ => rfl
  | cons c cs ih =>
      intro s hI
      have hone := hstep s c hI
      cases hfirst : step' s c with
      | error fault =>
          rw [hfirst] at hone
          cases hcore : step (f s) c with
          | ok r =>
              rw [hcore] at hone
              cases hone
          | error fault' =>
              rw [hcore] at hone
              rw [execute, execute, hfirst, hcore]
              exact congrArg Except.error (Except.error.inj hone)
      | ok r =>
          obtain ⟨s', o⟩ := r
          rw [hfirst] at hone
          cases hcore : step (f s) c with
          | error fault =>
              rw [hcore] at hone
              cases hone
          | ok r =>
              rw [hcore] at hone
              cases hone
              have hlater := ih s' (hkeeps s c s' o hI hfirst)
              rw [execute_cons hfirst, execute_cons hcore]
              cases hrest : execute step' s' cs with
              | error fault =>
                  rw [hrest] at hlater
                  cases hcores : execute step (f s') cs with
                  | ok r =>
                      rw [hcores] at hlater
                      cases hlater
                  | error fault' =>
                      rw [hcores] at hlater
                      exact congrArg Except.error (Except.error.inj hlater)
              | ok r =>
                  rw [hrest] at hlater
                  cases hcores : execute step (f s') cs with
                  | error fault =>
                      rw [hcores] at hlater
                      cases hlater
                  | ok r' =>
                      rw [hcores] at hlater
                      cases hlater
                      rfl

end Execution
