import OsborneX.OutcomeProofs

/-! # Execution — running a fallible step over a list of inputs

    A component is a step function from a state and an input to an output and
    the next state, which may fault.  `execute` runs it over a list of inputs
    and collects the outputs; `Along` says that every input of the run meets a
    condition IN THE STATE IT IS GIVEN TO.

    `execute_history` is the one induction: an invariant of the state and the
    outputs so far that every step keeps, when its input meets the condition,
    holds after every run along which the condition is met, and no such run
    faults.  `execute_forget` runs a component without what is kept beside
    it, and `execute_ends` says what a run returns with and what it stops
    with. -/

namespace Execution

variable {S C O E : Type}

/-- Run the inputs one after the other, collecting the outputs. -/
def execute (step : S → C → Except E (S × O)) :
    S → List C → Except E (S × List O)
  | s, [] => .ok (s, [])
  | s, c :: cs => do
      let (s, o) ← step s c
      let (s, os) ← execute step s cs
      return (s, o :: os)

/-- Every input meets its condition in the state it is given to. -/
def Along (step : S → C → Except E (S × O)) (cond : S → C → Prop) :
    S → List C → Prop
  | _, [] => True
  | s, c :: cs => cond s c ∧
      ∀ s' o, step s c = .ok (s', o) → Along step cond s' cs

/-- A computation that returned, cut at its first part. -/
theorem bind_ok {A B : Type} {x : Except E A} {f : A → Except E B} {b : B}
    (h : x >>= f = .ok b) : ∃ a, x = .ok a ∧ f a = .ok b := by
  cases x with
  | error e => cases h
  | ok a => exact ⟨a, rfl, h⟩

/-- A computation returns when its parts do. -/
theorem bind_returns {A B : Type} {x : Except E A} {f : A → Except E B}
    (hx : ∃ a, x = .ok a) (hf : ∀ a, ∃ b, f a = .ok b) :
    ∃ b, x >>= f = .ok b := by
  obtain ⟨a, rfl⟩ := hx
  exact hf a

/-- A computation that stopped, cut at its first part. -/
theorem bind_error {A B : Type} {x : Except E A} {f : A → Except E B} {e : E}
    (h : x >>= f = .error e) :
    x = .error e ∨ ∃ a, x = .ok a ∧ f a = .error e := by
  cases x with
  | error e' =>
      cases h
      exact Or.inl rfl
  | ok a => exact Or.inr ⟨a, rfl, h⟩

/-- A computation that returned has one result. -/
theorem ok_iff {A B : Type} {x : Except E (A × B)} {a : A} {b : B}
    {p : A → B → Prop} (h : x = .ok (a, b)) :
    (∃ a' b', x = .ok (a', b') ∧ p a' b') ↔ p a b := by
  constructor
  · rintro ⟨a', b', h', hp⟩
    rw [h] at h'
    cases h'
    exact hp
  · exact fun hp => ⟨a, b, h, hp⟩

theorem map_ok {A B : Type} {x : Except E A} {f : A → B} {b : B}
    (h : x.map f = .ok b) : ∃ a, x = .ok a ∧ f a = b := by
  cases x with
  | error e => cases h
  | ok a =>
      cases h
      exact ⟨a, rfl, rfl⟩

variable {step : S → C → Except E (S × O)} {cond : S → C → Prop}

theorem execute_cons {s s' : S} {c : C} {o : O} {cs : List C}
    (h : step s c = .ok (s', o)) :
    execute step s (c :: cs)
      = (execute step s' cs).map (fun r => (r.1, o :: r.2)) := by
  rw [execute, h]
  show (execute step s' cs >>= fun r => .ok (r.1, o :: r.2)) = _
  cases execute step s' cs <;> rfl

/-- A step that returns, before a run that returns. -/
theorem execute_cons_of {s s' t : S} {c : C} {o : O} {cs : List C}
    {os : List O} (h : step s c = .ok (s', o))
    (hrest : execute step s' cs = .ok (t, os)) :
    execute step s (c :: cs) = .ok (t, o :: os) := by
  rw [execute_cons h, hrest]
  rfl

/-- A run that returned made its first step and then the others. -/
theorem execute_cons_ok {s t : S} {c : C} {cs : List C} {os : List O}
    (h : execute step s (c :: cs) = .ok (t, os)) :
    ∃ s' o os', step s c = .ok (s', o) ∧ execute step s' cs = .ok (t, os') ∧
      os = o :: os' := by
  cases hstep : step s c with
  | error e =>
      rw [execute, hstep] at h
      cases h
  | ok r =>
      obtain ⟨s', o⟩ := r
      rw [execute_cons hstep] at h
      cases hrest : execute step s' cs with
      | error e =>
          rw [hrest] at h
          cases h
      | ok r' =>
          obtain ⟨t', os'⟩ := r'
          rw [hrest] at h
          cases h
          exact ⟨s', o, os', rfl, hrest, rfl⟩

/-- A run has one output for each input. -/
theorem length_of_execute :
    ∀ {cs : List C} {s t : S} {os : List O},
      execute step s cs = .ok (t, os) → os.length = cs.length := by
  intro cs
  induction cs with
  | nil =>
      intro s t os h
      cases h
      rfl
  | cons c cs ih =>
      intro s t os h
      obtain ⟨s', o, os', -, hrest, rfl⟩ := execute_cons_ok h
      rw [List.length_cons, List.length_cons, ih hrest]

/-- A run over two lists is a run over the first and then over the second. -/
theorem execute_append {ds : List C} {t : S} {os : List O} :
    ∀ {cs : List C} {s : S}, execute step s (cs ++ ds) = .ok (t, os) ↔
      ∃ s' os₁ os₂, execute step s cs = .ok (s', os₁) ∧
        execute step s' ds = .ok (t, os₂) ∧ os = os₁ ++ os₂ := by
  intro cs
  induction cs generalizing os with
  | nil =>
      intro s
      constructor
      · exact fun h => ⟨s, [], os, rfl, h, rfl⟩
      · rintro ⟨s', os₁, os₂, h₁, h₂, rfl⟩
        cases h₁
        exact h₂
  | cons c cs ih =>
      intro s
      constructor
      · intro h
        obtain ⟨s₁, o, os', hstep, hrest, rfl⟩ := execute_cons_ok h
        obtain ⟨s', os₁, os₂, h₁, h₂, rfl⟩ := ih.mp hrest
        refine ⟨s', o :: os₁, os₂, ?_, h₂, rfl⟩
        rw [execute_cons hstep, h₁]
        rfl
      · rintro ⟨s', os₁, os₂, h₁, h₂, rfl⟩
        obtain ⟨s₁, o, os', hstep, hrest, rfl⟩ := execute_cons_ok h₁
        rw [List.cons_append, execute_cons hstep,
          ih.mpr ⟨s', os', os₂, hrest, h₂, rfl⟩]
        rfl

/-- A run, cut at one of its outputs. -/
theorem execute_cut {cs : List C} {s t : S} {os₁ os₂ : List O} {o : O}
    (h : execute step s cs = .ok (t, os₁ ++ o :: os₂)) :
    ∃ cs₁ c cs₂ s₁ s₂, cs = cs₁ ++ c :: cs₂ ∧
      execute step s cs₁ = .ok (s₁, os₁) ∧ step s₁ c = .ok (s₂, o) ∧
      execute step s₂ cs₂ = .ok (t, os₂) := by
  have hlength := length_of_execute h
  rw [List.length_append, List.length_cons] at hlength
  have hlt : os₁.length < cs.length := by omega
  have hsplit : cs = cs.take os₁.length ++ cs[os₁.length] ::
      cs.drop (os₁.length + 1) := by
    rw [← List.drop_eq_getElem_cons hlt, List.take_append_drop]
  rw [hsplit] at h
  obtain ⟨s₁, os₁', os₂', hrun₁, hrun₂, heq⟩ := execute_append.mp h
  have hsame : os₁'.length = os₁.length := by
    rw [length_of_execute hrun₁, List.length_take]
    omega
  obtain ⟨rfl, rfl⟩ := List.append_inj heq hsame.symm
  obtain ⟨s₂, o', os₃, hstep, hrest, heq'⟩ := execute_cons_ok hrun₂
  obtain ⟨rfl, rfl⟩ := List.cons.inj heq'
  exact ⟨_, _, _, s₁, s₂, hsplit, hrun₁, hstep, hrest⟩

/-- A run decides whether its inputs meet a decidable condition. -/
instance decidableAlong [∀ s c, Decidable (cond s c)] :
    ∀ (s : S) (cs : List C), Decidable (Along step cond s cs)
  | _, [] => isTrue trivial
  | s, c :: cs =>
      match h : step s c with
      | .ok (s', _) =>
          have := decidableAlong s' cs
          decidable_of_iff (cond s c ∧ Along step cond s' cs) <| by
            rw [Along, h]
            constructor
            · rintro ⟨hc, hs'⟩
              refine ⟨hc, fun t o heq => ?_⟩
              cases heq
              exact hs'
            · exact fun hal => ⟨hal.1, hal.2 _ _ rfl⟩
      | .error _ =>
          decidable_of_iff (cond s c) <| by
            rw [Along, h]
            refine ⟨fun hc => ⟨hc, fun t o heq => ?_⟩, fun hal => hal.1⟩
            cases heq

/-- A condition on the inputs alone holds along every run over them. -/
theorem along_of_forall {p : C → Prop} {cs : List C} (h : ∀ c ∈ cs, p c) :
    ∀ s, Along step (fun _ c => p c) s cs := by
  induction cs with
  | nil => exact fun _ => trivial
  | cons c cs ih =>
      intro s
      exact ⟨h c List.mem_cons_self,
        fun s' _ _ => ih (fun c' hc' => h c' (List.mem_cons_of_mem _ hc')) s'⟩

/-- A run, and one step more. -/
theorem execute_snoc {s s' t : S} {cs : List C} {c : C} {os : List O} {o : O}
    (h : execute step s cs = .ok (s', os)) (hc : step s' c = .ok (t, o)) :
    execute step s (cs ++ [c]) = .ok (t, os ++ [o]) :=
  execute_append.mpr ⟨s', os, [o], h, execute_cons_of hc rfl, rfl⟩

/-- A condition is met along two lists when it is met along the first, and
    along the second from where the first ends. -/
theorem along_append {ds : List C} :
    ∀ {cs : List C} {s : S}, Along step cond s (cs ++ ds) ↔
      Along step cond s cs ∧
        ∀ s' os, execute step s cs = .ok (s', os) →
          Along step cond s' ds := by
  intro cs
  induction cs with
  | nil =>
      intro s
      constructor
      · intro h
        refine ⟨trivial, fun s' os hs => ?_⟩
        cases hs
        exact h
      · exact fun h => h.2 s [] rfl
  | cons c cs ih =>
      intro s
      constructor
      · rintro ⟨hc, hal⟩
        refine ⟨⟨hc, fun s₁ o h => (ih.mp (hal s₁ o h)).1⟩, ?_⟩
        intro s' os hs
        obtain ⟨s₁, o, os', hstep, hrest, -⟩ := execute_cons_ok hs
        exact (ih.mp (hal s₁ o hstep)).2 s' os' hrest
      · rintro ⟨⟨hc, hal⟩, hds⟩
        refine ⟨hc, fun s₁ o h => ih.mpr ⟨hal s₁ o h, ?_⟩⟩
        intro s' os hs
        refine hds s' (o :: os) ?_
        rw [execute_cons h, hs]
        rfl

/-- Two conditions met along a run are met together. -/
theorem Along.and {cond' : S → C → Prop} :
    ∀ {cs : List C} {s : S}, Along step cond s cs → Along step cond' s cs →
      Along step (fun s c => cond s c ∧ cond' s c) s cs := by
  intro cs
  induction cs with
  | nil => exact fun _ _ => trivial
  | cons c cs ih =>
      intro s h h'
      exact ⟨⟨h.1, h'.1⟩,
        fun s' o hstep => ih (h.2 s' o hstep) (h'.2 s' o hstep)⟩

/-- **EVERY RUN KEEPS THE INVARIANT** of state and outputs that its steps keep,
    and faults nowhere when they fault nowhere. -/
theorem execute_history {I : S → List O → Prop}
    (hstep : ∀ s os c, I s os → cond s c →
      ∃ s' o, step s c = .ok (s', o) ∧ I s' (os ++ [o])) :
    ∀ cs s os, I s os → Along step cond s cs →
      ∃ s' os', execute step s cs = .ok (s', os') ∧ I s' (os ++ os') := by
  intro cs
  induction cs with
  | nil =>
      intro s os hI _
      exact ⟨s, [], rfl, by rw [List.append_nil]; exact hI⟩
  | cons c cs ih =>
      intro s os hI hal
      obtain ⟨s1, o, h1, hI1⟩ := hstep s os c hI hal.1
      obtain ⟨s', os', hrun, hI'⟩ := ih s1 (os ++ [o]) hI1 (hal.2 s1 o h1)
      refine ⟨s', o :: os', ?_, ?_⟩
      · rw [execute_cons h1, hrun]
        rfl
      · rw [List.append_assoc] at hI'
        exact hI'

/-- An invariant of the state alone; `R` is what each step's output
    satisfies. -/
theorem execute_spec {I : S → Prop} {R : O → Prop}
    (hstep : ∀ s c, I s → cond s c →
      ∃ s' o, step s c = .ok (s', o) ∧ I s' ∧ R o) :
    ∀ cs s, I s → Along step cond s cs →
      ∃ s' os, execute step s cs = .ok (s', os) ∧ I s' ∧ ∀ o ∈ os, R o := by
  intro cs s hI hal
  have hkeep : ∀ s os c, (I s ∧ ∀ o ∈ os, R o) → cond s c →
      ∃ s' o, step s c = .ok (s', o) ∧ I s' ∧ ∀ r ∈ os ++ [o], R r := by
    rintro s os c ⟨hs, hos⟩ hc
    obtain ⟨s', o, h1, hI', ho⟩ := hstep s c hs hc
    refine ⟨s', o, h1, hI', fun r hr => ?_⟩
    rcases List.mem_append.mp hr with hr | hr
    · exact hos r hr
    · rw [List.mem_singleton.mp hr]
      exact ho
  exact execute_history (I := fun s os => I s ∧ ∀ o ∈ os, R o) hkeep cs s []
    ⟨hI, List.forall_mem_nil _⟩ hal

/-- What every step says of its input, in a state with the invariant, holds of
    every input of the run. -/
theorem Along.of_invariant {I : S → Prop} {goal : S → C → Prop}
    (hgoal : ∀ s c, I s → cond s c → goal s c)
    (hstep : ∀ s c s' o, I s → cond s c → step s c = .ok (s', o) → I s') :
    ∀ {cs : List C} {s : S}, I s → Along step cond s cs →
      Along step goal s cs := by
  intro cs
  induction cs with
  | nil => exact fun _ _ => trivial
  | cons c cs ih =>
      intro s hI hal
      exact ⟨hgoal s c hI hal.1,
        fun s' o h => ih (hstep s c s' o hI hal.1 h) (hal.2 s' o h)⟩

/-- Two conditions that agree in every state with the invariant, which a step
    that meets them keeps, are met along the same runs. -/
theorem along_iff {I : S → Prop} {p : C → Prop} {cond' : S → C → Prop}
    (hiff : ∀ s c, I s → p c → (cond s c ↔ cond' s c))
    (hstep : ∀ s c s' o, I s → p c → cond s c → step s c = .ok (s', o) →
      I s') :
    ∀ {cs : List C} {s : S}, I s → (∀ c ∈ cs, p c) →
      (Along step cond s cs ↔ Along step cond' s cs) := by
  intro cs
  induction cs with
  | nil => exact fun _ _ => Iff.rfl
  | cons c cs ih =>
      intro s hI hp
      have hc := hp c List.mem_cons_self
      have hcs := fun c' hc' => hp c' (List.mem_cons_of_mem c hc')
      constructor
      · rintro ⟨h, hal⟩
        refine ⟨(hiff s c hI hc).mp h, ?_⟩
        intro s' o hok
        exact (ih (hstep s c s' o hI hc h hok) hcs).mp (hal s' o hok)
      · rintro ⟨h, hal⟩
        have h' := (hiff s c hI hc).mpr h
        refine ⟨h', ?_⟩
        intro s' o hok
        exact (ih (hstep s c s' o hI hc h' hok) hcs).mpr (hal s' o hok)

/-- An invariant of the inputs so far, the state and the outputs so far that
    every step keeps, along every run. -/
theorem execute_trace {I : List C → S → List O → Prop}
    (hstep : ∀ cs s os c s' o, I cs s os → step s c = .ok (s', o) →
      I (cs ++ [c]) s' (os ++ [o])) {s t cs os} (hI : I [] s [])
    (h : execute step s cs = .ok (t, os)) : I cs t os := by
  have hlater : ∀ ds cs s os os', I cs s os →
      execute step s ds = .ok (t, os') → I (cs ++ ds) t (os ++ os') := by
    intro ds
    induction ds with
    | nil =>
        intro cs s os os' hI h
        cases h
        rw [List.append_nil, List.append_nil]
        exact hI
    | cons c ds ih =>
        intro cs s os os' hI h
        obtain ⟨s₁, o, os₁, hone, hrest, rfl⟩ := execute_cons_ok h
        have hnext := ih _ _ _ _ (hstep cs s os c s₁ o hI hone) hrest
        rw [List.append_assoc, List.append_assoc] at hnext
        exact hnext
  exact hlater cs [] s [] os hI h

/-- The same, whatever the inputs were. -/
theorem execute_account {I : S → List O → Prop}
    (hstep : ∀ s os c s' o, I s os → step s c = .ok (s', o) →
      I s' (os ++ [o])) {s t cs os} (hI : I s [])
    (h : execute step s cs = .ok (t, os)) : I t os :=
  execute_trace (I := fun _ s os => I s os)
    (fun _ s os c s' o => hstep s os c s' o) hI h

/-- A run of a component with something kept beside it is a run of the
    component. -/
theorem execute_forget {S' : Type} {step' : S' → C → Except E (S' × O)}
    {f : S' → S}
    (hf : ∀ s c s' o, step' s c = .ok (s', o) → step (f s) c = .ok (f s', o)) :
    ∀ cs s s' os, execute step' s cs = .ok (s', os) →
      execute step (f s) cs = .ok (f s', os) := by
  intro cs
  induction cs with
  | nil =>
      intro s s' os h
      cases h
      rfl
  | cons c cs ih =>
      intro s s' os h
      obtain ⟨s1, o, os', h1, hrest, rfl⟩ := execute_cons_ok h
      rw [execute_cons (hf s c s1 o h1), ih s1 s' os' hrest]
      rfl

/-! ## Other components on the same inputs -/

/-- A component that answers a translated input as `step` answers the input. -/
theorem execute_map {C' O' : Type} {step' : S → C' → Except E (S × O')}
    {f : C → C'} {g : O → O'}
    (h : ∀ s c, step' s (f c) = (step s c).map (fun r => (r.1, g r.2))) :
    ∀ cs s, execute step' s (cs.map f)
      = (execute step s cs).map (fun r => (r.1, r.2.map g)) := by
  intro cs
  induction cs with
  | nil => exact fun _ => rfl
  | cons c cs ih =>
      intro s
      rw [List.map_cons, execute, execute, h]
      cases step s c with
      | error e => rfl
      | ok r =>
          show (execute step' r.1 (cs.map f) >>= _) = _
          rw [ih]
          show ((execute step r.1 cs).map _ >>= _)
            = (execute step r.1 cs >>= _).map _
          cases execute step r.1 cs <;> rfl

/-- A component that is given only some of the inputs of a run, and follows the
    run on these: `R` is kept by the others. -/
theorem execute_filter {S' O' : Type} {step' : S' → C → Except E (S' × O')}
    {R : S → S' → Prop} {Q : O → O' → Prop} {p : C → Prop} [DecidablePred p]
    (hskip : ∀ s t c s' o, R s t → ¬ p c → step s c = .ok (s', o) → R s' t)
    (htake : ∀ s t c s' o, R s t → p c → step s c = .ok (s', o) →
      ∃ t' o', step' t c = .ok (t', o') ∧ R s' t' ∧ Q o o') :
    ∀ (done : List (C × O)) s t s', R s t →
      execute step s (done.map Prod.fst) = .ok (s', done.map Prod.snd) →
      ∃ t' os', execute step' t ((done.filter (p ·.1)).map Prod.fst)
          = .ok (t', os') ∧ R s' t' ∧
        List.Forall₂ Q ((done.filter (p ·.1)).map Prod.snd) os' := by
  intro done
  induction done with
  | nil =>
      intro s t s' hR hrun
      cases hrun
      exact ⟨t, [], rfl, hR, .nil⟩
  | cons d done ih =>
      intro s t s' hR hrun
      obtain ⟨c, o⟩ := d
      obtain ⟨s₁, o₁, os, hstep, hrest, heq⟩ := execute_cons_ok hrun
      obtain ⟨rfl, rfl⟩ := List.cons.inj heq
      by_cases hp : p c
      · obtain ⟨t₁, o', hstep', hR₁, hQ⟩ := htake s t c s₁ o hR hp hstep
        obtain ⟨t', os', hrun', hR', hQs⟩ := ih s₁ t₁ s' hR₁ hrest
        rw [List.filter_cons_of_pos (by simpa using hp)]
        exact ⟨t', o' :: os', execute_cons_of hstep' hrun', hR', .cons hQ hQs⟩
      · rw [List.filter_cons_of_neg (by simpa using hp)]
        exact ih s₁ t s' (hskip s t c s₁ o hR hp hstep) hrest

/-! ## Side by side -/

section Beside

variable {S' : Type} {step' : S' → C → Except E (S' × O)} {skip : C → Prop}
  [DecidablePred skip]

/-- Two components on the same inputs; the second is spared those that `skip`
    picks. -/
def beside (step : S → C → Except E (S × O))
    (step' : S' → C → Except E (S' × O)) (skip : C → Prop)
    [DecidablePred skip] (s : S × S') (c : C) :
    Except E ((S × S') × O × Option O) := do
  let (s₁, o) ← step s.1 c
  if skip c then
    return ((s₁, s.2), o, none)
  else
    let (s₂, o') ← step' s.2 c
    return ((s₁, s₂), o, some o')

theorem beside_spared {s s' : S} {t : S'} {c : C} {o : O}
    (h : step s c = .ok (s', o)) (hc : skip c) :
    beside step step' skip (s, t) c = .ok ((s', t), o, none) := by
  show (step s c >>= _) = _
  rw [h]
  exact if_pos hc

theorem beside_both {s s' : S} {t t' : S'} {c : C} {o o' : O}
    (h : step s c = .ok (s', o)) (h' : step' t c = .ok (t', o'))
    (hc : ¬ skip c) :
    beside step step' skip (s, t) c = .ok ((s', t'), o, some o') := by
  show (step s c >>= _) = _
  rw [h]
  refine (if_neg hc).trans ?_
  show (step' t c >>= _) = _
  rw [h']
  rfl

/-- Two runs are one run side by side, when nothing is spared. -/
theorem execute_beside :
    ∀ {cs : List C} {s s' : S} {t t' : S'} {os os' : List O},
      (∀ c ∈ cs, ¬ skip c) → execute step s cs = .ok (s', os) →
      execute step' t cs = .ok (t', os') →
      ∃ r, execute (beside step step' skip) (s, t) cs = .ok ((s', t'), r) := by
  intro cs
  induction cs with
  | nil =>
      intro s s' t t' os os' _ h h'
      cases h
      cases h'
      exact ⟨[], rfl⟩
  | cons c cs ih =>
      intro s s' t t' os os' hskip h h'
      obtain ⟨s₁, o, os₁, hstep, hrest, -⟩ := execute_cons_ok h
      obtain ⟨t₁, o', os₂, hstep', hrest', -⟩ := execute_cons_ok h'
      obtain ⟨r, hr⟩ := ih
        (fun c hmem => hskip c (List.mem_cons_of_mem _ hmem)) hrest hrest'
      refine ⟨(o, some o') :: r, ?_⟩
      rw [execute_cons (beside_both hstep hstep'
        (hskip c List.mem_cons_self)), hr]
      rfl

end Beside

/-! ## What a run ends in -/

section Ends

open Outcome

variable {F : E → Prop}

/-- **EVERY RUN ENDS AS ITS STEPS DO**, when on inputs that meet a condition
    they keep an invariant of the inputs so far, the state and the outputs so
    far. -/
theorem execute_ends {I : List C → S → List O → Prop} {J : C → Prop}
    (hstep : ∀ cs s os c, I cs s os → J c →
      Ends F (fun r => I (cs ++ [c]) r.1 (os ++ [r.2])) (step s c)) {s : S}
    (hI : I [] s []) {cs : List C} (hcs : ∀ c ∈ cs, J c) :
    Ends F (fun r => I cs r.1 r.2) (execute step s cs) := by
  have hlater : ∀ ds cs s os, I cs s os → (∀ c ∈ ds, J c) →
      Ends F (fun r => I (cs ++ ds) r.1 (os ++ r.2)) (execute step s ds) := by
    intro ds
    induction ds with
    | nil =>
        intro cs s os hI _
        show I (cs ++ []) s (os ++ [])
        rw [List.append_nil, List.append_nil]
        exact hI
    | cons c ds ih =>
        intro cs s os hI hds
        have hnext := hstep cs s os c hI (hds c List.mem_cons_self)
        rw [execute]
        refine hnext.bind (fun r hr => ?_)
        have hrest := ih _ r.1 _ hr
          (fun c' hc' => hds c' (List.mem_cons_of_mem c hc'))
        refine hrest.bind (fun t ht => ?_)
        rw [List.append_assoc, List.append_assoc] at ht
        exact ht
  exact hlater cs [] s [] hI hcs

end Ends

end Execution
