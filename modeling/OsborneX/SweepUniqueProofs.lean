import OsborneX.SweepProofs

/-! # The sweep is a function — of the two sides and the incoming order

    `Sweep` is a relation, read off matching.  It has one outcome: the best
    opposite level is the longest run of one price, and the inner loop has no
    choice.  So two books whose sides correspond are swept in correspondence,
    which is how two runs are compared.

    Nor is there a choice in how a side's orders stand in levels
    (`Grouped.unique`). -/

namespace OsxSweepUnique

open OsxOrderbook OsxCrossing OsxLink OsxCalls OsxSweep

variable {P : Type}

/-- The inner loop has one outcome. -/
theorem Cross.unique {xs ys xs' ys' xs'' ys'' : List (Order P)}
    {pairs pairs' : List (Pairing P)} (h : Cross xs ys pairs xs' ys')
    (h' : Cross xs ys pairs' xs'' ys'') :
    pairs' = pairs ∧ xs'' = xs' ∧ ys'' = ys' := by
  induction h generalizing pairs' xs'' ys'' with
  | done h =>
      cases h' with
      | done _ => exact ⟨rfl, rfl, rfl⟩
      | pair _ _ _ =>
          rcases h with h | h
          · cases h
          · cases h
  | pair q hq _ ih =>
      cases h' with
      | done h' =>
          rcases h' with h' | h'
          · cases h'
          · cases h'
      | pair q' hq' h' =>
          rw [← hq] at hq'
          subst hq'
          obtain ⟨rfl, rfl, rfl⟩ := ih h'
          exact ⟨rfl, rfl, rfl⟩

/-- The best level of a side is the run of its first price. -/
theorem level_unique {lt : P → P → Prop} [Std.Irrefl lt]
    {A as B bs : List (Order P)} {pa pb : P} (heq : B ++ bs = A ++ as)
    (hA : ∀ y ∈ A, y.price = pa) (has : ∀ y ∈ as, lt y.price pa)
    (hA0 : A ≠ []) (hB : ∀ y ∈ B, y.price = pb)
    (hbs : ∀ y ∈ bs, lt y.price pb) (hB0 : B ≠ []) :
    B = A ∧ bs = as ∧ pb = pa := by
  have hprice : pb = pa := by
    cases A with
    | nil => exact absurd rfl hA0
    | cons y A =>
        cases B with
        | nil => exact absurd rfl hB0
        | cons z B =>
            obtain ⟨rfl, -⟩ := List.cons.inj heq
            exact (hB z List.mem_cons_self).symm.trans
              (hA z List.mem_cons_self)
  subst hprice
  -- neither level can reach past the other's end
  have hside : ∀ {X Y xs ys : List (Order P)},
      (∀ y ∈ Y, y.price = pb) → (∀ x ∈ xs, lt x.price pb) →
      X ++ xs = Y ++ ys → Y.length ≤ X.length := by
    intro X Y xs ys hY hxs hXY
    by_contra hlt
    have hlt : X.length < Y.length := Nat.lt_of_not_le hlt
    have hget : (X ++ xs)[X.length]? = (Y ++ ys)[X.length]? := by rw [hXY]
    rw [List.getElem?_append_right (Nat.le_refl _), Nat.sub_self,
      List.getElem?_append_left hlt, List.getElem?_eq_getElem hlt] at hget
    have hmem := List.mem_of_getElem? hget
    have hworse := hxs _ hmem
    rw [hY _ (List.getElem_mem hlt)] at hworse
    exact Std.Irrefl.irrefl _ hworse
  have hlength := Nat.le_antisymm (hside hB has heq.symm)
    (hside hA hbs heq)
  obtain ⟨h1, h2⟩ := List.append_inj heq hlength
  exact ⟨h1, h2, rfl⟩

/-- A level that crosses shows the order an acceptable price. -/
theorem not_rest {lt : P → P → Prop} {o : Order P} {A as : List (Order P)}
    {pa : P} (hA : ∀ y ∈ A, y.price = pa) (hA0 : A ≠ [])
    (hcross : ¬ lt pa o.price) :
    ¬ ∀ y ∈ A ++ as, lt y.price o.price := by
  intro hno
  obtain ⟨y, hy⟩ := List.exists_mem_of_ne_nil _ hA0
  have hlt := hno y (List.mem_append_left _ hy)
  rw [hA y hy] at hlt
  exact hcross hlt

/-- **THE SWEEP HAS ONE OUTCOME.** -/
theorem Sweep.unique {lt : P → P → Prop} [DecidableRel lt] [Std.Irrefl lt]
    {o : Order P} {own own' own'' opp opp' opp'' : List (Order P)}
    {log log' : List (Round P)} (h : Sweep lt own o opp log own' opp')
    (h' : Sweep lt own o opp log' own'' opp'') :
    log' = log ∧ own'' = own' ∧ opp'' = opp' := by
  -- each step of the one sweep is matched with the step of the other: both
  -- take the same best level, and its inner loop has one outcome
  generalize hopp : opp = L at h'
  induction h generalizing log' own'' opp'' L with
  | rest hno =>
      cases h' with
      | rest _ => subst hopp; exact ⟨rfl, rfl, rfl⟩
      | filled hA _ hA0 hcross _ =>
          subst hopp
          exact absurd hno (not_rest hA hA0 hcross)
      | killed hA _ hA0 hcross _ _ =>
          subst hopp
          exact absurd hno (not_rest hA hA0 hcross)
      | next hA _ hA0 hcross _ _ _ =>
          subst hopp
          exact absurd hno (not_rest hA hA0 hcross)
  | filled hA has hA0 hcross hc =>
      cases h' with
      | rest hno =>
          subst hopp
          exact absurd hno (not_rest hA hA0 hcross)
      | filled hB hbs hB0 _ hc' =>
          obtain ⟨rfl, rfl, rfl⟩ :=
            level_unique hopp.symm hA has hA0 hB hbs hB0
          obtain ⟨rfl, -, rfl⟩ := Cross.unique hc hc'
          exact ⟨rfl, rfl, rfl⟩
      | killed hB hbs hB0 _ hc' _ =>
          obtain ⟨rfl, rfl, rfl⟩ :=
            level_unique hopp.symm hA has hA0 hB hbs hB0
          obtain ⟨-, hleft, -⟩ := Cross.unique hc hc'
          cases hleft
      | next hB hbs hB0 _ hc' _ _ =>
          obtain ⟨rfl, rfl, rfl⟩ :=
            level_unique hopp.symm hA has hA0 hB hbs hB0
          obtain ⟨-, hleft, -⟩ := Cross.unique hc hc'
          cases hleft
  | killed hA has hA0 hcross hc hk =>
      cases h' with
      | rest hno =>
          subst hopp
          exact absurd hno (not_rest hA hA0 hcross)
      | filled hB hbs hB0 _ hc' =>
          obtain ⟨rfl, rfl, rfl⟩ :=
            level_unique hopp.symm hA has hA0 hB hbs hB0
          obtain ⟨-, hleft, -⟩ := Cross.unique hc hc'
          cases hleft
      | killed hB hbs hB0 _ hc' _ =>
          obtain ⟨rfl, rfl, rfl⟩ :=
            level_unique hopp.symm hA has hA0 hB hbs hB0
          obtain ⟨rfl, hleft, -⟩ := Cross.unique hc hc'
          cases hleft
          exact ⟨rfl, rfl, rfl⟩
      | next _ _ _ _ _ hno _ => exact absurd hk hno
  | next hA has hA0 hcross hc hk _ ih =>
      cases h' with
      | rest hno =>
          subst hopp
          exact absurd hno (not_rest hA hA0 hcross)
      | filled hB hbs hB0 _ hc' =>
          obtain ⟨rfl, rfl, rfl⟩ :=
            level_unique hopp.symm hA has hA0 hB hbs hB0
          obtain ⟨-, hleft, -⟩ := Cross.unique hc hc'
          cases hleft
      | killed _ _ _ _ _ hyes => exact absurd hyes hk
      | next hB hbs hB0 _ hc' _ h' =>
          obtain ⟨rfl, rfl, rfl⟩ :=
            level_unique hopp.symm hA has hA0 hB hbs hB0
          obtain ⟨rfl, hleft, -⟩ := Cross.unique hc hc'
          cases hleft
          obtain ⟨rfl, rfl, rfl⟩ := ih _ rfl h'
          exact ⟨rfl, rfl, rfl⟩

/-! ## The levels of a side -/

/-- A side as its levels: each price with the orders resting there. -/
def levelOrders {lt : P → P → Prop} (heap : OrderPointer → Order P)
    (levels : Levels P lt) : List (P × List (Order P)) :=
  levels.entries.map (fun e => (e.1, e.2.map heap))

/-- The levels are non-empty, hold orders of their price, and stand best price
    first. -/
structure Grouped (lt : P → P → Prop) (levels : List (P × List (Order P))) :
    Prop where
  nonempty : ∀ e ∈ levels, e.2 ≠ []
  placed : ∀ e ∈ levels, ∀ o ∈ e.2, o.price = e.1
  sorted : levels.Pairwise (fun e e' => lt e.1 e'.1)

theorem Grouped.tail {lt : P → P → Prop} {e : P × List (Order P)}
    {rest : List (P × List (Order P))} (h : Grouped lt (e :: rest)) :
    Grouped lt rest where
  nonempty := fun e' he' => h.nonempty e' (List.mem_cons_of_mem _ he')
  placed := fun e' he' => h.placed e' (List.mem_cons_of_mem _ he')
  sorted := (List.pairwise_cons.mp h.sorted).2

/-- The orders behind the first level are strictly worse. -/
theorem Grouped.behind {lt : P → P → Prop} {e : P × List (Order P)}
    {rest : List (P × List (Order P))} (h : Grouped lt (e :: rest)) :
    ∀ o ∈ rest.flatMap Prod.snd, lt e.1 o.price := by
  intro o ho
  obtain ⟨e', he', hoe⟩ := List.mem_flatMap.mp ho
  rw [h.tail.placed e' he' o hoe]
  exact (List.pairwise_cons.mp h.sorted).1 e' he'

/-- **THE ORDERS DETERMINE THE LEVELS.** -/
theorem Grouped.unique {lt : P → P → Prop} [Std.Irrefl lt]
    {levels : List (P × List (Order P))} (h : Grouped lt levels) :
    ∀ {levels' : List (P × List (Order P))}, Grouped lt levels' →
      levels'.flatMap Prod.snd = levels.flatMap Prod.snd →
      levels' = levels := by
  have hirrefl : Std.Irrefl (fun a b => lt b a) := ⟨Std.Irrefl.irrefl⟩
  have hnil : ∀ {e : P × List (Order P)} {rest : List (P × List (Order P))},
      Grouped lt (e :: rest) → (e :: rest).flatMap Prod.snd ≠ [] := by
    intro e rest h heq
    rw [List.flatMap_cons] at heq
    exact h.nonempty e List.mem_cons_self (List.append_eq_nil_iff.mp heq).1
  induction levels with
  | nil =>
      intro levels' h' heq
      cases levels' with
      | nil => rfl
      | cons e rest => exact absurd heq (hnil h')
  | cons e rest ih =>
      intro levels' h' heq
      cases levels' with
      | nil => exact absurd heq.symm (hnil h)
      | cons e' rest' =>
          obtain ⟨k, A⟩ := e
          obtain ⟨k', A'⟩ := e'
          rw [List.flatMap_cons, List.flatMap_cons] at heq
          obtain ⟨rfl, hrest, rfl⟩ := @level_unique P (fun a b => lt b a)
            hirrefl _ _ _ _ _ _ heq (h.placed _ List.mem_cons_self) h.behind
            (h.nonempty _ List.mem_cons_self)
            (h'.placed _ List.mem_cons_self) h'.behind
            (h'.nonempty _ List.mem_cons_self)
          rw [ih h.tail h'.tail hrest]

theorem Housed.grouped {lt : P → P → Prop} {heap : OrderPointer → Order P}
    {side : Side} {levels : Levels P lt} (h : Housed heap side levels) :
    Grouped lt (levelOrders heap levels) where
  nonempty := by
    intro e he hnil
    obtain ⟨e', he', rfl⟩ := List.mem_map.mp he
    exact h.nonempty e' he' (List.map_eq_nil_iff.mp hnil)
  placed := by
    intro e he o ho
    obtain ⟨e', he', rfl⟩ := List.mem_map.mp he
    obtain ⟨p, hp, rfl⟩ := List.mem_map.mp ho
    exact (h.placed e' he' p hp).2
  sorted := List.pairwise_map.mpr levels.sorted

theorem levelOrders_flatMap {lt : P → P → Prop}
    (heap : OrderPointer → Order P) (levels : Levels P lt) :
    (levelOrders heap levels).flatMap Prod.snd
      = (pointersOf levels).map heap := by
  rw [levelOrders, List.flatMap_map, pointersOf, List.map_flatMap]

end OsxSweepUnique
