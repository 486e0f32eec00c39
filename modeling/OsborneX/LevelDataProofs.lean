import OsborneX.LevelTallyProofs

/-! # Level data — when the shared aggregates stay exact

    Matching books every fill, and then ERASES the entry of a best price whose
    level it emptied.  The entry is shared by the two sides, so this is right
    only when the other side has nothing left at that price.

    For the price levels the incoming order goes through it always is.  At the
    order's OWN limit it depends: `Spares` is the condition on the book before
    the order under which the entry there survives, and every run whose calls
    meet it keeps the aggregates exact. -/

namespace OsxLevelData

open OsxOrderbook OsxCrossing OsxLink OsxMatching OsxCalls OsxRepresentation
open OsxSweep OsxReachable OsxTally

variable {P : Type}

/-! ## Quantities along a sweep -/

/-- What is left of a list of orders. -/
def weight (L : List (Order P)) : Nat :=
  (L.map Order.remainingQuantity).sum

theorem weight_append (L M : List (Order P)) :
    weight (L ++ M) = weight L + weight M := by
  rw [weight, List.map_append, List.sum_append]
  rfl

theorem weight_eq_zero {L : List (Order P)}
    (h : ∀ x ∈ L, 0 < x.remainingQuantity) (hw : weight L = 0) : L = [] := by
  cases L with
  | nil => rfl
  | cons x L =>
      have hx := h x List.mem_cons_self
      have hsum : weight (x :: L) = x.remainingQuantity + weight L := rfl
      omega

theorem remaining_le_weight {L : List (Order P)} {x : Order P}
    (h : x ∈ L) : x.remainingQuantity ≤ weight L := by
  induction L with
  | nil => cases h
  | cons y L ih =>
      have hsum : weight (y :: L) = y.remainingQuantity + weight L := rfl
      rcases List.mem_cons.mp h with rfl | h
      · omega
      · have := ih h
        omega

theorem weight_leave {o : Order P} {q : Nat} (hq : q ≤ o.remainingQuantity)
    (L : List (Order P)) :
    weight (leave (o.fill q) L) + q = o.remainingQuantity + weight L := by
  rw [leave]
  by_cases hf : (o.fill q).isFilled = true
  · rw [if_pos hf]
    rw [isFilled_fill hq] at hf
    omega
  · rw [if_neg hf]
    show (o.fill q).remainingQuantity + weight L + q = _
    rw [fill_remainingQuantity hq]
    omega

/-- The two sides of the inner loop lose the same quantity. -/
theorem Cross.weight {xs ys xs' ys' : List (Order P)}
    {pairs : List (Pairing P)} (h : Cross xs ys pairs xs' ys') :
    weight xs + weight ys' = weight ys + weight xs' := by
  induction h with
  | done _ => exact Nat.add_comm _ _
  | @pair a b xs ys xs' ys' pairs q hq _ ih =>
      have ha : q ≤ a.remainingQuantity := by
        rw [hq]; exact Nat.min_le_left _ _
      have hb : q ≤ b.remainingQuantity := by
        rw [hq]; exact Nat.min_le_right _ _
      have h1 := weight_leave ha xs
      have h2 := weight_leave hb ys
      have h3 : OsxLevelData.weight (a :: xs)
          = a.remainingQuantity + OsxLevelData.weight xs := rfl
      have h4 : OsxLevelData.weight (b :: ys)
          = b.remainingQuantity + OsxLevelData.weight ys := rfl
      omega

section Depth

variable {lt : P → P → Prop} [DecidableRel lt]

/-- The opposite quantity at prices an order with this limit accepts. -/
def depth (lt : P → P → Prop) [DecidableRel lt] (limit : P)
    (opp : List (Order P)) : Nat :=
  weight (opp.filter (fun y => ¬ lt y.price limit))

theorem depth_append {limit : P} {A as : List (Order P)}
    (hA : ∀ y ∈ A, ¬ lt y.price limit) :
    depth lt limit (A ++ as) = weight A + depth lt limit as := by
  have hself : A.filter (fun y => ¬ lt y.price limit) = A :=
    List.filter_eq_self.mpr (fun y hy => by simpa using hA y hy)
  rw [depth, List.filter_append, weight_append, hself]
  rfl

theorem depth_eq_zero {limit : P} {opp : List (Order P)}
    (h : ∀ y ∈ opp, lt y.price limit) : depth lt limit opp = 0 := by
  have hnil : opp.filter (fun y => ¬ lt y.price limit) = [] :=
    List.filter_eq_nil_iff.mpr (fun y hy => by simpa using h y hy)
  rw [depth, hnil]
  rfl

theorem remaining_le_depth {limit : P} {opp : List (Order P)} {y : Order P}
    (hy : y ∈ opp) (hacc : ¬ lt y.price limit) :
    y.remainingQuantity ≤ depth lt limit opp := by
  have hmem : y ∈ opp.filter (fun y => ¬ lt y.price limit) :=
    List.mem_filter.mpr ⟨hy, by simpa using hacc⟩
  exact remaining_le_weight hmem

end Depth

theorem restBehind_perm {lt : P → P → Prop} [DecidableRel lt] (o : Order P)
    (L : List (Order P)) : (restBehind lt o L).Perm (o :: L) := by
  induction L with
  | nil => exact List.Perm.refl _
  | cons r rs ih =>
      show (if lt o.price r.price then o :: r :: rs
        else r :: restBehind lt o rs).Perm _
      split
      · exact List.Perm.refl _
      · exact (ih.cons r).trans (List.Perm.swap _ _ _)

/-- An order that crosses is at no price of its own side. -/
theorem off_own {lt : P → P → Prop} {pa : P} {own A as : List (Order P)}
    (hA : ∀ y ∈ A, y.price = pa) (hA0 : A ≠ [])
    (hu : ∀ w ∈ own, ∀ y ∈ A ++ as, lt y.price w.price) :
    ∀ w ∈ own, lt pa w.price := by
  intro w hw
  obtain ⟨y, hy⟩ := List.exists_mem_of_ne_nil _ hA0
  rw [← hA y hy]
  exact hu w hw y (List.mem_append.mpr (Or.inl hy))

/-- Nothing is left at the price of an emptied opposite level. -/
theorem off_level {lt : P → P → Prop} [IsStrictTotalOrder P lt] {pa : P}
    {own as : List (Order P)}
    (hown : ∀ w ∈ own, lt pa w.price) (has : ∀ y ∈ as, lt y.price pa) :
    ∀ r ∈ own ++ as, r.price ≠ pa := by
  intro r hr
  rcases List.mem_append.mp hr with hr | hr
  · exact (ne_of_irrefl (hown r hr)).symm
  · exact ne_of_irrefl (has r hr)

/-- The best level, seen before the orders it does not touch. -/
theorem level_perm (o : Order P) (own A as : List (Order P)) :
    (o :: (own ++ (A ++ as))).Perm ([o] ++ (A ++ (own ++ as))) := by
  refine List.Perm.cons o ?_
  rw [← List.append_assoc, ← List.append_assoc]
  exact List.perm_append_comm.append_right as

/-! ## Tallies along a sweep -/

section Sweeping

variable {lt : P → P → Prop} [IsStrictTotalOrder P lt] {x : P} {o : Order P}
  {log : List (Round P)} {own own' opp opp' : List (Order P)}

/-- Nothing is left at the price of an exhausted level, the remainder of the
    order included, when that is not the order's limit. -/
theorem off_exhausted {pa : P} {r : Order P} {A as : List (Order P)}
    {pairs : List (Pairing P)} (hA : ∀ y ∈ A, y.price = pa) (hA0 : A ≠ [])
    (has : ∀ y ∈ as, lt y.price pa) (hown : ∀ w ∈ own, lt pa w.price)
    (hc : Cross [o] A pairs [r] [])
    (hx : x ≠ o.price ∨ ∀ y ∈ A ++ as, y.price ≠ x) (hxa : x = pa) :
    ∀ w ∈ r :: (own ++ as), w.price ≠ x := by
  have hne : x ≠ o.price := by
    rcases hx with hx | hx
    · exact hx
    · obtain ⟨y, hy⟩ := List.exists_mem_of_ne_nil _ hA0
      exact absurd ((hA y hy).trans hxa.symm)
        (hx y (List.mem_append.mpr (Or.inl hy)))
  intro w hw
  rcases List.mem_cons.mp hw with rfl | hw
  · rw [(Cross.remainder hc).fields.2.2.2.1]
    exact hne.symm
  · rw [hxa]
    exact off_level hown has w hw

variable [LinearOrder P] [DecidableRel lt]

theorem Tallied.congr {ld ld' : LevelDataMap P} {L : List (Order P)}
    (h : Tallied x ld L) (heq : ld'.find? x = ld.find? x) :
    Tallied x ld' L := by
  refine ⟨h.1, ?_⟩
  rw [heq]
  exact h.2

/-- An absent entry stands for no order. -/
theorem Tallied.of_none {ld : LevelDataMap P} {L : List (Order P)}
    (h : ld.find? x = none) (hc : ∀ r ∈ L, r.price ≠ x) : Tallied x ld L := by
  have h0 := countAt_eq_zero.mpr hc
  refine ⟨by rw [h0]; decide, ?_⟩
  rw [h0, if_pos rfl, h]

/-- One round on a tally: where it erases an entry, no order may be left. -/
theorem Round.tallied (side : Side) {r : Round P} (hk : r.killedAsk = none)
    {L L' : List (Order P)} {ld : LevelDataMap P}
    (hpairs : Tallied x (pairsBooked side ld r.pairs) L)
    (hgone : gone r x → ∀ o ∈ L, o.price ≠ x)
    (hkill : (r.killedBid = none ∧ L = L') ∨
      ∃ o, r.killedBid = some o ∧ L = o :: L') :
    Tallied x ((roundOn side r).apply ld) L' := by
  obtain ⟨D, hD, hfind⟩ := apply_roundOn side ld r hk
  rw [hD]
  have hLD : Tallied x D L := by
    by_cases hg : gone r x
    · exact Tallied.of_none ((hfind x).1 hg) (hgone hg)
    · exact Tallied.congr hpairs ((hfind x).2 hg)
  rcases hkill with ⟨hno, rfl⟩ | ⟨o, ho, rfl⟩
  · rw [hno]
    exact hLD
  · rw [ho]
    exact hLD.remove

/-- **AWAY FROM THE LIMIT, OR WITH NOTHING OPPOSITE AT IT**, a sweep keeps a
    tally. -/
theorem Sweep.tallied (side : Side)
    (h : Sweep lt own o opp log own' opp') :
    (∀ w ∈ own, ∀ y ∈ opp, lt y.price w.price) →
    (x ≠ o.price ∨ ∀ y ∈ opp, y.price ≠ x) →
    ∀ ld : LevelDataMap P, Tallied x ld (o :: (own ++ opp)) →
      Tallied x (booked side ld log) (own' ++ opp') := by
  -- each level keeps the tally of its pairs; the erasures are checked after
  induction h with
  | @rest o opp h =>
      intro _ _ ld ht
      exact ht.perm ((restBehind_perm o own).symm.append_right opp)
  | @filled o A A' as pa pairs hA has hA0 hcross hc =>
      intro hu hx ld ht
      have hown := off_own hA hA0 hu
      have hpairs : Tallied x _ ([] ++ (A' ++ (own ++ as))) :=
        Cross.tallied side hc ld (ht.perm (level_perm o own A as))
      have hback : ([] ++ (A' ++ (own ++ as))).Perm (own ++ (A' ++ as)) := by
        rw [List.nil_append, ← List.append_assoc, ← List.append_assoc]
        exact List.perm_append_comm.append_right as
      refine Round.tallied side rfl (hpairs.perm hback) ?_ (Or.inl ⟨rfl, rfl⟩)
      have hA' : ∀ r ∈ A', r.price = pa := by
        intro r hr
        obtain ⟨y, hy, hterms⟩ := (Cross.left_terms hc).2 r hr
        rw [hterms.fields.2.2.2.1]
        exact hA y hy
      rintro (⟨-, hxp⟩ | ⟨hempty, hxa⟩) r hr
      · -- the incoming level: nothing opposite is at the limit
        have hxp' : x = o.price := hxp
        have hopp : ∀ y ∈ A ++ as, y.price ≠ x := by
          rcases hx with hx | hx
          · exact absurd hxp' hx
          · exact hx
        rcases List.mem_append.mp hr with hr | hr
        · intro heq
          have hlt := hown r hr
          rw [heq, hxp'] at hlt
          exact hcross hlt
        · rcases List.mem_append.mp hr with hr | hr
          · obtain ⟨y, hy⟩ := List.exists_mem_of_ne_nil _ hA0
            rw [hA' r hr, ← hA y hy]
            exact hopp y (List.mem_append.mpr (Or.inl hy))
          · exact hopp r (List.mem_append.mpr (Or.inr hr))
      · -- the opposite level: it went with its last order
        have hxa' : x = pa := hxa
        have hnil : A' = [] := List.isEmpty_iff.mp hempty
        subst hnil
        rw [hxa']
        exact off_level hown has r hr
  | @killed o r A as pa pairs hA has hA0 hcross hc hk =>
      intro hu hx ld ht
      have hpairs : Tallied x _ (r :: (own ++ as)) :=
        Cross.tallied side hc ld (ht.perm (level_perm o own A as))
      refine Round.tallied side rfl hpairs ?_ (Or.inr ⟨r, rfl, rfl⟩)
      rintro (⟨hno, -⟩ | ⟨-, hxa⟩)
      · cases hno
      · exact off_exhausted hA hA0 has (off_own hA hA0 hu) hc hx hxa
  | @next o r A as own' opp' pa pairs log hA has hA0 hcross hc hk h ih =>
      intro hu hx ld ht
      have hpairs : Tallied x _ (r :: (own ++ as)) :=
        Cross.tallied side hc ld (ht.perm (level_perm o own A as))
      have hround : Tallied x ((roundOn side ⟨o.price, pa, pairs, false, true,
          none, none⟩).apply ld) (r :: (own ++ as)) := by
        refine Round.tallied side rfl hpairs ?_ (Or.inl ⟨rfl, rfl⟩)
        rintro (⟨hno, -⟩ | ⟨-, hxa⟩)
        · cases hno
        · exact off_exhausted hA hA0 has (off_own hA hA0 hu) hc hx hxa
      refine ih (fun w hw y hy => hu w hw y (List.mem_append.mpr (Or.inr hy)))
        ?_ _ hround
      rcases hx with hx | hx
      · refine Or.inl ?_
        rw [(Cross.remainder hc).fields.2.2.2.1]
        exact hx
      · exact Or.inr (fun y hy => hx y (List.mem_append.mpr (Or.inr hy)))

/-- **TRADING EXACTLY WHAT IS ACCEPTABLE** exhausts the limit price on both
    sides, and the entry there is erased with the last order. -/
theorem Sweep.exhausted (side : Side)
    (h : Sweep lt own o opp log own' opp') :
    (∀ w ∈ own, ∀ y ∈ opp, lt y.price w.price) →
    0 < o.remainingQuantity → (∀ y ∈ opp, 0 < y.remainingQuantity) →
    (o.orderType = .fillAndKill →
      ∀ best ∈ opp.head?, best.price = o.price) →
    (∃ y ∈ opp, y.price = o.price) →
    o.remainingQuantity = depth lt o.price opp →
    ∀ ld : LevelDataMap P,
      Tallied o.price (booked side ld log) (own' ++ opp') := by
  -- what an exhausted level leaves of the order is what is acceptable behind
  have hrest : ∀ {o r : Order P} {A as : List (Order P)} {pa : P}
      {pairs : List (Pairing P)}, (∀ y ∈ A, y.price = pa) →
      ¬ lt pa o.price → Cross [o] A pairs [r] [] →
      o.remainingQuantity = depth lt o.price (A ++ as) →
      r.remainingQuantity = depth lt o.price as := by
    intro o r A as pa pairs hA hcross hc hdepth
    have hw := Cross.weight hc
    rw [depth_append (fun y hy => by rw [hA y hy]; exact hcross)] at hdepth
    have h1 : weight [o] = o.remainingQuantity := Nat.add_zero _
    have h2 : weight [r] = r.remainingQuantity := Nat.add_zero _
    have h3 : weight ([] : List (Order P)) = 0 := rfl
    omega
  have hpositive : ∀ {o r : Order P} {A : List (Order P)}
      {pairs : List (Pairing P)}, 0 < o.remainingQuantity →
      (∀ y ∈ A, 0 < y.remainingQuantity) → Cross [o] A pairs [r] [] →
      0 < r.remainingQuantity := by
    intro o r A pairs ho hA hc
    refine (hc.positive ?_ hA).1 r List.mem_cons_self
    intro w hw
    rw [List.mem_singleton.mp hw]
    exact ho
  induction h with
  | @rest o opp h =>
      rintro - - - - ⟨y, hy, hyp⟩ - ld
      have hlt := h y hy
      rw [hyp] at hlt
      exact absurd hlt (irrefl_of lt _)
  | @filled o A A' as pa pairs hA has hA0 hcross hc =>
      rintro hu ho hopp - ⟨y, hy, hyp⟩ hdepth ld
      have hown := off_own hA hA0 hu
      have hw := Cross.weight hc
      rw [depth_append (fun y hy => by rw [hA y hy]; exact hcross)] at hdepth
      have h1 : weight [o] = o.remainingQuantity := Nat.add_zero _
      have h3 : weight ([] : List (Order P)) = 0 := rfl
      have hApos : ∀ y ∈ A, 0 < y.remainingQuantity :=
        fun y hy => hopp y (List.mem_append.mpr (Or.inl hy))
      have hA'pos : ∀ y ∈ A', 0 < y.remainingQuantity := by
        refine (hc.positive ?_ hApos).2
        intro w hw
        rw [List.mem_singleton.mp hw]
        exact ho
      have hA' : A' = [] := weight_eq_zero hA'pos (by omega)
      subst hA'
      have hpa : pa = o.price := by
        rcases List.mem_append.mp hy with hy | hy
        · rw [← hA y hy, hyp]
        · have hacc : ¬ lt y.price o.price := by
            rw [hyp]; exact irrefl_of lt _
          have hle := remaining_le_depth hy hacc
          have hypos := hopp y (List.mem_append.mpr (Or.inr hy))
          omega
      have hoff := off_level hown has
      rw [hpa] at hoff
      obtain ⟨D, hD, hfind⟩ := apply_roundOn side ld
        ⟨o.price, pa, pairs, true, true, none, none⟩ rfl
      show Tallied o.price ((roundOn side _).apply ld) (own ++ ([] ++ as))
      rw [List.isEmpty_nil, hD]
      exact Tallied.of_none ((hfind o.price).1 (Or.inl ⟨rfl, rfl⟩)) hoff
  | @killed o r A as pa pairs hA has hA0 hcross hc hk =>
      rintro - ho hopp hbest - hdepth ld
      have hr := hpositive ho
        (fun y hy => hopp y (List.mem_append.mpr (Or.inl hy))) hc
      have hpa : pa = o.price := by
        cases A with
        | nil => exact absurd rfl hA0
        | cons y A =>
            rw [← hA y List.mem_cons_self]
            exact hbest hk y rfl
      have hzero : depth lt o.price as = 0 :=
        depth_eq_zero (fun y hy => by rw [← hpa]; exact has y hy)
      have := hrest hA hcross hc hdepth
      omega
  | @next o r A as own' opp' pa pairs log hA has hA0 hcross hc hk h ih =>
      rintro hu ho hopp - ⟨y, hy, hyp⟩ hdepth ld
      have hr := hpositive ho
        (fun y hy => hopp y (List.mem_append.mpr (Or.inl hy))) hc
      have hleft := hrest hA hcross hc hdepth
      have hterms := hc.remainder.fields
      have hprice : r.price = o.price := hterms.2.2.2.1
      have hyas : y ∈ as := by
        rcases List.mem_append.mp hy with hy | hy
        · -- at the limit the level is the last acceptable one
          have hpa : pa = o.price := by rw [← hA y hy, hyp]
          have hzero : depth lt o.price as = 0 :=
            depth_eq_zero (fun y hy => by rw [← hpa]; exact has y hy)
          omega
        · exact hy
      have hrec := ih
        (fun w hw y hy => hu w hw y (List.mem_append.mpr (Or.inr hy))) hr
        (fun y hy => hopp y (List.mem_append.mpr (Or.inr hy)))
        (fun hrk => absurd (hterms.1.symm.trans hrk) hk)
        ⟨y, hyas, hyp.trans hprice.symm⟩ (by rw [hprice]; exact hleft)
      rw [hprice] at hrec
      exact hrec _

/-- **A FILL-AND-KILL** that exhausts a better level than its limit is booked
    out at its limit by the cancellation. -/
theorem Sweep.killed_tallied (side : Side)
    (h : Sweep lt own o opp log own' opp')
    (hu : ∀ w ∈ own, ∀ y ∈ opp, lt y.price w.price)
    (hk : o.orderType = .fillAndKill)
    (hbest : ∀ best ∈ opp.head?, best.price ≠ o.price ∧
      quantityAt best.price opp < o.remainingQuantity)
    (ld : LevelDataMap P)
    (ht : Tallied o.price ld (o :: (own ++ opp))) :
    Tallied o.price (booked side ld log) (own' ++ opp') := by
  -- only `killed` is possible: the best level alone does not fill the order
  cases h with
  | rest h => exact ht.perm ((restBehind_perm o own).symm.append_right opp)
  | @filled _ A A' as pa pairs hA has hA0 hcross hc =>
      have hw := Cross.weight hc
      have h1 : weight [o] = o.remainingQuantity := Nat.add_zero _
      have h3 : weight ([] : List (Order P)) = 0 := rfl
      have hquantity : quantityAt pa (A ++ as) = weight A := by
        have hself : restingAt pa A = A :=
          List.filter_eq_self.mpr (fun y hy => by simpa using hA y hy)
        rw [quantityAt_append, quantityAt_eq_zero
          (fun y hy => ne_of_irrefl (has y hy)), quantityAt, hself]
        rfl
      have hlt : quantityAt pa (A ++ as) < o.remainingQuantity := by
        cases A with
        | nil => exact absurd rfl hA0
        | cons y A =>
            have := (hbest y rfl).2
            rw [hA y List.mem_cons_self] at this
            exact this
      -- the level holds less than the order takes
      omega
  | @killed _ r A _ pa pairs hA has hA0 hcross hc _ =>
      have hne : pa ≠ o.price := by
        cases A with
        | nil => exact absurd rfl hA0
        | cons y A =>
            have := (hbest y rfl).1
            rw [hA y List.mem_cons_self] at this
            exact this
      have hpairs : Tallied o.price _ (r :: (own ++ opp')) :=
        Cross.tallied side hc ld (ht.perm (level_perm o own A opp'))
      refine Round.tallied side rfl hpairs ?_ (Or.inr ⟨r, rfl, rfl⟩)
      rintro (⟨hno, -⟩ | ⟨-, hxa⟩)
      · cases hno
      · exact absurd hxa hne.symm
  | next _ _ _ _ _ hno _ => exact absurd hk hno

end Sweeping

/-! ## The aggregates of a book -/

section Book

variable [LinearOrder P] {b b' : Orderbook P} {o : Order P}

/-- The aggregates are the book's: an entry exactly at the prices where orders
    rest, with their number and their total remaining quantity. -/
def Exact (b : Orderbook P) : Prop :=
  ∀ x, b.levelData.find? x
    = if countAt x (resting b) = 0 then none
      else some ⟨quantityAt x (resting b), countAt x (resting b)⟩

/-- Every price's total fits a 32-bit quantity. -/
def InRange (b : Orderbook P) : Prop :=
  ∀ x, quantityAt x (resting b) < 2 ^ 32

instance (b : Orderbook P) : Decidable (InRange b) :=
  decidable_of_iff
    (∀ o ∈ resting b, quantityAt o.price (resting b) < 2 ^ 32) <| by
    refine ⟨fun h x => ?_, fun h o _ => h o.price⟩
    by_cases hx : ∃ o ∈ resting b, o.price = x
    · obtain ⟨o, ho, rfl⟩ := hx
      exact h o ho
    · rw [quantityAt_eq_zero (fun o ho heq => hx ⟨o, ho, heq⟩)]
      decide

theorem resting_positive (h : Positive b) :
    ∀ x ∈ resting b, 0 < x.remainingQuantity := by
  intro x hx
  rcases List.mem_append.mp hx with hx | hx
  · exact h .buy x hx
  · exact h .sell x hx

/-- In range, exact aggregates are tallies and tallies are exact. -/
theorem exact_iff_tallied (hpos : Positive b) (hin : InRange b) :
    Exact b ↔ ∀ x, Tallied x b.levelData (resting b) := by
  refine forall_congr' (fun x => ?_)
  have hle := countAt_le_quantityAt (x := x) (resting_positive hpos)
  have hq := hin x
  have hmod : quantityAt x (resting b) % 2 ^ 32
      = quantityAt x (resting b) := Nat.mod_eq_of_lt hq
  constructor
  · intro h
    exact ⟨by omega, by rw [hmod]; exact h⟩
  · intro h
    have h2 := h.2
    rw [hmod] at h2
    exact h2

/-- The two sides, the order's own first. -/
theorem sides_perm {side : Side} (hs : Sided side) (b : Orderbook P) :
    (own b side ++ opposite b side).Perm (resting b) := by
  rcases hs with rfl | rfl
  · exact List.Perm.refl _
  · exact List.perm_append_comm

/-- **WHEN THE ENTRY AT THE LIMIT SURVIVES**: nothing opposite rests at the
    limit; or the order trades exactly what is acceptable to it (for a
    Fill-And-Kill order, which only trades with the best level, when that is
    the level at its limit); or it is a Fill-And-Kill order that exhausts a
    better level and is cancelled, booked in and out at a count that does not
    wrap. -/
def Spares (b : Orderbook P) (o : Order P) : Prop :=
  (∀ y ∈ opposite b o.side, y.price ≠ o.price) ∨
  ((o.orderType = .fillAndKill →
      ∀ best ∈ (opposite b o.side).head?, best.price = o.price) ∧
    o.remainingQuantity
      = depth (better o.side) o.price (opposite b o.side)) ∨
  (o.orderType = .fillAndKill ∧
    (∀ best ∈ (opposite b o.side).head?, best.price ≠ o.price ∧
      quantityAt best.price (opposite b o.side) < o.remainingQuantity) ∧
    countAt o.price (opposite b o.side) + 1 < 2 ^ 32)

instance (b : Orderbook P) (o : Order P) : Decidable (Spares b o) :=
  inferInstanceAs (Decidable (_ ∨ _ ∨ _))

/-- No order of the one side is at or past an order of the other. -/
theorem uncrossed_better (hw : WellFormed b) {side : Side} (hs : Sided side) :
    ∀ w ∈ own b side, ∀ y ∈ opposite b side, better side y.price w.price := by
  rcases hs with rfl | rfl
  · exact fun w hw' y hy => hw.uncrossed w hw' y hy
  · exact fun w hw' y hy => hw.uncrossed y hy w hw'

theorem better_strict {side : Side} (hs : Sided side) :
    IsStrictTotalOrder P (better side) := by
  rcases hs with rfl | rfl
  · exact inferInstanceAs (IsStrictTotalOrder P (fun a b => a > b))
  · exact inferInstanceAs (IsStrictTotalOrder P (fun a b => a < b))

/-- **AN EXECUTED ORDER KEEPS THE TALLIES** when it spares the entry at its
    limit. -/
theorem Executed.tallied (hst : Steady b) (hpos : Positive b)
    {b2 : Orderbook P} {log : List (Round P)} (he : Executed b o b2 b' log)
    (hs : Sided o.side) (hq : 0 < o.remainingQuantity)
    (hfull : o.initialQuantity = o.remainingQuantity) (hsp : Spares b o)
    (hin' : InRange b') (hpos' : Positive b')
    (ht : ∀ x, Tallied x b.levelData (resting b)) :
    ∀ x, Tallied x b'.levelData (resting b') := by
  have hstrict := better_strict (P := P) hs
  have hsweep := Executed.sweep hst.wellFormed hst.settled hs he
  have hu := uncrossed_better hst.wellFormed hs
  have hopp : ∀ y ∈ opposite b o.side, 0 < y.remainingQuantity := by
    rw [opposite_eq]
    exact hpos _
  have hld : b'.levelData = booked o.side (updateLevelData b.levelData
      o.price o.remainingQuantity .add) (oriented o.side log) := by
    rw [he.levelData, booked_oriented hs, he.opened.levelData, hfull]
  -- booking the order in, unless its price's count is about to wrap
  have hadd : ∀ x, (o.price = x →
      countAt x (own b o.side ++ opposite b o.side) + 1 < 2 ^ 32) →
      Tallied x (updateLevelData b.levelData o.price o.remainingQuantity .add)
        (o :: (own b o.side ++ opposite b o.side)) :=
    fun x hx => Tallied.add ((ht x).perm (sides_perm hs b).symm) hx
  have hcross : ∀ y ∈ opposite b o.side, y.price = o.price →
      countAt o.price (own b o.side) = 0 := by
    intro y hy hyp
    refine countAt_eq_zero.mpr (fun w hw => ?_)
    have hlt := hu w hw y hy
    rw [hyp] at hlt
    exact (ne_of_irrefl hlt).symm
  have hfinal : ∀ x, Tallied x (booked o.side (updateLevelData b.levelData
      o.price o.remainingQuantity .add) (oriented o.side log))
      (own b' o.side ++ opposite b' o.side) := by
    intro x
    by_cases hx : o.price = x
    · subst hx
      by_cases hat : ∃ y ∈ opposite b o.side, y.price = o.price
      · rcases hsp with hno | ⟨hbest, hdepth⟩ | ⟨hk, hbest, hcount⟩
        · obtain ⟨y, hy, hyp⟩ := hat
          exact absurd hyp (hno y hy)
        · exact Sweep.exhausted o.side hsweep hu hq hopp hbest hat hdepth _
        · obtain ⟨y, hy, hyp⟩ := hat
          refine Sweep.killed_tallied o.side hsweep hu hk hbest _
            (hadd _ (fun _ => ?_))
          rw [countAt_append, hcross y hy hyp]
          omega
      · have hoff : ∀ y ∈ opposite b o.side, y.price ≠ o.price :=
          fun y hy heq => hat ⟨y, hy, heq⟩
        refine Sweep.tallied o.side hsweep hu (Or.inr hoff) _
          (hadd _ (fun _ => ?_))
        have hzero := countAt_eq_zero.mpr hoff
        rw [countAt_append, hzero]
        by_cases hacc : ∃ y ∈ opposite b o.side,
            ¬ better o.side y.price o.price
        · -- it crosses, so nothing of its own side is at its price
          obtain ⟨y, hy, hacc⟩ := hacc
          have hzero' : countAt o.price (own b o.side) = 0 := by
            refine countAt_eq_zero.mpr (fun w hw heq => hacc ?_)
            rw [← heq]
            exact hu w hw y hy
          rw [hzero']
          decide
        · -- it rests, so the total after the call bounds the count
          have hrest : own b' o.side
              = restBehind (better o.side) o (own b o.side) := by
            refine (Sweep.rests hsweep (fun y hy => ?_)).2.1
            by_contra hno
            exact hacc ⟨y, hy, hno⟩
          have hle := countAt_le_quantityAt (x := o.price)
            (resting_positive hpos')
          have hrange := hin' o.price
          have hperm := countAt_perm (x := o.price) (sides_perm hs b')
          rw [countAt_append, hrest, countAt_perm (restBehind_perm _ _),
            countAt_cons, if_pos rfl] at hperm
          omega
    · exact Sweep.tallied o.side hsweep hu (Or.inl (fun e => hx e.symm)) _
        (hadd x (fun e => absurd e hx))
  intro x
  rw [hld]
  exact (hfinal x).perm (sides_perm hs b')

theorem Adds.tallied (hst : Steady b) (hpos : Positive b)
    {ts : List (Trade P)} (ha : Adds b o b' ts) (hs : Sided o.side)
    (hq : 0 < o.remainingQuantity)
    (hfull : o.initialQuantity = o.remainingQuantity)
    (hsp : ∀ o', Admits b o o' → Spares b o') (hin' : InRange b')
    (ht : ∀ x, Tallied x b.levelData (resting b)) :
    ∀ x, Tallied x b'.levelData (resting b') := by
  have hpos' := Adds.positive hst.wellFormed.linked hpos ha hs hq
  cases ha with
  | rejected hno =>
      obtain ⟨hbids, hasks⟩ := resting_makeShared hst.wellFormed.linked o
      have hrest : resting (b.makeShared o) = resting b := by
        rw [resting, hbids, hasks]
        rfl
      rw [hrest]
      exact ht
  | @admitted o' b2 _ log ha he =>
      obtain ⟨hside, -, hinit, hrem⟩ := effective_terms ha.effective
      exact Executed.tallied hst hpos he (by rw [hside]; exact hs)
        (by rw [hrem]; exact hq) (by rw [hinit, hrem]; exact hfull)
        (hsp o' ha) hin' hpos' ht

/-- A removed order was one of the resting ones. -/
theorem Removed.resting_perm (hl : Linked b) {p : OrderPointer}
    (hp : p ∈ pointers b) (hr : Removed b p b') :
    (resting b).Perm (b.heap p :: resting b') := by
  have hfilter : pointers b' = (pointers b).erase p := by
    rw [hl.nodup.erase_eq_filter, pointers, pointers, List.filter_append,
      hr.bids, hr.asks]
    refine congrArg₂ _ ?_ ?_ <;>
    · refine List.filter_congr (fun r _ => ?_)
      by_cases h : r = p <;> simp [bne, h]
  have hperm : (pointers b).Perm (p :: pointers b') := by
    rw [hfilter]
    exact List.perm_cons_erase hp
  have hmap := hperm.map b.heap
  rw [List.map_cons] at hmap
  rw [resting_eq, resting_eq, hr.heap]
  exact hmap

theorem Removed.tallied (hl : Linked b) {p : OrderPointer}
    (hp : p ∈ pointers b) (hr : Removed b p b')
    (ht : ∀ x, Tallied x b.levelData (resting b)) :
    ∀ x, Tallied x b'.levelData (resting b') := by
  intro x
  rw [hr.levelData]
  exact ((ht x).perm (Removed.resting_perm hl hp hr)).remove

/-! ## Every run -/

/-- The book a call leaves; the same book if the call faults. -/
def after (b : Orderbook P) (c : Call P) : Orderbook P :=
  match b.call c with
  | .ok (b', _) => b'
  | .error _ => b

/-- The book and the new order of a modification, once the old order is
    gone. -/
def replacement (b : Orderbook P) (m : OrderModify P) :
    Option (Orderbook P × Order P) :=
  match b.orders.find? m.orderId, b.cancelOrder m.orderId with
  | some entry, .ok b1 =>
      some (b1, m.toOrder (b.heap entry.order).orderType)
  | _, _ => none

/-- The call spares the entry at the limit of the order it adds; a modified
    order is added to the book without the old one. -/
def CallSpares (b : Orderbook P) : Call P → Prop
  | .addOrder orderType orderId side price quantity =>
      ∀ o' ∈ admitted b (.new orderType orderId side price quantity),
        Spares b o'
  | .cancelOrder _ => True
  | .modifyOrder m =>
      ∀ r ∈ replacement b m, ∀ o' ∈ admitted r.1 r.2, Spares r.1 o'

instance (b : Orderbook P) (c : Call P) : Decidable (CallSpares b c) :=
  match c with
  | .addOrder _ _ _ _ _ =>
      inferInstanceAs (Decidable (∀ o' ∈ (_ : Option (Order P)), _))
  | .cancelOrder _ => inferInstanceAs (Decidable True)
  | .modifyOrder _ =>
      inferInstanceAs (Decidable (∀ r ∈ (_ : Option (_ × Order P)), _))

/-- What a modification of a resting order re-adds, and to which book. -/
theorem replacement_eq (hl : Linked b) {m : OrderModify P}
    {p : OrderPointer} {b1 : Orderbook P} (hp : p ∈ pointers b)
    (hid : m.orderId = (b.heap p).orderId) (hr : Removed b p b1) :
    replacement b m = some (b1, m.toOrder (b.heap p).orderType) := by
  have hfind : b.orders.find? m.orderId = some ⟨p, p⟩ :=
    (hl.index _ _).mpr ⟨p, hp, hid.symm, rfl⟩
  rw [replacement, hfind, hid, hr.cancelled]

/-- **A CALL THAT SPARES ITS LIMIT KEEPS THE AGGREGATES EXACT.** -/
theorem Does.exact (hst : Steady b) (hpos : Positive b) (hin : InRange b)
    (hex : Exact b) {c : Call P} (hc : Regular c) (hsp : CallSpares b c)
    {ts : List (Trade P)} (hd : Does b c b' ts) (hin' : InRange b') :
    Exact b' := by
  have hl := hst.wellFormed.linked
  have hpos' := Does.positive hl hpos hc.1 hc.2 hd
  have ht := (exact_iff_tallied hpos hin).mp hex
  refine (exact_iff_tallied hpos' hin').mpr ?_
  cases hd with
  | added ha =>
      exact Adds.tallied hst hpos ha hc.1 hc.2 rfl
        (fun o' h => hsp o' (admits_iff.mp h)) hin' ht
  | cancelled hp _ hr => exact Removed.tallied hl hp hr ht
  | notFound _ => exact ht
  | @modified m p b1 _ _ hp hid hr ha =>
      have hsp' : ∀ o', Admits b1 (m.toOrder (b.heap p).orderType) o' →
          Spares b1 o' :=
        fun o' ho' => hsp _ (replacement_eq hl hp hid hr) o' (admits_iff.mp ho')
      exact Adds.tallied (Removed.steady hst hr)
        (Removed.positive hpos hr) ha hc.1 hc.2 rfl hsp' hin'
        (Removed.tallied hl hp hr ht)
  | unknown _ => exact ht

/-- Positive quantities, and every price's total in range after the call. -/
def Bounded (b : Orderbook P) (c : Call P) : Prop :=
  Regular c ∧ InRange (after b c)

instance (b : Orderbook P) (c : Call P) : Decidable (Bounded b c) :=
  inferInstanceAs (Decidable (_ ∧ _))

/-- What a run of sparing calls keeps. -/
theorem run_kept [Inhabited P] (calls : List (Call P))
    (h : Execution.Along Orderbook.call
      (fun b c => Bounded b c ∧ CallSpares b c) (.empty : Orderbook P) calls) :
    ∃ b history, Orderbook.run .empty calls = .ok (b, history) ∧
      Steady b ∧ Positive b ∧ Exact b := by
  have hstep : ∀ (b : Orderbook P) (c : Call P),
      (Steady b ∧ Positive b ∧ InRange b ∧ Exact b) →
      (Bounded b c ∧ CallSpares b c) →
      ∃ b' ts, b.call c = .ok (b', ts) ∧
        (Steady b' ∧ Positive b' ∧ InRange b' ∧ Exact b') ∧ True := by
    rintro b c ⟨hst, hpos, hin, hex⟩ ⟨⟨hreg, hafter⟩, hsp⟩
    obtain ⟨b', ts, hrun, hd⟩ := call_spec hst.wellFormed.linked hreg.1
    have hin' : InRange b' := by
      rw [after, hrun] at hafter
      exact hafter
    exact ⟨b', ts, hrun, ⟨Does.steady hst hreg.1 hd,
      Does.positive hst.wellFormed.linked hpos hreg.1 hreg.2 hd, hin',
      Does.exact hst hpos hin hex hreg hsp hd hin'⟩, trivial⟩
  obtain ⟨b, history, hrun, ⟨hst, hpos, -, hex⟩, -⟩ := Execution.execute_spec
    hstep calls .empty
    ⟨steady_empty, positive_empty, fun _ => Nat.two_pow_pos 32, fun _ => rfl⟩ h
  exact ⟨b, history, hrun, hst, hpos, hex⟩

/-- **EXACT AGGREGATES ALONG A RUN.**  Every run of calls with positive
    quantities and totals in range, each of which spares the entry at the limit
    of the order it adds, leaves the aggregates exact. -/
theorem run_exact [Inhabited P] (calls : List (Call P))
    (h : Execution.Along Orderbook.call
      (fun b c => Bounded b c ∧ CallSpares b c) (.empty : Orderbook P) calls) :
    ∃ b history, Orderbook.run .empty calls = .ok (b, history) ∧ Exact b := by
  obtain ⟨b, history, hrun, -, -, hex⟩ := run_kept calls h
  exact ⟨b, history, hrun, hex⟩

end Book

/-- A run of every kind of call whose limits are all spared: a sweep of two
    levels that ends exactly at the limit, a Fill-And-Kill that exhausts a
    better level, a partial fill and the cancellation of its remainder. -/
theorem run_exact_spared :
    ∃ (b : Orderbook Int) (history : List (List (Trade Int))),
      Orderbook.run .empty
        [.addOrder .goodTillCancel 1 .sell 100 3,
          .addOrder .goodTillCancel 2 .sell 101 4,
          .addOrder .goodTillCancel 3 .buy 101 7,
          .addOrder .goodTillCancel 4 .sell 100 5,
          .addOrder .goodTillCancel 5 .sell 102 5,
          .addOrder .fillAndKill 6 .buy 102 6,
          .addOrder .market 7 .sell 0 1,
          .addOrder .goodTillCancel 8 .buy 103 2,
          .modifyOrder ⟨5, .sell, 104, 1⟩, .cancelOrder 5]
        = .ok (b, history) ∧
      Exact b :=
  run_exact _ (by decide +kernel)

/-- **THE SHARED ENTRY IS LOST.**  A bid that empties the ask level at its own
    limit and rests there with a remainder has no entry. -/
theorem levelData_lost : ¬ ∀ (calls : List (Call Int)) (b : Orderbook Int)
    (history : List (List (Trade Int))),
    Execution.Along Orderbook.call Bounded .empty calls →
    Orderbook.run .empty calls = .ok (b, history) → Exact b := by
  intro h
  let calls : List (Call Int) :=
    [.addOrder .goodTillCancel 1 .sell 100 3,
      .addOrder .goodTillCancel 2 .buy 100 5]
  obtain ⟨history, hrun⟩ := run_bookAfter
    (show ∀ c ∈ calls, callSided c by decide)
  have hex := h calls (bookAfter calls) history (by decide +kernel) hrun 100
  exact absurd hex (by decide +kernel)

end OsxLevelData
