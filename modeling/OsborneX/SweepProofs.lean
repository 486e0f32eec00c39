import OsborneX.RepresentationProofs

/-! # The sweep — matching after ONE new order

    `MatchOrders` pairs the fronts of the two best levels and does not know
    which order is new.  On an uncrossed book it does not have to: an incoming
    order that crosses is alone at its side's best level, so matching is the
    incoming order going through the opposite levels, best first.

    `Sweep` is that, written for an incoming order of either side: `lt` is the
    comparison of ITS side ("better"), and its rounds carry the incoming side
    in the bid's place. -/

namespace OsxSweep

open OsxOrderbook OsxCrossing OsxLink OsxMatching OsxCalls OsxRepresentation

variable {P : Type}

/-! ## The sweep -/

/-- **THE SWEEP** of an incoming order through the opposite side, its own side
    being `own`. -/
inductive Sweep (lt : P → P → Prop) [DecidableRel lt] (own : List (Order P)) :
    Order P → List (Order P) → List (Round P) →
    List (Order P) → List (Order P) → Prop where
  /-- no acceptable price is left: the order rests -/
  | rest {o : Order P} {opp : List (Order P)}
      (h : ∀ y ∈ opp, lt y.price o.price) :
      Sweep lt own o opp [] (restBehind lt o own) opp
  /-- the best level fills the order -/
  | filled {o : Order P} {A A' as : List (Order P)} {pa : P}
      {pairs : List (Pairing P)}
      (hA : ∀ y ∈ A, y.price = pa) (has : ∀ y ∈ as, lt y.price pa)
      (hA0 : A ≠ []) (hcross : ¬ lt pa o.price)
      (hc : Cross [o] A pairs [] A') :
      Sweep lt own o (A ++ as)
        [⟨o.price, pa, pairs, true, A'.isEmpty, none, none⟩] own (A' ++ as)
  /-- the best level is exhausted and a Fill-And-Kill remainder is cancelled -/
  | killed {o r : Order P} {A as : List (Order P)} {pa : P}
      {pairs : List (Pairing P)}
      (hA : ∀ y ∈ A, y.price = pa) (has : ∀ y ∈ as, lt y.price pa)
      (hA0 : A ≠ []) (hcross : ¬ lt pa o.price)
      (hc : Cross [o] A pairs [r] []) (hk : o.orderType = .fillAndKill) :
      Sweep lt own o (A ++ as)
        [⟨o.price, pa, pairs, false, true, some r, none⟩] own as
  /-- the best level is exhausted and the remainder goes on -/
  | next {o r : Order P} {A as own' opp' : List (Order P)} {pa : P}
      {pairs : List (Pairing P)} {log : List (Round P)}
      (hA : ∀ y ∈ A, y.price = pa) (has : ∀ y ∈ as, lt y.price pa)
      (hA0 : A ≠ []) (hcross : ¬ lt pa o.price)
      (hc : Cross [o] A pairs [r] []) (hk : o.orderType ≠ .fillAndKill)
      (h : Sweep lt own r as log own' opp') :
      Sweep lt own o (A ++ as)
        (⟨o.price, pa, pairs, false, true, none, none⟩ :: log) own' opp'

/-- An order with no acceptable price opposite only rests. -/
theorem Sweep.rests {lt : P → P → Prop} [DecidableRel lt] {o : Order P}
    {own own' opp opp' : List (Order P)} {log : List (Round P)}
    (h : Sweep lt own o opp log own' opp')
    (hno : ∀ y ∈ opp, lt y.price o.price) :
    log = [] ∧ own' = restBehind lt o own ∧ opp' = opp := by
  have hcross : ∀ {A as : List (Order P)} {pa : P}, opp = A ++ as → A ≠ [] →
      (∀ y ∈ A, y.price = pa) → lt pa o.price := by
    rintro A as pa rfl hA0 hA
    obtain ⟨y, hy⟩ := List.exists_mem_of_ne_nil _ hA0
    rw [← hA y hy]
    exact hno y (List.mem_append.mpr (Or.inl hy))
  cases h with
  | rest _ => exact ⟨rfl, rfl, rfl⟩
  | filled hA _ hA0 hno' _ => exact absurd (hcross rfl hA0 hA) hno'
  | killed hA _ hA0 hno' _ _ => exact absurd (hcross rfl hA0 hA) hno'
  | next hA _ hA0 hno' _ _ _ => exact absurd (hcross rfl hA0 hA) hno'

/-- What is left of the opposite side was there before. -/
theorem Sweep.opp_terms {o : Order P} {log : List (Round P)}
    {lt : P → P → Prop} [DecidableRel lt]
    {own own' opp opp' : List (Order P)}
    (h : Sweep lt own o opp log own' opp') :
    ∀ r ∈ opp', ∃ y ∈ opp, SameTerms y r := by
  induction h with
  | rest h => exact fun r hr => ⟨r, hr, .refl r⟩
  | filled _ _ _ _ hc =>
      intro r hr
      rcases List.mem_append.mp hr with h1 | h1
      · obtain ⟨y, hy, hyr⟩ := (Cross.left_terms hc).2 r h1
        exact ⟨y, List.mem_append.mpr (Or.inl hy), hyr⟩
      · exact ⟨r, List.mem_append.mpr (Or.inr h1), .refl r⟩
  | killed _ _ _ _ _ _ =>
      exact fun r hr => ⟨r, List.mem_append.mpr (Or.inr hr), .refl r⟩
  | next _ _ _ _ _ _ _ ih =>
      intro r hr
      obtain ⟨y, hy, hyr⟩ := ih r hr
      exact ⟨y, List.mem_append.mpr (Or.inr hy), hyr⟩

/-- The incoming side ends as it was, or with the rest of the order on it, and
    then the order was not a Fill-And-Kill that could match. -/
theorem Sweep.own_terms {o : Order P} {log : List (Round P)}
    {lt : P → P → Prop} [DecidableRel lt]
    {own own' opp opp' : List (Order P)}
    (h : Sweep lt own o opp log own' opp')
    (hk : o.orderType = .fillAndKill → ∃ y ∈ opp, ¬ lt y.price o.price) :
    own' = own ∨ ∃ r, own' = restBehind lt r own ∧ SameTerms o r ∧
      r.orderType ≠ .fillAndKill := by
  induction h with
  | @rest o opp h =>
      refine Or.inr ⟨o, rfl, .refl o, fun hf => ?_⟩
      obtain ⟨y, hy, hno⟩ := hk hf
      exact hno (h y hy)
  | filled _ _ _ _ _ => exact Or.inl rfl
  | killed _ _ _ _ _ _ => exact Or.inl rfl
  | @next o r A as own' opp' pa pairs log _ _ _ _ hc hno _ ih =>
      have hterms := hc.remainder
      have hr : r.orderType ≠ .fillAndKill := by
        rw [hterms.fields.1]
        exact hno
      rcases ih (fun hf => absurd hf hr) with h2 | ⟨r', h2, h3, h4⟩
      · exact Or.inl h2
      · exact Or.inr ⟨r', h2, hterms.trans h3, h4⟩

/-! ## Matching is the sweep -/

section Matching

variable [LinearOrder P]

/-- The best level of a side that crosses an order better than all the rest of
    its own side is that order alone. -/
theorem alone_at_best {o : Order P} {own B bs : List (Order P)} {pb pa : P}
    (hrest : restBehind (fun a b => a > b) o own = B ++ bs)
    (hB : ∀ x ∈ B, x.price = pb) (hB0 : B ≠ [])
    (hown : ∀ x ∈ own, x.price < pa) (hcross : ¬ pb < pa) :
    B = [o] ∧ bs = own ∧ o.price = pb ∧ ∀ x ∈ own, o.price > x.price := by
  have hnotin : ∀ x ∈ B, x ∉ own := by
    intro x hx hmem
    have hlt := hown x hmem
    rw [hB x hx] at hlt
    exact hcross hlt
  have hall : ∀ x ∈ B, x = o := by
    intro x hx
    have hmem : x ∈ restBehind (fun a b => a > b) o own := by
      rw [hrest]
      exact List.mem_append.mpr (Or.inl hx)
    rcases mem_restBehind.mp hmem with h | h
    · exact h
    · exact absurd h (hnotin x hx)
  obtain ⟨x, hx⟩ := List.exists_mem_of_ne_nil _ hB0
  have hprice : o.price = pb := by rw [← hall x hx, hB x hx]
  have hfront : ∀ x ∈ own, o.price > x.price := by
    intro x hx
    rw [hprice]
    exact lt_of_lt_of_le (hown x hx) (not_lt.mp hcross)
  rw [restBehind_front hfront] at hrest
  cases B with
  | nil => exact absurd rfl hB0
  | cons y B =>
      rw [List.cons_append] at hrest
      obtain ⟨hy, htail⟩ := List.cons.inj hrest
      cases B with
      | nil => exact ⟨by rw [hy], by rw [htail]; rfl, hprice, hfront⟩
      | cons z B =>
          have hz : z ∈ own := by rw [htail]; simp
          exact absurd hz (hnotin z (by simp))

/-- **MATCHING IS THE SWEEP**, for an incoming bid. -/
theorem sweep_of_rounds {bids asks bids' asks' : List (Order P)}
    {log : List (Round P)} (h : Rounds bids asks log bids' asks') :
    ∀ {o : Order P} {own : List (Order P)},
      bids = restBehind (fun a b => a > b) o own →
      (∀ x ∈ own, ∀ y ∈ asks, x.price < y.price) →
      (∀ x ∈ own, x.orderType ≠ .fillAndKill) →
      (∀ y ∈ asks, y.orderType ≠ .fillAndKill) →
      Sweep (fun a b => a > b) own o asks log bids' asks' := by
  -- the order stays in front of its own side, which crosses nothing else
  induction h with
  | stop h =>
      intro o own hbids hu _ _
      rw [hbids]
      refine .rest (fun y hy => ?_)
      exact h o (by rw [hbids]; exact mem_restBehind.mpr (Or.inl rfl)) y hy
  | @round pb pa B bs A as B' A' bids asks pairs log hB hbs hA has hB0 hA0
      hcross hc h ih =>
      intro o own hrest hu hown hopp
      obtain ⟨y0, hy0⟩ := List.exists_mem_of_ne_nil _ hA0
      have hbelow : ∀ x ∈ own, x.price < pa := by
        intro x hx
        rw [← hA y0 hy0]
        exact hu x hx y0 (List.mem_append.mpr (Or.inl hy0))
      obtain ⟨rfl, rfl, rfl, hfront⟩ :=
        alone_at_best hrest.symm hB hB0 hbelow hcross
      have huas : ∀ x ∈ bs, ∀ y ∈ as, x.price < y.price :=
        fun x hx y hy => hu x hx y (List.mem_append.mpr (Or.inr hy))
      have hoppas : ∀ y ∈ as, y.orderType ≠ .fillAndKill :=
        fun y hy => hopp y (List.mem_append.mpr (Or.inr hy))
      obtain ⟨hkown, hvown⟩ := kill_eq_self hown
      obtain ⟨hkas, hvas⟩ := kill_eq_self hoppas
      rcases Cross.single hc with rfl | ⟨r, rfl, rfl, hterms⟩
      · -- filled: what is left does not cross
        have hleft : ∀ y ∈ A', ∃ z ∈ A, SameTerms z y :=
          (Cross.left_terms hc).2
        have hopp' : ∀ y ∈ A' ++ as, y.orderType ≠ .fillAndKill := by
          intro y hy
          rcases List.mem_append.mp hy with h1 | h1
          · obtain ⟨z, hz, hzy⟩ := hleft y h1
            rw [hzy.fields.1]
            exact hopp z (List.mem_append.mpr (Or.inl hz))
          · exact hoppas y h1
        have hu' : ∀ x ∈ bs, ∀ y ∈ A' ++ as, x.price < y.price := by
          intro x hx y hy
          rcases List.mem_append.mp hy with h1 | h1
          · obtain ⟨z, hz, hzy⟩ := hleft y h1
            rw [hzy.fields.2.2.2.1, hA z hz]
            exact hbelow x hx
          · exact huas x hx y h1
        obtain ⟨hkopp, hvopp⟩ := kill_eq_self hopp'
        rw [List.nil_append, hkown, hkopp] at h
        obtain ⟨rfl, rfl, rfl⟩ := h.of_uncrossed hu'
        rw [List.nil_append, hvown, hvopp]
        exact .filled hA has hA0 hcross hc
      · rw [List.nil_append, hkas] at h ih
        rw [List.nil_append, hvas]
        have hrtype : r.orderType = o.orderType := hterms.fields.1
        -- it is left over: a Fill-And-Kill is killed, any other matched again
        by_cases hk : o.orderType = .fillAndKill
        · have hkr : kill ([r] ++ bs) = bs := if_pos (hrtype.trans hk)
          have hvr : victim ([r] ++ bs) = some r := if_pos (hrtype.trans hk)
          rw [hkr] at h
          obtain ⟨rfl, rfl, rfl⟩ := h.of_uncrossed huas
          rw [hvr]
          exact .killed hA has hA0 hcross hc hk
        · have hkr' : r.orderType ≠ .fillAndKill := by
            rw [hrtype]; exact hk
          have hkr : kill ([r] ++ bs) = r :: bs := if_neg hkr'
          have hvr : victim ([r] ++ bs) = none := if_neg hkr'
          rw [hvr]
          refine .next hA has hA0 hcross hc hk (ih ?_ huas hown hoppas)
          rw [hkr, restBehind_front]
          intro x hx
          rw [hterms.fields.2.2.2.1]
          exact hfront x hx

/-- **MATCHING IS THE SWEEP**, for an incoming ask: the same statement for the
    opposite order of prices. -/
theorem sweep_of_rounds_ask {bids asks bids' asks' : List (Order P)}
    {log : List (Round P)} (h : Rounds bids asks log bids' asks')
    {o : Order P} {own : List (Order P)}
    (hasks : asks = restBehind (fun a b => a < b) o own)
    (hu : ∀ x ∈ bids, ∀ y ∈ own, x.price < y.price)
    (hown : ∀ y ∈ own, y.orderType ≠ .fillAndKill)
    (hopp : ∀ x ∈ bids, x.orderType ≠ .fillAndKill) :
    Sweep (fun a b => a < b) own o bids (log.map Round.swap)
      asks' bids' := by
  have hdual := @sweep_of_rounds Pᵒᵈ _ _ _ _ _ _ h.swap o own hasks
    (fun y hy x hx => hu x hx y hy) hown hopp
  exact hdual

end Matching

/-! ## The sweep on a book -/

section Book

variable [LinearOrder P] {b b2 b' : Orderbook P} {o : Order P}
  {log : List (Round P)}

/-- The comparison of a side's price levels: is the first price better? -/
def better : Side → P → P → Prop
  | .sell => fun a b => a < b
  | _ => fun a b => a > b

instance (side : Side) : DecidableRel (better (P := P) side) :=
  match side with
  | .buy => fun a b => inferInstanceAs (Decidable (a > b))
  | .sell => fun a b => inferInstanceAs (Decidable (a < b))
  | .other _ => fun a b => inferInstanceAs (Decidable (a > b))

/-- The orders resting on a side. -/
def own (b : Orderbook P) : Side → List (Order P)
  | .buy => restingBids b
  | .sell => restingAsks b
  | .other _ => []

/-- A log with the side's rounds in the bid's place. -/
def oriented : Side → List (Round P) → List (Round P)
  | .sell, log => log.map Round.swap
  | _, log => log

/-- No Fill-And-Kill order rests. -/
def Settled (b : Orderbook P) : Prop :=
  ∀ side, ∀ x ∈ own b side, x.orderType ≠ .fillAndKill

/-- **AN ADMITTED ORDER SWEEPS** the opposite side. -/
theorem Executed.sweep (hw : WellFormed b) (hset : Settled b)
    (hs : Sided o.side) (he : Executed b o b2 b' log) :
    Sweep (better o.side) (own b o.side) o (opposite b o.side)
      (oriented o.side log) (own b' o.side) (opposite b' o.side) := by
  have hr := he.rounds
  rcases hs with hside | hside
  · obtain ⟨-, -, hbids, hasks⟩ := he.opened.buy hside
    rw [hasks] at hr
    rw [hside]
    exact sweep_of_rounds hr hbids hw.uncrossed (hset .buy) (hset .sell)
  · obtain ⟨-, -, hasks, hbids⟩ := he.opened.sell hside
    rw [hbids] at hr
    rw [hside]
    exact sweep_of_rounds_ask hr hasks hw.uncrossed (hset .sell) (hset .buy)

end Book

end OsxSweep
