import OsborneX.SweepUniqueProofs
import OsborneX.FillOrKillProofs

/-! # Symmetry — the book seen in a mirror of its prices

    The source writes nearly every step twice, once for each side, with the
    comparisons turned round, and books the bid of a trade before the ask.
    Read every price through a map that turns the order round, and exchange
    the sides: what was one branch is the other.

    The two books are swept in correspondence (`Sweep.reflect`, `Sweep.unique`).
    Their aggregates agree although the two halves of a trade are booked in the
    opposite order: at two prices the bookings commute, and at one price the
    round ends by erasing the entry. -/

namespace OsxSymmetry

open OsxOrderbook OsxCrossing OsxLink OsxMatching OsxCalls OsxRepresentation
open OsxSweep OsxReachable OsxTally OsxFillOrKill OsxSweepUnique

variable {P Q : Type}

/-! ## Orders in the mirror -/

/-- The order with its side exchanged, at another price. -/
def reflect (g : P → Q) (o : Order P) : Order Q where
  orderType := o.orderType
  orderId := o.orderId
  side := flip o.side
  price := g o.price
  initialQuantity := o.initialQuantity
  remainingQuantity := o.remainingQuantity

/-- The trade with its two halves exchanged, at other prices. -/
def reflectTrade (g : P → Q) (t : Trade P) : Trade Q where
  bidTrade := ⟨t.askTrade.orderId, g t.askTrade.price, t.askTrade.quantity⟩
  askTrade := ⟨t.bidTrade.orderId, g t.bidTrade.price, t.bidTrade.quantity⟩

/-- The call on the other side, at another price. -/
def reflectCall (g : P → Q) : Call P → Call Q
  | .addOrder orderType orderId side price quantity =>
      .addOrder orderType orderId (flip side) (g price) quantity
  | .cancelOrder orderId => .cancelOrder orderId
  | .modifyOrder m =>
      .modifyOrder ⟨m.orderId, flip m.side, g m.price, m.quantity⟩

theorem sided_flip {side : Side} (hs : Sided side) : Sided (flip side) := by
  rcases hs with rfl | rfl
  · exact Or.inr rfl
  · exact Or.inl rfl

theorem callSided_reflect (g : P → Q) {c : Call P} (hs : callSided c) :
    callSided (reflectCall g c) := by
  cases c with
  | addOrder orderType orderId side price quantity => exact sided_flip hs
  | cancelOrder orderId => trivial
  | modifyOrder m => exact sided_flip hs

variable (g : P → Q)

theorem reflect_fill (o : Order P) (q : Nat) :
    (reflect g o).fill q = reflect g (o.fill q) := by
  rw [Order.fill, Order.fill]
  by_cases h : q > o.remainingQuantity
  · have h' : q > (reflect g o).remainingQuantity := h
    rw [if_pos h, if_pos h']
  · have h' : ¬ q > (reflect g o).remainingQuantity := h
    rw [if_neg h, if_neg h']
    rfl

theorem leave_reflect (o : Order P) (os : List (Order P)) :
    leave (reflect g o) (os.map (reflect g))
      = (leave o os).map (reflect g) := by
  have hfilled : (reflect g o).isFilled = o.isFilled := rfl
  rw [leave, leave, hfilled]
  by_cases h : o.isFilled = true
  · rw [if_pos h, if_pos h]
  · rw [if_neg h, if_neg h]
    rfl

/-- The pairing in the mirror, each order in its own place. -/
def reflectPairing (p : Pairing P) : Pairing Q :=
  ⟨reflect g p.bid, reflect g p.ask, p.quantity⟩

/-- The round in the mirror, each side in its own place. -/
def reflectRound (r : Round P) : Round Q :=
  ⟨g r.bidPrice, g r.askPrice, r.pairs.map (reflectPairing g), r.bidsGone,
    r.asksGone, r.killedBid.map (reflect g), r.killedAsk.map (reflect g)⟩

/-! ## The sweep in the mirror -/

theorem Cross.reflect {xs ys xs' ys' : List (Order P)}
    {pairs : List (Pairing P)} (h : Cross xs ys pairs xs' ys') :
    Cross (xs.map (reflect g)) (ys.map (reflect g))
      (pairs.map (reflectPairing g)) (xs'.map (reflect g))
      (ys'.map (reflect g)) := by
  induction h with
  | done h =>
      refine .done ?_
      rcases h with rfl | rfl
      · exact Or.inl rfl
      · exact Or.inr rfl
  | pair q hq _ ih =>
      refine .pair q hq ?_
      rw [reflect_fill, reflect_fill, leave_reflect, leave_reflect]
      exact ih

section Sweeps

variable {lt : P → P → Prop} [DecidableRel lt] {lt' : Q → Q → Prop}
  [DecidableRel lt']

theorem restBehind_reflect (hlt : ∀ a b, lt' (g a) (g b) ↔ lt a b)
    (o : Order P) (own : List (Order P)) :
    restBehind lt' (reflect g o) (own.map (reflect g))
      = (restBehind lt o own).map (reflect g) := by
  induction own with
  | nil => rfl
  | cons r rs ih =>
      have hiff : lt' (reflect g o).price (reflect g r).price ↔
          lt o.price r.price := hlt _ _
      rw [List.map_cons, restBehind, restBehind]
      by_cases h : lt o.price r.price
      · rw [if_pos h, if_pos (hiff.mpr h)]
        rfl
      · rw [if_neg h, if_neg (fun h' => h (hiff.mp h')), ih]
        rfl

/-- **THE SWEEP IN THE MIRROR.** -/
theorem Sweep.reflect (hlt : ∀ a b, lt' (g a) (g b) ↔ lt a b)
    {o : Order P} {own own' opp opp' : List (Order P)} {log : List (Round P)}
    (h : Sweep lt own o opp log own' opp') :
    Sweep lt' (own.map (reflect g)) (reflect g o) (opp.map (reflect g))
      (log.map (reflectRound g)) (own'.map (reflect g))
      (opp'.map (reflect g)) := by
  have hprice : ∀ {A : List (Order P)} {pa : P}, (∀ y ∈ A, y.price = pa) →
      ∀ y ∈ A.map (OsxSymmetry.reflect g), y.price = g pa := by
    intro A pa hA y hy
    obtain ⟨z, hz, rfl⟩ := List.mem_map.mp hy
    exact congrArg g (hA z hz)
  have hworse : ∀ {as : List (Order P)} {pa : P},
      (∀ y ∈ as, lt y.price pa) →
      ∀ y ∈ as.map (OsxSymmetry.reflect g), lt' y.price (g pa) := by
    intro as pa has y hy
    obtain ⟨z, hz, rfl⟩ := List.mem_map.mp hy
    exact (hlt _ _).mpr (has z hz)
  have hnonempty : ∀ {A : List (Order P)}, A ≠ [] →
      A.map (OsxSymmetry.reflect g) ≠ [] := by
    intro A hA0 hnil
    exact hA0 (List.map_eq_nil_iff.mp hnil)
  have hflag : ∀ A : List (Order P),
      (A.map (OsxSymmetry.reflect g)).isEmpty = A.isEmpty := by
    intro A
    cases A <;> rfl
  induction h with
  | @rest o opp h =>
      rw [← restBehind_reflect g hlt]
      refine .rest ?_
      exact hworse h
  | @filled o A A' as pa pairs hA has hA0 hcross hc =>
      rw [List.map_append, List.map_append, List.map_cons, reflectRound,
        ← hflag A']
      exact .filled (hprice hA) (hworse has) (hnonempty hA0)
        (fun h => hcross ((hlt _ _).mp h)) (Cross.reflect g hc)
  | killed hA has hA0 hcross hc hk =>
      rw [List.map_append]
      exact .killed (hprice hA) (hworse has) (hnonempty hA0)
        (fun h => hcross ((hlt _ _).mp h)) (Cross.reflect g hc) hk
  | next hA has hA0 hcross hc hk _ ih =>
      rw [List.map_append]
      exact .next (hprice hA) (hworse has) (hnonempty hA0)
        (fun h => hcross ((hlt _ _).mp h)) (Cross.reflect g hc) hk ih

/-- What the rounds of a sweep look like: every pairing is at the two prices of
    its round, one of the two levels is emptied, and only the incoming order
    can be killed. -/
structure Plain (r : Round P) : Prop where
  prices : ∀ p ∈ r.pairs, p.bid.price = r.bidPrice ∧ p.ask.price = r.askPrice
  emptied : r.bidsGone = true ∨ r.asksGone = true
  killedAsk : r.killedAsk = none

theorem Sweep.plain {lt : P → P → Prop} [DecidableRel lt] {o : Order P}
    {own own' opp opp' : List (Order P)} {log : List (Round P)}
    (h : Sweep lt own o opp log own' opp') : ∀ r ∈ log, Plain r := by
  have hprices : ∀ {o : Order P} {A B' A' : List (Order P)} {pa : P}
      {pairs : List (Pairing P)}, (∀ y ∈ A, y.price = pa) →
      Cross [o] A pairs B' A' →
      ∀ p ∈ pairs, p.bid.price = o.price ∧ p.ask.price = pa := by
    intro o A B' A' pa pairs hA hc p hp
    obtain ⟨⟨x, hx, hbid⟩, ⟨y, hy, hask⟩⟩ := hc.pairs_from p hp
    rw [List.mem_singleton.mp hx] at hbid
    exact ⟨hbid.fields.2.2.2.1, hask.fields.2.2.2.1.trans (hA y hy)⟩
  induction h with
  | rest _ => exact List.forall_mem_nil _
  | filled hA _ _ _ hc =>
      intro r hr
      rw [List.mem_singleton.mp hr]
      exact ⟨hprices hA hc, Or.inl rfl, rfl⟩
  | killed hA _ _ _ hc _ =>
      intro r hr
      rw [List.mem_singleton.mp hr]
      exact ⟨hprices hA hc, Or.inr rfl, rfl⟩
  | next hA _ _ _ hc _ _ ih =>
      intro r hr
      rcases List.mem_cons.mp hr with rfl | hr
      · exact ⟨hprices hA hc, Or.inr rfl, rfl⟩
      · exact ih r hr

end Sweeps

/-! ## The aggregates in the mirror -/

section Aggregates

variable [LinearOrder P] [LinearOrder Q]

/-- The map turns the order of the prices round, and is onto. -/
structure Turns (g : P → Q) : Prop where
  lt : ∀ a b, g a < g b ↔ b < a
  onto : Function.Surjective g

variable {g}

theorem Turns.inj (hg : Turns g) {a b : P} : g a = g b ↔ a = b := by
  constructor
  · intro h
    rcases lt_trichotomy a b with hab | hab | hab
    · exact absurd ((hg.lt b a).mpr hab) (by rw [h]; exact lt_irrefl _)
    · exact hab
    · exact absurd ((hg.lt a b).mpr hab) (by rw [h]; exact lt_irrefl _)
  · exact congrArg g

/-- `ld'` answers for the reflected price what `ld` answers. -/
def Reflected (g : P → Q) (ld : LevelDataMap P) (ld' : LevelDataMap Q) :
    Prop :=
  ∀ x, ld'.find? (g x) = ld.find? x

variable {ld : LevelDataMap P} {ld' : LevelDataMap Q}

theorem Reflected.update (hg : Turns g) (h : Reflected g ld ld') (k : P)
    (q : Nat) (action : Action) :
    Reflected g (updateLevelData ld k q action)
      (updateLevelData ld' (g k) q action) := by
  intro x
  rw [find?_update, find?_update, h k, h x]
  simp only [hg.inj]

/-- The entry after a fill was booked there. -/
def matchedEntry (entry : Option LevelData) (quantity : Nat)
    (isFullyFilled : Bool) : Option LevelData :=
  let data := (entry.getD .zero).apply quantity
    (if isFullyFilled then .remove else .matched)
  if data.count = 0 then none else some data

theorem find?_onOrderMatched (ld : LevelDataMap P) (k x : P) (q : Nat)
    (isFullyFilled : Bool) :
    (onOrderMatched ld k q isFullyFilled).find? x
      = if x = k then matchedEntry (ld.find? k) q isFullyFilled
        else ld.find? x :=
  find?_update ld k x q _

/-- A pairing books its two fills at their prices, in whichever order, where
    the two prices differ. -/
theorem find?_pairing (side : Side) (ld : LevelDataMap P) {p : Pairing P}
    {x : P} (hx : ¬ (x = p.bid.price ∧ x = p.ask.price)) :
    (Pairing.apply ld (pairingOn side p)).find? x
      = if x = p.bid.price then
          matchedEntry (ld.find? x) p.quantity
            (p.bid.fill p.quantity).isFilled
        else if x = p.ask.price then
          matchedEntry (ld.find? x) p.quantity
            (p.ask.fill p.quantity).isFilled
        else ld.find? x := by
  have hbuy : ∀ p : Pairing P, ¬ (x = p.bid.price ∧ x = p.ask.price) →
      (Pairing.apply ld p).find? x
        = if x = p.bid.price then
            matchedEntry (ld.find? x) p.quantity
              (p.bid.fill p.quantity).isFilled
          else if x = p.ask.price then
            matchedEntry (ld.find? x) p.quantity
              (p.ask.fill p.quantity).isFilled
          else ld.find? x := by
    intro p hx
    rw [Pairing.apply, find?_onOrderMatched, find?_onOrderMatched,
      find?_onOrderMatched]
    by_cases hb : x = p.bid.price
    · have ha : ¬ x = p.ask.price := fun ha => hx ⟨hb, ha⟩
      rw [if_neg ha, if_pos hb, if_pos hb, ← hb]
    · rw [if_neg hb, if_neg hb]
      by_cases ha : x = p.ask.price
      · rw [if_pos ha, if_pos ha, ← ha, if_neg hb]
      · rw [if_neg ha, if_neg ha]
  cases side with
  | buy => exact hbuy p hx
  | other _ => exact hbuy p hx
  | sell =>
      refine (hbuy p.swap (fun h => hx h.symm)).trans ?_
      show (if x = p.ask.price then _ else if x = p.bid.price then _ else _)
        = _
      by_cases hb : x = p.bid.price
      · have ha : ¬ x = p.ask.price := fun ha => hx ⟨hb, ha⟩
        rw [if_neg ha, if_pos hb, if_pos hb]
        rfl
      · rw [if_neg hb, if_neg hb]
        rfl

/-- The pairings of a round agree in the mirror at every price that is not
    both prices of the round. -/
theorem pairsBooked_reflect (hg : Turns g) (side : Side) {pb pa x : P}
    (hx : ¬ (x = pb ∧ x = pa)) (pairs : List (Pairing P)) :
    ∀ {ld : LevelDataMap P} {ld' : LevelDataMap Q},
      (∀ p ∈ pairs, p.bid.price = pb ∧ p.ask.price = pa) →
      ld'.find? (g x) = ld.find? x →
      (pairsBooked (flip side) ld' (pairs.map (reflectPairing g))).find? (g x)
        = (pairsBooked side ld pairs).find? x := by
  induction pairs with
  | nil => exact fun _ h => h
  | cons p pairs ih =>
      intro ld ld' hp h
      obtain ⟨hbid, hask⟩ := hp p List.mem_cons_self
      refine ih (fun p hmem => hp p (List.mem_cons_of_mem _ hmem)) ?_
      have hx' : ¬ (x = p.bid.price ∧ x = p.ask.price) := by
        rw [hbid, hask]
        exact hx
      have hgx : ¬ (g x = (reflectPairing g p).bid.price ∧
          g x = (reflectPairing g p).ask.price) :=
        fun h => hx' ⟨hg.inj.mp h.1, hg.inj.mp h.2⟩
      have hfilled : ∀ o : Order P,
          ((reflect g o).fill p.quantity).isFilled
            = (o.fill p.quantity).isFilled := by
        intro o
        rw [reflect_fill]
        rfl
      rw [find?_pairing _ _ hgx, find?_pairing _ _ hx', h]
      show (if g x = g p.bid.price then
          matchedEntry _ _ ((reflect g p.bid).fill p.quantity).isFilled
        else if g x = g p.ask.price then
          matchedEntry _ _ ((reflect g p.ask).fill p.quantity).isFilled
        else _) = _
      rw [hfilled, hfilled]
      simp only [hg.inj]
      rfl

/-- **A ROUND IN THE MIRROR** leaves aggregates that are reflections. -/
theorem Reflected.round (hg : Turns g) (side : Side) (h : Reflected g ld ld')
    {r : Round P} (hr : Plain r) :
    Reflected g ((roundOn side r).apply ld)
      ((roundOn (flip side) (reflectRound g r)).apply ld') := by
  have hkilled : (reflectRound g r).killedAsk = none := by
    show r.killedAsk.map (reflect g) = none
    rw [hr.killedAsk]
    rfl
  obtain ⟨D, hD, hDgone⟩ := apply_roundOn side ld r hr.killedAsk
  obtain ⟨E, hE, hEgone⟩ :=
    apply_roundOn (flip side) ld' (reflectRound g r) hkilled
  have hgone : ∀ x, gone (reflectRound g r) (g x) ↔ gone r x := by
    intro x
    show (r.bidsGone = true ∧ g x = g r.bidPrice ∨
      r.asksGone = true ∧ g x = g r.askPrice) ↔ _
    rw [hg.inj, hg.inj]
    exact Iff.rfl
  have hDE : Reflected g D E := by
    intro x
    by_cases hx : gone r x
    · rw [(hDgone x).1 hx, (hEgone (g x)).1 ((hgone x).mpr hx)]
    · rw [(hDgone x).2 hx,
        (hEgone (g x)).2 (fun h' => hx ((hgone x).mp h'))]
      refine pairsBooked_reflect hg side ?_ r.pairs hr.prices (h x)
      -- at the two prices at once the round would have erased the entry
      rintro ⟨hb, ha⟩
      rcases hr.emptied with hgone | hgone
      · exact hx (Or.inl ⟨hgone, hb⟩)
      · exact hx (Or.inr ⟨hgone, ha⟩)
  rw [hD, hE]
  show Reflected g _ (dropOrder E (r.killedBid.map (reflect g)))
  cases r.killedBid with
  | none => exact hDE
  | some o => exact hDE.update hg o.price o.remainingQuantity .remove

/-- **A LOG IN THE MIRROR.** -/
theorem Reflected.log (hg : Turns g) (side : Side) (log : List (Round P)) :
    ∀ {ld : LevelDataMap P} {ld' : LevelDataMap Q}, Reflected g ld ld' →
      (∀ r ∈ log, Plain r) →
      Reflected g (booked side ld log)
        (booked (flip side) ld' (log.map (reflectRound g))) := by
  induction log with
  | nil => exact fun h _ => h
  | cons r log ih =>
      intro ld ld' h hlog
      exact ih (h.round hg side (hlog r List.mem_cons_self))
        (fun r hr => hlog r (List.mem_cons_of_mem _ hr))

end Aggregates

end OsxSymmetry
