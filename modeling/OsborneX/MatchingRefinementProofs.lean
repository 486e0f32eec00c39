import OsborneX.OrderbookLinkProofs

/-! # The matching loops refine the crossing relations

    `matchLevels` runs `Cross` on the orders of the two best levels, and
    `matchOrders` runs `Rounds` on the two sides: no access faults, the budget
    is enough, and what was traded is exactly what the orders lost. -/

namespace OsxMatching

open OsxOrderbook OsxCrossing OsxLink

variable {P : Type}

/-! ## One pass of the inner loop -/

section Inner

variable [LT P] [BEq P] {b : Orderbook P} {bid ask : OrderPointer}

/-- The quantity two front orders trade. -/
def frontQuantity (b : Orderbook P) (bid ask : OrderPointer) : Nat :=
  min (b.heap bid).remainingQuantity (b.heap ask).remainingQuantity

theorem frontQuantity_le_bid :
    frontQuantity b bid ask ≤ (b.heap bid).remainingQuantity :=
  Nat.min_le_left _ _

theorem frontQuantity_le_ask :
    frontQuantity b bid ask ≤ (b.heap ask).remainingQuantity :=
  Nat.min_le_right _ _

/-- The heap after a pass: both fronts are filled, nothing else moves. -/
theorem matchFronts_heap (hne : bid ≠ ask) (r : OrderPointer) :
    (b.matchFronts bid ask).1.heap r
      = if r = bid ∨ r = ask then (b.heap r).fill (frontQuantity b bid ask)
        else b.heap r := by
  show Function.update (Function.update b.heap bid _) ask _ r = _
  by_cases ha : r = ask
  · subst ha
    rw [Function.update_self, if_pos (Or.inr rfl)]
    show (Function.update b.heap bid _ r).fill _ = _
    rw [Function.update_of_ne hne.symm]
    rfl
  · rw [Function.update_of_ne ha]
    by_cases hb : r = bid
    · subst hb
      rw [Function.update_self, if_pos (Or.inl rfl)]
      rfl
    · rw [Function.update_of_ne hb, if_neg (by rintro (h | h) <;> contradiction)]

/-- A pass keeps every order's terms. -/
theorem matchFronts_sameTerms (hne : bid ≠ ask) (r : OrderPointer) :
    SameTerms (b.heap r) ((b.matchFronts bid ask).1.heap r) := by
  rw [matchFronts_heap hne]
  split
  · exact fill_sameTerms _ _
  · exact .refl _

/-- A pass fills the order with the smaller remainder. -/
theorem matchFronts_fills (hne : bid ≠ ask) :
    ((b.matchFronts bid ask).1.heap bid).isFilled = true ∨
      ((b.matchFronts bid ask).1.heap ask).isFilled = true := by
  rw [matchFronts_heap hne, matchFronts_heap hne, if_pos (Or.inl rfl),
    if_pos (Or.inr rfl), isFilled_fill frontQuantity_le_bid,
    isFilled_fill frontQuantity_le_ask, frontQuantity]
  omega

/-- The trade and the aggregates of a pass are those of its pairing. -/
theorem matchFronts_pairing (hne : bid ≠ ask) :
    (b.matchFronts bid ask).2
        = (Pairing.mk (b.heap bid) (b.heap ask)
            (frontQuantity b bid ask)).trade ∧
      (b.matchFronts bid ask).1.levelData
        = Pairing.apply b.levelData (Pairing.mk (b.heap bid) (b.heap ask)
            (frontQuantity b bid ask)) := by
  have hbid : (b.matchFronts bid ask).1.heap bid
      = (b.heap bid).fill (frontQuantity b bid ask) := by
    rw [matchFronts_heap hne, if_pos (Or.inl rfl)]
  have hask : (b.matchFronts bid ask).1.heap ask
      = (b.heap ask).fill (frontQuantity b bid ask) := by
    rw [matchFronts_heap hne, if_pos (Or.inr rfl)]
  constructor
  · show Trade.mk ⟨((b.matchFronts bid ask).1.heap bid).orderId,
        ((b.matchFronts bid ask).1.heap bid).price, frontQuantity b bid ask⟩
      ⟨((b.matchFronts bid ask).1.heap ask).orderId,
        ((b.matchFronts bid ask).1.heap ask).price,
        frontQuantity b bid ask⟩ = _
    rw [hbid, hask]
    simp [Pairing.trade]
  · show onOrderMatched (onOrderMatched b.levelData
        ((b.matchFronts bid ask).1.heap bid).price (frontQuantity b bid ask)
        ((b.matchFronts bid ask).1.heap bid).isFilled)
      ((b.matchFronts bid ask).1.heap ask).price (frontQuantity b bid ask)
        ((b.matchFronts bid ask).1.heap ask).isFilled = _
    rw [hbid, hask]
    simp only [fill_price, Pairing.apply]

/-- A pass drops the filled orders from the index. -/
theorem matchFronts_orders (hne : bid ≠ ask) (id : OrderId) (e : OrderEntry) :
    (b.matchFronts bid ask).1.orders.find? id = some e ↔
      b.orders.find? id = some e ∧
        ∀ r, (r = bid ∨ r = ask) →
          ((b.matchFronts bid ask).1.heap r).isFilled = true →
          (b.heap r).orderId ≠ id := by
  have hbidId : ((b.matchFronts bid ask).1.heap bid).orderId
      = (b.heap bid).orderId := by rw [matchFronts_sameTerms hne bid]
  have haskId : ((b.matchFronts bid ask).1.heap ask).orderId
      = (b.heap ask).orderId := by rw [matchFronts_sameTerms hne ask]
  generalize hB : ((b.matchFronts bid ask).1.heap bid).isFilled = bf
  generalize hA : ((b.matchFronts bid ask).1.heap ask).isFilled = af
  have hunfold : (b.matchFronts bid ask).1.orders
      = if af then (if bf then b.orders.erase (b.heap bid).orderId
            else b.orders).erase (b.heap ask).orderId
        else if bf then b.orders.erase (b.heap bid).orderId
          else b.orders := by
    rw [← hB, ← hA, ← hbidId, ← haskId]
    rfl
  have hiff : (∀ r, (r = bid ∨ r = ask) →
        ((b.matchFronts bid ask).1.heap r).isFilled = true →
        (b.heap r).orderId ≠ id) ↔
      (bf = true → id ≠ (b.heap bid).orderId) ∧
        (af = true → id ≠ (b.heap ask).orderId) := by
    rw [← hB, ← hA]
    constructor
    · intro h
      exact ⟨fun hf => (h bid (Or.inl rfl) hf).symm,
        fun hf => (h ask (Or.inr rfl) hf).symm⟩
    · rintro ⟨h1, h2⟩ r (rfl | rfl) hf
      · exact (h1 hf).symm
      · exact (h2 hf).symm
  rw [hunfold, hiff]
  cases bf <;> cases af <;> simp [HashTable.find?_erase]
  all_goals tauto

/-! ## The inner loop -/

/-- What the inner loop establishes, `D` and `E` being the orders it dropped
    from the front of the two lists. -/
structure LevelsMatched (b : Orderbook P) (B A : List OrderPointer)
    (b' : Orderbook P) (D B' E A' : List OrderPointer)
    (pairs : List (Pairing P)) : Prop where
  bidsSplit : B = D ++ B'
  asksSplit : A = E ++ A'
  bids : b'.bids = b.bids
  asks : b'.asks = b.asks
  next : b'.next = b.next
  levelData : b'.levelData = pairs.foldl Pairing.apply b.levelData
  frame : ∀ r, r ∉ B ++ A → b'.heap r = b.heap r
  conserved : ∀ r ∈ B ++ A, SameTerms (b.heap r) (b'.heap r) ∧
    (b'.heap r).remainingQuantity
        + tradedQuantity (b.heap r).orderId (pairs.map Pairing.trade)
      = (b.heap r).remainingQuantity
  filled : ∀ r ∈ D ++ E, (b'.heap r).remainingQuantity = 0
  orders : ∀ id e, b'.orders.find? id = some e ↔
    b.orders.find? id = some e ∧ ∀ r ∈ D ++ E, (b.heap r).orderId ≠ id
  cross : Cross (B.map b.heap) (A.map b.heap) pairs
    (B'.map b'.heap) (A'.map b'.heap)

/-- With a list exhausted there is nothing to do. -/
theorem LevelsMatched.idle {B A : List OrderPointer} (h : B = [] ∨ A = []) :
    LevelsMatched b B A b [] B [] A [] where
  bidsSplit := rfl
  asksSplit := rfl
  bids := rfl
  asks := rfl
  next := rfl
  levelData := rfl
  frame := fun _ _ => rfl
  conserved := fun _ _ => ⟨.refl _, rfl⟩
  filled := List.forall_mem_nil _
  orders := fun _ _ => ⟨fun h => ⟨h, List.forall_mem_nil _⟩, fun h => h.1⟩
  cross := by
    refine .done ?_
    rcases h with h | h
    · exact Or.inl (by rw [h]; rfl)
    · exact Or.inr (by rw [h]; rfl)

/-- What is left of a list after a pass over its front. -/
def behind (b : Orderbook P) (p : OrderPointer) (l : List OrderPointer) :
    List OrderPointer :=
  if (b.heap p).isFilled then l else p :: l

theorem mem_behind {p r : OrderPointer} {l : List OrderPointer}
    (h : r ∈ behind b p l) : r ∈ p :: l := by
  rw [behind] at h
  by_cases hf : (b.heap p).isFilled = true
  · rw [if_pos hf] at h
    exact List.mem_cons_of_mem _ h
  · rw [if_neg hf] at h
    exact h

theorem behind_sub (b : Orderbook P) (p : OrderPointer)
    (l : List OrderPointer) : (behind b p l).Sublist (p :: l) := by
  rw [behind]
  split
  · exact List.sublist_cons_self p l
  · exact List.Sublist.refl _

theorem length_behind_filled {p : OrderPointer} (l : List OrderPointer)
    (h : (b.heap p).isFilled = true) : (behind b p l).length = l.length := by
  rw [behind, if_pos h]

/-- A front that is dropped, and the rest of its list. -/
theorem behind_split (b : Orderbook P) (p : OrderPointer)
    (l : List OrderPointer) :
    ∃ D, p :: l = D ++ behind b p l ∧
      ∀ r, r ∈ D ↔ r = p ∧ (b.heap p).isFilled = true := by
  rw [behind]
  by_cases hf : (b.heap p).isFilled = true
  · exact ⟨[p], by rw [if_pos hf]; rfl, by simp [hf]⟩
  · exact ⟨[], by rw [if_neg hf]; rfl, by simp [hf]⟩

/-- The orders left behind a pass, as `Cross` leaves them. -/
theorem map_behind {b b' : Orderbook P} {p : OrderPointer}
    {l : List OrderPointer} {q : Nat} (hp : b'.heap p = (b.heap p).fill q)
    (hl : ∀ r ∈ l, b'.heap r = b.heap r) :
    (behind b' p l).map b'.heap = leave ((b.heap p).fill q) (l.map b.heap) := by
  have hmap : l.map b'.heap = l.map b.heap := List.map_congr_left hl
  rw [behind, leave]
  rw [hp]
  split
  · exact hmap
  · rw [List.map_cons, hp, hmap]

theorem mem_behinds {p r q : OrderPointer} {l k : List OrderPointer}
    (h : q ∈ behind b p l ++ behind b r k) : q ∈ (p :: l) ++ (r :: k) := by
  refine List.mem_append.mpr ?_
  rcases List.mem_append.mp h with h1 | h1
  · exact Or.inl (mem_behind h1)
  · exact Or.inr (mem_behind h1)

/-- `b1` is `b` after a pass over two fronts of lists without a common order:
    the fronts are filled, no other order moves, and an id names one order. -/
structure Passed (b b1 : Orderbook P) (bid ask : OrderPointer)
    (bs as : List OrderPointer) : Prop where
  apart : bid ≠ ask
  bidsRest : ∀ r ∈ bs, ¬ (r = bid ∨ r = ask)
  asksRest : ∀ r ∈ as, ¬ (r = bid ∨ r = ask)
  unique : ∀ {p r}, p ∈ (bid :: bs) ++ (ask :: as) →
    r ∈ (bid :: bs) ++ (ask :: as) →
    (b.heap p).orderId = (b.heap r).orderId → p = r
  heap : ∀ r, b1.heap r = if r = bid ∨ r = ask then
    (b.heap r).fill (frontQuantity b bid ask) else b.heap r
  terms : ∀ r, SameTerms (b.heap r) (b1.heap r)
  fills : (b1.heap bid).isFilled = true ∨ (b1.heap ask).isFilled = true

theorem matchFronts_passed {bs as : List OrderPointer}
    (hids : (((bid :: bs) ++ (ask :: as)).map
      (fun p => (b.heap p).orderId)).Nodup) :
    Passed b (b.matchFronts bid ask).1 bid ask bs as := by
  have hn : ((bid :: bs) ++ (ask :: as)).Nodup := hids.of_map _
  obtain ⟨hnb, hna, hdis⟩ := List.nodup_append.mp hn
  have hne : bid ≠ ask := hdis bid List.mem_cons_self ask List.mem_cons_self
  refine ⟨hne, ?_, ?_, fun hp hr => List.inj_on_of_nodup_map hids hp hr,
    matchFronts_heap hne, matchFronts_sameTerms hne, matchFronts_fills hne⟩
  · rintro r hr (rfl | rfl)
    · exact (List.nodup_cons.mp hnb).1 hr
    · exact hdis r (List.mem_cons_of_mem _ hr) r List.mem_cons_self rfl
  · rintro r hr (rfl | rfl)
    · exact hdis r List.mem_cons_self r (List.mem_cons_of_mem _ hr) rfl
    · exact (List.nodup_cons.mp hna).1 hr

namespace Passed

variable {b1 b' : Orderbook P} {bs as D' B' E' A' : List OrderPointer}
  {pairs : List (Pairing P)}

theorem orderId (h : Passed b b1 bid ask bs as) (r : OrderPointer) :
    (b1.heap r).orderId = (b.heap r).orderId := by
  rw [h.terms r]

/-- One of the two lists gets shorter. -/
theorem shorter (h : Passed b b1 bid ask bs as) :
    (behind b1 bid bs).length + (behind b1 ask as).length
      < (bid :: bs).length + (ask :: as).length := by
  have hbids := (behind_sub b1 bid bs).length_le
  have hasks := (behind_sub b1 ask as).length_le
  simp only [List.length_cons] at hbids hasks ⊢
  rcases h.fills with hf | hf
  · have := length_behind_filled bs hf
    omega
  · have := length_behind_filled as hf
    omega

theorem ids (h : Passed b b1 bid ask bs as)
    (hids : (((bid :: bs) ++ (ask :: as)).map
      (fun p => (b.heap p).orderId)).Nodup) :
    ((behind b1 bid bs ++ behind b1 ask as).map
      (fun p => (b1.heap p).orderId)).Nodup := by
  have hsame : (fun p => (b1.heap p).orderId) = fun p => (b.heap p).orderId :=
    funext h.orderId
  rw [hsame]
  exact hids.sublist
    (((behind_sub b1 bid bs).append (behind_sub b1 ask as)).map _)

/-- A pass moves a front's remainder into its trade, and no other order's. -/
theorem remaining (h : Passed b b1 bid ask bs as) {r : OrderPointer}
    (hr : r ∈ (bid :: bs) ++ (ask :: as)) :
    (b1.heap r).remainingQuantity
        + (if names (b.heap r).orderId (Pairing.trade ⟨b.heap bid,
            b.heap ask, frontQuantity b bid ask⟩)
          then frontQuantity b bid ask else 0)
      = (b.heap r).remainingQuantity := by
  rw [h.heap r]
  by_cases hfront : r = bid ∨ r = ask
  · rw [if_pos hfront, if_pos]
    · have hle : frontQuantity b bid ask ≤ (b.heap r).remainingQuantity := by
        rcases hfront with rfl | rfl
        · exact frontQuantity_le_bid
        · exact frontQuantity_le_ask
      rw [fill_remainingQuantity hle]
      omega
    · rcases hfront with rfl | rfl
      · exact Or.inl rfl
      · exact Or.inr rfl
  · rw [if_neg hfront, if_neg, Nat.add_zero]
    rintro (h1 | h1)
    · exact hfront (Or.inl (h.unique (by simp) hr h1).symm)
    · exact hfront (Or.inr (h.unique (by simp) hr h1).symm)

/-- A filled front is on no list any more. -/
theorem gone (h : Passed b b1 bid ask bs as) {r : OrderPointer}
    (hr : r = bid ∨ r = ask) (hf : (b1.heap r).isFilled = true) :
    r ∉ behind b1 bid bs ++ behind b1 ask as := by
  intro hmem
  rcases hr with rfl | rfl
  · rcases List.mem_append.mp hmem with h1 | h1
    · rw [behind, if_pos hf] at h1
      exact h.bidsRest r h1 (Or.inl rfl)
    · rcases List.mem_cons.mp (mem_behind h1) with h2 | h2
      · exact h.apart h2
      · exact h.asksRest r h2 (Or.inl rfl)
  · rcases List.mem_append.mp hmem with h1 | h1
    · rcases List.mem_cons.mp (mem_behind h1) with h2 | h2
      · exact h.apart h2.symm
      · exact h.bidsRest r h2 (Or.inr rfl)
    · rw [behind, if_pos hf] at h1
      exact h.asksRest r h1 (Or.inr rfl)

/-- What was remaining of an order was traded at this pass or by the rest. -/
theorem conserved (h : Passed b b1 bid ask bs as)
    (hm : LevelsMatched b1 (behind b1 bid bs) (behind b1 ask as) b' D' B' E' A'
      pairs) {r : OrderPointer} (hr : r ∈ (bid :: bs) ++ (ask :: as)) :
    SameTerms (b.heap r) (b'.heap r) ∧
      (b'.heap r).remainingQuantity + tradedQuantity (b.heap r).orderId
          ((Pairing.mk (b.heap bid) (b.heap ask) (frontQuantity b bid ask)
            :: pairs).map Pairing.trade)
        = (b.heap r).remainingQuantity := by
  have hstep := h.remaining hr
  rw [List.map_cons, tradedQuantity]
  show _ ∧ _ + ((if _ then frontQuantity b bid ask else 0) + _) = _
  by_cases hr1 : r ∈ behind b1 bid bs ++ behind b1 ask as
  · obtain ⟨h1, h2⟩ := hm.conserved r hr1
    rw [h.orderId] at h2
    exact ⟨(h.terms r).trans h1, by omega⟩
  · -- dropped at this pass: later pairings do not name it
    have hback : ∀ s ∈ behind b1 bid bs ++ behind b1 ask as,
        (b1.heap s).orderId ≠ (b.heap r).orderId := by
      intro s hs heq
      rw [h.orderId] at heq
      rw [h.unique (mem_behinds hs) hr heq] at hs
      exact hr1 hs
    have hzero : tradedQuantity (b.heap r).orderId
        (pairs.map Pairing.trade) = 0 := by
      refine hm.cross.traded_eq_zero ?_ ?_
      · intro x hx
        obtain ⟨s, hs, rfl⟩ := List.mem_map.mp hx
        exact hback s (List.mem_append_left _ hs)
      · intro y hy
        obtain ⟨s, hs, rfl⟩ := List.mem_map.mp hy
        exact hback s (List.mem_append_right _ hs)
    rw [hm.frame r hr1, hzero]
    exact ⟨h.terms r, by omega⟩

/-- The orders `Cross` goes on with. -/
theorem cross (h : Passed b b1 bid ask bs as)
    (hm : LevelsMatched b1 (behind b1 bid bs) (behind b1 ask as) b' D' B' E' A'
      pairs) :
    Cross ((bid :: bs).map b.heap) ((ask :: as).map b.heap)
      (⟨b.heap bid, b.heap ask, frontQuantity b bid ask⟩ :: pairs)
      (B'.map b'.heap) (A'.map b'.heap) := by
  have hbid : b1.heap bid = (b.heap bid).fill (frontQuantity b bid ask) := by
    rw [h.heap, if_pos (Or.inl rfl)]
  have hask : b1.heap ask = (b.heap ask).fill (frontQuantity b bid ask) := by
    rw [h.heap, if_pos (Or.inr rfl)]
  have hbids : ∀ r ∈ bs, b1.heap r = b.heap r := by
    intro r hr
    rw [h.heap, if_neg (h.bidsRest r hr)]
  have hasks : ∀ r ∈ as, b1.heap r = b.heap r := by
    intro r hr
    rw [h.heap, if_neg (h.asksRest r hr)]
  refine .pair (frontQuantity b bid ask) rfl ?_
  rw [← map_behind hbid hbids, ← map_behind hask hasks]
  exact hm.cross

end Passed

/-- **ONE PASS, THEN THE REST**: a pass over the two fronts composes with what
    the loop does to the lists behind them. -/
theorem LevelsMatched.step {bs as D' B' E' A' : List OrderPointer}
    {b' : Orderbook P} {pairs : List (Pairing P)}
    (hids : (((bid :: bs) ++ (ask :: as)).map
      (fun p => (b.heap p).orderId)).Nodup)
    (h : LevelsMatched (b.matchFronts bid ask).1
      (behind (b.matchFronts bid ask).1 bid bs)
      (behind (b.matchFronts bid ask).1 ask as) b' D' B' E' A' pairs) :
    ∃ D E, LevelsMatched b (bid :: bs) (ask :: as) b' D B' E A'
      (⟨b.heap bid, b.heap ask, frontQuantity b bid ask⟩ :: pairs) := by
  have hpassed := matchFronts_passed hids
  have horders := matchFronts_orders (b := b) hpassed.apart
  have hpairing := matchFronts_pairing (b := b) hpassed.apart
  have hbook : (b.matchFronts bid ask).1.bids = b.bids ∧
      (b.matchFronts bid ask).1.asks = b.asks ∧
      (b.matchFronts bid ask).1.next = b.next := ⟨rfl, rfl, rfl⟩
  generalize (b.matchFronts bid ask).1 = b1 at h hpassed horders hpairing hbook
  obtain ⟨D0, hD0, hmemD0⟩ := behind_split b1 bid bs
  obtain ⟨E0, hE0, hmemE0⟩ := behind_split b1 ask as
  -- the orders dropped at this pass are the filled fronts
  have hdropped : ∀ r, (r ∈ D0 ∨ r ∈ E0) ↔
      (r = bid ∨ r = ask) ∧ (b1.heap r).isFilled = true := by
    intro r
    rw [hmemD0, hmemE0]
    constructor
    · rintro (⟨rfl, hf⟩ | ⟨rfl, hf⟩)
      · exact ⟨Or.inl rfl, hf⟩
      · exact ⟨Or.inr rfl, hf⟩
    · rintro ⟨rfl | rfl, hf⟩
      · exact Or.inl ⟨rfl, hf⟩
      · exact Or.inr ⟨rfl, hf⟩
  have hmem : ∀ r, r ∈ (D0 ++ D') ++ (E0 ++ E') ↔
      (r ∈ D0 ∨ r ∈ E0) ∨ r ∈ D' ++ E' := by
    intro r
    simp only [List.mem_append]
    exact or_or_or_comm
  refine ⟨D0 ++ D', E0 ++ E', ?_, ?_, ?_, ?_, ?_, ?_, ?_,
    fun r hr => hpassed.conserved h hr, ?_, ?_, hpassed.cross h⟩
  · rw [hD0, h.bidsSplit, List.append_assoc]
  · rw [hE0, h.asksSplit, List.append_assoc]
  · rw [h.bids, hbook.1]
  · rw [h.asks, hbook.2.1]
  · rw [h.next, hbook.2.2]
  · rw [h.levelData, List.foldl_cons, hpairing.2]
  · intro r hr
    rw [h.frame r (fun hback => hr (mem_behinds hback)), hpassed.heap r,
      if_neg]
    rintro (rfl | rfl)
    · exact hr (by simp)
    · exact hr (by simp)
  · intro r hr
    rcases (hmem r).mp hr with hr | hr
    · obtain ⟨hfront, hf⟩ := (hdropped r).mp hr
      rw [h.frame r (hpassed.gone hfront hf)]
      exact (isFilled_iff _).mp hf
    · exact h.filled r hr
  · intro id e
    simp only [h.orders, horders, hmem, hpassed.orderId]
    constructor
    · rintro ⟨⟨hfind, hfronts⟩, hlater⟩
      refine ⟨hfind, ?_⟩
      rintro r (hr | hr)
      · obtain ⟨hfront, hf⟩ := (hdropped r).mp hr
        exact hfronts r hfront hf
      · exact hlater r hr
    · rintro ⟨hfind, hall⟩
      refine ⟨⟨hfind, fun r hfront hf => ?_⟩, fun r hr => hall r (Or.inr hr)⟩
      exact hall r (Or.inl ((hdropped r).mpr ⟨hfront, hf⟩))

/-- **THE INNER LOOP REFINES `Cross`**, within the budget `matchRound` gives
    it. -/
theorem matchLevels_refines (fuel : Nat) :
    ∀ (b : Orderbook P) (B A : List OrderPointer) (ts : List (Trade P)),
      B.length + A.length ≤ fuel →
      ((B ++ A).map (fun p => (b.heap p).orderId)).Nodup →
      ∃ b' D B' E A' pairs,
        Orderbook.matchLevels fuel ⟨b, B, A, ts⟩
          = .ok ⟨b', B', A', ts ++ pairs.map Pairing.trade⟩ ∧
        LevelsMatched b B A b' D B' E A' pairs := by
  induction fuel with
  | zero =>
      intro b B A ts hlen _
      have hB : B = [] := List.eq_nil_of_length_eq_zero (by omega)
      subst hB
      exact ⟨b, [], [], [], A, [], by simp [Orderbook.matchLevels],
        .idle (Or.inl rfl)⟩
  | succ fuel ih =>
      intro b B A ts hlen hids
      cases B with
      | nil =>
          exact ⟨b, [], [], [], A, [], by simp [Orderbook.matchLevels],
            .idle (Or.inl rfl)⟩
      | cons bid bs =>
          cases A with
          | nil =>
              exact ⟨b, [], bid :: bs, [], [], [],
                by simp [Orderbook.matchLevels], .idle (Or.inr rfl)⟩
          | cons ask as =>
              have hpassed := matchFronts_passed hids
              have hpairing := matchFronts_pairing (b := b) hpassed.apart
              have hshorter := hpassed.shorter
              have hids1 := hpassed.ids hids
              obtain ⟨b', D', B', E', A', pairs, hrun, hpost⟩ :=
                ih (b.matchFronts bid ask).1 _ _
                  (ts ++ [(b.matchFronts bid ask).2]) (by omega) hids1
              obtain ⟨D, E, hmatched⟩ := LevelsMatched.step hids hpost
              refine ⟨b', D, B', E, A', _, ?_, hmatched⟩
              rw [List.map_cons, ← hpairing.1, Orderbook.matchLevels]
              refine hrun.trans ?_
              rw [List.append_assoc]
              rfl

end Inner

/-! ## What matching conserves -/

/-- Between `b` and `b'` only matching happened: orders keep their terms, every
    order loses exactly what the trades attribute to it, and an order leaves
    because it is filled or because it is a Fill-And-Kill order. -/
structure Conserved [LT P] [BEq P] (b b' : Orderbook P)
    (ts : List (Trade P)) : Prop where
  subBids : (pointersOf b'.bids).Sublist (pointersOf b.bids)
  subAsks : (pointersOf b'.asks).Sublist (pointersOf b.asks)
  next : b'.next = b.next
  frame : ∀ r, r ∉ pointers b → b'.heap r = b.heap r
  kept : ∀ r ∈ pointers b, SameTerms (b.heap r) (b'.heap r) ∧
    (b'.heap r).remainingQuantity + tradedQuantity (b.heap r).orderId ts
      = (b.heap r).remainingQuantity
  left : ∀ r ∈ pointers b, r ∉ pointers b' →
    (b'.heap r).remainingQuantity = 0 ∨
      (b.heap r).orderType = .fillAndKill
  named : ∀ t ∈ ts,
    (∃ r ∈ pointersOf b.bids, (b.heap r).orderId = t.bidTrade.orderId) ∧
    (∃ r ∈ pointersOf b.asks, (b.heap r).orderId = t.askTrade.orderId) ∧
    t.bidTrade.quantity = t.askTrade.quantity

namespace Conserved

variable [LT P] [BEq P] {b b' b'' : Orderbook P} {ts us : List (Trade P)}

theorem sub (h : Conserved b b' ts) :
    (pointers b').Sublist (pointers b) := h.subBids.append h.subAsks

theorem refl (b : Orderbook P) : Conserved b b [] where
  subBids := List.Sublist.refl _
  subAsks := List.Sublist.refl _
  next := rfl
  frame := fun _ _ => rfl
  kept := fun _ _ => ⟨.refl _, rfl⟩
  left := fun _ hr hr' => absurd hr hr'
  named := List.forall_mem_nil _

/-- Two stretches of matching are one. -/
theorem trans (hb : Linked b) (h : Conserved b b' ts)
    (h' : Conserved b' b'' us) : Conserved b b'' (ts ++ us) where
  subBids := h'.subBids.trans h.subBids
  subAsks := h'.subAsks.trans h.subAsks
  next := h'.next.trans h.next
  frame := by
    intro r hr
    rw [h'.frame r (fun hr' => hr (h.sub.subset hr')), h.frame r hr]
  kept := by
    intro r hr
    obtain ⟨h1, h2⟩ := h.kept r hr
    rw [tradedQuantity_append]
    by_cases hr' : r ∈ pointers b'
    · obtain ⟨h3, h4⟩ := h'.kept r hr'
      rw [show (b'.heap r).orderId = (b.heap r).orderId by rw [h1]] at h4
      exact ⟨h1.trans h3, by omega⟩
    · -- an order that left is named by no later trade
      have hzero : tradedQuantity (b.heap r).orderId us = 0 := by
        refine tradedQuantity_eq_zero (fun t ht hn => ?_)
        obtain ⟨⟨s, hs, hsid⟩, ⟨s', hs', hsid'⟩, -⟩ := h'.named t ht
        have hback : ∀ p, p ∈ pointers b' →
            (b'.heap p).orderId ≠ (b.heap r).orderId := by
          intro p hp heq
          have hpb := h.sub.subset hp
          rw [(h.kept p hpb).1] at heq
          rw [hb.pointer_unique hpb hr heq] at hp
          exact hr' hp
        rcases hn with hn | hn
        · exact hback s (List.mem_append.mpr (Or.inl hs)) (hsid.trans hn)
        · exact hback s' (List.mem_append.mpr (Or.inr hs')) (hsid'.trans hn)
      rw [h'.frame r hr', hzero]
      exact ⟨h1, by omega⟩
  left := by
    intro r hr hr''
    by_cases hr' : r ∈ pointers b'
    · rcases h'.left r hr' hr'' with h1 | h1
      · exact Or.inl h1
      · rw [(h.kept r hr).1] at h1
        exact Or.inr h1
    · rcases h.left r hr hr' with h1 | h1
      · rw [h'.frame r hr']
        exact Or.inl h1
      · exact Or.inr h1
  named := by
    intro t ht
    rcases List.mem_append.mp ht with ht | ht
    · exact h.named t ht
    · obtain ⟨⟨s, hs, hsid⟩, ⟨s', hs', hsid'⟩, hq⟩ := h'.named t ht
      refine ⟨⟨s, h.subBids.subset hs, ?_⟩, ⟨s', h.subAsks.subset hs', ?_⟩, hq⟩
      · rw [← hsid, (h.kept s (h.sub.subset
          (List.mem_append.mpr (Or.inl hs)))).1]
      · rw [← hsid', (h.kept s' (h.sub.subset
          (List.mem_append.mpr (Or.inr hs')))).1]

end Conserved

/-! ## Killing the front -/

section Kill

variable [LinearOrder P] {b : Orderbook P}

/-- `killFront` looks at the first pointer of the side. -/
theorem killFront_eq {lt : P → P → Prop} {levels : Levels P lt} {side : Side}
    (h : Housed b.heap side levels) :
    b.killFront levels = match pointersOf levels with
      | [] => .ok b
      | p :: _ => if (b.heap p).orderType = .fillAndKill then
          b.cancelOrderInternal (b.heap p).orderId else .ok b := by
  simp only [Orderbook.killFront, OrderedMap.begin?, pointersOf]
  cases hent : levels.entries with
  | nil => rfl
  | cons e rest =>
      obtain ⟨k, l⟩ := e
      cases l with
      | nil =>
          exact absurd rfl (h.nonempty (k, []) (by rw [hent]; simp))
      | cons p l => rfl

/-- What killing the front of one side leaves: the heap and the other side are
    untouched, and this side loses at most its first pointer. -/
structure Killed (b b' : Orderbook P) (own own' other other' :
    List OrderPointer) : Prop where
  linked : Linked b'
  heap : b'.heap = b.heap
  next : b'.next = b.next
  resting : own'.map b.heap = kill (own.map b.heap)
  sub : own'.Sublist own
  untouched : other' = other
  levelData : b'.levelData = dropOrder b.levelData (victim (own.map b.heap))
  left : ∀ r ∈ own, r ∉ own' → (b.heap r).orderType = .fillAndKill
  bidLevels : b'.bids.entries.length ≤ b.bids.entries.length
  askLevels : b'.asks.entries.length ≤ b.asks.entries.length

/-- A front that is not Fill-And-Kill stays. -/
theorem Killed.idle (h : Linked b) {own : List OrderPointer}
    (other : List OrderPointer)
    (hown : ∀ p ∈ own.head?, (b.heap p).orderType ≠ .fillAndKill) :
    Killed b b own own other other where
  linked := h
  heap := rfl
  next := rfl
  resting := by
    cases own with
    | nil => rfl
    | cons p own =>
        rw [List.map_cons, kill, if_neg (hown p (by simp))]
  sub := List.Sublist.refl _
  untouched := rfl
  levelData := by
    cases own with
    | nil => rfl
    | cons p own =>
        rw [List.map_cons, victim, if_neg (hown p (by simp))]
        rfl
  left := fun _ hr hr' => absurd hr hr'
  bidLevels := Nat.le_refl _
  askLevels := Nat.le_refl _

/-- A Fill-And-Kill front is cancelled, on whichever side it is. -/
theorem Killed.first (h : Linked b) {p : OrderPointer}
    {own other : List OrderPointer} (hp : p ∈ pointers b)
    (hown : p ∉ own) (hother : p ∉ other)
    (hf : (b.heap p).orderType = .fillAndKill) :
    ∃ b', b.cancelOrderInternal (b.heap p).orderId = .ok b' ∧
      (pointersOf b.bids = p :: own → pointersOf b.asks = other →
        Killed b b' (p :: own) (pointersOf b'.bids) other
          (pointersOf b'.asks)) ∧
      (pointersOf b.asks = p :: own → pointersOf b.bids = other →
        Killed b b' (p :: own) (pointersOf b'.asks) other
          (pointersOf b'.bids)) := by
  obtain ⟨b', hok, hl, hheap, hnext, hld, hbp, hap, hbl, hal⟩ :=
    cancelOrderInternal_resting h hp
  have h1 : (p :: own).filter (fun r => r ≠ p) = own := by
    rw [List.filter_cons, if_neg (by simp)]
    refine List.filter_eq_self.mpr (fun r hr => ?_)
    simpa using fun e : r = p => hown (e ▸ hr)
  have h2 : other.filter (fun r => r ≠ p) = other := by
    refine List.filter_eq_self.mpr (fun r hr => ?_)
    simpa using fun e : r = p => hother (e ▸ hr)
  have build : ∀ {own' other' : List OrderPointer},
      own' = own → other' = other →
      Killed b b' (p :: own) own' other other' := by
    intro own' other' ho ht
    subst ho ht
    refine ⟨hl, hheap, hnext, ?_, List.sublist_cons_self p _, rfl, ?_, ?_,
      hbl, hal⟩
    · rw [List.map_cons, kill, if_pos hf]
    · rw [hld, List.map_cons, victim, if_pos hf]
    · intro r hr hr'
      rcases List.mem_cons.mp hr with rfl | hr
      · exact hf
      · exact absurd hr hr'
  refine ⟨b', hok, ?_, ?_⟩
  · intro e1 e2
    rw [e1, h1] at hbp
    rw [e2, h2] at hap
    exact build hbp hap
  · intro e1 e2
    rw [e1, h1] at hap
    rw [e2, h2] at hbp
    exact build hap hbp

theorem killFront_bids (h : Linked b) :
    ∃ b', b.killFront b.bids = .ok b' ∧
      Killed b b' (pointersOf b.bids) (pointersOf b'.bids)
        (pointersOf b.asks) (pointersOf b'.asks) := by
  rw [killFront_eq h.bids]
  have hn := h.nodup
  cases hp : pointersOf b.bids with
  | nil => exact ⟨b, rfl, by rw [hp]; exact .idle h _ (by simp)⟩
  | cons p own =>
      by_cases hf : (b.heap p).orderType = .fillAndKill
      · rw [pointers, hp] at hn
        obtain ⟨hnb, -, hdis⟩ := List.nodup_append.mp hn
        obtain ⟨b', hok, hbids, -⟩ := Killed.first h
          (by rw [pointers, hp]; simp) (List.nodup_cons.mp hnb).1
          (fun hmem => hdis p List.mem_cons_self p hmem rfl) hf
        exact ⟨b', by simp only [if_pos hf, hok], hbids hp rfl⟩
      · exact ⟨b, by simp only [if_neg hf], by
          rw [hp]; exact .idle h _ (by simpa using hf)⟩

theorem killFront_asks (h : Linked b) :
    ∃ b', b.killFront b.asks = .ok b' ∧
      Killed b b' (pointersOf b.asks) (pointersOf b'.asks)
        (pointersOf b.bids) (pointersOf b'.bids) := by
  rw [killFront_eq h.asks]
  have hn := h.nodup
  cases hp : pointersOf b.asks with
  | nil => exact ⟨b, rfl, by rw [hp]; exact .idle h _ (by simp)⟩
  | cons p own =>
      by_cases hf : (b.heap p).orderType = .fillAndKill
      · rw [pointers, hp] at hn
        obtain ⟨-, hna, hdis⟩ := List.nodup_append.mp hn
        obtain ⟨b', hok, -, hasks⟩ := Killed.first h
          (by rw [pointers, hp]; simp) (List.nodup_cons.mp hna).1
          (fun hmem => hdis p hmem p List.mem_cons_self rfl) hf
        exact ⟨b', by simp only [if_pos hf, hok], hasks hp rfl⟩
      · exact ⟨b, by simp only [if_neg hf], by
          rw [hp]; exact .idle h _ (by simpa using hf)⟩

end Kill

/-! ## One round -/

section Rounds

variable [LinearOrder P] {b : Orderbook P}

/-- An index that forgot the orders that are gone leads to those that are left. -/
theorem index_left (h : Linked b) {gone left : List OrderPointer}
    (hsplit : ∀ r, r ∈ pointers b ↔ r ∈ gone ∨ r ∈ left)
    (hapart : ∀ r ∈ gone, r ∉ left) (id : OrderId) (e : OrderEntry) :
    (b.orders.find? id = some e ∧ ∀ r ∈ gone, (b.heap r).orderId ≠ id) ↔
      b.orders.find? id = some e ∧ e.order ∈ left := by
  refine and_congr_right (fun hfind => ?_)
  obtain ⟨r, hr, hrid, rfl⟩ := (h.index id e).mp hfind
  constructor
  · intro hgone
    exact ((hsplit r).mp hr).resolve_left (fun hmem => hgone r hmem hrid)
  · intro hleft s hs hsid
    have hsame := h.pointer_unique ((hsplit s).mpr (Or.inl hs)) hr
      (hsid.trans hrid.symm)
    subst hsame
    exact hapart s hs hleft

section Stored

variable {pb pa : P} {B A : List OrderPointer}
  {rb ra : List (P × List OrderPointer)} {b1 : Orderbook P}
  {D B' E A' : List OrderPointer} {pairs : List (Pairing P)}

/-- Every order keeps its terms, whether or not it was in the two levels. -/
theorem LevelsMatched.terms (hm : LevelsMatched b B A b1 D B' E A' pairs)
    (r : OrderPointer) : SameTerms (b.heap r) (b1.heap r) ∧
      (b1.heap r).remainingQuantity ≤ (b.heap r).remainingQuantity := by
  by_cases hr : r ∈ B ++ A
  · obtain ⟨h1, h2⟩ := hm.conserved r hr
    exact ⟨h1, by omega⟩
  · rw [hm.frame r hr]
    exact ⟨.refl _, Nat.le_refl _⟩

/-- The trades name orders of the two levels. -/
theorem LevelsMatched.named (hm : LevelsMatched b B A b1 D B' E A' pairs)
    {t : Trade P} (ht : t ∈ pairs.map Pairing.trade) :
    (∃ r ∈ B, (b.heap r).orderId = t.bidTrade.orderId) ∧
      (∃ r ∈ A, (b.heap r).orderId = t.askTrade.orderId) ∧
      t.bidTrade.quantity = t.askTrade.quantity := by
  obtain ⟨p, hp, rfl⟩ := List.mem_map.mp ht
  obtain ⟨⟨x, hx, hxb⟩, ⟨y, hy, hya⟩⟩ := hm.cross.pairs_from p hp
  obtain ⟨r, hr, rfl⟩ := List.mem_map.mp hx
  obtain ⟨s, hs, rfl⟩ := List.mem_map.mp hy
  refine ⟨⟨r, hr, ?_⟩, ⟨s, hs, ?_⟩, rfl⟩
  · show _ = p.bid.orderId
    rw [hxb]
  · show _ = p.ask.orderId
    rw [hya]

/-- Every resting order was dropped by the inner loop or is left. -/
theorem LevelsMatched.mem_pointers
    (hm : LevelsMatched b B A b1 D B' E A' pairs)
    (hb : b.bids.entries = (pb, B) :: rb)
    (ha : b.asks.entries = (pa, A) :: ra) (r : OrderPointer) :
    r ∈ pointers b ↔ r ∈ D ++ E ∨
      r ∈ (B' ++ rb.flatMap Prod.snd) ++ (A' ++ ra.flatMap Prod.snd) := by
  rw [pointers, pointersOf_best hb, pointersOf_best ha, hm.bidsSplit,
    hm.asksSplit]
  simp only [List.mem_append]
  tauto

theorem LevelsMatched.apart (hm : LevelsMatched b B A b1 D B' E A' pairs)
    (h : Linked b) (hb : b.bids.entries = (pb, B) :: rb)
    (ha : b.asks.entries = (pa, A) :: ra) : ∀ r ∈ D ++ E,
      r ∉ (B' ++ rb.flatMap Prod.snd) ++ (A' ++ ra.flatMap Prod.snd) := by
  have hn := h.nodup
  rw [pointers, pointersOf_best hb, pointersOf_best ha, hm.bidsSplit,
    hm.asksSplit, List.append_assoc D, List.append_assoc E] at hn
  obtain ⟨hnB, hnA, hdis⟩ := List.nodup_append.mp hn
  have hd1 := (List.nodup_append.mp hnB).2.2
  have hd2 := (List.nodup_append.mp hnA).2.2
  intro r hr hleft
  rcases List.mem_append.mp hr with h3 | h3
  · rcases List.mem_append.mp hleft with h4 | h4
    · exact hd1 r h3 r h4 rfl
    · exact hdis r (List.mem_append_left _ h3) r
        (List.mem_append_right _ h4) rfl
  · rcases List.mem_append.mp hleft with h4 | h4
    · exact hdis r (List.mem_append_right _ h4) r
        (List.mem_append_left _ h3) rfl
    · exact hd2 r h3 r h4 rfl

/-- What is on the two sides once the best levels are stored back. -/
theorem LevelsMatched.stored (hm : LevelsMatched b B A b1 D B' E A' pairs)
    (hb : b.bids.entries = (pb, B) :: rb)
    (ha : b.asks.entries = (pa, A) :: ra) :
    (pointersOf (storeLevel b1.bids pb B') = B' ++ rb.flatMap Prod.snd ∧
      (storeLevel b1.bids pb B').entries
        = if B' = [] then rb else (pb, B') :: rb) ∧
    (pointersOf (storeLevel b1.asks pa A') = A' ++ ra.flatMap Prod.snd ∧
      (storeLevel b1.asks pa A').entries
        = if A' = [] then ra else (pa, A') :: ra) :=
  ⟨pointersOf_storeBest B' (hm.bids ▸ hb),
    pointersOf_storeBest A' (hm.asks ▸ ha)⟩

theorem LevelsMatched.stored_sub
    (hm : LevelsMatched b B A b1 D B' E A' pairs)
    (hb : b.bids.entries = (pb, B) :: rb)
    (ha : b.asks.entries = (pa, A) :: ra) :
    (B' ++ rb.flatMap Prod.snd).Sublist (pointersOf b.bids) ∧
      (A' ++ ra.flatMap Prod.snd).Sublist (pointersOf b.asks) := by
  rw [pointersOf_best hb, pointersOf_best ha, hm.bidsSplit, hm.asksSplit,
    List.append_assoc, List.append_assoc]
  exact ⟨List.sublist_append_right _ _, List.sublist_append_right _ _⟩

/-- Everything is linked again. -/
theorem storeBest_linked (h : Linked b)
    (hb : b.bids.entries = (pb, B) :: rb)
    (ha : b.asks.entries = (pa, A) :: ra)
    (hm : LevelsMatched b B A b1 D B' E A' pairs) :
    Linked (b1.storeBest pb pa B' A') := by
  obtain ⟨⟨hnewB, -⟩, ⟨hnewA, -⟩⟩ := hm.stored hb ha
  obtain ⟨hsubB, hsubA⟩ := hm.stored_sub hb ha
  have hb1 : b1.bids.entries = [] ++ (pb, B) :: rb := by rw [hm.bids, hb]; rfl
  have ha1 : b1.asks.entries = [] ++ (pa, A) :: ra := by rw [hm.asks, ha]; rfl
  have hB1 : Housed b1.heap .buy b1.bids := by
    rw [hm.bids]
    exact h.bids.congr (fun r _ => by rw [(hm.terms r).1])
      (fun r _ => by rw [(hm.terms r).1])
  have hA1 : Housed b1.heap .sell b1.asks := by
    rw [hm.asks]
    exact h.asks.congr (fun r _ => by rw [(hm.terms r).1])
      (fun r _ => by rw [(hm.terms r).1])
  have hsB := b1.bids.sorted
  have hsA := b1.asks.sorted
  rw [hb1] at hsB
  rw [ha1] at hsA
  refine h.shrink ?_ ?_ ?_ (fun r _ => hm.terms r) ?_
    (Nat.le_of_eq hm.next.symm)
  · exact hB1.storeLevel hb1 (List.forall_mem_nil _)
      (List.pairwise_cons.mp hsB).1 (fun r hr => by
        rw [hm.bidsSplit]; exact List.mem_append_right _ hr)
  · exact hA1.storeLevel ha1 (List.forall_mem_nil _)
      (List.pairwise_cons.mp hsA).1 (fun r hr => by
        rw [hm.asksSplit]; exact List.mem_append_right _ hr)
  · show (pointersOf (storeLevel b1.bids pb B')
      ++ pointersOf (storeLevel b1.asks pa A')).Sublist (pointers b)
    rw [hnewB, hnewA]
    exact hsubB.append hsubA
  · intro id e
    show b1.orders.find? id = some e ↔ b.orders.find? id = some e ∧
      e.order ∈ pointersOf (storeLevel b1.bids pb B')
        ++ pointersOf (storeLevel b1.asks pa A')
    rw [hm.orders, hnewB, hnewA]
    exact index_left h (hm.mem_pointers hb ha) (hm.apart h hb ha) id e

/-- Nothing but matching happened. -/
theorem storeBest_conserved (h : Linked b)
    (hb : b.bids.entries = (pb, B) :: rb)
    (ha : b.asks.entries = (pa, A) :: ra)
    (hm : LevelsMatched b B A b1 D B' E A' pairs) :
    Conserved b (b1.storeBest pb pa B' A') (pairs.map Pairing.trade) := by
  obtain ⟨⟨hnewB, -⟩, ⟨hnewA, -⟩⟩ := hm.stored hb ha
  obtain ⟨hsubB, hsubA⟩ := hm.stored_sub hb ha
  have hbids : ∀ r ∈ B, r ∈ pointersOf b.bids := by
    intro r hr
    rw [pointersOf_best hb]
    exact List.mem_append_left _ hr
  have hasks : ∀ r ∈ A, r ∈ pointersOf b.asks := by
    intro r hr
    rw [pointersOf_best ha]
    exact List.mem_append_left _ hr
  have hmem : ∀ r, r ∈ B ++ A → r ∈ pointers b := by
    intro r hr
    rcases List.mem_append.mp hr with hr | hr
    · exact List.mem_append_left _ (hbids r hr)
    · exact List.mem_append_right _ (hasks r hr)
  refine ⟨?_, ?_, hm.next,
    fun r hr => hm.frame r (fun hr' => hr (hmem r hr')), ?_, ?_, ?_⟩
  · show (pointersOf (storeLevel b1.bids pb B')).Sublist _
    rw [hnewB]
    exact hsubB
  · show (pointersOf (storeLevel b1.asks pa A')).Sublist _
    rw [hnewA]
    exact hsubA
  · intro r hr
    by_cases hr' : r ∈ B ++ A
    · exact hm.conserved r hr'
    · -- an order of another level is named by no trade
      refine ⟨(hm.terms r).1, ?_⟩
      rw [tradedQuantity_eq_zero, Nat.add_zero]
      · show (b1.heap r).remainingQuantity = _
        rw [hm.frame r hr']
      · intro t ht hn
        obtain ⟨⟨s, hs, hsid⟩, ⟨s', hs', hsid'⟩, -⟩ := hm.named ht
        rcases hn with hn | hn
        · have hsame := h.pointer_unique (hmem s (List.mem_append_left _ hs))
            hr (hsid.trans hn)
          exact hr' (hsame ▸ List.mem_append_left _ hs)
        · have hsame := h.pointer_unique (hmem s' (List.mem_append_right _ hs'))
            hr (hsid'.trans hn)
          exact hr' (hsame ▸ List.mem_append_right _ hs')
  · intro r hr hr'
    refine Or.inl (hm.filled r
      (((hm.mem_pointers hb ha r).mp hr).resolve_right (fun hleft => hr' ?_)))
    show r ∈ pointersOf (storeLevel b1.bids pb B')
      ++ pointersOf (storeLevel b1.asks pa A')
    rw [hnewB, hnewA]
    exact hleft
  · intro t ht
    obtain ⟨⟨s, hs, hsid⟩, ⟨s', hs', hsid'⟩, hq⟩ := hm.named ht
    exact ⟨⟨s, hbids s hs, hsid⟩, ⟨s', hasks s' hs', hsid'⟩, hq⟩

/-- One of the two levels is exhausted, so one of the two sides loses it. -/
theorem storeBest_shrinks (hb : b.bids.entries = (pb, B) :: rb)
    (ha : b.asks.entries = (pa, A) :: ra)
    (hm : LevelsMatched b B A b1 D B' E A' pairs) :
    (b1.storeBest pb pa B' A').bids.entries.length
        + (b1.storeBest pb pa B' A').asks.entries.length
      < b.bids.entries.length + b.asks.entries.length := by
  obtain ⟨⟨-, hentB⟩, ⟨-, hentA⟩⟩ := hm.stored hb ha
  show (storeLevel b1.bids pb B').entries.length
    + (storeLevel b1.asks pa A').entries.length < _
  rw [hentB, hentA, hb, ha]
  simp only [List.length_cons]
  have hempty : B' = [] ∨ A' = [] :=
    hm.cross.exhausts.imp List.map_eq_nil_iff.mp List.map_eq_nil_iff.mp
  have hlenB : (if B' = [] then rb else (pb, B') :: rb).length
      ≤ rb.length + 1 := by split <;> simp
  have hlenA : (if A' = [] then ra else (pa, A') :: ra).length
      ≤ ra.length + 1 := by split <;> simp
  rcases hempty with h1 | h1
  · rw [if_pos h1] at hlenB ⊢
    omega
  · rw [if_pos h1] at hlenA ⊢
    omega

/-- The orders behind the two best levels are in neither of them. -/
theorem behind_apart (h : Linked b)
    (hb : b.bids.entries = (pb, B) :: rb)
    (ha : b.asks.entries = (pa, A) :: ra) :
    (∀ r ∈ rb.flatMap Prod.snd, r ∉ B ++ A) ∧
      (∀ r ∈ ra.flatMap Prod.snd, r ∉ B ++ A) := by
  have hn := h.nodup
  rw [pointers, pointersOf_best hb, pointersOf_best ha] at hn
  obtain ⟨hnB, hnA, hdis⟩ := List.nodup_append.mp hn
  constructor
  · intro r hr hmem
    rcases List.mem_append.mp hmem with h1 | h1
    · exact (List.nodup_append.mp hnB).2.2 r h1 r hr rfl
    · exact hdis r (List.mem_append_right _ hr) r
        (List.mem_append_left _ h1) rfl
  · intro r hr hmem
    rcases List.mem_append.mp hmem with h1 | h1
    · exact hdis r (List.mem_append_left _ h1) r
        (List.mem_append_right _ hr) rfl
    · exact (List.nodup_append.mp hnA).2.2 r h1 r hr rfl

/-- What rests once the best levels are stored back: what the inner loop left
    of them, and the orders behind them as they were. -/
theorem storeBest_resting (h : Linked b)
    (hb : b.bids.entries = (pb, B) :: rb)
    (ha : b.asks.entries = (pa, A) :: ra)
    (hm : LevelsMatched b B A b1 D B' E A' pairs) :
    restingBids (b1.storeBest pb pa B' A')
        = B'.map b1.heap ++ (rb.flatMap Prod.snd).map b.heap ∧
      restingAsks (b1.storeBest pb pa B' A')
        = A'.map b1.heap ++ (ra.flatMap Prod.snd).map b.heap := by
  obtain ⟨⟨hnewB, -⟩, ⟨hnewA, -⟩⟩ := hm.stored hb ha
  obtain ⟨hapartB, hapartA⟩ := behind_apart h hb ha
  constructor
  · show (pointersOf (storeLevel b1.bids pb B')).map b1.heap = _
    rw [hnewB, List.map_append]
    congr 1
    exact List.map_congr_left (fun r hr => hm.frame r (hapartB r hr))
  · show (pointersOf (storeLevel b1.asks pa A')).map b1.heap = _
    rw [hnewA, List.map_append]
    congr 1
    exact List.map_congr_left (fun r hr => hm.frame r (hapartA r hr))

end Stored

/-- The two kills that close a pass drop Fill-And-Kill orders and nothing
    else. -/
theorem Killed.conserved {b b' b'' : Orderbook P}
    (hbid : Killed b b' (pointersOf b.bids) (pointersOf b'.bids)
      (pointersOf b.asks) (pointersOf b'.asks))
    (hask : Killed b' b'' (pointersOf b'.asks) (pointersOf b''.asks)
      (pointersOf b'.bids) (pointersOf b''.bids)) :
    Conserved b b'' [] := by
  have hheap : b''.heap = b.heap := by rw [hask.heap, hbid.heap]
  have hsubB : (pointersOf b''.bids).Sublist (pointersOf b.bids) := by
    rw [hask.untouched]
    exact hbid.sub
  have hsubA : (pointersOf b''.asks).Sublist (pointersOf b.asks) := by
    rw [← hbid.untouched]
    exact hask.sub
  refine ⟨hsubB, hsubA, by rw [hask.next, hbid.next],
    fun r _ => by rw [hheap], fun r _ => ?_, ?_, List.forall_mem_nil _⟩
  · rw [hheap]
    exact ⟨.refl _, rfl⟩
  · intro r hr hr'
    refine Or.inr ?_
    rcases List.mem_append.mp hr with h1 | h1
    · refine hbid.left r h1 (fun h2 => hr' ?_)
      rw [← hask.untouched] at h2
      exact List.mem_append_left _ h2
    · rw [← hbid.heap]
      refine hask.left r ?_ (fun h2 => hr' (List.mem_append_right _ h2))
      rw [hbid.untouched]
      exact h1

/-- The round of a matching pass, read off its inner loop. -/
def roundOf (b : Orderbook P) (pb pa : P) (pairs : List (Pairing P))
    (B' A' : List (Order P)) (rb ra : List (P × List OrderPointer)) :
    Round P :=
  ⟨pb, pa, pairs, B'.isEmpty, A'.isEmpty,
    victim (B' ++ (rb.flatMap Prod.snd).map b.heap),
    victim (A' ++ (ra.flatMap Prod.snd).map b.heap)⟩

/-- **ONE PASS OF THE OUTER LOOP**: it faults nowhere, stays linked, erases a
    level, and is a round of `Rounds`. -/
theorem matchRound_refines (h : Linked b) {pb pa : P}
    {B A : List OrderPointer} {rb ra : List (P × List OrderPointer)}
    (hb : b.bids.entries = (pb, B) :: rb)
    (ha : b.asks.entries = (pa, A) :: ra) (ts : List (Trade P)) :
    ∃ b' pairs B' A',
      b.matchRound pb pa ts = .ok (b', ts ++ pairs.map Pairing.trade) ∧
      Linked b' ∧ Conserved b b' (pairs.map Pairing.trade) ∧
      Cross (B.map b.heap) (A.map b.heap) pairs B' A' ∧
      restingBids b' = kill (B' ++ (rb.flatMap Prod.snd).map b.heap) ∧
      restingAsks b' = kill (A' ++ (ra.flatMap Prod.snd).map b.heap) ∧
      b'.levelData = (roundOf b pb pa pairs B' A' rb ra).apply b.levelData ∧
      b'.bids.entries.length + b'.asks.entries.length
        < b.bids.entries.length + b.asks.entries.length := by
  have hfindB : b.bids.find? pb = some B :=
    b.bids.find?_eq_some_iff.mpr (by rw [hb]; simp)
  have hfindA : b.asks.find? pa = some A :=
    b.asks.find?_eq_some_iff.mpr (by rw [ha]; simp)
  have hptsB := pointersOf_best hb
  have hptsA := pointersOf_best ha
  have hids : ((B ++ A).map (fun p => (b.heap p).orderId)).Nodup := by
    refine h.ids.sublist (List.Sublist.map _ ?_)
    rw [pointers, hptsB, hptsA]
    exact (List.sublist_append_left _ _).append (List.sublist_append_left _ _)
  obtain ⟨b1, D, B', E, A', pairs, hrun, hm⟩ :=
    matchLevels_refines (B.length + A.length) b B A ts (Nat.le_refl _) hids
  have hl2 := storeBest_linked h hb ha hm
  have hc2 := storeBest_conserved h hb ha hm
  have hlen2 := storeBest_shrinks hb ha hm
  obtain ⟨hvB, hvA⟩ := storeBest_resting h hb ha hm
  have hld2 : (b1.storeBest pb pa B' A').levelData
      = dropLevel (dropLevel (pairs.foldl Pairing.apply b.levelData) pb
        B'.isEmpty) pa A'.isEmpty := by
    rw [← hm.levelData]
    rfl
  generalize hb2 : b1.storeBest pb pa B' A' = b2
    at hl2 hc2 hlen2 hvB hvA hld2
  obtain ⟨b3, hk3, hK3⟩ := killFront_bids hl2
  obtain ⟨b4, hk4, hK4⟩ := killFront_asks hK3.linked
  rw [restingBids] at hvB
  rw [restingAsks] at hvA
  have hown3 := hK3.resting
  rw [hvB] at hown3
  have hown4 := hK4.resting
  rw [hK3.untouched, hK3.heap, hvA] at hown4
  have hheap4 : b4.heap = b2.heap := by rw [hK4.heap, hK3.heap]
  refine ⟨b4, pairs, B'.map b1.heap, A'.map b1.heap, ?_, hK4.linked, ?_,
    hm.cross, ?_, ?_, ?_, ?_⟩
  · simp only [Orderbook.matchRound, levelAt, hfindB, hfindA, bind,
      Except.bind, hrun, hb2, hk3, hk4]
    rfl
  · have := Conserved.trans h hc2 (hK3.conserved hK4)
    rwa [List.append_nil] at this
  · rw [restingBids, hheap4, hK4.untouched]
    exact hown3
  · rw [restingAsks, hheap4]
    exact hown4
  · have hemptyB : (B'.map b1.heap).isEmpty = B'.isEmpty := by simp
    have hemptyA : (A'.map b1.heap).isEmpty = A'.isEmpty := by simp
    rw [hK4.levelData, hK3.levelData, hK3.untouched, hK3.heap, hvB, hvA, hld2,
      roundOf, Round.apply, hemptyB, hemptyA]
  · have h3 := hK3.bidLevels
    have h3' := hK3.askLevels
    have h4 := hK4.bidLevels
    have h4' := hK4.askLevels
    omega

/-- When the best prices do not cross, no two prices do. -/
theorem uncrossed_of_best (h : Linked b) {pb pa : P}
    {B A : List OrderPointer} {rb ra : List (P × List OrderPointer)}
    (hb : b.bids.entries = (pb, B) :: rb)
    (ha : b.asks.entries = (pa, A) :: ra) (hlt : pb < pa) :
    ∀ x ∈ restingBids b, ∀ y ∈ restingAsks b, x.price < y.price := by
  intro x hx y hy
  obtain ⟨hB, hrb⟩ := h.bids.behind_best hb
  obtain ⟨hA, hra⟩ := h.asks.behind_best ha
  rw [restingBids, pointersOf_best hb, List.map_append] at hx
  rw [restingAsks, pointersOf_best ha, List.map_append] at hy
  have hxp : x.price ≤ pb := by
    rcases List.mem_append.mp hx with h1 | h1
    · exact le_of_eq (hB x h1)
    · exact le_of_lt (hrb x h1)
  have hyp : pa ≤ y.price := by
    rcases List.mem_append.mp hy with h1 | h1
    · exact le_of_eq (hA y h1).symm
    · exact le_of_lt (hra y h1)
  exact lt_of_le_of_lt hxp (lt_of_lt_of_le hlt hyp)

/-- **THE MATCHING LOOP REFINES `Rounds`.** -/
theorem matchLoop_refines (fuel : Nat) :
    ∀ (b : Orderbook P) (ts : List (Trade P)), Linked b →
      b.bids.entries.length + b.asks.entries.length ≤ fuel →
      ∃ b' log, Orderbook.matchLoop fuel b ts = .ok (b', ts ++ trades log) ∧
        Linked b' ∧ Conserved b b' (trades log) ∧
        Rounds (restingBids b) (restingAsks b) log
          (restingBids b') (restingAsks b') ∧
        b'.levelData = log.foldl Round.apply b.levelData := by
  -- the induction is on the fuel, which the levels of both sides bound
  induction fuel with
  | zero =>
      intro b ts h hlen
      have hb : b.bids.entries = [] :=
        List.eq_nil_of_length_eq_zero (by omega)
      refine ⟨b, [], ?_, h, .refl b, .stop ?_, rfl⟩
      · simp [Orderbook.matchLoop, OrderedMap.begin?, hb, trades]
      · intro x hx
        rw [restingBids, pointersOf, hb] at hx
        cases hx
  | succ fuel ih =>
      intro b ts h hlen
      cases hb : b.bids.entries with
      | nil =>
          refine ⟨b, [], ?_, h, .refl b, .stop ?_, rfl⟩
          · simp [Orderbook.matchLoop, OrderedMap.begin?, hb, trades]
          · intro x hx
            rw [restingBids, pointersOf, hb] at hx
            cases hx
      | cons eb rb =>
          cases ha : b.asks.entries with
          | nil =>
              refine ⟨b, [], ?_, h, .refl b, .stop ?_, rfl⟩
              · simp [Orderbook.matchLoop, OrderedMap.begin?, hb, ha, trades]
              · intro x _ y hy
                rw [restingAsks, pointersOf, ha] at hy
                cases hy
          | cons ea ra =>
              obtain ⟨pb, B⟩ := eb
              obtain ⟨pa, A⟩ := ea
              -- the loop stops where the best levels do not cross
              by_cases hlt : pb < pa
              · refine ⟨b, [], ?_, h, .refl b,
                  .stop (uncrossed_of_best h hb ha hlt), rfl⟩
                simp [Orderbook.matchLoop, OrderedMap.begin?, hb, ha, hlt,
                  trades]
              · obtain ⟨b1, pairs, B', A', hround, hl1, hc1, hcross, hB1, hA1,
                  hld1, hlen1⟩ := matchRound_refines h hb ha ts
                obtain ⟨b', log, hrun, hl', hc', hrounds, hld'⟩ :=
                  ih b1 (ts ++ pairs.map Pairing.trade) hl1 (by omega)
                refine ⟨b', roundOf b pb pa pairs B' A' rb ra :: log, ?_, hl',
                  ?_, ?_, ?_⟩
                · rw [Orderbook.matchLoop]
                  simp only [OrderedMap.begin?, hb, ha, List.head?_cons,
                    if_neg hlt, hround, bind, Except.bind, hrun, trades_cons,
                    List.append_assoc]
                  rfl
                · rw [trades_cons]
                  exact Conserved.trans h hc1 hc'
                · rw [hB1, hA1] at hrounds
                  rw [restingBids, restingAsks, pointersOf_best hb,
                    pointersOf_best ha, List.map_append, List.map_append]
                  have hBne : B ≠ [] := h.bids.nonempty (pb, B) (by
                    rw [hb]; simp)
                  have hAne : A ≠ [] := h.asks.nonempty (pa, A) (by
                    rw [ha]; simp)
                  obtain ⟨hBp, hrbp⟩ := h.bids.behind_best hb
                  obtain ⟨hAp, hrap⟩ := h.asks.behind_best ha
                  exact .round hBp hrbp hAp hrap
                    (fun e => hBne (List.map_eq_nil_iff.mp e))
                    (fun e => hAne (List.map_eq_nil_iff.mp e))
                    hlt hcross hrounds
                · rw [hld', hld1]
                  rfl

/-- **`MatchOrders` REFINES `Rounds`**, from every linked book. -/
theorem matchOrders_refines (h : Linked b) :
    ∃ b' log, b.matchOrders = .ok (b', trades log) ∧ Linked b' ∧
      Conserved b b' (trades log) ∧
      Rounds (restingBids b) (restingAsks b) log
        (restingBids b') (restingAsks b') ∧
      b'.levelData = log.foldl Round.apply b.levelData := by
  obtain ⟨b', log, hrun, hrest⟩ :=
    matchLoop_refines _ b [] h (Nat.le_refl _)
  exact ⟨b', log, hrun, hrest⟩

end Rounds

end OsxMatching
