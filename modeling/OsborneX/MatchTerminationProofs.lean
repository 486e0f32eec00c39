import OsborneX.IterationProofs
import OsborneX.SoundRunProofs

/-! # Matching terminates, and its work is bounded

    Both loops of `MatchOrders` are read as loops without a budget: `matchPass`
    is one look at the inner loop, `matchStep` one look at the outer one.

    A pass of the inner loop drops the front of at least one of its two lists,
    whatever the two orders trade, because the smaller remainder is filled to
    zero.  A pass of the outer loop erases at least one of the two best levels,
    because the inner loop ends with one of them exhausted.  Every pairing but
    the last leaves an order behind that the next ones still have to drop, so
    there are fewer trades than orders.

    That is shown of books over a linear order.  A book of doubles without a
    NaN is matched in lockstep with one, so its loops make the same passes. -/

namespace OsxTermination

open OsxOrderbook OsxCrossing OsxLink OsxMatching OsxCalls
open OsxRepresentation OsxMirror Outcome Iteration

variable {P Q : Type}

/-! ## The inner loop -/

section Inner

variable [LT P] [BEq P]

/-- One look at the inner loop. -/
def matchPass (m : Orderbook.Matched P) :
    Except Fault (Option (Orderbook.Matched P)) :=
  match m.bidsAtBestPrice, m.asksAtBestPrice with
  | bid :: bids, ask :: asks =>
      let (b, trade) := m.book.matchFronts bid ask
      .ok (some
        { book := b,
          bidsAtBestPrice :=
            if (b.heap bid).isFilled then bids else bid :: bids,
          asksAtBestPrice :=
            if (b.heap ask).isFilled then asks else ask :: asks,
          trades := m.trades ++ [trade] })
  | _, _ => .ok none

/-- What a pass takes off the two lists: fronts only, and at least one. -/
structure DropsFront (m m' : Orderbook.Matched P) : Prop where
  bids : m'.bidsAtBestPrice = m.bidsAtBestPrice ∨
    m'.bidsAtBestPrice = m.bidsAtBestPrice.tail
  asks : m'.asksAtBestPrice = m.asksAtBestPrice ∨
    m'.asksAtBestPrice = m.asksAtBestPrice.tail
  drops : (m.bidsAtBestPrice ≠ [] ∧
      m'.bidsAtBestPrice = m.bidsAtBestPrice.tail) ∨
    (m.asksAtBestPrice ≠ [] ∧ m'.asksAtBestPrice = m.asksAtBestPrice.tail)

/-- The orders left in the two lists. -/
def ordersLeft (m : Orderbook.Matched P) : Nat :=
  m.bidsAtBestPrice.length + m.asksAtBestPrice.length

theorem DropsFront.fewer {m m' : Orderbook.Matched P} (h : DropsFront m m') :
    ordersLeft m' < ordersLeft m := by
  have hle : ∀ l l' : List OrderPointer, l' = l ∨ l' = l.tail →
      l'.length ≤ l.length := by
    rintro l l' (rfl | rfl)
    · exact Nat.le_refl _
    · rw [List.length_tail]
      exact Nat.sub_le _ _
  have hlt : ∀ l l' : List OrderPointer, l ≠ [] ∧ l' = l.tail →
      l'.length < l.length := by
    rintro l l' ⟨hne, rfl⟩
    rw [List.length_tail]
    exact Nat.sub_lt (List.length_pos_of_ne_nil hne) Nat.one_pos
  have hbids := hle _ _ h.bids
  have hasks := hle _ _ h.asks
  rw [ordersLeft, ordersLeft]
  rcases h.drops with hd | hd
  · have := hlt _ _ hd
    omega
  · have := hlt _ _ hd
    omega

/-- No order is on both lists. -/
def Apart (m : Orderbook.Matched P) : Prop :=
  List.Disjoint m.bidsAtBestPrice m.asksAtBestPrice

/-- What is behind a front is its list without it, or its list. -/
theorem behind_cases (b : Orderbook P) (p : OrderPointer)
    (l : List OrderPointer) :
    behind b p l = p :: l ∨ behind b p l = (p :: l).tail := by
  rw [behind]
  split
  · exact Or.inr rfl
  · exact Or.inl rfl

/-- **A PASS OF THE INNER LOOP DROPS A FRONT**, also where it fills nothing. -/
theorem matchPass_drops {m m' : Orderbook.Matched P} (h : Apart m)
    (hpass : matchPass m = .ok (some m')) : Apart m' ∧ DropsFront m m' := by
  obtain ⟨b, B, A, ts⟩ := m
  cases B with
  | nil => cases hpass
  | cons bid bs =>
      cases A with
      | nil => cases hpass
      | cons ask as =>
          cases hpass
          have hne : bid ≠ ask := by
            rintro rfl
            exact h List.mem_cons_self List.mem_cons_self
          have hbids := behind_cases (b.matchFronts bid ask).1 bid bs
          have hasks := behind_cases (b.matchFronts bid ask).1 ask as
          refine ⟨?_, hbids, hasks, ?_⟩
          · intro r hr hr'
            exact h (mem_behind hr) (mem_behind hr')
          · -- the order with the smaller remainder is filled
            rcases matchFronts_fills (b := b) hne with hf | hf
            · exact Or.inl ⟨List.cons_ne_nil _ _, if_pos hf⟩
            · exact Or.inr ⟨List.cons_ne_nil _ _, if_pos hf⟩

/-- A look at the inner loop never faults. -/
theorem matchPass_returns (m : Orderbook.Matched P) :
    matchPass m = .ok none ∨ ∃ m', matchPass m = .ok (some m') := by
  obtain ⟨b, B, A, ts⟩ := m
  cases B with
  | nil => exact Or.inl rfl
  | cons bid bs =>
      cases A with
      | nil => exact Or.inl rfl
      | cons ask as => exact Or.inr ⟨_, rfl⟩

/-- **THE INNER LOOP TERMINATES**: it makes at most one pass for each order of
    the two levels. -/
theorem matchPass_terminates {m : Orderbook.Matched P} (h : Apart m) :
    ∃ passes m', Passes matchPass m passes m' ∧
      passes.length ≤ ordersLeft m ∧
      ∀ r ∈ passes, ∃ r', matchPass r = .ok (some r') ∧ DropsFront r r' := by
  obtain ⟨passes, m', hrun, hlen⟩ :=
    exists_passes ordersLeft (I := Apart) (fun r hr => by
      rcases matchPass_returns r with hleft | ⟨r', hpass⟩
      · exact Or.inl hleft
      · obtain ⟨hr', hd⟩ := matchPass_drops hr hpass
        exact Or.inr ⟨r', hpass, hr', hd.fewer⟩) h
  obtain ⟨-, hdrops⟩ := hrun.forall (fun r r' => matchPass_drops) h
  exact ⟨passes, m', hrun, Nat.le_of_add_right_le hlen, hdrops⟩

/-- The budget of `matchLevels` only has to cover the passes. -/
theorem matchLevels_of_passes {m m' : Orderbook.Matched P}
    {passes : List (Orderbook.Matched P)}
    (h : Passes matchPass m passes m') {fuel : Nat}
    (hfuel : passes.length ≤ fuel) :
    Orderbook.matchLevels fuel m = .ok m' := by
  refine h.within Orderbook.matchLevels ?_ ?_ hfuel
  · rintro fuel ⟨b, B, A, ts⟩ hleft
    cases B with
    | nil => simp [Orderbook.matchLevels]
    | cons bid bs =>
        cases A with
        | nil => simp [Orderbook.matchLevels]
        | cons ask as => cases hleft
  · rintro fuel ⟨b, B, A, ts⟩ m' hpass
    cases B with
    | nil => cases hpass
    | cons bid bs =>
        cases A with
        | nil => cases hpass
        | cons ask as =>
            cases hpass
            rw [Orderbook.matchLevels]
            rfl

end Inner

/-! ## Counting trades -/

theorem length_kill_le (os : List (Order P)) : (kill os).length ≤ os.length :=
  (kill_sub os).length_le

theorem length_leave_le (o : Order P) (os : List (Order P)) :
    (leave o os).length ≤ os.length + 1 := by
  rw [leave]
  split
  · exact Nat.le_succ _
  · exact Nat.le_refl _

/-- A pairing fills the order with the smaller remainder, which leaves. -/
theorem length_leave_pair {x y : Order P} {q : Nat}
    (hq : q = min x.remainingQuantity y.remainingQuantity)
    (xs ys : List (Order P)) :
    (leave (x.fill q) xs).length + (leave (y.fill q) ys).length
      < (x :: xs).length + (y :: ys).length := by
  have hx := length_leave_le (x.fill q) xs
  have hy := length_leave_le (y.fill q) ys
  have hxq : q ≤ x.remainingQuantity := hq ▸ Nat.min_le_left _ _
  have hyq : q ≤ y.remainingQuantity := hq ▸ Nat.min_le_right _ _
  simp only [List.length_cons]
  by_cases hmin : x.remainingQuantity = q
  · have hgone : leave (x.fill q) xs = xs := if_pos ((isFilled_fill hxq).mpr hmin)
    rw [hgone]
    omega
  · have hgone : leave (y.fill q) ys = ys :=
      if_pos ((isFilled_fill hyq).mpr (by omega))
    rw [hgone]
    omega

/-- Every pairing drops an order. -/
theorem length_pairs_le {xs ys xs' ys' : List (Order P)}
    {pairs : List (Pairing P)} (h : Cross xs ys pairs xs' ys') :
    pairs.length + (xs'.length + ys'.length) ≤ xs.length + ys.length := by
  induction h with
  | done _ => simp
  | @pair _ _ xs ys _ _ _ q hq _ ih =>
      have hdrop := length_leave_pair hq xs ys
      rw [List.length_cons]
      omega

/-- The last pairing finds two orders. -/
theorem length_pairs_lt {xs ys xs' ys' : List (Order P)}
    {pairs : List (Pairing P)} (h : Cross xs ys pairs xs' ys') :
    pairs = [] ∨ pairs.length < xs.length + ys.length := by
  induction h with
  | done _ => exact Or.inl rfl
  | @pair _ _ xs ys _ _ _ q hq _ ih =>
      refine Or.inr ?_
      have hdrop := length_leave_pair hq xs ys
      rcases ih with rfl | hlt
      · simp only [List.length_cons, List.length_nil]
        omega
      · rw [List.length_cons]
        omega

/-- **FEWER TRADES THAN ORDERS**, or none. -/
theorem length_trades_lt [LT P] {bids asks bids' asks' : List (Order P)}
    {log : List (Round P)} (h : Rounds bids asks log bids' asks') :
    trades log = [] ∨ (trades log).length < bids.length + asks.length := by
  induction h with
  | stop _ => exact Or.inl rfl
  | @round _ _ B bs A as B' A' _ _ pairs log _ _ _ _ _ _ _ hc _ ih =>
      have hle := length_pairs_le hc
      have hbids := length_kill_le (B' ++ bs)
      have hasks := length_kill_le (A' ++ as)
      rw [trades_cons]
      simp only [List.length_append, List.length_map] at hbids hasks ⊢
      rcases ih with hnone | hlt
      · -- nothing was traded after this round
        rw [hnone]
        rcases length_pairs_lt hc with rfl | hlt
        · exact Or.inl rfl
        · refine Or.inr ?_
          rw [List.length_nil]
          omega
      · exact Or.inr (by omega)

/-! ## The outer loop -/

section Outer

variable [LT P] [DecidableLT P] [BEq P]

/-- One look at the outer loop, on the book and the trades so far. -/
def matchStep (s : Orderbook P × List (Trade P)) :
    Except Fault (Option (Orderbook P × List (Trade P))) :=
  match s.1.bids.begin?, s.1.asks.begin? with
  | some (bestBidPrice, _), some (bestAskPrice, _) =>
      if bestBidPrice < bestAskPrice then .ok none
      else (s.1.matchRound bestBidPrice bestAskPrice s.2).map some
  | _, _ => .ok none

/-- The price levels of both sides. -/
def levelCount (b : Orderbook P) : Nat :=
  b.bids.entries.length + b.asks.entries.length

/-- What one pass of the outer loop does to the state it begins in: its inner
    loop terminates, each of its passes dropping a front, and one of the two
    best levels is erased. -/
structure ErasesLevel (s s' : Orderbook P × List (Trade P)) : Prop where
  inner : ∃ pb B pa A passes m,
    s.1.bids.begin? = some (pb, B) ∧ s.1.asks.begin? = some (pa, A) ∧
    Passes matchPass ⟨s.1, B, A, s.2⟩ passes m ∧
    passes.length ≤ B.length + A.length ∧
    (∀ fuel, passes.length ≤ fuel →
      Orderbook.matchLevels fuel ⟨s.1, B, A, s.2⟩ = .ok m) ∧
    (∀ r ∈ passes, ∃ r', matchPass r = .ok (some r') ∧ DropsFront r r') ∧
    (s'.1.bids.find? pb = none ∨ s'.1.asks.find? pa = none)
  fewer : levelCount s'.1 < levelCount s.1

/-- A pass is made on crossing best prices. -/
theorem matchStep_crossing {s s' : Orderbook P × List (Trade P)}
    (h : matchStep s = .ok (some s')) :
    ∃ pb B pa A, s.1.bids.begin? = some (pb, B) ∧
      s.1.asks.begin? = some (pa, A) ∧ ¬ pb < pa ∧
      s.1.matchRound pb pa s.2 = .ok s' := by
  rw [matchStep] at h
  cases hb : s.1.bids.begin? with
  | none => simp only [hb] at h; cases h
  | some eb =>
      cases ha : s.1.asks.begin? with
      | none => simp only [hb, ha] at h; cases h
      | some ea =>
          simp only [hb, ha] at h
          by_cases hlt : eb.1 < ea.1
          · rw [if_pos hlt] at h
            cases h
          · rw [if_neg hlt] at h
            obtain ⟨r, hround, hr⟩ := Execution.map_ok h
            cases hr
            exact ⟨eb.1, eb.2, ea.1, ea.2, rfl, rfl, hlt, hround⟩

/-- The budget of `matchLoop` only has to cover the passes. -/
theorem matchLoop_of_passes {s s' : Orderbook P × List (Trade P)}
    {rounds : List (Orderbook P × List (Trade P))}
    (h : Passes matchStep s rounds s') {fuel : Nat}
    (hfuel : rounds.length ≤ fuel) :
    Orderbook.matchLoop fuel s.1 s.2 = .ok s' := by
  refine h.within (fun fuel s => Orderbook.matchLoop fuel s.1 s.2) ?_ ?_ hfuel
  · rintro fuel ⟨b, ts⟩ hleft
    rw [matchStep] at hleft
    show Orderbook.matchLoop fuel b ts = _
    rw [Orderbook.matchLoop]
    cases hb : b.bids.begin? with
    | none => rfl
    | some eb =>
        cases ha : b.asks.begin? with
        | none => rfl
        | some ea =>
            simp only [hb, ha] at hleft
            by_cases hlt : eb.1 < ea.1
            · exact if_pos hlt
            · rw [if_neg hlt] at hleft
              obtain ⟨r, -, hr⟩ := Execution.map_ok hleft
              cases hr
  · rintro fuel s s' hpass
    obtain ⟨pb, B, pa, A, hb, ha, hlt, hround⟩ := matchStep_crossing hpass
    show Orderbook.matchLoop (fuel + 1) s.1 s.2 = _
    rw [Orderbook.matchLoop]
    simp only [hb, ha, if_neg hlt, hround, bind, Except.bind]

end Outer

/-- A price no resting order has is no level. -/
theorem find?_eq_none_of_resting {lt : P → P → Prop} [DecidableRel lt]
    [IsStrictTotalOrder P lt] {levels : Levels P lt}
    {heap : OrderPointer → Order P} {side : Side}
    (h : Housed heap side levels) {k : P}
    (hno : ∀ x ∈ (pointersOf levels).map heap, x.price ≠ k) :
    levels.find? k = none := by
  cases hfind : levels.find? k with
  | none => rfl
  | some level =>
      have hmem := levels.find?_eq_some_iff.mp hfind
      obtain ⟨p, hp⟩ := List.exists_mem_of_ne_nil _ (h.nonempty _ hmem)
      exact absurd (h.placed _ hmem p hp).2
        (hno _ (List.mem_map_of_mem (mem_pointersOf.mpr ⟨_, hmem, hp⟩)))

theorem entries_of_begin? {lt : P → P → Prop} {levels : Levels P lt}
    {e : P × List OrderPointer} (h : levels.begin? = some e) :
    ∃ rest, levels.entries = e :: rest :=
  List.head?_eq_some_iff.mp h

section Linear

variable [LinearOrder P] {b : Orderbook P}

/-- The two best levels share no order. -/
theorem Linked.apart (h : Linked b) {pb pa : P} {B A : List OrderPointer}
    (hb : b.bids.begin? = some (pb, B)) (ha : b.asks.begin? = some (pa, A))
    (ts : List (Trade P)) : Apart ⟨b, B, A, ts⟩ := by
  obtain ⟨rb, hb⟩ := entries_of_begin? hb
  obtain ⟨ra, ha⟩ := entries_of_begin? ha
  intro r hr hr'
  refine (List.nodup_append.mp h.nodup).2.2 r ?_ r ?_ rfl
  · rw [pointersOf_best hb]
    exact List.mem_append_left _ hr
  · rw [pointersOf_best ha]
    exact List.mem_append_left _ hr'

/-- **A PASS OF THE OUTER LOOP ERASES A LEVEL.** -/
theorem matchStep_erases {s s' : Orderbook P × List (Trade P)}
    (h : Linked s.1) (hpass : matchStep s = .ok (some s')) :
    Linked s'.1 ∧ ErasesLevel s s' := by
  obtain ⟨pb, B, pa, A, hb, ha, hlt, hround⟩ := matchStep_crossing hpass
  obtain ⟨rb, hentB⟩ := entries_of_begin? hb
  obtain ⟨ra, hentA⟩ := entries_of_begin? ha
  obtain ⟨b', pairs, B', A', hrun, hlinked, -, hcross, hbids, hasks, -, hlen⟩ :=
    matchRound_refines h hentB hentA s.2
  rw [hround] at hrun
  cases hrun
  obtain ⟨passes, m, hinner, hbound, hdrops⟩ :=
    matchPass_terminates (Linked.apart h hb ha s.2)
  refine ⟨hlinked, ⟨pb, B, pa, A, passes, m, hb, ha, hinner, hbound,
    fun fuel => matchLevels_of_passes hinner, hdrops, ?_⟩, hlen⟩
  -- the side whose list was exhausted has only worse prices left
  rcases hcross.exhausts with rfl | rfl
  · refine Or.inl (find?_eq_none_of_resting hlinked.bids (fun x hx => ?_))
    have hx : x ∈ kill ((rb.flatMap Prod.snd).map s.1.heap) := hbids ▸ hx
    exact ne_of_lt ((h.bids.behind_best hentB).2 x ((kill_sub _).subset hx))
  · refine Or.inr (find?_eq_none_of_resting hlinked.asks (fun x hx => ?_))
    have hx : x ∈ kill ((ra.flatMap Prod.snd).map s.1.heap) := hasks ▸ hx
    exact ne_of_gt ((h.asks.behind_best hentA).2 x ((kill_sub _).subset hx))

theorem matchStep_returns {s : Orderbook P × List (Trade P)}
    (h : Linked s.1) :
    matchStep s = .ok none ∨ ∃ s', matchStep s = .ok (some s') := by
  rw [matchStep]
  cases hb : s.1.bids.begin? with
  | none => exact Or.inl rfl
  | some eb =>
      cases ha : s.1.asks.begin? with
      | none => exact Or.inl rfl
      | some ea =>
          obtain ⟨rb, hentB⟩ := entries_of_begin? hb
          obtain ⟨ra, hentA⟩ := entries_of_begin? ha
          by_cases hlt : eb.1 < ea.1
          · exact Or.inl (if_pos hlt)
          · obtain ⟨b', pairs, -, -, hrun, -⟩ :=
              matchRound_refines h hentB hentA s.2
            exact Or.inr ⟨_, (if_neg hlt).trans (congrArg (Except.map some) hrun)⟩

/-- The index holds one entry for each resting order. -/
theorem Linked.size_eq (h : Linked b) : b.size = (pointers b).length := by
  have hperm : (b.orders.entries.map Prod.fst).Perm
      ((pointers b).map (fun p => (b.heap p).orderId)) := by
    refine (List.perm_ext_iff_of_nodup b.orders.nodup_keys h.ids).mpr ?_
    intro id
    constructor
    · intro hmem
      obtain ⟨⟨k, e⟩, he, rfl⟩ := List.mem_map.mp hmem
      obtain ⟨p, hp, hid, -⟩ :=
        (h.index k e).mp ((b.orders.find?_eq_some_iff k e).mpr he)
      exact List.mem_map.mpr ⟨p, hp, hid⟩
    · intro hmem
      obtain ⟨p, hp, hid⟩ := List.mem_map.mp hmem
      exact List.mem_map.mpr ⟨(id, ⟨p, p⟩), (b.orders.find?_eq_some_iff _ _).mp
        ((h.index id ⟨p, p⟩).mpr ⟨p, hp, hid, rfl⟩), rfl⟩
  have hlen := hperm.length_eq
  rwa [List.length_map, List.length_map] at hlen

/-- The trades of a matching are fewer than the orders it finds. -/
theorem matchOrders_trades (h : Linked b) {b' : Orderbook P}
    {ts : List (Trade P)} (hrun : b.matchOrders = .ok (b', ts)) :
    ts.length < b.size ∨ (b.size = 0 ∧ ts = []) := by
  obtain ⟨b'', log, hrun', -, -, hrounds, -⟩ := matchOrders_refines h
  rw [hrun] at hrun'
  cases hrun'
  have hsize : b.size = (restingBids b).length + (restingAsks b).length := by
    rw [Linked.size_eq h, pointers, restingBids, restingAsks,
      List.length_append, List.length_map, List.length_map]
  rcases length_trades_lt hrounds with hnone | hlt
  · rw [hnone]
    rcases Nat.eq_zero_or_pos b.size with h0 | hpos
    · exact Or.inr ⟨h0, rfl⟩
    · exact Or.inl hpos
  · exact Or.inl (hsize ▸ hlt)

end Linear

/-! ## What `AddOrder` hands over -/

/-- The conversion keeps the order's side. -/
theorem convertMarket_side [LT P] [BEq P] {b b1 : Orderbook P} {ptr : OrderPointer}
    (h : b.convertMarket ptr = .ok (some b1)) :
    (b1.heap ptr).side = (b.heap ptr).side := by
  have hstored : ∀ price : P,
      ((b.heap ptr).toGoodTillCancel price).map (some ∘ b.store ptr)
        = .ok (some b1) → (b1.heap ptr).side = (b.heap ptr).side := by
    intro price hprice
    obtain ⟨o, ho, hb1⟩ := Execution.map_ok hprice
    cases hb1
    show (Function.update b.heap ptr o ptr).side = _
    rw [Function.update_self]
    rw [Order.toGoodTillCancel] at ho
    split at ho
    · cases ho
    · cases ho
      rfl
  rw [Orderbook.convertMarket] at h
  split at h
  · split at h
    · exact hstored _ h
    · exact hstored _ h
    · cases h
  · cases h
    rfl

/-- Only an order with a side of the enum rests. -/
theorem rest_sided [LT P] [DecidableLT P] [BEq P]
    [IsTrans P (fun a b => a > b)] [IsTrans P (fun a b => a < b)]
    {b b' : Orderbook P} {ptr : OrderPointer}
    (h : b.rest ptr = .ok b') : Sided (b.heap ptr).side := by
  rw [Orderbook.rest] at h
  cases hside : (b.heap ptr).side with
  | buy => exact Or.inl rfl
  | sell => exact Or.inr rfl
  | other value =>
      simp only [hside] at h
      cases h

section Handing

variable [LT P] [DecidableLT P] [LE P] [DecidableLE P] [BEq P]
  [IsTrans P (fun a b => a > b)] [IsTrans P (fun a b => a < b)]

/-- `AddOrder` up to its call of `MatchOrders`: the book it has reached, and
    whether it makes that call. -/
def handed (b : Orderbook P) (ptr : OrderPointer) :
    Except Fault (Orderbook P × Bool) := do
  if b.orders.contains (b.heap ptr).orderId then
    return (b, false)
  else if ← b.dropsFillAndKill (b.heap ptr) then
    return (b, false)
  else
    match ← b.convertMarket ptr with
    | none => return (b, false)
    | some b =>
        if ← b.dropsFillOrKill (b.heap ptr) then
          return (b, false)
        else
          let b ← b.rest ptr
          return (b.onOrderAdded (b.heap ptr), true)

/-- `AddOrder` is that and then, where it gets that far, `MatchOrders`. -/
theorem addOrder_handed (b : Orderbook P) (ptr : OrderPointer) :
    b.addOrder ptr = handed b ptr >>= fun r =>
      if r.2 then r.1.matchOrders else .ok (r.1, []) := by
  rw [Orderbook.addOrder, handed]
  by_cases hknown : b.orders.contains (b.heap ptr).orderId = true
  · rw [if_pos hknown, if_pos hknown]
    rfl
  · rw [if_neg hknown, if_neg hknown]
    rcases b.dropsFillAndKill (b.heap ptr) with e | drops
    · rfl
    · cases drops with
      | true => rfl
      | false =>
          rcases b.convertMarket ptr with e | converted
          · rfl
          · cases converted with
            | none => rfl
            | some b1 =>
                simp only [bind, Except.bind]
                rcases b1.dropsFillOrKill (b1.heap ptr) with e | drops
                · rfl
                · cases drops with
                  | true => rfl
                  | false =>
                      rcases b1.rest ptr with e | b2
                      · rfl
                      · rfl

/-- Where `AddOrder` gets as far as `MatchOrders`, its order is new, has been
    converted, and rests. -/
theorem handed_rests {b b2 : Orderbook P} {ptr : OrderPointer}
    (h : handed b ptr = .ok (b2, true)) :
    b.orders.find? (b.heap ptr).orderId = none ∧
      ∃ b1 b3, b.convertMarket ptr = .ok (some b1) ∧ b1.rest ptr = .ok b3 ∧
        b2 = b3.onOrderAdded (b3.heap ptr) := by
  rw [handed] at h
  by_cases hknown : b.orders.contains (b.heap ptr).orderId = true
  · rw [if_pos hknown] at h
    cases h
  · rw [if_neg hknown] at h
    refine ⟨Option.not_isSome_iff_eq_none.mp hknown, ?_⟩
    obtain ⟨drops, -, h⟩ := Execution.bind_ok h
    cases drops with
    | true => cases h
    | false =>
        obtain ⟨converted, hconverted, h⟩ := Execution.bind_ok h
        cases converted with
        | none => cases h
        | some b1 =>
            obtain ⟨drops, -, h⟩ := Execution.bind_ok h
            cases drops with
            | true => cases h
            | false =>
                obtain ⟨b3, hrest, h⟩ := Execution.bind_ok h
                cases h
                exact ⟨b1, b3, hconverted, hrest, rfl⟩

end Handing

/-- The book with the new order in it is linked. -/
theorem rested_linked [LinearOrder P] {b b1 b3 : Orderbook P} (h : Linked b)
    {o : Order P} (hle : o.remainingQuantity ≤ o.initialQuantity)
    (hfresh : b.orders.find? o.orderId = none)
    (hconvert : (b.makeShared o).convertMarket b.next = .ok (some b1))
    (hrest : b1.rest b.next = .ok b3) :
    Linked (b3.onOrderAdded (b3.heap b.next)) := by
  have hat : ∀ o', (b.makeShared o').heap b.next = o' :=
    fun o' => Function.update_self ..
  have hs : Sided o.side := by
    have hside := convertMarket_side hconvert
    rw [hat] at hside
    exact hside ▸ rest_sided hrest
  rw [convertMarket_eq h hs] at hconvert
  cases heff : effective (opposite b o.side) o with
  | none =>
      rw [heff] at hconvert
      cases hconvert
  | some o' =>
      rw [heff] at hconvert
      cases hconvert
      obtain ⟨hside, hid, hinit, hrem⟩ := effective_terms heff
      obtain ⟨b4, hrest', hopened⟩ := opened_of_fresh h (o := o')
        (hside ▸ hs) (hid ▸ hfresh) (by rw [hinit, hrem]; exact hle)
      rw [hrest] at hrest'
      cases hrest'
      exact hopened.linked

/-! ## Books of sound prices

    A book that has a linked mirror is matched in lockstep with it, so what a
    pass does to the one it does to the other. -/

section Reflected

variable [LT P] [LE P] [BEq P] [DecidableLT P] [LinearOrder Q] {m : Scale P Q}

/-- The state is that of a linked book, on another scale. -/
def Reflects (m : Scale P Q) (s : Orderbook P × List (Trade P)) : Prop :=
  ∃ t : Orderbook Q × List (Trade Q), Matches m s t ∧ Linked t.1

/-- One look at the outer loop, in both books. -/
theorem matchStep_lockstep {s : Orderbook P × List (Trade P)}
    {t : Orderbook Q × List (Trade Q)} (h : Matches m s t) :
    Lockstep (Option.Rel (Matches m)) (matchStep s) (matchStep t) := by
  rw [matchStep, matchStep, h.1.bids.begin?, h.1.asks.begin?]
  cases hbid : s.1.bids.begin? with
  | none => exact .none
  | some bid =>
      cases hask : s.1.asks.begin? with
      | none => exact .none
      | some ask =>
          have hb := (h.1.bids.sound_begin hbid).1
          have ha := (h.1.asks.sound_begin hask).1
          exact Lockstep.ite (m.lt_iff hb ha) (fun _ => .none)
            (fun _ => (h.1.matchRound hb ha h.2).map (fun _ _ hr => .some hr))

omit [DecidableLT P] in
theorem levelCount_mirror {b : Orderbook P} {k : Orderbook Q}
    (h : Mirrors m b k) : levelCount k = levelCount b := by
  rw [levelCount, levelCount, h.bids.entries, h.asks.entries,
    List.length_map, List.length_map]

/-- What a pass erases from the mirror it erases from the book. -/
theorem ErasesLevel.of_mirror {s s' : Orderbook P × List (Trade P)}
    {t t' : Orderbook Q × List (Trade Q)} (h : Matches m s t)
    (h' : Matches m s' t') (hk : Linked t.1)
    (hpass : matchStep s = .ok (some s')) (he : ErasesLevel t t') :
    ErasesLevel s s' := by
  obtain ⟨pb, B, pa, A, hb, ha, -, -⟩ := matchStep_crossing hpass
  have hb' := h.1.bids.begin?
  have ha' := h.1.asks.begin?
  rw [hb] at hb'
  rw [ha] at ha'
  have hapart : Apart ⟨s.1, B, A, s.2⟩ := Linked.apart hk hb' ha' t.2
  obtain ⟨passes, r, hinner, hbound, hdrops⟩ := matchPass_terminates hapart
  refine ⟨⟨pb, B, pa, A, passes, r, hb, ha, hinner, hbound,
    fun fuel => matchLevels_of_passes hinner, hdrops, ?_⟩, ?_⟩
  · obtain ⟨qb, B', qa, A', -, -, hqb, hqa, -, -, -, -, herased⟩ := he.inner
    rw [hb'] at hqb
    rw [ha'] at hqa
    cases hqb
    cases hqa
    rw [← h'.1.bids.find?_eq (agree_gt m) (h.1.bids.sound_begin hb).1,
      ← h'.1.asks.find?_eq (agree_lt m) (h.1.asks.sound_begin ha).1]
    exact herased
  · rw [← levelCount_mirror h.1, ← levelCount_mirror h'.1]
    exact he.fewer

/-- A look at the outer loop leaves it, or makes a pass that erases a level. -/
theorem Reflects.step {s : Orderbook P × List (Trade P)} (h : Reflects m s) :
    matchStep s = .ok none ∨ ∃ s', matchStep s = .ok (some s') ∧
      Reflects m s' ∧ ErasesLevel s s' := by
  obtain ⟨t, hmatch, hk⟩ := h
  have hstep := matchStep_lockstep hmatch
  rcases matchStep_returns hk with hleft | ⟨t', hpass⟩
  · obtain ⟨looked, hlooked, hrel⟩ := hstep.of_ok hleft
    cases hrel
    exact Or.inl hlooked
  · obtain ⟨looked, hlooked, hrel⟩ := hstep.of_ok hpass
    obtain ⟨hk', he⟩ := matchStep_erases hk hpass
    cases hrel with
    | some hmatch' =>
        exact Or.inr ⟨_, hlooked, ⟨t', hmatch', hk'⟩,
          he.of_mirror hmatch hmatch' hk hlooked⟩

/-- **THE OUTER LOOP TERMINATES**, after at most one pass for each level. -/
theorem matchStep_terminates {b : Orderbook P} (h : Reflects m (b, [])) :
    ∃ rounds b' ts, Passes matchStep (b, []) rounds (b', ts) ∧
      b.matchOrders = .ok (b', ts) ∧
      rounds.length ≤ levelCount b ∧
      ∀ s ∈ rounds, ∃ s', matchStep s = .ok (some s') ∧ ErasesLevel s s' := by
  obtain ⟨rounds, ⟨b', ts⟩, hrun, hlen⟩ :=
    exists_passes (fun s => levelCount s.1) (I := Reflects m) (fun s hs => by
      rcases hs.step with hleft | ⟨s', hpass, hs', he⟩
      · exact Or.inl hleft
      · exact Or.inr ⟨s', hpass, hs', he.fewer⟩) (s := (b, [])) h
  have hbound := Nat.le_of_add_right_le hlen
  have hkeeps : ∀ s s' : Orderbook P × List (Trade P), Reflects m s →
      matchStep s = .ok (some s') → Reflects m s' ∧ ErasesLevel s s' := by
    intro s s' hs hpass
    rcases hs.step with hleft | ⟨r, hr, hkept⟩
    · rw [hpass] at hleft
      cases hleft
    · rw [hpass] at hr
      cases hr
      exact hkept
  obtain ⟨-, herases⟩ := hrun.forall hkeeps h
  exact ⟨rounds, b', ts, hrun, matchLoop_of_passes hrun hbound, hbound,
    herases⟩

/-- The trades of a matching are fewer than the orders it finds. -/
theorem Reflects.trades {b : Orderbook P} (h : Reflects m (b, []))
    {b' : Orderbook P} {ts : List (Trade P)}
    (hrun : b.matchOrders = .ok (b', ts)) :
    ts.length < b.size ∨ (b.size = 0 ∧ ts = []) := by
  obtain ⟨⟨k, vs⟩, ⟨hmirror, -⟩, hk⟩ := h
  obtain ⟨⟨k', us⟩, hrun', -, htrades⟩ := hmirror.matchOrders.follows hrun
  have hlength : us.length = ts.length := by
    rw [show us = _ from htrades.trades, List.length_map]
  have hsize : k.size = b.size := by
    rw [Orderbook.size, Orderbook.size, hmirror.orders]
  rw [← hlength, ← hsize]
  refine (matchOrders_trades hk hrun').imp_right (fun hnone => ⟨hnone.1, ?_⟩)
  exact List.eq_nil_of_length_eq_zero (by rw [← hlength, hnone.2]; rfl)

variable [DecidableLE P] [IsTrans P (fun a b => a > b)]
  [IsTrans P (fun a b => a < b)]

/-- A run of calls with sound prices leaves a mirrored book. -/
theorem run_mirrored {b0 b : Orderbook P} {k0 : Orderbook Q}
    (h : Mirrors m b0 k0) (hk : Linked k0) {calls : List (Call P)}
    {history : List (List (Trade P))} (hsound : ∀ c ∈ calls, CallSound m c)
    (hrun : b0.run calls = .ok (b, history)) :
    ∃ k, Mirrors m b k ∧ Linked k := by
  refine Execution.execute_trace (I := fun calls b _ =>
    (∀ c ∈ calls, CallSound m c) → ∃ k, Mirrors m b k ∧ Linked k) ?_
    (fun _ => ⟨k0, h, hk⟩) hrun hsound
  intro calls b history c b' ts hI hcall hsound
  obtain ⟨hcalls, hc⟩ := List.forall_mem_append.mp hsound
  obtain ⟨k, hmirror, hk⟩ := hI hcalls
  obtain ⟨⟨k', us⟩, hcall', hmirror', -⟩ :=
    (OsxSoundRun.call_lockstep hmirror hk
      (hc c List.mem_cons_self)).follows hcall
  exact ⟨k', hmirror', OsxSoundRun.call_linked hk hcall'⟩

/-- The book handed to the matching is mirrored as the one before was. -/
theorem handed_reflects {b b2 : Orderbook P} {k : Orderbook Q}
    (h : Mirrors m b k) (hk : Linked k) {o : Order P}
    (hle : o.remainingQuantity ≤ o.initialQuantity)
    (hp : m.sound o.price ∨ o.orderType = .market)
    (hhanded : handed (b.makeShared o) b.next = .ok (b2, true)) :
    Reflects m (b2, []) := by
  have hat : (b.makeShared o).heap b.next = o := Function.update_self ..
  obtain ⟨hfresh, b1, b3, hconvert, hrest, rfl⟩ := handed_rests hhanded
  rw [hat] at hfresh
  have h0 := h.makeShared hk o
  obtain ⟨converted, hconvert', hrel⟩ :=
    (h0.convertMarket (hat.symm ▸ hp)).follows hconvert
  cases hrel with
  | @some _ k1 hpair =>
      obtain ⟨h1, hp1⟩ := hpair
      obtain ⟨k3, hrest', h3, hheap⟩ := (h1.rest hp1).follows hrest
      rw [← hheap] at hp1
      rw [← h.next] at hconvert' hrest'
      have hadded := h3.onOrderAdded hp1
      rw [← h.next] at hadded ⊢
      exact ⟨(_, []), ⟨hadded, .nil⟩, rested_linked hk hle
        ((congrArg (·.find? o.orderId) h.orders).trans hfresh) hconvert'
        hrest'⟩

end Reflected

/-! ## On the books of a shard -/

section Doubles

open OsxPrice OsxPriceLimit

/-- **MATCHING TERMINATES AND ITS WORK IS BOUNDED**: on the book that any run
    of calls without a NaN leaves, with any order without one that `AddOrder`
    takes into it, the outer loop ends, every one of its passes erases a level
    and every pass of its inner loops drops an order, and the trades are fewer
    than the orders. -/
theorem matching_terminates {calls : List (Call Double)}
    (hcalls : ∀ c ∈ calls, CallSound numbers c) {b b2 : Orderbook Double}
    {history : List (List (Trade Double))}
    (hrun : Orderbook.run .empty calls = .ok (b, history))
    (orderType : OsxOrderbook.OrderType) (orderId : OrderId) (side : Side)
    (price : Double) (quantity : Nat)
    (hprice : price.isNaN = false ∨ orderType = .market)
    (hhanded : handed
      (b.makeShared (.new orderType orderId side price quantity)) b.next
        = .ok (b2, true)) :
    ∃ rounds b' ts, Passes matchStep (b2, []) rounds (b', ts) ∧
      b2.matchOrders = .ok (b', ts) ∧
      rounds.length ≤ levelCount b2 ∧
      (∀ s ∈ rounds,
        ∃ s', matchStep s = .ok (some s') ∧ ErasesLevel s s') ∧
      (ts.length < b2.size ∨ (b2.size = 0 ∧ ts = [])) := by
  obtain ⟨k, hmirror, hk⟩ :=
    run_mirrored mirrors_empty wellFormed_empty.linked hcalls hrun
  have hreflects : Reflects numbers (b2, []) :=
    handed_reflects (o := .new orderType orderId side price quantity) hmirror
      hk (Nat.le_refl _) hprice hhanded
  obtain ⟨rounds, b', ts, hpasses, hmatched, hbound, herases⟩ :=
    matchStep_terminates hreflects
  exact ⟨rounds, b', ts, hpasses, hmatched, hbound, herases,
    hreflects.trades hmatched⟩

/-- Two asks, at 100 for nothing and at 101 for 4. -/
def emptyAsk : List (Call Double) :=
  [.addOrder .goodTillCancel 1 .sell ⟨0x4059000000000000⟩ 0,
    .addOrder .goodTillCancel 2 .sell ⟨0x4059400000000000⟩ 4]

def afterEmptyAsk : Orderbook Double :=
  ((Orderbook.empty.run emptyAsk).toOption.map Prod.fst).getD .empty

/-- A bid for five that crosses both. -/
theorem matching_terminates_emptyAsk :
    ∃ b2, handed (afterEmptyAsk.makeShared
        (.new .goodTillCancel 3 .buy ⟨0x4059400000000000⟩ 5))
        afterEmptyAsk.next = .ok (b2, true) ∧
      ∃ rounds b' ts, Passes matchStep (b2, []) rounds (b', ts) ∧
        b2.matchOrders = .ok (b', ts) ∧
        rounds.length ≤ levelCount b2 ∧
        (∀ s ∈ rounds,
          ∃ s', matchStep s = .ok (some s') ∧ ErasesLevel s s') ∧
        (ts.length < b2.size ∨ (b2.size = 0 ∧ ts = [])) := by
  have hcalls : ∀ c ∈ emptyAsk, CallSound numbers c :=
    List.forall_mem_cons.mpr ⟨Or.inl rfl,
      List.forall_mem_singleton.mpr (Or.inl rfl)⟩
  have hrun : Orderbook.empty.run emptyAsk = .ok (afterEmptyAsk, [[], []]) :=
    rfl
  have hhanded : (handed (afterEmptyAsk.makeShared
      (.new .goodTillCancel 3 .buy ⟨0x4059400000000000⟩ 5))
      afterEmptyAsk.next).toOption.map Prod.snd = some true := by
    decide +kernel
  cases h : handed (afterEmptyAsk.makeShared
      (.new .goodTillCancel 3 .buy ⟨0x4059400000000000⟩ 5))
      afterEmptyAsk.next with
  | error e =>
      rw [h] at hhanded
      cases hhanded
  | ok r =>
      obtain ⟨b2, handedOver⟩ := r
      rw [h] at hhanded
      cases hhanded
      exact ⟨b2, rfl, matching_terminates hcalls hrun .goodTillCancel 3 .buy
        ⟨0x4059400000000000⟩ 5 (Or.inl (by decide)) h⟩

end Doubles

end OsxTermination
