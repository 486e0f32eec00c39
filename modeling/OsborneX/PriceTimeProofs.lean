import OsborneX.ArrivalProofs

/-! # Price-time priority — `AddOrder` refines a sequential matcher

    The reference matcher knows nothing of levels, fronts or rounds: it walks
    the opposite side order by order, fills what it can, and rests the
    remainder behind its own price.  A `Standing` is the book it works on, the
    two sides as lists of orders in priority.

    `Shows` says that a book's maps, index and objects are a given standing,
    and `AddOrder` is proved to take a book that shows one standing to a book
    that shows the reference's next one, returning the reference's trades.  That
    a standing is in priority is said with the history (`Queued`): best price
    first, and within a price in the order in which the calls added the
    orders. -/

namespace OsxPriceTime

open OsxOrderbook OsxCrossing OsxLink OsxMatching OsxCalls OsxRepresentation
open OsxSweep OsxReachable OsxArrival

variable {P : Type}

/-! ## The reference matcher -/

/-- What a walk leaves: its executions (the incoming order in the bid's place),
    the rest of the incoming order, and the rest of the opposite side. -/
structure Walked (P : Type) where
  fills : List (Pairing P)
  incoming : Order P
  resting : List (Order P)

/-- **THE WALK**: fill against one resting order after the other, until the
    incoming order is filled or the next price is not acceptable. -/
def walk (acceptable : P → Prop) [DecidablePred acceptable] :
    Order P → List (Order P) → Walked P
  | o, [] => ⟨[], o, []⟩
  | o, r :: rs =>
      if o.isFilled ∨ ¬ acceptable r.price then ⟨[], o, r :: rs⟩
      else
        let q := min o.remainingQuantity r.remainingQuantity
        let w := walk acceptable (o.fill q) rs
        ⟨⟨o, r, q⟩ :: w.fills, w.incoming, leave (r.fill q) w.resting⟩

/-- The trade of an execution, for an incoming order on `side`. -/
def tradeFor : Side → Pairing P → Trade P
  | .sell, p => p.swap.trade
  | _, p => p.trade

/-- The two sides of a book, each in priority order. -/
structure Standing (P : Type) where
  bids : List (Order P)
  asks : List (Order P)

section Walk

variable {acceptable : P → Prop} [DecidablePred acceptable]

/-- A filled order walks nowhere. -/
theorem walk_filled {o : Order P} (h : o.isFilled = true)
    (rs : List (Order P)) : walk acceptable o rs = ⟨[], o, rs⟩ := by
  cases rs with
  | nil => rfl
  | cons r rs =>
      show (if _ then _ else _) = _
      rw [if_pos (Or.inl h)]

/-- The walk stops before an unacceptable price. -/
theorem walk_stop {o : Order P} {rs : List (Order P)}
    (h : ∀ r ∈ rs, ¬ acceptable r.price) :
    walk acceptable o rs = ⟨[], o, rs⟩ := by
  cases rs with
  | nil => rfl
  | cons r rs =>
      show (if _ then _ else _) = _
      rw [if_pos (Or.inr (h r List.mem_cons_self))]

/-- **THE INNER LOOP IS A WALK** over a level at an acceptable price: it fills
    the order there, or exhausts the level and the walk goes on behind it. -/
theorem walk_cross {o : Order P} {A B' A' : List (Order P)}
    {pairs : List (Pairing P)} (h : Cross [o] A pairs B' A')
    (hA : ∀ y ∈ A, acceptable y.price) (ho : 0 < o.remainingQuantity)
    (as : List (Order P)) :
    (B' = [] → ∃ o', o'.isFilled = true ∧
      walk acceptable o (A ++ as) = ⟨pairs, o', A' ++ as⟩) ∧
    ∀ r, B' = [r] → A' = [] ∧ 0 < r.remainingQuantity ∧
      walk acceptable o (A ++ as)
        = ⟨pairs ++ (walk acceptable r as).fills,
            (walk acceptable r as).incoming,
            (walk acceptable r as).resting⟩ := by
  -- the induction is on the passes of the inner loop
  generalize hX : [o] = X at h
  induction h generalizing o with
  | @done bids asks h =>
      subst hX
      rcases h with h | h
      · cases h
      · subst h
        refine ⟨fun h => (by cases h), fun r hr => ?_⟩
        cases hr
        exact ⟨rfl, ho, rfl⟩
  | @pair x y xs ys bids asks pairs q hq h ih =>
      cases hX
      have hacc : acceptable y.price := hA y List.mem_cons_self
      have hopen : ¬ (x.isFilled = true ∨ ¬ acceptable y.price) := by
        rintro (hf | hno)
        · rw [isFilled_iff] at hf
          omega
        · exact hno hacc
      have hwalk : walk acceptable x (y :: ys ++ as)
          = ⟨⟨x, y, q⟩ :: (walk acceptable (x.fill q) (ys ++ as)).fills,
              (walk acceptable (x.fill q) (ys ++ as)).incoming,
              leave (y.fill q)
                (walk acceptable (x.fill q) (ys ++ as)).resting⟩ := by
        show (if _ then _ else _) = _
        rw [if_neg hopen, hq]
        rfl
      by_cases hf : (x.fill q).isFilled = true
      · -- the order is filled at this pass
        rw [leave, if_pos hf] at h
        cases h with
        | done _ =>
            refine ⟨fun _ => ⟨x.fill q, hf, ?_⟩, fun r hr => by cases hr⟩
            rw [hwalk, walk_filled hf]
            by_cases hy : (y.fill q).isFilled = true
            · simp [leave, hy]
            · simp [leave, hy]
      · -- it is not, so the resting order is, and leaves
        have hxq : q ≤ x.remainingQuantity := by
          rw [hq]; exact Nat.min_le_left _ _
        have hyq : q ≤ y.remainingQuantity := by
          rw [hq]; exact Nat.min_le_right _ _
        have hy : (y.fill q).isFilled = true := by
          rw [isFilled_fill hxq] at hf
          rw [isFilled_fill hyq]
          omega
        have hpos : 0 < (x.fill q).remainingQuantity := by
          rw [isFilled_iff] at hf
          omega
        have hleave : leave (x.fill q) [] = [x.fill q] := by
          rw [leave, if_neg hf]
        have hys : leave (y.fill q) ys = ys := by rw [leave, if_pos hy]
        rw [hys] at ih h
        obtain ⟨hfilled, hgoes⟩ := ih
          (fun z hz => hA z (List.mem_cons_of_mem _ hz)) hpos hleave.symm
        have hdrop : ∀ rest, leave (y.fill q) rest = rest := by
          intro rest
          rw [leave, if_pos hy]
        constructor
        · intro hB
          obtain ⟨o', ho', hw⟩ := hfilled hB
          refine ⟨o', ho', ?_⟩
          rw [hwalk, hw, hdrop]
        · intro r hB
          obtain ⟨h1, h2, hw⟩ := hgoes r hB
          refine ⟨h1, h2, ?_⟩
          rw [hwalk, hw, hdrop]
          rfl

/-- **THE SWEEP IS A WALK**, for any notion of acceptable price that agrees
    with the limit on the orders that are there. -/
theorem walk_sweep {lt : P → P → Prop} [DecidableRel lt] {o : Order P}
    {log : List (Round P)} {own own' opp opp' : List (Order P)}
    (h : Sweep lt own o opp log own' opp') :
    o.orderType ≠ .fillAndKill → 0 < o.remainingQuantity →
    (∀ y ∈ opp, acceptable y.price ↔ ¬ lt y.price o.price) →
    log.flatMap Round.pairs = (walk acceptable o opp).fills ∧
      opp' = (walk acceptable o opp).resting ∧
      own' = if (walk acceptable o opp).incoming.isFilled then own
        else restBehind lt (walk acceptable o opp).incoming own := by
  induction h with
  -- the walk stops at once: nothing there is acceptable
  | @rest o opp h =>
      intro _ hpos hacc
      have hno : o.isFilled ≠ true := by
        intro hf
        rw [isFilled_iff] at hf
        omega
      rw [walk_stop (fun y hy hy' => (hacc y hy).mp hy' (h y hy)), if_neg hno]
      exact ⟨rfl, rfl, rfl⟩
  | @filled o A A' as pa pairs hA has hA0 hcross hc =>
      intro _ hpos hacc
      have hAacc : ∀ y ∈ A, acceptable y.price := by
        intro y hy
        rw [hacc y (List.mem_append.mpr (Or.inl hy)), hA y hy]
        exact hcross
      obtain ⟨o', ho', hw⟩ := (walk_cross hc hAacc hpos as).1 rfl
      rw [hw, if_pos ho']
      exact ⟨List.append_nil _, rfl, rfl⟩
  | killed _ _ _ _ _ hk => exact fun hno => absurd hk hno
  | @next o r A as own' opp' pa pairs log hA has hA0 hcross hc _ _ ih =>
      intro hno hpos hacc
      have hAacc : ∀ y ∈ A, acceptable y.price := by
        intro y hy
        rw [hacc y (List.mem_append.mpr (Or.inl hy)), hA y hy]
        exact hcross
      -- the level is gone, and the rest of the order walks on
      obtain ⟨-, hr, hw⟩ := (walk_cross hc hAacc hpos as).2 r rfl
      have hterms : SameTerms o r := hc.remainder
      obtain ⟨h1, h2, h3⟩ := ih (by rw [hterms.fields.1]; exact hno) hr
        (fun y hy => by
          rw [hterms.fields.2.2.2.1]
          exact hacc y (List.mem_append.mpr (Or.inr hy)))
      rw [hw]
      refine ⟨?_, h2, h3⟩
      rw [List.flatMap_cons, h1]

end Walk

/-- The trades of a log are those of its executions. -/
theorem trades_oriented {side : Side} (hs : Sided side)
    (log : List (Round P)) :
    trades log
      = ((oriented side log).flatMap Round.pairs).map (tradeFor side) := by
  rcases hs with rfl | rfl
  · rw [List.map_flatMap]
    rfl
  · rw [List.map_flatMap, oriented, List.flatMap_map]
    refine List.flatMap_congr (fun r _ => ?_)
    rw [Round.swap, List.map_map]
    rfl

section Reference

variable [LinearOrder P]

namespace Standing

def opposite (s : Standing P) : Side → List (Order P)
  | .buy => s.asks
  | .sell => s.bids
  | .other _ => []

/-- Walk the opposite side; rest the remainder at the back of its level. -/
def execute (s : Standing P) (o : Order P) (acceptable : P → Prop)
    [DecidablePred acceptable] : Standing P × List (Trade P) :=
  let w := walk acceptable o (s.opposite o.side)
  let fills := w.fills.map (tradeFor o.side)
  match o.side with
  | .buy =>
      (⟨if w.incoming.isFilled then s.bids
          else restBehind (fun a b => a > b) w.incoming s.bids,
        w.resting⟩, fills)
  | .sell =>
      (⟨w.resting,
        if w.incoming.isFilled then s.asks
          else restBehind (fun a b => a < b) w.incoming s.asks⟩, fills)
  | .other _ => (s, [])

/-- **THE REFERENCE `AddOrder`** for limit and market orders: a limit order
    accepts the prices no worse than its limit, a market order accepts every
    price and rests at the worst one there was. -/
def add (s : Standing P) (o : Order P) : Standing P × List (Trade P) :=
  if o.orderType = .market then
    match (s.opposite o.side).getLast? with
    | none => (s, [])
    | some worst =>
        s.execute { o with price := worst.price, orderType := .goodTillCancel }
          (fun _ => True)
  else s.execute o (reaches o.side o.price)

end Standing

/-! ## What a book shows -/

/-- The orders at one price, if there are any. -/
def levelOf (l : List (Order P)) (price : P) : Option (List (Order P)) :=
  match l.filter (fun o => o.price = price) with
  | [] => none
  | o :: os => some (o :: os)

/-- The book's levels, index and objects are the standing's. -/
structure Shows (b : Orderbook P) (s : Standing P) : Prop where
  bids : ∀ price, (b.bids.find? price).map (List.map b.heap)
    = levelOf s.bids price
  asks : ∀ price, (b.asks.find? price).map (List.map b.heap)
    = levelOf s.asks price
  orders : ∀ id, (b.orders.find? id).map (fun e => b.heap e.order)
    = (s.bids ++ s.asks).find? (fun o => o.orderId == id)
  bestBids : s.bids.Pairwise (fun x y => y.price ≤ x.price)
  bestAsks : s.asks.Pairwise (fun x y => x.price ≤ y.price)

/-- The standing of a book. -/
def standing (b : Orderbook P) : Standing P := ⟨restingBids b, restingAsks b⟩

/-- A level is its side's orders at that price, oldest first. -/
theorem level_eq {lt : P → P → Prop} [DecidableRel lt]
    [IsStrictTotalOrder P lt] {heap : OrderPointer → Order P} {side : Side}
    {levels : Levels P lt} (h : Housed heap side levels) (price : P) :
    (levels.find? price).map (List.map heap)
      = levelOf ((pointersOf levels).map heap) price := by
  -- levels at other prices hold no order at this one
  have hoff : ∀ {part : List (P × List OrderPointer)},
      (∀ e ∈ part, e ∈ levels.entries) → (∀ e ∈ part, e.1 ≠ price) →
      ((part.flatMap Prod.snd).map heap).filter
        (fun o => o.price = price) = [] := by
    intro part hsub hne
    refine List.filter_eq_nil_iff.mpr (fun o ho => ?_)
    obtain ⟨p, hp, rfl⟩ := List.mem_map.mp ho
    obtain ⟨e, he, hpe⟩ := List.mem_flatMap.mp hp
    rw [(h.placed e (hsub e he) p hpe).2]
    simpa using hne e he
  cases hf : levels.find? price with
  | none =>
      have hne : ∀ e ∈ levels.entries, e.1 ≠ price := by
        rintro ⟨k, l⟩ he rfl
        rw [levels.find?_eq_some_iff.mpr he] at hf
        cases hf
      have hnil := hoff (fun e he => he) hne
      rw [levelOf, pointersOf, hnil]
      rfl
  | some l =>
      have he : (price, l) ∈ levels.entries := levels.find?_eq_some_iff.mp hf
      obtain ⟨before, after, heq, hb, ha⟩ := levels.split_mem he
      have hbefore := hoff (fun e he => by rw [heq]; simp [he])
        (fun e he => ne_of_irrefl (hb e he))
      have hafter := hoff (fun e he => by rw [heq]; simp [he])
        (fun e he => (ne_of_irrefl (ha e he)).symm)
      have hlevel : (l.map heap).filter (fun o => o.price = price)
          = l.map heap := by
        refine List.filter_eq_self.mpr (fun o ho => ?_)
        obtain ⟨p, hp, rfl⟩ := List.mem_map.mp ho
        simpa using (h.placed (price, l) he p hp).2
      rw [levelOf, pointersOf_middle heq, List.map_append, List.map_append,
        List.filter_append, List.filter_append, hbefore, hafter, hlevel,
        List.nil_append, List.append_nil]
      have hne : l ≠ [] := h.nonempty (price, l) he
      cases l with
      | nil => exact absurd rfl hne
      | cons p l => rfl

/-- **EVERY LINKED BOOK SHOWS ITS STANDING.** -/
theorem Linked.shows {b : Orderbook P} (h : Linked b) :
    Shows b (standing b) where
  bids := level_eq h.bids
  asks := level_eq h.asks
  orders := by
    intro id
    rw [standing, restingBids, restingAsks, ← List.map_append]
    show _ = ((pointers b).map b.heap).find? _
    cases hf : b.orders.find? id with
    | none =>
        have hno := h.find?_eq_none.mp hf
        refine (List.find?_eq_none.mpr (fun o ho => ?_)).symm
        obtain ⟨p, hp, rfl⟩ := List.mem_map.mp ho
        simpa using hno p hp
    | some e =>
        obtain ⟨p, hp, hid, rfl⟩ := (h.index id e).mp hf
        show some (b.heap p) = _
        cases hfind : ((pointers b).map b.heap).find?
            (fun o => o.orderId == id) with
        | none =>
            have hno := List.find?_eq_none.mp hfind (b.heap p)
              (List.mem_map_of_mem hp)
            exact absurd (beq_iff_eq.mpr hid) hno
        | some o =>
            obtain ⟨r, hr, rfl⟩ :=
              List.mem_map.mp (List.mem_of_find?_eq_some hfind)
            have hrid : (b.heap r).orderId = id := by
              simpa using List.find?_some hfind
            rw [h.pointer_unique hp hr (hid.trans hrid.symm)]
  bestBids := h.bids.sorted.imp (fun hn => not_lt.mp hn)
  bestAsks := h.asks.sorted.imp (fun hn => not_lt.mp hn)

/-! ## `AddOrder` refines the reference -/

variable {b : Orderbook P}

/-- The last order of a side has the worst price of the side. -/
theorem worst_reached (h : Linked b) {side : Side} (hs : Sided side)
    {worst : Order P} (hw : (opposite b side).getLast? = some worst) :
    ∀ y ∈ opposite b side, reaches side worst.price y.price := by
  obtain ⟨init, hinit⟩ := List.getLast?_eq_some_iff.mp hw
  have hlast : ∀ {R : Order P → Order P → Prop},
      (opposite b side).Pairwise R → ∀ y ∈ opposite b side,
        y = worst ∨ R y worst := by
    intro R hR y hy
    rw [hinit] at hR hy
    rcases List.mem_append.mp hy with h1 | h1
    · exact Or.inr ((List.pairwise_append.mp hR).2.2 y h1 worst (by simp))
    · exact Or.inl (List.mem_singleton.mp h1)
  intro y hy
  rcases hs with rfl | rfl
  · rcases hlast (Linked.shows h).bestAsks y hy with rfl | hle
    · exact le_refl _
    · exact hle
  · rcases hlast (Linked.shows h).bestBids y hy with rfl | hle
    · exact le_refl _
    · exact hle

/-- The standing's opposite side is the book's. -/
theorem standing_opposite (b : Orderbook P) (side : Side) :
    (standing b).opposite side = opposite b side := by
  cases side <;> rfl

/-- An executed order leaves the standing the reference leaves. -/
theorem Executed.refines (hst : Steady b) {o : Order P} {b2 b' : Orderbook P}
    {log : List (Round P)} (he : Executed b o b2 b' log) (hs : Sided o.side)
    (hk : o.orderType ≠ .fillAndKill) (hq : 0 < o.remainingQuantity)
    (acceptable : P → Prop) [DecidablePred acceptable]
    (hacc : ∀ y ∈ opposite b o.side,
      acceptable y.price ↔ reaches o.side o.price y.price) :
    (standing b').bids = ((standing b).execute o acceptable).1.bids ∧
      (standing b').asks = ((standing b).execute o acceptable).1.asks ∧
      trades log = ((standing b).execute o acceptable).2 := by
  have hsweep := Executed.sweep hst.wellFormed hst.settled hs he
  obtain ⟨hfills, hopp, hown⟩ := walk_sweep hsweep hk hq
    (fun y hy => (hacc y hy).trans (reaches_iff hs))
  rw [trades_oriented hs, hfills]
  -- the walk is over the asks for a bid, over the bids for an ask
  rcases hs with hside | hside
  · rw [hside] at hopp hown
    have hexec : (standing b).execute o acceptable
        = (⟨if (walk acceptable o (restingAsks b)).incoming.isFilled
              then restingBids b
            else restBehind (fun a b => a > b)
              (walk acceptable o (restingAsks b)).incoming (restingBids b),
            (walk acceptable o (restingAsks b)).resting⟩,
          (walk acceptable o (restingAsks b)).fills.map (tradeFor .buy)) := by
      rw [Standing.execute, standing_opposite, hside]
      rfl
    rw [hexec, hside]
    exact ⟨hown, hopp, rfl⟩
  · rw [hside] at hopp hown
    have hexec : (standing b).execute o acceptable
        = (⟨(walk acceptable o (restingBids b)).resting,
            if (walk acceptable o (restingBids b)).incoming.isFilled
              then restingAsks b
            else restBehind (fun a b => a < b)
              (walk acceptable o (restingBids b)).incoming (restingAsks b)⟩,
          (walk acceptable o (restingBids b)).fills.map (tradeFor .sell)) := by
      rw [Standing.execute, standing_opposite, hside]
      rfl
    rw [hexec, hside]
    exact ⟨hopp, hown, rfl⟩

/-- **`AddOrder` REFINES THE REFERENCE** for limit and market orders. -/
theorem Adds.refines (hst : Steady b) {o : Order P} {b' : Orderbook P}
    {ts : List (Trade P)} (ha : Adds b o b' ts) (hs : Sided o.side)
    (htype : o.orderType = .goodTillCancel ∨ o.orderType = .market)
    (hfresh : b.orders.find? o.orderId = none)
    (hq : 0 < o.remainingQuantity) :
    standing b' = ((standing b).add o).1 ∧ ts = ((standing b).add o).2 := by
  have hfak : o.orderType ≠ .fillAndKill := by
    rcases htype with h | h <;> simp [h]
  have hfok : o.orderType ≠ .fillOrKill := by
    rcases htype with h | h <;> simp [h]
  have hadmits : ∀ o', effective (opposite b o.side) o = some o' →
      Admits b o o' := fun o' heff =>
    ⟨hfresh, heff, fun h => absurd h hfak, fun h => absurd h hfok⟩
  have hglue : ∀ {s s' : Standing P}, s.bids = s'.bids → s.asks = s'.asks →
      s = s' := by
    rintro ⟨_, _⟩ ⟨_, _⟩ rfl rfl
    rfl
  cases ha with
  -- only a market order that finds nobody is turned away
  | rejected hno =>
      have hnone : effective (opposite b o.side) o = none := by
        cases heff : effective (opposite b o.side) o with
        | none => rfl
        | some o' => exact absurd (hadmits o' heff) (hno o')
      have hm : o.orderType = .market := by
        by_contra hm
        rw [effective, if_neg hm] at hnone
        cases hnone
      have hlast : (opposite b o.side).getLast? = none := by
        rw [effective, if_pos hm] at hnone
        exact Option.map_eq_none_iff.mp hnone
      have hadd : (standing b).add o = (standing b, []) := by
        rw [Standing.add, if_pos hm, standing_opposite, hlast]
      obtain ⟨hbids, hasks⟩ := resting_makeShared hst.wellFormed.linked o
      rw [hadd]
      exact ⟨hglue hbids hasks, rfl⟩
  | @admitted o' b2 _ log ha he =>
      obtain ⟨hside, -, -, hrem⟩ := effective_terms ha.effective
      have hs' : Sided o'.side := by rw [hside]; exact hs
      have hk : o'.orderType ≠ .fillAndKill := fun hk =>
        hfak (effective_killable ha.effective hk).1
      have hq' : 0 < o'.remainingQuantity := by rw [hrem]; exact hq
      by_cases hm : o.orderType = .market
      · have heff := ha.effective
        rw [effective, if_pos hm] at heff
        -- its limit is the worst price, so every resting order is acceptable
        obtain ⟨worst, hw, rfl⟩ := Option.map_eq_some_iff.mp heff
        have hall := worst_reached hst.wellFormed.linked hs hw
        have hacc : ∀ y ∈ opposite b o.side, (fun _ : P => True) y.price ↔
            reaches o.side worst.price y.price :=
          fun y hy => ⟨fun _ => hall y hy, fun _ => trivial⟩
        obtain ⟨h1, h2, h3⟩ := Executed.refines hst he hs' hk hq'
          (fun _ => True) hacc
        rw [Standing.add, if_pos hm, standing_opposite, hw]
        exact ⟨hglue h1 h2, h3⟩
      · have heff := ha.effective
        rw [effective, if_neg hm] at heff
        cases heff
        obtain ⟨h1, h2, h3⟩ := Executed.refines hst he hs' hk hq'
          (reaches o.side o.price) (fun y _ => Iff.rfl)
        rw [Standing.add, if_neg hm]
        exact ⟨hglue h1 h2, h3⟩

/-- The standing is in the order of price-time priority, for a history. -/
def Standing.InPriority (s : Standing P) (arrived : List OrderId) : Prop :=
  Queued arrived s.bids s.asks

/-- **PRICE-TIME PRIORITY.**  After every run from the empty book the standing
    is sorted by price and, within a price, by the order in which the calls
    added the orders; and a limit or market order with a fresh id does what the
    sequential matcher does on it: it returns the same trades and leaves the
    same levels, index and orders, in the order of priority again. -/
theorem addOrder_priceTime [Inhabited P] {calls : List (Call P)}
    {history : List (List (Trade P))} (hok : ∀ c ∈ calls, Regular c)
    (hrun : Orderbook.run .empty calls = .ok (b, history))
    {orderType : OsxOrderbook.OrderType} (htype : orderType = .goodTillCancel ∨
      orderType = .market) {orderId : OrderId}
    (hfresh : b.orders.find? orderId = none) {side : Side} (hs : Sided side)
    (price : P) {quantity : Nat} (hq : 0 < quantity) :
    (standing b).InPriority (arrivals calls) ∧ Shows b (standing b) ∧
      ∃ b', b.call (.addOrder orderType orderId side price quantity)
          = .ok (b', ((standing b).add
              (.new orderType orderId side price quantity)).2) ∧
        Shows b' ((standing b).add
          (.new orderType orderId side price quantity)).1 ∧
        ((standing b).add
          (.new orderType orderId side price quantity)).1.InPriority
          (arrivals (calls
            ++ [.addOrder orderType orderId side price quantity])) := by
  have hsided : ∀ c ∈ calls, callSided c := fun c hc => (hok c hc).1
  obtain ⟨hl, hpriority⟩ := run_inOrder hsided hrun
  have hst := (Reached.regular ⟨calls, history, hok, hrun⟩).1
  obtain ⟨b', ts, hcall, ha⟩ := addOrder_spec hl
    (.new orderType orderId side price quantity) hs (Nat.le_refl _)
  obtain ⟨hstanding, hts⟩ := Adds.refines hst ha hs htype hfresh hq
  have hcall' : b.call (.addOrder orderType orderId side price quantity)
      = .ok (b', ts) := hcall
  -- the new order is the last that was added
  have hsided' : ∀ c ∈ calls
      ++ [.addOrder orderType orderId side price quantity], callSided c := by
    intro c hc
    rcases List.mem_append.mp hc with hc | hc
    · exact hsided c hc
    · rw [List.mem_singleton.mp hc]
      exact hs
  obtain ⟨-, hpriority'⟩ := run_inOrder hsided'
    (Execution.execute_snoc hrun hcall')
  refine ⟨hpriority, Linked.shows hl, b', ?_, ?_, ?_⟩
  · rw [← hts]
    exact hcall'
  · rw [← hstanding]
    exact Linked.shows (ha.linked hl)
  · rw [← hstanding]
    exact hpriority'

/-- Three resting asks, two of them at one price. -/
def twoLevels : List (Call Int) :=
  [.addOrder .goodTillCancel 1 .sell 101 5,
    .addOrder .goodTillCancel 2 .sell 100 3,
    .addOrder .goodTillCancel 3 .sell 101 4]

/-- A market order sweeps both levels and rests at the worse price. -/
theorem addOrder_priceTime_market :
    (standing (bookAfter twoLevels)).InPriority (arrivals twoLevels) ∧
      Shows (bookAfter twoLevels) (standing (bookAfter twoLevels)) ∧
      ∃ b', (bookAfter twoLevels).call (.addOrder .market 4 .buy 0 20)
          = .ok (b', ((standing (bookAfter twoLevels)).add
              (.new .market 4 .buy 0 20)).2) ∧
        Shows b' ((standing (bookAfter twoLevels)).add
          (.new .market 4 .buy 0 20)).1 ∧
        ((standing (bookAfter twoLevels)).add
          (.new .market 4 .buy 0 20)).1.InPriority
          (arrivals (twoLevels ++ [.addOrder .market 4 .buy 0 20])) := by
  obtain ⟨history, hrun⟩ : ∃ history, Orderbook.run .empty twoLevels
      = .ok (bookAfter twoLevels, history) := run_bookAfter (by decide)
  exact addOrder_priceTime (by decide) hrun (Or.inr rfl) (by decide)
    (Or.inl rfl) 0 (by decide)

end Reference

end OsxPriceTime
