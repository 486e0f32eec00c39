import OsborneX.StrategyModel

/-! # Own fills — the self-traded quantity is what `my_fill` leaves out

    A print with both ids among the strategy's own is reported as a buy, and
    its ask leg is not reported.  So what is reported over any prints is the
    quantity bought, less the quantity sold, and the quantity the strategy
    traded with itself on top (`reported_eq`). -/

namespace OsxStrategy

open Execution OsxOrderbook OsxPrice OsxShard OsxOrderEntry

/-! ## The ids it obtained -/

/-- The id an order was returned under. -/
def Event.orderId? : Event → Option OrderId
  | .ordered message => some message.orderId
  | _ => none

/-- The ids that `buy` and `sell` returned. -/
def obtained (log : List Event) : List OrderId := log.filterMap Event.orderId?

/-- A call adds the id it returns, and no other. -/
theorem act_ownOrderIds (s : Strategy) (action : Action) (id : OrderId) :
    id ∈ (s.act action).1.ownOrderIds ↔
      id ∈ s.ownOrderIds ∨ id ∈ obtained [(s.act action).2] := by
  have horder : ∀ now symbol side price qty delivered,
      id ∈ (s.order now symbol side price qty delivered).1.ownOrderIds ↔
        id ∈ s.ownOrderIds ∨
          id ∈ obtained [(s.order now symbol side price qty delivered).2] := by
    intro now symbol side price qty delivered
    rw [Strategy.order]
    cases s.client with
    | none => simp [obtained, Event.orderId?]
    | some client =>
        dsimp only
        -- an id is kept only where the order was sent
        split
        · simp [obtained, Event.orderId?]
        · simp [obtained, Event.orderId?, or_comm]
  cases action with
  | buy now symbol price qty delivered => exact horder _ _ _ _ _ _
  | sell now symbol price qty delivered => exact horder _ _ _ _ _ _
  | bind client => simp [Strategy.act, obtained, Event.orderId?]
  | disconnect => simp [Strategy.act, obtained, Event.orderId?]
  | cancel now orderId delivered =>
      have hnone : (s.cancel now orderId delivered).orderId? = none := by
        rw [Strategy.cancel]
        cases s.client with
        | none => rfl
        | some client =>
            dsimp only
            split <;> rfl
      simp [Strategy.act, obtained, hnone]

theorem obtained_cons (event : Event) (log : List Event) :
    obtained (event :: log) = obtained [event] ++ obtained log :=
  List.filterMap_append (l := [event])

/-- After any calls the strategy holds the ids it obtained. -/
theorem runFrom_ownOrderIds (actions : List Action) :
    ∀ (s : Strategy) (id : OrderId),
      id ∈ (runFrom s actions).1.ownOrderIds ↔
        id ∈ s.ownOrderIds ∨ id ∈ obtained (runFrom s actions).2 := by
  induction actions with
  | nil => simp [runFrom, obtained]
  | cons action actions ih =>
      intro s id
      show id ∈ (runFrom (s.act action).1 actions).1.ownOrderIds ↔
        id ∈ s.ownOrderIds ∨ id ∈ obtained
          ((s.act action).2 :: (runFrom (s.act action).1 actions).2)
      rw [ih, act_ownOrderIds, obtained_cons _ (runFrom _ actions).2,
        List.mem_append, or_assoc]

/-! ## What is reported, and what was traded -/

/-- The signed quantity of a fill: plus for a buy, minus for a sell. -/
def signedQuantity : Option OwnFill → ℤ
  | some ⟨.buy, _, quantity⟩ => quantity
  | some ⟨.sell, _, quantity⟩ => -quantity
  | _ => 0

/-- The signed quantities `my_fill` reports over some prints. -/
def reported (s : Strategy) (prints : List TradeExecution) : ℤ :=
  (prints.map (fun trade => signedQuantity (s.myFill trade))).sum

/-- The quantity of the prints that meet a condition. -/
def quantityOf (cond : TradeExecution → Bool) (prints : List TradeExecution) :
    ℕ := ((prints.filter cond).map TradeExecution.quantity).sum

section Prints

variable (ids : List OrderId)

/-- The prints whose bid is one of the ids. -/
def bought (prints : List TradeExecution) : ℕ :=
  quantityOf (fun trade => trade.bidOrderId ∈ ids) prints

/-- The prints whose ask is one of the ids. -/
def sold (prints : List TradeExecution) : ℕ :=
  quantityOf (fun trade => trade.askOrderId ∈ ids) prints

/-- The prints with both. -/
def selfTraded (prints : List TradeExecution) : ℕ :=
  quantityOf (fun trade => trade.bidOrderId ∈ ids ∧ trade.askOrderId ∈ ids)
    prints

end Prints

theorem quantityOf_cons (cond : TradeExecution → Bool) (trade : TradeExecution)
    (prints : List TradeExecution) :
    quantityOf cond (trade :: prints)
      = (if cond trade then trade.quantity else 0) + quantityOf cond prints := by
  by_cases h : cond trade = true
  · simp [quantityOf, h]
  · simp [quantityOf, h]

theorem quantityOf_eq_zero {cond : TradeExecution → Bool}
    {prints : List TradeExecution} :
    quantityOf cond prints = 0 ↔
      ∀ trade ∈ prints, cond trade = true → trade.quantity = 0 := by
  rw [quantityOf, List.sum_eq_zero_iff]
  constructor
  · intro hall trade hmem hcond
    exact hall _ (List.mem_map_of_mem (List.mem_filter.mpr ⟨hmem, hcond⟩))
  · intro hall quantity hmem
    obtain ⟨trade, htrade, rfl⟩ := List.mem_map.mp hmem
    obtain ⟨hmem, hcond⟩ := List.mem_filter.mp htrade
    exact hall trade hmem hcond

/-- One print: the ask leg is looked at only where the bid is not its own. -/
theorem signedQuantity_myFill {s : Strategy} {ids : List OrderId}
    (hids : ∀ id, id ∈ s.ownOrderIds ↔ id ∈ ids) (trade : TradeExecution) :
    signedQuantity (s.myFill trade)
      = (if trade.bidOrderId ∈ ids then (trade.quantity : ℤ) else 0)
        - (if trade.askOrderId ∈ ids then (trade.quantity : ℤ) else 0)
        + (if trade.bidOrderId ∈ ids ∧ trade.askOrderId ∈ ids
            then (trade.quantity : ℤ) else 0) := by
  by_cases hbid : trade.bidOrderId ∈ ids
  · by_cases hask : trade.askOrderId ∈ ids
    · simp [Strategy.myFill, hids, hbid, hask, signedQuantity]
    · simp [Strategy.myFill, hids, hbid, hask, signedQuantity]
  · by_cases hask : trade.askOrderId ∈ ids
    · simp [Strategy.myFill, hids, hbid, hask, signedQuantity]
    · simp [Strategy.myFill, hids, hbid, hask, signedQuantity]

/-- What is reported is the position, and the self-traded quantity on top. -/
theorem reported_eq {s : Strategy} {ids : List OrderId}
    (hids : ∀ id, id ∈ s.ownOrderIds ↔ id ∈ ids)
    (prints : List TradeExecution) :
    reported s prints
      = bought ids prints - sold ids prints + selfTraded ids prints := by
  induction prints with
  | nil => rfl
  | cons trade prints ih =>
      have hhead := signedQuantity_myFill hids trade
      have hsum : reported s (trade :: prints)
          = signedQuantity (s.myFill trade) + reported s prints :=
        List.sum_cons
      rw [hsum, hhead, ih, bought, sold, selfTraded, bought, sold, selfTraded,
        quantityOf_cons, quantityOf_cons, quantityOf_cons]
      simp only [decide_eq_true_eq]
      push_cast
      ring

/-- **OWN FILLS RECONCILE WITH THE POSITION** if and only if the strategy
    traded no quantity with itself. -/
theorem reported_iff (actions : List Action) (prints : List TradeExecution) :
    reported (runFrom .new actions).1 prints
        = bought (obtained (runFrom .new actions).2) prints
          - sold (obtained (runFrom .new actions).2) prints ↔
      ∀ trade ∈ prints,
        trade.bidOrderId ∈ obtained (runFrom .new actions).2 →
        trade.askOrderId ∈ obtained (runFrom .new actions).2 →
        trade.quantity = 0 := by
  have hids : ∀ id, id ∈ (runFrom .new actions).1.ownOrderIds ↔
      id ∈ obtained (runFrom .new actions).2 := by
    intro id
    rw [runFrom_ownOrderIds]
    simp [Strategy.new]
  have hzero : selfTraded (obtained (runFrom .new actions).2) prints = 0 ↔
      ∀ trade ∈ prints,
        trade.bidOrderId ∈ obtained (runFrom .new actions).2 →
        trade.askOrderId ∈ obtained (runFrom .new actions).2 →
        trade.quantity = 0 := by
    rw [selfTraded, quantityOf_eq_zero]
    simp only [decide_eq_true_eq, and_imp]
  rw [reported_eq hids, ← hzero]
  omega

/-- A strategy that buys and then sells at the same price. -/
def roundTrip : List Action :=
  [.bind (.connect 65535), .buy 1 7 ⟨0x4059000000000000⟩ 10 true,
    .sell 2 7 ⟨0x4059000000000000⟩ 10 true]

/-- The book matches the two orders with each other: a buy of 10 is reported,
    and the position is flat. -/
theorem roundTrip_unreconciled : ∃ s log shard published,
    runFrom .new roundTrip = (s, log) ∧
    execute Shard.process .empty
      (log.filterMap (fun | .ordered message => some message | _ => none))
        = .ok (shard, published) ∧
    reported s (published.flatMap Published.trades) = 10 ∧
    bought (obtained log) (published.flatMap Published.trades) = 10 ∧
    sold (obtained log) (published.flatMap Published.trades) = 10 :=
  ⟨_, _, _, _, rfl, rfl, by decide +kernel, by decide +kernel,
    by decide +kernel⟩

end OsxStrategy
