import OsborneX.HashTableProofs

/-! # Average-cost accounting — positions, realized PnL and the equity curve

    `PositionTracker` keeps a quantity, an average cost and a realized PnL for
    each symbol it has seen a fill of.  Its numbers are Python floats; they are
    rationals here, so that every operation is exact. -/

namespace OsxPosition

/-- `trademetrics.fills.Side`. -/
inductive Side where
  | buy
  | sell
  deriving DecidableEq, Repr

structure Fill where
  timestamp : ℚ
  symbol : String
  side : Side
  price : ℚ
  quantity : ℚ
  deriving DecidableEq, Repr

structure PositionState where
  quantity : ℚ := 0
  averageCost : ℚ := 0
  realizedPnl : ℚ := 0
  deriving DecidableEq, Repr

/-- `signed_qty` -/
def Fill.signedQty (fill : Fill) : ℚ :=
  match fill.side with
  | .buy => fill.quantity
  | .sell => -fill.quantity

/-! ## One symbol -/

/-- `_open_or_add`; the second component is what is returned. -/
def openOrAdd (state : PositionState) (price signedQty : ℚ) :
    PositionState × ℚ :=
  let newQuantity := state.quantity + signedQty
  let averageCost :=
    if newQuantity ≠ 0 then
      (state.averageCost * state.quantity + price * signedQty) / newQuantity
    else state.averageCost
  ({ state with quantity := newQuantity, averageCost := averageCost }, 0)

/-- `_reduce_close_or_reverse` -/
def reduceCloseOrReverse (state : PositionState) (price signedQty : ℚ) :
    PositionState × ℚ :=
  let closingQty := min |signedQty| |state.quantity|
  let direction : ℚ := if state.quantity > 0 then 1 else -1
  let realized := closingQty * direction * (price - state.averageCost)
  let remaining := signedQty + state.quantity
  let averageCost :=
    if |signedQty| > |state.quantity| then price
    else if remaining = 0 then 0
    else state.averageCost
  ({ quantity := remaining
     averageCost := averageCost
     realizedPnl := state.realizedPnl + realized }, realized)

/-- What `apply` does to the state of the fill's symbol. -/
def applyTo (state : PositionState) (fill : Fill) : PositionState × ℚ :=
  let signedQty := fill.signedQty
  if state.quantity = 0 ∨
      decide (state.quantity > 0) = decide (signedQty > 0) then
    openOrAdd state fill.price signedQty
  else reduceCloseOrReverse state fill.price signedQty

/-! ## The tracker -/

structure PositionTracker where
  states : HashTable String PositionState

namespace PositionTracker

/-- `PositionTracker()` -/
def new : PositionTracker := ⟨.empty⟩

/-- `self._states.get(symbol, PositionState())` -/
def state (t : PositionTracker) (symbol : String) : PositionState :=
  (t.states.find? symbol).getD {}

/-- `apply` -/
def apply (t : PositionTracker) (fill : Fill) : PositionTracker × ℚ :=
  (⟨t.states.upsert fill.symbol (fun old => (applyTo (old.getD {}) fill).1)⟩,
    (applyTo (t.state fill.symbol) fill).2)

/-- One fill after the other, and what each of them booked. -/
def applyEach : PositionTracker → List Fill → PositionTracker × List ℚ
  | t, [] => (t, [])
  | t, fill :: fills =>
      let (t, pnl) := t.apply fill
      let (t, pnls) := applyEach t fills
      (t, pnl :: pnls)

def position (t : PositionTracker) (symbol : String) : ℚ :=
  (t.state symbol).quantity

def averageCost (t : PositionTracker) (symbol : String) : ℚ :=
  (t.state symbol).averageCost

/-- `realized_pnl(symbol)` -/
def realizedPnl (t : PositionTracker) (symbol : String) : ℚ :=
  (t.state symbol).realizedPnl

/-- `realized_pnl()` -/
def totalRealizedPnl (t : PositionTracker) : ℚ :=
  (t.states.entries.map (fun e => e.2.realizedPnl)).sum

/-- What one symbol adds to `unrealized_pnl`. -/
def unrealizedOf (markPrices : String → Option ℚ) (symbol : String)
    (state : PositionState) : ℚ :=
  if state.quantity = 0 then 0
  else match markPrices symbol with
    | none => 0
    | some mark => state.quantity * (mark - state.averageCost)

/-- `unrealized_pnl` -/
def unrealizedPnl (t : PositionTracker) (markPrices : String → Option ℚ) : ℚ :=
  (t.states.entries.map (fun e => unrealizedOf markPrices e.1 e.2)).sum

end PositionTracker

/-- `realized_pnls_from_fills` -/
def realizedPnlsFromFills (fills : List Fill) : List ℚ :=
  (PositionTracker.new.applyEach fills).2.filter (· ≠ 0)

/-! ## The equity curve -/

structure EquityPoint where
  timestamp : ℚ
  equity : ℚ
  deriving DecidableEq, Repr

/-- The loop of `build_equity_curve`. -/
def equityCurveFrom (markPricesAt : Option (ℚ → String → Option ℚ)) :
    PositionTracker → List Fill → List EquityPoint
  | _, [] => []
  | tracker, fill :: fills =>
      let tracker := (tracker.apply fill).1
      let equity := match markPricesAt with
        | none => tracker.totalRealizedPnl
        | some markPrices => tracker.totalRealizedPnl +
            tracker.unrealizedPnl (markPrices fill.timestamp)
      ⟨fill.timestamp, equity⟩ :: equityCurveFrom markPricesAt tracker fills

/-- `build_equity_curve` -/
def buildEquityCurve (fills : List Fill)
    (markPricesAt : Option (ℚ → String → Option ℚ)) : List EquityPoint :=
  equityCurveFrom markPricesAt .new fills

end OsxPosition
