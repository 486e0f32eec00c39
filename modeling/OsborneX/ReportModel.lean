import OsborneX.PositionModel

/-! # The performance report — trade statistics, drawdown and returns

    What `summarize` computes from a list of fills: statistics of the series of
    realized PnLs, and metrics of the equity curve.  As before the floats are
    rationals; `math.sqrt` of what is not negative is a parameter. -/

namespace OsxReport

open OsxPosition

/-- What a computation can raise. -/
inductive Raised where
  | zeroDivisionError
  /-- `math.sqrt` of a negative number -/
  | valueError
  deriving DecidableEq, Repr

/-! ## Trades -/

/-- `win_rate` -/
def winRate (realizedPnls : List ℚ) : ℚ :=
  if realizedPnls = [] then 0
  else
    let wins := realizedPnls.countP (· > 0)
    wins / realizedPnls.length

/-- `profit_factor`; `math.inf` is `⊤`. -/
def profitFactor (realizedPnls : List ℚ) : WithTop ℚ :=
  let gains := (realizedPnls.filter (· > 0)).sum
  let losses := -(realizedPnls.filter (· < 0)).sum
  if losses = 0 then
    if gains > 0 then ⊤ else (0 : ℚ)
  else (gains / losses : ℚ)

/-- `average_win` -/
def averageWin (realizedPnls : List ℚ) : ℚ :=
  let wins := realizedPnls.filter (· > 0)
  if wins ≠ [] then wins.sum / wins.length else 0

/-- `average_loss` -/
def averageLoss (realizedPnls : List ℚ) : ℚ :=
  let losses := realizedPnls.filter (· < 0)
  if losses ≠ [] then losses.sum / losses.length else 0

/-! ## Drawdown -/

/-- The loop of `drawdown_series`; before the first point the peak is
    `float("-inf")`. -/
def drawdownSeriesFrom : Option ℚ → List EquityPoint → List ℚ
  | _, [] => []
  | peak, point :: points =>
      let peak := match peak with
        | none => point.equity
        | some peak => max peak point.equity
      (point.equity - peak) :: drawdownSeriesFrom (some peak) points

/-- `drawdown_series` -/
def drawdownSeries (equityCurve : List EquityPoint) : List ℚ :=
  drawdownSeriesFrom none equityCurve

/-- `max_drawdown` -/
def maxDrawdown (equityCurve : List EquityPoint) : ℚ :=
  (drawdownSeries equityCurve).min?.getD 0

/-- The loop of `max_drawdown_duration`. -/
def longestFrom (longest peak peakTime : ℚ) : List EquityPoint → ℚ
  | [] => longest
  | point :: points =>
      if point.equity ≥ peak then
        longestFrom longest point.equity point.timestamp points
      else
        longestFrom (max longest (point.timestamp - peakTime)) peak peakTime
          points

/-- `max_drawdown_duration` -/
def maxDrawdownDuration (equityCurve : List EquityPoint) : ℚ :=
  match equityCurve with
  | [] => 0
  | first :: _ => longestFrom 0 first.equity first.timestamp equityCurve

/-! ## Returns -/

/-- `returns_from_equity_curve` -/
def returnsFromEquityCurve (equityCurve : List EquityPoint) : List ℚ :=
  (equityCurve.zip equityCurve.tail).filterMap fun (previous, current) =>
    if previous.equity = 0 then none
    else some ((current.equity - previous.equity) / |previous.equity|)

section Ratios

variable (sqrt : ℚ → ℚ)

/-- `math.sqrt` -/
def mathSqrt (x : ℚ) : Except Raised ℚ :=
  if x < 0 then .error .valueError else .ok (sqrt x)

/-- `x / y` -/
def divide (x y : ℚ) : Except Raised ℚ :=
  if y = 0 then .error .zeroDivisionError else .ok (x / y)

/-- `volatility` -/
def volatility (returns : List ℚ) : Except Raised ℚ :=
  if returns.length < 2 then .ok 0
  else
    let mean := returns.sum / returns.length
    let variance :=
      (returns.map (fun r : ℚ => (r - mean) ^ 2)).sum / returns.length
    mathSqrt sqrt variance

/-- `sharpe_ratio` -/
def sharpeRatio (returns : List ℚ) (riskFreeRate periodsPerYear : ℚ) :
    Except Raised ℚ :=
  if returns.length < 2 then .ok 0
  else do
    let periodRiskFree ← divide riskFreeRate periodsPerYear
    let excess := returns.map (· - periodRiskFree)
    let meanExcess := excess.sum / excess.length
    let vol ← volatility sqrt excess
    if vol = 0 then
      return 0
    else
      return meanExcess / vol * (← mathSqrt sqrt periodsPerYear)

/-- `sortino_ratio` -/
def sortinoRatio (returns : List ℚ) (riskFreeRate periodsPerYear : ℚ) :
    Except Raised ℚ :=
  if returns.length < 2 then .ok 0
  else do
    let periodRiskFree ← divide riskFreeRate periodsPerYear
    let excess := returns.map (· - periodRiskFree)
    let meanExcess := excess.sum / excess.length
    let downside := excess.map (min 0)
    let downsideDeviation ← mathSqrt sqrt
      ((downside.map (fun d : ℚ => d * d)).sum / downside.length)
    if downsideDeviation = 0 then
      return 0
    else
      return meanExcess / downsideDeviation
        * (← mathSqrt sqrt periodsPerYear)

/-! ## The report -/

structure PerformanceReport where
  totalRealizedPnl : ℚ
  totalTrades : Nat
  winRate : ℚ
  profitFactor : WithTop ℚ
  averageWin : ℚ
  averageLoss : ℚ
  maxDrawdown : ℚ
  maxDrawdownDuration : ℚ
  volatility : ℚ
  sharpeRatio : ℚ
  sortinoRatio : ℚ
  equityCurve : List EquityPoint

/-- `summarize` -/
def summarize (fills : List Fill) (riskFreeRate : ℚ := 0)
    (periodsPerYear : ℚ := 252) : Except Raised PerformanceReport := do
  let equityCurve := buildEquityCurve fills none
  let realizedPnls := realizedPnlsFromFills fills
  let returns := returnsFromEquityCurve equityCurve
  return {
    totalRealizedPnl := (equityCurve.getLast?.map EquityPoint.equity).getD 0
    totalTrades := realizedPnls.length
    winRate := winRate realizedPnls
    profitFactor := profitFactor realizedPnls
    averageWin := averageWin realizedPnls
    averageLoss := averageLoss realizedPnls
    maxDrawdown := maxDrawdown equityCurve
    maxDrawdownDuration := maxDrawdownDuration equityCurve
    volatility := ← volatility sqrt returns
    sharpeRatio := ← sharpeRatio sqrt returns riskFreeRate periodsPerYear
    sortinoRatio := ← sortinoRatio sqrt returns riskFreeRate periodsPerYear
    equityCurve := equityCurve }

end Ratios

end OsxReport
