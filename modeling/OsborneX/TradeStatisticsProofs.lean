import OsborneX.ExecutionProofs
import OsborneX.FillSplitProofs
import OsborneX.ReportModel

/-! # Trade statistics — the closing fills, and the two totals

    The report takes its total from the equity curve, a sum over the states of
    one tracker, and its statistics from what a second tracker returned fill by
    fill.  Both are the same money.  The series leaves out what is zero,
    though, and a fill that closes at the average cost books zero. -/

namespace OsxReport

open OsxPosition

/-! ## Closing fills -/

/-- Is a fill opposite to the position it meets? -/
def Closes (state : PositionState) (fill : Fill) : Prop :=
  0 < state.quantity ∧ fill.side = .sell ∨
    state.quantity < 0 ∧ fill.side = .buy

instance (state : PositionState) (fill : Fill) :
    Decidable (Closes state fill) :=
  inferInstanceAs (Decidable (_ ∨ _))

theorem closes_iff (state : PositionState) (fill : Fill) :
    Closes state fill ↔ ahead state fill < 0 := by
  rw [Closes, ahead]
  cases fill.side <;> simp [Side.sign]

theorem booked_of_not_closes {state : PositionState} {fill : Fill}
    (hpos : 0 < fill.quantity) (h : ¬ Closes state fill) :
    (applyTo state fill).2 = 0 := by
  rw [closes_iff, not_lt] at h
  rw [(applyTo_adds fill hpos h).2]

/-- A closing fill books nothing exactly when it is at the average cost. -/
theorem booked_eq_zero_iff {state : PositionState} {fill : Fill}
    (hpos : 0 < fill.quantity) (h : Closes state fill) :
    (applyTo state fill).2 = 0 ↔ fill.price = state.averageCost := by
  rw [closes_iff] at h
  have hclosed : min fill.quantity (-ahead state fill) ≠ 0 :=
    (lt_min hpos (neg_pos.mpr h)).ne'
  rw [applyTo_closes fill hpos h]
  simp only [mul_eq_zero, hclosed, fill.side.sign_ne_zero, false_or,
    sub_eq_zero]
  exact eq_comm

/-- The PnLs booked by the fills that close, in order. -/
def closingPnlsFrom : PositionTracker → List Fill → List ℚ
  | _, [] => []
  | t, fill :: fills =>
      if Closes (t.state fill.symbol) fill then
        (t.apply fill).2 :: closingPnlsFrom (t.apply fill).1 fills
      else closingPnlsFrom (t.apply fill).1 fills

/-- The series a report is about. -/
def closingPnls (fills : List Fill) : List ℚ := closingPnlsFrom .new fills

/-- The series of the code is that of the closing fills, less its zeros. -/
theorem pnls_eq_filter (fills : List Fill) (t : PositionTracker)
    (hpos : ∀ fill ∈ fills, 0 < fill.quantity) :
    (t.applyEach fills).2.filter (· ≠ 0)
      = (closingPnlsFrom t fills).filter (· ≠ 0) := by
  induction fills generalizing t with
  | nil => rfl
  | cons fill fills ih =>
      obtain ⟨hfill, hfills⟩ := List.forall_mem_cons.mp hpos
      have hrest := ih (t.apply fill).1 hfills
      rw [closingPnlsFrom, applyEach_cons]
      dsimp only
      by_cases hcloses : Closes (t.state fill.symbol) fill
      · rw [if_pos hcloses, List.filter_cons, List.filter_cons, hrest]
      · have hzero : (t.apply fill).2 = 0 := booked_of_not_closes hfill hcloses
        rw [if_neg hcloses, hzero, List.filter_cons_of_neg (by simp), hrest]

/-- A closing fill of a run, and what it booked. -/
theorem mem_closingPnlsFrom (fills : List Fill) (t : PositionTracker)
    (pnl : ℚ) : pnl ∈ closingPnlsFrom t fills ↔
      ∃ before fill after, fills = before ++ fill :: after ∧
        Closes ((t.applyEach before).1.state fill.symbol) fill ∧
        pnl = ((t.applyEach before).1.apply fill).2 := by
  induction fills generalizing t with
  | nil => simp [closingPnlsFrom]
  | cons first fills ih =>
      have hrest : (∃ before fill after, first :: fills
            = before ++ fill :: after ∧
          Closes ((t.applyEach before).1.state fill.symbol) fill ∧
          pnl = ((t.applyEach before).1.apply fill).2) ↔
          (Closes (t.state first.symbol) first ∧ pnl = (t.apply first).2) ∨
            pnl ∈ closingPnlsFrom (t.apply first).1 fills := by
        rw [ih]
        constructor
        · rintro ⟨before, fill, after, hfills, hcloses, hpnl⟩
          cases before with
          | nil =>
              obtain ⟨rfl, rfl⟩ := List.cons.inj hfills
              exact Or.inl ⟨hcloses, hpnl⟩
          | cons head before =>
              obtain ⟨rfl, rfl⟩ := List.cons.inj hfills
              exact Or.inr ⟨before, fill, after, rfl, hcloses, hpnl⟩
        · rintro (⟨hcloses, hpnl⟩ | ⟨before, fill, after, rfl, hcloses, hpnl⟩)
          · exact ⟨[], first, fills, rfl, hcloses, hpnl⟩
          · exact ⟨first :: before, fill, after, rfl, hcloses, hpnl⟩
      rw [hrest, closingPnlsFrom]
      by_cases hcloses : Closes (t.state first.symbol) first
      · simp [hcloses]
      · simp [hcloses]

/-! ## The report is made -/

theorem mathSqrt_of_nonneg (sqrt : ℚ → ℚ) {x : ℚ} (h : 0 ≤ x) :
    mathSqrt sqrt x = .ok (sqrt x) := by
  rw [mathSqrt, if_neg (not_lt.mpr h)]

theorem volatility_ok (sqrt : ℚ → ℚ) (returns : List ℚ) :
    ∃ vol, volatility sqrt returns = .ok vol := by
  rw [volatility]
  by_cases hfew : returns.length < 2
  · exact ⟨0, by rw [if_pos hfew]⟩
  · refine ⟨_, (if_neg hfew).trans (mathSqrt_of_nonneg sqrt ?_)⟩
    refine div_nonneg (List.sum_nonneg ?_) (Nat.cast_nonneg _)
    exact List.forall_mem_map.mpr (fun r _ => sq_nonneg _)

theorem divide_ok (x : ℚ) {y : ℚ} (h : 0 < y) : divide x y = .ok (x / y) := by
  rw [divide, if_neg h.ne']

/-- Over a positive number of periods, what is under a ratio's root is not
    negative and what it divides by is not zero. -/
theorem sharpeRatio_ok (sqrt : ℚ → ℚ) (returns : List ℚ) (riskFreeRate : ℚ)
    {periodsPerYear : ℚ} (h : 0 < periodsPerYear) :
    ∃ sharpe, sharpeRatio sqrt returns riskFreeRate periodsPerYear
      = .ok sharpe := by
  rw [sharpeRatio]
  by_cases hfew : returns.length < 2
  · exact ⟨0, if_pos hfew⟩
  · rw [if_neg hfew]
    refine Execution.bind_returns ⟨_, divide_ok _ h⟩ (fun _ => ?_)
    refine Execution.bind_returns (volatility_ok sqrt _) (fun vol => ?_)
    by_cases hzero : vol = 0
    · exact ⟨0, if_pos hzero⟩
    · rw [if_neg hzero]
      exact Execution.bind_returns ⟨_, mathSqrt_of_nonneg sqrt h.le⟩
        (fun _ => ⟨_, rfl⟩)

theorem sortinoRatio_ok (sqrt : ℚ → ℚ) (returns : List ℚ) (riskFreeRate : ℚ)
    {periodsPerYear : ℚ} (h : 0 < periodsPerYear) :
    ∃ sortino, sortinoRatio sqrt returns riskFreeRate periodsPerYear
      = .ok sortino := by
  rw [sortinoRatio]
  by_cases hfew : returns.length < 2
  · exact ⟨0, if_pos hfew⟩
  · rw [if_neg hfew]
    refine Execution.bind_returns ⟨_, divide_ok _ h⟩ (fun _ => ?_)
    refine Execution.bind_returns ⟨_, mathSqrt_of_nonneg sqrt ?_⟩
      (fun deviation => ?_)
    · refine div_nonneg (List.sum_nonneg ?_) (Nat.cast_nonneg _)
      exact List.forall_mem_map.mpr (fun d _ => mul_self_nonneg d)
    · by_cases hzero : deviation = 0
      · exact ⟨0, if_pos hzero⟩
      · rw [if_neg hzero]
        exact Execution.bind_returns ⟨_, mathSqrt_of_nonneg sqrt h.le⟩
          (fun _ => ⟨_, rfl⟩)

/-- `summarize` raises nothing over a positive number of periods. -/
theorem summarize_ok (sqrt : ℚ → ℚ) (fills : List Fill) (riskFreeRate : ℚ)
    {periodsPerYear : ℚ} (h : 0 < periodsPerYear) :
    ∃ report, summarize sqrt fills riskFreeRate periodsPerYear = .ok report := by
  rw [summarize]
  refine Execution.bind_returns (volatility_ok sqrt _) (fun _ => ?_)
  refine Execution.bind_returns (sharpeRatio_ok sqrt _ _ h) (fun _ => ?_)
  exact Execution.bind_returns (sortinoRatio_ok sqrt _ _ h) (fun _ => ⟨_, rfl⟩)

/-- What a report says of the trades. -/
theorem summarize_trades {sqrt : ℚ → ℚ} {fills : List Fill}
    {riskFreeRate periodsPerYear : ℚ} {report : PerformanceReport}
    (h : summarize sqrt fills riskFreeRate periodsPerYear = .ok report) :
    report.totalRealizedPnl = ((buildEquityCurve fills none).getLast?.map
        EquityPoint.equity).getD 0 ∧
      report.totalTrades = (realizedPnlsFromFills fills).length ∧
      report.winRate = winRate (realizedPnlsFromFills fills) ∧
      report.profitFactor = profitFactor (realizedPnlsFromFills fills) ∧
      report.averageWin = averageWin (realizedPnlsFromFills fills) ∧
      report.averageLoss = averageLoss (realizedPnlsFromFills fills) := by
  rw [summarize] at h
  obtain ⟨vol, -, h⟩ := Execution.bind_ok h
  obtain ⟨sharpe, -, h⟩ := Execution.bind_ok h
  obtain ⟨sortino, -, h⟩ := Execution.bind_ok h
  cases h
  exact ⟨rfl, rfl, rfl, rfl, rfl, rfl⟩

/-! ## Every close is a trade, or not -/

theorem applyAll_eq (fills : List Fill) :
    ∀ t : PositionTracker, (t.applyEach fills).1
      = fills.foldl (fun tracker fill => (tracker.apply fill).1) t := by
  induction fills with
  | nil => exact fun _ => rfl
  | cons fill fills ih => exact fun t => ih (t.apply fill).1

theorem winRate_eq (pnls : List ℚ) :
    winRate pnls = pnls.countP (0 < ·) / pnls.length := by
  rw [winRate]
  cases pnls with
  | nil => simp
  | cons pnl pnls => rw [if_neg (List.cons_ne_nil _ _)]

/-- **EVERY CLOSING FILL IS COUNTED** exactly when none of them is at the
    average cost of the position it closes. -/
theorem everyClose_iff (sqrt : ℚ → ℚ) (fills : List Fill)
    (hpos : ∀ fill ∈ fills, 0 < fill.quantity) :
    (∃ report, summarize sqrt fills = .ok report) ∧
    ((realizedPnlsFromFills fills = closingPnls fills ∧
      ∀ riskFreeRate periodsPerYear report,
        summarize sqrt fills riskFreeRate periodsPerYear = .ok report →
        report.totalTrades = (closingPnls fills).length ∧
        report.winRate = (closingPnls fills).countP (0 < ·)
          / (closingPnls fills).length) ↔
    ∀ before fill after, fills = before ++ fill :: after →
      Closes ((applyAll before).state fill.symbol) fill →
      fill.price ≠ (applyAll before).averageCost fill.symbol) := by
  refine ⟨summarize_ok sqrt fills 0 (by norm_num), ?_⟩
  have hseries : realizedPnlsFromFills fills
      = (closingPnls fills).filter (· ≠ 0) := pnls_eq_filter fills .new hpos
  have hzeros : realizedPnlsFromFills fills = closingPnls fills ↔
      0 ∉ closingPnls fills := by
    rw [hseries, List.filter_eq_self]
    simp only [decide_eq_true_eq]
    exact ⟨fun h hmem => h 0 hmem rfl, fun h pnl hmem heq => h (heq ▸ hmem)⟩
  have hcost : 0 ∉ closingPnls fills ↔
      ∀ before fill after, fills = before ++ fill :: after →
        Closes ((applyAll before).state fill.symbol) fill →
        fill.price ≠ (applyAll before).averageCost fill.symbol := by
    have hbooked : ∀ before fill after, fills = before ++ fill :: after →
        Closes ((applyAll before).state fill.symbol) fill →
        (((applyAll before).apply fill).2 = 0 ↔
          fill.price = (applyAll before).averageCost fill.symbol) := by
      intro before fill after hfills hcloses
      refine booked_eq_zero_iff (hpos fill ?_) hcloses
      rw [hfills]
      exact List.mem_append_right _ List.mem_cons_self
    rw [closingPnls, mem_closingPnlsFrom]
    constructor
    · intro hnone before fill after hfills hcloses hprice
      refine hnone ⟨before, fill, after, hfills, ?_, ?_⟩
      · rw [applyAll_eq]
        exact hcloses
      · rw [applyAll_eq]
        exact ((hbooked before fill after hfills hcloses).mpr hprice).symm
    · rintro hall ⟨before, fill, after, hfills, hcloses, hzero⟩
      rw [applyAll_eq] at hcloses hzero
      exact hall before fill after hfills hcloses
        ((hbooked before fill after hfills hcloses).mp hzero.symm)
  rw [← hcost, ← hzeros]
  constructor
  · exact And.left
  · intro hall
    refine ⟨hall, fun riskFreeRate periodsPerYear report hreport => ?_⟩
    obtain ⟨-, htrades, hrate, -⟩ := summarize_trades hreport
    rw [htrades, hrate, hall, winRate_eq]
    exact ⟨rfl, rfl⟩

/-- A position closed at a profit. -/
def profitable : List Fill := [⟨0, "X", .buy, 100, 10⟩, ⟨1, "X", .sell, 110, 10⟩]

theorem everyClose_iff_profitable :
    realizedPnlsFromFills profitable = closingPnls profitable := by
  refine (((everyClose_iff id profitable (by decide +kernel)).2).mpr ?_).1
  intro before fill after hfills hcloses
  obtain _ | ⟨first, _ | ⟨second, rest⟩⟩ := before
  · obtain ⟨rfl, -⟩ := List.cons.inj hfills
    exact absurd hcloses (by decide +kernel)
  · obtain ⟨rfl, hrest⟩ := List.cons.inj hfills
    obtain ⟨rfl, -⟩ := List.cons.inj hrest
    decide +kernel
  · have hlength := congrArg List.length hfills
    simp [profitable] at hlength

/-- A position closed at the price it was opened at. -/
def breakEven : List Fill := [⟨0, "X", .buy, 100, 10⟩, ⟨1, "X", .sell, 100, 10⟩]

theorem breakEven_not_counted :
    (∀ fill ∈ breakEven, 0 < fill.quantity) ∧ closingPnls breakEven = [0] ∧
      realizedPnlsFromFills breakEven = [] ∧
      realizedPnlsFromFills breakEven ≠ closingPnls breakEven := by
  decide +kernel

/-! ## Two totals -/

/-- What a fill books is what it adds to the tracker's total. -/
theorem totalRealizedPnl_apply (t : PositionTracker) (fill : Fill) :
    (t.apply fill).1.totalRealizedPnl
      = t.totalRealizedPnl + (t.apply fill).2 := by
  have hone : ∀ state : PositionState, (applyTo state fill).1.realizedPnl
      = state.realizedPnl + (applyTo state fill).2 := by
    intro state
    rw [applyTo]
    split
    · exact (add_zero _).symm
    · rfl
  have hsum := HashTable.sum_upsertIn PositionState.realizedPnl fill.symbol
    (fun old => (applyTo (old.getD {}) fill).1) t.states.entries
  have hold : (t.state fill.symbol).realizedPnl =
      ((t.states.find? fill.symbol).map PositionState.realizedPnl).getD 0 := by
    rw [PositionTracker.state]
    cases t.states.find? fill.symbol <;> rfl
  have hnew := hone (t.state fill.symbol)
  rw [hold] at hnew
  change (t.apply fill).1.totalRealizedPnl + _
    = t.totalRealizedPnl + (applyTo (t.state fill.symbol) fill).1.realizedPnl
    at hsum
  rw [hnew, add_comm (Option.getD _ _), ← add_assoc] at hsum
  exact add_right_cancel hsum

/-- A whole run. -/
theorem totalRealizedPnl_applyEach (fills : List Fill) (t : PositionTracker) :
    (t.applyEach fills).1.totalRealizedPnl
      = t.totalRealizedPnl + (t.applyEach fills).2.sum := by
  induction fills generalizing t with
  | nil => exact (add_zero _).symm
  | cons fill fills ih =>
      rw [applyEach_cons]
      dsimp only
      rw [ih, totalRealizedPnl_apply, List.sum_cons, add_assoc]

/-- The last point of the curve. -/
theorem last_equity (fills : List Fill) (t : PositionTracker) :
    ((equityCurveFrom none t fills).getLast?.map EquityPoint.equity).getD
        t.totalRealizedPnl
      = (t.applyEach fills).1.totalRealizedPnl := by
  induction fills generalizing t with
  | nil => rfl
  | cons fill fills ih =>
      rw [equityCurveFrom, applyEach_cons, ← ih (t.apply fill).1,
        List.getLast?_cons]
      cases (equityCurveFrom none (t.apply fill).1 fills).getLast? <;> rfl

theorem sum_nonzero (pnls : List ℚ) : (pnls.filter (· ≠ 0)).sum = pnls.sum := by
  induction pnls with
  | nil => rfl
  | cons pnl pnls ih =>
      rw [List.filter_cons, List.sum_cons]
      by_cases hzero : pnl = 0
      · rw [if_neg (by simp [hzero]), ih, hzero, zero_add]
      · rw [if_pos (by simp [hzero]), List.sum_cons, ih]

/-- Wins and losses make up the sum. -/
theorem sum_wins_losses (pnls : List ℚ) :
    pnls.sum = (pnls.filter (· > 0)).sum + (pnls.filter (· < 0)).sum := by
  induction pnls with
  | nil => exact (add_zero _).symm
  | cons pnl pnls ih =>
      rw [List.filter_cons, List.filter_cons, List.sum_cons, ih]
      rcases lt_trichotomy pnl 0 with hloss | hzero | hwin
      · simp [hloss, hloss.not_gt]
        ring
      · simp [hzero]
      · simp [hwin, hwin.not_gt]
        ring

theorem length_mul_mean (pnls : List ℚ) :
    pnls.length * (if pnls ≠ [] then pnls.sum / pnls.length else 0)
      = pnls.sum := by
  by_cases hsome : pnls = []
  · simp [hsome]
  · rw [if_pos hsome, mul_div_cancel₀]
    exact Nat.cast_ne_zero.mpr (mt List.length_eq_zero_iff.mp hsome)

theorem sum_losses {pnls : List ℚ} (hneg : ∀ pnl ∈ pnls, pnl < 0)
    (hsome : pnls ≠ []) : pnls.sum < 0 :=
  List.sum_pos (M := ℚᵒᵈ) pnls hneg hsome

/-- Against a loss, the profit factor is on the side of one that the total is
    of zero. -/
theorem profitFactor_spec {pnls : List ℚ} (hloss : ∃ pnl ∈ pnls, pnl < 0) :
    (1 < profitFactor pnls ↔ 0 < pnls.sum) ∧
      (profitFactor pnls = 1 ↔ pnls.sum = 0) ∧
      (profitFactor pnls < 1 ↔ pnls.sum < 0) := by
  have hlosses : 0 < -(pnls.filter (· < 0)).sum := by
    obtain ⟨pnl, hmem, hneg⟩ := hloss
    have hsome : pnls.filter (· < 0) ≠ [] :=
      List.ne_nil_of_mem (List.mem_filter.mpr ⟨hmem, decide_eq_true hneg⟩)
    have hneg : ∀ pnl ∈ pnls.filter (· < 0), pnl < 0 := fun pnl hpnl =>
      of_decide_eq_true (List.mem_filter.mp hpnl).2
    exact neg_pos.mpr (sum_losses hneg hsome)
  have htotal : pnls.sum = (pnls.filter (· > 0)).sum
      - -(pnls.filter (· < 0)).sum := by
    rw [sub_neg_eq_add]
    exact sum_wins_losses pnls
  rw [profitFactor, if_neg hlosses.ne', htotal]
  refine ⟨?_, ?_, ?_⟩
  · rw [WithTop.one_lt_coe, one_lt_div hlosses, sub_pos]
  · rw [WithTop.coe_eq_one, div_eq_one_iff_eq hlosses.ne', sub_eq_zero]
  · rw [WithTop.coe_lt_one, div_lt_one hlosses, sub_neg]

/-- **THE TOTALS AGREE**: the last point of the equity curve is the sum of the
    series of the closing fills, and what the averages say of it; and profit
    factor and total are of one mind. -/
theorem totals_agree (sqrt : ℚ → ℚ) (fills : List Fill) :
    (∃ report, summarize sqrt fills = .ok report) ∧
    ∀ riskFreeRate periodsPerYear report,
      summarize sqrt fills riskFreeRate periodsPerYear = .ok report →
      let pnls := realizedPnlsFromFills fills
      report.totalRealizedPnl = pnls.sum ∧
      report.totalRealizedPnl
        = pnls.countP (0 < ·) * report.averageWin
          + pnls.countP (· < 0) * report.averageLoss ∧
      ((∃ pnl ∈ pnls, pnl < 0) →
        (1 < report.profitFactor ↔ 0 < report.totalRealizedPnl) ∧
        (report.profitFactor = 1 ↔ report.totalRealizedPnl = 0) ∧
        (report.profitFactor < 1 ↔ report.totalRealizedPnl < 0)) := by
  refine ⟨summarize_ok sqrt fills 0 (by norm_num), ?_⟩
  intro riskFreeRate periodsPerYear report hreport pnls
  obtain ⟨htotal, -, -, hfactor, hwin, hloss⟩ := summarize_trades hreport
  have hsum : report.totalRealizedPnl = pnls.sum := by
    have hlast := last_equity fills .new
    rw [totalRealizedPnl_applyEach] at hlast
    rw [htotal]
    refine hlast.trans ?_
    rw [show pnls.sum = _ from sum_nonzero _]
    exact zero_add _
  refine ⟨hsum, ?_, fun hsome => ?_⟩
  · rw [hsum, hwin, hloss, sum_wins_losses, List.countP_eq_length_filter,
      List.countP_eq_length_filter]
    exact (congrArg₂ (· + ·) (length_mul_mean _) (length_mul_mean _)).symm
  · rw [hsum, hfactor]
    exact profitFactor_spec hsome

end OsxReport
