import OsborneX.TradeStatisticsProofs

/-! # Returns — the steps they are taken over

    A return is a fraction of the equity a step starts from, and means nothing
    where there is none.  A start from zero is skipped; a start from below zero
    is not, and its return is taken over the equity's absolute value. -/

namespace OsxReport

open OsxPosition

/-- The returns over the steps that start from positive equity. -/
def positiveReturns (equityCurve : List EquityPoint) : List ℚ :=
  (equityCurve.zip equityCurve.tail).filterMap fun (previous, current) =>
    if 0 < previous.equity then
      some ((current.equity - previous.equity) / previous.equity)
    else none

/-! ## Step by step -/

section Steps

variable (previous current : EquityPoint) (rest : List EquityPoint)

theorem returns_step : returnsFromEquityCurve (previous :: current :: rest) =
    if previous.equity = 0 then returnsFromEquityCurve (current :: rest)
    else ((current.equity - previous.equity) / |previous.equity|)
      :: returnsFromEquityCurve (current :: rest) := by
  simp only [returnsFromEquityCurve, List.tail_cons, List.zip_cons_cons,
    List.filterMap_cons]
  split_ifs <;> rfl

theorem positiveReturns_step :
    positiveReturns (previous :: current :: rest) =
      if 0 < previous.equity then
        ((current.equity - previous.equity) / previous.equity)
          :: positiveReturns (current :: rest)
      else positiveReturns (current :: rest) := by
  simp only [positiveReturns, List.tail_cons, List.zip_cons_cons,
    List.filterMap_cons]
  split_ifs <;> rfl

end Steps

/-- No step that should be taken is skipped. -/
theorem length_positiveReturns_le (curve : List EquityPoint) :
    (positiveReturns curve).length ≤ (returnsFromEquityCurve curve).length := by
  induction curve with
  | nil => exact le_rfl
  | cons previous rest ih =>
      cases rest with
      | nil => exact le_rfl
      | cons current rest =>
          rw [returns_step, positiveReturns_step]
          rcases lt_trichotomy previous.equity 0 with hneg | hzero | hpos
          · rw [if_neg hneg.not_gt, if_neg hneg.ne]
            exact Nat.le_succ_of_le ih
          · rw [if_neg hzero.not_gt, if_pos hzero]
            exact ih
          · rw [if_pos hpos, if_neg hpos.ne']
            exact Nat.succ_le_succ ih

/-- The returns are those over positive equity exactly when no step starts
    from below zero. -/
theorem returns_eq_iff (curve : List EquityPoint) :
    returnsFromEquityCurve curve = positiveReturns curve ↔
      ∀ point ∈ curve.dropLast, 0 ≤ point.equity := by
  induction curve with
  | nil => simp [returnsFromEquityCurve, positiveReturns]
  | cons previous rest ih =>
      cases rest with
      | nil => simp [returnsFromEquityCurve, positiveReturns]
      | cons current rest =>
          rw [returns_step, positiveReturns_step, List.dropLast_cons_cons,
            List.forall_mem_cons, ← ih]
          rcases lt_trichotomy previous.equity 0 with hneg | hzero | hpos
          · -- the code's list is longer
            rw [if_neg hneg.not_gt, if_neg hneg.ne]
            refine iff_of_false (fun heq => ?_) (fun h => absurd h.1 hneg.not_ge)
            have hlength := length_positiveReturns_le (current :: rest)
            rw [← heq, List.length_cons] at hlength
            omega
          · rw [if_neg hzero.not_gt, if_pos hzero]
            exact (and_iff_right hzero.ge).symm
          · rw [if_pos hpos, if_neg hpos.ne', abs_of_pos hpos, List.cons_inj_right]
            exact (and_iff_right hpos.le).symm

/-! ## Compounding -/

/-- Compounded from its start, a curve comes out at its end. -/
theorem compound (rest : List EquityPoint) : ∀ first : EquityPoint,
    (∀ point ∈ (first :: rest).dropLast, 0 < point.equity) →
    first.equity
        * ((returnsFromEquityCurve (first :: rest)).map (1 + ·)).prod
      = ((first :: rest).getLast (List.cons_ne_nil _ _)).equity := by
  induction rest with
  | nil =>
      intro first hpos
      exact mul_one _
  | cons next rest ih =>
      intro first hpos
      rw [List.dropLast_cons_cons, List.forall_mem_cons] at hpos
      obtain ⟨hfirst, hrest⟩ := hpos
      have hstep : first.equity
          * (1 + (next.equity - first.equity) / |first.equity|)
          = next.equity := by
        rw [abs_of_pos hfirst]
        field_simp
        ring
      rw [returns_step, if_neg hfirst.ne', List.map_cons, List.prod_cons,
        ← mul_assoc, hstep, ih next hrest]
      rfl

/-- A curve of two points or more, all positive before the last. -/
theorem prod_returns {curve : List EquityPoint} {first last : EquityPoint}
    (hfirst : curve.head? = some first) (hlast : curve.getLast? = some last)
    (hsteps : 2 ≤ curve.length)
    (hpos : ∀ point ∈ curve.dropLast, 0 < point.equity) :
    ((returnsFromEquityCurve curve).map (1 + ·)).prod
      = last.equity / first.equity := by
  obtain ⟨rest, rfl⟩ := List.head?_eq_some_iff.mp hfirst
  have hstart : 0 < first.equity := by
    cases rest with
    | nil => exact absurd hsteps (by simp)
    | cons next rest => exact hpos first List.mem_cons_self
  have hend := compound rest first hpos
  rw [List.getLast?_eq_some_getLast (List.cons_ne_nil _ _)] at hlast
  rw [Option.some.inj hlast] at hend
  exact (eq_div_iff hstart.ne').mpr ((mul_comm _ _).trans hend)

/-! ## The ratios of a report -/

/-- What a report says of the returns. -/
theorem summarize_ratios {sqrt : ℚ → ℚ} {fills : List Fill}
    {riskFreeRate periodsPerYear : ℚ} {report : PerformanceReport}
    (h : summarize sqrt fills riskFreeRate periodsPerYear = .ok report) :
    let returns := returnsFromEquityCurve (buildEquityCurve fills none)
    volatility sqrt returns = .ok report.volatility ∧
      sharpeRatio sqrt returns riskFreeRate periodsPerYear
        = .ok report.sharpeRatio ∧
      sortinoRatio sqrt returns riskFreeRate periodsPerYear
        = .ok report.sortinoRatio := by
  rw [summarize] at h
  obtain ⟨vol, hvol, h⟩ := Execution.bind_ok h
  obtain ⟨sharpe, hsharpe, h⟩ := Execution.bind_ok h
  obtain ⟨sortino, hsortino, h⟩ := Execution.bind_ok h
  cases h
  exact ⟨hvol, hsharpe, hsortino⟩

/-- **RETURNS ARE TAKEN FROM POSITIVE EQUITY ONLY**, compound back to the curve
    and are all that the ratios of a report see, exactly when no step of the
    curve starts from below zero. -/
theorem returns_iff (sqrt : ℚ → ℚ) (curve : List EquityPoint) :
    (returnsFromEquityCurve curve = positiveReturns curve ∧
      (∀ first last, curve.head? = some first → curve.getLast? = some last →
        2 ≤ curve.length → (∀ point ∈ curve.dropLast, 0 < point.equity) →
        ((returnsFromEquityCurve curve).map (1 + ·)).prod
          = last.equity / first.equity) ∧
      ∀ fills riskFreeRate periodsPerYear report,
        buildEquityCurve fills none = curve →
        summarize sqrt fills riskFreeRate periodsPerYear = .ok report →
        volatility sqrt (positiveReturns curve) = .ok report.volatility ∧
        sharpeRatio sqrt (positiveReturns curve) riskFreeRate periodsPerYear
          = .ok report.sharpeRatio ∧
        sortinoRatio sqrt (positiveReturns curve) riskFreeRate periodsPerYear
          = .ok report.sortinoRatio) ↔
    ∀ point ∈ curve.dropLast, 0 ≤ point.equity := by
  rw [← returns_eq_iff]
  constructor
  · exact And.left
  · intro hsame
    refine ⟨hsame, fun _ _ => prod_returns, ?_⟩
    rintro fills riskFreeRate periodsPerYear report rfl hreport
    rw [← hsame]
    exact summarize_ratios hreport

/-- A long position of 10 at 100, half of it closed at 90 and half at 95. -/
def losing : List Fill :=
  [⟨0, "X", .buy, 100, 10⟩, ⟨1, "X", .sell, 90, 5⟩, ⟨2, "X", .sell, 95, 5⟩]

/-- The second close is a step from an equity of -50 to one of -75. -/
theorem losing_step_counted :
    let curve := buildEquityCurve losing none
    curve = [⟨0, 0⟩, ⟨1, -50⟩, ⟨2, -75⟩] ∧ positiveReturns curve = [] ∧
      returnsFromEquityCurve curve = [-1 / 2] ∧
      returnsFromEquityCurve curve ≠ positiveReturns curve := by
  decide +kernel

end OsxReport
