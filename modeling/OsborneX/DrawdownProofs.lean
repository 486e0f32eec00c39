import OsborneX.ReportModel

/-! # Drawdown — one pass, and all pairs of points

    Both metrics are computed in one pass that keeps the peak so far.  What
    they mean is said over all pairs of points of the curve: the deepest fall,
    and the longest way from a high to a point below it. -/

namespace OsxReport

open OsxPosition

/-! ## The last high -/

/-- `i` is the last place at which the maximum of the points is attained. -/
structure LastHigh (points : List EquityPoint) (i : Nat)
    (peak : EquityPoint) : Prop where
  here : points[i]? = some peak
  high : ∀ point ∈ points, point.equity ≤ peak.equity
  last : ∀ (k : Nat) (point : EquityPoint), points[k]? = some point → i < k →
    point.equity < peak.equity

theorem LastHigh.lt_length {points : List EquityPoint} {i : Nat}
    {peak : EquityPoint} (h : LastHigh points i peak) : i < points.length :=
  (List.getElem?_eq_some_iff.mp h.here).1

theorem lastHigh_unique {points : List EquityPoint} {i i' : Nat}
    {peak peak' : EquityPoint} (h : LastHigh points i peak)
    (h' : LastHigh points i' peak') : i = i' ∧ peak = peak' := by
  have hplace : i = i' := by
    rcases lt_trichotomy i i' with hlt | heq | hgt
    · have hbelow := h.last i' peak' h'.here hlt
      have habove := h'.high peak (List.mem_of_getElem? h.here)
      exact absurd habove (not_le.mpr hbelow)
    · exact heq
    · have hbelow := h'.last i peak h.here hgt
      have habove := h.high peak' (List.mem_of_getElem? h'.here)
      exact absurd habove (not_le.mpr hbelow)
  refine ⟨hplace, ?_⟩
  have hhere := h.here
  rw [hplace, h'.here] at hhere
  exact (Option.some.inj hhere).symm

theorem getElem?_snoc_of_lt {points : List EquityPoint} {point : EquityPoint}
    {k : Nat} (h : k < points.length) :
    (points ++ [point])[k]? = points[k]? :=
  List.getElem?_append_left h

/-- A point at the peak or over it is the last high. -/
theorem LastHigh.reached {points : List EquityPoint} {i : Nat}
    {peak point : EquityPoint} (h : LastHigh points i peak)
    (hreached : peak.equity ≤ point.equity) :
    LastHigh (points ++ [point]) points.length point where
  here := List.getElem?_concat_length
  high := by
    intro p hp
    rcases List.mem_append.mp hp with hp | hp
    · exact le_trans (h.high p hp) hreached
    · rw [List.mem_singleton.mp hp]
  last := by
    intro k p hk hlt
    have hlength := (List.getElem?_eq_some_iff.mp hk).1
    rw [List.length_append, List.length_singleton] at hlength
    omega

/-- A point below it leaves the last high where it is. -/
theorem LastHigh.kept {points : List EquityPoint} {i : Nat}
    {peak point : EquityPoint} (h : LastHigh points i peak)
    (hbelow : point.equity < peak.equity) :
    LastHigh (points ++ [point]) i peak where
  here := (getElem?_snoc_of_lt h.lt_length).trans h.here
  high := by
    intro p hp
    rcases List.mem_append.mp hp with hp | hp
    · exact h.high p hp
    · rw [List.mem_singleton.mp hp]
      exact hbelow.le
  last := by
    intro k p hk hlt
    rcases lt_or_ge k points.length with hold | hnew
    · rw [getElem?_snoc_of_lt hold] at hk
      exact h.last k p hk hlt
    · rw [List.getElem?_append_right hnew] at hk
      rw [List.mem_singleton.mp (List.mem_of_getElem? hk)]
      exact hbelow

theorem lastHigh_singleton (point : EquityPoint) :
    LastHigh [point] 0 point where
  here := rfl
  high := fun p hp => by rw [List.mem_singleton.mp hp]
  last := by
    intro k p hk hlt
    have hlength := (List.getElem?_eq_some_iff.mp hk).1
    rw [List.length_singleton] at hlength
    omega

/-! ## What the metrics mean -/

/-- The falls of a curve, from any of its points to a later one. -/
def declines (curve : List EquityPoint) : Set ℚ :=
  {d | ∃ (i j : Nat) (earlier later : EquityPoint), i ≤ j ∧
    curve[i]? = some earlier ∧ curve[j]? = some later ∧
    d = later.equity - earlier.equity}

/-- How long a curve has been under water, at each of its points that is
    below the maximum so far. -/
def durations (curve : List EquityPoint) : Set ℚ :=
  {d | ∃ (i j : Nat) (peak point : EquityPoint), curve[j]? = some point ∧
    LastHigh (curve.take (j + 1)) i peak ∧ point.equity < peak.equity ∧
    d = point.timestamp - peak.timestamp}

/-! ## The deepest fall -/

/-- The series holds the fall from the last high, from some points on. -/
theorem drawdownSeriesFrom_getElem? (rest : List EquityPoint) :
    ∀ (done : List EquityPoint) (i : Nat) (peak : EquityPoint),
      LastHigh done i peak →
      ∀ (j : Nat) (point : EquityPoint), rest[j]? = some point →
        ∃ i' peak', LastHigh (done ++ rest.take (j + 1)) i' peak' ∧
          (drawdownSeriesFrom (some peak.equity) rest)[j]?
            = some (point.equity - peak'.equity) := by
  induction rest with
  | nil =>
      intro done i peak h j point hpoint
      cases hpoint
  | cons first rest ih =>
      intro done i peak h j point hpoint
      -- the last high once the first point is done
      obtain ⟨i₁, peak₁, h₁, hpeak⟩ : ∃ i₁ peak₁,
          LastHigh (done ++ [first]) i₁ peak₁ ∧
          max peak.equity first.equity = peak₁.equity := by
        rcases le_or_gt peak.equity first.equity with hreached | hbelow
        · exact ⟨_, first, h.reached hreached, max_eq_right hreached⟩
        · exact ⟨i, peak, h.kept hbelow, max_eq_left hbelow.le⟩
      rw [drawdownSeriesFrom, hpeak]
      cases j with
      | zero =>
          cases hpoint
          exact ⟨i₁, peak₁, h₁, rfl⟩
      | succ j =>
          obtain ⟨i', peak', h', hseries⟩ := ih _ i₁ peak₁ h₁ j point hpoint
          rw [List.append_assoc] at h'
          exact ⟨i', peak', h', hseries⟩

theorem length_drawdownSeriesFrom (points : List EquityPoint) :
    ∀ peak, (drawdownSeriesFrom peak points).length = points.length := by
  induction points with
  | nil => exact fun _ => rfl
  | cons point points ih =>
      intro peak
      show (_ :: drawdownSeriesFrom _ points).length = _
      rw [List.length_cons, List.length_cons, ih]

/-- **AT EACH POINT** the series holds the fall from the last high. -/
theorem drawdownSeries_getElem? {curve : List EquityPoint} {j : Nat}
    {point : EquityPoint} (hpoint : curve[j]? = some point) :
    ∃ i peak, LastHigh (curve.take (j + 1)) i peak ∧
      (drawdownSeries curve)[j]? = some (point.equity - peak.equity) := by
  cases curve with
  | nil => cases hpoint
  | cons first rest =>
      rw [drawdownSeries, drawdownSeriesFrom]
      cases j with
      | zero =>
          cases hpoint
          exact ⟨0, point, lastHigh_singleton point, rfl⟩
      | succ j =>
          exact drawdownSeriesFrom_getElem? rest [first] 0 first
            (lastHigh_singleton first) j point hpoint

/-- A high of the first points is a point of the curve, and not a later one. -/
theorem LastHigh.of_take {curve : List EquityPoint} {i j : Nat}
    {peak : EquityPoint} (h : LastHigh (curve.take (j + 1)) i peak) :
    i ≤ j ∧ curve[i]? = some peak := by
  have hlength := h.lt_length
  rw [List.length_take] at hlength
  have hplace : i < j + 1 := lt_of_lt_of_le hlength (min_le_left _ _)
  refine ⟨Nat.lt_succ_iff.mp hplace, ?_⟩
  rw [← List.getElem?_take_of_lt hplace]
  exact h.here

/-- A fall to a point is no deeper than that from the last high. -/
theorem LastHigh.le_of_take {curve : List EquityPoint} {i j k : Nat}
    {peak earlier : EquityPoint} (h : LastHigh (curve.take (j + 1)) i peak)
    (hk : k ≤ j) (hearlier : curve[k]? = some earlier) :
    earlier.equity ≤ peak.equity := by
  refine h.high earlier (List.mem_of_getElem? (i := k) ?_)
  rw [List.getElem?_take_of_lt (Nat.lt_succ_of_le hk)]
  exact hearlier

/-- **MAXIMUM DRAWDOWN** is the least of the falls. -/
theorem maxDrawdown_isLeast {curve : List EquityPoint} (hsome : curve ≠ []) :
    IsLeast (declines curve) (maxDrawdown curve) := by
  have hlength : (drawdownSeries curve).length = curve.length :=
    length_drawdownSeriesFrom curve none
  -- every entry of the series is a fall, and every fall is no deeper than one
  have hfall : ∀ d ∈ drawdownSeries curve, d ∈ declines curve := by
    intro d hd
    obtain ⟨j, hj⟩ := List.mem_iff_getElem?.mp hd
    have hbound : j < curve.length := by
      rw [← hlength]
      exact (List.getElem?_eq_some_iff.mp hj).1
    obtain ⟨i, peak, hpeak, hentry⟩ :=
      drawdownSeries_getElem? (List.getElem?_eq_getElem hbound)
    obtain ⟨hplace, hhere⟩ := hpeak.of_take
    rw [hj] at hentry
    exact ⟨i, j, peak, _, hplace, hhere, List.getElem?_eq_getElem hbound,
      Option.some.inj hentry⟩
  have hdeepest : ∀ d ∈ declines curve, ∃ d' ∈ drawdownSeries curve, d' ≤ d := by
    rintro d ⟨i, j, earlier, later, hij, hearlier, hlater, rfl⟩
    obtain ⟨i', peak, hpeak, hentry⟩ := drawdownSeries_getElem? hlater
    exact ⟨_, List.mem_of_getElem? hentry,
      sub_le_sub_left (hpeak.le_of_take hij hearlier) _⟩
  have hseries : drawdownSeries curve ≠ [] := by
    rw [← List.length_pos_iff, hlength]
    exact List.length_pos_iff.mpr hsome
  obtain ⟨m, hm⟩ := Option.isSome_iff_exists.mp
    (List.isSome_min?_of_ne_nil hseries)
  obtain ⟨hmem, hleast⟩ := List.min?_eq_some_iff.mp hm
  rw [maxDrawdown, hm, Option.getD_some]
  refine ⟨hfall m hmem, fun d hd => ?_⟩
  obtain ⟨d', hd', hle⟩ := hdeepest d hd
  exact le_trans (hleast d' hd') hle

/-! ## The longest time under water -/

/-- What one more point adds: nothing at the last high or over it, and below
    it the time since. -/
theorem mem_durations_snoc {done : List EquityPoint} {i : Nat}
    {peak point : EquityPoint} (h : LastHigh done i peak) (d : ℚ) :
    d ∈ durations (done ++ [point]) ↔ d ∈ durations done ∨
      (point.equity < peak.equity ∧ d = point.timestamp - peak.timestamp) := by
  have hwhole : (done ++ [point]).take (done.length + 1) = done ++ [point] :=
    List.take_of_length_le (by simp)
  constructor
  · rintro ⟨i', j, peak', later, hlater, hpeak', hbelow, rfl⟩
    rcases lt_or_ge j done.length with hold | hnew
    · rw [getElem?_snoc_of_lt hold] at hlater
      rw [List.take_append_of_le_length hold] at hpeak'
      exact Or.inl ⟨i', j, peak', later, hlater, hpeak', hbelow, rfl⟩
    · obtain rfl : j = done.length := by
        have hlength := (List.getElem?_eq_some_iff.mp hlater).1
        rw [List.length_append, List.length_singleton] at hlength
        omega
      rw [List.getElem?_concat_length] at hlater
      obtain rfl := Option.some.inj hlater
      rw [hwhole] at hpeak'
      rcases le_or_gt peak.equity point.equity with hreached | hunder
      · obtain ⟨-, rfl⟩ := lastHigh_unique hpeak' (h.reached hreached)
        exact absurd hbelow (lt_irrefl _)
      · obtain ⟨-, rfl⟩ := lastHigh_unique hpeak' (h.kept hunder)
        exact Or.inr ⟨hunder, rfl⟩
  · rintro (⟨i', j, peak', later, hlater, hpeak', hbelow, rfl⟩ | ⟨hunder, rfl⟩)
    · have hold := (List.getElem?_eq_some_iff.mp hlater).1
      refine ⟨i', j, peak', later, ?_, ?_, hbelow, rfl⟩
      · rw [getElem?_snoc_of_lt hold]
        exact hlater
      · rw [List.take_append_of_le_length hold]
        exact hpeak'
    · refine ⟨i, done.length, peak, point, List.getElem?_concat_length, ?_,
        hunder, rfl⟩
      rw [hwhole]
      exact h.kept hunder

/-- The rest of the pass. -/
theorem longestFrom_isGreatest (rest : List EquityPoint) :
    ∀ (done : List EquityPoint) (i : Nat) (peak : EquityPoint) (longest : ℚ),
      LastHigh done i peak → IsGreatest (insert 0 (durations done)) longest →
      IsGreatest (insert 0 (durations (done ++ rest)))
        (longestFrom longest peak.equity peak.timestamp rest) := by
  induction rest with
  | nil =>
      intro done i peak longest h hlongest
      rw [List.append_nil]
      exact hlongest
  | cons point rest ih =>
      intro done i peak longest h hlongest
      have hsplit : done ++ point :: rest = (done ++ [point]) ++ rest := by
        rw [List.append_assoc]
        rfl
      rw [hsplit, longestFrom]
      rcases le_or_gt peak.equity point.equity with hreached | hunder
      · have hsame : durations (done ++ [point]) = durations done := by
          ext d
          rw [mem_durations_snoc h]
          exact or_iff_left (fun hnew => absurd hnew.1 (not_lt.mpr hreached))
        rw [if_pos hreached]
        refine ih _ _ point longest (h.reached hreached) ?_
        rw [hsame]
        exact hlongest
      · have hmore : durations (done ++ [point])
            = insert (point.timestamp - peak.timestamp) (durations done) := by
          ext d
          rw [mem_durations_snoc h, Set.mem_insert_iff, or_comm]
          exact or_congr_left (and_iff_right hunder)
        rw [if_neg (not_le.mpr hunder)]
        refine ih _ i peak _ (h.kept hunder) ?_
        rw [hmore, Set.insert_comm, max_comm]
        exact hlongest.insert _

theorem durations_nil : durations [] = ∅ := by
  refine Set.eq_empty_of_forall_notMem ?_
  rintro d ⟨i, j, peak, point, hpoint, -⟩
  cases hpoint

/-- One point is not below itself. -/
theorem durations_singleton (point : EquityPoint) :
    durations [point] = ∅ := by
  refine Set.eq_empty_of_forall_notMem ?_
  rintro d ⟨i, j, peak, later, hlater, hpeak, hbelow, rfl⟩
  have hwhole : [point].take (j + 1) = [point] :=
    List.take_of_length_le (by simp)
  rw [hwhole] at hpeak
  obtain ⟨-, rfl⟩ := lastHigh_unique hpeak (lastHigh_singleton point)
  rw [List.mem_singleton.mp (List.mem_of_getElem? hlater)] at hbelow
  exact absurd hbelow (lt_irrefl _)

theorem isGreatest_insert_empty : IsGreatest (insert (0 : ℚ) ∅) 0 := by
  rw [LawfulSingleton.insert_empty_eq]
  exact isGreatest_singleton

/-- The whole pass. -/
theorem maxDrawdownDuration_isGreatest (curve : List EquityPoint) :
    IsGreatest (insert 0 (durations curve)) (maxDrawdownDuration curve) := by
  cases curve with
  | nil =>
      rw [durations_nil]
      exact isGreatest_insert_empty
  | cons first rest =>
      rw [maxDrawdownDuration, longestFrom, if_pos le_rfl]
      refine longestFrom_isGreatest rest [first] 0 first 0
        (lastHigh_singleton first) ?_
      rw [durations_singleton]
      exact isGreatest_insert_empty

/-- From a high to a later point that is below it. -/
theorem duration_of_clock {R : EquityPoint → EquityPoint → Prop}
    {curve : List EquityPoint} (hclock : curve.Pairwise R) {d : ℚ}
    (hd : d ∈ durations curve) : ∃ peak point : EquityPoint, R peak point ∧
      d = point.timestamp - peak.timestamp := by
  obtain ⟨i, j, peak, point, hpoint, hpeak, hbelow, rfl⟩ := hd
  obtain ⟨hplace, hhere⟩ := hpeak.of_take
  have hlt : i < j := by
    refine lt_of_le_of_ne hplace ?_
    rintro rfl
    rw [hhere] at hpoint
    cases hpoint
    exact lt_irrefl _ hbelow
  obtain ⟨hi, rfl⟩ := List.getElem?_eq_some_iff.mp hhere
  obtain ⟨hj, rfl⟩ := List.getElem?_eq_some_iff.mp hpoint
  exact ⟨_, _, List.pairwise_iff_getElem.mp hclock i j hi hj hlt, rfl⟩

/-- A curve has fallen exactly when it has been under water. -/
theorem exists_decline_iff (curve : List EquityPoint) :
    (∃ d ∈ declines curve, d < 0) ↔ (durations curve).Nonempty := by
  constructor
  · rintro ⟨d, ⟨i, j, earlier, later, hij, hearlier, hlater, rfl⟩, hneg⟩
    obtain ⟨i', peak, hpeak, -⟩ := drawdownSeries_getElem? hlater
    have hhigh := hpeak.le_of_take hij hearlier
    exact ⟨_, i', j, peak, later, hlater, hpeak, by linarith, rfl⟩
  · rintro ⟨d, i, j, peak, point, hpoint, hpeak, hbelow, -⟩
    obtain ⟨hplace, hhere⟩ := hpeak.of_take
    exact ⟨_, ⟨i, j, peak, point, hplace, hhere, hpoint, rfl⟩,
      sub_neg.mpr hbelow⟩

/-- **THE ONE-PASS METRICS ARE WHAT THEY MEAN**: maximum drawdown is the least
    of the falls between any two points in their order, its duration the
    greatest of the times from a last high to a point below it; and on a clock
    that moves, one is there exactly when the other is. -/
theorem drawdown_metrics (curve : List EquityPoint)
    (hclock : curve.Pairwise (fun a b => a.timestamp ≤ b.timestamp)) :
    (curve = [] → maxDrawdown curve = 0) ∧
    (curve ≠ [] → IsLeast (declines curve) (maxDrawdown curve)) ∧
    (durations curve = ∅ → maxDrawdownDuration curve = 0) ∧
    ((durations curve).Nonempty →
      IsGreatest (durations curve) (maxDrawdownDuration curve)) ∧
    (curve.Pairwise (fun a b => a.timestamp < b.timestamp) →
      (maxDrawdown curve < 0 ↔ 0 < maxDrawdownDuration curve)) := by
  obtain ⟨hmem, hgreatest⟩ := maxDrawdownDuration_isGreatest curve
  refine ⟨?_, maxDrawdown_isLeast, ?_, ?_, ?_⟩
  · rintro rfl
    rfl
  · intro hnone
    rw [hnone] at hmem
    exact hmem.resolve_right (Set.notMem_empty _)
  · rintro ⟨d, hd⟩
    refine ⟨?_, fun d' hd' => hgreatest (Set.mem_insert_of_mem _ hd')⟩
    -- a zero is one of the times, since none of them is negative
    rcases hmem with hzero | hmem
    · obtain ⟨peak, point, hle, hdiff⟩ := duration_of_clock hclock hd
      have hlow : 0 ≤ d := by rw [hdiff]; exact sub_nonneg.mpr hle
      have hhigh : d ≤ 0 := hzero ▸ hgreatest (Set.mem_insert_of_mem _ hd)
      rw [hzero, ← le_antisymm hhigh hlow]
      exact hd
    · exact hmem
  · intro hstrict
    have hfallen : maxDrawdown curve < 0 ↔ ∃ d ∈ declines curve, d < 0 := by
      by_cases hsome : curve = []
      · subst hsome
        refine iff_of_false (lt_irrefl 0) ?_
        rintro ⟨d, ⟨i, j, earlier, later, -, hearlier, -⟩, -⟩
        cases hearlier
      · obtain ⟨hleast, hlower⟩ := maxDrawdown_isLeast hsome
        exact ⟨fun hneg => ⟨_, hleast, hneg⟩,
          fun ⟨d, hd, hneg⟩ => lt_of_le_of_lt (hlower hd) hneg⟩
    rw [hfallen, exists_decline_iff]
    constructor
    · rintro ⟨d, hd⟩
      obtain ⟨peak, point, hlt, hdiff⟩ := duration_of_clock hstrict hd
      have hpos : 0 < d := by rw [hdiff]; exact sub_pos.mpr hlt
      exact lt_of_lt_of_le hpos (hgreatest (Set.mem_insert_of_mem _ hd))
    · intro hpos
      exact ⟨_, hmem.resolve_left hpos.ne'⟩

/-- A peak that is reached again, and a fall from there that is not made up
    for. -/
def underwater : List EquityPoint :=
  [⟨0, 100⟩, ⟨1, 90⟩, ⟨2, 80⟩, ⟨3, 95⟩, ⟨4, 100⟩, ⟨5, 70⟩]

theorem drawdown_metrics_underwater :
    IsLeast (declines underwater) (-30) ∧
      (maxDrawdown underwater < 0 ↔ 0 < maxDrawdownDuration underwater) := by
  obtain ⟨-, hleast, -, -, hboth⟩ :=
    drawdown_metrics underwater (by decide +kernel)
  have hvalue : maxDrawdown underwater = -30 := by decide +kernel
  refine ⟨?_, hboth (by decide +kernel)⟩
  rw [← hvalue]
  exact hleast (List.cons_ne_nil _ _)

end OsxReport
