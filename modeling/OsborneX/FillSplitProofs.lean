import OsborneX.PositionProofs

/-! # Split fills — one execution, several prints

    One order's execution comes as several prints at one price.  Where a print
    ends may fall before, at or after the point where a position is closed, so
    the prints go through other branches of the tracker than the whole fill
    does.  The books come out the same. -/

namespace OsxPosition

/-! ## A fill against one position -/

/-- The direction of a fill. -/
def Side.sign : Side → ℚ
  | .buy => 1
  | .sell => -1

@[simp] theorem Side.sign_mul_sign (side : Side) :
    side.sign * side.sign = 1 := by
  cases side <;> simp [Side.sign]

theorem Side.sign_ne_zero (side : Side) : side.sign ≠ 0 := by
  cases side <;> simp [Side.sign]

theorem Fill.signedQty_eq (fill : Fill) :
    fill.signedQty = fill.side.sign * fill.quantity := by
  rw [Fill.signedQty]
  cases fill.side <;> simp [Side.sign]

/-- The position as seen along the fill: negative when the fill closes it. -/
def ahead (state : PositionState) (fill : Fill) : ℚ :=
  fill.side.sign * state.quantity

/-- Which branch `apply` takes. -/
theorem applyTo_eq {state : PositionState} {fill : Fill}
    (hpos : 0 < fill.quantity) :
    applyTo state fill =
      if 0 ≤ ahead state fill then openOrAdd state fill.price fill.signedQty
      else reduceCloseOrReverse state fill.price fill.signedQty := by
  have hbranch : (state.quantity = 0 ∨
      decide (state.quantity > 0) = decide (fill.signedQty > 0)) ↔
        0 ≤ ahead state fill := by
    rw [ahead, Fill.signedQty_eq, decide_eq_decide]
    rcases lt_trichotomy state.quantity 0 with hshort | hflat | hlong
    · cases fill.side with
      | buy => simp [Side.sign, hshort.ne, hshort.not_gt, hshort.not_ge, hpos]
      | sell => simp [Side.sign, hshort.ne, hshort.le, hshort.not_gt, hpos.le]
    · simp [hflat]
    · cases fill.side with
      | buy => simp [Side.sign, hlong, hlong.le, hpos]
      | sell => simp [Side.sign, hlong.ne', hlong, hpos.not_gt]
  rw [applyTo]
  simp only [hbranch]

/-- Flat, or in the fill's own direction: nothing is booked. -/
theorem applyTo_adds {state : PositionState} (fill : Fill)
    (hpos : 0 < fill.quantity) (hahead : 0 ≤ ahead state fill) :
    state.quantity + fill.signedQty ≠ 0 ∧
    applyTo state fill =
      ({ quantity := state.quantity + fill.signedQty
         averageCost := (state.averageCost * state.quantity
           + fill.price * fill.signedQty) / (state.quantity + fill.signedQty)
         realizedPnl := state.realizedPnl }, 0) := by
  have hopen : state.quantity + fill.signedQty ≠ 0 := by
    intro hzero
    have halong : fill.side.sign * (state.quantity + fill.signedQty)
        = ahead state fill + fill.quantity := by
      rw [Fill.signedQty_eq, mul_add, ← mul_assoc, Side.sign_mul_sign, one_mul]
      rfl
    rw [hzero, mul_zero] at halong
    linarith
  refine ⟨hopen, ?_⟩
  rw [applyTo_eq hpos, if_pos hahead, openOrAdd]
  simp only [if_pos hopen]

/-- Against the position: what is closed is booked at the average cost. -/
theorem applyTo_closes {state : PositionState} (fill : Fill)
    (hpos : 0 < fill.quantity) (hahead : ahead state fill < 0) :
    applyTo state fill =
      let realized := min fill.quantity (-ahead state fill) * fill.side.sign
        * (state.averageCost - fill.price)
      ({ quantity := state.quantity + fill.signedQty
         averageCost := if -ahead state fill < fill.quantity then fill.price
           else if fill.quantity = -ahead state fill then 0
           else state.averageCost
         realizedPnl := state.realizedPnl + realized }, realized) := by
  have hfill : |fill.signedQty| = fill.quantity := by
    rw [Fill.signedQty_eq]
    cases fill.side <;> simp [Side.sign, abs_of_pos hpos]
  have hopen : |state.quantity| = -ahead state fill ∧
      (if state.quantity > 0 then (1 : ℚ) else -1) = -fill.side.sign ∧
      (fill.signedQty + state.quantity = 0 ↔
        fill.quantity = -ahead state fill) := by
    rw [ahead] at hahead ⊢
    rw [Fill.signedQty_eq]
    generalize fill.side = side at hahead ⊢
    cases side with
    | buy =>
        have hshort : state.quantity < 0 := by simpa [Side.sign] using hahead
        refine ⟨by simp [Side.sign, abs_of_neg hshort], ?_, ?_⟩
        · simp [Side.sign, hshort.le]
        · simp [Side.sign, add_eq_zero_iff_eq_neg]
    | sell =>
        have hlong : 0 < state.quantity := by simpa [Side.sign] using hahead
        refine ⟨by simp [Side.sign, abs_of_pos hlong], ?_, ?_⟩
        · simp [Side.sign, hlong]
        · simp [Side.sign, neg_add_eq_zero]
  obtain ⟨habs, hdirection, hclosed⟩ := hopen
  have hrealized : min fill.quantity (-ahead state fill) * -fill.side.sign
      * (fill.price - state.averageCost)
      = min fill.quantity (-ahead state fill) * fill.side.sign
        * (state.averageCost - fill.price) := by ring
  rw [applyTo_eq hpos, if_neg (not_le.mpr hahead), reduceCloseOrReverse]
  simp only [hfill, habs, hdirection, hclosed, hrealized, gt_iff_lt]
  rw [add_comm fill.signedQty]

/-! ## Two prints -/

/-- A print of a fill: what of it was executed at once. -/
def Fill.sized (fill : Fill) (quantity : ℚ) : Fill :=
  { fill with quantity := quantity }

@[simp] theorem Fill.side_sized (fill : Fill) (q : ℚ) :
    (fill.sized q).side = fill.side := rfl

@[simp] theorem Fill.price_sized (fill : Fill) (q : ℚ) :
    (fill.sized q).price = fill.price := rfl

@[simp] theorem Fill.quantity_sized (fill : Fill) (q : ℚ) :
    (fill.sized q).quantity = q := rfl

theorem Fill.signedQty_sized (fill : Fill) (quantity : ℚ) :
    (fill.sized quantity).signedQty = fill.side.sign * quantity :=
  Fill.signedQty_eq _

@[simp] theorem ahead_sized (state : PositionState) (fill : Fill) (q : ℚ) :
    ahead state (fill.sized q) = ahead state fill := rfl

/-- A print leaves its quantity less to close. -/
theorem ahead_applyTo (state : PositionState) (fill : Fill) (q : ℚ) :
    ahead (applyTo state (fill.sized q)).1 fill = ahead state fill + q := by
  rw [ahead, (applyTo_balance state (fill.sized q)).1, Fill.signedQty_sized,
    mul_add, ← mul_assoc, Side.sign_mul_sign, one_mul]
  rfl

/-- What a fill has opened after closing a position, it opened at its price. -/
theorem fill_cost {state : PositionState} {fill : Fill} {q : ℚ} (hpos : 0 < q)
    (hcloses : ahead state fill < 0) (hfull : -ahead state fill ≤ q) :
    (applyTo state (fill.sized q)).1.averageCost
        * (applyTo state (fill.sized q)).1.quantity
      = fill.price * (applyTo state (fill.sized q)).1.quantity := by
  have hnext := ahead_applyTo state fill q
  have hclosed := applyTo_closes (fill.sized q) hpos hcloses
  rcases lt_or_eq_of_le hfull with hover | hexact
  · rw [hclosed]
    dsimp only
    rw [ahead_sized, Fill.quantity_sized, if_pos hover, Fill.price_sized]
  · have hflat : (applyTo state (fill.sized q)).1.quantity = 0 := by
      have hzero : ahead (applyTo state (fill.sized q)).1 fill = 0 := by
        rw [hnext, ← hexact, add_neg_cancel]
      exact (mul_eq_zero.mp hzero).resolve_left fill.side.sign_ne_zero
    rw [hflat, mul_zero, mul_zero]

/-- **TWO PRINTS ARE ONE FILL**, wherever the first of them ends. -/
theorem applyTo_split (state : PositionState) (fill : Fill) {q₁ q₂ : ℚ}
    (h₁ : 0 < q₁) (h₂ : 0 < q₂) (htotal : fill.quantity = q₁ + q₂) :
    (applyTo (applyTo state (fill.sized q₁)).1 (fill.sized q₂)).1
        = (applyTo state fill).1 ∧
      (applyTo state (fill.sized q₁)).2
        + (applyTo (applyTo state (fill.sized q₁)).1 (fill.sized q₂)).2
        = (applyTo state fill).2 := by
  have hpos : 0 < fill.quantity := by linarith
  have hnext := ahead_applyTo state fill q₁
  have hmoved : fill.side.sign * q₁ + fill.side.sign * q₂
      = fill.signedQty := by
    rw [Fill.signedQty_eq, htotal, mul_add]
  rcases le_or_gt 0 (ahead state fill) with hadds | hcloses
  · -- every print adds to the position
    obtain ⟨hopen, hfirst⟩ := applyTo_adds (fill.sized q₁) h₁ hadds
    obtain ⟨-, hsecond⟩ := applyTo_adds (fill.sized q₂) h₂
      (hnext.symm ▸ add_nonneg hadds h₁.le)
    obtain ⟨-, hwhole⟩ := applyTo_adds fill hpos hadds
    rw [hsecond, hwhole, hfirst]
    simp only [Fill.signedQty_sized, add_zero, and_true,
      PositionState.mk.injEq] at hopen ⊢
    refine ⟨by rw [add_assoc, hmoved], ?_⟩
    rw [div_mul_cancel₀ _ hopen, add_assoc, add_assoc, hmoved]
    show (_ + (fill.price * _ + fill.price * _)) / _ = _
    rw [← mul_add, hmoved]
  · have hfirst := applyTo_closes (fill.sized q₁) h₁ hcloses
    have hwhole := applyTo_closes fill hpos hcloses
    rw [ahead_sized] at hfirst
    generalize hleft : -ahead state fill = left at hfirst hwhole
    have hahead : -ahead (applyTo state (fill.sized q₁)).1 (fill.sized q₂)
        = left - q₁ := by
      rw [ahead_sized, hnext, ← hleft]
      ring
    rcases lt_or_ge q₁ left with hpart | hfull
    · -- the first print leaves some of the position
      have hsecond := applyTo_closes (fill.sized q₂) h₂
        (show ahead _ _ < 0 by linarith)
      rw [hahead] at hsecond
      have hclosed : min fill.quantity left = q₁ + min q₂ (left - q₁) := by
        rw [← min_add_add_left, add_sub_cancel, htotal]
      have hreverses : left < fill.quantity ↔ left - q₁ < q₂ := by
        rw [htotal, sub_lt_iff_lt_add']
      have hflat : fill.quantity = left ↔ q₂ = left - q₁ := by
        rw [htotal, eq_sub_iff_add_eq']
      rw [hsecond, hwhole, hfirst]
      simp only [Fill.side_sized, Fill.price_sized, Fill.quantity_sized,
        Fill.signedQty_sized, not_lt.mpr hpart.le, hpart.ne,
        min_eq_left hpart.le, if_false, hclosed, hreverses, hflat,
        add_assoc, hmoved, add_mul, and_self]
    · -- the first print closes the position, the second opens one
      obtain ⟨hopen, hsecond⟩ := applyTo_adds (fill.sized q₂) h₂
        (show 0 ≤ ahead _ _ by linarith)
      have hreverses : left < fill.quantity := by linarith
      rw [fill_cost h₁ hcloses (by rw [hleft]; exact hfull),
        Fill.price_sized, ← mul_add, mul_div_assoc, div_self hopen, mul_one]
        at hsecond
      rw [hsecond, hwhole, hfirst]
      simp only [Fill.side_sized, Fill.price_sized, Fill.quantity_sized,
        Fill.signedQty_sized, min_eq_right hfull, min_eq_right hreverses.le, if_pos hreverses,
        add_zero, and_self, add_assoc, hmoved]

/-! ## Any number of prints -/

/-- The prints of one fill. -/
structure PrintsOf (whole : Fill) (prints : List Fill) : Prop where
  symbol : ∀ part ∈ prints, part.symbol = whole.symbol
  side : ∀ part ∈ prints, part.side = whole.side
  price : ∀ part ∈ prints, part.price = whole.price
  positive : ∀ part ∈ prints, 0 < part.quantity
  total : (prints.map Fill.quantity).sum = whole.quantity

/-- The clock of a print is not looked at. -/
theorem apply_eq_sized (t : PositionTracker) {whole part : Fill}
    (hsymbol : part.symbol = whole.symbol) (hside : part.side = whole.side)
    (hprice : part.price = whole.price) :
    t.apply part = t.apply (whole.sized part.quantity) := by
  obtain ⟨clock, symbol, side, price, quantity⟩ := part
  obtain rfl : symbol = whole.symbol := hsymbol
  obtain rfl : side = whole.side := hside
  obtain rfl : price = whole.price := hprice
  rfl

/-- Two prints, in the books of all symbols. -/
theorem apply_split (t : PositionTracker) (fill : Fill) {q₁ q₂ : ℚ}
    (h₁ : 0 < q₁) (h₂ : 0 < q₂) (htotal : fill.quantity = q₁ + q₂) :
    ((t.apply (fill.sized q₁)).1.apply (fill.sized q₂)).1 = (t.apply fill).1 ∧
      (t.apply (fill.sized q₁)).2
        + ((t.apply (fill.sized q₁)).1.apply (fill.sized q₂)).2
        = (t.apply fill).2 := by
  constructor
  · have hone : ∀ old : Option PositionState, _ := fun old =>
      (applyTo_split (old.getD {}) fill h₁ h₂ htotal).1
    simp only [PositionTracker.apply, Fill.sized, HashTable.upsert_upsert,
      Option.getD_some] at hone ⊢
    simp only [hone]
  · have hstate := state_apply t (fill.sized q₁) fill.symbol
    rw [if_pos (show fill.symbol = (fill.sized q₁).symbol from rfl)] at hstate
    have hbooked := (applyTo_split (t.state fill.symbol) fill h₁ h₂ htotal).2
    show _ + (applyTo ((t.apply (fill.sized q₁)).1.state fill.symbol)
      (fill.sized q₂)).2 = _
    rw [hstate]
    exact hbooked

/-- **SPLITTING A FILL DOES NOT CHANGE THE BOOKS**: the prints of a fill, at
    any sizes and applied one after the other to any tracker, leave the state
    of every symbol as the whole fill does, and book together what it books. -/
theorem prints_are_one_fill (t : PositionTracker) (whole : Fill)
    (prints : List Fill) (hprints : PrintsOf whole prints)
    (hsome : prints ≠ []) :
    (t.applyEach prints).1 = (t.apply whole).1 ∧
      (t.applyEach prints).2.sum = (t.apply whole).2 := by
  induction prints generalizing t whole with
  | nil => exact absurd rfl hsome
  | cons first rest ih =>
      obtain ⟨hsymbol, hsymbols⟩ := List.forall_mem_cons.mp hprints.symbol
      obtain ⟨hside, hsides⟩ := List.forall_mem_cons.mp hprints.side
      obtain ⟨hprice, hprices⟩ := List.forall_mem_cons.mp hprints.price
      obtain ⟨hpos, hpositive⟩ := List.forall_mem_cons.mp hprints.positive
      have htotal := hprints.total
      rw [List.map_cons, List.sum_cons] at htotal
      have hfirst := apply_eq_sized t hsymbol hside hprice
      rw [applyEach_cons, List.sum_cons]
      cases rest with
      | nil =>
          -- the last print is the fill itself
          rw [List.map_nil, List.sum_nil, add_zero] at htotal
          rw [hfirst, htotal]
          exact ⟨rfl, add_zero _⟩
      | cons second rest =>
          have hleft : 0 < ((second :: rest).map Fill.quantity).sum :=
            List.sum_pos _ (List.forall_mem_map.mpr hpositive)
              (List.cons_ne_nil _ _)
          have hrest : PrintsOf (whole.sized
              ((second :: rest).map Fill.quantity).sum) (second :: rest) :=
            ⟨hsymbols, hsides, hprices, hpositive, rfl⟩
          obtain ⟨hbooks, hbooked⟩ := ih (t.apply first).1 _ hrest
            (List.cons_ne_nil _ _)
          obtain ⟨hsplit, hsum⟩ := apply_split t whole hpos hleft htotal.symm
          rw [hbooks, hbooked, hfirst]
          exact ⟨hsplit, hsum⟩

/-- A long position of 10 is reversed by a fill of 15, in prints of which the
    second closes it exactly. -/
theorem prints_are_one_fill_reversal :
    let t := applyAll [⟨1, "A", .buy, 100, 10⟩]
    let prints := [⟨2, "A", .sell, 110, 4⟩, ⟨3, "A", .sell, 110, 6⟩,
      ⟨3, "A", .sell, 110, 5⟩]
    (t.applyEach prints).1 = (t.apply ⟨2, "A", .sell, 110, 15⟩).1 ∧
      (t.applyEach prints).2.sum = (t.apply ⟨2, "A", .sell, 110, 15⟩).2 :=
  prints_are_one_fill _ ⟨2, "A", .sell, 110, 15⟩ _
    ⟨by simp, by simp, by simp, by simp, by norm_num⟩ (List.cons_ne_nil _ _)

end OsxPosition
