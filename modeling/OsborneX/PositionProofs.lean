import OsborneX.PositionModel

/-! # Average cost is cash — what the tracker's numbers add up to

    Every branch of the tracker changes `realized - quantity * average cost` by
    the cash of the fill alone, and keeps the average cost of a flat position
    at zero where that matters.  Summed over the symbols this is the equity
    curve: cash so far plus what the open positions are worth. -/

namespace OsxPosition

/-! ## One fill -/

/-- What the books of a symbol say, apart from cash. -/
def PositionState.balance (state : PositionState) : ℚ :=
  state.realizedPnl - state.quantity * state.averageCost

theorem openOrAdd_balance (state : PositionState) (price signedQty : ℚ)
    (hflat : state.quantity + signedQty = 0 →
      state.quantity = 0 ∧ signedQty = 0) :
    (openOrAdd state price signedQty).1.quantity
        = state.quantity + signedQty ∧
      (openOrAdd state price signedQty).1.balance
        = state.balance - signedQty * price := by
  refine ⟨rfl, ?_⟩
  simp only [PositionState.balance, openOrAdd]
  by_cases hzero : state.quantity + signedQty = 0
  · obtain ⟨hquantity, hsigned⟩ := hflat hzero
    rw [hzero, hquantity, hsigned]
    ring
  · rw [if_pos hzero, mul_div_cancel₀ _ hzero]
    ring

theorem reduce_balance (state : PositionState) (price signedQty : ℚ)
    (hopposite : state.quantity > 0 ∧ signedQty ≤ 0 ∨
      state.quantity < 0 ∧ signedQty > 0) :
    (reduceCloseOrReverse state price signedQty).1.quantity
        = state.quantity + signedQty ∧
      (reduceCloseOrReverse state price signedQty).1.balance
        = state.balance - signedQty * price := by
  refine ⟨add_comm _ _, ?_⟩
  simp only [PositionState.balance, reduceCloseOrReverse]
  by_cases hreverse : |signedQty| > |state.quantity|
  · -- the whole position is closed, and the rest opened at this price
    have hclosed : min |signedQty| |state.quantity|
        * (if state.quantity > 0 then (1 : ℚ) else -1) = state.quantity := by
      rw [min_eq_right (le_of_lt hreverse)]
      rcases hopposite with ⟨hlong, -⟩ | ⟨hshort, -⟩
      · rw [if_pos hlong, abs_of_pos hlong, mul_one]
      · rw [if_neg (not_lt_of_gt hshort), abs_of_neg hshort]
        ring
    rw [if_pos hreverse, hclosed]
    ring
  · -- part of it is closed
    have hclosed : min |signedQty| |state.quantity|
        * (if state.quantity > 0 then (1 : ℚ) else -1) = -signedQty := by
      rw [min_eq_left (not_lt.mp hreverse)]
      rcases hopposite with ⟨hlong, hsell⟩ | ⟨hshort, hbuy⟩
      · rw [if_pos hlong, abs_of_nonpos hsell, mul_one]
      · rw [if_neg (not_lt_of_gt hshort), abs_of_pos hbuy]
        ring
    rw [if_neg hreverse, hclosed]
    by_cases hzero : signedQty + state.quantity = 0
    · have hquantity : state.quantity = -signedQty := by linarith
      rw [if_pos hzero, hzero, hquantity]
      ring
    · rw [if_neg hzero]
      ring

/-- **ONE FILL** moves the position by its signed quantity, and the balance by
    its cash. -/
theorem applyTo_balance (state : PositionState) (fill : Fill) :
    (applyTo state fill).1.quantity = state.quantity + fill.signedQty ∧
      (applyTo state fill).1.balance
        = state.balance - fill.signedQty * fill.price := by
  rw [applyTo]
  split
  · rename_i hsame
    refine openOrAdd_balance _ _ _ (fun hzero => ?_)
    rcases hsame with hflat | hsame
    · exact ⟨hflat, by linarith⟩
    · -- two numbers of one sign add up to zero only when both are zero
      by_cases hlong : state.quantity > 0
      · have hbuy : fill.signedQty > 0 := by
          rw [decide_eq_true hlong] at hsame
          exact of_decide_eq_true hsame.symm
        linarith
      · have hsell : ¬ fill.signedQty > 0 := by
          rw [decide_eq_false hlong] at hsame
          exact of_decide_eq_false hsame.symm
        constructor <;> linarith
  · rename_i hother
    rw [not_or] at hother
    obtain ⟨hopen, hsigns⟩ := hother
    refine reduce_balance _ _ _ ?_
    rcases lt_or_gt_of_ne hopen with hshort | hlong
    · refine Or.inr ⟨hshort, ?_⟩
      by_contra hsell
      rw [decide_eq_false (not_lt_of_gt hshort), decide_eq_false hsell]
        at hsigns
      exact hsigns rfl
    · refine Or.inl ⟨hlong, ?_⟩
      by_contra hbuy
      rw [decide_eq_true hlong, decide_eq_true (not_le.mp hbuy)] at hsigns
      exact hsigns rfl

/-! ## Cash accounting -/

/-- The fills of a symbol. -/
def fillsOf (symbol : String) (fills : List Fill) : List Fill :=
  fills.filter (fun fill => fill.symbol = symbol)

/-- What was bought of a symbol, less what was sold. -/
def netQuantity (symbol : String) (fills : List Fill) : ℚ :=
  ((fillsOf symbol fills).map Fill.signedQty).sum

/-- What was paid for a symbol, less what was received. -/
def netPaid (symbol : String) (fills : List Fill) : ℚ :=
  ((fillsOf symbol fills).map (fun fill => fill.signedQty * fill.price)).sum

/-- Money received, less money paid. -/
def cashFlow (fills : List Fill) : ℚ :=
  (fills.map (fun fill => -(fill.signedQty * fill.price))).sum

/-- What the open positions are worth. -/
def markedValue (markPrices : String → Option ℚ) (fills : List Fill) : ℚ :=
  ∑ symbol ∈ (fills.map Fill.symbol).toFinset,
    netQuantity symbol fills * (markPrices symbol).getD 0

/-- The tracker after some fills. -/
def applyAll (fills : List Fill) : PositionTracker :=
  fills.foldl (fun tracker fill => (tracker.apply fill).1) .new

theorem applyAll_snoc (fills : List Fill) (fill : Fill) :
    applyAll (fills ++ [fill]) = ((applyAll fills).apply fill).1 := by
  rw [applyAll, List.foldl_append]
  rfl

@[simp] theorem applyEach_nil (t : PositionTracker) :
    t.applyEach [] = (t, []) := rfl

@[simp] theorem applyEach_cons (t : PositionTracker) (fill : Fill)
    (fills : List Fill) : t.applyEach (fill :: fills) =
      (((t.apply fill).1.applyEach fills).1,
        (t.apply fill).2 :: ((t.apply fill).1.applyEach fills).2) := rfl

theorem state_apply (t : PositionTracker) (fill : Fill) (symbol : String) :
    (t.apply fill).1.state symbol
      = if symbol = fill.symbol then (applyTo (t.state fill.symbol) fill).1
        else t.state symbol := by
  rw [PositionTracker.state, PositionTracker.apply]
  dsimp only
  rw [HashTable.find?_upsert]
  by_cases hsymbol : symbol = fill.symbol
  · rw [if_pos hsymbol, if_pos hsymbol]
    rfl
  · rw [if_neg hsymbol, if_neg hsymbol]
    rfl

theorem fillsOf_snoc (symbol : String) (fills : List Fill) (fill : Fill) :
    fillsOf symbol (fills ++ [fill]) = fillsOf symbol fills ++
      (if symbol = fill.symbol then [fill] else []) := by
  by_cases hsymbol : symbol = fill.symbol
  · simp [fillsOf, hsymbol]
  · simp [fillsOf, hsymbol, Ne.symm hsymbol]

/-- **AVERAGE COST IS CASH**, symbol by symbol. -/
theorem applyAll_balance (fills : List Fill) (symbol : String) :
    ((applyAll fills).state symbol).quantity = netQuantity symbol fills ∧
      ((applyAll fills).state symbol).balance = -netPaid symbol fills := by
  induction fills using List.reverseRecOn with
  | nil => simp [applyAll, PositionTracker.state, PositionTracker.new,
      PositionState.balance, netQuantity, netPaid, fillsOf]
  | append_singleton fills fill ih =>
      obtain ⟨hquantity, hbalance⟩ := ih
      rw [applyAll_snoc, state_apply, netQuantity, netPaid, fillsOf_snoc]
      by_cases hsymbol : symbol = fill.symbol
      · subst hsymbol
        obtain ⟨hmoved, hcash⟩ :=
          applyTo_balance ((applyAll fills).state fill.symbol) fill
        rw [if_pos rfl, if_pos rfl, hmoved, hcash, hquantity, hbalance,
          List.map_append, List.map_append, List.sum_append, List.sum_append]
        simp only [List.map_cons, List.map_nil, List.sum_cons, List.sum_nil,
          netQuantity, netPaid]
        constructor <;> ring
      · rw [if_neg hsymbol, if_neg hsymbol, List.append_nil]
        exact ⟨hquantity, hbalance⟩

/-! ## The equity curve -/

/-- The symbols the tracker has a state for are those of the fills. -/
theorem keys_applyAll (fills : List Fill) (symbol : String) :
    symbol ∈ (applyAll fills).states.entries.map Prod.fst ↔
      symbol ∈ fills.map Fill.symbol := by
  have hfind : symbol ∈ (applyAll fills).states.entries.map Prod.fst ↔
      ((applyAll fills).states.find? symbol).isSome := by
    simp only [Option.isSome_iff_exists, HashTable.find?_eq_some_iff,
      List.mem_map, Prod.exists, exists_and_right, exists_eq_right]
  rw [hfind]
  clear hfind
  induction fills using List.reverseRecOn with
  | nil => simp [applyAll, PositionTracker.new]
  | append_singleton fills fill ih =>
      rw [applyAll_snoc, PositionTracker.apply]
      dsimp only
      rw [HashTable.find?_upsert, List.map_append, List.mem_append]
      by_cases hsymbol : symbol = fill.symbol
      · simp [hsymbol]
      · simpa [hsymbol] using ih

/-- A sum over the entries of a table, as a sum over its keys. -/
theorem sum_entries (t : PositionTracker) (g : String → PositionState → ℚ) :
    (t.states.entries.map (fun e => g e.1 e.2)).sum
      = ∑ symbol ∈ (t.states.entries.map Prod.fst).toFinset,
        g symbol (t.state symbol) := by
  rw [List.sum_toFinset _ t.states.nodup_keys, List.map_map]
  refine congrArg List.sum (List.map_congr_left (fun e he => ?_))
  have hfind : t.states.find? e.1 = some e.2 :=
    (HashTable.find?_eq_some_iff ..).mpr he
  show _ = g e.1 (t.state e.1)
  rw [PositionTracker.state, hfind]
  rfl

/-- The cash of all fills, symbol by symbol. -/
theorem sum_netPaid (symbols : Finset String) (fills : List Fill)
    (h : ∀ fill ∈ fills, fill.symbol ∈ symbols) :
    ∑ symbol ∈ symbols, -netPaid symbol fills = cashFlow fills := by
  induction fills with
  | nil => simp [netPaid, fillsOf, cashFlow]
  | cons fill fills ih =>
      obtain ⟨hfill, hfills⟩ := List.forall_mem_cons.mp h
      have hcons : ∀ symbol, -netPaid symbol (fill :: fills)
          = (if symbol = fill.symbol then -(fill.signedQty * fill.price)
              else 0) + -netPaid symbol fills := by
        intro symbol
        by_cases hsymbol : fill.symbol = symbol
        · simp [netPaid, fillsOf, hsymbol]
          ring
        · simp [netPaid, fillsOf, hsymbol, Ne.symm hsymbol]
      simp only [hcons, Finset.sum_add_distrib, Finset.sum_ite_eq', hfill,
        if_true, ih hfills]
      simp [cashFlow]

/-- **ONE POINT**: cash so far, plus what the open positions are worth. -/
theorem equity_applyAll (fills : List Fill) (markPrices : String → Option ℚ)
    (hmarks : ∀ symbol, netQuantity symbol fills ≠ 0 →
      (markPrices symbol).isSome) :
    (applyAll fills).totalRealizedPnl
        + (applyAll fills).unrealizedPnl markPrices
      = cashFlow fills + markedValue markPrices fills := by
  have hkeys : ((applyAll fills).states.entries.map Prod.fst).toFinset
      = (fills.map Fill.symbol).toFinset := by
    ext symbol
    rw [List.mem_toFinset, List.mem_toFinset, keys_applyAll]
  have hone : ∀ symbol, ((applyAll fills).state symbol).realizedPnl
      + PositionTracker.unrealizedOf markPrices symbol
        ((applyAll fills).state symbol)
      = -netPaid symbol fills
        + netQuantity symbol fills * (markPrices symbol).getD 0 := by
    intro symbol
    obtain ⟨hquantity, hbalance⟩ := applyAll_balance fills symbol
    rw [PositionState.balance] at hbalance
    rw [PositionTracker.unrealizedOf]
    by_cases hflat : ((applyAll fills).state symbol).quantity = 0
    · rw [if_pos hflat, ← hquantity, ← hbalance, hflat]
      ring
    · rw [if_neg hflat]
      have hmark := hmarks symbol (hquantity ▸ hflat)
      obtain ⟨mark, hmark⟩ := Option.isSome_iff_exists.mp hmark
      rw [hmark, ← hquantity, ← hbalance, Option.getD_some]
      ring
  have hcash : ∑ symbol ∈ (fills.map Fill.symbol).toFinset,
      -netPaid symbol fills = cashFlow fills :=
    sum_netPaid _ fills (fun fill hmem =>
      List.mem_toFinset.mpr (List.mem_map_of_mem hmem))
  rw [PositionTracker.totalRealizedPnl, PositionTracker.unrealizedPnl,
    sum_entries _ (fun _ state => state.realizedPnl), sum_entries, hkeys,
    ← Finset.sum_add_distrib, Finset.sum_congr rfl (fun symbol _ => hone symbol),
    Finset.sum_add_distrib, hcash]
  rfl

/-- The loop of the curve, from a tracker that has applied some fills. -/
theorem equityCurveFrom_getElem? (markPricesAt : ℚ → String → Option ℚ)
    (later : List Fill) :
    ∀ (before : List Fill) (i : Nat) (fill : Fill), later[i]? = some fill →
      (equityCurveFrom (some markPricesAt) (applyAll before) later)[i]?
        = some ⟨fill.timestamp,
          (applyAll (before ++ later.take (i + 1))).totalRealizedPnl +
          (applyAll (before ++ later.take (i + 1))).unrealizedPnl
            (markPricesAt fill.timestamp)⟩ := by
  induction later with
  | nil =>
      intro before i fill hget
      cases hget
  | cons first later ih =>
      intro before i fill hget
      rw [equityCurveFrom, ← applyAll_snoc]
      cases i with
      | zero =>
          cases hget
          rfl
      | succ i =>
          have hlater := ih (before ++ [first]) i fill hget
          rw [List.append_assoc] at hlater
          exact hlater

theorem length_equityCurveFrom (markPricesAt : Option (ℚ → String → Option ℚ))
    (fills : List Fill) : ∀ tracker,
      (equityCurveFrom markPricesAt tracker fills).length = fills.length := by
  induction fills with
  | nil => exact fun _ => rfl
  | cons fill fills ih =>
      intro tracker
      show (_ :: equityCurveFrom _ _ fills).length = _
      rw [List.length_cons, List.length_cons, ih]

/-- **AVERAGE-COST ACCOUNTING EQUALS CASH ACCOUNTING**: for every symbol, and
    for every point of the equity curve whose marks price the positions that
    are open there. -/
theorem averageCost_is_cash (fills : List Fill) :
    (∀ symbol, (applyAll fills).position symbol = netQuantity symbol fills ∧
      (applyAll fills).realizedPnl symbol
        - (applyAll fills).position symbol * (applyAll fills).averageCost symbol
        = -netPaid symbol fills) ∧
    ∀ markPricesAt : ℚ → String → Option ℚ,
      (buildEquityCurve fills (some markPricesAt)).length = fills.length ∧
      ∀ (i : Nat) (fill : Fill), fills[i]? = some fill →
        (∀ symbol, netQuantity symbol (fills.take (i + 1)) ≠ 0 →
          (markPricesAt fill.timestamp symbol).isSome) →
        (buildEquityCurve fills (some markPricesAt))[i]?
          = some ⟨fill.timestamp, cashFlow (fills.take (i + 1))
            + markedValue (markPricesAt fill.timestamp)
              (fills.take (i + 1))⟩ := by
  refine ⟨fun symbol => applyAll_balance fills symbol, fun markPricesAt =>
    ⟨length_equityCurveFrom _ fills _, ?_⟩⟩
  intro i fill hget hmarks
  have hpoint := equityCurveFrom_getElem? markPricesAt fills [] i fill hget
  rw [List.nil_append, equity_applyAll _ _ hmarks] at hpoint
  exact hpoint

/-- A long position is reversed while a short one in another symbol is open. -/
def reversal : List Fill :=
  [⟨1, "A", .buy, 100, 10⟩, ⟨2, "B", .sell, 50, 4⟩, ⟨3, "A", .sell, 110, 15⟩]

theorem averageCost_is_cash_reversal :
    (buildEquityCurve reversal (some (fun _ _ => some 105)))[2]?
      = some ⟨3, cashFlow reversal
        + markedValue (fun _ => some 105) reversal⟩ :=
  ((averageCost_is_cash reversal).2 (fun _ _ => some 105)).2 2
    ⟨3, "A", .sell, 110, 15⟩ rfl (fun _ _ => rfl)

end OsxPosition
