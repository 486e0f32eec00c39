import OsborneX.OrderbookModel
import OsborneX.PriceModel

/-! # The full-fill check — a countdown over the level aggregates

    `CanFullyFill` visits the aggregates in the order the unordered map keeps
    them, passes over the prices that are out of range, and counts the quantity
    down on a 32-bit number until a level covers what is left.

    The tests that pass over a price ask whether it is out of range.  A NaN is
    beyond no price, so an entry under a NaN is counted. -/

namespace OsxFullFill

open OsxOrderbook OsxPrice

variable {P : Type}

/-- The quantity of the entries at some prices. -/
def quantityAt (here : P → Prop) [DecidablePred here]
    (levels : List (P × LevelData)) : Nat :=
  ((levels.filter (fun e => here e.1)).map (fun e => e.2.quantity)).sum

section Quantity

variable {here : P → Prop} [DecidablePred here]

@[simp] theorem quantityAt_nil : quantityAt here [] = 0 := rfl

theorem quantityAt_cons (level : P) (data : LevelData)
    (rest : List (P × LevelData)) :
    quantityAt here ((level, data) :: rest)
      = (if here level then data.quantity else 0) + quantityAt here rest := by
  rw [quantityAt, List.filter_cons]
  by_cases hhere : here level
  · rw [if_pos (decide_eq_true hhere), if_pos hhere]
    rfl
  · rw [if_neg (by simpa using hhere), if_neg hhere, zero_add]
    rfl

/-- In whatever order the entries come. -/
theorem quantityAt_perm {levels levels' : List (P × LevelData)}
    (h : levels.Perm levels') :
    quantityAt here levels = quantityAt here levels' :=
  ((h.filter _).map _).sum_eq

/-- A price that is one of two kinds is counted once. -/
theorem quantityAt_or {one other : P → Prop} [DecidablePred one]
    [DecidablePred other] (h : ∀ level, here level ↔ one level ∨ other level)
    (hnot : ∀ level, one level → ¬ other level)
    (levels : List (P × LevelData)) :
    quantityAt here levels
      = quantityAt one levels + quantityAt other levels := by
  induction levels with
  | nil => rfl
  | cons e rest ih =>
      obtain ⟨level, data⟩ := e
      rw [quantityAt_cons, quantityAt_cons, quantityAt_cons, ih]
      by_cases hone : one level
      · rw [if_pos ((h level).mpr (Or.inl hone)), if_pos hone,
          if_neg (hnot level hone)]
        omega
      · by_cases hother : other level
        · rw [if_pos ((h level).mpr (Or.inr hother)), if_neg hone,
            if_pos hother]
          omega
        · rw [if_neg (mt (h level).mp (not_or.mpr ⟨hone, hother⟩)),
            if_neg hone, if_neg hother]
          omega

end Quantity

/-! ## The loop -/

section Countdown

variable [LT P] [DecidableLT P] {side : Side} {threshold : Option P} {price : P}

/-- The prices at which the loop goes on to the next entry. -/
def Passes (side : Side) (threshold : Option P) (price level : P) : Prop :=
  (∃ best ∈ threshold, (side = .buy ∧ best > level) ∨
      (side = .sell ∧ best < level)) ∨
    (side = .buy ∧ level > price) ∨ (side = .sell ∧ level < price)

instance (side : Side) (threshold : Option P) (price level : P) :
    Decidable (Passes side threshold price level) :=
  inferInstanceAs (Decidable (_ ∨ _))

/-- The loop on its 32-bit counter: its answer, and the operands of every
    subtraction it makes on the way. -/
def countdown (side : Side) (threshold : Option P) (price : P) :
    Nat → List (P × LevelData) → Bool × List (Nat × Nat)
  | _, [] => (false, [])
  | quantity, (levelPrice, levelData) :: rest =>
      if Passes side threshold price levelPrice then
        countdown side threshold price quantity rest
      else if quantity ≤ levelData.quantity then (true, [])
      else
        let (answer, subtractions) := countdown side threshold price
          (wrapSub quantity levelData.quantity) rest
        (answer, (quantity, levelData.quantity) :: subtractions)

/-- A subtraction that is not below zero is exact. -/
theorem wrapSub_eq {a b : Nat} (hle : b ≤ a) (hword : a < 2 ^ 32) :
    wrapSub a b = a - b := by
  rw [wrapSub, Nat.mod_eq_of_lt (lt_of_le_of_lt hle hword)]
  have hshift : a + (2 ^ 32 - b) = a - b + 2 ^ 32 := by omega
  rw [hshift, Nat.add_mod_right]
  exact Nat.mod_eq_of_lt (by omega)

theorem fillsFrom_cons (quantity : Nat) (level : P) (data : LevelData)
    (rest : List (P × LevelData)) :
    Orderbook.fillsFrom side threshold price quantity ((level, data) :: rest) =
      if Passes side threshold price level then
        Orderbook.fillsFrom side threshold price quantity rest
      else if quantity ≤ data.quantity then true
      else Orderbook.fillsFrom side threshold price
        (quantity - data.quantity) rest := by
  rw [Orderbook.fillsFrom]
  by_cases hpasses : Passes side threshold price level
  · rw [if_pos hpasses, if_pos (show _ ∨ _ from hpasses)]
  · rw [if_neg hpasses, if_neg (show ¬ (_ ∨ _) from hpasses)]

/-- **NO SUBTRACTION WRAPS**, so the counter counts as a number does. -/
theorem countdown_exact (levels : List (P × LevelData)) :
    ∀ {quantity : Nat}, quantity < 2 ^ 32 →
      (countdown side threshold price quantity levels).1
          = Orderbook.fillsFrom side threshold price quantity levels ∧
        ∀ s ∈ (countdown side threshold price quantity levels).2,
          s.2 < s.1 := by
  induction levels with
  | nil =>
      intro quantity hword
      exact ⟨rfl, fun s hs => (by cases hs)⟩
  | cons e rest ih =>
      obtain ⟨level, data⟩ := e
      intro quantity hword
      rw [countdown, fillsFrom_cons]
      by_cases hpasses : Passes side threshold price level
      · rw [if_pos hpasses, if_pos hpasses]
        exact ih hword
      · rw [if_neg hpasses, if_neg hpasses]
        by_cases hcovers : quantity ≤ data.quantity
        · rw [if_pos hcovers, if_pos hcovers]
          exact ⟨rfl, fun s hs => (by cases hs)⟩
        · obtain ⟨hanswer, hsubs⟩ := @ih (quantity - data.quantity) (by omega)
          rw [if_neg hcovers, if_neg hcovers,
            wrapSub_eq (by omega) hword]
          refine ⟨hanswer, fun s hs => ?_⟩
          rcases List.mem_cons.mp hs with rfl | hs
          · exact not_le.mp hcovers
          · exact hsubs s hs

/-- The quantity of the entries it does not pass over. -/
def counted (side : Side) (threshold : Option P) (price : P)
    (levels : List (P × LevelData)) : Nat :=
  quantityAt (fun level => ¬ Passes side threshold price level) levels

theorem counted_cons (level : P) (data : LevelData)
    (rest : List (P × LevelData)) :
    counted side threshold price ((level, data) :: rest)
      = (if Passes side threshold price level then 0 else data.quantity)
        + counted side threshold price rest := by
  rw [counted, quantityAt_cons, ite_not]
  rfl

/-- The loop asks whether the counted entries reach the quantity, in whatever
    order it meets them. -/
theorem fillsFrom_iff (levels : List (P × LevelData)) :
    ∀ {quantity : Nat}, 0 < quantity →
      (Orderbook.fillsFrom side threshold price quantity levels = true ↔
        quantity ≤ counted side threshold price levels) := by
  induction levels with
  | nil =>
      intro quantity hpos
      rw [counted, quantityAt_nil, Orderbook.fillsFrom]
      constructor
      · intro h; cases h
      · intro h; omega
  | cons e rest ih =>
      obtain ⟨level, data⟩ := e
      intro quantity hpos
      rw [fillsFrom_cons, counted_cons]
      by_cases hpasses : Passes side threshold price level
      · rw [if_pos hpasses, if_pos hpasses, zero_add]
        exact ih hpos
      · rw [if_neg hpasses, if_neg hpasses]
        by_cases hcovers : quantity ≤ data.quantity
        · rw [if_pos hcovers]
          exact ⟨fun _ => by omega, fun _ => rfl⟩
        · rw [if_neg hcovers, ih (by omega)]
          omega

end Countdown

/-! ## The check -/

section Check

variable [LT P] [DecidableLT P] [LE P] [DecidableLE P] [BEq P]

/-- The best price on the other side. -/
def thresholdOf (b : Orderbook P) : Side → Except Fault (Option P)
  | .buy => .ok (b.asks.begin?.map Prod.fst)
  | .sell => .ok (b.bids.begin?.map Prod.fst)
  | .other _ => .error .unreachable

/-- `CanFullyFill` on its 32-bit counter, with the entries in some order. -/
def canFullyFillOver (b : Orderbook P) (levels : List (P × LevelData))
    (side : Side) (price : P) (quantity : Nat) :
    Except Fault (Bool × List (Nat × Nat)) := do
  if !(← b.canMatch side price) then
    return (false, [])
  else
    return countdown side (← thresholdOf b side) price quantity levels

variable {b : Orderbook P} {side : Side} {price : P} {quantity : Nat}

/-- What comes of the check, whether or not the best price is acceptable. -/
theorem canFullyFillOver_cases (b : Orderbook P)
    (levels : List (P × LevelData)) (side : Side) (price : P)
    (quantity : Nat) :
    (∃ fault, b.canMatch side price = .error fault ∧
      canFullyFillOver b levels side price quantity = .error fault ∧
      b.canFullyFill side price quantity = .error fault) ∨
    (b.canMatch side price = .ok false ∧
      canFullyFillOver b levels side price quantity = .ok (false, []) ∧
      b.canFullyFill side price quantity = .ok false) ∨
    ∃ best, b.canMatch side price = .ok true ∧ thresholdOf b side = .ok best ∧
      canFullyFillOver b levels side price quantity
        = .ok (countdown side best price quantity levels) ∧
      b.canFullyFill side price quantity = .ok
        (Orderbook.fillsFrom side best price quantity b.levelData.entries) := by
  rw [canFullyFillOver, Orderbook.canFullyFill]
  cases hmatch : b.canMatch side price with
  | error fault => exact Or.inl ⟨fault, rfl, rfl, rfl⟩
  | ok can =>
      cases can with
      | false => exact Or.inr (Or.inl ⟨rfl, rfl, rfl⟩)
      | true =>
          cases side with
          | buy => exact Or.inr (Or.inr ⟨_, rfl, rfl, rfl, rfl⟩)
          | sell => exact Or.inr (Or.inr ⟨_, rfl, rfl, rfl, rfl⟩)
          | other value => cases hmatch

/-- Whatever the order of the entries, the answer is that of the model. -/
theorem answer_eq (hpos : 0 < quantity) (hword : quantity < 2 ^ 32)
    {levels : List (P × LevelData)} (h : levels.Perm b.levelData.entries) :
    (canFullyFillOver b levels side price quantity).map Prod.fst
      = b.canFullyFill side price quantity := by
  rcases canFullyFillOver_cases b levels side price quantity with
    ⟨fault, -, hover, hmodel⟩ | ⟨-, hover, hmodel⟩ | ⟨best, -, -, hover, hmodel⟩
  · rw [hover, hmodel]
    rfl
  · rw [hover, hmodel]
    rfl
  · have hsame : Orderbook.fillsFrom side best price quantity levels
        = Orderbook.fillsFrom side best price quantity b.levelData.entries := by
      rw [Bool.eq_iff_iff, fillsFrom_iff levels hpos, fillsFrom_iff _ hpos,
        counted, quantityAt_perm h]
      rfl
    rw [hover, hmodel, ← hsame, ← (countdown_exact levels hword).1]
    rfl

/-- No subtraction of the check wraps. -/
theorem subtractions_exact (hword : quantity < 2 ^ 32)
    {levels : List (P × LevelData)} {answer : Bool}
    {subtractions : List (Nat × Nat)}
    (h : canFullyFillOver b levels side price quantity
      = .ok (answer, subtractions)) : ∀ s ∈ subtractions, s.2 < s.1 := by
  rcases canFullyFillOver_cases b levels side price quantity with
    ⟨fault, -, hover, -⟩ | ⟨-, hover, -⟩ | ⟨best, -, -, hover, -⟩
  · rw [hover] at h
    cases h
  · rw [hover] at h
    cases h
    intro s hs
    cases hs
  · rw [hover] at h
    have hexact : ∀ s ∈ (countdown side best price quantity levels).2,
        s.2 < s.1 := (countdown_exact levels hword).2
    rw [Except.ok.inj h] at hexact
    exact hexact

end Check

/-! ## Prices on the wire -/

/-- From the best opposite price to the limit, both included. -/
def Between (b : Orderbook Double) (side : Side) (price level : Double) : Prop :=
  match side with
  | .buy => ∃ best ∈ b.asks.begin?.map Prod.fst, best ≤ level ∧ level ≤ price
  | .sell => ∃ best ∈ b.bids.begin?.map Prod.fst, price ≤ level ∧ level ≤ best
  | .other _ => False

instance (b : Orderbook Double) (side : Side) (price level : Double) :
    Decidable (Between b side price level) :=
  match side with
  | .buy => inferInstanceAs (Decidable (∃ best ∈ _, _))
  | .sell => inferInstanceAs (Decidable (∃ best ∈ _, _))
  | .other _ => inferInstanceAs (Decidable False)

/-- What it takes not to be greater. -/
theorem not_gt_iff (a b : Double) :
    ¬ a > b ↔ a ≤ b ∨ a.isNaN = true ∨ b.isNaN = true := by
  cases ha : a.isNaN with
  | true =>
      refine iff_of_true (fun h => ?_) (Or.inr (Or.inl rfl))
      exact absurd h.2.1 (by rw [ha]; exact Bool.noConfusion)
  | false =>
      cases hb : b.isNaN with
      | true =>
          refine iff_of_true (fun h => ?_) (Or.inr (Or.inr rfl))
          exact absurd h.1 (by rw [hb]; exact Bool.noConfusion)
      | false =>
          rw [gt_iff_lt, Double.lt_iff hb ha, Double.le_iff ha hb, not_lt]
          simp

variable {b : Orderbook Double} {side : Side} {price : Double}
  {quantity : Nat}

theorem isNaN_of_between {level : Double} (h : Between b side price level) :
    level.isNaN = false := by
  cases side with
  | buy =>
      obtain ⟨best, -, hle, -⟩ := h
      exact hle.2.1
  | sell =>
      obtain ⟨best, -, hle, -⟩ := h
      exact hle.2.1
  | other value => exact False.elim h

/-- Where the best price is acceptable, the loop counts the entries in range
    and those under a NaN. -/
theorem not_passes_iff {best : Option Double}
    (hmatch : b.canMatch side price = .ok true)
    (hbest : thresholdOf b side = .ok best) (level : Double) :
    ¬ Passes side best price level ↔
      Between b side price level ∨ level.isNaN = true := by
  cases side with
  | buy =>
      rw [Orderbook.canMatch] at hmatch
      cases hbegin : b.asks.begin? with
      | none =>
          rw [hbegin] at hmatch
          cases hmatch
      | some e =>
          obtain ⟨ask, orders⟩ := e
          rw [hbegin] at hmatch
          have hle : ask ≤ price := of_decide_eq_true (Except.ok.inj hmatch)
          have hcond : Passes .buy best price level ↔
              ask > level ∨ level > price := by
            rw [thresholdOf, hbegin] at hbest
            rw [← Except.ok.inj hbest]
            simp [Passes]
          have hrange : Between b .buy price level ↔
              ask ≤ level ∧ level ≤ price := by
            rw [Between, hbegin]
            simp
          rw [hcond, hrange, not_or, not_gt_iff, not_gt_iff, hle.1, hle.2.1]
          simp only [Bool.false_eq_true, false_or, or_false]
          exact and_or_right.symm
  | sell =>
      rw [Orderbook.canMatch] at hmatch
      cases hbegin : b.bids.begin? with
      | none =>
          rw [hbegin] at hmatch
          cases hmatch
      | some e =>
          obtain ⟨bid, orders⟩ := e
          rw [hbegin] at hmatch
          have hle : price ≤ bid := of_decide_eq_true (Except.ok.inj hmatch)
          have hcond : Passes .sell best price level ↔
              level > bid ∨ price > level := by
            rw [thresholdOf, hbegin] at hbest
            rw [← Except.ok.inj hbest]
            simp [Passes]
          have hrange : Between b .sell price level ↔
              price ≤ level ∧ level ≤ bid := by
            rw [Between, hbegin]
            simp
          rw [hcond, hrange, not_or, not_gt_iff, not_gt_iff, hle.1, hle.2.1]
          simp only [Bool.false_eq_true, false_or, or_false]
          rw [and_or_right, and_comm]
  | other value => cases hmatch

/-- What the aggregates hold from the best opposite price to the limit. -/
def inRange (b : Orderbook Double) (side : Side) (price : Double) : Nat :=
  quantityAt (Between b side price) b.levelData.entries

/-- What they hold under NaNs. -/
def underNaN (b : Orderbook Double) : Nat :=
  quantityAt (fun level => level.isNaN = true) b.levelData.entries

/-- The check counts both. -/
theorem canFullyFill_true_iff (hpos : 0 < quantity) :
    b.canFullyFill side price quantity = .ok true ↔
      b.canMatch side price = .ok true ∧
        quantity ≤ inRange b side price + underNaN b := by
  rcases canFullyFillOver_cases b b.levelData.entries side price quantity with
    ⟨fault, hmatch, -, hcheck⟩ | ⟨hmatch, -, hcheck⟩ |
    ⟨best, hmatch, hbest, -, hcheck⟩
  · rw [hmatch, hcheck]
    exact iff_of_false (fun h => by cases h) (fun h => by cases h.1)
  · rw [hmatch, hcheck]
    exact iff_of_false (fun h => by cases h) (fun h => by cases h.1)
  · have hcounted := quantityAt_or (not_passes_iff hmatch hbest)
      (fun level hrange hnan => by
        rw [isNaN_of_between hrange] at hnan
        cases hnan) b.levelData.entries
    rw [hcheck, Except.ok.injEq, fillsFrom_iff _ hpos, counted, hcounted,
      and_iff_right hmatch]
    rfl

/-- **THE CHECK IS EXACT**, in every order of the entries and with no
    subtraction wrapping, exactly when the entries under NaNs do not tip it:
    in particular where there are none. -/
theorem canFullyFill_exact_iff (b : Orderbook Double) (side : Side)
    (price : Double) {quantity : Nat} (hpos : 0 < quantity)
    (hword : quantity < 2 ^ 32) :
    (∀ levels, levels.Perm b.levelData.entries →
      ((∃ subtractions, canFullyFillOver b levels side price quantity
          = .ok (true, subtractions)) ↔
        b.canMatch side price = .ok true ∧
          quantity ≤ inRange b side price) ∧
      (∀ answer subtractions, canFullyFillOver b levels side price quantity
          = .ok (answer, subtractions) → ∀ s ∈ subtractions, s.2 < s.1) ∧
      ∀ levels', levels'.Perm b.levelData.entries →
        (canFullyFillOver b levels side price quantity).map Prod.fst
          = (canFullyFillOver b levels' side price quantity).map Prod.fst) ↔
    (b.canMatch side price = .ok true → quantity ≤ inRange b side price ∨
      inRange b side price + underNaN b < quantity) := by
  have htrue : ∀ levels, levels.Perm b.levelData.entries →
      ((∃ subtractions, canFullyFillOver b levels side price quantity
          = .ok (true, subtractions)) ↔
        b.canMatch side price = .ok true ∧
          quantity ≤ inRange b side price + underNaN b) := by
    intro levels hperm
    rw [← canFullyFill_true_iff hpos, ← answer_eq hpos hword hperm]
    constructor
    · rintro ⟨subtractions, hanswer⟩
      rw [hanswer]
      rfl
    · intro hanswer
      obtain ⟨⟨answer, subtractions⟩, hover, rfl⟩ := Execution.map_ok hanswer
      exact ⟨subtractions, hover⟩
  constructor
  · intro hexact hmatch
    have hone := (hexact b.levelData.entries (List.Perm.refl _)).1
    rw [htrue _ (List.Perm.refl _)] at hone
    by_contra htips
    rw [not_or, not_lt] at htips
    exact htips.1 (hone.mp ⟨hmatch, htips.2⟩).2
  · intro hspared levels hperm
    refine ⟨?_, fun answer subtractions => subtractions_exact hword, ?_⟩
    · rw [htrue levels hperm]
      refine and_congr_right (fun hmatch => ?_)
      rcases hspared hmatch with henough | hshort
      · exact iff_of_true (by omega) henough
      · exact iff_of_false (by omega) (by omega)
    · intro levels' hperm'
      rw [answer_eq hpos hword hperm, answer_eq hpos hword hperm']

/-- A book after some calls. -/
def bookOf (calls : List (Call Double)) : Orderbook Double :=
  match Orderbook.empty.run calls with
  | .ok (b, _) => b
  | .error _ => .empty

/-- A bid of 1 at 101, asks of 2 at 102 and of 3 at 103. -/
def quoted : List (Call Double) :=
  [.addOrder .goodTillCancel 1 .buy ⟨0x4059400000000000⟩ 1,
    .addOrder .goodTillCancel 2 .sell ⟨0x4059800000000000⟩ 2,
    .addOrder .goodTillCancel 3 .sell ⟨0x4059C00000000000⟩ 3]

theorem canFullyFill_exact_quoted :
    ∃ subtractions, canFullyFillOver (bookOf quoted)
      (bookOf quoted).levelData.entries.reverse .buy
      ⟨0x4059C00000000000⟩ 5 = .ok (true, subtractions) := by
  have henough : 5 ≤ inRange (bookOf quoted) .buy ⟨0x4059C00000000000⟩ := by
    decide +kernel
  exact ((canFullyFill_exact_iff (bookOf quoted) .buy ⟨0x4059C00000000000⟩
    (by decide) (by decide)).mpr (fun _ => Or.inl henough) _
    (List.reverse_perm _)).1.mpr ⟨rfl, henough⟩

/-- A bid of 1 at 101, an ask of 2 at 102 and a bid of 5 at NaN. -/
def quotedNaN : List (Call Double) :=
  [.addOrder .goodTillCancel 1 .buy ⟨0x4059400000000000⟩ 1,
    .addOrder .goodTillCancel 2 .sell ⟨0x4059800000000000⟩ 2,
    .addOrder .goodTillCancel 3 .buy .quietNaN 5]

/-- The bid at NaN is counted among the asks from 102 to 102. -/
theorem canFullyFill_countsNaN :
    ∃ b tss, Orderbook.empty.run quotedNaN = .ok (b, tss) ∧
      (∀ e ∈ b.levelData.entries, e.2.quantity < 2 ^ 32) ∧
      inRange b .buy ⟨0x4059800000000000⟩ = 2 ∧
      ¬ (b.canFullyFill .buy ⟨0x4059800000000000⟩ 5 = .ok true ↔
        b.canMatch .buy ⟨0x4059800000000000⟩ = .ok true ∧
          5 ≤ inRange b .buy ⟨0x4059800000000000⟩) := by
  refine ⟨_, _, rfl, by decide +kernel, by decide +kernel, fun h => ?_⟩
  exact absurd (h.mp rfl).2 (by decide +kernel)

end OsxFullFill
