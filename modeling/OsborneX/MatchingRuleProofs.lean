import OsborneX.OutcomeProofs
import OsborneX.OrderbookModel

/-! # The rule of matching — what its parts keep of a book, all of it keeps

    `MatchOrders` fills two fronts, writes two levels back and cancels an order,
    over and over.  Whatever each of these keeps of a book (`Keeps`), the
    matching keeps, on any prices and however the orders compare; and it ends
    in no fault but theirs and its own. -/

namespace OsxMatchingRule

open OsxOrderbook Outcome

variable {P : Type} [LT P] [DecidableLT P] [BEq P]

/-- The parts of a matching keep `I`, and fault only with `F`. -/
structure Keeps (F : Fault → Prop) (I : Orderbook P → Prop) : Prop where
  outOfFuel : F .outOfFuel
  outOfRange : F .outOfRange
  emptyFront : F .emptyFront
  fills : ∀ {b : Orderbook P} (bid ask : OrderPointer),
    I b → I (b.matchFronts bid ask).1
  stores : ∀ {b : Orderbook P} (bidPrice askPrice : P)
    (bids asks : List OrderPointer),
    I b → I (b.storeBest bidPrice askPrice bids asks)
  cancels : ∀ {b : Orderbook P} (orderId : OrderId),
    I b → Ends F I (b.cancelOrderInternal orderId)

variable {F : Fault → Prop} {I : Orderbook P → Prop}

theorem Keeps.levelAt (h : Keeps F I) {lt : P → P → Prop} [DecidableRel lt]
    (levels : Levels P lt) (price : P) :
    Ends F (fun _ => True) (levelAt levels price) := by
  rw [OsxOrderbook.levelAt]
  cases levels.find? price with
  | none => exact h.outOfRange
  | some level => trivial

/-- The inner loop, by induction on its budget. -/
theorem Keeps.matchLevels (h : Keeps F I) (fuel : Nat) :
    ∀ m : Orderbook.Matched P, I m.book →
      Ends F (fun m' => I m'.book) (Orderbook.matchLevels fuel m) := by
  induction fuel with
  | zero =>
      intro m hI
      rw [Orderbook.matchLevels]
      cases m.bidsAtBestPrice with
      | nil => exact hI
      | cons bid bids =>
          cases m.asksAtBestPrice with
          | nil => exact hI
          | cons ask asks => exact h.outOfFuel
  | succ fuel ih =>
      intro m hI
      rw [Orderbook.matchLevels]
      cases m.bidsAtBestPrice with
      | nil => exact hI
      | cons bid bids =>
          cases m.asksAtBestPrice with
          | nil => exact hI
          | cons ask asks => exact ih _ (h.fills bid ask hI)

theorem Keeps.killFront (h : Keeps F I) {b : Orderbook P} (hI : I b)
    {lt : P → P → Prop} (levels : Levels P lt) :
    Ends F I (b.killFront levels) := by
  rw [Orderbook.killFront]
  cases levels.begin? with
  | none => exact hI
  | some best =>
      obtain ⟨price, level⟩ := best
      cases level with
      | nil => exact h.emptyFront
      | cons order rest =>
          exact Ends.ite (fun _ => h.cancels _ hI) (fun _ => hI)

/-- One round. -/
theorem Keeps.matchRound (h : Keeps F I) {b : Orderbook P} (hI : I b)
    (bestBidPrice bestAskPrice : P) (ts : List (Trade P)) :
    Ends F (fun r => I r.1)
      (b.matchRound bestBidPrice bestAskPrice ts) := by
  refine (h.levelAt b.bids bestBidPrice).bind (fun bids _ =>
    (h.levelAt b.asks bestAskPrice).bind (fun asks _ =>
      (h.matchLevels _ _ hI).bind (fun m hm => ?_)))
  have hstored := h.stores bestBidPrice bestAskPrice m.bidsAtBestPrice
    m.asksAtBestPrice hm
  exact (h.killFront hstored _).bind (fun b1 h1 =>
    (h.killFront h1 _).bind (fun b2 h2 => h2))

/-- The outer loop, by induction on its budget. -/
theorem Keeps.matchLoop (h : Keeps F I) (fuel : Nat) :
    ∀ (b : Orderbook P) (ts : List (Trade P)), I b →
      Ends F (fun r => I r.1) (b.matchLoop fuel ts) := by
  induction fuel with
  | zero =>
      intro b ts hI
      rw [Orderbook.matchLoop]
      cases b.bids.begin? with
      | none => exact hI
      | some bid =>
          cases b.asks.begin? with
          | none => exact hI
          | some ask => exact Ends.ite (fun _ => hI) (fun _ => h.outOfFuel)
  | succ fuel ih =>
      intro b ts hI
      rw [Orderbook.matchLoop]
      cases b.bids.begin? with
      | none => exact hI
      | some bid =>
          cases b.asks.begin? with
          | none => exact hI
          | some ask =>
              exact Ends.ite (fun _ => hI) (fun _ =>
                (h.matchRound hI _ _ _).bind (fun r hr => ih r.1 r.2 hr))

/-- **MATCHING KEEPS WHAT ITS PARTS KEEP.** -/
theorem Keeps.matchOrders (h : Keeps F I) {b : Orderbook P} (hI : I b) :
    Ends F (fun r => I r.1) b.matchOrders :=
  h.matchLoop _ b [] hI

end OsxMatchingRule
