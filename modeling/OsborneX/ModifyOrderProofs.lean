import OsborneX.FillOrKillProofs

/-! # ModifyOrder — cancelled first, added again if it may be

    A modification cancels the order and adds the new terms under the old
    TYPE, so `AddOrder` can still turn them away when the old order is already
    gone.  No Fill-And-Kill order rests and every Market order has become
    Good-Till-Cancel, which leaves the Fill-Or-Kill rule: an order the
    aggregates once let in and the book then failed to fill. -/

namespace OsxModifyOrder

open OsxOrderbook OsxCrossing OsxLink OsxMatching OsxCalls OsxRepresentation
open OsxSweep OsxReachable OsxTally OsxLevelData OsxRemainder OsxFillOrKill
open OsxFullFill (counted)

variable {P : Type}

/-! ## The back of a level -/

/-- **AN ORDER RESTS LAST** among the orders at its price. -/
theorem restBehind_last {lt : P → P → Prop} [DecidableRel lt]
    [DecidableEq P] {o : Order P} {own : List (Order P)}
    (hirrefl : ¬ lt o.price o.price)
    (hsorted : own.Pairwise (fun x y => ¬ lt y.price x.price)) :
    ∃ front, (restBehind lt o own).filter (fun x => x.price = o.price)
      = front ++ [o] := by
  induction own with
  | nil => exact ⟨[], by simp [restBehind]⟩
  | cons r rs ih =>
      obtain ⟨hr, hrs⟩ := List.pairwise_cons.mp hsorted
      rw [restBehind]
      by_cases hlt : lt o.price r.price
      · -- everything from here on is worse
        have hworse : ∀ x ∈ r :: rs, x.price ≠ o.price := by
          intro x hx heq
          rcases List.mem_cons.mp hx with rfl | hx
          · rw [heq] at hlt
            exact hirrefl hlt
          · rw [← heq] at hlt
            exact hr x hx hlt
        rw [if_pos hlt, List.filter_cons, if_pos (by simp)]
        rw [List.filter_eq_nil_iff.mpr (by simpa using hworse)]
        exact ⟨[], rfl⟩
      · obtain ⟨front, hfront⟩ := ih hrs
        rw [if_neg hlt, List.filter_cons, hfront]
        by_cases hp : r.price = o.price
        · exact ⟨r :: front, by rw [if_pos (by simpa using hp)]; rfl⟩
        · exact ⟨front, by rw [if_neg (by simpa using hp)]⟩

section Modify

variable [LinearOrder P] {b b1 b' : Orderbook P} {o : Order P}
  {ts : List (Trade P)} {m : OrderModify P} {side : Side}

/-- The order under the id is the last one of its level. -/
def AtBack (b : Orderbook P) (side : Side) (price : P) (orderId : OrderId) :
    Prop :=
  ∃ front last, (own b side).filter (fun x => x.price = price)
      = front ++ [last] ∧ last.orderId = orderId

theorem atBack_restBehind (hl : Linked b) (hs : Sided o.side)
    (hown : own b' o.side = restBehind (better o.side) o (own b o.side)) :
    AtBack b' o.side o.price o.orderId := by
  obtain ⟨front, hfront⟩ :=
    restBehind_last (irrefl_better hs) (own_sorted hl o.side)
  exact ⟨front, o, by rw [hown, hfront], rfl⟩

/-! ## Adding the order again -/

/-- An order that does not cross a Fill-And-Kill or Market rule is admitted
    unless the Fill-Or-Kill rule turns it away. -/
theorem admits_again (hk : o.orderType ≠ .fillAndKill)
    (hm : o.orderType ≠ .market)
    (hfresh : b.orders.find? o.orderId = none) {o' : Order P} :
    Admits b o o' ↔ o' = o ∧ (o.orderType = .fillOrKill →
      b.canFullyFill o.side o.price o.initialQuantity = .ok true) := by
  constructor
  · intro ha
    have heff := ha.effective
    rw [effective, if_neg hm] at heff
    exact ⟨(Option.some.inj heff).symm, ha.fillable⟩
  · rintro ⟨rfl, hfill⟩
    exact ⟨hfresh, by rw [effective, if_neg hm], fun h => absurd h hk, hfill⟩

/-- **AN ORDER ADDED AGAIN** keeps its quantity, and rests at the back of the
    level it asks for, exactly when the Fill-Or-Kill rule lets it in. -/
theorem Adds.keeps_iff (hst : Steady b) (ha : Adds b o b' ts)
    (hs : Sided o.side) (hk : o.orderType ≠ .fillAndKill)
    (hm : o.orderType ≠ .market) (hfresh : b.orders.find? o.orderId = none)
    (hq : 0 < o.remainingQuantity) :
    (o.remainingQuantity
        = tradedQuantity o.orderId ts + remainder b' o.orderId ∧
      (b'.orders.find? o.orderId ≠ none →
        AtBack b' o.side o.price o.orderId)) ↔
    (o.orderType = .fillOrKill →
      b.canFullyFill o.side o.price o.initialQuantity = .ok true) := by
  have hl := hst.wellFormed.linked
  cases ha with
  | rejected hno =>
      constructor
      · rintro ⟨hsum, -⟩
        have hgone : (b.makeShared o).orders.find? o.orderId = none := hfresh
        rw [remainder_of_absent hgone, tradedQuantity_nil] at hsum
        omega
      · exact fun hfill =>
          absurd ((admits_again hk hm hfresh).mpr ⟨rfl, hfill⟩) (hno o)
  | @admitted o' b2 _ log ha he =>
      obtain ⟨rfl, hfill⟩ := (admits_again hk hm hfresh).mp ha
      refine ⟨fun _ => hfill, fun _ => ⟨(Executed.remainder hst he hs).1 hk,
        fun hrests => ?_⟩⟩
      have hsweep := Executed.sweep hst.wellFormed hst.settled hs he
      rcases Sweep.own_terms hsweep (fun h => absurd h hk) with
        hown | ⟨r, hown, hterms, -⟩
      · exact absurd (Executed.absent hst he hs hfresh hown) hrests
      · obtain ⟨-, hid, hside, hprice, -⟩ := hterms.fields
        rw [← hside] at hown
        rw [← hid, ← hprice, ← hside]
        exact atBack_restBehind hl (by rw [hside]; exact hs) hown

/-! ## No Market order rests -/

/-- No Market order rests. -/
def NoMarket (b : Orderbook P) : Prop :=
  ∀ x ∈ resting b, x.orderType ≠ .market

theorem Adds.noMarket (hl : Linked b) (hno : NoMarket b)
    (ha : Adds b o b' ts) (hs : Sided o.side) : NoMarket b' := by
  intro x hx hm
  rcases Adds.resting_from hl ha hs x hx with
    ⟨y, hy, hterms⟩ | ⟨o', ho', hterms⟩
  · exact hno y hy (hterms.fields.1.symm.trans hm)
  · have htype := effective_orderType ho'.effective
    rw [← hterms.fields.1, hm] at htype
    by_cases ho : o.orderType = .market
    · rw [if_pos ho] at htype
      cases htype
    · rw [if_neg ho] at htype
      exact ho htype.symm

theorem Does.noMarket (hl : Linked b) (hno : NoMarket b) {c : Call P}
    (hs : callSided c) (hd : Does b c b' ts) : NoMarket b' := by
  cases hd with
  | added ha => exact Adds.noMarket hl hno ha hs
  | cancelled _ _ hr =>
      exact fun x hx => hno x (Removed.resting_sub hr x hx)
  | notFound _ => exact hno
  | modified _ _ hr ha =>
      exact Adds.noMarket hr.linked
        (fun x hx => hno x (Removed.resting_sub hr x hx)) ha hs
  | unknown _ => exact hno

/-! ## The modification -/

/-- **A MODIFICATION KEEPS THE ORDER**: the new quantity is what the order
    trades and what rests of it, it rests at the back of the level it asks for,
    and the others only trade. -/
def ModifyKeeps (b : Orderbook P) (m : OrderModify P) : Prop :=
  ∃ b' ts, b.call (.modifyOrder m) = .ok (b', ts) ∧
    (m.quantity = tradedQuantity m.orderId ts + remainder b' m.orderId ∧
      (b'.orders.find? m.orderId ≠ none →
        AtBack b' m.side m.price m.orderId)) ∧
    OthersKept b b' m.orderId ts

/-- The other orders and the aggregates without `x` would fully fill the new
    terms: a price among them is acceptable, and the entries from the best of
    them to the limit offer the quantity. -/
def Refillable (b : Orderbook P) (m : OrderModify P) (x : Order P) : Prop :=
  let others := (opposite b m.side).filter (fun y => y.orderId ≠ m.orderId)
  (∃ y ∈ others, reaches m.side m.price y.price) ∧
    m.quantity ≤ counted m.side (others.head?.map Order.price) m.price
      (dropOrder b.levelData (some x)).entries

/-- The order is no Fill-Or-Kill, or the new terms would be filled. -/
def Readmits (b : Orderbook P) (m : OrderModify P) : Prop :=
  ∀ x ∈ resting b, x.orderId = m.orderId → x.orderType = .fillOrKill →
    Refillable b m x

/-- The book without the order decides on the other orders. -/
theorem refillable_iff (hl : Linked b) {p : OrderPointer}
    (hp : p ∈ pointers b) (hid : m.orderId = (b.heap p).orderId)
    (hr : Removed b p b1) (hs : Sided m.side) (hq : 0 < m.quantity) :
    b1.canFullyFill m.side m.price m.quantity = .ok true ↔
      Refillable b m (b.heap p) := by
  have hopp : opposite b1 m.side
      = (opposite b m.side).filter (fun y => y.orderId ≠ m.orderId) := by
    rw [opposite_eq, opposite_eq, hid]
    exact Removed.own_filter hl hp hr _
  rw [canFullyFill_iff hr.linked hs hq, available,
    bestOpposite_eq hr.linked, hopp, hr.levelData]
  exact Iff.rfl

/-- **EXACTLY WHEN A MODIFICATION KEEPS THE ORDER**, on one book. -/
theorem modifyKeeps_iff (hst : Steady b) (hno : NoMarket b)
    (hrests : b.orders.find? m.orderId ≠ none) (hs : Sided m.side)
    (hq : 0 < m.quantity) : ModifyKeeps b m ↔ Readmits b m := by
  have hl := hst.wellFormed.linked
  have hsided : callSided (.modifyOrder m) := hs
  obtain ⟨b', ts, hrun, hd⟩ := call_spec hl hsided
  rw [ModifyKeeps, Execution.ok_iff hrun]
  cases hd with
  | unknown hn => exact absurd hn hrests
  | @modified _ p b1 _ _ hp hid hr ha =>
      have hx : b.heap p ∈ resting b := by
        rw [resting_eq]
        exact List.mem_map_of_mem hp
      have hk : (b.heap p).orderType ≠ .fillAndKill := by
        rcases List.mem_append.mp hx with h1 | h1
        · exact hst.settled .buy _ h1
        · exact hst.settled .sell _ h1
      have hst1 := Removed.steady hst hr
      have hfresh : b1.orders.find? m.orderId = none := by
        rw [hid]
        exact Removed.absent hl hp hr
      have hothers : OthersKept b b' m.orderId ts := by
        intro id hne
        rw [← Removed.remainder hl hr (by rw [← hid]; exact hne)]
        exact Adds.othersKept hst1 ha hs id hne
      have hkeeps := Adds.keeps_iff hst1 ha hs hk (hno (b.heap p) hx)
        hfresh hq
      have hkeeps' : (m.quantity
            = tradedQuantity m.orderId ts + remainder b' m.orderId ∧
          (b'.orders.find? m.orderId ≠ none →
            AtBack b' m.side m.price m.orderId)) ↔
          ((b.heap p).orderType = .fillOrKill →
            b1.canFullyFill m.side m.price m.quantity = .ok true) := hkeeps
      rw [hkeeps', refillable_iff hl hp hid hr hs hq]
      constructor
      · rintro ⟨hfill, -⟩ x hx' hxid
        rw [resting_eq] at hx'
        obtain ⟨r, hrp, rfl⟩ := List.mem_map.mp hx'
        rw [hl.pointer_unique hrp hp (hxid.trans hid)]
        exact hfill
      · exact fun h => ⟨h _ hx hid.symm, hothers⟩

/-- **MODIFYORDER.**  On every book a run reaches, modifying a resting order
    keeps it exactly when it is no Fill-Or-Kill order, or the others would
    fully fill the new terms. -/
theorem modifyOrder_iff [Inhabited P] {calls : List (Call P)}
    {history : List (List (Trade P))}
    (hrun : Orderbook.run .empty calls = .ok (b, history))
    (hreg : ∀ c ∈ calls, Regular c)
    (hrests : b.orders.find? m.orderId ≠ none) (hs : Sided m.side)
    (hq : 0 < m.quantity) : ModifyKeeps b m ↔ Readmits b m := by
  have hreach : Reached Regular b := ⟨calls, history, hreg, hrun⟩
  have hno : NoMarket b := by
    refine (hreach.keeps (I := fun b => Steady b ∧ NoMarket b)
      ⟨steady_empty, List.forall_mem_nil _⟩ (fun b c hI hc => ?_)).2
    obtain ⟨b', ts, hcall, hd⟩ := call_spec hI.1.wellFormed.linked hc.1
    exact ⟨b', ts, hcall, Does.steady hI.1 hc.1 hd,
      Does.noMarket hI.1.wellFormed.linked hI.2 hc.1 hd⟩
  exact modifyKeeps_iff hreach.regular.1 hno hrests hs hq

end Modify

/-! ## A Fill-Or-Kill order that rests -/

/-- A cancel books out an entry that matching has dropped, and the aggregates
    then show next to 2³² at 100: a Fill-Or-Kill ask for ten is let in, trades
    one, and rests. -/
def restedFillOrKill : List (Call Int) :=
  [.addOrder .goodTillCancel 1 .sell 100 3,
    .addOrder .goodTillCancel 2 .buy 100 5,
    .cancelOrder 2,
    .addOrder .goodTillCancel 3 .buy 101 1,
    .addOrder .fillOrKill 4 .sell 100 10]

/-- The second of two asks turned into a bid that takes the first. -/
theorem modifyOrder_iff_twoAsks :
    ModifyKeeps (bookAfter twoAsks) ⟨2, .buy, 100, 5⟩ ↔
      Readmits (bookAfter twoAsks) ⟨2, .buy, 100, 5⟩ := by
  obtain ⟨history, hrun⟩ := run_bookAfter
    (show ∀ c ∈ twoAsks, callSided c by decide)
  have hrests : (bookAfter twoAsks).orders.find? 2 ≠ none := by decide
  have hq : 0 < 5 := by decide
  exact modifyOrder_iff hrun (by decide) hrests (Or.inl rfl) hq

/-- **THE ORDER VANISHES**: nine lots rest as a Fill-Or-Kill ask at 100; moved
    to 200 it is cancelled and turned away, with no trade. -/
theorem modifyOrder_vanishes : ¬ ∀ (b : Orderbook Int), Reached Regular b →
    b.orders.find? 4 ≠ none → ModifyKeeps b ⟨4, .sell, 200, 5⟩ := by
  intro h
  have hreach : Reached Regular (bookAfter restedFillOrKill) :=
    reached_bookAfter (by decide) (by decide)
  obtain ⟨b', ts, hcall, ⟨hsum, -⟩, -⟩ := h _ hreach (by decide +kernel)
  have hgone : ((bookAfter restedFillOrKill).call
      (.modifyOrder ⟨4, .sell, 200, 5⟩)).toOption.map
      (fun r => (tradedQuantity 4 r.2, remainder r.1 4)) = some (0, 0) := by
    decide +kernel
  rw [hcall] at hgone
  have hpair : (tradedQuantity 4 ts, remainder b' 4) = (0, 0) :=
    Option.some.inj hgone
  simp only [Prod.mk.injEq] at hpair
  have hfive : 5 = tradedQuantity 4 ts + remainder b' 4 := hsum
  omega

end OsxModifyOrder
