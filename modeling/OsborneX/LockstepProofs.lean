import OsborneX.MirrorProofs

/-! # Lockstep — every call keeps the mirror

    One lemma for each operation of the book, in the order of the source: run
    on a book and on its mirror it faults alike, or returns a book and a
    mirror of it.  A market order may come with any price, since it takes the
    worst opposite one; any other order that comes to rest must be sound. -/

namespace OsxMirror

open OsxOrderbook OsxLink OsxCalls Outcome

variable {P Q : Type} [LT P] [LE P] [BEq P] [LinearOrder Q] {m : Scale P Q}
  {b : Orderbook P} {k : Orderbook Q}

/-! ## The inner loop -/

omit [LE P] in
/-- Filling an order moves no price. -/
theorem fill_moves_no_price (b : Orderbook P) (ptr p : OrderPointer)
    (quantity : Nat) :
    ((b.store ptr ((b.heap ptr).fill quantity)).heap p).price
      = (b.heap p).price := by
  show (Function.update b.heap ptr ((b.heap ptr).fill quantity) p).price = _
  by_cases heq : p = ptr
  · subst heq
    rw [Function.update_self, OsxCrossing.fill_price]
  · rw [Function.update_of_ne heq]

omit [LE P] in
theorem matchFronts_moves_no_price (b : Orderbook P)
    (bid ask p : OrderPointer) :
    ((b.matchFronts bid ask).1.heap p).price = (b.heap p).price := by
  rw [Orderbook.matchFronts]
  exact (fill_moves_no_price _ ask p _).trans (fill_moves_no_price b bid p _)

/-- One pairing. -/
theorem Mirrors.matchFronts (h : Mirrors m b k) {bid ask : OrderPointer}
    (hbid : m.sound (b.heap bid).price) (hask : m.sound (b.heap ask).price) :
    Mirrors m (b.matchFronts bid ask).1 (k.matchFronts bid ask).1 ∧
      (k.matchFronts bid ask).2
        = rescaleTrade m.value (b.matchFronts bid ask).2 ∧
      m.sound (b.matchFronts bid ask).2.bidTrade.price ∧
      m.sound (b.matchFronts bid ask).2.askTrade.price := by
  have hq : min (k.heap bid).remainingQuantity (k.heap ask).remainingQuantity
      = min (b.heap bid).remainingQuantity (b.heap ask).remainingQuantity := by
    rw [h.heap, h.heap]
    rfl
  rw [Orderbook.matchFronts, Orderbook.matchFronts, hq]
  have h2 := (h.fill bid (min (b.heap bid).remainingQuantity
    (b.heap ask).remainingQuantity)).fill ask (min
      (b.heap bid).remainingQuantity (b.heap ask).remainingQuantity)
  generalize min (b.heap bid).remainingQuantity (b.heap ask).remainingQuantity
    = q at h2 ⊢
  rw [← fill_moves_no_price b bid bid q,
    ← fill_moves_no_price _ ask bid q] at hbid
  rw [← fill_moves_no_price b bid ask q,
    ← fill_moves_no_price _ ask ask q] at hask
  generalize (b.store bid ((b.heap bid).fill q)).store ask
    (((b.store bid ((b.heap bid).fill q)).heap ask).fill q) = b2
    at h2 hbid hask ⊢
  generalize (k.store bid ((k.heap bid).fill q)).store ask
    (((k.store bid ((k.heap bid).fill q)).heap ask).fill q) = k2 at h2 ⊢
  rw [h2.heap bid, h2.heap ask, h2.orders]
  refine ⟨h2.forget (fun id entry hid => ?_)
    ((h2.levelData.update hbid _ _).update hask _ _), rfl, hbid, hask⟩
  exact HashTable.find?_of_eraseIf (HashTable.find?_of_eraseIf hid)

/-- What is left of a list whose front was filled. -/
theorem Mirrors.left (h : Mirrors m b k) {p : OrderPointer}
    {ps : List OrderPointer} (hs : ∀ r ∈ p :: ps, m.sound (b.heap r).price) :
    (if (k.heap p).isFilled then ps else p :: ps)
      = (if (b.heap p).isFilled then ps else p :: ps) ∧
    ∀ r ∈ if (b.heap p).isFilled then ps else p :: ps,
      m.sound (b.heap r).price := by
  constructor
  · rw [h.heap p]
    rfl
  · by_cases hf : (b.heap p).isFilled = true
    · rw [if_pos hf]
      exact fun r hr => hs r (List.mem_cons_of_mem _ hr)
    · rw [if_neg hf]
      exact hs

/-- The state of the inner loop, in both books. -/
structure MatchedMirror (m : Scale P Q) (x : Orderbook.Matched P)
    (y : Orderbook.Matched Q) : Prop where
  book : Mirrors m x.book y.book
  bids : y.bidsAtBestPrice = x.bidsAtBestPrice ∧
    ∀ p ∈ x.bidsAtBestPrice, m.sound (x.book.heap p).price
  asks : y.asksAtBestPrice = x.asksAtBestPrice ∧
    ∀ p ∈ x.asksAtBestPrice, m.sound (x.book.heap p).price
  trades : TradesMirror m x.trades y.trades

theorem matchLevels_lockstep (fuel : Nat) :
    ∀ (x : Orderbook.Matched P) (y : Orderbook.Matched Q),
      MatchedMirror m x y →
      Lockstep (MatchedMirror m) (Orderbook.matchLevels fuel x)
        (Orderbook.matchLevels fuel y) := by
  induction fuel with
  | zero =>
      intro x y h
      rw [Orderbook.matchLevels, Orderbook.matchLevels, h.bids.1, h.asks.1]
      cases x.bidsAtBestPrice with
      | nil => exact h
      | cons bid bids =>
          cases x.asksAtBestPrice with
          | nil => exact h
          | cons ask asks => exact rfl
  | succ fuel ih =>
      intro x y h
      rw [Orderbook.matchLevels, Orderbook.matchLevels, h.bids.1, h.asks.1]
      cases hbids : x.bidsAtBestPrice with
      | nil => exact h
      | cons bid bids =>
          cases hasks : x.asksAtBestPrice with
          | nil => exact h
          | cons ask asks =>
              have hbid := h.bids.2
              have hask := h.asks.2
              rw [hbids] at hbid
              rw [hasks] at hask
              obtain ⟨hbook, htrade, hsound⟩ := h.book.matchFronts
                (hbid bid List.mem_cons_self) (hask ask List.mem_cons_self)
              refine ih _ _ ⟨hbook, hbook.left (fun r hr => ?_),
                hbook.left (fun r hr => ?_), ?_⟩
              · rw [matchFronts_moves_no_price]
                exact hbid r hr
              · rw [matchFronts_moves_no_price]
                exact hask r hr
              · have hsnoc := h.trades.snoc hsound
                rw [← htrade] at hsnoc
                exact hsnoc

/-- Between sound prices the admission test is the same test. -/
theorem Mirrors.canMatch [DecidableLE P] (h : Mirrors m b k) (side : Side) {price : P}
    (hp : m.sound price) :
    k.canMatch side (m.value price) = b.canMatch side price := by
  cases side with
  | buy =>
      rw [Orderbook.canMatch, Orderbook.canMatch, h.asks.begin?]
      cases hask : b.asks.begin? with
      | none => rfl
      | some ask =>
          exact congrArg Except.ok (decide_eq_decide.mpr
            (m.le_iff (h.asks.sound_begin hask).1 hp).symm)
  | sell =>
      rw [Orderbook.canMatch, Orderbook.canMatch, h.bids.begin?]
      cases hbid : b.bids.begin? with
      | none => rfl
      | some bid =>
          exact congrArg Except.ok (decide_eq_decide.mpr
            (m.le_iff hp (h.bids.sound_begin hbid).1).symm)
  | other value => rfl

/-- An unsound price matches nothing. -/
theorem canMatch_unsound [DecidableLE P] {side : Side} (hs : Sided side) {price : P}
    (hp : ¬ m.sound price) : b.canMatch side price = .ok false := by
  rcases hs with rfl | rfl
  · rw [Orderbook.canMatch]
    cases b.asks.begin? with
    | none => rfl
    | some ask =>
        exact congrArg Except.ok (decide_eq_false (fun hle : ask.1 ≤ price =>
          hp (m.sound_of_le hle).2))
  · rw [Orderbook.canMatch]
    cases b.bids.begin? with
    | none => rfl
    | some bid =>
        exact congrArg Except.ok (decide_eq_false (fun hle : price ≤ bid.1 =>
          hp (m.sound_of_le hle).1))

/-- Conditional orders are dropped alike. -/
theorem Mirrors.dropsFillAndKill [DecidableLE P] (h : Mirrors m b k) {o : Order P}
    (hp : m.sound o.price ∨ o.orderType = .market) :
    k.dropsFillAndKill (rescale m.value o) = b.dropsFillAndKill o := by
  rw [Orderbook.dropsFillAndKill, Orderbook.dropsFillAndKill]
  by_cases hk : o.orderType = .fillAndKill
  · have hk' : (rescale m.value o).orderType = .fillAndKill := hk
    have hsound := hp.resolve_right (by simp [hk])
    rw [if_pos hk, if_pos hk']
    exact congrArg _ (h.canMatch o.side hsound)
  · have hk' : ¬ (rescale m.value o).orderType = .fillAndKill := hk
    rw [if_neg hk, if_neg hk']

/-! ## Resting -/

/-- A market order takes a sound price, whatever its own. -/
theorem Mirrors.convertMarket (h : Mirrors m b k) {ptr : OrderPointer}
    (hp : m.sound (b.heap ptr).price ∨ (b.heap ptr).orderType = .market) :
    Lockstep (Option.Rel (fun b' k' =>
        Mirrors m b' k' ∧ m.sound (b'.heap ptr).price))
      (b.convertMarket ptr) (k.convertMarket ptr) := by
  have hconvert : ∀ price, m.sound price →
      (b.heap ptr).orderType = .market →
      Lockstep (Option.Rel (fun b' k' =>
          Mirrors m b' k' ∧ m.sound (b'.heap ptr).price))
        (((b.heap ptr).toGoodTillCancel price).map (some ∘ b.store ptr))
        (((rescale m.value (b.heap ptr)).toGoodTillCancel
          (m.value price)).map (some ∘ k.store ptr)) := by
    intro price hprice hm
    have hm' : (rescale m.value (b.heap ptr)).orderType = .market := hm
    rw [Order.toGoodTillCancel, Order.toGoodTillCancel,
      if_neg (not_not_intro hm), if_neg (not_not_intro hm')]
    refine .some ⟨h.store (fun _ => hprice), ?_⟩
    show m.sound (Function.update b.heap ptr _ ptr).price
    rw [Function.update_self]
    exact hprice
  rw [Orderbook.convertMarket, Orderbook.convertMarket, h.heap ptr,
    h.asks.rbegin?, h.bids.rbegin?]
  refine Lockstep.ite Iff.rfl (fun hm => ?_)
    (fun hm => .some ⟨h, hp.resolve_right hm⟩)
  have hside : (rescale m.value (b.heap ptr)).side = (b.heap ptr).side := rfl
  rw [hside]
  cases (b.heap ptr).side with
  | buy =>
      cases hask : b.asks.rbegin? with
      | none => exact .none
      | some ask => exact hconvert ask.1 (h.asks.sound_rbegin hask) hm
  | sell =>
      cases hbid : b.bids.rbegin? with
      | none => cases b.asks.rbegin? <;> exact .none
      | some bid =>
          cases b.asks.rbegin? <;>
            exact hconvert bid.1 (h.bids.sound_rbegin hbid) hm
  | other value => cases b.asks.rbegin? <;> exact .none

variable [DecidableLT P]

theorem Mirrors.rest [IsTrans P (fun a b => a > b)]
    [IsTrans P (fun a b => a < b)] (h : Mirrors m b k) {ptr : OrderPointer}
    (hp : m.sound (b.heap ptr).price) :
    Lockstep (fun b' k' => Mirrors m b' k' ∧ b'.heap = b.heap)
      (b.rest ptr) (k.rest ptr) := by
  have hindexed : ∀ id entry,
      (b.orders.emplace (b.heap ptr).orderId
        { order := ptr, location := ptr }).find? id = some entry →
      m.sound (b.heap entry.order).price := by
    intro id entry hid
    rw [HashTable.emplace, HashTable.find?_upsert] at hid
    by_cases heq : id = (b.heap ptr).orderId
    · rw [if_pos heq] at hid
      cases hold : b.orders.find? (b.heap ptr).orderId with
      | none =>
          rw [hold] at hid
          cases hid
          exact hp
      | some old =>
          rw [hold] at hid
          cases hid
          exact h.indexed _ _ hold
    · rw [if_neg heq] at hid
      exact h.indexed id entry hid
  rw [Orderbook.rest, Orderbook.rest, h.heap ptr, h.orders]
  have hside : (rescale m.value (b.heap ptr)).side = (b.heap ptr).side := rfl
  rw [hside]
  cases (b.heap ptr).side with
  | buy =>
      refine ⟨?_, rfl⟩
      exact { h with
        bids := h.bids.pushBack (agree_gt m) hp hp
        orders := rfl
        indexed := hindexed }
  | sell =>
      refine ⟨?_, rfl⟩
      exact { h with
        asks := h.asks.pushBack (agree_lt m) hp hp
        orders := rfl
        indexed := hindexed }
  | other value => exact rfl

/-! ## Cancelling and matching -/

theorem Mirrors.cancelOrderInternal (h : Mirrors m b k) (orderId : OrderId) :
    Lockstep (Mirrors m) (b.cancelOrderInternal orderId)
      (k.cancelOrderInternal orderId) := by
  rw [Orderbook.cancelOrderInternal, Orderbook.cancelOrderInternal, h.orders]
  cases hf : b.orders.find? orderId with
  | none => exact h
  | some entry =>
      have hp := h.indexed orderId entry hf
      have hdata := h.levelData.update hp
        (b.heap entry.order).remainingQuantity .remove
      have hforget : ∀ id e, (b.orders.erase orderId).find? id = some e →
          b.orders.find? id = some e :=
        fun id e hid => HashTable.find?_of_erase hid
      simp only [h.heap entry.order]
      cases hside : (b.heap entry.order).side with
      | buy =>
          simp only [rescale, hside]
          refine (h.bids.eraseFromLevel (agree_gt m) hp _).bind
            (fun bids bids' hbids => ?_)
          have hb : Mirrors m { b with bids := bids } { k with bids := bids' } :=
            { h with bids := hbids }
          exact hb.forget hforget hdata
      | sell =>
          simp only [rescale, hside]
          refine (h.asks.eraseFromLevel (agree_lt m) hp _).bind
            (fun asks asks' hasks => ?_)
          have hb : Mirrors m { b with asks := asks } { k with asks := asks' } :=
            { h with asks := hasks }
          exact hb.forget hforget hdata
      | other value =>
          simp only [rescale, hside]
          exact rfl

theorem Mirrors.killFront (h : Mirrors m b k) {lt : P → P → Prop}
    {lt' : Q → Q → Prop} {levels : Levels P lt} {levels' : Levels Q lt'}
    (hl : LevelsMirror m b.heap levels levels') :
    Lockstep (Mirrors m) (b.killFront levels) (k.killFront levels') := by
  rw [Orderbook.killFront, Orderbook.killFront, hl.begin?]
  cases levels.begin? with
  | none => exact h
  | some best =>
      obtain ⟨price, level⟩ := best
      cases level with
      | nil => exact rfl
      | cons order rest =>
          show Lockstep _ _ (if (k.heap order).orderType = .fillAndKill then
            k.cancelOrderInternal (k.heap order).orderId else .ok k)
          rw [h.heap order]
          exact Lockstep.ite Iff.rfl (fun _ => h.cancelOrderInternal _)
            (fun _ => h)

theorem Mirrors.storeBest (h : Mirrors m b k) {bidPrice askPrice : P}
    (hbid : m.sound bidPrice) (hask : m.sound askPrice)
    {bids asks : List OrderPointer}
    (hbids : ∀ p ∈ bids, m.sound (b.heap p).price)
    (hasks : ∀ p ∈ asks, m.sound (b.heap p).price) :
    Mirrors m (b.storeBest bidPrice askPrice bids asks)
      (k.storeBest (m.value bidPrice) (m.value askPrice) bids asks) := by
  have hdata : ∀ {levelData : LevelDataMap P} {levelData' : LevelDataMap Q}
      {price : P} (level : List OrderPointer), m.sound price →
      DataMirror m levelData levelData' →
      DataMirror m
        (if level.isEmpty then levelData.erase price else levelData)
        (if level.isEmpty then levelData'.erase (m.value price)
          else levelData') := by
    intro levelData levelData' price level hp hd
    by_cases hempty : level.isEmpty = true
    · rw [if_pos hempty, if_pos hempty]
      exact hd.erase hp
    · rw [if_neg hempty, if_neg hempty]
      exact hd
  exact { h with
    levelData := hdata asks hask (hdata bids hbid h.levelData)
    bids := h.bids.storeLevel (agree_gt m) hbid hbids
    asks := h.asks.storeLevel (agree_lt m) hask hasks }

/-- One round. -/
theorem Mirrors.matchRound (h : Mirrors m b k) {bidPrice askPrice : P}
    (hbid : m.sound bidPrice) (hask : m.sound askPrice) {ts : List (Trade P)}
    {us : List (Trade Q)} (ht : TradesMirror m ts us) :
    Lockstep (Matches m) (b.matchRound bidPrice askPrice ts)
      (k.matchRound (m.value bidPrice) (m.value askPrice) us) := by
  refine (h.bids.levelAt (agree_gt m) hbid).bind ?_
  rintro _ bids ⟨rfl, hbids⟩
  refine (h.asks.levelAt (agree_lt m) hask).bind ?_
  rintro _ asks ⟨rfl, hasks⟩
  have hfront : MatchedMirror m ⟨b, bids, asks, ts⟩ ⟨k, bids, asks, us⟩ :=
    ⟨h, ⟨rfl, hbids⟩, ⟨rfl, hasks⟩, ht⟩
  refine (matchLevels_lockstep _ _ _ hfront).bind (fun x y hxy => ?_)
  have hstored := hxy.book.storeBest hbid hask hxy.bids.2 hxy.asks.2
  rw [hxy.bids.1, hxy.asks.1]
  exact (hstored.killFront hstored.bids).bind (fun b1 k1 h1 =>
    (h1.killFront h1.asks).bind (fun b2 k2 h2 => ⟨h2, hxy.trades⟩))

theorem matchLoop_lockstep (fuel : Nat) :
    ∀ (b : Orderbook P) (k : Orderbook Q) (ts : List (Trade P))
      (us : List (Trade Q)), Mirrors m b k → TradesMirror m ts us →
      Lockstep (Matches m) (b.matchLoop fuel ts) (k.matchLoop fuel us) := by
  induction fuel with
  | zero =>
      intro b k ts us h ht
      rw [Orderbook.matchLoop, Orderbook.matchLoop, h.bids.begin?,
        h.asks.begin?]
      cases hbid : b.bids.begin? with
      | none => exact ⟨h, ht⟩
      | some bid =>
          cases hask : b.asks.begin? with
          | none => exact ⟨h, ht⟩
          | some ask =>
              exact Lockstep.ite (m.lt_iff (h.bids.sound_begin hbid).1
                (h.asks.sound_begin hask).1) (fun _ => ⟨h, ht⟩) (fun _ => rfl)
  | succ fuel ih =>
      intro b k ts us h ht
      rw [Orderbook.matchLoop, Orderbook.matchLoop, h.bids.begin?,
        h.asks.begin?]
      cases hbid : b.bids.begin? with
      | none => exact ⟨h, ht⟩
      | some bid =>
          cases hask : b.asks.begin? with
          | none => exact ⟨h, ht⟩
          | some ask =>
              have hb := (h.bids.sound_begin hbid).1
              have ha := (h.asks.sound_begin hask).1
              refine Lockstep.ite (m.lt_iff hb ha) (fun _ => ⟨h, ht⟩)
                (fun _ => (h.matchRound hb ha ht).bind ?_)
              exact fun r r' hr => ih r.1 r'.1 r.2 r'.2 hr.1 hr.2

theorem Mirrors.matchOrders (h : Mirrors m b k) :
    Lockstep (Matches m) b.matchOrders k.matchOrders := by
  rw [Orderbook.matchOrders, Orderbook.matchOrders, h.bids.entries,
    h.asks.entries, List.length_map, List.length_map]
  exact matchLoop_lockstep _ b k [] [] h .nil


/-- The walk over the aggregates is the same walk. -/
theorem fillsFrom_rescale {side : Side} {threshold : Option P} {price : P}
    (hp : m.sound price) (ht : ∀ best ∈ threshold, m.sound best)
    {entries : List (P × LevelData)} (he : ∀ e ∈ entries, m.sound e.1) :
    ∀ quantity,
      Orderbook.fillsFrom side (threshold.map m.value) (m.value price)
          quantity (entries.map (Prod.map m.value id))
        = Orderbook.fillsFrom side threshold price quantity entries := by
  induction entries with
  | nil => exact fun _ => rfl
  | cons e rest ih =>
      obtain ⟨levelPrice, data⟩ := e
      obtain ⟨hl, hrest⟩ := List.forall_mem_cons.mp he
      have ih := ih hrest
      intro quantity
      have hskip :
          ((∃ best ∈ threshold.map m.value,
              (side = .buy ∧ best > m.value levelPrice) ∨
              (side = .sell ∧ best < m.value levelPrice)) ∨
            (side = .buy ∧ m.value levelPrice > m.value price) ∨
            (side = .sell ∧ m.value levelPrice < m.value price)) ↔
          ((∃ best ∈ threshold, (side = .buy ∧ best > levelPrice) ∨
              (side = .sell ∧ best < levelPrice)) ∨
            (side = .buy ∧ levelPrice > price) ∨
            (side = .sell ∧ levelPrice < price)) := by
        rw [gt_iff_lt, gt_iff_lt, ← m.lt_iff hp hl, ← m.lt_iff hl hp]
        refine or_congr_left ?_
        cases threshold with
        | none => simp
        | some best =>
            have hb := ht best rfl
            simp [← m.lt_iff hl hb, ← m.lt_iff hb hl]
      rw [List.map_cons]
      simp only [Orderbook.fillsFrom, Prod.map, id, hskip, ih]

/-! ## Admission -/

variable [DecidableLE P]

theorem Mirrors.canFullyFill (h : Mirrors m b k) (side : Side) {price : P}
    (hp : m.sound price) (quantity : Nat) :
    k.canFullyFill side (m.value price) quantity
      = b.canFullyFill side price quantity := by
  have hfills : ∀ threshold : Option P, (∀ best ∈ threshold, m.sound best) →
      Orderbook.fillsFrom side (threshold.map m.value) (m.value price)
          quantity k.levelData.entries
        = Orderbook.fillsFrom side threshold price quantity
            b.levelData.entries := by
    intro threshold ht
    rw [h.levelData.entries]
    exact fillsFrom_rescale hp ht h.levelData.sound quantity
  have hasks := hfills (b.asks.begin?.map Prod.fst) (by
    intro best hbest
    obtain ⟨e, he, rfl⟩ := Option.map_eq_some_iff.mp hbest
    exact (h.asks.sound_begin he).1)
  have hbids := hfills (b.bids.begin?.map Prod.fst) (by
    intro best hbest
    obtain ⟨e, he, rfl⟩ := Option.map_eq_some_iff.mp hbest
    exact (h.bids.sound_begin he).1)
  rw [Option.map_map] at hasks hbids
  rw [Orderbook.canFullyFill, Orderbook.canFullyFill, h.canMatch side hp,
    h.asks.begin?, h.bids.begin?, Option.map_map, Option.map_map]
  cases side with
  | buy =>
      cases b.canMatch .buy price with
      | error e => rfl
      | ok reaches =>
          cases reaches with
          | false => rfl
          | true => exact congrArg Except.ok hasks
  | sell =>
      cases b.canMatch .sell price with
      | error e => rfl
      | ok reaches =>
          cases reaches with
          | false => rfl
          | true => exact congrArg Except.ok hbids
  | other value => rfl

theorem Mirrors.dropsFillOrKill (h : Mirrors m b k) {o : Order P}
    (hp : m.sound o.price) :
    k.dropsFillOrKill (rescale m.value o) = b.dropsFillOrKill o := by
  rw [Orderbook.dropsFillOrKill, Orderbook.dropsFillOrKill]
  by_cases hk : o.orderType = .fillOrKill
  · have hk' : (rescale m.value o).orderType = .fillOrKill := hk
    rw [if_pos hk, if_pos hk']
    exact congrArg _ (h.canFullyFill o.side hp o.initialQuantity)
  · have hk' : ¬ (rescale m.value o).orderType = .fillOrKill := hk
    rw [if_neg hk, if_neg hk']

/-! ## Adding and modifying -/

variable [IsTrans P (fun a b => a > b)] [IsTrans P (fun a b => a < b)]

/-- **ADDING AN ORDER** with a sound price, or a market order. -/
theorem Mirrors.addOrder (h : Mirrors m b k) {ptr : OrderPointer}
    (hp : b.orders.find? (b.heap ptr).orderId = none →
      m.sound (b.heap ptr).price ∨ (b.heap ptr).orderType = .market) :
    Lockstep (Matches m) (b.addOrder ptr) (k.addOrder ptr) := by
  rw [Orderbook.addOrder, Orderbook.addOrder, h.heap ptr, h.orders]
  refine Lockstep.ite Iff.rfl (fun _ => ⟨h, .nil⟩) (fun hnew => ?_)
  have hp := hp (by
    rw [HashTable.contains] at hnew
    exact Option.not_isSome_iff_eq_none.mp hnew)
  rw [h.dropsFillAndKill hp]
  refine (Lockstep.refl _).bind ?_
  rintro drops _ rfl
  refine Lockstep.ite Iff.rfl (fun _ => ⟨h, .nil⟩) (fun _ => ?_)
  refine (h.convertMarket hp).bind (fun converted converted' hc => ?_)
  cases hc with
  | none => exact ⟨h, .nil⟩
  | @some b2 k2 hc =>
      obtain ⟨h2, hp2⟩ := hc
      show Lockstep _ (b2.dropsFillOrKill (b2.heap ptr) >>= _)
        (k2.dropsFillOrKill (k2.heap ptr) >>= _)
      rw [h2.heap ptr, h2.dropsFillOrKill hp2]
      refine (Lockstep.refl _).bind ?_
      rintro drops _ rfl
      refine Lockstep.ite Iff.rfl (fun _ => ⟨h2, .nil⟩) (fun _ => ?_)
      refine (h2.rest hp2).bind (fun b3 k3 h3 => ?_)
      rw [← h3.2] at hp2
      exact (h3.1.onOrderAdded hp2).matchOrders

/-! ## Orders with an unsound price -/

/-- An order of this type is compared with nothing before it rests, and keeps
    its price. -/
def Unchecked (orderType : OsxOrderbook.OrderType) : Prop :=
  orderType ≠ .fillAndKill ∧ orderType ≠ .fillOrKill ∧ orderType ≠ .market

instance (orderType : OsxOrderbook.OrderType) : Decidable (Unchecked orderType) :=
  inferInstanceAs (Decidable (_ ∧ _ ∧ _))

/-- **AN ORDER WITH AN UNSOUND PRICE** is dropped, if it is conditional or a
    duplicate. -/
theorem addOrder_unsound {o : Order P} (hs : Sided o.side)
    (hp : ¬ m.sound o.price) (hm : o.orderType ≠ .market)
    (hu : ¬ (Unchecked o.orderType ∧ b.orders.find? o.orderId = none)) :
    (b.makeShared o).addOrder b.next = .ok (b.makeShared o, []) := by
  have hat : (b.makeShared o).heap b.next = o := Function.update_self ..
  rw [Orderbook.addOrder, hat]
  by_cases hid : (b.makeShared o).orders.contains o.orderId = true
  · rw [if_pos hid]
    rfl
  · have hfresh : b.orders.find? o.orderId = none := by
      rw [HashTable.contains] at hid
      exact Option.not_isSome_iff_eq_none.mp hid
    rw [if_neg hid]
    by_cases hk : o.orderType = .fillAndKill
    · rw [Orderbook.dropsFillAndKill, if_pos hk, canMatch_unsound hs hp]
      rfl
    · have hf : o.orderType = .fillOrKill := by
        by_contra hf
        exact hu ⟨⟨hk, hf, hm⟩, hfresh⟩
      rw [Orderbook.dropsFillAndKill, if_neg hk, Orderbook.convertMarket, hat,
        if_neg hm]
      show ((b.makeShared o).dropsFillOrKill ((b.makeShared o).heap b.next)
        >>= _) = _
      rw [hat, Orderbook.dropsFillOrKill, if_pos hf, Orderbook.canFullyFill,
        canMatch_unsound hs hp]
      rfl

/-- The call makes the book accept an order with an unsound price. -/
def TakesUnsound (m : Scale P Q) (b : Orderbook P) : Call P → Prop
  | .addOrder orderType orderId _ price _ =>
      ¬ m.sound price ∧ Unchecked orderType ∧ b.orders.find? orderId = none
  | .cancelOrder _ => False
  | .modifyOrder o => ¬ m.sound o.price ∧
      ∃ entry ∈ b.orders.find? o.orderId,
        Unchecked (b.heap entry.order).orderType

/-! ## Calls -/

/-- The call at another price scale. -/
def rescaleCall (g : P → Q) : Call P → Call Q
  | .addOrder orderType orderId side price quantity =>
      .addOrder orderType orderId side (g price) quantity
  | .cancelOrder orderId => .cancelOrder orderId
  | .modifyOrder o => .modifyOrder ⟨o.orderId, o.side, g o.price, o.quantity⟩

/-- The call's price is sound, unless it is a market order. -/
def CallSound (m : Scale P Q) : Call P → Prop
  | .addOrder orderType _ _ price _ => m.sound price ∨ orderType = .market
  | .cancelOrder _ => True
  | .modifyOrder o => m.sound o.price

/-- Adding a fresh object: the mirror adds it too, or nothing was traded. -/
theorem Mirrors.add (h : Mirrors m b k) (hk : Linked k) {o : Order P}
    (hs : Sided o.side) (hle : o.remainingQuantity ≤ o.initialQuantity)
    (hp : ¬ (¬ m.sound o.price ∧ Unchecked o.orderType ∧
      b.orders.find? o.orderId = none)) :
    ∃ b' ts k' us, (b.makeShared o).addOrder b.next = .ok (b', ts) ∧
      Matches m (b', ts) (k', us) ∧ Linked k' ∧
      (us = [] ∨ Adds k (rescale m.value o) k' us ∧
        (m.sound o.price ∨ o.orderType = .market)) := by
  have h1 := h.makeShared hk o
  have hat : (b.makeShared o).heap b.next = o := Function.update_self ..
  by_cases hsound : m.sound o.price ∨ o.orderType = .market
  · have hstep : Lockstep (Matches m) ((b.makeShared o).addOrder b.next)
        ((k.makeShared (rescale m.value o)).addOrder k.next) := by
      rw [h.next]
      refine h1.addOrder (fun _ => ?_)
      rw [hat]
      exact hsound
    obtain ⟨k', us, hrun, hadds⟩ := addOrder_spec hk (rescale m.value o) hs hle
    obtain ⟨⟨b', ts⟩, hrun', hmatch⟩ := hstep.of_ok hrun
    exact ⟨b', ts, k', us, hrun', hmatch, Adds.linked hk hadds,
      Or.inr ⟨hadds, hsound⟩⟩
  · obtain ⟨hunsound, hm⟩ := not_or.mp hsound
    exact ⟨_, [], _, [],
      addOrder_unsound hs hunsound hm (fun hu => hp ⟨hunsound, hu⟩),
      ⟨h1, .nil⟩, Linked.makeShared hk _, Or.inl rfl⟩

/-- **EVERY CALL THAT TAKES NO UNSOUND PRICE** returns, and the mirror does the
    same call, or nothing was traded. -/
theorem Mirrors.call (h : Mirrors m b k) (hk : Linked k)
    (hm : ∀ id entry, b.orders.find? id = some entry →
      (b.heap entry.order).orderType ≠ .market) {c : Call P}
    (hs : callSided c) (hc : ¬ TakesUnsound m b c) :
    ∃ b' ts k' us, b.call c = .ok (b', ts) ∧ Matches m (b', ts) (k', us) ∧
      Linked k' ∧
      (us = [] ∨ Does k (rescaleCall m.value c) k' us ∧ CallSound m c) := by
  cases c with
  | addOrder orderType orderId side price quantity =>
      obtain ⟨b', ts, k', us, hrun, hmatch, hk', hus⟩ := h.add hk
        (o := .new orderType orderId side price quantity) hs (Nat.le_refl _) hc
      exact ⟨b', ts, k', us, hrun, hmatch, hk',
        hus.imp_right (fun ha => ⟨.added ha.1, ha.2⟩)⟩
  | cancelOrder orderId =>
      obtain ⟨k', us, hrun, hdoes⟩ :=
        call_spec hk (c := .cancelOrder orderId) trivial
      have hstep : Lockstep (Matches m) (b.call (.cancelOrder orderId))
          (k.call (.cancelOrder orderId)) :=
        (h.cancelOrderInternal orderId).map (fun b1 k1 h1 => ⟨h1, .nil⟩)
      obtain ⟨⟨b', ts⟩, hrun', hmatch⟩ := hstep.of_ok hrun
      exact ⟨b', ts, k', us, hrun', hmatch, hdoes.linked hk,
        Or.inr ⟨hdoes, trivial⟩⟩
  | modifyOrder x =>
      show ∃ b' ts k' us, b.modifyOrder x = .ok (b', ts) ∧ _
      rw [Orderbook.modifyOrder]
      rcases known_or_not hk x.orderId with hn | ⟨p, hp, hid, hfind⟩
      · rw [h.orders] at hn
        rw [hn]
        exact ⟨b, [], k, [], rfl, ⟨h, .nil⟩, hk, Or.inl rfl⟩
      · rw [h.orders] at hfind
        rw [hfind]
        obtain ⟨k1, hcancel, hr⟩ := cancelOrder_resting hk hp
        have hstep := h.cancelOrderInternal x.orderId
        rw [hid] at hstep
        obtain ⟨b1, hcancel', h1⟩ := hstep.of_ok hcancel
        obtain ⟨b', ts, k', us, hrun, hmatch, hk', hus⟩ := h1.add hr.linked
          (o := x.toOrder (b.heap p).orderType) hs (Nat.le_refl _)
          (fun hno => hc ⟨hno.1, ⟨p, p⟩, hfind, hno.2.1⟩)
        refine ⟨b', ts, k', us, ?_, hmatch, hk', hus.imp_right ?_⟩
        · show (b.cancelOrderInternal x.orderId >>= _) = _
          rw [hid, hcancel']
          exact hrun
        · rintro ⟨ha, hsound⟩
          refine ⟨.modified hp hid hr ?_, ?_⟩
          · rw [h.heap p]
            exact ha
          · exact hsound.resolve_right (hm x.orderId ⟨p, p⟩ hfind)

end OsxMirror
