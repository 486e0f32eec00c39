import OsborneX.OrderedMapProofs
import OsborneX.HashTableProofs
import OsborneX.ExecutionProofs

/-! # The order book — orders, price levels, the id index and the aggregates

    One matching book for one symbol.  Four structures describe the resting
    orders redundantly and every operation maintains them by hand:

    * `bids` and `asks`, price-ordered maps from a limit price to the FIFO list
      of the orders resting there (best price first on both sides);
    * `orders`, the index from an order id to the order and its place in one of
      those lists;
    * `levelData`, a running count and quantity per price, shared by both sides;
    * the `Order` objects, reached through shared pointers.

    Orders are shared between a level list and the index, so they live in a
    `heap`; a list node is named by the pointer it holds, which is what a list
    iterator designates.  An access that the source leaves undefined, throws on,
    or marks unreachable is a `Fault`. -/

namespace OsxOrderbook

/-- Order ids are compared and hashed, never computed with. -/
abbrev OrderId := Nat

/-- The address of an `Order` object. -/
abbrev OrderPointer := Nat

/-- `Side` is a scoped enum: a cast can give it a value with no enumerator. -/
inductive Side where
  | buy
  | sell
  | other (value : Nat)
  deriving DecidableEq, Repr

inductive OrderType where
  | goodTillCancel
  | fillAndKill
  | fillOrKill
  | market
  | other (value : Nat)
  deriving DecidableEq, Repr

/-- The ways an execution of the source can leave defined behaviour. -/
inductive Fault where
  /-- a `std::unreachable()` branch -/
  | unreachable
  /-- `.at()` on a key that is not there -/
  | outOfRange
  /-- `front()` of an empty list -/
  | emptyFront
  /-- a list iterator used on a list that does not hold it -/
  | danglingIterator
  /-- `std::logic_error` from `ToGoodTillCancel` -/
  | logicError
  /-- a loop that ran past its budget -/
  | outOfFuel
  deriving DecidableEq, Repr

/-- An order: its terms and what is left of it.  Quantities are 32-bit
    unsigned; an order only ever counts down, so its own cannot wrap. -/
structure Order (P : Type) where
  orderType : OrderType
  orderId : OrderId
  side : Side
  price : P
  initialQuantity : Nat
  remainingQuantity : Nat
  deriving DecidableEq, Repr

/-- One side of a trade. -/
structure TradeInfo (P : Type) where
  orderId : OrderId
  price : P
  quantity : Nat
  deriving DecidableEq, Repr

structure Trade (P : Type) where
  bidTrade : TradeInfo P
  askTrade : TradeInfo P
  deriving DecidableEq, Repr

/-- The terms of a modification. -/
structure OrderModify (P : Type) where
  orderId : OrderId
  side : Side
  price : P
  quantity : Nat
  deriving DecidableEq, Repr

/-- The aggregate kept for one price. -/
structure LevelData where
  quantity : Nat
  count : Nat
  deriving DecidableEq, Repr

/-- A price level as reported. -/
structure LevelInfo (P : Type) where
  price : P
  quantity : Nat
  deriving DecidableEq, Repr

structure OrderbookLevelInfos (P : Type) where
  bids : List (LevelInfo P)
  asks : List (LevelInfo P)
  deriving DecidableEq, Repr

/-- `LevelData::Action`. -/
inductive Action where
  | add
  | remove
  | matched
  deriving DecidableEq, Repr

/-- An index entry: the order and its node in a level list. -/
structure OrderEntry where
  order : OrderPointer
  location : OrderPointer
  deriving DecidableEq, Repr

variable {P : Type}

/-! ## Orders -/

namespace Order

/-- The constructor: nothing is filled yet. -/
def new (orderType : OrderType) (orderId : OrderId) (side : Side) (price : P)
    (quantity : Nat) : Order P :=
  { orderType, orderId, side, price,
    initialQuantity := quantity, remainingQuantity := quantity }

def isFilled (o : Order P) : Bool := o.remainingQuantity == 0

/-- Fill by `quantity`; a fill beyond the remainder is silently refused. -/
def fill (o : Order P) (quantity : Nat) : Order P :=
  if quantity > o.remainingQuantity then o
  else { o with remainingQuantity := o.remainingQuantity - quantity }

/-- A market order takes a limit price and rests like any other. -/
def toGoodTillCancel (o : Order P) (price : P) : Except Fault (Order P) :=
  if o.orderType ≠ .market then .error .logicError
  else .ok { o with price := price, orderType := .goodTillCancel }

end Order

/-- `ToOrderPointer`: the modified order, built afresh. -/
def OrderModify.toOrder (m : OrderModify P) (orderType : OrderType) : Order P :=
  Order.new orderType m.orderId m.side m.price m.quantity

/-! ## Level aggregates -/

/-- Unsigned 32-bit subtraction. -/
def wrapSub (a b : Nat) : Nat := (a + (2 ^ 32 - b % 2 ^ 32)) % 2 ^ 32

/-- Unsigned 32-bit addition. -/
def wrapAdd (a b : Nat) : Nat := (a + b) % 2 ^ 32

/-- The arithmetic of `UpdateLevelData` on one entry. -/
def LevelData.apply (data : LevelData) (quantity : Nat) :
    Action → LevelData
  | .add => ⟨wrapAdd data.quantity quantity, wrapAdd data.count 1⟩
  | .remove => ⟨wrapSub data.quantity quantity, wrapSub data.count 1⟩
  | .matched => ⟨wrapSub data.quantity quantity, data.count⟩

/-- A default-inserted entry. -/
def LevelData.zero : LevelData := ⟨0, 0⟩

abbrev LevelDataMap (P : Type) [BEq P] := HashTable P LevelData

/-- `UpdateLevelData`: apply the action to the (default-inserted) entry, and
    drop the entry when its count is zero. -/
def updateLevelData [BEq P] (levelData : LevelDataMap P) (price : P)
    (quantity : Nat) (action : Action) : LevelDataMap P :=
  let data := ((levelData.find? price).getD .zero).apply quantity action
  let levelData := levelData.upsert price (fun _ => data)
  if data.count = 0 then levelData.erase price else levelData

/-- `OnOrderMatched`. -/
def onOrderMatched [BEq P] (levelData : LevelDataMap P) (price : P)
    (quantity : Nat) (isFullyFilled : Bool) : LevelDataMap P :=
  updateLevelData levelData price quantity
    (if isFullyFilled then .remove else .matched)

/-! ## Price levels -/

/-- One side of the book: lists of orders under a price comparison. -/
abbrev Levels (P : Type) (lt : P → P → Prop) :=
  OrderedMap P (List OrderPointer) lt

instance isTrans_gt [LinearOrder P] : IsTrans P (fun a b => a > b) :=
  ⟨fun _ _ _ h h' => lt_trans h' h⟩

instance isTrans_lt [LinearOrder P] : IsTrans P (fun a b => a < b) :=
  ⟨fun _ _ _ h h' => lt_trans h h'⟩

section LevelOperations

variable {lt : P → P → Prop} [DecidableRel lt]

/-- `levels.at(price)`. -/
def levelAt (levels : Levels P lt) (price : P) :
    Except Fault (List OrderPointer) :=
  match levels.find? price with
  | some level => .ok level
  | none => .error .outOfRange

/-- `level.erase(iterator)`.  An iterator of another list is not followed
    further: what it erases from is not determined. -/
def eraseIterator (level : List OrderPointer) (location : OrderPointer) :
    Except Fault (List OrderPointer) :=
  if location ∈ level then .ok (level.erase location)
  else .error .danglingIterator

/-- Store a level back, or erase it when it has become empty. -/
def storeLevel (levels : Levels P lt) (price : P)
    (level : List OrderPointer) : Levels P lt :=
  if level.isEmpty then levels.erase price
  else levels.adjust price (fun _ => level)

/-- Take one node out of the level at `price`. -/
def eraseFromLevel (levels : Levels P lt) (price : P)
    (location : OrderPointer) : Except Fault (Levels P lt) := do
  let level ← levelAt levels price
  let level ← eraseIterator level location
  return storeLevel levels price level

/-- `levels[price].push_back(order)`. -/
def pushBack [IsTrans P lt] (levels : Levels P lt) (price : P)
    (order : OrderPointer) : Levels P lt :=
  levels.upsert price (fun level => level.getD [] ++ [order])

end LevelOperations

/-! ## The book -/

/-- The state of an `Orderbook`, with the objects its pointers reach and the
    next free address. -/
structure Orderbook (P : Type) [LT P] [BEq P] where
  levelData : LevelDataMap P
  bids : Levels P (fun a b => a > b)
  asks : Levels P (fun a b => a < b)
  orders : HashTable OrderId OrderEntry
  heap : OrderPointer → Order P
  next : OrderPointer

section Operations

variable [LT P] [DecidableLT P] [LE P] [DecidableLE P] [BEq P]

namespace Orderbook

/-- A default-constructed book. -/
def empty [Inhabited P] : Orderbook P where
  levelData := .empty
  bids := .empty
  asks := .empty
  orders := .empty
  heap := fun _ => Order.new .goodTillCancel 0 .buy default 0
  next := 0

/-- `std::make_shared<Order>`: the next address now holds `order`. -/
def makeShared (b : Orderbook P) (order : Order P) : Orderbook P :=
  { b with heap := Function.update b.heap b.next order, next := b.next + 1 }

/-- Overwrite the object at `ptr`. -/
def store (b : Orderbook P) (ptr : OrderPointer) (order : Order P) :
    Orderbook P :=
  { b with heap := Function.update b.heap ptr order }

/-- Can an order on `side` at `price` trade at once? -/
def canMatch (b : Orderbook P) (side : Side) (price : P) :
    Except Fault Bool :=
  match side with
  | .buy =>
      match b.asks.begin? with
      | none => .ok false
      | some (bestAsk, _) => .ok (decide (price ≥ bestAsk))
  | .sell =>
      match b.bids.begin? with
      | none => .ok false
      | some (bestBid, _) => .ok (decide (price ≤ bestBid))
  | .other _ => .error .unreachable

/-- The loop of `CanFullyFill` over the level aggregates. -/
def fillsFrom (side : Side) (threshold : Option P) (price : P) :
    Nat → List (P × LevelData) → Bool
  | _, [] => false
  | quantity, (levelPrice, levelData) :: rest =>
      if (∃ best ∈ threshold, (side = .buy ∧ best > levelPrice) ∨
            (side = .sell ∧ best < levelPrice)) ∨
          (side = .buy ∧ levelPrice > price) ∨
          (side = .sell ∧ levelPrice < price) then
        fillsFrom side threshold price quantity rest
      else if quantity ≤ levelData.quantity then true
      else fillsFrom side threshold price (quantity - levelData.quantity) rest

/-- `CanFullyFill`: is `quantity` available at prices no worse than `price`,
    going by the aggregates? -/
def canFullyFill (b : Orderbook P) (side : Side) (price : P)
    (quantity : Nat) : Except Fault Bool := do
  if !(← b.canMatch side price) then
    return false
  else
    let threshold ← match side with
      | .buy => pure (b.asks.begin?.map Prod.fst)
      | .sell => pure (b.bids.begin?.map Prod.fst)
      | .other _ => throw .unreachable
    return fillsFrom side threshold price quantity b.levelData.entries

/-- `OnOrderCancelled`. -/
def onOrderCancelled (b : Orderbook P) (order : Order P) : Orderbook P :=
  { b with levelData :=
      updateLevelData b.levelData order.price order.remainingQuantity .remove }

/-- `OnOrderAdded`. -/
def onOrderAdded (b : Orderbook P) (order : Order P) : Orderbook P :=
  { b with levelData :=
      updateLevelData b.levelData order.price order.initialQuantity .add }

/-- `CancelOrderInternal`: out of the index, out of its level, out of the
    aggregates. -/
def cancelOrderInternal (b : Orderbook P) (orderId : OrderId) :
    Except Fault (Orderbook P) :=
  match b.orders.find? orderId with
  | none => .ok b
  | some entry => do
      let order := b.heap entry.order
      let b := { b with orders := b.orders.erase orderId }
      match order.side with
      | .buy =>
          let bids ← eraseFromLevel b.bids order.price entry.location
          return { b with bids := bids }.onOrderCancelled order
      | .sell =>
          let asks ← eraseFromLevel b.asks order.price entry.location
          return { b with asks := asks }.onOrderCancelled order
      | .other _ => throw .unreachable

def cancelOrder (b : Orderbook P) (orderId : OrderId) :
    Except Fault (Orderbook P) :=
  b.cancelOrderInternal orderId

/-! ### Matching -/

/-- What the inner loop hands back: the book (its two best levels held apart),
    what is left of those levels, and the trades so far. -/
structure Matched (P : Type) [LT P] [BEq P] where
  book : Orderbook P
  bidsAtBestPrice : List OrderPointer
  asksAtBestPrice : List OrderPointer
  trades : List (Trade P)

/-- One pass of the inner loop: fill the two front orders against each other,
    drop those that are filled, record the trade. -/
def matchFronts (b : Orderbook P) (bid ask : OrderPointer) :
    Orderbook P × Trade P :=
  let quantity :=
    min (b.heap bid).remainingQuantity (b.heap ask).remainingQuantity
  let b := b.store bid ((b.heap bid).fill quantity)
  let b := b.store ask ((b.heap ask).fill quantity)
  let bidOrder := b.heap bid
  let askOrder := b.heap ask
  let orders := if bidOrder.isFilled then b.orders.erase bidOrder.orderId
    else b.orders
  let orders := if askOrder.isFilled then orders.erase askOrder.orderId
    else orders
  let levelData :=
    onOrderMatched b.levelData bidOrder.price quantity bidOrder.isFilled
  let levelData :=
    onOrderMatched levelData askOrder.price quantity askOrder.isFilled
  ({ b with orders := orders, levelData := levelData },
    { bidTrade := ⟨bidOrder.orderId, bidOrder.price, quantity⟩,
      askTrade := ⟨askOrder.orderId, askOrder.price, quantity⟩ })

/-- The inner loop, over the lists of the best bid and best ask level. -/
def matchLevels : Nat → Matched P → Except Fault (Matched P)
  | fuel, m =>
      match m.bidsAtBestPrice, m.asksAtBestPrice with
      | bid :: bids, ask :: asks =>
          match fuel with
          | 0 => .error .outOfFuel
          | fuel + 1 =>
              let (b, trade) := m.book.matchFronts bid ask
              matchLevels fuel
                { book := b,
                  bidsAtBestPrice :=
                    if (b.heap bid).isFilled then bids else bid :: bids,
                  asksAtBestPrice :=
                    if (b.heap ask).isFilled then asks else ask :: asks,
                  trades := m.trades ++ [trade] }
      | _, _ => .ok m

/-- Cancel the order at the front of the best level if it is Fill-And-Kill. -/
def killFront {lt : P → P → Prop} (b : Orderbook P) (levels : Levels P lt) :
    Except Fault (Orderbook P) :=
  match levels.begin? with
  | none => .ok b
  | some (_, []) => .error .emptyFront
  | some (_, order :: _) =>
      if (b.heap order).orderType = .fillAndKill then
        b.cancelOrderInternal (b.heap order).orderId
      else .ok b

/-- Write the two best levels back after the inner loop: an exhausted level
    leaves its map, and its price leaves the aggregates. -/
def storeBest (b : Orderbook P) (bestBidPrice bestAskPrice : P)
    (bidsAtBestPrice asksAtBestPrice : List OrderPointer) : Orderbook P :=
  let levelData := if bidsAtBestPrice.isEmpty then
    b.levelData.erase bestBidPrice else b.levelData
  let levelData := if asksAtBestPrice.isEmpty then
    levelData.erase bestAskPrice else levelData
  { b with
    levelData := levelData
    bids := storeLevel b.bids bestBidPrice bidsAtBestPrice
    asks := storeLevel b.asks bestAskPrice asksAtBestPrice }

/-- One pass of the outer loop, for crossing best prices. -/
def matchRound (b : Orderbook P) (bestBidPrice bestAskPrice : P)
    (trades : List (Trade P)) :
    Except Fault (Orderbook P × List (Trade P)) := do
  let bidsAtBestPrice ← levelAt b.bids bestBidPrice
  let asksAtBestPrice ← levelAt b.asks bestAskPrice
  let m ← matchLevels (bidsAtBestPrice.length + asksAtBestPrice.length)
    { book := b, bidsAtBestPrice, asksAtBestPrice, trades }
  let b := m.book.storeBest bestBidPrice bestAskPrice
    m.bidsAtBestPrice m.asksAtBestPrice
  let b ← b.killFront b.bids
  let b ← b.killFront b.asks
  return (b, m.trades)

/-- The outer loop: match while the best prices cross. -/
def matchLoop : Nat → Orderbook P → List (Trade P) →
    Except Fault (Orderbook P × List (Trade P))
  | fuel, b, trades =>
      match b.bids.begin?, b.asks.begin? with
      | some (bestBidPrice, _), some (bestAskPrice, _) =>
          if bestBidPrice < bestAskPrice then .ok (b, trades)
          else
            match fuel with
            | 0 => .error .outOfFuel
            | fuel + 1 => do
                let (b, trades) ←
                  b.matchRound bestBidPrice bestAskPrice trades
                matchLoop fuel b trades
      | _, _ => .ok (b, trades)

/-- `MatchOrders`; every round erases a level, which bounds the rounds. -/
def matchOrders (b : Orderbook P) :
    Except Fault (Orderbook P × List (Trade P)) :=
  matchLoop (b.bids.entries.length + b.asks.entries.length) b []

/-! ### Adding and modifying -/

/-- A Fill-And-Kill order that cannot match now is dropped. -/
def dropsFillAndKill (b : Orderbook P) (order : Order P) :
    Except Fault Bool :=
  if order.orderType = .fillAndKill then
    (b.canMatch order.side order.price).map (!·)
  else .ok false

/-- A market order becomes a limit order at the worst opposite price; with no
    opposite side it is dropped. -/
def convertMarket (b : Orderbook P) (ptr : OrderPointer) :
    Except Fault (Option (Orderbook P)) :=
  let order := b.heap ptr
  if order.orderType = .market then
    match order.side, b.asks.rbegin?, b.bids.rbegin? with
    | .buy, some (worstAsk, _), _ =>
        (order.toGoodTillCancel worstAsk).map (some ∘ b.store ptr)
    | .sell, _, some (worstBid, _) =>
        (order.toGoodTillCancel worstBid).map (some ∘ b.store ptr)
    | _, _, _ => .ok none
  else .ok (some b)

/-- A Fill-Or-Kill order that cannot be filled in full is dropped. -/
def dropsFillOrKill (b : Orderbook P) (order : Order P) :
    Except Fault Bool :=
  if order.orderType = .fillOrKill then
    (b.canFullyFill order.side order.price order.initialQuantity).map (!·)
  else .ok false

variable [IsTrans P (fun a b => a > b)] [IsTrans P (fun a b => a < b)]

/-- Put the order at the back of its level, and into the index. -/
def rest (b : Orderbook P) (ptr : OrderPointer) :
    Except Fault (Orderbook P) :=
  let order := b.heap ptr
  let orders := b.orders.emplace order.orderId { order := ptr, location := ptr }
  match order.side with
  | .buy =>
      .ok { b with bids := pushBack b.bids order.price ptr, orders := orders }
  | .sell =>
      .ok { b with asks := pushBack b.asks order.price ptr, orders := orders }
  | .other _ => .error .unreachable

/-- `AddOrder`: the admission checks, then rest, then match. -/
def addOrder (b : Orderbook P) (ptr : OrderPointer) :
    Except Fault (Orderbook P × List (Trade P)) := do
  if b.orders.contains (b.heap ptr).orderId then
    return (b, [])
  else if ← b.dropsFillAndKill (b.heap ptr) then
    return (b, [])
  else
    match ← b.convertMarket ptr with
    | none => return (b, [])
    | some b =>
        if ← b.dropsFillOrKill (b.heap ptr) then
          return (b, [])
        else
          let b ← b.rest ptr
          (b.onOrderAdded (b.heap ptr)).matchOrders

/-- `ModifyOrder`: cancel, then add afresh under the old order's type. -/
def modifyOrder (b : Orderbook P) (order : OrderModify P) :
    Except Fault (Orderbook P × List (Trade P)) :=
  match b.orders.find? order.orderId with
  | none => .ok (b, [])
  | some entry => do
      let orderType := (b.heap entry.order).orderType
      let b ← b.cancelOrder order.orderId
      (b.makeShared (order.toOrder orderType)).addOrder b.next

end Orderbook

/-! ## Calls and runs -/

/-- A call on the book; an added order is constructed afresh. -/
inductive Call (P : Type) where
  | addOrder (orderType : OrderType) (orderId : OrderId) (side : Side)
      (price : P) (quantity : Nat)
  | cancelOrder (orderId : OrderId)
  | modifyOrder (order : OrderModify P)
  deriving DecidableEq, Repr

variable [IsTrans P (fun a b => a > b)] [IsTrans P (fun a b => a < b)]

namespace Orderbook

/-- Execute one call. -/
def call (b : Orderbook P) :
    Call P → Except Fault (Orderbook P × List (Trade P))
  | .addOrder orderType orderId side price quantity =>
      (b.makeShared (.new orderType orderId side price quantity)).addOrder
        b.next
  | .cancelOrder orderId => (b.cancelOrder orderId).map (·, [])
  | .modifyOrder order => b.modifyOrder order

/-- Execute a sequence of calls; the trades are kept call by call. -/
def run (b : Orderbook P) (calls : List (Call P)) :
    Except Fault (Orderbook P × List (List (Trade P))) :=
  Execution.execute call b calls

/-! ## What a caller can read -/

/-- `Size`. -/
def size (b : Orderbook P) : Nat := b.orders.entries.length

/-- One level as a caller sees it: its price, and its 32-bit total. -/
def createLevelInfo (b : Orderbook P) (price : P)
    (orders : List OrderPointer) : LevelInfo P where
  price := price
  quantity := orders.foldl
    (fun runningSum order =>
      wrapAdd runningSum (b.heap order).remainingQuantity) 0

/-- `GetOrderInfos`: both sides, best level first. -/
def getOrderInfos (b : Orderbook P) : OrderbookLevelInfos P where
  bids := b.bids.entries.map fun e => b.createLevelInfo e.1 e.2
  asks := b.asks.entries.map fun e => b.createLevelInfo e.1 e.2

end Orderbook

end Operations

end OsxOrderbook
