import OsborneX.OrderbookModel
import OsborneX.PriceModel

/-! # The shard — order messages in, trades and top-of-book updates out

    A `Shard` owns one book per symbol and applies the messages it is handed
    one after another.  What it pushes to its two outbound buffers is the
    output of `process`. -/

namespace OsxShard

open OsxOrderbook OsxPrice

abbrev SymbolId := Nat

/-- `OrderAction` is a scoped enum: a cast can give it any byte. -/
inductive OrderAction where
  | add
  | cancel
  | modify
  | other (value : Nat)
  deriving DecidableEq, Repr

structure OrderMessage where
  sourceTimestamp : Nat
  ingressTimestamp : Nat
  ingressSequence : Nat
  source : Nat
  symbol : SymbolId
  orderId : OrderId
  side : Side
  price : Double
  quantity : Nat
  type : OsxOrderbook.OrderType
  action : OrderAction
  deriving DecidableEq, Repr

structure TopOfBookUpdate where
  symbol : SymbolId := 0
  bidPrice : Double := .quietNaN
  bidQuantity : Nat := 0
  askPrice : Double := .quietNaN
  askQuantity : Nat := 0
  sequence : Nat := 0
  deriving DecidableEq, Repr

/-- `HasBid` -/
def TopOfBookUpdate.hasBid (update : TopOfBookUpdate) : Bool :=
  decide (update.bidQuantity > 0)

/-- `HasAsk` -/
def TopOfBookUpdate.hasAsk (update : TopOfBookUpdate) : Bool :=
  decide (update.askQuantity > 0)

structure TradeExecution where
  symbol : SymbolId
  sequence : Nat
  timestamp : Nat
  bidOrderId : OrderId
  bidPrice : Double
  askOrderId : OrderId
  askPrice : Double
  quantity : Nat
  deriving DecidableEq, Repr

/-- What one message made the shard push. -/
structure Published where
  trades : List TradeExecution
  top : Option TopOfBookUpdate
  deriving DecidableEq, Repr

/-- The state `process` works on. -/
structure Shard where
  books : HashTable SymbolId (Orderbook Double)
  lastTop : HashTable SymbolId TopOfBookUpdate

/-- Two NaNs count as the same price. -/
def samePrice (a b : Double) : Bool :=
  if a.isNaN && b.isNaN then true else a == b

def topOfBookEqual (a b : TopOfBookUpdate) : Bool :=
  a.symbol == b.symbol && samePrice a.bidPrice b.bidPrice &&
    a.bidQuantity == b.bidQuantity && samePrice a.askPrice b.askPrice &&
    a.askQuantity == b.askQuantity

/-- The fields the best level of each side sets, where there is one. -/
def topOf (infos : OrderbookLevelInfos Double) (symbol : SymbolId)
    (sequence : Nat) : TopOfBookUpdate :=
  let update : TopOfBookUpdate := { symbol := symbol, sequence := sequence }
  let update := match infos.bids with
    | [] => update
    | best :: _ =>
        { update with bidPrice := best.price, bidQuantity := best.quantity }
  match infos.asks with
  | [] => update
  | best :: _ =>
      { update with askPrice := best.price, askQuantity := best.quantity }

/-- One published trade. -/
def executionOf (message : OrderMessage) (trade : Trade Double) :
    TradeExecution where
  symbol := message.symbol
  sequence := message.ingressSequence
  timestamp := message.ingressTimestamp
  bidOrderId := trade.bidTrade.orderId
  bidPrice := trade.bidTrade.price
  askOrderId := trade.askTrade.orderId
  askPrice := trade.askTrade.price
  quantity := trade.bidTrade.quantity

namespace Shard

/-- A shard with no book. -/
def empty : Shard := ⟨.empty, .empty⟩

/-- `books_[symbol]`: the book of a symbol, default-constructed at first. -/
def book (s : Shard) (symbol : SymbolId) : Orderbook Double :=
  (s.books.find? symbol).getD .empty

def hasBook (s : Shard) (symbol : SymbolId) : Bool := s.books.contains symbol

def makeTopOfBook (s : Shard) (symbol : SymbolId) (sequence : Nat) :
    TopOfBookUpdate :=
  match s.books.find? symbol with
  | none => { symbol := symbol, sequence := sequence }
  | some book => topOf book.getOrderInfos symbol sequence

/-- The call a message makes on its book; an action that is none of the three
    makes none. -/
def callOf (message : OrderMessage) : Option (Call Double) :=
  match message.action with
  | .add => some (.addOrder message.type message.orderId message.side
      message.price message.quantity)
  | .cancel => some (.cancelOrder message.orderId)
  | .modify => some (.modifyOrder ⟨message.orderId, message.side,
      message.price, message.quantity⟩)
  | .other _ => none

/-- `books_[symbol]` after the switch on the action, and the trades. -/
def execute (book : Orderbook Double) (message : OrderMessage) :
    Except Fault (Orderbook Double × List (Trade Double)) :=
  match callOf message with
  | some call => book.call call
  | none => .ok (book, [])

/-- `process`. -/
def process (s : Shard) (message : OrderMessage) :
    Except Fault (Shard × Published) := do
  let (book, trades) ← execute (s.book message.symbol) message
  let s := { s with books := s.books.upsert message.symbol (fun _ => book) }
  let update := s.makeTopOfBook message.symbol message.ingressSequence
  let last := (s.lastTop.find? message.symbol).getD {}
  let topChanged := !topOfBookEqual last update
  let s := { s with
    lastTop := s.lastTop.upsert message.symbol
      (fun _ => if topChanged then update else last) }
  return (s, {
    trades := trades.map (executionOf message)
    top := if topChanged then some update else none })

/-! ### What processing a message changes -/

/-- Putting a book back is seen at its own symbol only. -/
theorem book_upsert (s : Shard) (symbol symbol' : SymbolId)
    (b : Orderbook Double) :
    ((s.books.upsert symbol (fun _ => b)).find? symbol').getD .empty
      = if symbol' = symbol then b else s.book symbol' := by
  rw [HashTable.find?_upsert]
  by_cases h : symbol' = symbol
  · rw [if_pos h, if_pos h]
    rfl
  · rw [if_neg h, if_neg h]
    rfl

/-- A message whose call returned was processed: its book is put back and the
    trades of the call are published. -/
theorem process_ok {s : Shard} {message : OrderMessage} {b : Orderbook Double}
    {ts : List (Trade Double)}
    (h : execute (s.book message.symbol) message = .ok (b, ts)) :
    ∃ s' published, s.process message = .ok (s', published) ∧
      published.trades = ts.map (executionOf message) ∧
      ∀ symbol, s'.book symbol
        = if symbol = message.symbol then b else s.book symbol := by
  refine ⟨_, _, by rw [process, h]; rfl, rfl, fun symbol => ?_⟩
  exact s.book_upsert message.symbol symbol b

end Shard

end OsxShard
