import OsborneX.OrderEntryLoopModel

/-! # The Python strategy — its orders, and the prints it calls its own

    A `Strategy` sends orders through the `Client` it is bound to and keeps the
    id of every order it sent.  `my_fill` compares a trade print against these
    ids: the bid first, and the ask where the bid is not one of them. -/

namespace OsxStrategy

open OsxOrderbook OsxPrice OsxShard OsxOrderEntry

/-- What a call can raise. -/
inductive Raised where
  /-- the strategy is bound to no client -/
  | runtimeError
  /-- the client is not connected -/
  | connectionError
  /-- a value that does not fit its field -/
  | structError
  /-- `sendall` failed -/
  | osError
  /-- an id the client sent no order under -/
  | keyError
  deriving DecidableEq, Repr

/-! ## The client -/

/-- `_LOCAL_ID_BITS` -/
def localIdBits : Nat := 48

/-- `_LOCAL_ID_MASK` -/
def localIdMask : Nat := (1 <<< localIdBits) - 1

/-- `make_order_id` -/
def makeOrderId (source localId : Nat) : OrderId :=
  (source <<< localIdBits) ||| (localId &&& localIdMask)

structure Client where
  source : Nat
  connected : Bool
  nextLocalId : Nat
  orderSymbols : HashTable OrderId SymbolId

namespace Client

/-- `Client(source=...)`, and `connect`. -/
def connect (source : Nat) : Client := ⟨source, true, 1, .empty⟩

/-- `_send`; `delivered` is what `sendall` does with the frame. -/
def send (c : Client) (message : OrderMessage) (delivered : Bool) :
    Except Raised OrderMessage :=
  if c.connected then
    match pythonFrame message with
    | none => .error .structError
    | some _ => if delivered then .ok message else .error .osError
  else .error .connectionError

/-- The message of an order; an id is taken whether or not it is sent. -/
def add (c : Client) (now : Nat) (symbol : SymbolId) (side : Side)
    (price : Double) (qty : Nat) (delivered : Bool) :
    Client × Except Raised OrderMessage :=
  let localId := c.nextLocalId
  let orderId := makeOrderId c.source localId
  let c := { c with nextLocalId := localId + 1 }
  let message : OrderMessage :=
    { sourceTimestamp := now, ingressTimestamp := 0, ingressSequence := 0,
      source := c.source, symbol, orderId, side, price, quantity := qty,
      type := .goodTillCancel, action := .add }
  match c.send message delivered with
  | .error raised => (c, .error raised)
  | .ok message =>
      ({ c with orderSymbols := c.orderSymbols.upsert orderId (fun _ => symbol) },
        .ok message)

/-- `cancel`; only the id and the symbol are read on the other side. -/
def cancel (c : Client) (now : Nat) (orderId : OrderId) (delivered : Bool) :
    Except Raised OrderMessage :=
  match c.orderSymbols.find? orderId with
  | none => .error .keyError
  | some symbol =>
      let message : OrderMessage :=
        { sourceTimestamp := now, ingressTimestamp := 0, ingressSequence := 0,
          source := c.source, symbol, orderId, side := .buy, price := ⟨0⟩,
          quantity := 0, type := .goodTillCancel, action := .cancel }
      c.send message delivered

end Client

/-! ## The strategy -/

/-- One of the strategy's own orders getting filled. -/
structure OwnFill where
  side : Side
  price : Double
  quantity : Nat
  deriving DecidableEq, Repr

structure Strategy where
  client : Option Client
  ownOrderIds : Finset OrderId

/-- What is done with a strategy between two prints. -/
inductive Action where
  | bind (client : Client)
  | buy (now : Nat) (symbol : SymbolId) (price : Double) (qty : Nat)
      (delivered : Bool)
  | sell (now : Nat) (symbol : SymbolId) (price : Double) (qty : Nat)
      (delivered : Bool)
  | cancel (now : Nat) (orderId : OrderId) (delivered : Bool)
  | disconnect

/-- What came of it: an order whose id was returned, a cancel, or what was
    raised. -/
inductive Event where
  | done
  | ordered (message : OrderMessage)
  | cancelled (message : OrderMessage)
  | raised (raised : Raised)
  deriving DecidableEq, Repr

namespace Strategy

/-- `Strategy()` -/
def new : Strategy := ⟨none, ∅⟩

/-- `buy` and `sell`, by their side. -/
def order (s : Strategy) (now : Nat) (symbol : SymbolId) (side : Side)
    (price : Double) (qty : Nat) (delivered : Bool) : Strategy × Event :=
  match s.client with
  | none => (s, .raised .runtimeError)
  | some client =>
      match client.add now symbol side price qty delivered with
      | (client, .error raised) =>
          ({ s with client := some client }, .raised raised)
      | (client, .ok message) =>
          ({ client := some client,
             ownOrderIds := insert message.orderId s.ownOrderIds },
            .ordered message)

def buy (s : Strategy) (now : Nat) (symbol : SymbolId) (price : Double)
    (qty : Nat) (delivered : Bool) : Strategy × Event :=
  s.order now symbol .buy price qty delivered

def sell (s : Strategy) (now : Nat) (symbol : SymbolId) (price : Double)
    (qty : Nat) (delivered : Bool) : Strategy × Event :=
  s.order now symbol .sell price qty delivered

def cancel (s : Strategy) (now : Nat) (orderId : OrderId) (delivered : Bool) :
    Event :=
  match s.client with
  | none => .raised .runtimeError
  | some client =>
      match client.cancel now orderId delivered with
      | .error raised => .raised raised
      | .ok message => .cancelled message

/-- One action, and what came of it. -/
def act (s : Strategy) : Action → Strategy × Event
  | .bind client => ({ s with client := some client }, .done)
  | .buy now symbol price qty delivered =>
      s.buy now symbol price qty delivered
  | .sell now symbol price qty delivered =>
      s.sell now symbol price qty delivered
  | .cancel now orderId delivered => (s, s.cancel now orderId delivered)
  | .disconnect =>
      ({ s with client := s.client.map ({ · with connected := false }) }, .done)

/-- `my_fill` -/
def myFill (s : Strategy) (trade : TradeExecution) : Option OwnFill :=
  if trade.bidOrderId ∈ s.ownOrderIds then
    some ⟨.buy, trade.bidPrice, trade.quantity⟩
  else if trade.askOrderId ∈ s.ownOrderIds then
    some ⟨.sell, trade.askPrice, trade.quantity⟩
  else none

end Strategy

/-- One action after the other. -/
def runFrom : Strategy → List Action → Strategy × List Event
  | s, [] => (s, [])
  | s, action :: actions =>
      let (s, event) := s.act action
      let (s, events) := runFrom s actions
      (s, event :: events)

end OsxStrategy
