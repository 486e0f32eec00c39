import OsborneX.ShardModel

/-! # Order entry — the 37 bytes of a payload, and the message they decode to

    The payload of an order-entry frame is the packed `OrderEntryWire` as it
    lies in memory, integers and the price little-endian.  Decoding casts the
    three enum bytes WITHOUT a range check. -/

namespace OsxOrderEntry

open OsxOrderbook OsxPrice OsxShard

/-- `sizeof(OrderEntryWire)`. -/
def wireSize : Nat := 37

/-- The bytes of a payload of the length the header must announce. -/
abbrev Payload := Vector UInt8 wireSize

structure OrderEntryWire where
  sourceTimestamp : Nat
  source : Nat
  symbol : Nat
  orderId : Nat
  side : Nat
  orderType : Nat
  action : Nat
  price : Double
  quantity : Nat
  deriving DecidableEq, Repr

/-- The number some bytes make, least significant first. -/
def littleEndian : List UInt8 → Nat
  | [] => 0
  | byte :: bytes => byte.toNat + 256 * littleEndian bytes

/-- `width` bytes of the payload from `offset` on. -/
def field (payload : Payload) (offset width : Nat) : Nat :=
  littleEndian ((payload.toList.drop offset).take width)

/-- The payload read as the packed structure. -/
def receive (payload : Payload) : OrderEntryWire where
  sourceTimestamp := field payload 0 8
  source := field payload 8 2
  symbol := field payload 10 4
  orderId := field payload 14 8
  side := field payload 22 1
  orderType := field payload 23 1
  action := field payload 24 1
  price := ⟨BitVec.ofNat 64 (field payload 25 8)⟩
  quantity := field payload 33 4

/-- `static_cast<Side>`. -/
def castSide : Nat → Side
  | 0 => .buy
  | 1 => .sell
  | value => .other value

/-- `static_cast<OrderType>`. -/
def castOrderType : Nat → OsxOrderbook.OrderType
  | 0 => .goodTillCancel
  | 1 => .fillAndKill
  | 2 => .fillOrKill
  | 3 => .market
  | value => .other value

/-- `static_cast<OrderAction>`. -/
def castOrderAction : Nat → OrderAction
  | 0 => .add
  | 1 => .cancel
  | 2 => .modify
  | value => .other value

/-- `wire::decode`; the ingress fields are stamped later. -/
def decode (wire : OrderEntryWire) : OrderMessage where
  sourceTimestamp := wire.sourceTimestamp
  ingressTimestamp := 0
  ingressSequence := 0
  source := wire.source
  symbol := wire.symbol
  orderId := wire.orderId
  side := castSide wire.side
  type := castOrderType wire.orderType
  action := castOrderAction wire.action
  price := wire.price
  quantity := wire.quantity

/-- A payload, and the stamps `Ingress::receive` gives its message. -/
structure Arrival where
  payload : Payload
  ingressTimestamp : Nat
  ingressSequence : Nat

/-- The message `connection_loop` hands on for a payload, stamped. -/
def Arrival.message (arrival : Arrival) : OrderMessage :=
  { decode (receive arrival.payload) with
    ingressTimestamp := arrival.ingressTimestamp
    ingressSequence := arrival.ingressSequence }

end OsxOrderEntry
