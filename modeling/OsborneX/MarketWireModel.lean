import OsborneX.OrderEntryLoopModel

/-! # Market data on the wire — one publisher, two receivers

    A datagram carries one frame, an 8-byte header and the packed structure of
    an update or of a trade.  It is built by `MarketDataPublisherUdp`, and read
    by `MarketDataListener::run`, which copies bytes onto packed structures,
    and by `MarketDataReceiver._run` in Python, which unpacks format strings.

    Both sockets are on the outside: what a receiver gets within a poll
    interval is nothing or a datagram, of which it takes 512 bytes. -/

namespace OsxMarketWire

open OsxOrderbook OsxPrice OsxShard OsxOrderEntry

/-- What arrives within one poll interval. -/
inductive Arrived where
  | timeout
  | datagram (bytes : List UInt8)
  deriving DecidableEq, Repr

/-- `sizeof(buffer)`, and the argument of `recvfrom`. -/
def bufferSize : Nat := 512

/-- What a receiver makes of a datagram. -/
inductive Decision (Top Trade : Type) where
  | ignored
  | topOfBook (top : Top)
  | trade (trade : Trade)
  deriving DecidableEq, Repr

/-! ## The packed structures -/

structure TopOfBookUpdateWire where
  symbol : Nat
  bidPrice : Double
  bidQuantity : Nat
  askPrice : Double
  askQuantity : Nat
  sequence : Nat
  deriving DecidableEq, Repr

structure TradeExecutionWire where
  symbol : Nat
  sequence : Nat
  timestamp : Nat
  bidOrderId : Nat
  bidPrice : Double
  askOrderId : Nat
  askPrice : Double
  quantity : Nat
  deriving DecidableEq, Repr

/-- `sizeof(TopOfBookUpdateWire)`. -/
def topOfBookSize : Nat := 36

/-- `sizeof(TradeExecutionWire)`. -/
def tradeExecutionSize : Nat := 56

/-- The members of the packed structure. -/
def TopOfBookUpdateWire.fields (wire : TopOfBookUpdateWire) :
    List (Nat × Nat) :=
  [(4, wire.symbol), (8, wire.bidPrice.bits.toNat), (4, wire.bidQuantity),
    (8, wire.askPrice.bits.toNat), (4, wire.askQuantity), (8, wire.sequence)]

/-- The members of the packed structure. -/
def TradeExecutionWire.fields (wire : TradeExecutionWire) :
    List (Nat × Nat) :=
  [(4, wire.symbol), (8, wire.sequence), (8, wire.timestamp),
    (8, wire.bidOrderId), (8, wire.bidPrice.bits.toNat), (8, wire.askOrderId),
    (8, wire.askPrice.bits.toNat), (4, wire.quantity)]

/-- A double at an offset. -/
def doubleAt (bytes : List UInt8) (offset : Nat) : Double :=
  ⟨BitVec.ofNat 64 (fieldAt bytes offset 8)⟩

/-- The bytes read as the packed structure. -/
def readTopOfBook (bytes : List UInt8) : TopOfBookUpdateWire where
  symbol := fieldAt bytes 0 4
  bidPrice := doubleAt bytes 4
  bidQuantity := fieldAt bytes 12 4
  askPrice := doubleAt bytes 16
  askQuantity := fieldAt bytes 24 4
  sequence := fieldAt bytes 28 8

/-- The bytes read as the packed structure. -/
def readTradeExecution (bytes : List UInt8) : TradeExecutionWire where
  symbol := fieldAt bytes 0 4
  sequence := fieldAt bytes 4 8
  timestamp := fieldAt bytes 12 8
  bidOrderId := fieldAt bytes 20 8
  bidPrice := doubleAt bytes 28
  askOrderId := fieldAt bytes 36 8
  askPrice := doubleAt bytes 44
  quantity := fieldAt bytes 52 4

/-! ## The publisher -/

/-- `wire::encode` of an update. -/
def encodeTop (update : TopOfBookUpdate) : TopOfBookUpdateWire where
  symbol := update.symbol
  bidPrice := update.bidPrice
  bidQuantity := update.bidQuantity
  askPrice := update.askPrice
  askQuantity := update.askQuantity
  sequence := update.sequence

/-- `wire::encode` of a trade. -/
def encodeTrade (trade : TradeExecution) : TradeExecutionWire where
  symbol := trade.symbol
  sequence := trade.sequence
  timestamp := trade.timestamp
  bidOrderId := trade.bidOrderId
  bidPrice := trade.bidPrice
  askOrderId := trade.askOrderId
  askPrice := trade.askPrice
  quantity := trade.quantity

/-- A header of this protocol for a payload of some size. -/
def headerOf (messageType : MessageType) (size : Nat) : FrameHeader :=
  ⟨frameMagic, frameVersion, messageType, size⟩

/-- `send_top_of_book`: the datagram. -/
def sendTopOfBook (update : TopOfBookUpdate) : List UInt8 :=
  packed (headerOf .topOfBook topOfBookSize).fields ++
    packed (encodeTop update).fields

/-- `send_trade`: the datagram. -/
def sendTrade (trade : TradeExecution) : List UInt8 :=
  packed (headerOf .tradeExecution tradeExecutionSize).fields ++
    packed (encodeTrade trade).fields

/-! ## The listener -/

/-- `wire::decode` of an update. -/
def decodeTop (wire : TopOfBookUpdateWire) : TopOfBookUpdate where
  symbol := wire.symbol
  bidPrice := wire.bidPrice
  bidQuantity := wire.bidQuantity
  askPrice := wire.askPrice
  askQuantity := wire.askQuantity
  sequence := wire.sequence

/-- `wire::decode` of a trade. -/
def decodeTrade (wire : TradeExecutionWire) : TradeExecution where
  symbol := wire.symbol
  sequence := wire.sequence
  timestamp := wire.timestamp
  bidOrderId := wire.bidOrderId
  bidPrice := wire.bidPrice
  askOrderId := wire.askOrderId
  askPrice := wire.askPrice
  quantity := wire.quantity

/-- The body of `run`, for one datagram. -/
def listen (datagram : List UInt8) :
    Decision TopOfBookUpdate TradeExecution :=
  let buffer := datagram.take bufferSize
  if buffer.length = 0 then .ignored
  else if h : headerSize ≤ buffer.length then
    let header := readHeader ⟨⟨buffer.take headerSize⟩,
      List.length_take_of_le h⟩
    -- stray or foreign datagram on the group
    if header.magic ≠ frameMagic ∨ header.version ≠ frameVersion then .ignored
    else
      let payloadBytes := buffer.drop headerSize
      let payloadLength := buffer.length - headerSize
      if header.messageType = .topOfBook ∧ topOfBookSize ≤ payloadLength then
        .topOfBook (decodeTop (readTopOfBook payloadBytes))
      else if header.messageType = .tradeExecution ∧
          tradeExecutionSize ≤ payloadLength then
        .trade (decodeTrade (readTradeExecution payloadBytes))
      else .ignored
  else .ignored

/-- `run`: what is handed to the two handlers. -/
def run : List Arrived → List (Decision TopOfBookUpdate TradeExecution)
  | [] => []
  | .timeout :: arrived => run arrived
  | .datagram bytes :: arrived =>
      match listen bytes with
      | .ignored => run arrived
      | decision => decision :: run arrived

/-! ## The receiver -/

namespace Python

/-- The exceptions decoding can raise. -/
inductive Raised where
  | structError
  | protocolError
  deriving DecidableEq, Repr

/-- `calcsize` -/
def calcsize (format : List FormatCharacter) : Nat :=
  (format.map FormatCharacter.size).sum

/-- The values of consecutive fields. -/
def unpackFrom : List FormatCharacter → List UInt8 → List Nat
  | [], _ => []
  | c :: format, bytes =>
      littleEndian (bytes.take c.size) :: unpackFrom format (bytes.drop c.size)

/-- `Struct.unpack` for a format that starts with `<`; it wants exactly as many
    bytes as the format has. -/
def structUnpack (format : List FormatCharacter) (bytes : List UInt8) :
    Except Raised (List Nat) :=
  if bytes.length = calcsize format then .ok (unpackFrom format bytes)
  else .error .structError

/-- `FRAME_HEADER` -/
def frameHeader : List FormatCharacter := [.I, .B, .B, .H]

/-- `TOP_OF_BOOK_WIRE` -/
def topOfBookWire : List FormatCharacter := [.I, .d, .I, .d, .I, .Q]

/-- `TRADE_EXECUTION_WIRE` -/
def tradeExecutionWire : List FormatCharacter :=
  [.I, .Q, .Q, .Q, .d, .Q, .d, .I]

/-- `wire.FrameHeader` -/
structure FrameHeader where
  magic : Nat
  version : Nat
  messageType : Nat
  payloadLength : Nat
  deriving DecidableEq, Repr

/-- `wire.TopOfBook` -/
structure TopOfBook where
  symbol : Nat
  bidPrice : Double
  bidQuantity : Nat
  askPrice : Double
  askQuantity : Nat
  sequence : Nat
  deriving DecidableEq, Repr

/-- `wire.TradeExecution` -/
structure TradeExecution where
  symbol : Nat
  sequence : Nat
  timestamp : Nat
  bidOrderId : Nat
  bidPrice : Double
  askOrderId : Nat
  askPrice : Double
  quantity : Nat
  deriving DecidableEq, Repr

/-- The value of a `d`, by its 64-bit pattern. -/
def float (pattern : Nat) : Double := ⟨BitVec.ofNat 64 pattern⟩

/-- `decode_frame_header` -/
def decodeFrameHeader (data : List UInt8) : Except Raised FrameHeader := do
  match ← structUnpack frameHeader data with
  | [magic, version, messageType, payloadLength] =>
      if magic ≠ frameMagic ∨ version ≠ frameVersion then
        throw .protocolError
      else
        return ⟨magic, version, messageType, payloadLength⟩
  | _ => throw .structError

/-- `decode_top_of_book` -/
def decodeTopOfBook (payload : List UInt8) : Except Raised TopOfBook := do
  match ← structUnpack topOfBookWire payload with
  | [symbol, bidPrice, bidQuantity, askPrice, askQuantity, sequence] =>
      return ⟨symbol, float bidPrice, bidQuantity, float askPrice, askQuantity,
        sequence⟩
  | _ => throw .structError

/-- `decode_trade_execution` -/
def decodeTradeExecution (payload : List UInt8) :
    Except Raised TradeExecution := do
  match ← structUnpack tradeExecutionWire payload with
  | [symbol, sequence, timestamp, bidOrderId, bidPrice, askOrderId, askPrice,
      quantity] =>
      return ⟨symbol, sequence, timestamp, bidOrderId, float bidPrice,
        askOrderId, float askPrice, quantity⟩
  | _ => throw .structError

/-- The body of `_run`, for one datagram; a `struct.error` is not caught. -/
def receive (datagram : List UInt8) :
    Except Raised (Decision TopOfBook TradeExecution) :=
  let data := datagram.take bufferSize
  if data.length < calcsize frameHeader then .ok .ignored
  else
    match decodeFrameHeader (data.take (calcsize frameHeader)) with
    | .error .protocolError => .ok .ignored
    | .error raised => .error raised
    | .ok header =>
        let payload := data.drop (calcsize frameHeader)
        if header.messageType = MessageType.topOfBook.byte ∧
            calcsize topOfBookWire ≤ payload.length then
          (decodeTopOfBook (payload.take (calcsize topOfBookWire))).map
            .topOfBook
        else if header.messageType = MessageType.tradeExecution.byte ∧
            calcsize tradeExecutionWire ≤ payload.length then
          (decodeTradeExecution
            (payload.take (calcsize tradeExecutionWire))).map .trade
        else .ok .ignored

/-- `_run`: what is handed to the handlers, until something is raised. -/
def run : List Arrived →
    Except Raised (List (Decision TopOfBook TradeExecution))
  | [] => .ok []
  | .timeout :: arrived => run arrived
  | .datagram bytes :: arrived => do
      match ← receive bytes with
      | .ignored => run arrived
      | decision => return decision :: (← run arrived)

end Python

end OsxMarketWire
