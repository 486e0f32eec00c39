import OsborneX.OrderEntryModel

/-! # The order-entry stream — frames on a TCP connection, both ends

    A connection carries frames, an 8-byte header and a payload each.  The
    listener's loop collects the bytes of one structure after the other from
    whatever pieces the kernel returns; the clients, in C++ and in Python,
    write the packed structures.

    The kernel is on the outside: what `wait_readable` and `recv` answer on a
    connection, in order, is a list of `Readiness`, and what `send` takes is a
    list of counts. -/

namespace OsxOrderEntry

open OsxOrderbook OsxPrice OsxShard

/-! ## Packed structures -/

/-- The bytes of an unsigned integer in memory, least significant first. -/
def toBytes : Nat → Nat → List UInt8
  | 0, _ => []
  | width + 1, value => UInt8.ofNat value :: toBytes width (value / 256)

/-- A structure without padding: the width and the value of each field. -/
def packed (fields : List (Nat × Nat)) : List UInt8 :=
  fields.flatMap (fun f => toBytes f.1 f.2)

/-- The width of some fields together. -/
def widthOf (fields : List (Nat × Nat)) : Nat := (fields.map Prod.fst).sum

theorem length_toBytes (width : Nat) :
    ∀ value, (toBytes width value).length = width := by
  induction width with
  | zero => exact fun _ => rfl
  | succ width ih =>
      intro value
      rw [toBytes, List.length_cons, ih]

theorem length_packed (fields : List (Nat × Nat)) :
    (packed fields).length = widthOf fields := by
  induction fields with
  | nil => rfl
  | cons f fields ih =>
      rw [packed, widthOf] at *
      rw [List.flatMap_cons, List.length_append, length_toBytes, ih,
        List.map_cons, List.sum_cons]

/-! ## The frame header -/

/-- `Net::wire::MessageType`. -/
inductive MessageType where
  | orderEntry
  | topOfBook
  | tradeExecution
  | other (value : Nat)
  deriving DecidableEq, Repr

/-- `static_cast<MessageType>`. -/
def castMessageType : Nat → MessageType
  | 1 => .orderEntry
  | 2 => .topOfBook
  | 3 => .tradeExecution
  | value => .other value

/-- The value of an enumerator. -/
def MessageType.byte : MessageType → Nat
  | .orderEntry => 1
  | .topOfBook => 2
  | .tradeExecution => 3
  | .other value => value

/-- `kFrameMagic`. -/
def frameMagic : Nat := 0x4F584E31

/-- `kFrameVersion`. -/
def frameVersion : Nat := 1

structure FrameHeader where
  magic : Nat
  version : Nat
  messageType : MessageType
  payloadLength : Nat
  deriving DecidableEq, Repr

/-- `sizeof(FrameHeader)`. -/
def headerSize : Nat := 8

/-- `width` bytes from `offset` on. -/
def fieldAt (bytes : List UInt8) (offset width : Nat) : Nat :=
  littleEndian ((bytes.drop offset).take width)

/-- The bytes read as the packed header. -/
def readHeader (bytes : Vector UInt8 headerSize) : FrameHeader where
  magic := fieldAt bytes.toList 0 4
  version := fieldAt bytes.toList 4 1
  messageType := castMessageType (fieldAt bytes.toList 5 1)
  payloadLength := fieldAt bytes.toList 6 2

/-! ## The listener -/

/-- What the kernel answers when the loop waits and reads: nothing within the
    poll interval, or some bytes.  No bytes at all is the end of the
    stream. -/
inductive Readiness where
  | timeout
  | readable (bytes : List UInt8)
  deriving DecidableEq, Repr

/-- The loop of `recv_all`, `received` being what it has.  A read takes no more
    than is missing; what it leaves is there for the next. -/
def receiveLoop (length : Nat) :
    List UInt8 → List Readiness → Option (List UInt8 × List Readiness)
  | received, [] =>
      if received.length < length then none else some (received, [])
  | received, .timeout :: events =>
      if received.length < length then receiveLoop length received events
      else some (received, .timeout :: events)
  | received, .readable bytes :: events =>
      if received.length < length then
        let remaining := length - received.length
        if bytes = [] then none
        else if bytes.length ≤ remaining then
          receiveLoop length (received ++ bytes) events
        else
          some (received ++ bytes.take remaining,
            .readable (bytes.drop remaining) :: events)
      else some (received, .readable bytes :: events)

/-- The bytes that are still to come. -/
def pending (events : List Readiness) : List UInt8 :=
  events.flatMap fun
    | .timeout => []
    | .readable bytes => bytes

/-- The loop stops with as many bytes as asked for, and takes them off the
    stream. -/
theorem receiveLoop_some {length : Nat} (events : List Readiness) :
    ∀ {received bytes : List UInt8} {events' : List Readiness},
      receiveLoop length received events = some (bytes, events') →
      received.length ≤ length →
      bytes.length = length ∧
        bytes ++ pending events' = received ++ pending events := by
  induction events with
  | nil =>
      intro received bytes events' h hle
      rw [receiveLoop] at h
      by_cases hlt : received.length < length
      · rw [if_pos hlt] at h
        cases h
      · rw [if_neg hlt] at h
        cases h
        exact ⟨by omega, rfl⟩
  | cons event events ih =>
      intro received bytes events' h hle
      by_cases hlt : received.length < length
      · cases event with
        | timeout =>
            rw [receiveLoop, if_pos hlt] at h
            exact ih h hle
        | readable chunk =>
            rw [receiveLoop, if_pos hlt] at h
            by_cases hnil : chunk = []
            · rw [if_pos hnil] at h
              cases h
            · rw [if_neg hnil] at h
              by_cases hfit : chunk.length ≤ length - received.length
              · rw [if_pos hfit] at h
                obtain ⟨h1, h2⟩ := ih h (by
                  rw [List.length_append]
                  omega)
                refine ⟨h1, h2.trans ?_⟩
                rw [List.append_assoc]
                rfl
              · rw [if_neg hfit] at h
                cases h
                refine ⟨?_, ?_⟩
                · rw [List.length_append, List.length_take]
                  omega
                · show received ++ chunk.take _ ++ (chunk.drop _ ++ _) = _
                  rw [List.append_assoc, ← List.append_assoc (chunk.take _),
                    List.take_append_drop]
                  rfl
      · have hdone : receiveLoop length received (event :: events)
            = some (received, event :: events) := by
          cases event with
          | timeout => rw [receiveLoop, if_neg hlt]
          | readable chunk => rw [receiveLoop, if_neg hlt]
        rw [hdone] at h
        cases h
        exact ⟨by omega, rfl⟩

/-- `recv_all`, while `running_` stays true. -/
def recvAll (length : Nat) (events : List Readiness) :
    Option (Vector UInt8 length × List Readiness) :=
  match h : receiveLoop length [] events with
  | none => none
  | some (bytes, events') =>
      some (⟨⟨bytes⟩, (receiveLoop_some events h (Nat.zero_le _)).1⟩, events')

/-- What `recv_all` read comes off the stream. -/
theorem recvAll_some {length : Nat} {events events' : List Readiness}
    {bytes : Vector UInt8 length}
    (h : recvAll length events = some (bytes, events')) :
    bytes.toList ++ pending events' = pending events := by
  rw [recvAll] at h
  split at h
  · cases h
  · rename_i bytes' events'' hloop
    cases h
    exact (receiveLoop_some events hloop (Nat.zero_le _)).2

/-- `connection_loop`, while `running_` stays true: the messages it hands to
    the handler. -/
def connectionLoop (events : List Readiness) : List OrderMessage :=
  match _h : recvAll headerSize events with
  | none => []
  | some (bytes, events₁) =>
      let header := readHeader bytes
      -- not a peer speaking this protocol
      if header.magic ≠ frameMagic ∨ header.version ≠ frameVersion then []
      else if header.messageType ≠ .orderEntry ∨
          header.payloadLength ≠ wireSize then []
      else
        match _h₁ : recvAll wireSize events₁ with
        | none => []
        | some (payload, events₂) =>
            decode (receive payload) :: connectionLoop events₂
termination_by (pending events).length
decreasing_by
  have hheader := congrArg List.length (recvAll_some _h)
  have hpayload := congrArg List.length (recvAll_some _h₁)
  rw [List.length_append, Vector.length_toList] at hheader hpayload
  rw [headerSize] at hheader
  omega

/-! ## The C++ client -/

/-- `static_cast<std::uint8_t>` of a side. -/
def sideByte : Side → Nat
  | .buy => 0
  | .sell => 1
  | .other value => value % 256

/-- `static_cast<std::uint8_t>` of an order type. -/
def orderTypeByte : OsxOrderbook.OrderType → Nat
  | .goodTillCancel => 0
  | .fillAndKill => 1
  | .fillOrKill => 2
  | .market => 3
  | .other value => value % 256

/-- `static_cast<std::uint8_t>` of an action. -/
def orderActionByte : OrderAction → Nat
  | .add => 0
  | .cancel => 1
  | .modify => 2
  | .other value => value % 256

/-- `wire::encode`. -/
def encode (message : OrderMessage) : OrderEntryWire where
  sourceTimestamp := message.sourceTimestamp
  source := message.source
  symbol := message.symbol
  orderId := message.orderId
  side := sideByte message.side
  orderType := orderTypeByte message.type
  action := orderActionByte message.action
  price := message.price
  quantity := message.quantity

/-- The members of the packed `OrderEntryWire`. -/
def OrderEntryWire.fields (wire : OrderEntryWire) : List (Nat × Nat) :=
  [(8, wire.sourceTimestamp), (2, wire.source), (4, wire.symbol),
    (8, wire.orderId), (1, wire.side), (1, wire.orderType), (1, wire.action),
    (8, wire.price.bits.toNat), (4, wire.quantity)]

/-- The members of the packed `FrameHeader`. -/
def FrameHeader.fields (header : FrameHeader) : List (Nat × Nat) :=
  [(4, header.magic), (1, header.version), (1, header.messageType.byte),
    (2, header.payloadLength)]

/-- `send_all`: what was written, whether all of it was, and what the kernel
    has yet to answer.  A call takes at most what it is given; none taken is a
    failure. -/
def sendAll : List UInt8 → List Nat → List UInt8 × Bool × List Nat
  | [], taken => ([], true, taken)
  | _ :: _, [] => ([], false, [])
  | byte :: bytes, count :: taken =>
      if count = 0 then ([], false, taken)
      else
        let data := byte :: bytes
        let rest := sendAll (data.drop count) taken
        (data.take count ++ rest.1, rest.2)
termination_by data => data.length
decreasing_by
  rw [List.length_drop, List.length_cons]
  omega

/-- `OrderEntryClient::send`, connected. -/
def send (message : OrderMessage) (taken : List Nat) :
    List UInt8 × Bool × List Nat :=
  let payload := packed (encode message).fields
  let header : FrameHeader :=
    ⟨frameMagic, frameVersion, .orderEntry, payload.length⟩
  let (written, sent, taken) := sendAll (packed header.fields) taken
  if sent then
    let (written', sent, taken) := sendAll payload taken
    (written ++ written', sent, taken)
  else (written, false, taken)

/-- One message after the other; a failed `send` ends the connection. -/
def sendEach : List OrderMessage → List Nat → List UInt8 × Bool
  | [], _ => ([], true)
  | message :: messages, taken =>
      let (written, sent, taken) := send message taken
      if sent then
        let (written', sent) := sendEach messages taken
        (written ++ written', sent)
      else (written, false)

/-- A call of `send`: what was written, and what it returned. -/
structure SendCall where
  message : OrderMessage
  written : List UInt8
  returned : Bool

/-- Calls of `send` on one connection, whatever they return, as the bot makes
    them: a failed call leaves the socket as it was.  The results are those of
    `::send`, each asked for by one of the calls, in order. -/
inductive Answered : List OrderMessage → List Nat → List SendCall → Prop where
  | nil : Answered [] [] []
  | cons {message : OrderMessage} {messages : List OrderMessage}
      {used results : List Nat} {written : List UInt8} {returned : Bool}
      {calls : List SendCall} :
      (∀ later, send message (used ++ later) = (written, returned, later)) →
      Answered messages results calls →
      Answered (message :: messages) (used ++ results)
        (⟨message, written, returned⟩ :: calls)

/-! ## The Python client -/

/-- The format characters of the two `struct.Struct`s. -/
inductive FormatCharacter where
  | B
  | H
  | I
  | Q
  | d
  deriving DecidableEq, Repr

/-- The standard size of a format character. -/
def FormatCharacter.size : FormatCharacter → Nat
  | .B => 1
  | .H => 2
  | .I => 4
  | .Q => 8
  | .d => 8

/-- `Struct.pack` for a format that starts with `<`: no padding, least
    significant byte first; a value out of range is a `struct.error`.  The
    value of a `d` is its 64-bit pattern. -/
def structPack (format : List FormatCharacter) (values : List Nat) :
    Option (List UInt8) :=
  let fields := (format.map FormatCharacter.size).zip values
  if format.length = values.length ∧ ∀ f ∈ fields, f.2 < 256 ^ f.1 then
    some (packed fields)
  else none

/-- `encode_frame_header`. -/
def encodeFrameHeader (messageType : MessageType) (payloadLength : Nat) :
    Option (List UInt8) :=
  structPack [.I, .B, .B, .H]
    [frameMagic, frameVersion, messageType.byte, payloadLength]

/-- `encode_order_entry`; `int()` of an enum member is its value. -/
def encodeOrderEntry (sourceTimestamp source symbol orderId : Nat)
    (side : Side) (orderType : OsxOrderbook.OrderType) (action : OrderAction)
    (price : Double) (quantity : Nat) : Option (List UInt8) :=
  structPack [.Q, .H, .I, .Q, .B, .B, .B, .d, .I]
    [sourceTimestamp, source, symbol, orderId, sideByte side,
      orderTypeByte orderType, orderActionByte action, price.bits.toNat,
      quantity]

/-- The frame the Python client writes for the fields of a message. -/
def pythonFrame (message : OrderMessage) : Option (List UInt8) := do
  let payload ← encodeOrderEntry message.sourceTimestamp message.source
    message.symbol message.orderId message.side message.type message.action
    message.price message.quantity
  let header ← encodeFrameHeader .orderEntry payload.length
  return header ++ payload

end OsxOrderEntry
