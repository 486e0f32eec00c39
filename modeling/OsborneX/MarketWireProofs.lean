import OsborneX.MarketWireModel
import OsborneX.OrderEntryLoopProofs

/-! # Market data on the wire — the receivers agree, and undo the publisher

    A format string gives the widths of consecutive fields, so unpacking it
    reads the fields at the running sums of these widths (`fieldsAt`): the
    offsets of the packed structure.  The two receivers make their checks on
    the same fields of the same bytes, and pass on the same values. -/

namespace OsxMarketWire

open OsxOrderbook OsxPrice OsxShard OsxOrderEntry

/-! ## Format strings -/

/-- The fields of a format from an offset on. -/
def fieldsAt : List FormatCharacter → Nat → List UInt8 → List Nat
  | [], _, _ => []
  | c :: format, offset, bytes =>
      fieldAt bytes offset c.size :: fieldsAt format (offset + c.size) bytes

theorem unpackFrom_drop (format : List FormatCharacter) :
    ∀ (offset : Nat) (bytes : List UInt8),
      Python.unpackFrom format (bytes.drop offset)
        = fieldsAt format offset bytes := by
  induction format with
  | nil => exact fun _ _ => rfl
  | cons c format ih =>
      intro offset bytes
      rw [Python.unpackFrom, fieldsAt, List.drop_drop, ih]
      rfl

/-- A field that lies in front of a cut is not touched by it. -/
theorem fieldAt_take {offset width n : Nat} (h : offset + width ≤ n)
    (bytes : List UInt8) :
    fieldAt (bytes.take n) offset width = fieldAt bytes offset width := by
  rw [fieldAt, List.drop_take, List.take_take, Nat.min_eq_left (by omega)]
  rfl

theorem fieldsAt_take (format : List FormatCharacter) :
    ∀ {offset n : Nat}, offset + Python.calcsize format ≤ n →
      ∀ bytes : List UInt8,
        fieldsAt format offset (bytes.take n) = fieldsAt format offset bytes := by
  induction format with
  | nil => exact fun _ _ => rfl
  | cons c format ih =>
      intro offset n h bytes
      rw [Python.calcsize, List.map_cons, List.sum_cons, ← Python.calcsize] at h
      rw [fieldsAt, fieldsAt, fieldAt_take (by omega), ih (by omega)]

/-- Unpacking the front of some bytes reads the fields of the format there. -/
theorem structUnpack_take (format : List FormatCharacter) {bytes : List UInt8}
    (h : Python.calcsize format ≤ bytes.length) :
    Python.structUnpack format (bytes.take (Python.calcsize format))
      = .ok (fieldsAt format 0 bytes) := by
  have hlength : (bytes.take (Python.calcsize format)).length
      = Python.calcsize format := List.length_take_of_le h
  have hfields : Python.unpackFrom format
      (bytes.take (Python.calcsize format))
      = fieldsAt format 0 (bytes.take (Python.calcsize format)) :=
    unpackFrom_drop format 0 _
  rw [Python.structUnpack, if_pos hlength, hfields,
    fieldsAt_take format (Nat.le_of_eq (Nat.zero_add _))]

/-! ## The two receivers -/

/-- The contents of an update, as Python holds them. -/
def pythonTop (update : TopOfBookUpdate) : Python.TopOfBook where
  symbol := update.symbol
  bidPrice := update.bidPrice
  bidQuantity := update.bidQuantity
  askPrice := update.askPrice
  askQuantity := update.askQuantity
  sequence := update.sequence

/-- The contents of a trade, as Python holds them. -/
def pythonTrade (trade : TradeExecution) : Python.TradeExecution where
  symbol := trade.symbol
  sequence := trade.sequence
  timestamp := trade.timestamp
  bidOrderId := trade.bidOrderId
  bidPrice := trade.bidPrice
  askOrderId := trade.askOrderId
  askPrice := trade.askPrice
  quantity := trade.quantity

/-- The same decision, with the contents as Python holds them. -/
def inPython : Decision TopOfBookUpdate TradeExecution →
    Decision Python.TopOfBook Python.TradeExecution
  | .ignored => .ignored
  | .topOfBook update => .topOfBook (pythonTop update)
  | .trade trade => .trade (pythonTrade trade)

theorem decodeTopOfBook_take {payload : List UInt8}
    (h : topOfBookSize ≤ payload.length) :
    Python.decodeTopOfBook
        (payload.take (Python.calcsize Python.topOfBookWire))
      = .ok (pythonTop (decodeTop (readTopOfBook payload))) := by
  have hunpack := structUnpack_take Python.topOfBookWire h
  rw [Python.decodeTopOfBook, hunpack]
  rfl

theorem decodeTradeExecution_take {payload : List UInt8}
    (h : tradeExecutionSize ≤ payload.length) :
    Python.decodeTradeExecution
        (payload.take (Python.calcsize Python.tradeExecutionWire))
      = .ok (pythonTrade (decodeTrade (readTradeExecution payload))) := by
  have hunpack := structUnpack_take Python.tradeExecutionWire h
  rw [Python.decodeTradeExecution, hunpack]
  rfl

theorem decodeFrameHeader_take {data : List UInt8}
    (h : headerSize ≤ data.length) :
    Python.decodeFrameHeader (data.take (Python.calcsize Python.frameHeader))
      = if fieldAt data 0 4 ≠ frameMagic ∨ fieldAt data 4 1 ≠ frameVersion then
          .error .protocolError
        else .ok ⟨fieldAt data 0 4, fieldAt data 4 1, fieldAt data 5 1,
          fieldAt data 6 2⟩ := by
  have hunpack := structUnpack_take Python.frameHeader h
  rw [Python.decodeFrameHeader, hunpack]
  rfl

theorem readHeader_take {data : List UInt8} (h : headerSize ≤ data.length) :
    readHeader ⟨⟨data.take headerSize⟩, List.length_take_of_le h⟩
      = ⟨fieldAt data 0 4, fieldAt data 4 1,
        castMessageType (fieldAt data 5 1), fieldAt data 6 2⟩ := by
  rw [readHeader]
  show FrameHeader.mk (fieldAt (data.take headerSize) 0 4)
    (fieldAt (data.take headerSize) 4 1)
    (castMessageType (fieldAt (data.take headerSize) 5 1))
    (fieldAt (data.take headerSize) 6 2) = _
  rw [fieldAt_take (by decide), fieldAt_take (by decide),
    fieldAt_take (by decide), fieldAt_take (by decide)]

theorem castMessageType_iff (value : Nat) :
    (castMessageType value = .topOfBook ↔ value = MessageType.topOfBook.byte) ∧
      (castMessageType value = .tradeExecution ↔
        value = MessageType.tradeExecution.byte) := by
  match value with
  | 0 => decide
  | 1 => decide
  | 2 => decide
  | 3 => decide
  | value + 4 =>
      have hcast : castMessageType (value + 4) = .other (value + 4) := rfl
      rw [hcast]
      constructor
      · exact iff_of_false (by simp) (by simp [MessageType.byte])
      · exact iff_of_false (by simp) (by simp [MessageType.byte])

/-- **ONE DATAGRAM**: both make the same decision, with the same contents. -/
theorem receive_eq (datagram : List UInt8) :
    Python.receive datagram = .ok (inPython (listen datagram)) := by
  rw [Python.receive, listen]
  generalize datagram.take bufferSize = data
  dsimp only
  by_cases hempty : data.length = 0
  · rw [if_pos hempty, if_pos (by rw [hempty]; decide)]
    rfl
  · rw [if_neg hempty]
    by_cases hheader : headerSize ≤ data.length
    · rw [dif_pos hheader, if_neg (by exact Nat.not_lt.mpr hheader),
        decodeFrameHeader_take hheader, readHeader_take hheader]
      dsimp only
      by_cases hforeign : fieldAt data 0 4 ≠ frameMagic ∨
          fieldAt data 4 1 ≠ frameVersion
      · rw [if_pos hforeign, if_pos hforeign]
        rfl
      · rw [if_neg hforeign, if_neg hforeign]
        dsimp only
        obtain ⟨htop, htrade⟩ := castMessageType_iff (fieldAt data 5 1)
        have hlength : (data.drop (Python.calcsize Python.frameHeader)).length
            = data.length - headerSize := List.length_drop
        rw [hlength]
        by_cases hisTop : castMessageType (fieldAt data 5 1) = .topOfBook ∧
            topOfBookSize ≤ data.length - headerSize
        · have hpayload : topOfBookSize ≤ (data.drop headerSize).length := by
            rw [List.length_drop]
            exact hisTop.2
          have hdecode := decodeTopOfBook_take hpayload
          rw [if_pos hisTop, if_pos ⟨htop.mp hisTop.1, hisTop.2⟩]
          show Except.map _ (Python.decodeTopOfBook (List.take _
            (data.drop headerSize))) = _
          rw [hdecode]
          rfl
        · rw [if_neg hisTop, if_neg (fun h => hisTop ⟨htop.mpr h.1, h.2⟩)]
          by_cases hisTrade : castMessageType (fieldAt data 5 1)
              = .tradeExecution ∧ tradeExecutionSize ≤ data.length - headerSize
          · have hpayload : tradeExecutionSize
                ≤ (data.drop headerSize).length := by
              rw [List.length_drop]
              exact hisTrade.2
            have hdecode := decodeTradeExecution_take hpayload
            rw [if_pos hisTrade, if_pos ⟨htrade.mp hisTrade.1, hisTrade.2⟩]
            show Except.map _ (Python.decodeTradeExecution (List.take _
              (data.drop headerSize))) = _
            rw [hdecode]
            rfl
          · rw [if_neg hisTrade,
              if_neg (fun h => hisTrade ⟨htrade.mpr h.1, h.2⟩)]
            rfl
    · rw [dif_neg hheader, if_pos (by exact Nat.lt_of_not_le hheader)]
      rfl

/-- **EVERY SEQUENCE OF DATAGRAMS** is handed on alike. -/
theorem run_eq (arrived : List Arrived) :
    Python.run arrived = .ok ((run arrived).map inPython) := by
  induction arrived with
  | nil => rfl
  | cons arrival arrived ih =>
      cases arrival with
      | timeout => exact ih
      | datagram bytes =>
          rw [Python.run, receive_eq, run]
          cases hdecision : listen bytes with
          | ignored => exact ih
          | topOfBook update =>
              show (Python.run arrived >>= fun rest => Except.ok (_ :: rest))
                = _
              rw [ih]
              rfl
          | trade trade =>
              show (Python.run arrived >>= fun rest => Except.ok (_ :: rest))
                = _
              rw [ih]
              rfl

/-! ## The round trip -/

/-- A frame of a size that fits the buffer, whose header is read back. -/
theorem listen_frame {messageType : MessageType} {size : Nat}
    {fields : List (Nat × Nat)} (hwidth : widthOf fields = size)
    (hfits : headerSize + size ≤ bufferSize)
    (hrange : InRange (headerOf messageType size).fields)
    (htype : castMessageType messageType.byte = messageType) :
    listen (packed (headerOf messageType size).fields ++ packed fields)
      = if messageType = .topOfBook ∧ topOfBookSize ≤ size then
          .topOfBook (decodeTop (readTopOfBook (packed fields)))
        else if messageType = .tradeExecution ∧ tradeExecutionSize ≤ size then
          .trade (decodeTrade (readTradeExecution (packed fields)))
        else .ignored := by
  have hheader : (packed (headerOf messageType size).fields).length
      = headerSize := length_packed _
  have hlength : (packed (headerOf messageType size).fields
      ++ packed fields).length = headerSize + size := by
    rw [List.length_append, hheader, length_packed, hwidth]
  have htake : (packed (headerOf messageType size).fields
      ++ packed fields).take headerSize
      = packed (headerOf messageType size).fields := List.take_left' hheader
  have hdrop : (packed (headerOf messageType size).fields
      ++ packed fields).drop headerSize = packed fields :=
    List.drop_left' hheader
  have hle : headerSize ≤ (packed (headerOf messageType size).fields
      ++ packed fields).length := by
    rw [hlength]
    exact Nat.le_add_right _ _
  have hread : readHeader ⟨⟨(packed (headerOf messageType size).fields
      ++ packed fields).take headerSize⟩, List.length_take_of_le hle⟩
      = headerOf messageType size := readHeader_packed htake hrange htype
  rw [listen, List.take_of_length_le (by rw [hlength]; exact hfits)]
  dsimp only
  have hsome : ¬ headerSize + size = 0 := by
    rw [headerSize]
    omega
  rw [if_neg (by rw [hlength]; exact hsome), dif_pos hle, hread, hdrop, hlength,
    Nat.add_sub_cancel_left]
  rfl

/-- A packed update is read back. -/
theorem readTopOfBook_packed {wire : TopOfBookUpdateWire}
    (hrange : InRange wire.fields) :
    readTopOfBook (packed wire.fields) = wire := by
  have h0 : fieldAt (packed wire.fields) 0 4 = wire.symbol :=
    fieldAt_field hrange 0 rfl
  have h1 : fieldAt (packed wire.fields) 4 8 = wire.bidPrice.bits.toNat :=
    fieldAt_field hrange 1 rfl
  have h2 : fieldAt (packed wire.fields) 12 4 = wire.bidQuantity :=
    fieldAt_field hrange 2 rfl
  have h3 : fieldAt (packed wire.fields) 16 8 = wire.askPrice.bits.toNat :=
    fieldAt_field hrange 3 rfl
  have h4 : fieldAt (packed wire.fields) 24 4 = wire.askQuantity :=
    fieldAt_field hrange 4 rfl
  have h5 : fieldAt (packed wire.fields) 28 8 = wire.sequence :=
    fieldAt_field hrange 5 rfl
  rw [readTopOfBook, doubleAt, doubleAt, h0, h1, h2, h3, h4, h5,
    BitVec.ofNat_toNat, BitVec.ofNat_toNat, BitVec.setWidth_eq,
    BitVec.setWidth_eq]

/-- A packed trade is read back. -/
theorem readTradeExecution_packed {wire : TradeExecutionWire}
    (hrange : InRange wire.fields) :
    readTradeExecution (packed wire.fields) = wire := by
  have h0 : fieldAt (packed wire.fields) 0 4 = wire.symbol :=
    fieldAt_field hrange 0 rfl
  have h1 : fieldAt (packed wire.fields) 4 8 = wire.sequence :=
    fieldAt_field hrange 1 rfl
  have h2 : fieldAt (packed wire.fields) 12 8 = wire.timestamp :=
    fieldAt_field hrange 2 rfl
  have h3 : fieldAt (packed wire.fields) 20 8 = wire.bidOrderId :=
    fieldAt_field hrange 3 rfl
  have h4 : fieldAt (packed wire.fields) 28 8 = wire.bidPrice.bits.toNat :=
    fieldAt_field hrange 4 rfl
  have h5 : fieldAt (packed wire.fields) 36 8 = wire.askOrderId :=
    fieldAt_field hrange 5 rfl
  have h6 : fieldAt (packed wire.fields) 44 8 = wire.askPrice.bits.toNat :=
    fieldAt_field hrange 6 rfl
  have h7 : fieldAt (packed wire.fields) 52 4 = wire.quantity :=
    fieldAt_field hrange 7 rfl
  rw [readTradeExecution, doubleAt, doubleAt, h0, h1, h2, h3, h4, h5, h6, h7,
    BitVec.ofNat_toNat, BitVec.ofNat_toNat, BitVec.setWidth_eq,
    BitVec.setWidth_eq]

theorem headerOf_inRange {messageType : MessageType} {size : Nat}
    (htype : messageType.byte < 256) (hsize : size < 256 ^ 2) :
    InRange (headerOf messageType size).fields := by
  intro f hf
  simp only [FrameHeader.fields, headerOf, List.mem_cons, List.not_mem_nil,
    or_false] at hf
  rcases hf with rfl | rfl | rfl | rfl
  · decide
  · decide
  · exact htype
  · exact hsize

/-- The listener reads a published update back. -/
theorem listen_sendTopOfBook {update : TopOfBookUpdate}
    (hrange : InRange (encodeTop update).fields) :
    listen (sendTopOfBook update) = .topOfBook update := by
  have hwidth : widthOf (encodeTop update).fields = topOfBookSize := rfl
  rw [sendTopOfBook, listen_frame hwidth (by decide)
    (headerOf_inRange (by decide) (by decide)) rfl, if_pos (by decide),
    readTopOfBook_packed hrange]
  rfl

/-- The listener reads a published trade back. -/
theorem listen_sendTrade {trade : TradeExecution}
    (hrange : InRange (encodeTrade trade).fields) :
    listen (sendTrade trade) = .trade trade := by
  have hwidth : widthOf (encodeTrade trade).fields = tradeExecutionSize := rfl
  rw [sendTrade, listen_frame hwidth (by decide)
    (headerOf_inRange (by decide) (by decide)) rfl, if_neg (by decide),
    if_pos (by decide), readTradeExecution_packed hrange]
  rfl

/-- **THE RECEIVERS AGREE AND UNDO THE PUBLISHER**: on every datagram the same
    decision with the same contents, and so on every sequence of them; and
    every update and every trade, of values of their types, is read back by
    both from its datagram. -/
theorem receivers_agree :
    (∀ datagram, Python.receive datagram = .ok (inPython (listen datagram))) ∧
    (∀ arrived, Python.run arrived = .ok ((run arrived).map inPython)) ∧
    (∀ update, InRange (encodeTop update).fields →
      listen (sendTopOfBook update) = .topOfBook update ∧
      Python.receive (sendTopOfBook update)
        = .ok (.topOfBook (pythonTop update))) ∧
    (∀ trade, InRange (encodeTrade trade).fields →
      listen (sendTrade trade) = .trade trade ∧
      Python.receive (sendTrade trade)
        = .ok (.trade (pythonTrade trade))) := by
  refine ⟨receive_eq, run_eq, ?_, ?_⟩
  · intro update hrange
    have hlisten := listen_sendTopOfBook hrange
    exact ⟨hlisten, by rw [receive_eq, hlisten]; rfl⟩
  · intro trade hrange
    have hlisten := listen_sendTrade hrange
    exact ⟨hlisten, by rw [receive_eq, hlisten]; rfl⟩

/-- An update with one side: the other price is a NaN. -/
def oneSided : TopOfBookUpdate :=
  { symbol := 7, bidPrice := ⟨0x4059000000000000⟩, bidQuantity := 250,
    sequence := 2 ^ 63 + 1 }

theorem receivers_agree_oneSided :
    listen (sendTopOfBook oneSided) = .topOfBook oneSided ∧
    Python.receive (sendTopOfBook oneSided)
      = .ok (.topOfBook (pythonTop oneSided)) := by
  refine receivers_agree.2.2.1 oneSided ?_
  intro f hf
  revert f
  decide

end OsxMarketWire
