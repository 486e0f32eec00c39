import OsborneX.OrderEntryLoopModel
import OsborneX.OrderbookCallProofs

/-! # The order-entry stream — its grammar, and the round trip

    What the loop hands on is read off the BYTES of the connection, however the
    kernel cuts them: the payloads of the longest prefix made of complete
    frames.  That prefix is unique, so the cuts cannot matter, and the frames a
    client wrote are read back as the messages it sent. -/

namespace OsxOrderEntry

open OsxOrderbook OsxPrice OsxShard OsxCalls

/-! ## Fields of packed structures -/

theorem littleEndian_toBytes (width : Nat) :
    ∀ value, littleEndian (toBytes width value) = value % 256 ^ width := by
  induction width with
  | zero => exact fun value => (Nat.mod_one value).symm
  | succ width ih =>
      intro value
      have hbyte : (UInt8.ofNat value).toNat = value % 256 := rfl
      rw [toBytes, littleEndian, ih, hbyte, pow_succ', Nat.mod_mul]

/-- A field of a packed structure is found behind the fields before it. -/
theorem fieldAt_packed (before after : List (Nat × Nat)) {width value : Nat}
    (h : value < 256 ^ width) :
    fieldAt (packed (before ++ (width, value) :: after)) (widthOf before)
      width = value := by
  have hsplit : packed (before ++ (width, value) :: after)
      = packed before ++ (toBytes width value ++ packed after) := by
    rw [packed, List.flatMap_append, List.flatMap_cons]
    rfl
  rw [fieldAt, hsplit, ← length_packed, List.drop_left]
  rw [List.take_left' (length_toBytes width value), littleEndian_toBytes,
    Nat.mod_eq_of_lt h]

/-- Every field has the width of its type. -/
def InRange (fields : List (Nat × Nat)) : Prop := ∀ f ∈ fields, f.2 < 256 ^ f.1

/-- The `n`th field of a packed structure is found at the width of the fields
    before it. -/
theorem fieldAt_field {fields : List (Nat × Nat)} (hrange : InRange fields)
    (n : Nat) {width value : Nat}
    (hsplit : fields
      = fields.take n ++ (width, value) :: fields.drop (n + 1)) :
    fieldAt (packed fields) (widthOf (fields.take n)) width = value := by
  have hmem : (width, value) ∈ fields := by
    rw [hsplit]
    simp
  have h := fieldAt_packed (fields.take n) (fields.drop (n + 1)) (hrange _ hmem)
  rw [← hsplit] at h
  exact h

/-- A packed header is read back. -/
theorem readHeader_packed {header : FrameHeader} {bytes : Vector UInt8 headerSize}
    (hbytes : bytes.toList = packed header.fields)
    (hrange : InRange header.fields)
    (htype : castMessageType header.messageType.byte = header.messageType) :
    readHeader bytes = header := by
  have hmagic : fieldAt bytes.toList 0 4 = header.magic := by
    rw [hbytes]
    exact fieldAt_field hrange 0 rfl
  have hversion : fieldAt bytes.toList 4 1 = header.version := by
    rw [hbytes]
    exact fieldAt_field hrange 1 rfl
  have hmessage : fieldAt bytes.toList 5 1 = header.messageType.byte := by
    rw [hbytes]
    exact fieldAt_field hrange 2 rfl
  have hpayload : fieldAt bytes.toList 6 2 = header.payloadLength := by
    rw [hbytes]
    exact fieldAt_field hrange 3 rfl
  rw [readHeader, hmagic, hversion, hmessage, hpayload, htype]

/-- A packed payload is read back. -/
theorem receive_packed {wire : OrderEntryWire} {payload : Payload}
    (hbytes : payload.toList = packed wire.fields)
    (hrange : InRange wire.fields) : receive payload = wire := by
  have hf : ∀ (n : Nat) {width value : Nat},
      wire.fields = wire.fields.take n ++
        (width, value) :: wire.fields.drop (n + 1) →
      field payload (widthOf (wire.fields.take n)) width = value := by
    intro n width value hsplit
    rw [field, hbytes]
    exact fieldAt_field hrange n hsplit
  have h0 : field payload 0 8 = wire.sourceTimestamp := hf 0 rfl
  have h1 : field payload 8 2 = wire.source := hf 1 rfl
  have h2 : field payload 10 4 = wire.symbol := hf 2 rfl
  have h3 : field payload 14 8 = wire.orderId := hf 3 rfl
  have h4 : field payload 22 1 = wire.side := hf 4 rfl
  have h5 : field payload 23 1 = wire.orderType := hf 5 rfl
  have h6 : field payload 24 1 = wire.action := hf 6 rfl
  have h7 : field payload 25 8 = wire.price.bits.toNat := hf 7 rfl
  have h8 : field payload 33 4 = wire.quantity := hf 8 rfl
  rw [receive, h0, h1, h2, h3, h4, h5, h6, h7, h8, BitVec.ofNat_toNat,
    BitVec.setWidth_eq]

/-! ## Reading off a stream -/

/-- Every answer of the kernel that has bytes has at least one. -/
def Delivering (events : List Readiness) : Prop :=
  ∀ event ∈ events, event ≠ .readable []

instance (events : List Readiness) : Decidable (Delivering events) :=
  inferInstanceAs (Decidable (∀ event ∈ events, _))

theorem Delivering.tail {event : Readiness} {events : List Readiness}
    (h : Delivering (event :: events)) : Delivering events :=
  fun e he => h e (List.mem_cons_of_mem _ he)

/-- The loop gets what it needs exactly when the stream has it, and leaves a
    stream of the same kind. -/
theorem receiveLoop_spec {length : Nat} (events : List Readiness) :
    ∀ {received : List UInt8}, Delivering events → received.length ≤ length →
      (length ≤ received.length + (pending events).length →
        ∃ bytes events', receiveLoop length received events
          = some (bytes, events') ∧ Delivering events') ∧
      (received.length + (pending events).length < length →
        receiveLoop length received events = none) := by
  induction events with
  | nil =>
      intro received hd hle
      rw [receiveLoop]
      constructor
      · intro henough
        have henough : length ≤ received.length := henough
        exact ⟨received, [], if_neg (by omega), hd⟩
      · exact fun hshort => if_pos hshort
  | cons event events ih =>
      intro received hd hle
      by_cases hlt : received.length < length
      · cases event with
        | timeout =>
            rw [receiveLoop, if_pos hlt]
            exact ih hd.tail hle
        | readable chunk =>
            have hnil : chunk ≠ [] := by
              rintro rfl
              exact hd _ List.mem_cons_self rfl
            have hpending : (pending (.readable chunk :: events)).length
                = chunk.length + (pending events).length :=
              List.length_append
            rw [receiveLoop, if_pos hlt, if_neg hnil, hpending]
            by_cases hfit : chunk.length ≤ length - received.length
            · rw [if_pos hfit]
              have hle' : (received ++ chunk).length ≤ length := by
                rw [List.length_append]
                omega
              obtain ⟨h1, h2⟩ := ih hd.tail hle'
              rw [List.length_append] at h1 h2
              exact ⟨fun h => h1 (by omega), fun h => h2 (by omega)⟩
            · rw [if_neg hfit]
              refine ⟨fun _ => ⟨_, _, rfl, ?_⟩, fun h => by omega⟩
              intro e he
              rcases List.mem_cons.mp he with rfl | he
              · intro heq
                have hdrop := congrArg List.length (Readiness.readable.inj heq)
                rw [List.length_drop, List.length_nil] at hdrop
                omega
              · exact hd.tail e he
      · have hdone : receiveLoop length received (event :: events)
            = some (received, event :: events) := by
          cases event with
          | timeout => rw [receiveLoop, if_neg hlt]
          | readable chunk => rw [receiveLoop, if_neg hlt]
        exact ⟨fun _ => ⟨_, _, hdone, hd⟩, fun h => by omega⟩

/-- **`recv_all`** reads the next bytes of the stream when there are enough, and
    nothing is handed on when there are not. -/
theorem recvAll_spec (length : Nat) {events : List Readiness}
    (hd : Delivering events) :
    (∃ bytes events', recvAll length events = some (bytes, events') ∧
        bytes.toList ++ pending events' = pending events ∧
        Delivering events') ∨
      (recvAll length events = none ∧ (pending events).length < length) := by
  have hle : ([] : List UInt8).length ≤ length := Nat.zero_le _
  obtain ⟨henough, hshort⟩ := receiveLoop_spec events hd hle
  rw [List.length_nil, Nat.zero_add] at henough hshort
  by_cases hle : length ≤ (pending events).length
  · obtain ⟨bytes, events', hloop, hd'⟩ := henough hle
    have hread : recvAll length events
        = some (⟨⟨bytes⟩, (receiveLoop_some events hloop
            (Nat.zero_le _)).1⟩, events') := by
      rw [recvAll]
      split
      · rename_i hnone
        rw [hloop] at hnone
        cases hnone
      · rename_i bytes' events'' hsome
        rw [hloop] at hsome
        cases hsome
        rfl
    exact Or.inl ⟨_, events', hread, recvAll_some hread, hd'⟩
  · refine Or.inr ⟨?_, by omega⟩
    have hnone := hshort (by omega)
    rw [recvAll]
    split
    · rfl
    · rename_i hsome
      rw [hnone] at hsome
      cases hsome

/-! ## The grammar -/

/-- The header of an order-entry frame. -/
def Accepted (header : FrameHeader) : Prop :=
  header.magic = frameMagic ∧ header.version = frameVersion ∧
    header.messageType = .orderEntry ∧ header.payloadLength = wireSize

instance (header : FrameHeader) : Decidable (Accepted header) :=
  inferInstanceAs (Decidable (_ ∧ _ ∧ _ ∧ _))

/-- **A COMPLETE FRAME**: 8 bytes that read as a good header, and 37 more. -/
structure Frame where
  header : Vector UInt8 headerSize
  payload : Payload
  accepted : Accepted (readHeader header)

namespace Frame

def bytes (frame : Frame) : List UInt8 :=
  frame.header.toList ++ frame.payload.toList

/-- The message a frame decodes to. -/
def message (frame : Frame) : OrderMessage := decode (receive frame.payload)

theorem length_bytes (frame : Frame) : frame.bytes.length = 45 := by
  rw [bytes, List.length_append, Vector.length_toList, Vector.length_toList]
  rfl

/-- A frame is its bytes. -/
theorem eq_of_bytes {frame frame' : Frame} (h : frame.bytes = frame'.bytes) :
    frame = frame' := by
  obtain ⟨header, payload, _⟩ := frame
  obtain ⟨header', payload', _⟩ := frame'
  obtain ⟨h1, h2⟩ := List.append_inj h (by
    rw [Vector.length_toList, Vector.length_toList])
  have hheader : header = header' := Vector.toList_inj.mp h1
  have hpayload : payload = payload' := Vector.toList_inj.mp h2
  subst hheader hpayload
  rfl

end Frame

/-- The bytes of frames one after the other. -/
def framesBytes (frames : List Frame) : List UInt8 :=
  frames.flatMap Frame.bytes

theorem framesBytes_cons (frame : Frame) (frames : List Frame) :
    framesBytes (frame :: frames) = frame.bytes ++ framesBytes frames := rfl

theorem framesBytes_injective {frames : List Frame} :
    ∀ {frames' : List Frame}, framesBytes frames = framesBytes frames' →
      frames = frames' := by
  have hne : ∀ (frame : Frame) (frames : List Frame),
      framesBytes (frame :: frames) ≠ [] := by
    intro frame frames h
    have hlength := congrArg List.length h
    rw [framesBytes_cons, List.length_append, frame.length_bytes] at hlength
    rw [List.length_nil] at hlength
    omega
  induction frames with
  | nil =>
      intro frames' h
      cases frames' with
      | nil => rfl
      | cons frame frames' => exact absurd h.symm (hne frame frames')
  | cons frame frames ih =>
      intro frames' h
      cases frames' with
      | nil => exact absurd h (hne frame frames)
      | cons frame' frames' =>
          rw [framesBytes_cons, framesBytes_cons] at h
          obtain ⟨h1, h2⟩ := List.append_inj h (by
            rw [frame.length_bytes, frame'.length_bytes])
          rw [Frame.eq_of_bytes h1, ih h2]

/-- **THE LONGEST PREFIX** of some bytes that is made of complete frames. -/
structure LongestPrefix (frames : List Frame) (bytes : List UInt8) : Prop where
  isPrefix : framesBytes frames <+: bytes
  longest : ∀ frames', framesBytes frames' <+: bytes →
    framesBytes frames' <+: framesBytes frames

theorem LongestPrefix.unique {frames frames' : List Frame}
    {bytes : List UInt8} (h : LongestPrefix frames bytes)
    (h' : LongestPrefix frames' bytes) : frames = frames' := by
  have h1 := h.longest frames' h'.isPrefix
  have h2 := h'.longest frames h.isPrefix
  exact framesBytes_injective (h2.eq_of_length_le h1.length_le)

/-- No frame stands at the front of the bytes. -/
theorem longestPrefix_nil {bytes : List UInt8}
    (h : ∀ frame : Frame, ¬ frame.bytes <+: bytes) :
    LongestPrefix [] bytes where
  isPrefix := List.nil_prefix
  longest := by
    intro frames' hpre
    cases frames' with
    | nil => exact List.prefix_refl _
    | cons frame frames' =>
        rw [framesBytes_cons] at hpre
        exact absurd ((List.prefix_append _ _).trans hpre) (h frame)

theorem LongestPrefix.cons {frames : List Frame} {bytes : List UInt8}
    (frame : Frame) (h : LongestPrefix frames bytes) :
    LongestPrefix (frame :: frames) (frame.bytes ++ bytes) where
  isPrefix := by
    rw [framesBytes_cons]
    exact (List.prefix_append_right_inj _).mpr h.isPrefix
  longest := by
    intro frames' hpre
    cases frames' with
    | nil => exact List.nil_prefix
    | cons frame' frames' =>
        rw [framesBytes_cons] at hpre
        -- two frames at the front of the same bytes are one
        have hfront : frame'.bytes = frame.bytes := by
          have h1 := (List.prefix_append _ _).trans hpre
          refine (List.prefix_of_prefix_length_le h1
            (List.prefix_append _ bytes) ?_).eq_of_length ?_
          · rw [frame.length_bytes, frame'.length_bytes]
          · rw [frame.length_bytes, frame'.length_bytes]
        obtain rfl := Frame.eq_of_bytes hfront
        rw [framesBytes_cons, framesBytes_cons]
        rw [List.prefix_append_right_inj] at hpre ⊢
        exact h.longest frames' hpre

/-- The whole of some frames is their longest prefix. -/
theorem longestPrefix_self (frames : List Frame) :
    LongestPrefix frames (framesBytes frames) where
  isPrefix := List.prefix_refl _
  longest := fun _ h => h

/-! ## What the loop hands on -/

section Loop

variable {events events₁ events₂ : List Readiness}
  {bytes : Vector UInt8 headerSize} {payload : Payload}

theorem connectionLoop_ended (h : recvAll headerSize events = none) :
    connectionLoop events = [] := by
  rw [connectionLoop]
  split
  · rfl
  · rename_i hsome
    rw [h] at hsome
    cases hsome

/-- One turn of the loop on a header that was read. -/
theorem connectionLoop_header
    (h : recvAll headerSize events = some (bytes, events₁)) :
    connectionLoop events
      = if Accepted (readHeader bytes) then
          match recvAll wireSize events₁ with
          | none => []
          | some (payload, events₂) =>
              decode (receive payload) :: connectionLoop events₂
        else [] := by
  rw [connectionLoop]
  split
  · rename_i hnone
    rw [h] at hnone
    cases hnone
  · rename_i bytes' events' hsome
    rw [h] at hsome
    cases hsome
    by_cases hspeaks : (readHeader bytes).magic = frameMagic ∧
        (readHeader bytes).version = frameVersion
    · obtain ⟨hmagic, hversion⟩ := hspeaks
      rw [if_neg (by simp [hmagic, hversion])]
      by_cases hkind : (readHeader bytes).messageType = .orderEntry ∧
          (readHeader bytes).payloadLength = wireSize
      · obtain ⟨htype, hlength⟩ := hkind
        rw [if_neg (by simp [htype, hlength]),
          if_pos ⟨hmagic, hversion, htype, hlength⟩]
        split <;> rename_i hpayload <;> rw [hpayload]
      · rw [if_pos (not_and_or.mp hkind), if_neg (fun h => hkind h.2.2)]
    · rw [if_pos (not_and_or.mp hspeaks),
        if_neg (fun h => hspeaks ⟨h.1, h.2.1⟩)]

theorem prefix_of_frame {frame : Frame} {rest : List UInt8}
    (hread : bytes.toList ++ rest = pending events)
    (hpre : frame.bytes <+: pending events) :
    frame.header = bytes ∧ frame.payload.toList <+: rest := by
  rw [← hread, Frame.bytes] at hpre
  have hheader : frame.header.toList = bytes.toList := by
    refine (List.prefix_of_prefix_length_le
      ((List.prefix_append _ _).trans hpre)
      (List.prefix_append bytes.toList rest) ?_).eq_of_length ?_
    · rw [Vector.length_toList, Vector.length_toList]
    · rw [Vector.length_toList, Vector.length_toList]
  rw [hheader, List.prefix_append_right_inj] at hpre
  exact ⟨Vector.toList_inj.mp hheader, hpre⟩

/-- **THE LOOP HANDS ON THE LONGEST PREFIX** made of complete frames, frame by
    frame, and nothing after it. -/
theorem connectionLoop_longest :
    ∀ (n : Nat) {events : List Readiness}, (pending events).length = n →
      Delivering events →
      ∃ frames, LongestPrefix frames (pending events) ∧
        connectionLoop events = frames.map Frame.message := by
  intro n
  induction n using Nat.strong_induction_on with
  | _ n ih =>
      intro events hn hd
      rcases recvAll_spec headerSize hd with
        ⟨bytes, events₁, hheader, hread, hd₁⟩ | ⟨hheader, hshort⟩
      · rw [connectionLoop_header hheader]
        by_cases hok : Accepted (readHeader bytes)
        · rw [if_pos hok]
          rcases recvAll_spec wireSize hd₁ with
            ⟨payload, events₂, hpayload, hread₁, hd₂⟩ | ⟨hpayload, hshort⟩
          · -- a frame, and the loop goes round
            let frame : Frame := ⟨bytes, payload, hok⟩
            have hbytes : pending events = frame.bytes ++ pending events₂ := by
              rw [← hread, ← hread₁, ← List.append_assoc]
              rfl
            have hless : (pending events₂).length < n := by
              rw [← hn, hbytes, List.length_append, frame.length_bytes]
              omega
            obtain ⟨frames, hlongest, hloop⟩ := ih _ hless rfl hd₂
            refine ⟨frame :: frames, ?_, ?_⟩
            · rw [hbytes]
              exact hlongest.cons frame
            · rw [hpayload, List.map_cons, ← hloop]
              rfl
          · -- a good header, and the stream ends inside the payload
            refine ⟨[], longestPrefix_nil (fun frame hpre => ?_), ?_⟩
            · have hle := (prefix_of_frame hread hpre).2.length_le
              rw [Vector.length_toList] at hle
              omega
            · rw [hpayload]
              rfl
        · rw [if_neg hok]
          refine ⟨[], longestPrefix_nil (fun frame hpre => ?_), rfl⟩
          have hsame := (prefix_of_frame hread hpre).1
          rw [← hsame] at hok
          exact hok frame.accepted
      · rw [connectionLoop_ended hheader]
        refine ⟨[], longestPrefix_nil (fun frame hpre => ?_), rfl⟩
        have hle := hpre.length_le
        rw [frame.length_bytes] at hle
        rw [headerSize] at hshort
        omega

end Loop

/-! ## What the clients write -/

/-- The named values of the enums, and the ranges of the other types. -/
structure Sendable (message : OrderMessage) : Prop where
  side : Sided message.side
  type : ∀ value, message.type ≠ .other value
  action : ∀ value, message.action ≠ .other value
  sourceTimestamp : message.sourceTimestamp < 2 ^ 64
  source : message.source < 2 ^ 16
  symbol : message.symbol < 2 ^ 32
  orderId : message.orderId < 2 ^ 64
  quantity : message.quantity < 2 ^ 32

/-- The message as the listener makes it: the ingress fields are zero. -/
def unstamped (message : OrderMessage) : OrderMessage :=
  { message with ingressTimestamp := 0, ingressSequence := 0 }

theorem castSide_sideByte {side : Side} (h : Sided side) :
    castSide (sideByte side) = side := by
  rcases h with rfl | rfl
  · rfl
  · rfl

theorem castOrderType_orderTypeByte {type : OsxOrderbook.OrderType}
    (h : ∀ value, type ≠ .other value) :
    castOrderType (orderTypeByte type) = type := by
  cases type with
  | goodTillCancel => rfl
  | fillAndKill => rfl
  | fillOrKill => rfl
  | market => rfl
  | other value => exact absurd rfl (h value)

theorem castOrderAction_orderActionByte {action : OrderAction}
    (h : ∀ value, action ≠ .other value) :
    castOrderAction (orderActionByte action) = action := by
  cases action with
  | add => rfl
  | cancel => rfl
  | modify => rfl
  | other value => exact absurd rfl (h value)

/-- `decode` takes back what `encode` did, but for the ingress fields. -/
theorem decode_encode {message : OrderMessage} (h : Sendable message) :
    decode (encode message) = unstamped message := by
  rw [decode, encode]
  dsimp only
  rw [castSide_sideByte h.side, castOrderType_orderTypeByte h.type,
    castOrderAction_orderActionByte h.action]
  rfl

theorem sideByte_lt {side : Side} (h : Sided side) : sideByte side < 256 := by
  rcases h with rfl | rfl
  · exact Nat.zero_lt_succ _
  · exact Nat.one_lt_ofNat

theorem orderTypeByte_lt (type : OsxOrderbook.OrderType) :
    orderTypeByte type < 256 := by
  cases type <;> simp only [orderTypeByte] <;> omega

theorem orderActionByte_lt (action : OrderAction) :
    orderActionByte action < 256 := by
  cases action <;> simp only [orderActionByte] <;> omega

/-- The fields of an encoded message are in range. -/
theorem encode_inRange {message : OrderMessage} (h : Sendable message) :
    InRange (encode message).fields := by
  have hprice := message.price.bits.isLt
  have h1 := h.sourceTimestamp
  have h2 := h.source
  have h3 := h.symbol
  have h4 := h.orderId
  have h5 := sideByte_lt h.side
  have h6 := orderTypeByte_lt message.type
  have h7 := orderActionByte_lt message.action
  have h8 := h.quantity
  intro f hf
  simp only [OrderEntryWire.fields, encode, List.mem_cons, List.not_mem_nil,
    or_false] at hf
  rcases hf with rfl | rfl | rfl | rfl | rfl | rfl | rfl | rfl | rfl <;>
    simpa using by assumption

/-- The header both clients write. -/
def orderEntryHeader : FrameHeader :=
  ⟨frameMagic, frameVersion, .orderEntry, wireSize⟩

theorem orderEntryHeader_inRange : InRange orderEntryHeader.fields := by
  intro f hf
  simp only [FrameHeader.fields, orderEntryHeader, MessageType.byte,
    List.mem_cons, List.not_mem_nil, or_false] at hf
  rcases hf with rfl | rfl | rfl | rfl <;> decide

/-- A structure as the bytes it is packed into. -/
def packedVector (fields : List (Nat × Nat)) {width : Nat}
    (h : widthOf fields = width) : Vector UInt8 width :=
  ⟨⟨packed fields⟩, (length_packed fields).trans h⟩

theorem orderEntryHeader_read :
    readHeader (packedVector orderEntryHeader.fields rfl)
      = orderEntryHeader :=
  readHeader_packed rfl orderEntryHeader_inRange rfl

/-- **THE FRAME OF A MESSAGE.** -/
def frameOf (message : OrderMessage) : Frame where
  header := packedVector orderEntryHeader.fields rfl
  payload := packedVector (encode message).fields rfl
  accepted := by
    rw [orderEntryHeader_read]
    exact ⟨rfl, rfl, rfl, rfl⟩

theorem frameOf_bytes (message : OrderMessage) :
    (frameOf message).bytes
      = packed orderEntryHeader.fields ++ packed (encode message).fields := rfl

theorem frameOf_message {message : OrderMessage} (h : Sendable message) :
    (frameOf message).message = unstamped message := by
  have hreceived : receive (frameOf message).payload = encode message :=
    receive_packed rfl (encode_inRange h)
  rw [Frame.message, hreceived, decode_encode h]

/-- What `send_all` reports as sent was written, all of it. -/
theorem sendAll_sent (data : List UInt8) (taken : List Nat) :
    (sendAll data taken).2.1 = true → (sendAll data taken).1 = data := by
  induction data, taken using sendAll.induct with
  | case1 taken => intro _; rw [sendAll]
  | case2 byte bytes =>
      intro h
      rw [sendAll] at h
      cases h
  | case3 byte bytes taken =>
      intro h
      rw [sendAll, if_pos rfl] at h
      cases h
  | case4 byte bytes count taken hcount data ih =>
      intro h
      rw [sendAll, if_neg hcount] at h ⊢
      show data.take count ++ (sendAll (data.drop count) taken).1 = data
      rw [ih h, List.take_append_drop]

/-- The header `send` builds for the payload of a message. -/
theorem header_of_payload (message : OrderMessage) :
    FrameHeader.fields ⟨frameMagic, frameVersion, .orderEntry,
      (packed (encode message).fields).length⟩ = orderEntryHeader.fields := by
  rw [length_packed]
  rfl

/-- A message that `send` reports as sent was written as its frame. -/
theorem send_sent {message : OrderMessage} {taken : List Nat}
    (h : (send message taken).2.1 = true) :
    (send message taken).1 = (frameOf message).bytes := by
  rw [send, header_of_payload] at h ⊢
  dsimp only at h ⊢
  by_cases hsent : (sendAll (packed orderEntryHeader.fields) taken).2.1 = true
  · rw [if_pos hsent] at h ⊢
    show (sendAll _ taken).1 ++ (sendAll _ _).1 = _
    rw [sendAll_sent _ _ hsent, sendAll_sent _ _ h, frameOf_bytes]
  · rw [if_neg hsent] at h
    cases h

theorem sendEach_sent {messages : List OrderMessage} :
    ∀ {taken : List Nat}, (sendEach messages taken).2 = true →
      (sendEach messages taken).1 = framesBytes (messages.map frameOf) := by
  induction messages with
  | nil => exact fun _ => rfl
  | cons message messages ih =>
      intro taken h
      rw [sendEach] at h ⊢
      dsimp only at h ⊢
      by_cases hsent : (send message taken).2.1 = true
      · rw [if_pos hsent] at h ⊢
        show (send message taken).1 ++ (sendEach messages _).1 = _
        rw [send_sent hsent, ih h, List.map_cons, framesBytes_cons]
      · rw [if_neg hsent] at h
        cases h

/-- The Python client writes the same frame. -/
theorem pythonFrame_eq {message : OrderMessage} (h : Sendable message) :
    pythonFrame message = some (frameOf message).bytes := by
  have hpayload : encodeOrderEntry message.sourceTimestamp message.source
      message.symbol message.orderId message.side message.type message.action
      message.price message.quantity
      = some (packed (encode message).fields) :=
    if_pos ⟨rfl, encode_inRange h⟩
  have hheader : encodeFrameHeader .orderEntry
      (packed (encode message).fields).length
      = some (packed orderEntryHeader.fields) := by
    rw [length_packed]
    have hwidth : widthOf (encode message).fields = wireSize := rfl
    rw [hwidth, encodeFrameHeader, structPack]
    exact if_pos ⟨rfl, orderEntryHeader_inRange⟩
  simp only [pythonFrame, hpayload, hheader, bind, Option.bind]
  rfl

/-- Several messages, one frame each. -/
theorem pythonFrames_eq {messages : List OrderMessage}
    (h : ∀ message ∈ messages, Sendable message) :
    messages.mapM pythonFrame
      = some (messages.map (fun message => (frameOf message).bytes)) := by
  induction messages with
  | nil => rfl
  | cons message messages ih =>
      rw [List.mapM_cons, pythonFrame_eq (h message List.mem_cons_self),
        ih (fun m hm => h m (List.mem_cons_of_mem _ hm))]
      rfl

/-! ## The stream as a whole -/

/-- Frames on the stream, and nothing else, are handed on one by one. -/
theorem connectionLoop_frames {events : List Readiness}
    (hd : Delivering events) {messages : List OrderMessage}
    (h : ∀ message ∈ messages, Sendable message)
    (hbytes : pending events = framesBytes (messages.map frameOf)) :
    connectionLoop events = messages.map unstamped := by
  obtain ⟨frames, hlongest, hloop⟩ := connectionLoop_longest _ rfl hd
  rw [hbytes] at hlongest
  rw [hloop, hlongest.unique (longestPrefix_self _), List.map_map]
  exact List.map_congr_left (fun message hm => frameOf_message (h message hm))

/-- **THE ORDER-ENTRY STREAM**: the loop hands on the decodings of the longest
    prefix made of complete frames, however the kernel cut the bytes; and what
    either client wrote for some messages is handed on as those messages. -/
theorem orderEntry_stream {events : List Readiness} (hd : Delivering events) :
    (∃ frames, LongestPrefix frames (pending events) ∧
      connectionLoop events = frames.map Frame.message) ∧
    (∀ events', Delivering events' → pending events' = pending events →
      connectionLoop events' = connectionLoop events) ∧
    ∀ messages, (∀ message ∈ messages, Sendable message) →
      (∀ taken, (sendEach messages taken).2 = true →
        pending events = (sendEach messages taken).1 →
        connectionLoop events = messages.map unstamped) ∧
      ∃ written, messages.mapM pythonFrame = some written ∧
        (pending events = written.flatten →
          connectionLoop events = messages.map unstamped) := by
  refine ⟨connectionLoop_longest _ rfl hd, ?_, ?_⟩
  · intro events' hd' hsame
    obtain ⟨frames, hlongest, hloop⟩ := connectionLoop_longest _ rfl hd
    obtain ⟨frames', hlongest', hloop'⟩ := connectionLoop_longest _ rfl hd'
    rw [hsame] at hlongest'
    rw [hloop, hloop', hlongest'.unique hlongest]
  · intro messages hm
    refine ⟨fun taken hsent hbytes => ?_, _, pythonFrames_eq hm, ?_⟩
    · rw [sendEach_sent hsent] at hbytes
      exact connectionLoop_frames hd hm hbytes
    · intro hbytes
      refine connectionLoop_frames hd hm (hbytes.trans ?_)
      rw [framesBytes, List.flatMap_map]
      exact List.flatMap_def.symm

/-- A sell order at 101.5. -/
def sampleMessage : OrderMessage where
  sourceTimestamp := 1700000000
  ingressTimestamp := 0
  ingressSequence := 0
  source := 7
  symbol := 3
  orderId := 2 ^ 40 + 1
  side := .sell
  price := ⟨0x4059600000000000⟩
  quantity := 250
  type := .goodTillCancel
  action := .add

/-- Its frame, cut inside the header and inside the payload, with a poll
    interval in between. -/
def sampleEvents : List Readiness :=
  let bytes := (frameOf sampleMessage).bytes
  [.readable (bytes.take 3), .timeout, .readable ((bytes.drop 3).take 20),
    .readable (bytes.drop 23)]

theorem sampleMessage_sendable : Sendable sampleMessage where
  side := Or.inr rfl
  type := by
    intro value h
    cases h
  action := by
    intro value h
    cases h
  sourceTimestamp := by decide
  source := by decide
  symbol := by decide
  orderId := by decide
  quantity := by decide

theorem orderEntry_stream_cut :
    connectionLoop sampleEvents = [sampleMessage] := by
  have hsendable : ∀ message ∈ [sampleMessage], Sendable message := by
    intro message hm
    rw [List.mem_singleton.mp hm]
    exact sampleMessage_sendable
  have hdelivering : Delivering sampleEvents := by decide
  obtain ⟨written, hwritten, hloop⟩ :=
    ((orderEntry_stream hdelivering).2.2 [sampleMessage] hsendable).2
  rw [pythonFrames_eq hsendable] at hwritten
  cases hwritten
  exact hloop (by decide)

end OsxOrderEntry
