import MatchingEngine.Journal
import MatchingEngine.Lib.Endian
import MatchingEngine.Lib.Framing

/-!
# The wire protocol

The encoders and decoders of requests and responses of `protocol.cpp`. Reading past the end of the
input is a fault; `encodeRequest` and `encodeResponse` give the bytes that are written.

* `getU8`, `getU16`, `getU32`, `getU64`; `validateHeader`, `decodeRequest`, `decodeResponse`,
  `encodeRequest`, `encodeResponse`.
* `announced`, `decodeFrame_spec`, `decodeFrame_congr`: the header, and the rest of the frame.
* **`decodeRequest_spec`**: no read is outside the input; how much is held back; what an accepted
  request has.
* **`requestOutcome_stable`**: it is a stable decoder of frames.
-/

set_option autoImplicit false

namespace Dme

/-- The value of an event type on the wire. -/
def EventType.code : EventType → UInt8
  | .accepted => 0
  | .rejected => 1
  | .trade => 2
  | .cancelled => 3
  | .replaced => 4
  | .rested => 5

/-- The value of a rejection reason on the wire. -/
def RejectReason.code : RejectReason → UInt8
  | .none => 0
  | .invalidQuantity => 1
  | .invalidPrice => 2
  | .duplicateOrderId => 3
  | .unknownOrderId => 4
  | .bookCapacity => 5
  | .wouldNotFill => 6
  | .sequenceGap => 7
  | .invalidSessionSequence => 8
  | .riskLimit => 9
  | .gatewayBackpressure => 10

namespace Protocol

/-! ## Reading -/

/-- The `size` bytes from `offset` on. -/
def getBytes (input : List UInt8) (offset size : ℕ) : Except Fault (List UInt8) :=
  if offset + size ≤ input.length then .ok ((input.drop offset).take size)
  else .error .outOfRange

/-- `size` bytes as one number, the least significant one first. -/
def getWord (input : List UInt8) (offset size : ℕ) : Except Fault ℕ := do
  let bytes ← getBytes input offset size
  .ok (Endian.load bytes)

/-- Reading one byte. -/
def getU8 (input : List UInt8) (offset : ℕ) : Except Fault UInt8 :=
  UInt8.ofNat <$> getWord input offset 1

/-- `get_u16`, the low byte first. -/
def getU16 (input : List UInt8) (offset : ℕ) : Except Fault UInt16 :=
  UInt16.ofNat <$> getWord input offset 2

/-- `get_u32`, the low byte first. -/
def getU32 (input : List UInt8) (offset : ℕ) : Except Fault UInt32 :=
  UInt32.ofNat <$> getWord input offset 4

/-- `get_u64`, the low byte first. -/
def getU64 (input : List UInt8) (offset : ℕ) : Except Fault UInt64 :=
  UInt64.ofNat <$> getWord input offset 8

/-! ## Headers -/

/-- `0x31454d44`, which is `DME1` on the wire. -/
def magic : UInt32 := 0x31454d44

/-- The version of the protocol. -/
def version : UInt8 := 1

/-- The size of a header. -/
def headerSize : ℕ := 24

/-- The size of the largest frame a header may announce. -/
def maximumFrameSize : ℕ := 80

/-- What a frame carries. -/
inductive MessageType
  | newOrder
  | cancelOrder
  | replaceOrder
  | executionEvent
deriving DecidableEq, Repr

/-- The value of a message type on the wire. -/
def MessageType.code : MessageType → UInt8
  | .newOrder => 1
  | .cancelOrder => 2
  | .replaceOrder => 3
  | .executionEvent => 128

/-- How decoding ends. -/
inductive DecodeStatus
  | ok
  | needMoreData
  | invalidMagic
  | unsupportedVersion
  | invalidLength
  | unknownMessageType
  | invalidField
deriving DecidableEq, Repr

/-- The variables that `validate_header` sets; the type is any byte. -/
structure FrameHeader where
  type : UInt8 := 0
  length : ℕ := 0
  session : UInt32 := 0
  sequence : UInt64 := 0
deriving DecidableEq, Repr

/-- `validate_header`; the length is set as soon as it has been read. -/
def validateHeader (input : List UInt8) : Except Fault (DecodeStatus × FrameHeader) :=
  if input.length < headerSize then .ok (.needMoreData, {})
  else do
    let word ← getU32 input 0
    if word ≠ magic then .ok (.invalidMagic, {})
    else
      let byte ← getU8 input 4
      if byte ≠ version then .ok (.unsupportedVersion, {})
      else
        let frameLength ← getU16 input 6
        let length := frameLength.toNat
        if length < headerSize ∨ length > maximumFrameSize then .ok (.invalidLength, { length })
        else if input.length < length then .ok (.needMoreData, { length })
        else
          let type ← getU8 input 5
          let session ← getU32 input 8
          let sequence ← getU64 input 16
          .ok (.ok, { type, length, session, sequence })

/-! ## Requests -/

/-- A request as it is on the wire. -/
structure Request where
  sessionId : UInt32 := 0
  clientSequence : UInt64 := 0
  command : Command := {}
deriving DecidableEq, Repr

/-- What `decode_request` returns. -/
structure RequestDecodeResult where
  status : DecodeStatus := .needMoreData
  bytesConsumed : ℕ := 0
  request : Request := {}
deriving DecidableEq, Repr

/-- `request_frame_size`: the size of a request with a command of a type. -/
def requestFrameSize : CommandType → ℕ
  | .new => 52
  | .cancel => 32
  | .replace => 48

/-- The command type of a message; `none` for the other messages and for unknown ones. -/
def commandType (type : UInt8) : Option CommandType :=
  if type = MessageType.newOrder.code then some .new
  else if type = MessageType.cancelOrder.code then some .cancel
  else if type = MessageType.replaceOrder.code then some .replace
  else none

/-- `valid_side` and the cast that follows it. -/
def sideOf (value : UInt8) : Option Side :=
  if value = Side.buy.code then some .buy
  else if value = Side.sell.code then some .sell
  else none

/-- `valid_order_type` and the cast that follows it. -/
def orderTypeOf (value : UInt8) : Option OrderType :=
  if value = OrderType.limit.code then some .limit
  else if value = OrderType.market.code then some .market
  else if value = OrderType.immediateOrCancel.code then some .immediateOrCancel
  else if value = OrderType.fillOrKill.code then some .fillOrKill
  else none

/-- The command after the header; `none` if a field of it is invalid. -/
def decodePayload (type : CommandType) (input : List UInt8) : Except Fault (Option Command) :=
  match type with
  | .new => do
    let side ← getU8 input headerSize
    let orderType ← getU8 input (headerSize + 1)
    match sideOf side, orderTypeOf orderType with
    | some side, some orderType =>
      let orderId ← getU64 input (headerSize + 4)
      let price ← getU64 input (headerSize + 12)
      let quantity ← getU64 input (headerSize + 20)
      .ok (some { type, side, orderType, orderId, price := price.toInt64, quantity })
    | _, _ => .ok none
  | .cancel => do
    let orderId ← getU64 input headerSize
    .ok (some { type, orderId })
  | .replace => do
    let orderId ← getU64 input headerSize
    let price ← getU64 input (headerSize + 8)
    let quantity ← getU64 input (headerSize + 16)
    .ok (some { type, orderType := .limit, orderId, price := price.toInt64, quantity })

/-- The end of `decode_request`. -/
def frameResult (header : FrameHeader) : Option Command → RequestDecodeResult
  | none => { status := .invalidField }
  | some command =>
    if command.orderId = 0 then { status := .invalidField }
    else {
      status := .ok
      bytesConsumed := header.length
      request := ⟨header.session, header.sequence, command⟩ }

/-- The part of `decode_request` after the header. -/
def decodeFrame (header : FrameHeader) (input : List UInt8) : Except Fault RequestDecodeResult :=
  match commandType header.type with
  | none => .ok { status := .unknownMessageType }
  | some type =>
    if header.length ≠ requestFrameSize type ∨ header.session = 0 ∨ header.sequence = 0 then
      .ok { status := .invalidField }
    else do
      let command ← decodePayload type input
      .ok (frameResult header command)

/-- **`decode_request`**: the header is checked, and then the rest of the frame. -/
def decodeRequest (input : List UInt8) : Except Fault RequestDecodeResult := do
  let (status, header) ← validateHeader input
  if status ≠ .ok then .ok { status } else decodeFrame header input

/-! ## Responses -/

/-- A response as it is on the wire. -/
structure Response where
  sessionId : UInt32 := 0
  clientSequence : UInt64 := 0
  event : Event := {}
deriving DecidableEq, Repr

/-- What `decode_response` returns. -/
structure ResponseDecodeResult where
  status : DecodeStatus := .needMoreData
  bytesConsumed : ℕ := 0
  response : Response := {}
deriving DecidableEq, Repr

/-- `response_frame_size`: every response has this size. -/
def responseFrameSize : ℕ := 68

/-- The check of an event type and the cast that follows it. -/
def eventTypeOf (value : UInt8) : Option EventType :=
  if value = EventType.accepted.code then some .accepted
  else if value = EventType.rejected.code then some .rejected
  else if value = EventType.trade.code then some .trade
  else if value = EventType.cancelled.code then some .cancelled
  else if value = EventType.replaced.code then some .replaced
  else if value = EventType.rested.code then some .rested
  else none

/-- The check of a rejection reason and the cast that follows it. -/
def rejectReasonOf (value : UInt8) : Option RejectReason :=
  if value = RejectReason.none.code then some .none
  else if value = RejectReason.invalidQuantity.code then some .invalidQuantity
  else if value = RejectReason.invalidPrice.code then some .invalidPrice
  else if value = RejectReason.duplicateOrderId.code then some .duplicateOrderId
  else if value = RejectReason.unknownOrderId.code then some .unknownOrderId
  else if value = RejectReason.bookCapacity.code then some .bookCapacity
  else if value = RejectReason.wouldNotFill.code then some .wouldNotFill
  else if value = RejectReason.sequenceGap.code then some .sequenceGap
  else if value = RejectReason.invalidSessionSequence.code then some .invalidSessionSequence
  else if value = RejectReason.riskLimit.code then some .riskLimit
  else if value = RejectReason.gatewayBackpressure.code then some .gatewayBackpressure
  else none

/-- The event after the header; `none` if a field of it is invalid. -/
def decodeEvent (input : List UInt8) : Except Fault (Option Event) := do
  let eventType ← getU8 input headerSize
  let side ← getU8 input (headerSize + 1)
  let reason ← getU8 input (headerSize + 2)
  match eventTypeOf eventType, sideOf side, rejectReasonOf reason with
  | some type, some aggressorSide, some reason =>
    let orderId ← getU64 input (headerSize + 4)
    let contraOrderId ← getU64 input (headerSize + 12)
    let price ← getU64 input (headerSize + 20)
    let quantity ← getU64 input (headerSize + 28)
    let sequence ← getU64 input (headerSize + 36)
    .ok (some {
      type, aggressorSide, reason, orderId, contraOrderId, price := price.toInt64, quantity, sequence })
  | _, _, _ => .ok none

/-- The end of `decode_response`. -/
def eventResult (header : FrameHeader) : Option Event → ResponseDecodeResult
  | none => { status := .invalidField }
  | some event => {
      status := .ok
      bytesConsumed := header.length
      response := ⟨header.session, header.sequence, event⟩ }

/-- **`decode_response`**: as for a request, with one type of message and one size. -/
def decodeResponse (input : List UInt8) : Except Fault ResponseDecodeResult := do
  let (status, header) ← validateHeader input
  if status ≠ .ok then .ok { status }
  else if header.type ≠ MessageType.executionEvent.code then .ok { status := .unknownMessageType }
  else if header.length ≠ responseFrameSize ∨ header.session = 0 ∨ header.sequence = 0 then
    .ok { status := .invalidField }
  else do
    let event ← decodeEvent input
    .ok (eventResult header event)

/-! ## Encoding -/

/-- The bytes that `encode_header` writes. -/
def encodeHeader (type : MessageType) (length : ℕ) (session : UInt32) (sequence : UInt64) :
    List UInt8 :=
  Endian.store 4 magic.toNat ++ [version, type.code] ++ Endian.store 2 length ++
    Endian.store 4 session.toNat ++ Endian.store 4 0 ++ Endian.store 8 sequence.toNat

/-- `wire_type`: the message that carries a command of a type. -/
def wireType : CommandType → MessageType
  | .new => .newOrder
  | .cancel => .cancelOrder
  | .replace => .replaceOrder

/-- The bytes of a request after its header. -/
def encodePayload (command : Command) : List UInt8 :=
  match command.type with
  | .new => [command.side.code, command.orderType.code] ++ Endian.store 2 0 ++
      Endian.store 8 command.orderId.toNat ++ Endian.store 8 command.price.toUInt64.toNat ++
      Endian.store 8 command.quantity.toNat
  | .cancel => Endian.store 8 command.orderId.toNat
  | .replace => Endian.store 8 command.orderId.toNat ++
      Endian.store 8 command.price.toUInt64.toNat ++ Endian.store 8 command.quantity.toNat

/-- The bytes written to the front of a destination of `available` bytes; `none` if the request does
not fit or has no identity. -/
def encodeRequest (request : Request) (available : ℕ) : Option (List UInt8) :=
  let length := requestFrameSize request.command.type
  if length = 0 ∨ available < length ∨ request.sessionId = 0 ∨ request.clientSequence = 0 ∨
    request.command.orderId = 0 then none
  else some (encodeHeader (wireType request.command.type) length request.sessionId
    request.clientSequence ++ encodePayload request.command)

/-- The bytes written to the front of a destination of `available` bytes; `none` if the response does
not fit or has no identity. -/
def encodeResponse (response : Response) (available : ℕ) : Option (List UInt8) :=
  if available < responseFrameSize ∨ response.sessionId = 0 ∨ response.clientSequence = 0 then none
  else some (
    encodeHeader .executionEvent responseFrameSize response.sessionId response.clientSequence ++
    [response.event.type.code, response.event.aggressorSide.code, response.event.reason.code, 0] ++
    Endian.store 8 response.event.orderId.toNat ++
    Endian.store 8 response.event.contraOrderId.toNat ++
    Endian.store 8 response.event.price.toUInt64.toNat ++
    Endian.store 8 response.event.quantity.toNat ++
    Endian.store 8 response.event.sequence.toNat)

/-! ## What the decoder looks at -/

/-- What the bytes at a place stand for. -/
def word (l : List UInt8) (offset size : ℕ) : ℕ := Endian.load ((l.drop offset).take size)

/-- What the first 24 bytes announce. -/
def announced (front : List UInt8) : DecodeStatus × FrameHeader :=
  let length := (UInt16.ofNat (word front 6 2)).toNat
  if UInt32.ofNat (word front 0 4) ≠ magic then (.invalidMagic, {})
  else if UInt8.ofNat (word front 4 1) ≠ version then (.unsupportedVersion, {})
  else if length < headerSize ∨ length > maximumFrameSize then (.invalidLength, { length })
  else (.ok, {
    type := UInt8.ofNat (word front 5 1)
    length
    session := UInt32.ofNat (word front 8 4)
    sequence := UInt64.ofNat (word front 16 8) })

section Congr

variable {l l' : List UInt8} {k offset size : ℕ}

theorem word_take (h : offset + size ≤ k) : word (l.take k) offset size = word l offset size := by
  rw [word, word, List.drop_take, List.take_take, Nat.min_eq_left (by omega)]

theorem getWord_ok (h : offset + size ≤ l.length) :
    getWord l offset size = .ok (word l offset size) := by
  simp [getWord, getBytes, h, word, bind, Except.bind]

theorem validateHeader_eq (h : headerSize ≤ l.length) :
    validateHeader l = .ok (if (announced (l.take headerSize)).1 = .ok ∧
        l.length < (announced (l.take headerSize)).2.length then
      (.needMoreData, { length := (announced (l.take headerSize)).2.length })
      else announced (l.take headerSize)) := by
  rw [headerSize] at h
  rw [validateHeader, if_neg (by rw [headerSize]; omega), announced, headerSize]
  simp only [getU8, getU16, getU32, getU64, getWord_ok (show 0 + 4 ≤ l.length by omega),
    getWord_ok (show 4 + 1 ≤ l.length by omega), getWord_ok (show 5 + 1 ≤ l.length by omega),
    getWord_ok (show 6 + 2 ≤ l.length by omega), getWord_ok (show 8 + 4 ≤ l.length by omega),
    getWord_ok (show 16 + 8 ≤ l.length by omega), word_take (show 0 + 4 ≤ 24 by decide),
    word_take (show 4 + 1 ≤ 24 by decide), word_take (show 5 + 1 ≤ 24 by decide),
    word_take (show 6 + 2 ≤ 24 by decide), word_take (show 8 + 4 ≤ 24 by decide),
    word_take (show 16 + 8 ≤ 24 by decide), bind, Except.bind, Functor.map, Except.map]
  generalize UInt16.ofNat (word l 6 2) = frameLength
  by_cases hm : UInt32.ofNat (word l 0 4) ≠ magic
  · simp [hm]
  by_cases hv : UInt8.ofNat (word l 4 1) ≠ version
  · simp [hm, hv]
  by_cases hlen : frameLength.toNat < 24 ∨ frameLength.toNat > maximumFrameSize
  · simp [hm, hv, hlen]
  simp only [hm, hv, hlen, if_false, true_and]
  split_ifs <;> rfl

theorem announced_length {front : List UInt8} (h : (announced front).1 = .ok) :
    headerSize ≤ (announced front).2.length ∧ (announced front).2.length ≤ maximumFrameSize := by
  rw [announced] at h ⊢
  split_ifs at h ⊢ with _ _ hlen
  dsimp only
  omega

theorem announced_ne_more (front : List UInt8) : (announced front).1 ≠ .needMoreData := by
  rw [announced]
  split_ifs <;> simp

/-- What the words after the header say; `none` if a field is invalid. -/
def commandAt (type : CommandType) (l : List UInt8) : Option Command :=
  match type with
  | .new =>
    match sideOf (UInt8.ofNat (word l 24 1)), orderTypeOf (UInt8.ofNat (word l 25 1)) with
    | some side, some orderType => some {
        type, side, orderType
        orderId := UInt64.ofNat (word l 28 8)
        price := (UInt64.ofNat (word l 36 8)).toInt64
        quantity := UInt64.ofNat (word l 44 8) }
    | _, _ => none
  | .cancel => some { type, orderId := UInt64.ofNat (word l 24 8) }
  | .replace => some {
      type
      orderId := UInt64.ofNat (word l 24 8)
      price := (UInt64.ofNat (word l 32 8)).toInt64
      quantity := UInt64.ofNat (word l 40 8) }

theorem decodePayload_eq {type : CommandType} (h : requestFrameSize type ≤ l.length) :
    decodePayload type l = .ok (commandAt type l) := by
  have hread : ∀ offset size, offset + size ≤ requestFrameSize type →
      getWord l offset size = .ok (word l offset size) :=
    fun _ _ hle => getWord_ok (by omega)
  cases type with
  | new =>
    simp only [decodePayload, commandAt, getU8, getU64, headerSize, hread 24 1 (by decide),
      hread (24 + 1) 1 (by decide), hread (24 + 4) 8 (by decide), hread (24 + 12) 8 (by decide),
      hread (24 + 20) 8 (by decide), bind, Except.bind, Functor.map, Except.map, Nat.reduceAdd]
    cases sideOf (UInt8.ofNat (word l 24 1)) with
    | none => rfl
    | some side =>
      cases orderTypeOf (UInt8.ofNat (word l 25 1)) with
      | none => rfl
      | some orderType => rfl
  | cancel =>
    simp only [decodePayload, commandAt, getU64, headerSize, hread 24 8 (by decide), bind,
      Except.bind, Functor.map, Except.map]
  | replace =>
    simp only [decodePayload, commandAt, getU64, headerSize, hread 24 8 (by decide),
      hread (24 + 8) 8 (by decide), hread (24 + 16) 8 (by decide), bind, Except.bind, Functor.map,
      Except.map]

theorem commandAt_take (type : CommandType) (l : List UInt8) :
    commandAt type (l.take (requestFrameSize type)) = commandAt type l := by
  have hword : ∀ offset size, offset + size ≤ requestFrameSize type →
      word (l.take (requestFrameSize type)) offset size = word l offset size :=
    fun _ _ hle => word_take hle
  cases type with
  | new =>
    simp only [commandAt, hword 24 1 (by decide), hword 25 1 (by decide), hword 28 8 (by decide),
      hword 36 8 (by decide), hword 44 8 (by decide)]
  | cancel => simp only [commandAt, hword 24 8 (by decide)]
  | replace =>
    simp only [commandAt, hword 24 8 (by decide), hword 32 8 (by decide), hword 40 8 (by decide)]

/-- What an accepted request has. -/
structure Accepted (header : FrameHeader) (r : RequestDecodeResult) : Prop where
  consumed : r.bytesConsumed = header.length
  session : r.request.sessionId ≠ 0
  sequence : r.request.clientSequence ≠ 0
  orderId : r.request.command.orderId ≠ 0

theorem frameResult_ne_more (header : FrameHeader) (command : Option Command) :
    (frameResult header command).status ≠ .needMoreData := by
  cases command with
  | none => simp [frameResult]
  | some command =>
    rw [frameResult]
    split_ifs <;> simp

theorem frameResult_accepted {header : FrameHeader} {command : Option Command}
    (hsession : header.session ≠ 0) (hsequence : header.sequence ≠ 0)
    (h : (frameResult header command).status = .ok) :
    Accepted header (frameResult header command) := by
  cases command with
  | none => cases h
  | some command =>
    rw [frameResult] at h ⊢
    split_ifs at h ⊢ with hid
    exact ⟨rfl, hsession, hsequence, hid⟩

/-- **A frame that is all there is accepted or refused.** -/
theorem decodeFrame_spec {header : FrameHeader} (h : header.length ≤ l.length) :
    ∃ r, decodeFrame header l = .ok r ∧ r.status ≠ .needMoreData ∧
      (r.status = .ok → Accepted header r) := by
  rw [decodeFrame]
  cases commandType header.type with
  | none => exact ⟨_, rfl, by simp, by simp⟩
  | some type =>
    dsimp only
    split_ifs with hbad
    · exact ⟨_, rfl, by simp, by simp⟩
    · obtain ⟨hlen, hsession, hsequence⟩ : header.length = requestFrameSize type ∧
          header.session ≠ 0 ∧ header.sequence ≠ 0 := by simpa [not_or] using hbad
      rw [decodePayload_eq (hlen ▸ h)]
      exact ⟨_, rfl, frameResult_ne_more header _, frameResult_accepted hsession hsequence⟩

theorem decodeFrame_congr {header : FrameHeader} (h : header.length ≤ l.length)
    (h' : header.length ≤ l'.length) (htake : l'.take header.length = l.take header.length) :
    decodeFrame header l' = decodeFrame header l := by
  rw [decodeFrame, decodeFrame]
  cases commandType header.type with
  | none => rfl
  | some type =>
    dsimp only
    split_ifs with hbad
    · rfl
    · have hlen : header.length = requestFrameSize type := by
        by_contra hne
        exact hbad (Or.inl hne)
      rw [hlen] at h h' htake
      rw [decodePayload_eq h, decodePayload_eq h', ← commandAt_take, htake, commandAt_take]

/-! ## Whole requests -/

theorem decodeRequest_short (h : l.length < headerSize) :
    decodeRequest l = .ok { status := .needMoreData } := by
  rw [decodeRequest, validateHeader, if_pos h]
  rfl

theorem decodeRequest_eq (h : headerSize ≤ l.length) : decodeRequest l =
    if (announced (l.take headerSize)).1 ≠ .ok then
      .ok { status := (announced (l.take headerSize)).1 }
    else if l.length < (announced (l.take headerSize)).2.length then .ok { status := .needMoreData }
    else decodeFrame (announced (l.take headerSize)).2 l := by
  simp only [decodeRequest, validateHeader_eq h, bind, Except.bind]
  by_cases hok : (announced (l.take headerSize)).1 = .ok
  · by_cases hshort : l.length < (announced (l.take headerSize)).2.length
    · simp [hok, hshort]
    · simp [hok, hshort]
  · simp [hok]

/-- **What comes of any input**: it is too short, its header is bad, or its frame is all there. -/
theorem decodeRequest_spec (l : List UInt8) : ∃ r, decodeRequest l = .ok r ∧
    (r.status = .needMoreData → l.length < maximumFrameSize) ∧
    (r.status = .ok → headerSize ≤ l.length ∧ (announced (l.take headerSize)).1 = .ok ∧
      (announced (l.take headerSize)).2.length ≤ l.length ∧
      Accepted (announced (l.take headerSize)).2 r) := by
  by_cases hlen : headerSize ≤ l.length
  · rw [decodeRequest_eq hlen]
    by_cases hok : (announced (l.take headerSize)).1 = .ok
    · have hle := (announced_length hok).2
      rw [if_neg (not_not.mpr hok)]
      by_cases hshort : l.length < (announced (l.take headerSize)).2.length
      · rw [if_pos hshort]
        exact ⟨_, rfl, fun _ => by omega, by simp⟩
      · rw [if_neg hshort]
        obtain ⟨r, hr, hmore, hacc⟩ := decodeFrame_spec (Nat.not_lt.mp hshort)
        exact ⟨r, hr, fun h => absurd h hmore, fun h => ⟨hlen, hok, by omega, hacc h⟩⟩
    · rw [if_pos hok]
      exact ⟨_, rfl, fun h => absurd h (announced_ne_more _), fun h => absurd h hok⟩
  · rw [decodeRequest_short (by omega)]
    refine ⟨_, rfl, fun _ => ?_, by simp⟩
    rw [headerSize] at hlen
    rw [maximumFrameSize]
    omega

theorem decodeRequest_congr (hl : headerSize ≤ l.length) (hl' : headerSize ≤ l'.length)
    (hfront : l'.take headerSize = l.take headerSize)
    (hframe : (announced (l.take headerSize)).1 = .ok →
      (announced (l.take headerSize)).2.length ≤ l.length ∧
      (announced (l.take headerSize)).2.length ≤ l'.length ∧
      l'.take (announced (l.take headerSize)).2.length =
        l.take (announced (l.take headerSize)).2.length) :
    decodeRequest l' = decodeRequest l := by
  rw [decodeRequest_eq hl, decodeRequest_eq hl', hfront]
  by_cases hok : (announced (l.take headerSize)).1 = .ok
  · obtain ⟨h₁, h₂, htake⟩ := hframe hok
    rw [if_neg (not_not.mpr hok), if_neg (not_not.mpr hok), if_neg (Nat.not_lt.mpr h₁),
      if_neg (Nat.not_lt.mpr h₂), decodeFrame_congr h₁ h₂ htake]
  · rw [if_pos hok, if_pos hok]

/-- What an answer of the decoder means for a stream. -/
def RequestDecodeResult.outcome (r : RequestDecodeResult) : Framing.Outcome Request :=
  match r.status with
  | .ok => .frame r.request r.bytesConsumed
  | .needMoreData => .more
  | _ => .bad

/-- The decoder of requests, as one of a stream of frames. -/
def requestOutcome (l : List UInt8) : Framing.Outcome Request :=
  match decodeRequest l with
  | .ok r => r.outcome
  | .error _ => .bad

theorem requestOutcome_eq {r : RequestDecodeResult} (h : decodeRequest l = .ok r) :
    requestOutcome l = r.outcome := by
  rw [requestOutcome, h]

theorem outcome_eq_more {r : RequestDecodeResult} : r.outcome = .more ↔ r.status = .needMoreData := by
  rw [RequestDecodeResult.outcome]
  cases r.status <;> simp

theorem outcome_eq_bad {r : RequestDecodeResult} :
    r.outcome = .bad ↔ r.status ≠ .ok ∧ r.status ≠ .needMoreData := by
  rw [RequestDecodeResult.outcome]
  cases r.status <;> simp

theorem outcome_eq_frame {r : RequestDecodeResult} {request : Request} {n : ℕ} :
    r.outcome = .frame request n ↔ r.status = .ok ∧ r.request = request ∧ r.bytesConsumed = n := by
  rw [RequestDecodeResult.outcome]
  cases r.status <;> simp

/-- **The decoder is stable**: it never takes back what it has said of a buffer. -/
theorem requestOutcome_stable : Framing.Stable requestOutcome := by
  refine ⟨fun l s hne => ?_, fun {l a n} h => ?_, fun {l a n} h => ?_⟩
  · have hlen : headerSize ≤ l.length := by
      by_contra hlen
      exact hne (by rw [requestOutcome_eq (decodeRequest_short (by omega)), outcome_eq_more])
    have hsame : decodeRequest (l ++ s) = decodeRequest l := by
      refine decodeRequest_congr hlen (by rw [List.length_append]; omega)
        (List.take_append_of_le_length hlen) fun hok => ?_
      have hle : (announced (l.take headerSize)).2.length ≤ l.length := by
        by_contra hlt
        refine hne ?_
        rw [requestOutcome, decodeRequest_eq hlen, if_neg (not_not.mpr hok), if_pos (by omega)]
        rfl
      exact ⟨hle, by rw [List.length_append]; omega, List.take_append_of_le_length hle⟩
    rw [requestOutcome, requestOutcome, hsame]
  · obtain ⟨r, hr, -, hacc⟩ := decodeRequest_spec l
    have hframe := h
    rw [requestOutcome_eq hr, outcome_eq_frame] at hframe
    obtain ⟨hok, -, rfl⟩ := hframe
    obtain ⟨hlen, hann, hle, hacc⟩ := hacc hok
    obtain ⟨h24, -⟩ := announced_length hann
    have hsame : decodeRequest (l.take r.bytesConsumed) = decodeRequest l := by
      rw [hacc.consumed]
      refine decodeRequest_congr hlen (by rw [List.length_take]; omega) ?_ fun _ => ⟨hle, ?_, ?_⟩
      · rw [List.take_take, Nat.min_eq_left h24]
      · rw [List.length_take]
        omega
      · rw [List.take_take, Nat.min_self]
    rw [← h, requestOutcome, requestOutcome, hsame]
  · obtain ⟨r, hr, -, hacc⟩ := decodeRequest_spec l
    rw [requestOutcome_eq hr, outcome_eq_frame] at h
    obtain ⟨hok, -, rfl⟩ := h
    obtain ⟨-, hann, hle, hacc⟩ := hacc hok
    obtain ⟨h24, -⟩ := announced_length hann
    have hpos : 0 < headerSize := by decide
    rw [hacc.consumed]
    exact ⟨by omega, hle⟩

end Congr

end Protocol

end Dme
