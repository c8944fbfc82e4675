import MatchingEngine.Protocol
import MatchingEngine.Lib.Layout

/-!
# Writing frames

The encoders of `protocol.cpp` as they write to their destination, field by field. Writing past its end
is a fault.

* `putU8`, `putU16`, `putU32`, `putU64`; `encodeHeaderInto`, `encodeRequestInto`, `encodeResponseInto`.
* `headerFields`, `commandFields`, `eventFields`: what is written where.
* **`encodeRequestInto_eq`**, **`encodeResponseInto_eq`**: they write the bytes that `encodeRequest` and
  `encodeResponse` say to the front of the destination, and nothing else.
-/

set_option autoImplicit false

namespace Dme

namespace Protocol

open Layout (Consecutive image)

/-! ## The functions of the source -/

/-- Writing `bytes` from `offset` on. -/
def putBytes (output : List UInt8) (offset : ℕ) (bytes : List UInt8) : Except Fault (List UInt8) :=
  if offset + bytes.length ≤ output.length then .ok (Layout.write output offset bytes)
  else .error .outOfRange

/-- Writing one byte. -/
def putU8 (output : List UInt8) (offset : ℕ) (value : UInt8) : Except Fault (List UInt8) :=
  putBytes output offset [value]

/-- `put_u16`, the low byte first. -/
def putU16 (output : List UInt8) (offset : ℕ) (value : UInt16) : Except Fault (List UInt8) :=
  putBytes output offset (Endian.store 2 value.toNat)

/-- `put_u32`, the low byte first. -/
def putU32 (output : List UInt8) (offset : ℕ) (value : UInt32) : Except Fault (List UInt8) :=
  putBytes output offset (Endian.store 4 value.toNat)

/-- `put_u64`, the low byte first. -/
def putU64 (output : List UInt8) (offset : ℕ) (value : UInt64) : Except Fault (List UInt8) :=
  putBytes output offset (Endian.store 8 value.toNat)

/-- `encode_header`: seven fields, of which the one at 12 is reserved. -/
def encodeHeaderInto (output : List UInt8) (type : MessageType) (length : UInt16) (session : UInt32)
    (sequence : UInt64) : Except Fault (List UInt8) := do
  let output ← putU32 output 0 magic
  let output ← putU8 output 4 version
  let output ← putU8 output 5 type.code
  let output ← putU16 output 6 length
  let output ← putU32 output 8 session
  let output ← putU32 output 12 0
  putU64 output 16 sequence

/-- The payload of a request. -/
def encodeCommandInto (output : List UInt8) (command : Command) : Except Fault (List UInt8) :=
  match command.type with
  | .new => do
    let output ← putU8 output headerSize command.side.code
    let output ← putU8 output (headerSize + 1) command.orderType.code
    let output ← putU16 output (headerSize + 2) 0
    let output ← putU64 output (headerSize + 4) command.orderId
    let output ← putU64 output (headerSize + 12) command.price.toUInt64
    putU64 output (headerSize + 20) command.quantity
  | .cancel => putU64 output headerSize command.orderId
  | .replace => do
    let output ← putU64 output headerSize command.orderId
    let output ← putU64 output (headerSize + 8) command.price.toUInt64
    putU64 output (headerSize + 16) command.quantity

/-- The value returned, the destination and the number of bytes written. -/
def encodeRequestInto (request : Request) (destination : List UInt8) :
    Except Fault (Bool × List UInt8 × ℕ) :=
  let length := requestFrameSize request.command.type
  if length = 0 ∨ destination.length < length ∨ request.sessionId = 0 ∨ request.clientSequence = 0 ∨
    request.command.orderId = 0 then .ok (false, destination, 0)
  else do
    let destination ← encodeHeaderInto destination (wireType request.command.type)
      (UInt16.ofNat length) request.sessionId request.clientSequence
    let destination ← encodeCommandInto destination request.command
    .ok (true, destination, length)

/-- The payload of a response. -/
def encodeEventInto (output : List UInt8) (event : Event) : Except Fault (List UInt8) := do
  let output ← putU8 output headerSize event.type.code
  let output ← putU8 output (headerSize + 1) event.aggressorSide.code
  let output ← putU8 output (headerSize + 2) event.reason.code
  let output ← putU8 output (headerSize + 3) 0
  let output ← putU64 output (headerSize + 4) event.orderId
  let output ← putU64 output (headerSize + 12) event.contraOrderId
  let output ← putU64 output (headerSize + 20) event.price.toUInt64
  let output ← putU64 output (headerSize + 28) event.quantity
  putU64 output (headerSize + 36) event.sequence

/-- The value returned, the destination and the number of bytes written. -/
def encodeResponseInto (response : Response) (destination : List UInt8) :
    Except Fault (Bool × List UInt8 × ℕ) :=
  let length := responseFrameSize
  if destination.length < length ∨ response.sessionId = 0 ∨ response.clientSequence = 0 then
    .ok (false, destination, 0)
  else do
    let destination ← encodeHeaderInto destination .executionEvent (UInt16.ofNat length)
      response.sessionId response.clientSequence
    let destination ← encodeEventInto destination response.event
    .ok (true, destination, length)

/-! ## Field after field -/

/-- Fields written one after the other. -/
def putFields (output : List UInt8) (fields : List (ℕ × List UInt8)) : Except Fault (List UInt8) :=
  fields.foldlM (fun output field => putBytes output field.1 field.2) output

theorem putFields_cons (output : List UInt8) (field : ℕ × List UInt8)
    (fields : List (ℕ × List UInt8)) : putFields output (field :: fields) =
      putBytes output field.1 field.2 >>= fun output => putFields output fields :=
  List.foldlM_cons

theorem putFields_last (output : List UInt8) (field : ℕ × List UInt8) :
    putFields output [field] = putBytes output field.1 field.2 := by
  rw [putFields_cons]
  cases putBytes output field.1 field.2 <;> rfl

/-- **Consecutive fields are written without a gap**, and what is behind them is kept. -/
theorem putFields_consecutive {n : ℕ} {fields : List (ℕ × List UInt8)} (h : Consecutive n fields)
    {done rest : List UInt8} (hdone : done.length = n)
    (hroom : (image fields).length ≤ rest.length) : putFields (done ++ rest) fields =
      .ok (done ++ image fields ++ rest.drop (image fields).length) := by
  induction fields generalizing n done rest with
  | nil => simp [putFields, pure, Except.pure]
  | cons field fields ih =>
    obtain ⟨hoffset, h⟩ := h
    rw [Layout.image_cons, List.length_append] at hroom
    have hput : putBytes (done ++ rest) field.1 field.2 =
        .ok (done ++ field.2 ++ rest.drop field.2.length) := by
      rw [putBytes, if_pos, Layout.write_next (hdone.trans hoffset.symm)]
      rw [List.length_append]
      omega
    rw [putFields_cons, hput]
    change putFields (done ++ field.2 ++ rest.drop field.2.length) fields = _
    rw [ih h (by rw [List.length_append, hdone]) (by rw [List.length_drop]; omega),
      Layout.image_cons, List.length_append, List.drop_drop]
    simp only [List.append_assoc]

/-- The fields that `encode_header` writes, in the order of their offsets. -/
def headerFields (type : MessageType) (length : ℕ) (session : UInt32) (sequence : UInt64) :
    List (ℕ × List UInt8) :=
  [(0, Endian.store 4 magic.toNat), (4, [version]), (5, [type.code]), (6, Endian.store 2 length),
    (8, Endian.store 4 session.toNat), (12, Endian.store 4 0), (16, Endian.store 8 sequence.toNat)]

/-- The fields of a request after its header, by the type of its command. -/
def commandFields (command : Command) : List (ℕ × List UInt8) :=
  match command.type with
  | .new => [(24, [command.side.code]), (25, [command.orderType.code]), (26, Endian.store 2 0),
      (28, Endian.store 8 command.orderId.toNat), (36, Endian.store 8 command.price.toUInt64.toNat),
      (44, Endian.store 8 command.quantity.toNat)]
  | .cancel => [(24, Endian.store 8 command.orderId.toNat)]
  | .replace => [(24, Endian.store 8 command.orderId.toNat),
      (32, Endian.store 8 command.price.toUInt64.toNat), (40, Endian.store 8 command.quantity.toNat)]

/-- The fields of a response after its header. -/
def eventFields (event : Event) : List (ℕ × List UInt8) :=
  [(24, [event.type.code]), (25, [event.aggressorSide.code]), (26, [event.reason.code]), (27, [0]),
    (28, Endian.store 8 event.orderId.toNat), (36, Endian.store 8 event.contraOrderId.toNat),
    (44, Endian.store 8 event.price.toUInt64.toNat), (52, Endian.store 8 event.quantity.toNat),
    (60, Endian.store 8 event.sequence.toNat)]

theorem encodeHeaderInto_fields (output : List UInt8) (type : MessageType) (length : UInt16)
    (session : UInt32) (sequence : UInt64) : encodeHeaderInto output type length session sequence =
      putFields output (headerFields type length.toNat session sequence) := by
  simp only [headerFields, putFields_cons _ _ (_ :: _), putFields_last]
  rfl

theorem encodeCommandInto_fields (output : List UInt8) (command : Command) :
    encodeCommandInto output command = putFields output (commandFields command) := by
  rw [encodeCommandInto, commandFields]
  cases command.type with
  | new =>
    simp only [putFields_cons _ _ (_ :: _), putFields_last]
    rfl
  | cancel =>
    simp only [putFields_last]
    rfl
  | replace =>
    simp only [putFields_cons _ _ (_ :: _), putFields_last]
    rfl

theorem encodeEventInto_fields (output : List UInt8) (event : Event) :
    encodeEventInto output event = putFields output (eventFields event) := by
  simp only [eventFields, putFields_cons _ _ (_ :: _), putFields_last]
  rfl

theorem image_headerFields (type : MessageType) (length : ℕ) (session : UInt32) (sequence : UInt64) :
    image (headerFields type length session sequence) = encodeHeader type length session sequence := by
  simp [headerFields, encodeHeader]

theorem image_commandFields (command : Command) :
    image (commandFields command) = encodePayload command := by
  rw [commandFields, encodePayload]
  cases command.type <;> simp

theorem headerFields_consecutive (type : MessageType) (length : ℕ) (session : UInt32)
    (sequence : UInt64) : Consecutive 0 (headerFields type length session sequence) := by
  simp [headerFields, Consecutive]

theorem commandFields_consecutive (command : Command) :
    Consecutive 24 (commandFields command) := by
  rw [commandFields]
  cases command.type <;> simp [Consecutive]

theorem eventFields_consecutive (event : Event) : Consecutive 24 (eventFields event) := by
  simp [eventFields, Consecutive]

@[simp] theorem length_encodeHeader (type : MessageType) (length : ℕ) (session : UInt32)
    (sequence : UInt64) : (encodeHeader type length session sequence).length = 24 := by
  simp [encodeHeader]

/-! ## Frames -/

theorem encodeHeaderInto_eq {output : List UInt8} (h : headerSize ≤ output.length) (type : MessageType)
    (length : UInt16) (session : UInt32) (sequence : UInt64) :
    encodeHeaderInto output type length session sequence =
      .ok (encodeHeader type length.toNat session sequence ++ output.drop 24) := by
  have himage := image_headerFields type length.toNat session sequence
  have hroom : (image (headerFields type length.toNat session sequence)).length ≤ output.length := by
    rw [himage, length_encodeHeader]
    exact h
  have hput := putFields_consecutive (headerFields_consecutive type length.toNat session sequence)
    List.length_nil hroom
  rw [himage, length_encodeHeader, List.nil_append, List.nil_append] at hput
  rw [encodeHeaderInto_fields]
  exact hput

/-- **A header and its payload**, one after the other. -/
theorem encodeHeaderInto_putFields {output : List UInt8} {fields : List (ℕ × List UInt8)}
    (hfields : Consecutive 24 fields) (hroom : 24 + (image fields).length ≤ output.length)
    (type : MessageType) (length : UInt16) (session : UInt32) (sequence : UInt64) :
    (encodeHeaderInto output type length session sequence >>= fun output => putFields output fields) =
      .ok (encodeHeader type length.toNat session sequence ++ image fields ++
        output.drop (24 + (image fields).length)) := by
  have hrest : (image fields).length ≤ (output.drop 24).length := by
    rw [List.length_drop]
    omega
  have hput := putFields_consecutive hfields
    (length_encodeHeader type length.toNat session sequence) hrest
  rw [List.drop_drop] at hput
  rw [encodeHeaderInto_eq (by rw [headerSize]; omega)]
  exact hput

theorem length_commandFields (command : Command) :
    24 + (image (commandFields command)).length = requestFrameSize command.type := by
  rw [commandFields]
  cases command.type <;> simp [requestFrameSize]

theorem length_eventFields (event : Event) :
    24 + (image (eventFields event)).length = responseFrameSize := by
  simp [eventFields, responseFrameSize]

/-- The bytes of the frame of a request. -/
def requestFrame (request : Request) : List UInt8 :=
  encodeHeader (wireType request.command.type) (requestFrameSize request.command.type)
    request.sessionId request.clientSequence ++ image (commandFields request.command)

/-- The bytes of the frame of a response. -/
def responseFrame (response : Response) : List UInt8 :=
  encodeHeader .executionEvent responseFrameSize response.sessionId response.clientSequence ++
    image (eventFields response.event)

theorem length_requestFrame (request : Request) :
    (requestFrame request).length = requestFrameSize request.command.type := by
  rw [requestFrame, List.length_append, length_encodeHeader, length_commandFields]

theorem length_responseFrame (response : Response) :
    (responseFrame response).length = responseFrameSize := by
  rw [responseFrame, List.length_append, length_encodeHeader, length_eventFields]

theorem encodeRequest_frame {request : Request} {available : ℕ}
    (hroom : requestFrameSize request.command.type ≤ available) (hsession : request.sessionId ≠ 0)
    (hsequence : request.clientSequence ≠ 0) (hid : request.command.orderId ≠ 0) :
    encodeRequest request available = some (requestFrame request) := by
  have hlen : requestFrameSize request.command.type ≠ 0 := by
    cases request.command.type <;> decide
  simp [encodeRequest, hlen, Nat.not_lt.mpr hroom, hsession, hsequence, hid, requestFrame,
    image_commandFields]

theorem encodeResponse_frame {response : Response} {available : ℕ}
    (hroom : responseFrameSize ≤ available) (hsession : response.sessionId ≠ 0)
    (hsequence : response.clientSequence ≠ 0) :
    encodeResponse response available = some (responseFrame response) := by
  simp [encodeResponse, Nat.not_lt.mpr hroom, hsession, hsequence, responseFrame, eventFields]

theorem encodeResponse_eq_some_iff {response : Response} {available : ℕ} {frame : List UInt8} :
    encodeResponse response available = some frame ↔ responseFrameSize ≤ available ∧
      response.sessionId ≠ 0 ∧ response.clientSequence ≠ 0 ∧ frame = responseFrame response := by
  by_cases hbad : available < responseFrameSize ∨ response.sessionId = 0 ∨ response.clientSequence = 0
  · rw [encodeResponse, if_pos hbad]
    constructor
    · intro h
      cases h
    · rintro ⟨hroom, hsession, hsequence, -⟩
      rcases hbad with hbad | hbad | hbad
      · omega
      · exact absurd hbad hsession
      · exact absurd hbad hsequence
  · simp only [not_or, Nat.not_lt] at hbad
    obtain ⟨hroom, hsession, hsequence⟩ := hbad
    rw [encodeResponse_frame hroom hsession hsequence]
    simp [hroom, hsession, hsequence, eq_comm]

/-- **What `encode_request` does to its destination.** -/
theorem encodeRequestInto_eq (request : Request) (destination : List UInt8) :
    encodeRequestInto request destination =
      match encodeRequest request destination.length with
      | none => .ok (false, destination, 0)
      | some bytes => .ok (true, bytes ++ destination.drop bytes.length, bytes.length) := by
  by_cases hbad : requestFrameSize request.command.type = 0 ∨
      destination.length < requestFrameSize request.command.type ∨ request.sessionId = 0 ∨
      request.clientSequence = 0 ∨ request.command.orderId = 0
  · rw [encodeRequestInto, if_pos hbad, encodeRequest, if_pos hbad]
  · have hgood := hbad
    simp only [not_or, Nat.not_lt] at hgood
    obtain ⟨-, hroom, hsession, hsequence, hid⟩ := hgood
    have hfit : (UInt16.ofNat (requestFrameSize request.command.type)).toNat =
        requestFrameSize request.command.type := by
      cases request.command.type <;> rfl
    have hwrite := encodeHeaderInto_putFields (commandFields_consecutive request.command)
      (by rwa [length_commandFields]) (wireType request.command.type)
      (UInt16.ofNat (requestFrameSize request.command.type)) request.sessionId request.clientSequence
    rw [hfit, length_commandFields, ← requestFrame] at hwrite
    rw [encodeRequestInto, if_neg hbad, encodeRequest_frame hroom hsession hsequence hid]
    simp only [encodeCommandInto_fields, length_requestFrame, ← bind_assoc]
    rw [hwrite]
    rfl

/-- **What `encode_response` does to its destination.** -/
theorem encodeResponseInto_eq (response : Response) (destination : List UInt8) :
    encodeResponseInto response destination =
      match encodeResponse response destination.length with
      | none => .ok (false, destination, 0)
      | some bytes => .ok (true, bytes ++ destination.drop bytes.length, bytes.length) := by
  by_cases hbad : destination.length < responseFrameSize ∨ response.sessionId = 0 ∨
      response.clientSequence = 0
  · rw [encodeResponseInto, if_pos hbad, encodeResponse, if_pos hbad]
  · have hgood := hbad
    simp only [not_or, Nat.not_lt] at hgood
    obtain ⟨hroom, hsession, hsequence⟩ := hgood
    have hwrite := encodeHeaderInto_putFields (eventFields_consecutive response.event)
      (by rwa [length_eventFields]) .executionEvent (UInt16.ofNat responseFrameSize)
      response.sessionId response.clientSequence
    rw [show (UInt16.ofNat responseFrameSize).toNat = responseFrameSize from rfl, length_eventFields,
      ← responseFrame] at hwrite
    rw [encodeResponseInto, if_neg hbad, encodeResponse_frame hroom hsession hsequence]
    simp only [encodeEventInto_fields, length_responseFrame, ← bind_assoc]
    rw [hwrite]
    rfl

end Protocol

end Dme
