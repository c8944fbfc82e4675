import MatchingEngine.RequestCodec
import MatchingEngine.Restore
import MatchingEngine.TcpGateway

/-!
# The codec of responses

* `ResponseFrame`: the layout of an execution event in `PROTOCOL.md`.
* `decodeResponse_of_frame`, `decodeResponse_cases`: the decoder accepts that layout and no other.
* `Emitted`: the events of the order book and of the gateway; none has a reserved byte set.
* **`response_codec`**: encoding and decoding, either way round; what the program emits arrives
  unchanged.
-/

set_option autoImplicit false

namespace Dme

/-! ## The events that are sent -/

namespace Market

theorem execute_reserved (m : Market) (c : Command) : ∀ e ∈ (m.execute c).2, e.reserved = 0 := by
  have htrades : ∀ fills, ∀ e ∈ tradesOf c fills, e.reserved = 0 := by
    intro fills e he
    obtain ⟨f, -, rfl⟩ := List.mem_map.mp he
    rfl
  have hlast : ∀ fills type price quantity, ∀ e ∈ tradesOf c fills ++
      [eventOf type c 0 price quantity .none], e.reserved = 0 := by
    intro fills type price quantity e he
    rcases List.mem_append.mp he with he | he
    · exact htrades fills e he
    · rw [List.mem_singleton.mp he]
      rfl
  rw [execute]
  split_ifs
  · exact htrades _
  · exact hlast _ _ _ _
  · exact hlast _ _ _ _

theorem perform_reserved {m : Market} {c : Command} {depth : Depth} {events : List Event}
    (h : m.perform c = .ok (depth, events)) : ∀ e ∈ events, e.reserved = 0 := by
  rw [perform] at h
  cases htype : c.type with
  | new =>
    rw [htype] at h
    simp only [submit] at h
    split_ifs at h
    cases h
    exact List.forall_mem_cons.mpr ⟨rfl, m.execute_reserved c⟩
  | cancel =>
    rw [htype] at h
    simp only [cancel] at h
    cases hfind : m.find c.orderId with
    | none => simp [hfind] at h
    | some o =>
      rw [hfind] at h
      cases h
      exact List.forall_mem_singleton.mpr rfl
  | replace =>
    rw [htype] at h
    simp only [replace] at h
    cases hfind : m.find c.orderId with
    | none => simp [hfind] at h
    | some o =>
      simp only [hfind] at h
      split_ifs at h
      cases h
      exact List.forall_mem_cons.mpr ⟨rfl, execute_reserved _ _⟩

theorem process_reserved (m : Market) (c : Command) : ∀ e ∈ (m.process c).2, e.reserved = 0 := by
  rw [process]
  split_ifs
  · exact List.forall_mem_singleton.mpr rfl
  · cases h : m.perform c with
    | error reason => exact List.forall_mem_singleton.mpr rfl
    | ok result => exact perform_reserved h

end Market

/-- The events of the program: those that `process` appends, and those of the gateway. -/
def Emitted (event : Event) : Prop :=
  (∃ b b' command events events', Reachable b ∧
    b.process command events = .ok (b', events ++ events') ∧ event ∈ events') ∨
  ∃ request reason, event = gatewayRejection request reason

theorem Emitted.reserved {event : Event} (h : Emitted event) : event.reserved = 0 := by
  obtain ⟨b, b', command, events, events', hb, hp, he⟩ | ⟨request, reason, rfl⟩ := h
  · obtain ⟨q, hinv⟩ := hb.inv
    obtain ⟨b₁, q₁, hp₁, -⟩ := hinv.process command events
    have hevents := List.append_cancel_left (Prod.mk.inj (Except.ok.inj (hp.symm.trans hp₁))).2
    exact Market.process_reserved _ _ event (hevents ▸ he)
  · rfl

namespace Protocol

open Layout (Consecutive image slice blank)

variable {input : List UInt8}

/-! ## Responses on the wire -/

theorem eventTypeOf_coded : Coded EventType.code eventTypeOf 5 :=
  ⟨fun type => by cases type <;> rfl, by decide +kernel⟩

theorem rejectReasonOf_coded : Coded RejectReason.code rejectReasonOf 10 :=
  ⟨fun reason => by cases reason <;> rfl, by decide +kernel⟩

/-- **An execution event of the documented layout** at the front of an input. -/
structure ResponseFrame (input : List UInt8) : Prop extends Header 128 68 input where
  eventType : word input 24 1 ≤ 5
  side : word input 25 1 ≤ 1
  reason : word input 26 1 ≤ 10

/-- The bytes that are written as zero and not looked at. -/
def responseReserved (i : ℕ) : Bool := i ∈ [12, 13, 14, 15, 27]

/-- What the words after the header say; `none` if a field is invalid. -/
def eventAt (input : List UInt8) : Option Event :=
  match eventTypeOf (UInt8.ofNat (word input 24 1)), sideOf (UInt8.ofNat (word input 25 1)),
    rejectReasonOf (UInt8.ofNat (word input 26 1)) with
  | some type, some aggressorSide, some reason => some {
      type, aggressorSide, reason
      orderId := UInt64.ofNat (word input 28 8)
      contraOrderId := UInt64.ofNat (word input 36 8)
      price := (UInt64.ofNat (word input 44 8)).toInt64
      quantity := UInt64.ofNat (word input 52 8)
      sequence := UInt64.ofNat (word input 60 8) }
  | _, _, _ => none

theorem decodeEvent_eq (h : responseFrameSize ≤ input.length) :
    decodeEvent input = .ok (eventAt input) := by
  have hread : ∀ offset size, offset + size ≤ 68 →
      getWord input offset size = .ok (word input offset size) :=
    fun _ _ hle => getWord_ok (hle.trans h)
  simp only [decodeEvent, eventAt, getU8, getU64, headerSize, hread 24 1 (by decide),
    hread (24 + 1) 1 (by decide), hread (24 + 2) 1 (by decide), hread (24 + 4) 8 (by decide),
    hread (24 + 12) 8 (by decide), hread (24 + 20) 8 (by decide), hread (24 + 28) 8 (by decide),
    hread (24 + 36) 8 (by decide), bind, Except.bind, Functor.map, Except.map, Nat.reduceAdd]
  cases eventTypeOf (UInt8.ofNat (word input 24 1)) with
  | none => rfl
  | some type =>
    cases sideOf (UInt8.ofNat (word input 25 1)) with
    | none => rfl
    | some aggressorSide =>
      cases rejectReasonOf (UInt8.ofNat (word input 26 1)) with
      | none => rfl
      | some reason => rfl

theorem eventAt_isSome_iff : (∃ event, eventAt input = some event) ↔
    word input 24 1 ≤ 5 ∧ word input 25 1 ≤ 1 ∧ word input 26 1 ≤ 10 := by
  have htype := eventTypeOf_coded.isSome_iff (UInt8.ofNat (word input 24 1))
  have hside := sideOf_coded.isSome_iff (UInt8.ofNat (word input 25 1))
  have hreason := rejectReasonOf_coded.isSome_iff (UInt8.ofNat (word input 26 1))
  rw [toNat_word8] at htype hside hreason
  rw [← htype, ← hside, ← hreason, eventAt]
  cases eventTypeOf (UInt8.ofNat (word input 24 1)) with
  | none => simp
  | some type =>
    cases sideOf (UInt8.ofNat (word input 25 1)) with
    | none => simp
    | some aggressorSide =>
      cases rejectReasonOf (UInt8.ofNat (word input 26 1)) with
      | none => simp
      | some reason => simp

theorem eventAt_agrees {event : Event} (hlen : 68 ≤ input.length) (h : eventAt input = some event) :
    ∀ field ∈ eventFields event, Agrees responseReserved input field := by
  rw [eventAt] at h
  cases htype : eventTypeOf (UInt8.ofNat (word input 24 1)) with
  | none => simp [htype] at h
  | some type =>
    cases hside : sideOf (UInt8.ofNat (word input 25 1)) with
    | none => simp [htype, hside] at h
    | some aggressorSide =>
      cases hreason : rejectReasonOf (UInt8.ofNat (word input 26 1)) with
      | none => simp [htype, hside, hreason] at h
      | some reason =>
        simp only [htype, hside, hreason, Option.some.injEq] at h
        subst h
        have htypeCode := congrArg UInt8.toNat (eventTypeOf_coded.code_eq htype)
        have hsideCode := congrArg UInt8.toNat (sideOf_coded.code_eq hside)
        have hreasonCode := congrArg UInt8.toNat (rejectReasonOf_coded.code_eq hreason)
        rw [toNat_word8] at htypeCode hsideCode hreasonCode
        have hreserved : Agrees responseReserved input (27, Endian.store 1 0) :=
          .reserved (by omega) (by decide)
        simp only [eventFields, List.forall_mem_cons]
        exact ⟨.byte htypeCode.symm (by omega) (by decide),
          .byte hsideCode.symm (by omega) (by decide), .byte hreasonCode.symm (by omega) (by decide),
          hreserved, .word (toNat_word64 input 28).symm (by omega) (by decide),
          .word (toNat_word64 input 36).symm (by omega) (by decide),
          .word (toNat_wordPrice input 44).symm (by omega) (by decide),
          .word (toNat_word64 input 52).symm (by omega) (by decide),
          .word (toNat_word64 input 60).symm (by omega) (by decide), by simp⟩

/-! ## The decoder and the layout -/

theorem Header.responseFrame {event : Event} (h : Header 128 68 input)
    (hat : eventAt input = some event) : ResponseFrame input := by
  obtain ⟨htype, hside, hreason⟩ := eventAt_isSome_iff.mp ⟨event, hat⟩
  exact ⟨h, htype, hside, hreason⟩

theorem decodeResponse_of_frame (h : ResponseFrame input) :
    ∃ event, eventAt input = some event ∧ decodeResponse input = .ok {
      status := .ok
      bytesConsumed := 68
      response := ⟨(headerAt input).session, (headerAt input).sequence, event⟩ } := by
  obtain ⟨htype, hlength, hsession, hsequence⟩ := h.at_eq
  obtain ⟨event, hat⟩ := eventAt_isSome_iff.mpr ⟨h.eventType, h.side, h.reason⟩
  refine ⟨event, hat, ?_⟩
  simp [decodeResponse, h.validate (by decide) (by decide), bind, Except.bind, htype, hlength,
    MessageType.code, responseFrameSize, hsession, hsequence, decodeEvent_eq h.present, hat,
    eventResult]

theorem decodeResponse_cases (input : List UInt8) :
    (∃ r, decodeResponse input = .ok r ∧ r.status ≠ .ok ∧ r.bytesConsumed = 0) ∨
      ResponseFrame input := by
  obtain ⟨status, header, hv⟩ := validateHeader_isOk input
  simp only [decodeResponse, hv, bind, Except.bind]
  by_cases hstatus : status = .ok
  · subst hstatus
    by_cases htype : header.type = MessageType.executionEvent.code
    · by_cases hbad : header.length ≠ responseFrameSize ∨ header.session = 0 ∨ header.sequence = 0
      · exact Or.inl ⟨{ status := .invalidField }, by simp [htype, hbad], by simp, rfl⟩
      · have hgood := hbad
        simp only [not_or, not_not] at hgood
        obtain ⟨hlength, hsession, hsequence⟩ := hgood
        obtain ⟨hheader, -⟩ := header_of_validate hv hsession hsequence
        rw [htype, hlength] at hheader
        cases hat : eventAt input with
        | none =>
          refine Or.inl ⟨{ status := .invalidField }, ?_, by simp, rfl⟩
          simp [htype, hlength, hsession, hsequence, decodeEvent_eq hheader.present, hat, eventResult]
        | some event => exact Or.inr (hheader.responseFrame hat)
    · exact Or.inl ⟨{ status := .unknownMessageType }, by simp [htype], by simp, rfl⟩
  · exact Or.inl ⟨{ status }, by simp [hstatus], hstatus, rfl⟩

/-! ## Encoding and decoding -/

theorem responseFrame_eq_image (response : Response) : responseFrame response =
    image (headerFields .executionEvent responseFrameSize response.sessionId
      response.clientSequence ++ eventFields response.event) := by
  rw [responseFrame, Layout.image_append, image_headerFields]

theorem eventAt_of_fields {event : Event} {fields : List (ℕ × List UInt8)}
    (hcons : Consecutive 0 fields) (hmem : ∀ field ∈ eventFields event, field ∈ fields)
    (suffix : List UInt8) :
    eventAt (image fields ++ suffix) = some { event with reserved := 0 } := by
  have hbyte : ∀ offset byte, (offset, [byte]) ∈ eventFields event →
      word (image fields ++ suffix) offset 1 = byte.toNat :=
    fun _ _ h => word_byte hcons (hmem _ h) suffix
  have hword : ∀ offset (value : UInt64),
      (offset, Endian.store 8 value.toNat) ∈ eventFields event →
      word (image fields ++ suffix) offset 8 = value.toNat :=
    fun _ value h => word_store hcons (hmem _ h) value.toNat_lt suffix
  rw [eventAt, hbyte 24 event.type.code (by simp [eventFields]),
    hbyte 25 event.aggressorSide.code (by simp [eventFields]),
    hbyte 26 event.reason.code (by simp [eventFields]),
    hword 28 event.orderId (by simp [eventFields]),
    hword 36 event.contraOrderId (by simp [eventFields]),
    hword 44 event.price.toUInt64 (by simp [eventFields]),
    hword 52 event.quantity (by simp [eventFields]),
    hword 60 event.sequence (by simp [eventFields])]
  simp [eventTypeOf_coded.parse_code, sideOf_coded.parse_code, rejectReasonOf_coded.parse_code]

/-- **An encoded response begins with a frame**, and its words are those of the response. -/
theorem responseFrame_spec {response : Response} (hsession : response.sessionId ≠ 0)
    (hsequence : response.clientSequence ≠ 0) (suffix : List UInt8) :
    ResponseFrame (responseFrame response ++ suffix) ∧
    eventAt (responseFrame response ++ suffix) = some { response.event with reserved := 0 } ∧
    (headerAt (responseFrame response ++ suffix)).session = response.sessionId ∧
    (headerAt (responseFrame response ++ suffix)).sequence = response.clientSequence := by
  obtain ⟨hcons, hheader, h8, h16⟩ := header_of_fields .executionEvent
    (eventFields_consecutive response.event) (length_eventFields response.event) (by decide)
    hsession hsequence suffix
  have hat := eventAt_of_fields hcons (fun _ => List.mem_append_right _) suffix
  rw [← responseFrame_eq_image] at hheader h8 h16 hat
  refine ⟨hheader.responseFrame hat, hat, ?_, ?_⟩
  · rw [headerAt, h8, UInt32.ofNat_toNat]
  · rw [headerAt, h16, UInt64.ofNat_toNat]

/-- **A response that was decoded is encoded again** as it was, up to the reserved bytes. -/
theorem ResponseFrame.encodeResponse {event : Event} (h : ResponseFrame input)
    (hat : eventAt input = some event) :
    responseFrame ⟨(headerAt input).session, (headerAt input).sequence, event⟩ =
      blank responseReserved 0 (input.take 68) := by
  have hheader : Header MessageType.executionEvent.code responseFrameSize input := h.toHeader
  have hagrees : ∀ field ∈ headerFields .executionEvent responseFrameSize (headerAt input).session
      (headerAt input).sequence ++ eventFields event, Agrees responseReserved input field := by
    intro field hfield
    rcases List.mem_append.mp hfield with hfield | hfield
    · exact hheader.agrees (by decide) (by decide) field hfield
    · exact eventAt_agrees h.present hat field hfield
  have hlen := length_responseFrame ⟨(headerAt input).session, (headerAt input).sequence, event⟩
  rw [responseFrame_eq_image] at hlen ⊢
  have himage := image_eq_of_agrees (headerFields_append_consecutive _ _ _ _
    (eventFields_consecutive event)) (hlen.trans_le h.present) hagrees
  rw [hlen] at himage
  exact himage

/-- **Responses on the wire.** A response with a session and a client sequence is encoded into 68 bytes
that decode to it, with the reserved byte of its event at zero, whatever comes after them; so an event of
the program arrives as it was. Of a part of these bytes the decoder asks for more. Every input is decoded
or refused without a read outside it, and what is decoded is encoded again as it was, with the reserved
bytes cleared. -/
theorem response_codec :
    (∀ (response : Response) (destination : List UInt8), response.sessionId ≠ 0 →
      response.clientSequence ≠ 0 → 68 ≤ destination.length → ∃ frame, frame.length = 68 ∧
        encodeResponseInto response destination = .ok (true, frame ++ destination.drop 68, 68) ∧
        (∀ suffix, decodeResponse (frame ++ suffix) = .ok {
          status := .ok
          bytesConsumed := 68
          response := { response with event := { response.event with reserved := 0 } } }) ∧
        (∀ k < 68, decodeResponse (frame.take k) = .ok { status := .needMoreData }) ∧
        (Emitted response.event → ∀ suffix,
          decodeResponse (frame ++ suffix) = .ok ⟨.ok, 68, response⟩)) ∧
    ∀ input, ∃ r, decodeResponse input = .ok r ∧ (r.status = .ok → r.bytesConsumed = 68 ∧
      ∀ destination, 68 ≤ destination.length → encodeResponseInto r.response destination =
        .ok (true, blank responseReserved 0 (input.take 68) ++ destination.drop 68, 68)) := by
  refine ⟨fun response destination hsession hsequence hroom => ?_, fun input => ?_⟩
  · have hlen := length_responseFrame response
    have hdecode : ∀ suffix, decodeResponse (responseFrame response ++ suffix) =
        .ok ⟨.ok, 68, { response with event := { response.event with reserved := 0 } }⟩ := by
      intro suffix
      obtain ⟨hframe, hat, h8, h16⟩ := responseFrame_spec hsession hsequence suffix
      obtain ⟨event, hevent, hdecode⟩ := decodeResponse_of_frame hframe
      rw [hat, Option.some.injEq] at hevent
      rw [hdecode, h8, h16, ← hevent]
    refine ⟨responseFrame response, hlen, ?_, hdecode, fun k hk => ?_, fun hemitted suffix => ?_⟩
    · rw [encodeResponseInto_eq, encodeResponse_frame hroom hsession hsequence]
      dsimp only
      rw [hlen]
      rfl
    · obtain ⟨hframe, -⟩ := responseFrame_spec hsession hsequence []
      rw [List.append_nil] at hframe
      obtain ⟨header, hv⟩ := hframe.validate_take (by decide) (by decide) hk
      simp [decodeResponse, hv, bind, Except.bind]
    · rw [hdecode, ← hemitted.reserved]
  · rcases decodeResponse_cases input with ⟨r, hr, hbad, -⟩ | hframe
    · exact ⟨r, hr, fun hok => absurd hok hbad⟩
    · obtain ⟨event, hat, hdecode⟩ := decodeResponse_of_frame hframe
      refine ⟨_, hdecode, fun _ => ⟨rfl, fun destination hroom => ?_⟩⟩
      dsimp only
      rw [encodeResponseInto_eq, encodeResponse_frame hroom hframe.at_eq.2.2.1 hframe.at_eq.2.2.2,
        hframe.encodeResponse hat]
      simp [hframe.present]

/-- A rejection of the gateway. -/
theorem response_codec_rejection : ∃ frame,
    encodeResponseInto ⟨7, 3, gatewayRejection ⟨7, 3, { orderId := 9, price := -2 }⟩ .riskLimit⟩
      (List.replicate 70 5) = .ok (true, frame ++ [5, 5], 68) ∧
    decodeResponse (frame ++ [1]) =
      .ok ⟨.ok, 68, ⟨7, 3, gatewayRejection ⟨7, 3, { orderId := 9, price := -2 }⟩ .riskLimit⟩⟩ ∧
    decodeResponse (frame.take 67) = .ok { status := .needMoreData } := by
  obtain ⟨frame, -, hencode, -, hshort, hdecode⟩ := response_codec.1
    ⟨7, 3, gatewayRejection ⟨7, 3, { orderId := 9, price := -2 }⟩ .riskLimit⟩ (List.replicate 70 5)
    (by decide) (by decide) (by decide)
  exact ⟨frame, hencode, hdecode (Or.inr ⟨_, _, rfl⟩) [1], hshort 67 (by decide)⟩

end Protocol

end Dme
