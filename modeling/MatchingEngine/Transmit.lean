import MatchingEngine.Encoding
import MatchingEngine.TcpGateway

/-!
# The transmit buffer

`queue_response` and `flush_output` of `gateway.cpp`, with the array of the connection and the indices
into it. An unsigned difference below zero, and an access outside the array, are faults.

* `TransmitBuffer`, `queueResponse`, `flushOutput`; `Valid`: the indices are in order and in the array.
* `on`: the connection that a buffer belongs to, as the gateway sees it. **`queueResponse_refines`**,
  **`flushOutput_refines`**: the two functions do to the array what those of `Connection` say.
* `queueResponse_spec`: when a response is queued.
* `Transmits`: what `send` has taken and what has been queued, after any calls.
* **`transmit_stream_integrity`**.
-/

set_option autoImplicit false

namespace Dme

open Protocol (Response responseFrame responseFrameSize)
open Layout (slice)

/-! ## The functions of the source -/

/-- The array of a connection for output, and the part of it that is still to be sent. -/
structure TransmitBuffer where
  transmit : List UInt8
  transmitBegin : ℕ := 0
  transmitEnd : ℕ := 0
deriving DecidableEq, Repr

/-- A difference of unsigned numbers. -/
def difference (a b : ℕ) : Except Fault ℕ := if b ≤ a then .ok (a - b) else .error .underflow

namespace TransmitBuffer

/-- What is left is moved to the front of the array. -/
def compact (t : TransmitBuffer) : Except Fault TransmitBuffer := do
  let remaining ← difference t.transmitEnd t.transmitBegin
  if t.transmitBegin + remaining ≤ t.transmit.length then
    .ok {
      transmit := Layout.write t.transmit 0 (slice t.transmit t.transmitBegin remaining)
      transmitBegin := 0
      transmitEnd := remaining }
  else .error .outOfRange

/-- The first part of `queue_response`. -/
def makeRoom (t : TransmitBuffer) : Except Fault TransmitBuffer := do
  let room ← difference transmitCapacity t.transmitEnd
  if t.transmitBegin ≠ 0 ∧ room < responseFrameSize then t.compact else .ok t

/-- `queue_response`: the frame is encoded behind what is still to be sent. -/
def queueResponse (t : TransmitBuffer) (response : Response) : Except Fault (Bool × TransmitBuffer) := do
  let t ← t.makeRoom
  let available ← difference transmitCapacity t.transmitEnd
  let (encoded, destination, written) ←
    Protocol.encodeResponseInto response (slice t.transmit t.transmitEnd available)
  .ok (encoded, { t with
    transmit := Layout.write t.transmit t.transmitEnd destination
    transmitEnd := t.transmitEnd + written })

/-- The loop of `flush_output`, with the value it would return; `accepted` are the bytes that `send` has
taken. -/
def flushLoop : TransmitBuffer → List UInt8 → List SendResult →
    Except Fault (Bool × TransmitBuffer × List UInt8)
  | t, accepted, [] => .ok (true, t, accepted)
  | t, accepted, result :: results =>
    if t.transmitBegin = t.transmitEnd then .ok (true, t, accepted)
    else do
      let requested ← difference t.transmitEnd t.transmitBegin
      match result with
      | .sent 0 => .ok (false, t, accepted)
      | .sent count =>
        flushLoop { t with transmitBegin := t.transmitBegin + count }
          (accepted ++ (slice t.transmit t.transmitBegin requested).take count) results
      | .interrupted => flushLoop t accepted results
      | .failed => .ok (false, t, accepted)

/-- `flush_output`; a buffer that has been sent whole starts again at its front. -/
def flushOutput (t : TransmitBuffer) (results : List SendResult) :
    Except Fault (Bool × TransmitBuffer × List UInt8) := do
  let (sent, t, accepted) ← t.flushLoop [] results
  if sent then
    .ok (true, if t.transmitBegin = t.transmitEnd then { t with transmitBegin := 0, transmitEnd := 0 }
      else t, accepted)
  else .ok (false, t, accepted)

/-! ## What is still to be sent -/

/-- The bytes from `transmit_begin` to `transmit_end`. -/
def unsent (t : TransmitBuffer) : List UInt8 :=
  slice t.transmit t.transmitBegin (t.transmitEnd - t.transmitBegin)

/-- The indices are in order and in the array. -/
structure Valid (t : TransmitBuffer) : Prop where
  size : t.transmit.length = transmitCapacity
  ordered : t.transmitBegin ≤ t.transmitEnd
  bounded : t.transmitEnd ≤ transmitCapacity

/-- The connection of a buffer. -/
def on (t : TransmitBuffer) (c : Connection) : Connection :=
  { c with transmitBegin := t.transmitBegin, transmit := t.unsent }

variable {t : TransmitBuffer}

theorem Valid.length_unsent (h : t.Valid) : t.unsent.length = t.transmitEnd - t.transmitBegin := by
  have hordered := h.ordered
  have hbounded := h.bounded
  rw [unsent, Layout.length_slice]
  rw [h.size]
  omega

theorem Valid.unsent_eq_nil_iff (h : t.Valid) : t.unsent = [] ↔ t.transmitBegin = t.transmitEnd := by
  have hordered := h.ordered
  rw [← List.length_eq_zero_iff, h.length_unsent]
  omega

theorem Valid.on_end (h : t.Valid) (c : Connection) : (t.on c).transmitEnd = t.transmitEnd := by
  have hordered := h.ordered
  change t.transmitBegin + t.unsent.length = t.transmitEnd
  rw [h.length_unsent]
  omega

theorem Valid.compact (h : t.Valid) : ∃ t', t.compact = .ok t' ∧ t'.Valid ∧ t'.transmitBegin = 0 ∧
    t'.unsent = t.unsent := by
  have hordered := h.ordered
  have hbounded := h.bounded
  have hlen := h.length_unsent
  have hfit : t.transmitBegin + (t.transmitEnd - t.transmitBegin) ≤ t.transmit.length := by
    rw [h.size]
    omega
  have hwrite : Layout.write t.transmit 0 t.unsent =
      t.unsent ++ t.transmit.drop (t.transmitEnd - t.transmitBegin) := by
    rw [Layout.write, List.take_zero, List.nil_append, Nat.zero_add, hlen]
  refine ⟨⟨Layout.write t.transmit 0 t.unsent, 0, t.transmitEnd - t.transmitBegin⟩, ?_, ⟨?_, ?_, ?_⟩,
    rfl, ?_⟩
  · simp only [TransmitBuffer.compact, difference, hordered, if_true, hfit, bind, Except.bind]
    rfl
  · dsimp only
    rw [hwrite, List.length_append, hlen, List.length_drop, h.size]
    omega
  · exact Nat.zero_le _
  · dsimp only
    omega
  · conv_lhs => rw [unsent]
    dsimp only
    rw [hwrite, slice, List.drop_zero, Nat.sub_zero, List.take_left' hlen]

theorem unsent_write {l frame rest : List UInt8} {first last : ℕ} (hle : first ≤ last)
    (hlast : last ≤ l.length) :
    slice (Layout.write l last (frame ++ rest)) first (last + frame.length - first) =
      slice l first (last - first) ++ frame := by
  have htake : (l.take last).length = last := by
    rw [List.length_take]
    omega
  have hsize : last + frame.length - first = (last - first) + frame.length := by omega
  have hread : (l.take last).drop first = slice l first (last - first) := by rw [slice, List.drop_take]
  have hsum : (slice l first (last - first) ++ frame).length = last + frame.length - first := by
    rw [List.length_append, Layout.length_slice (by omega)]
    omega
  rw [Layout.write, List.append_assoc, List.append_assoc]
  conv_lhs => rw [slice]
  rw [List.drop_append_of_le_length (by omega), hread, ← List.append_assoc, List.take_left' hsum]

/-! ## The connection of the gateway -/

theorem Valid.makeRoom (h : t.Valid) (c : Connection) : ∃ t', t.makeRoom = .ok t' ∧ t'.Valid ∧
    (if t.transmitBegin ≠ 0 ∧ transmitCapacity - t.transmitEnd < responseFrameSize then
      { t.on c with transmitBegin := 0 } else t.on c) = t'.on c := by
  rw [TransmitBuffer.makeRoom, difference, if_pos h.bounded]
  by_cases hroom : t.transmitBegin ≠ 0 ∧ transmitCapacity - t.transmitEnd < responseFrameSize
  · obtain ⟨t', hcompact, hvalid, hbegin, hunsent⟩ := h.compact
    refine ⟨t', (if_pos hroom).trans hcompact, hvalid, ?_⟩
    rw [if_pos hroom]
    simp only [on, hbegin, hunsent]
  · exact ⟨t, if_neg hroom, h, if_neg hroom⟩

theorem Valid.encode (h : t.Valid) (c : Connection) (response : Response) : ∃ queued t',
    (do
      let (encoded, destination, written) ← Protocol.encodeResponseInto response
        (slice t.transmit t.transmitEnd (transmitCapacity - t.transmitEnd))
      .ok (encoded, { t with
        transmit := Layout.write t.transmit t.transmitEnd destination
        transmitEnd := t.transmitEnd + written })) = (.ok (queued, t') : Except Fault _) ∧ t'.Valid ∧
    (match Protocol.encodeResponse response (transmitCapacity - t.transmitEnd) with
      | none => (false, t.on c)
      | some frame => (true, { t.on c with transmit := (t.on c).transmit ++ frame })) =
      (queued, t'.on c) := by
  have hordered := h.ordered
  have hbounded := h.bounded
  have hfit : t.transmitEnd + (transmitCapacity - t.transmitEnd) ≤ t.transmit.length := by
    rw [h.size]
    omega
  have hlen := Layout.length_slice hfit
  rw [Protocol.encodeResponseInto_eq, hlen]
  cases hframe : Protocol.encodeResponse response (transmitCapacity - t.transmitEnd) with
  | none =>
    refine ⟨false, t, ?_, h, rfl⟩
    simp only [bind, Except.bind, Layout.write_slice hfit, Nat.add_zero]
  | some frame =>
    obtain ⟨hroom, -, -, rfl⟩ := Protocol.encodeResponse_eq_some_iff.mp hframe
    have hsize := Protocol.length_responseFrame response
    have hdestination : (responseFrame response ++
        (slice t.transmit t.transmitEnd (transmitCapacity - t.transmitEnd)).drop
          (responseFrame response).length).length = transmitCapacity - t.transmitEnd := by
      rw [List.length_append, List.length_drop, hlen]
      omega
    refine ⟨true, _, rfl, ⟨?_, ?_, ?_⟩, ?_⟩
    · dsimp only
      rw [Layout.length_write (by rw [hdestination]; exact hfit), h.size]
    · dsimp only
      omega
    · dsimp only
      omega
    · simp only [on, unsent]
      rw [unsent_write hordered (by omega)]

/-- **Queueing a response** does to the array what it does to the connection. -/
theorem Valid.queueResponse_refines (h : t.Valid) (c : Connection) (response : Response) :
    ∃ queued t', t.queueResponse response = .ok (queued, t') ∧ t'.Valid ∧
      (t.on c).queueResponse response = (queued, t'.on c) := by
  obtain ⟨t₁, hroom, hvalid₁, hon⟩ := h.makeRoom c
  obtain ⟨queued, t', hencode, hvalid, hqueue⟩ := hvalid₁.encode c response
  refine ⟨queued, t', bind_eq_ok.mpr ⟨t₁, hroom,
    bind_eq_ok.mpr ⟨_, if_pos hvalid₁.bounded, hencode⟩⟩, hvalid, ?_⟩
  have hbegin : (t.on c).transmitBegin = t.transmitBegin := rfl
  rw [Connection.queueResponse]
  simp only [h.on_end c, hbegin, hon, hvalid₁.on_end c]
  exact hqueue

theorem Valid.advance (h : t.Valid) {count : ℕ} (hle : count ≤ t.transmitEnd - t.transmitBegin) :
    Valid { t with transmitBegin := t.transmitBegin + count } := by
  have hordered := h.ordered
  exact ⟨h.size, by dsimp only; omega, h.bounded⟩

theorem unsent_advance (t : TransmitBuffer) (count : ℕ) :
    unsent { t with transmitBegin := t.transmitBegin + count } = t.unsent.drop count := by
  rw [unsent, unsent, slice, slice, List.drop_take, List.drop_drop, Nat.sub_sub]

/-- No call of `send` takes more than it is offered, if `n` bytes are to be sent. -/
def Offered : ℕ → List SendResult → Prop
  | _, [] => True
  | n, result :: results => n = 0 ∨
    match result with
    | .sent count => count ≤ n ∧ Offered (n - count) results
    | _ => Offered n results

/-- The loop of `flush_output` does to the array what it does to the connection, and what `send` takes
is the front of what was to be sent. -/
theorem Valid.flushLoop_refines (h : t.Valid) (c : Connection) (accepted : List UInt8)
    {results : List SendResult} (hresults : Offered t.unsent.length results) : ∃ sent t' out,
      t.flushLoop accepted results = .ok (sent, t', accepted ++ out) ∧ t'.Valid ∧
      (t.on c).flushLoop results = (sent, t'.on c) ∧ t.unsent = out ++ t'.unsent := by
  induction results generalizing t accepted with
  | nil => exact ⟨true, t, [], by rw [flushLoop, List.append_nil], h, rfl, rfl⟩
  | cons result results ih =>
    have hlen := h.length_unsent
    have hempty : (t.on c).transmit = [] ↔ t.transmitBegin = t.transmitEnd := h.unsent_eq_nil_iff
    rw [flushLoop, Connection.flushLoop.eq_def]
    dsimp only
    by_cases hdone : t.transmitBegin = t.transmitEnd
    · rw [if_pos hdone, if_pos (hempty.mpr hdone)]
      exact ⟨true, t, [], by rw [List.append_nil], h, rfl, rfl⟩
    rw [if_neg hdone, if_neg (fun hnil => hdone (hempty.mp hnil)), difference, if_pos h.ordered]
    have hrest := hresults.resolve_left (by
      have hordered := h.ordered
      omega)
    cases result with
    | sent count =>
      cases count with
      | zero => exact ⟨false, t, [], by rw [List.append_nil]; rfl, h, rfl, rfl⟩
      | succ count =>
        obtain ⟨hle, hrest⟩ := hrest
        have hnext := h.advance (hlen ▸ hle)
        have hunsent := t.unsent_advance (count + 1)
        rw [← List.length_drop, ← hunsent] at hrest
        obtain ⟨sent, t', out, hloop, hvalid, hconnection, hout⟩ :=
          ih hnext (accepted ++ t.unsent.take (count + 1)) hrest
        refine ⟨sent, t', t.unsent.take (count + 1) ++ out, ?_, hvalid, ?_, ?_⟩
        · rw [← List.append_assoc]
          exact hloop
        · rw [on, hunsent] at hconnection
          exact hconnection
        · rw [List.append_assoc, ← hout, hunsent, List.take_append_drop]
    | interrupted => exact ih h accepted hrest
    | failed => exact ⟨false, t, [], by rw [List.append_nil]; rfl, h, rfl, rfl⟩

/-- **Flushing** does to the array what it does to the connection, and what `send` takes is the front of
what was to be sent. -/
theorem Valid.flushOutput_refines (h : t.Valid) (c : Connection) {results : List SendResult}
    (hresults : Offered t.unsent.length results) : ∃ kept t' out,
      t.flushOutput results = .ok (kept, t', out) ∧ t'.Valid ∧
      (t.on c).flushOutput results = (kept, t'.on c) ∧ t.unsent = out ++ t'.unsent := by
  obtain ⟨sent, t₁, out, hloop, hvalid, hconnection, hout⟩ := h.flushLoop_refines c [] hresults
  have hempty : (t₁.on c).transmit = [] ↔ t₁.transmitBegin = t₁.transmitEnd :=
    hvalid.unsent_eq_nil_iff
  rw [flushOutput, Connection.flushOutput, hloop, hconnection]
  simp only [bind, Except.bind, List.nil_append, hempty]
  cases sent with
  | false => exact ⟨false, t₁, out, rfl, hvalid, rfl, hout⟩
  | true =>
    by_cases hdone : t₁.transmitBegin = t₁.transmitEnd
    · have hnil := hvalid.unsent_eq_nil_iff.mpr hdone
      have hreset : unsent { t₁ with transmitBegin := 0, transmitEnd := 0 } = [] := rfl
      refine ⟨true, _, out, rfl, ?_, ?_, ?_⟩
      · rw [if_pos hdone]
        exact ⟨hvalid.size, Nat.le_refl 0, Nat.zero_le _⟩
      · simp only [hdone, if_true, on, hnil, hreset]
      · rw [if_pos hdone, hreset, hout, hnil]
    · simp only [hdone, if_false]
      exact ⟨true, t₁, out, rfl, hvalid, rfl, hout⟩

end TransmitBuffer

/-! ## The stream -/

/-- **When a response is queued.** -/
theorem Connection.queueResponse_spec (c : Connection) (response : Response) :
    ((c.queueResponse response).1 = true ∧ response.sessionId ≠ 0 ∧ response.clientSequence ≠ 0 ∧
      c.transmit.length + responseFrameSize ≤ transmitCapacity ∧
      (c.queueResponse response).2.transmit = c.transmit ++ responseFrame response) ∨
    ((c.queueResponse response).1 = false ∧ (response.sessionId = 0 ∨ response.clientSequence = 0 ∨
      transmitCapacity < c.transmit.length + responseFrameSize) ∧
      (c.queueResponse response).2.transmit = c.transmit) := by
  obtain ⟨c₁, hc₁⟩ : ∃ c₁, c₁ = if c.transmitBegin ≠ 0 ∧
    transmitCapacity - c.transmitEnd < responseFrameSize then { c with transmitBegin := 0 } else c :=
    ⟨_, rfl⟩
  have htransmit : c₁.transmit = c.transmit := by
    rw [hc₁]
    split_ifs <;> rfl
  -- the room behind the unsent bytes is short only if all of the array is too small
  have hroom : responseFrameSize ≤ transmitCapacity - c₁.transmitEnd ↔
      c.transmit.length + responseFrameSize ≤ transmitCapacity := by
    rw [hc₁]
    have hpos : 0 < responseFrameSize := by decide
    by_cases hcompact : c.transmitBegin ≠ 0 ∧ transmitCapacity - c.transmitEnd < responseFrameSize
    · rw [if_pos hcompact]
      simp only [Connection.transmitEnd]
      omega
    · rw [if_neg hcompact]
      simp only [Connection.transmitEnd] at hcompact ⊢
      omega
  rw [Connection.queueResponse]
  simp only [← hc₁]
  cases hframe : Protocol.encodeResponse response (transmitCapacity - c₁.transmitEnd) with
  | none =>
    refine Or.inr ⟨rfl, ?_, htransmit⟩
    by_contra hgood
    simp only [not_or, Nat.not_lt] at hgood
    obtain ⟨hsession, hsequence, hfits⟩ := hgood
    rw [Protocol.encodeResponse_frame (hroom.mpr hfits) hsession hsequence] at hframe
    cases hframe
  | some frame =>
    obtain ⟨hfits, hsession, hsequence, rfl⟩ := Protocol.encodeResponse_eq_some_iff.mp hframe
    refine Or.inl ⟨rfl, hsession, hsequence, hroom.mp hfits, ?_⟩
    rw [← htransmit]

/-- The state of a connection's output: its buffer, the bytes that `send` has taken so far, and the
responses that have been queued. -/
inductive Transmits : TransmitBuffer → List UInt8 → List Response → Prop
  | start {transmit : List UInt8} (hsize : transmit.length = transmitCapacity) :
    Transmits { transmit } [] []
  | queue {t t' : TransmitBuffer} {accepted : List UInt8} {queued : List Response}
    {response : Response} {result : Bool} (h : Transmits t accepted queued)
    (hqueue : t.queueResponse response = .ok (result, t')) :
    Transmits t' accepted (if result then queued ++ [response] else queued)
  | flush {t t' : TransmitBuffer} {accepted out : List UInt8} {queued : List Response}
    {results : List SendResult} {kept : Bool} (h : Transmits t accepted queued)
    (hresults : TransmitBuffer.Offered t.unsent.length results)
    (hflush : t.flushOutput results = .ok (kept, t', out)) : Transmits t' (accepted ++ out) queued

theorem TransmitBuffer.Valid.queueResponse_spec {t : TransmitBuffer} (h : t.Valid)
    (response : Response) : ∃ result t', t.queueResponse response = .ok (result, t') ∧ t'.Valid ∧
      ((result = true ∧ response.sessionId ≠ 0 ∧ response.clientSequence ≠ 0 ∧
        t.unsent.length + responseFrameSize ≤ transmitCapacity ∧
        t'.unsent = t.unsent ++ responseFrame response) ∨
      (result = false ∧ (response.sessionId = 0 ∨ response.clientSequence = 0 ∨
        transmitCapacity < t.unsent.length + responseFrameSize) ∧ t'.unsent = t.unsent)) := by
  obtain ⟨result, t', hqueue, hvalid, hconnection⟩ :=
    h.queueResponse_refines { fd := 0, serial := 0 } response
  have hspec := (t.on { fd := 0, serial := 0 }).queueResponse_spec response
  rw [hconnection] at hspec
  exact ⟨result, t', hqueue, hvalid, hspec⟩

theorem Transmits.spec {t : TransmitBuffer} {accepted : List UInt8} {queued : List Response}
    (h : Transmits t accepted queued) : t.Valid ∧ accepted ++ t.unsent = queued.flatMap responseFrame ∧
      ∀ r ∈ queued, Protocol.encodeResponse r responseFrameSize = some (responseFrame r) := by
  induction h with
  | @start transmit hsize =>
    exact ⟨⟨hsize, Nat.le_refl 0, Nat.zero_le _⟩, rfl, by simp⟩
  | @queue t t' accepted queued response result h hqueue ih =>
    obtain ⟨hvalid, hstream, hall⟩ := ih
    obtain ⟨result', t₁, hqueue', hvalid', hspec⟩ := hvalid.queueResponse_spec response
    obtain ⟨rfl, rfl⟩ := Prod.mk.inj (Except.ok.inj (hqueue.symm.trans hqueue'))
    obtain ⟨rfl, hsession, hsequence, -, hunsent⟩ | ⟨rfl, -, hunsent⟩ := hspec
    · refine ⟨hvalid', ?_, ?_⟩
      · rw [hunsent, ← List.append_assoc, hstream, if_pos rfl, List.flatMap_append]
        simp
      · rw [if_pos rfl, List.forall_mem_append]
        exact ⟨hall, List.forall_mem_singleton.mpr
          (Protocol.encodeResponse_frame (Nat.le_refl _) hsession hsequence)⟩
    · exact ⟨hvalid', hunsent ▸ hstream, hall⟩
  | @flush t t' accepted out queued results kept h hresults hflush ih =>
    obtain ⟨hvalid, hstream, hall⟩ := ih
    obtain ⟨kept', t₁, out', hflush', hvalid', -, hout⟩ :=
      hvalid.flushOutput_refines { fd := 0, serial := 0 } hresults
    obtain ⟨rfl, heq⟩ := Prod.mk.inj (Except.ok.inj (hflush.symm.trans hflush'))
    obtain ⟨rfl, rfl⟩ := Prod.mk.inj heq
    refine ⟨hvalid', ?_, hall⟩
    rw [List.append_assoc, ← hout, hstream]

/-- **Nothing is lost, repeated or torn on the way out.** After any calls of `queue_response` and
`flush_output`, the indices are in order and in the array; the bytes that `send` has taken, and then
those still to be sent, are the frames of the responses that were queued, in order. Both functions
return; a response with a session and a client sequence is refused if and only if it does not fit
behind the unsent bytes, and then these are unchanged. -/
theorem transmit_stream_integrity {t : TransmitBuffer} {accepted : List UInt8}
    {queued : List Response} (h : Transmits t accepted queued) :
    t.transmitBegin ≤ t.transmitEnd ∧ t.transmitEnd ≤ 262144 ∧
    accepted ++ t.unsent = queued.flatMap responseFrame ∧
    (∀ r ∈ queued, Protocol.encodeResponse r 68 = some (responseFrame r)) ∧
    (∀ results, TransmitBuffer.Offered t.unsent.length results →
      ∃ kept t' out, t.flushOutput results = .ok (kept, t', out)) ∧
    ∀ response, ∃ result t', t.queueResponse response = .ok (result, t') ∧
      (response.sessionId ≠ 0 → response.clientSequence ≠ 0 →
        (result = false ↔ 262144 < t.transmitEnd - t.transmitBegin + 68)) ∧
      (result = false → t'.unsent = t.unsent) := by
  obtain ⟨hvalid, hstream, hall⟩ := h.spec
  refine ⟨hvalid.ordered, hvalid.bounded, hstream, hall, fun results hresults => ?_, fun response => ?_⟩
  · obtain ⟨kept, t', out, hflush, -⟩ := hvalid.flushOutput_refines { fd := 0, serial := 0 } hresults
    exact ⟨kept, t', out, hflush⟩
  · obtain ⟨result, t', hqueue, -, hspec⟩ := hvalid.queueResponse_spec response
    rw [hvalid.length_unsent] at hspec
    obtain ⟨rfl, hsession, hsequence, hfits, -⟩ | ⟨rfl, hfull, hunsent⟩ := hspec
    · refine ⟨true, t', hqueue, fun _ _ => ⟨by simp, fun hlt => ?_⟩, by simp⟩
      exact absurd hfits (Nat.not_le.mpr hlt)
    · refine ⟨false, t', hqueue, fun hsession hsequence => ⟨fun _ => ?_, fun _ => rfl⟩, fun _ => hunsent⟩
      exact (hfull.resolve_left hsession).resolve_left hsequence

/-- A response is queued, and `send` takes ten bytes of it. -/
theorem transmit_stream_integrity_partial_send : ∃ t t' kept out, Transmits t [] [⟨7, 1, {}⟩] ∧
    t.flushOutput [.sent 10] = .ok (kept, t', out) ∧ Transmits t' out [⟨7, 1, {}⟩] ∧
    out ++ t'.unsent = responseFrame ⟨7, 1, {}⟩ ∧ t'.transmitEnd ≤ 262144 := by
  have hstart : Transmits { transmit := List.replicate transmitCapacity 0 } [] [] :=
    .start List.length_replicate
  obtain ⟨-, -, -, -, -, hqueue⟩ := transmit_stream_integrity hstart
  obtain ⟨result, t, hqueued, hiff, -⟩ := hqueue ⟨7, 1, {}⟩
  have hresult : result = true := by
    rw [← Bool.not_eq_false, hiff (by decide) (by decide)]
    decide
  subst hresult
  have ht : Transmits t [] [⟨7, 1, {}⟩] := hstart.queue hqueued
  obtain ⟨-, -, hstream, -, hflush, -⟩ := transmit_stream_integrity ht
  have hoffered : TransmitBuffer.Offered t.unsent.length [.sent 10] := by
    rw [List.nil_append] at hstream
    rw [hstream]
    exact Or.inr ⟨by decide, trivial⟩
  obtain ⟨kept, t', out, hflushed⟩ := hflush _ hoffered
  have ht' : Transmits t' out [⟨7, 1, {}⟩] := ht.flush hoffered hflushed
  obtain ⟨-, hend, hstream', -⟩ := transmit_stream_integrity ht'
  exact ⟨t, t', kept, out, ht, hflushed, ht', by simpa using hstream', hend⟩

end Dme
