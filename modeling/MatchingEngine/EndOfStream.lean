import MatchingEngine.Receive

/-!
# The end of the stream

`read_requests` receives until `recv` would block and decodes then; when `recv` reports the end of the
stream it returns before it decodes.

* `Life`: the calls so far have kept the connection; all that `recv` has returned, what was given to the
  validator, passed on to the engine and answered, and what is left in the buffer.
* `Accounted`: every frame that has come was handled once, up to one that need not be (`Excused`).
* **`no_request_dropped_iff`**: when the frames that have come are accounted for after one more call.
* `end_of_stream_drops_request`.
-/

set_option autoImplicit false

namespace Dme

namespace TcpGateway

open Framing (Decoded)
open Protocol (Request requestOutcome requestOutcome_stable)

variable {g : TcpGateway} {c : Connection}

/-- **The life of a connection so far**, with the effects of the calls. Between two calls anything may
happen to it and to the gateway, but the receive buffer stays as it was left. -/
inductive Life : List UInt8 → List Request → List GatewayRequest → List UInt8 → List UInt8 → Prop
  | start : Life [] [] [] [] []
  | call {p buffered answered answered' : List UInt8} {handed : List Request}
    {pushed pushed' : List GatewayRequest} {g : TcpGateway} {c : Connection}
    {results : List RecvResult} {turns : List ℕ} {x : Reading}
    (h : Life p handed pushed answered buffered) (hc : c.receive = buffered)
    (hfits : Fits (receiveCapacity - buffered.length) results)
    (hread : g.readRequests c results turns = .ok (.keep, x))
    (hpushed : x.gateway.pipeline.sent = g.pipeline.sent ++ pushed')
    (hanswered : x.connection.transmit = c.transmit ++ answered') :
    Life (p ++ received results) (handed ++ x.handed) (pushed ++ pushed') (answered ++ answered')
      x.connection.receive

section Life

variable {p buffered answered : List UInt8} {handed : List Request} {pushed : List GatewayRequest}

theorem Life.fed (h : Life p handed pushed answered buffered) : Fed p handed buffered := by
  induction h with
  | start => exact .start
  | call _ hc hfits hread _ _ ih => exact ih.call hc hfits hread

theorem Life.fates (h : Life p handed pushed answered buffered) : ∃ fates : List (Request × Fate),
    handed = fates.map Prod.fst ∧ pushed = fates.flatMap enqueuedOf ∧
      answered = fates.flatMap answeredOf := by
  induction h with
  | start => exact ⟨[], rfl, rfl, rfl⟩
  | @call p buffered answered answered' handed pushed pushed' g c results turns x h hc hfits hread
      hpushed hanswered ih =>
    subst hc
    obtain ⟨fates, rfl, rfl, rfl⟩ := ih
    have hlen := length_of_more h.fed.frames.rest_eq
    have hcap : (80 : ℕ) < receiveCapacity := by decide
    obtain ⟨fates', rest, left, -, hstop, hhandled, -⟩ :=
      readRequests_handled (by omega) hfits hread
    obtain rfl : pushed' = _ := List.append_cancel_left (hpushed.symm.trans hhandled.sent)
    obtain rfl : answered' = _ := List.append_cancel_left (hanswered.symm.trans hhandled.transmit)
    have hhanded : x.handed = fates'.map Prod.fst ++ left := hhandled.handed
    cases hstop with
    | more =>
      rw [List.append_nil] at hhanded
      exact ⟨fates ++ fates', by rw [hhanded, List.map_append], List.flatMap_append.symm,
        List.flatMap_append.symm⟩

end Life

/-! ## Frames accounted for -/

/-- Why nothing of `rest` need be handled: it does not begin with a frame, or the session of that frame
is bound to another connection; or the rejection of the frame, which was given to the validator, could
not be queued. -/
def Excused (rest : List UInt8) (g : TcpGateway) (c : Connection) (verdict : ReadVerdict)
    (left : List Request) : Prop :=
  (left = [] ∧ ∀ request n, requestOutcome rest = .frame request n →
      c.validator = none ∧ (g.sessionToFd request.sessionId).isSome) ∨
    (verdict = .rejectionNotQueued ∧ Reading.Full c ∧
      ∃ request n, requestOutcome rest = .frame request n ∧ left = [request])

/-- **Every frame of the stream is accounted for**: it was given to the validator and passed on to the
engine or answered, once and in order, up to where the rest is excused. -/
def Accounted (stream : List UInt8) (handed : List Request) (pushed : List GatewayRequest)
    (answered : List UInt8) (g : TcpGateway) (c : Connection) (verdict : ReadVerdict) : Prop :=
  ∃ (fates : List (Request × Fate)) (rest : List UInt8) (left : List Request),
    Decoded requestOutcome stream (fates.map Prod.fst) rest ∧
    Excused rest g c verdict left ∧ handed = fates.map Prod.fst ++ left ∧
    pushed = fates.flatMap enqueuedOf ∧ answered = fates.flatMap answeredOf

theorem Reading.Stop.excused {rest : List UInt8} {verdict : ReadVerdict} {left : List Request}
    (h : Reading.Stop rest g c verdict left) : Excused rest g c verdict left := by
  cases h with
  | more h =>
    refine Or.inl ⟨rfl, fun request n hframe => ?_⟩
    cases h.symm.trans hframe
  | malformed h =>
    refine Or.inl ⟨rfl, fun request n hframe => ?_⟩
    cases h.symm.trans hframe
  | sessionInUse h hv hbound =>
    refine Or.inl ⟨rfl, fun request n hframe => ?_⟩
    cases h.symm.trans hframe
    exact ⟨hv, hbound⟩
  | notQueued h hfull => exact Or.inr ⟨rfl, hfull, _, _, h, rfl⟩

/-- What `recv` returns last: nothing where it would block or the buffer is full, and no bytes where the
stream has ended. -/
def ending (ended : Bool) : List RecvResult := if ended then [.data []] else []

section Call

variable {p buffered answered : List UInt8} {handed : List Request} {pushed : List GatewayRequest}
  {results : List RecvResult} {turns : List ℕ} {verdict : ReadVerdict} {x : Reading}

theorem Life.accounted (h : Life p handed pushed answered c.receive)
    (hfits : Fits (receiveCapacity - c.receive.length) results)
    (hread : g.readRequests c results turns = .ok (verdict, x)) : ∃ pushed' answered',
      x.gateway.pipeline.sent = g.pipeline.sent ++ pushed' ∧
      x.connection.transmit = c.transmit ++ answered' ∧
      Accounted (p ++ received results) (handed ++ x.handed) (pushed ++ pushed')
        (answered ++ answered') x.gateway x.connection verdict := by
  have hlen := length_of_more h.fed.frames.rest_eq
  have hcap : (80 : ℕ) < receiveCapacity := by decide
  obtain ⟨fates, rfl, rfl, rfl⟩ := h.fates
  obtain ⟨fates', rest, left, hdecoded, hstop, hhandled, -⟩ :=
    readRequests_handled (by omega) hfits hread
  have hhanded : x.handed = fates'.map Prod.fst ++ left := hhandled.handed
  have hstream := (Framing.frames_iff.mp h.fed.frames).1.append requestOutcome_stable hdecoded
  refine ⟨_, _, hhandled.sent, hhandled.transmit, fates ++ fates', rest, left, ?_, hstop.excused, ?_,
    List.flatMap_append.symm, List.flatMap_append.symm⟩
  · rw [List.map_append]
    exact hstream
  · rw [hhanded, List.map_append, List.append_assoc]

theorem readRequests_ended (hle : c.receive.length ≤ receiveCapacity)
    (hfits : Fits (receiveCapacity - c.receive.length) results)
    (hroom : (received results).length < receiveCapacity - c.receive.length)
    (hread : g.readRequests c (results ++ ending true) turns = .ok (verdict, x)) :
    verdict = .endOfStream ∧
      x = { gateway := g, connection := { c with receive := c.receive ++ received results } } := by
  have hrecv : receiveLoop c.receive (results ++ ending true) =
      (.endOfStream, c.receive ++ received results) := by
    rw [receiveLoop_append _ hle hfits, ending, if_pos rfl, receiveLoop,
      if_pos (by rw [List.length_append]; omega)]
  rcases readRequests_cases hread with ⟨-, hv, hx⟩ | ⟨hkeep, -⟩
  · rw [reading, hrecv] at hx
    rw [hrecv] at hv
    exact ⟨hv, hx⟩
  · rw [hrecv] at hkeep
    cases hkeep

theorem Life.accounted_ended_iff (h : Life p handed pushed answered buffered) (s : List UInt8) :
    Accounted (p ++ s) handed pushed answered g c .endOfStream ↔
      ∀ request n, requestOutcome (buffered ++ s) = .frame request n →
        c.validator = none ∧ (g.sessionToFd request.sessionId).isSome := by
  have hdecoded : Decoded requestOutcome (p ++ s) handed (buffered ++ s) := by
    have happend := (Framing.frames_iff.mp h.fed.frames).1.append requestOutcome_stable
      (.done (l := buffered ++ s))
    rwa [List.append_nil] at happend
  constructor
  · rintro ⟨fates, rest, left, hdecoded', hexcused, hhanded, -, -⟩
    rcases hexcused with ⟨rfl, hall⟩ | ⟨hv, -⟩
    · rw [List.append_nil] at hhanded
      rw [← hhanded] at hdecoded'
      rw [← hdecoded.rest_unique hdecoded']
      exact hall
    · cases hv
  · intro hall
    obtain ⟨fates, rfl, rfl, rfl⟩ := h.fates
    exact ⟨fates, _, [], hdecoded, Or.inl ⟨rfl, hall⟩, (List.append_nil _).symm, rfl, rfl⟩

end Call

/-! ## Result -/

/-- **No request is dropped, except at the end of the stream.** After any calls that kept the connection,
and one more, every frame that has come is accounted for, if and only if the last call does not meet the
end of the stream with a frame in the buffer whose session the connection has or could have. The call
returns. -/
theorem no_request_dropped_iff {p buffered answered : List UInt8} {handed : List Request}
    {pushed : List GatewayRequest} {results : List RecvResult}
    (hlife : Life p handed pushed answered buffered) (hc : c.receive = buffered)
    (hfits : Fits (receiveCapacity - buffered.length) results) (ended : Bool)
    (hroom : ended = true → (received results).length < receiveCapacity - buffered.length)
    (turns : List ℕ) :
    (∀ verdict x, g.readRequests c (results ++ ending ended) turns = .ok (verdict, x) →
      ((∃ pushed' answered', x.gateway.pipeline.sent = g.pipeline.sent ++ pushed' ∧
          x.connection.transmit = c.transmit ++ answered' ∧
          Accounted (p ++ received results) (handed ++ x.handed) (pushed ++ pushed')
            (answered ++ answered') x.gateway x.connection verdict) ↔
        (ended = true → ∀ request n, requestOutcome (buffered ++ received results) = .frame request n →
          c.validator = none ∧ (g.sessionToFd request.sessionId).isSome))) ∧
    (Reaches (fun _ _ => True) g →
      ∃ verdict x, g.readRequests c (results ++ ending ended) turns = .ok (verdict, x)) := by
  subst hc
  have hlen := length_of_more hlife.fed.frames.rest_eq
  have hcap : (80 : ℕ) < receiveCapacity := by decide
  refine ⟨fun verdict x hread => ?_, fun hg => ?_⟩
  · cases ended with
    | false =>
      rw [ending, if_neg Bool.false_ne_true, List.append_nil] at hread
      exact ⟨fun _ hended => absurd hended Bool.false_ne_true, fun _ => hlife.accounted hfits hread⟩
    | true =>
      obtain ⟨rfl, rfl⟩ := readRequests_ended (by omega) hfits (hroom rfl) hread
      have hiff := hlife.accounted_ended_iff (g := g)
        (c := { c with receive := c.receive ++ received results }) (received results)
      constructor
      · rintro ⟨pushed', answered', hpushed, hanswered, haccounted⟩ -
        obtain rfl := List.self_eq_append_right.mp hpushed
        obtain rfl := List.self_eq_append_right.mp hanswered
        rw [List.append_nil, List.append_nil, List.append_nil] at haccounted
        exact hiff.mp haccounted
      · intro hall
        refine ⟨[], [], (List.append_nil _).symm, (List.append_nil _).symm, ?_⟩
        rw [List.append_nil, List.append_nil, List.append_nil]
        exact hiff.mpr (hall rfl)
  · obtain ⟨-, b₀, hexact⟩ := hg.sound
    exact readRequests_isOk hexact c _ turns

theorem exists_first_read : ∃ g₀ g x, TcpGateway.new = .ok g₀ ∧
    g₀.step (.accept [{ fd := 5 }]) = .ok g ∧ g.connections 5 = some { fd := 5, serial := 0 } ∧
    g.readRequests { fd := 5, serial := 0 } [.data (cancelFrame 1 1 7)] [] = .ok (.keep, x) ∧
    x.handed = [⟨1, 1, { type := .cancel, orderId := 7 }⟩] ∧
    x.gateway.pipeline.sent = g.pipeline.sent ++ [⟨1, 1, { type := .cancel, orderId := 7 }⟩] ∧
    x.connection.transmit = [] := by
  obtain ⟨g₀, book, hstart⟩ := exists_starts
  obtain ⟨g, haccept, hfive, htable, hpipe⟩ : ∃ g, g₀.step (.accept [{ fd := 5 }]) = .ok g ∧
      g.connections 5 = some { fd := 5, serial := 0 } ∧
      g.sessionToFd = g₀.sessionToFd ∧ g.pipeline = g₀.pipeline :=
    ⟨_, rfl, by simp [acceptConnections, acceptOne, emplace, hstart.connections, hstart.accepted]⟩
  obtain ⟨hwf, hempty, hsize⟩ := hstart.input
  have hvalid : SessionValidator.validateAndAdvance { sessionId := 1 }
      ⟨1, 1, { type := .cancel, orderId := 7 }⟩ = (.none, ⟨1, 2, {}⟩) := by decide
  obtain ⟨g', hpush, -, hhandle⟩ := Reading.handle_first_room
    (x := { gateway := g, connection := { fd := 5, serial := 0, receive := cancelFrame 1 1 7 } })
    rfl (by rw [htable, hstart.sessionToFd]) hvalid (hpipe ▸ hwf)
    (by rw [hpipe, hempty, List.length_nil]; omega)
  have hread := (readRequests_one (c := { fd := 5, serial := 0 }) (receiveLoop_one (by decide))
    decode_cancelFrame_seven hhandle).2 rfl rfl rfl
  exact ⟨g₀, g, _, hstart.new, haccept, hfive, hread, rfl, pushRequest_sent hpush, rfl⟩

/-- A request after which `recv` would block. -/
theorem no_request_dropped_iff_would_block : ∃ (g : TcpGateway) (x : Reading),
    g.readRequests { fd := 5, serial := 0 } [.data (cancelFrame 1 1 7)] [] = .ok (.keep, x) ∧
    x.handed = [⟨1, 1, { type := .cancel, orderId := 7 }⟩] ∧
    ∃ pushed answered, x.gateway.pipeline.sent = g.pipeline.sent ++ pushed ∧
      x.connection.transmit = answered ∧
      Accounted (cancelFrame 1 1 7) x.handed pushed answered x.gateway x.connection .keep := by
  obtain ⟨-, g, x, -, -, -, hread, hhanded, -⟩ := exists_first_read
  have hfits : Fits (receiveCapacity - 0) [.data (cancelFrame 1 1 7)] :=
    ⟨by decide, by decide, trivial⟩
  have hspec := no_request_dropped_iff (g := g) (c := { fd := 5, serial := 0 })
    .start rfl hfits false (fun h => absurd h Bool.false_ne_true) []
  exact ⟨g, x, hread, hhanded,
    (hspec.1 .keep x hread).mpr fun h => absurd h Bool.false_ne_true⟩

/-- **A request that comes with the end of the stream is dropped.** A connection sends a request and
closes its side. If `recv` would block between the two, the request is passed on to the engine; if it
reports the end of the stream in the same call, the request is not given to the validator, not passed on
and not answered. -/
theorem end_of_stream_drops_request : ∃ g₀ g x x', TcpGateway.new = .ok g₀ ∧
    g₀.step (.accept [{ fd := 5 }]) = .ok g ∧ g.connections 5 = some { fd := 5, serial := 0 } ∧
    Protocol.decodeRequest (cancelFrame 1 1 7) = .ok ⟨.ok, (cancelFrame 1 1 7).length,
      ⟨1, 1, { type := .cancel, orderId := 7 }⟩⟩ ∧
    g.readRequests { fd := 5, serial := 0 } [.data (cancelFrame 1 1 7)] [] = .ok (.keep, x) ∧
    x.gateway.pipeline.sent = g.pipeline.sent ++ [⟨1, 1, { type := .cancel, orderId := 7 }⟩] ∧
    g.readRequests { fd := 5, serial := 0 } [.data (cancelFrame 1 1 7), .data []] [] =
      .ok (.endOfStream, x') ∧
    x'.handed = [] ∧ x'.gateway.pipeline.sent = g.pipeline.sent ∧ x'.connection.transmit = [] := by
  obtain ⟨g₀, g, x, hnew, haccept, hfive, hread, -, hsent, -⟩ := exists_first_read
  exact ⟨g₀, g, x, _, hnew, haccept, hfive, decode_cancelFrame_seven, hread, hsent, rfl, rfl, rfl, rfl⟩

end TcpGateway

end Dme
