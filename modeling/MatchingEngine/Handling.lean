import MatchingEngine.SessionTable
import MatchingEngine.Transmit

/-!
# What becomes of a request

* `Fate`: a request that was given to the session validator is passed on to the engine, or it is
  answered with a rejection. `Handled x x' fates left`: from `x` to `x'` the requests of `fates` were
  given to the validator in order, and each was passed on or answered once; those of `left` were given
  to the validator, and neither.
* `Stop`: why the decode loop stops.
* `Reading.handle_ends`, **`Reading.decodeLoop_handled`**: one request, and the loop.
-/

set_option autoImplicit false

namespace Dme

namespace TcpGateway

open Framing (Decoded)
open Protocol (Request requestOutcome)

/-- What becomes of a request that was given to the validator. -/
inductive Fate
  | enqueued
  | rejected (reason : RejectReason)
deriving DecidableEq, Repr

/-- What is passed on to the engine. -/
def enqueuedOf : Request × Fate → List GatewayRequest
  | (request, .enqueued) => [⟨request.sessionId, request.clientSequence, request.command⟩]
  | (_, .rejected _) => []

/-- The frame that is queued in answer. -/
def answeredOf : Request × Fate → List UInt8
  | (_, .enqueued) => []
  | (request, .rejected reason) => Protocol.responseFrame
      ⟨request.sessionId, request.clientSequence, gatewayRejection request reason⟩

/-- **The requests of `fates` are handled**, each once and in order, and then those of `left` are given
to the validator without further effect. -/
structure Handled (x x' : Reading) (fates : List (Request × Fate)) (left : List Request) : Prop where
  handed : x'.handed = x.handed ++ (fates.map Prod.fst ++ left)
  sent : x'.gateway.pipeline.sent = x.gateway.pipeline.sent ++ fates.flatMap enqueuedOf
  transmit : x'.connection.transmit = x.connection.transmit ++ fates.flatMap answeredOf

theorem Handled.refl (x : Reading) : Handled x x [] [] := ⟨by simp, by simp, by simp⟩

theorem Handled.trans {x y z : Reading} {fates fates' : List (Request × Fate)} {left : List Request}
    (h : Handled x y fates []) (h' : Handled y z fates' left) : Handled x z (fates ++ fates') left where
  handed := by simp [h'.handed, h.handed]
  sent := by rw [h'.sent, h.sent, List.flatMap_append, List.append_assoc]
  transmit := by rw [h'.transmit, h.transmit, List.flatMap_append, List.append_assoc]

variable {g g' : TcpGateway}

/-! ## The engine and the queue -/

theorem run_sent {p p' : Pipeline} (h : p.run Command.bytes = .ok p') : p'.sent = p.sent := by
  rw [Pipeline.run] at h
  cases hpc : p.runner.pc with
  | ready =>
    rw [hpc] at h
    obtain ⟨⟨popped, input⟩, -, h⟩ := bind_eq_ok.mp h
    cases popped <;> cases h <;> rfl
  | popped incoming =>
    rw [hpc] at h
    cases h
    rfl
  | sequenced incoming =>
    rw [hpc] at h
    cases h
    rfl
  | journaled incoming =>
    rw [hpc] at h
    obtain ⟨⟨book, events⟩, -, h⟩ := bind_eq_ok.mp h
    cases h
    rfl
  | publishing incoming events =>
    rw [hpc] at h
    cases events with
    | nil =>
      cases h
      rfl
    | cons event events =>
      obtain ⟨⟨pushed, output⟩, -, h⟩ := bind_eq_ok.mp h
      cases pushed <;> cases h <;> rfl

theorem engineTurns_sent {n : ℕ} (h : g.engineTurns n = .ok g') :
    g'.pipeline.sent = g.pipeline.sent := by
  induction n generalizing g with
  | zero =>
    cases h
    rfl
  | succ n ih =>
    obtain ⟨g₁, hturn, h⟩ := bind_eq_ok.mp h
    obtain ⟨p, hrun, hg₁⟩ := bind_eq_ok.mp hturn
    cases hg₁
    exact (ih h).trans (run_sent hrun)

theorem pushRequest_sent {serial : ℕ} {r : GatewayRequest} {pushed : Bool}
    (h : g.pushRequest serial r = .ok (pushed, g')) :
    g'.pipeline.sent = g.pipeline.sent ++ if pushed then [r] else [] := by
  obtain ⟨⟨pushed, input⟩, -, h⟩ := bind_eq_ok.mp h
  cases h
  cases pushed with
  | true => rfl
  | false => exact (List.append_nil _).symm

/-! ## One request -/

namespace Reading

variable {x x' : Reading} {request : Request} {verdict : ReadVerdict} {turns : ℕ}

/-- There is no room for a response. -/
def Full (c : Connection) : Prop :=
  transmitCapacity < c.transmit.length + Protocol.responseFrameSize

/-- How a request ends that is given to the validator at `x`. -/
def Ends (x : Reading) (request : Request) (verdict : ReadVerdict) (x' : Reading) : Prop :=
  (verdict = .keep ∧ ∃ fate, Handled x x' [(request, fate)] []) ∨
    (verdict = .rejectionNotQueued ∧ Handled x x' [] [request] ∧ Full x'.connection)

theorem reject_ends {y : Reading} {reason : RejectReason} (hs : request.sessionId ≠ 0)
    (hq : request.clientSequence ≠ 0) (hhanded : y.handed = x.handed ++ [request])
    (hsent : y.gateway.pipeline.sent = x.gateway.pipeline.sent)
    (htransmit : y.connection.transmit = x.connection.transmit)
    (h : y.reject request reason = (verdict, x')) : Ends x request verdict x' := by
  have hspec := y.connection.queueResponse_spec
    ⟨request.sessionId, request.clientSequence, gatewayRejection request reason⟩
  rcases hqueue : y.connection.reject request reason with ⟨queued, c⟩
  rw [Connection.reject] at hqueue
  rw [hqueue] at hspec
  rw [reject, Connection.reject, hqueue] at h
  cases h
  rcases hspec with ⟨rfl, -, -, -, hframe⟩ | ⟨rfl, hfull, hsame⟩
  · refine Or.inl ⟨rfl, .rejected reason, hhanded, ?_, ?_⟩
    · simpa [enqueuedOf] using hsent
    · simpa [answeredOf, htransmit] using hframe
  · refine Or.inr ⟨rfl, ⟨hhanded, by simpa using hsent, by simpa [htransmit] using hsame⟩, ?_⟩
    rw [Full, hsame]
    exact (hfull.resolve_left hs).resolve_left hq

theorem check_ends {validator : SessionValidator} (hs : request.sessionId ≠ 0)
    (hq : request.clientSequence ≠ 0) (h : x.check validator request turns = .ok (verdict, x')) :
    Ends x request verdict x' := by
  rcases hva : validator.validateAndAdvance request with ⟨reason, v⟩
  simp only [check, hva] at h
  by_cases hreason : reason = .none
  · rw [if_neg (not_not.mpr hreason)] at h
    obtain ⟨g₁, hturns, h⟩ := bind_eq_ok.mp h
    obtain ⟨⟨pushed, g₂⟩, hpush, h⟩ := bind_eq_ok.mp h
    have hsent := pushRequest_sent hpush
    rw [engineTurns_sent hturns] at hsent
    cases pushed with
    | true =>
      cases h
      exact Or.inl ⟨rfl, .enqueued, rfl, hsent, (List.append_nil _).symm⟩
    | false =>
      exact reject_ends (y := { x.advance v request with gateway := g₂ }) hs hq rfl
        (hsent.trans (List.append_nil _)) rfl (Except.ok.inj h)
  · rw [if_pos hreason] at h
    exact reject_ends (y := x.advance v request) hs hq rfl rfl rfl (Except.ok.inj h)

/-- **One request**: its session is bound to another connection, or it is given to the validator. -/
theorem handle_ends (hs : request.sessionId ≠ 0) (hq : request.clientSequence ≠ 0)
    (h : x.handle request turns = .ok (verdict, x')) :
    (verdict = .sessionInUse ∧ x.connection.validator = none ∧
        (x.gateway.sessionToFd request.sessionId).isSome ∧ x' = x) ∨
      Ends x request verdict x' := by
  unfold handle bindSession at h
  cases hv : x.connection.validator with
  | some v =>
    simp only [hv] at h
    exact Or.inr (check_ends hs hq h)
  | none =>
    simp only [hv] at h
    by_cases huse : (x.gateway.sessionToFd request.sessionId).isSome
    · rw [if_pos huse] at h
      cases h
      exact Or.inl ⟨rfl, rfl, huse, rfl⟩
    · rw [if_neg huse] at h
      -- claiming the session changes nothing that `Ends` speaks of
      rcases check_ends (x := x.claim request.sessionId) hs hq h with
        ⟨hv, fate, hhandled⟩ | ⟨hv, hhandled, hfull⟩
      · exact Or.inr (Or.inl ⟨hv, fate, hhandled.handed, hhandled.sent, hhandled.transmit⟩)
      · exact Or.inr (Or.inr ⟨hv, ⟨hhandled.handed, hhandled.sent, hhandled.transmit⟩, hfull⟩)

/-! ## The decode loop -/

/-- **Why the decode loop stops** before `rest`, and the request it has left without an answer. -/
inductive Stop (rest : List UInt8) (g : TcpGateway) (c : Connection) :
    ReadVerdict → List Request → Prop
  | more (h : requestOutcome rest = .more) : Stop rest g c .keep []
  | malformed (h : requestOutcome rest = .bad) : Stop rest g c .malformed []
  | sessionInUse {request : Request} {n : ℕ} (h : requestOutcome rest = .frame request n)
    (hv : c.validator = none) (hbound : (g.sessionToFd request.sessionId).isSome) :
    Stop rest g c .sessionInUse []
  | notQueued {request : Request} {n : ℕ} (h : requestOutcome rest = .frame request n)
    (hfull : Full c) : Stop rest g c .rejectionNotQueued [request]

theorem requestOutcome_ids {l : List UInt8} {n : ℕ} (h : requestOutcome l = .frame request n) :
    request.sessionId ≠ 0 ∧ request.clientSequence ≠ 0 := by
  obtain ⟨r, hr, -, hacc⟩ := Protocol.decodeRequest_spec l
  rw [Protocol.requestOutcome_eq hr] at h
  obtain ⟨hok, rfl, -⟩ := Protocol.outcome_eq_frame.mp h
  obtain ⟨-, -, -, haccepted⟩ := hacc hok
  exact ⟨haccepted.session, haccepted.sequence⟩

/-- **The decode loop** handles the frames at the front of the buffer, each once and in order, until it
stops. -/
theorem decodeLoop_handled {fuel : ℕ} {turns : List ℕ}
    (h : decodeLoop fuel turns x = .ok (verdict, x')) : ∃ fates left,
      Decoded requestOutcome x.rest (fates.map Prod.fst) x'.rest ∧
      Stop x'.rest x'.gateway x'.connection verdict left ∧ Handled x x' fates left := by
  induction fuel generalizing x turns with
  | zero => cases h
  | succ fuel ih =>
    rcases decodeLoop_cases h with ⟨hmore, rfl, rfl⟩ | ⟨hbad, rfl, rfl⟩ |
      ⟨request, n, v, y, hframe, -, hhandle, hround⟩
    · exact ⟨[], [], .done, .more hmore, .refl _⟩
    · exact ⟨[], [], .done, .malformed hbad, .refl _⟩
    obtain ⟨hs, hq⟩ := requestOutcome_ids hframe
    rcases handle_ends hs hq hhandle with ⟨rfl, hv, hbound, rfl⟩ | ⟨rfl, fate, hhandled⟩ |
      ⟨rfl, hhandled, hfull⟩
    · rcases hround with ⟨-, rfl, rfl⟩ | ⟨hv', -⟩
      · exact ⟨[], [], .done, .sessionInUse hframe hv hbound, .refl _⟩
      · cases hv'
    · rcases hround with ⟨hne, -⟩ | ⟨-, hround⟩
      · exact absurd rfl hne
      have hkept := handle_kept (by decide) hhandle
      have hrest : ({ y with consumed := y.consumed + n } : Reading).rest = x.rest.drop n := by
        simp [rest, hkept.receive, hkept.consumed]
      obtain ⟨fates, left, hdecoded, hstop, hhandled'⟩ := ih hround
      have hfirst : Handled x { y with consumed := y.consumed + n } [(request, fate)] [] :=
        ⟨hhandled.handed, hhandled.sent, hhandled.transmit⟩
      exact ⟨(request, fate) :: fates, left, .next hframe (hrest ▸ hdecoded), hstop,
        hfirst.trans hhandled'⟩
    · rcases hround with ⟨-, rfl, rfl⟩ | ⟨hv', -⟩
      · have hkept := handle_kept (by decide) hhandle
        have hrest : x'.rest = x.rest := by rw [rest, rest, hkept.receive, hkept.consumed]
        rw [hrest]
        exact ⟨[], [request], .done, .notQueued hframe hfull, hhandled⟩
      · cases hv'

end Reading

end TcpGateway

end Dme
