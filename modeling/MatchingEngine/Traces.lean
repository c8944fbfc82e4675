import MatchingEngine.Lib.Labelled
import MatchingEngine.Moves
import MatchingEngine.Sessions

/-!
# What the gateway tells its connections

Every call of the gateway is a sequence of small moves. Each of them passes something on: requests to the
engine, rejections and answers to the transmit buffers, bytes to the sockets.

* `Traffic`: what is passed on, with the number of the connection.
* **`Emits`**: the moves of `Move` with their traffic; `Emits.move`.
* `Reading.handle_emits`, `Reading.decodeLoop_emits`, **`step_emits`**: each call by its moves.
* `Reaches`, **`Reaches.of_moves`**: what holds at the start and is kept by every move holds in every
  reachable state.
* `Traced`, **`Traced.invariant`**: the same for states with all traffic so far.
-/

set_option autoImplicit false

namespace Dme

open Labelled (Path)
open Protocol (Request Response)

/-- What has been passed on, by or to the connection with a number. -/
inductive Traffic
  /-- A request was pushed to the engine. -/
  | asked (serial : ℕ) (request : GatewayRequest)
  /-- A rejection was queued. -/
  | refused (serial : ℕ) (response : Response)
  /-- A response of the engine was queued. -/
  | answered (serial : ℕ) (response : GatewayResponse)
  /-- `send` has taken some bytes. -/
  | sent (serial : ℕ) (bytes : List UInt8)
deriving DecidableEq, Repr

/-- The connection that traffic belongs to. -/
def Traffic.serial : Traffic → ℕ
  | .asked serial _ => serial
  | .refused serial _ => serial
  | .answered serial _ => serial
  | .sent serial _ => serial

/-- The response to a rejected request. -/
def rejection (request : Request) (reason : RejectReason) : Response :=
  ⟨request.sessionId, request.clientSequence, gatewayRejection request reason⟩

/-- The response of the engine as it is queued. -/
def GatewayResponse.toResponse (r : GatewayResponse) : Response :=
  ⟨r.sessionId, r.clientSequence, r.event⟩

/-- The request has come from the decoder. -/
def FromDecoder (request : Request) : Prop :=
  ∃ stream n, Protocol.requestOutcome stream = .frame request n

/-- The bytes that `send` takes in the loop of `flush_output`. -/
def Connection.flushed (c : Connection) : List SendResult → List UInt8
  | [] => []
  | result :: results =>
    if c.transmit = [] then []
    else match result with
      | .sent 0 => []
      | .sent count => c.transmit.take count ++ { c with
          transmitBegin := c.transmitBegin + count
          transmit := c.transmit.drop count }.flushed results
      | .interrupted => c.flushed results
      | .failed => []

theorem Connection.flushed_append (c : Connection) (results : List SendResult) :
    c.flushed results ++ (c.flushOutput results).2.transmit = c.transmit := by
  have hloop : c.flushed results ++ (c.flushLoop results).2.transmit = c.transmit := by
    induction results generalizing c with
    | nil => rfl
    | cons result results ih =>
      unfold Connection.flushed Connection.flushLoop
      split_ifs with hempty
      · rfl
      · cases result with
        | sent count =>
          cases count with
          | zero => rfl
          | succ count => simp only [List.append_assoc, ih, List.take_append_drop]
        | interrupted => exact ih c
        | failed => rfl
  rw [← hloop, Connection.flushOutput]
  dsimp only
  split_ifs <;> rfl

theorem Connection.flushed_sent {c : Connection} {count : ℕ} (h : c.transmit ≠ []) (hc : count ≠ 0) :
    c.flushed [.sent count] = c.transmit.take count := by
  rw [Connection.flushed, if_neg h]
  · exact List.append_nil _
  · exact hc

namespace TcpGateway

variable {allow : Pipeline → UInt32 → Prop} {g g' : TcpGateway} {c : Connection}

/-- Where a response of the engine is queued, if it is. -/
def answers (g : TcpGateway) (r : GatewayResponse) : List Traffic :=
  match g.sessionToFd r.sessionId with
  | none => []
  | some fd =>
    match g.connections fd with
    | none => []
    | some c => if (c.queueResponse r.toResponse).1 then [.answered c.serial r] else []

/-- **A small move of the gateway and its traffic.** -/
inductive Emits (allow : Pipeline → UInt32 → Prop) : TcpGateway → List Traffic → TcpGateway → Prop
  | accept {g : TcpGateway} (fd : ℕ) (hfree : g.connections fd = none) :
    Emits allow g [] { g with
      connections := Function.update g.connections fd (some { fd, serial := g.accepted })
      accepted := g.accepted + 1 }
  | receive {g : TcpGateway} {c : Connection} (hc : g.connections c.fd = some c)
    (receive : List UInt8) : Emits allow g [] (g.store { c with receive })
  | advance {g : TcpGateway} {c : Connection} {v v' : SessionValidator}
    (hc : g.connections c.fd = some c) (hv : c.validator = some v)
    (hid : v'.sessionId = v.sessionId) (hlimits : v'.limits = v.limits) :
    Emits allow g [] (g.store { c with validator := some v' })
  | claim {g : TcpGateway} {c : Connection} {s : UInt32} (hc : g.connections c.fd = some c)
    (hv : c.validator = none) (hfree : g.sessionToFd s = none) (hs : s ≠ 0)
    (ha : allow g.pipeline s) :
    Emits allow g [] ({ g with sessionToFd := Function.update g.sessionToFd s (some c.fd) }.store
      { c with sessionId := s, validator := some { sessionId := s } })
  | refuse {g : TcpGateway} {c : Connection} (hc : g.connections c.fd = some c) (request : Request)
    (reason : RejectReason) :
    Emits allow g
      (if (c.reject request reason).1 then [.refused c.serial (rejection request reason)] else [])
      (g.store (c.reject request reason).2)
  | push {g g' : TcpGateway} {c : Connection} {v : SessionValidator} {r : GatewayRequest}
    {pushed : Bool} (hc : g.connections c.fd = some c) (hv : c.validator = some v)
    (hr : r.sessionId = v.sessionId) (hrisk : v.limits.Permits r.command)
    (hdec : FromDecoder ⟨r.sessionId, r.clientSequence, r.command⟩)
    (h : g.pushRequest c.serial r = .ok (pushed, g')) :
    Emits allow g (if pushed then [.asked c.serial r] else []) g'
  | turn {g g' : TcpGateway} (h : g.engineTurn = .ok g') : Emits allow g [] g'
  | idle {g g' : TcpGateway} (h : g.popResponse = .ok (none, g')) : Emits allow g [] g'
  | route {g g' : TcpGateway} {r : GatewayResponse} {origin : ℕ}
    (h : g.popResponse = .ok (some (r, origin), g')) :
    Emits allow g (g'.answers r) (g'.route r origin)
  | flush {g : TcpGateway} {c : Connection} (hc : g.connections c.fd = some c)
    (results : List SendResult) :
    Emits allow g [.sent c.serial (c.flushed results)] (g.store (c.flushOutput results).2)
  | close {g : TcpGateway} (fd : ℕ) : Emits allow g [] (g.closeConnection fd)

theorem Emits.move {l : List Traffic} (h : Emits allow g l g') : Move allow g g' := by
  cases h with
  | accept fd hfree => exact .accept fd hfree
  | receive hc receive => exact .touch hc ⟨rfl, rfl, rfl, rfl⟩
  | advance hc hv hid _ => exact .touch hc ⟨rfl, rfl, rfl, by rw [hv]; exact congrArg some hid⟩
  | claim hc hv hfree hs ha => exact .claim hc hv hfree hs ha
  | refuse hc request reason => exact .touch hc (queueResponse_same ..)
  | push hc hv hr _ _ h => exact .push hc hv hr h
  | turn h => exact .turn h
  | idle h => exact .idle h
  | route h => exact .route h
  | flush hc results => exact .touch hc (flushOutput_same ..)
  | close fd => exact .close fd

/-! ## Calls by their moves -/

/-- Some moves lead from one state to another. -/
abbrev Passes (allow : Pipeline → UInt32 → Prop) (g g' : TcpGateway) : Prop :=
  ∃ l, Path (Emits allow) g l g'

theorem Passes.refl (g : TcpGateway) : Passes allow g g := ⟨[], .refl g⟩

theorem Emits.passes {l : List Traffic} (h : Emits allow g l g') : Passes allow g g' :=
  ⟨l, .single h⟩

theorem Passes.trans {g₁ g₂ g₃ : TcpGateway} (h : Passes allow g₁ g₂) (h' : Passes allow g₂ g₃) :
    Passes allow g₁ g₃ := by
  obtain ⟨l, h⟩ := h
  obtain ⟨l', h'⟩ := h'
  exact ⟨l ++ l', h.trans h'⟩

theorem engineTurns_path {n : ℕ} (h : g.engineTurns n = .ok g') : Path (Emits allow) g [] g' := by
  induction n generalizing g with
  | zero =>
    cases h
    exact .refl _
  | succ n ih =>
    obtain ⟨g₁, h₁, h⟩ := bind_eq_ok.mp h
    exact (Path.single (Emits.turn h₁)).trans (ih h)

theorem engineTurns_emits {n : ℕ} (h : g.engineTurns n = .ok g') : Passes allow g g' :=
  ⟨[], engineTurns_path h⟩

namespace Reading

variable {x x' : Reading} {request : Request} {verdict : ReadVerdict} {turns : ℕ}

theorem connection_path {l : List Traffic} {c : Connection} (hfd : c.fd = x.connection.fd)
    (h : Emits allow x.stored l (x.stored.store c)) :
    Path (Emits allow) x.stored l { x with connection := c }.stored := by
  rw [stored, store_store _ hfd] at h
  exact .single h

theorem reject_emits (x : Reading) (request : Request) (reason : RejectReason) :
    Passes allow x.stored (x.reject request reason).2.stored :=
  ⟨_, connection_path (x.reject_same request reason).fd
    (.refuse (store_connections x.gateway x.connection) request reason)⟩

theorem receive_path (x : Reading) (receive : List UInt8) :
    Path (Emits allow) x.stored []
      { x with connection := { x.connection with receive } }.stored :=
  connection_path (x := x) rfl (.receive (store_connections x.gateway x.connection) receive)

theorem advance_path {v v' : SessionValidator} (hv : x.connection.validator = some v)
    (hid : v'.sessionId = v.sessionId) (hlimits : v'.limits = v.limits) :
    Path (Emits allow) x.stored [] (x.advance v' request).stored :=
  connection_path (x := x) rfl (.advance (store_connections x.gateway x.connection) hv hid hlimits)

theorem forward_emits {v : SessionValidator} (hv : x.connection.validator = some v)
    (hr : request.sessionId = v.sessionId) (hrisk : v.limits.Permits request.command)
    (hdec : FromDecoder request) (h : x.forward request turns = .ok (verdict, x')) :
    Passes allow x.stored x'.stored := by
  obtain ⟨g₁, hturns, h⟩ := bind_eq_ok.mp h
  obtain ⟨⟨pushed, g₂⟩, hpush, h⟩ := bind_eq_ok.mp h
  have hpush' : Emits allow (g₁.store x.connection) _ (g₂.store x.connection) :=
    .push (store_connections g₁ x.connection) hv (by exact hr) (by exact hrisk) hdec
      (pushRequest_store hpush x.connection)
  have hpass : Passes allow x.stored { x with gateway := g₂ }.stored :=
    (engineTurns_emits (engineTurns_store hturns x.connection)).trans hpush'.passes
  cases pushed with
  | true =>
    cases h
    exact hpass
  | false =>
    have hx' : ({ x with gateway := g₂ }.reject request .gatewayBackpressure).2 = x' :=
      congrArg Prod.snd (Except.ok.inj h)
    rw [← hx']
    exact hpass.trans (reject_emits _ request _)

theorem validateAndAdvance_limits {v v' : SessionValidator} {reason : RejectReason}
    (h : v.validateAndAdvance request = (reason, v')) :
    v'.limits = v.limits ∧ (reason = .none → v.limits.Permits request.command) := by
  rcases v.validateAndAdvance_cases request with ⟨-, heq⟩ | ⟨-, heq⟩
  · cases h.symm.trans heq
    exact ⟨rfl, nofun⟩
  · cases h.symm.trans heq
    refine ⟨rfl, fun hnone => ?_⟩
    by_contra hrisk
    rw [if_neg hrisk] at hnone
    cases hnone

theorem check_emits {validator : SessionValidator} (hv : x.connection.validator = some validator)
    (hdec : FromDecoder request) (h : x.check validator request turns = .ok (verdict, x')) :
    Passes allow x.stored x'.stored := by
  rcases hva : validator.validateAndAdvance request with ⟨reason, v⟩
  have hid : v.sessionId = validator.sessionId := by
    rw [← validateAndAdvance_sessionId validator request, hva]
  obtain ⟨hlimits, hrisk⟩ := validateAndAdvance_limits hva
  simp only [check, hva] at h
  have hadvance : Passes allow x.stored (x.advance v request).stored :=
    ⟨[], advance_path hv hid hlimits⟩
  by_cases hreason : reason = .none
  · rw [if_neg (not_not.mpr hreason)] at h
    have hr : request.sessionId = v.sessionId := by
      rw [hid]
      exact validateAndAdvance_none (by rw [hva]; exact hreason)
    have hforward : Passes allow (x.advance v request).stored x'.stored :=
      forward_emits rfl hr (by rw [hlimits]; exact hrisk hreason) hdec h
    exact hadvance.trans hforward
  · rw [if_pos hreason] at h
    cases h
    exact hadvance.trans (reject_emits _ request reason)

theorem claim_path {s : UInt32} (hv : x.connection.validator = none)
    (hfree : x.gateway.sessionToFd s = none) (hs : s ≠ 0) (ha : allow x.gateway.pipeline s) :
    Path (Emits allow) x.stored [] (x.claim s).stored := by
  have hmove : Emits allow x.stored [] _ :=
    .claim (store_connections x.gateway x.connection) hv hfree hs ha
  have heq : (x.claim s).stored = { x.stored with
      sessionToFd := Function.update x.stored.sessionToFd s (some x.connection.fd) }.store
        { x.connection with sessionId := s, validator := some { sessionId := s } } := by
    simp [stored, claim, store, emplace, hfree]
  rw [heq]
  exact .single hmove

theorem handle_emits (hs : request.sessionId ≠ 0) (hdec : FromDecoder request)
    (ha : x.connection.validator = none → x.gateway.sessionToFd request.sessionId = none →
      allow x.gateway.pipeline request.sessionId)
    (h : x.handle request turns = .ok (verdict, x')) : Passes allow x.stored x'.stored := by
  unfold handle bindSession at h
  cases hv : x.connection.validator with
  | some v =>
    simp only [hv] at h
    exact check_emits hv hdec h
  | none =>
    simp only [hv] at h
    cases hfree : x.gateway.sessionToFd request.sessionId with
    | some fd =>
      simp only [hfree, Option.isSome_some, if_true] at h
      cases h
      exact .refl _
    | none =>
      simp only [hfree, Option.isSome_none, Bool.false_eq_true, if_false] at h
      have hclaim : Passes allow x.stored (x.claim request.sessionId).stored :=
        ⟨[], claim_path hv hfree hs (ha hv hfree)⟩
      have hcheck : Passes allow (x.claim request.sessionId).stored x'.stored := check_emits rfl hdec h
      exact hclaim.trans hcheck

theorem decodeLoop_emits {fuel : ℕ} {turns : List ℕ}
    (ha : x.connection.validator = none →
      ∀ request ∈ firstRequest x.rest, x.gateway.sessionToFd request.sessionId = none →
        allow x.gateway.pipeline request.sessionId)
    (h : decodeLoop fuel turns x = .ok (verdict, x')) : Passes allow x.stored x'.stored := by
  induction fuel generalizing x turns with
  | zero => cases h
  | succ fuel ih =>
    rcases decodeLoop_cases h with ⟨-, -, rfl⟩ | ⟨-, -, rfl⟩ |
      ⟨request, n, v, y, hframe, hsession, hhandle, h⟩
    · exact .refl _
    · exact .refl _
    have hfirst : request ∈ firstRequest x.rest := by
      rw [firstRequest, hframe]
      exact rfl
    have hpass : Passes allow x.stored y.stored :=
      handle_emits hsession ⟨_, _, hframe⟩ (fun hv => ha hv _ hfirst) hhandle
    rcases h with ⟨-, -, rfl⟩ | ⟨hkeep, h⟩
    · exact hpass
    · have hnv := (handle_kept (by simp [hkeep]) hhandle).validator
      exact hpass.trans (ih (x := { y with consumed := y.consumed + n })
        (fun hv => absurd hv hnv) h)

end Reading

theorem readRequests_emits {results : List RecvResult} {turns : List ℕ} {verdict : ReadVerdict}
    {x : Reading} (hc : g.connections c.fd = some c)
    (ha : c.validator = none → (receiveLoop c.receive results).1 = .keep →
      ∀ request ∈ Reading.firstRequest (receiveLoop c.receive results).2,
        g.sessionToFd request.sessionId = none → allow g.pipeline request.sessionId)
    (h : g.readRequests c results turns = .ok (verdict, x)) : Passes allow g x.stored := by
  have hstart : Passes allow g (g.reading c results).stored := (Emits.receive hc _).passes
  rcases readRequests_cases h with ⟨-, -, rfl⟩ | ⟨hkeep, v, y, hloop, h⟩
  · exact hstart
  have hpass := hstart.trans (Reading.decodeLoop_emits (fun hv => ha hv hkeep) hloop)
  rcases h with ⟨-, -, rfl⟩ | ⟨-, rfl, -⟩
  · exact hpass
  · exact hpass.trans ⟨[], y.receive_path _⟩

theorem drainEngineResponses_emits {fuel : ℕ} {turns : List ℕ}
    (h : drainEngineResponses fuel turns g = .ok g') : Passes allow g g' := by
  induction fuel generalizing g turns with
  | zero => cases h
  | succ fuel ih =>
    obtain ⟨g₁, hturns, h⟩ := bind_eq_ok.mp h
    obtain ⟨⟨popped, g₂⟩, hpop, h⟩ := bind_eq_ok.mp h
    have hpass : Passes allow g g₁ := engineTurns_emits hturns
    cases popped with
    | none =>
      cases h
      exact hpass.trans (Emits.idle hpop).passes
    | some popped => exact (hpass.trans (Emits.route hpop).passes).trans (ih h)

theorem acceptConnections_emits {results : List AcceptResult} (h : FreshDescriptors g results) :
    Passes allow g (g.acceptConnections results) := by
  induction results generalizing g with
  | nil => exact .refl g
  | cons result results ih =>
    obtain ⟨hfree, h⟩ := h
    refine Passes.trans ?_ (ih h)
    rw [acceptOne]
    split_ifs
    · exact .refl g
    · exact .refl g
    · have hmove : Emits allow g [] _ := .accept result.fd hfree
      rw [emplace, hfree]
      exact hmove.passes

/-- **Every call is a sequence of moves.** -/
theorem step_emits {a : Action} (hkey : Keyed g) (ha : a.Allowed allow g)
    (h : g.step a = .ok g') : Passes allow g g' := by
  cases a with
  | accept results =>
    cases h
    exact acceptConnections_emits ha
  | read fd results turns =>
    cases hc : g.connections fd with
    | none =>
      simp only [step, hc] at h
      cases h
      exact .refl g
    | some c =>
      obtain rfl := hkey fd c hc
      simp only [step, hc] at h
      obtain ⟨⟨verdict, x⟩, hread, h⟩ := bind_eq_ok.mp h
      cases h
      exact readRequests_emits hc (ha c hc) hread
  | flush fd results =>
    cases hc : g.connections fd with
    | none =>
      simp only [step, hc] at h
      cases h
      exact .refl g
    | some c =>
      obtain rfl := hkey fd c hc
      simp only [step, hc] at h
      cases h
      exact (Emits.flush hc results).passes
  | drain fuel turns => exact drainEngineResponses_emits h
  | close fd =>
    cases h
    exact (Emits.close fd).passes
  | engine => exact (Emits.turn h).passes

/-! ## Runs -/

/-- **The states of the gateway**, whatever calls are made in whatever order. -/
inductive Reaches (allow : Pipeline → UInt32 → Prop) : TcpGateway → Prop
  | new {g : TcpGateway} (h : TcpGateway.new = .ok g) : Reaches allow g
  | step {g g' : TcpGateway} {a : Action} (hg : Reaches allow g) (ha : a.Allowed allow g)
    (h : g.step a = .ok g') : Reaches allow g'

/-- **The rule of invariants.** -/
theorem Reaches.of_moves {P : TcpGateway → Prop} (hkey : ∀ g, P g → Keyed g)
    (hnew : ∀ g, TcpGateway.new = .ok g → P g) (hmove : ∀ g g', P g → Move allow g g' → P g')
    (h : Reaches allow g) : P g := by
  induction h with
  | new h => exact hnew _ h
  | step _ ha h ih =>
    obtain ⟨l, hpath⟩ := step_emits (hkey _ ih) ha h
    exact hpath.invariant (P := fun g _ => P g) (l := [])
      (fun _ _ _ _ hp he => hmove _ _ hp he.move) ih

/-- **The states of the gateway with all that has been passed on**, whatever calls are made in whatever
order. -/
inductive Traced (allow : Pipeline → UInt32 → Prop) : TcpGateway → List Traffic → Prop
  | new {g : TcpGateway} (h : TcpGateway.new = .ok g) : Traced allow g []
  | step {g g' : TcpGateway} {l l' : List Traffic} {a : Action} (hg : Traced allow g l)
    (ha : a.Allowed allow g) (h : g.step a = .ok g') (hpath : Path (Emits allow) g l' g') :
    Traced allow g' (l ++ l')

theorem Traced.reaches {l : List Traffic} (h : Traced allow g l) : Reaches allow g := by
  induction h with
  | new h => exact .new h
  | step _ ha h _ ih => exact .step ih ha h

theorem Traced.invariant {P : TcpGateway → List Traffic → Prop} {l : List Traffic}
    (hnew : ∀ g, TcpGateway.new = .ok g → P g [])
    (hstep : ∀ g l l' g', P g l → Emits allow g l' g' → P g' (l ++ l'))
    (h : Traced allow g l) : P g l := by
  induction h with
  | new h => exact hnew _ h
  | step _ _ _ hpath ih => exact hpath.invariant hstep ih

end TcpGateway

end Dme
