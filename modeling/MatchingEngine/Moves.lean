import MatchingEngine.TcpGateway

/-!
# What the gateway can do

* **`Move`**: a connection is accepted, changes its buffers, claims a session, pushes a request, or is
  closed; the engine moves; a response is popped and routed.
* `Reading.Kept`: what handling a request leaves alone.
* `Reading.handle_cases`, **`Reading.decodeLoop_cases`**, `readRequests_cases`: one request, one round of
  the decode loop, and how reading ends.
* `Action.Allowed`: what is assumed of the calls of the gateway.
-/

set_option autoImplicit false

namespace Dme

namespace TcpGateway

open Protocol (Request Response)

/-- A connection with other buffers, or another expected sequence. -/
structure Same (c c' : Connection) : Prop where
  fd : c'.fd = c.fd
  serial : c'.serial = c.serial
  sessionId : c'.sessionId = c.sessionId
  validator : c'.validator.map SessionValidator.sessionId = c.validator.map SessionValidator.sessionId

theorem Same.refl (c : Connection) : Same c c := ⟨rfl, rfl, rfl, rfl⟩

theorem Same.trans {c c' c'' : Connection} (h : Same c c') (h' : Same c' c'') : Same c c'' :=
  ⟨h'.fd.trans h.fd, h'.serial.trans h.serial, h'.sessionId.trans h.sessionId,
    h'.validator.trans h.validator⟩

theorem Same.validator_ne_none {c c' : Connection} (h : Same c c') (hc : c.validator ≠ none) :
    c'.validator ≠ none := by
  intro hc'
  have := h.validator
  rw [hc', Option.map_none] at this
  exact hc (Option.map_eq_none_iff.mp this.symm)

/-- **A small move of the gateway.** Sessions are claimed where `allow` permits it. -/
inductive Move (allow : Pipeline → UInt32 → Prop) : TcpGateway → TcpGateway → Prop
  | accept {g : TcpGateway} (fd : ℕ) (hfree : g.connections fd = none) :
    Move allow g { g with
      connections := Function.update g.connections fd (some { fd, serial := g.accepted })
      accepted := g.accepted + 1 }
  | touch {g : TcpGateway} {c c' : Connection} (hc : g.connections c.fd = some c) (hs : Same c c') :
    Move allow g (g.store c')
  | claim {g : TcpGateway} {c : Connection} {s : UInt32} (hc : g.connections c.fd = some c)
    (hv : c.validator = none) (hfree : g.sessionToFd s = none) (hs : s ≠ 0)
    (ha : allow g.pipeline s) :
    Move allow g ({ g with sessionToFd := Function.update g.sessionToFd s (some c.fd) }.store
      { c with sessionId := s, validator := some { sessionId := s } })
  | push {g g' : TcpGateway} {c : Connection} {v : SessionValidator} {r : GatewayRequest}
    {pushed : Bool} (hc : g.connections c.fd = some c) (hv : c.validator = some v)
    (hr : r.sessionId = v.sessionId) (h : g.pushRequest c.serial r = .ok (pushed, g')) :
    Move allow g g'
  | turn {g g' : TcpGateway} (h : g.engineTurn = .ok g') : Move allow g g'
  | idle {g g' : TcpGateway} (h : g.popResponse = .ok (none, g')) : Move allow g g'
  | route {g g' : TcpGateway} {r : GatewayResponse} {origin : ℕ}
    (h : g.popResponse = .ok (some (r, origin), g')) : Move allow g (g'.route r origin)
  | close {g : TcpGateway} (fd : ℕ) : Move allow g (g.closeConnection fd)

variable {allow : Pipeline → UInt32 → Prop} {g g' : TcpGateway} {c : Connection}

/-! ## Storing a connection -/

theorem store_connections (g : TcpGateway) (c : Connection) :
    (g.store c).connections c.fd = some c := Function.update_self ..

theorem store_store (g : TcpGateway) {c c' : Connection} (h : c'.fd = c.fd) :
    (g.store c).store c' = g.store c' := by
  simp [store, h]

theorem engineTurn_store (h : g.engineTurn = .ok g') (c : Connection) :
    (g.store c).engineTurn = .ok (g'.store c) := by
  obtain ⟨p, hp, hg⟩ := bind_eq_ok.mp h
  cases hg
  exact bind_eq_ok.mpr ⟨p, hp, rfl⟩

theorem engineTurns_store {n : ℕ} (h : g.engineTurns n = .ok g') (c : Connection) :
    (g.store c).engineTurns n = .ok (g'.store c) := by
  induction n generalizing g with
  | zero =>
    cases h
    rfl
  | succ n ih =>
    obtain ⟨g₁, h₁, h⟩ := bind_eq_ok.mp h
    exact bind_eq_ok.mpr ⟨_, engineTurn_store h₁ c, ih h⟩

theorem pushRequest_store {serial : ℕ} {r : GatewayRequest} {pushed : Bool}
    (h : g.pushRequest serial r = .ok (pushed, g')) (c : Connection) :
    (g.store c).pushRequest serial r = .ok (pushed, g'.store c) := by
  obtain ⟨⟨pushed, input⟩, hp, hg⟩ := bind_eq_ok.mp h
  cases hg
  refine bind_eq_ok.mpr ⟨(pushed, input), hp, ?_⟩
  cases pushed <;> rfl

/-! ## What stays the same -/

theorem queueResponse_same (c : Connection) (response : Response) :
    Same c (c.queueResponse response).2 := by
  unfold Connection.queueResponse
  dsimp only
  split <;> split_ifs <;> exact ⟨rfl, rfl, rfl, rfl⟩

theorem queueResponse_receive (c : Connection) (response : Response) :
    (c.queueResponse response).2.receive = c.receive := by
  unfold Connection.queueResponse
  dsimp only
  split <;> split_ifs <;> rfl

theorem flushLoop_same (c : Connection) (results : List SendResult) :
    Same c (c.flushLoop results).2 := by
  induction results generalizing c with
  | nil => exact Same.refl c
  | cons result results ih =>
    unfold Connection.flushLoop
    split_ifs
    · exact Same.refl c
    · cases result with
      | sent count =>
        cases count with
        | zero => exact Same.refl c
        | succ count =>
          have hsent : Same c { c with
              transmitBegin := c.transmitBegin + (count + 1)
              transmit := c.transmit.drop (count + 1) } := ⟨rfl, rfl, rfl, rfl⟩
          exact hsent.trans (ih _)
      | interrupted => exact ih c
      | failed => exact Same.refl c

theorem flushOutput_same (c : Connection) (results : List SendResult) :
    Same c (c.flushOutput results).2 := by
  have := flushLoop_same c results
  unfold Connection.flushOutput
  dsimp only
  split_ifs
  · exact this.trans ⟨rfl, rfl, rfl, rfl⟩
  · exact this
  · exact this

theorem validateAndAdvance_sessionId (v : SessionValidator) (request : Request) :
    (v.validateAndAdvance request).2.sessionId = v.sessionId := by
  unfold SessionValidator.validateAndAdvance
  split_ifs <;> rfl

theorem validateAndAdvance_none {v : SessionValidator} {request : Request}
    (h : (v.validateAndAdvance request).1 = .none) : request.sessionId = v.sessionId := by
  unfold SessionValidator.validateAndAdvance at h
  split_ifs at h with hbad
  by_contra hne
  exact hbad (Or.inl hne)

namespace Reading

/-- The gateway as others would see it, with the connection in its place. -/
def stored (x : Reading) : TcpGateway := x.gateway.store x.connection

variable {x x' : Reading} {request : Request} {verdict : ReadVerdict} {turns : ℕ}

theorem reject_same (x : Reading) (request : Request) (reason : RejectReason) :
    Same x.connection (x.reject request reason).2.connection := queueResponse_same ..

/-- The buffer is not touched while requests are handled, and they leave a validator behind. -/
structure Kept (x x' : Reading) : Prop where
  receive : x'.connection.receive = x.connection.receive
  consumed : x'.consumed = x.consumed
  validator : x'.connection.validator ≠ none

theorem reject_kept {reason : RejectReason} (h : x.connection.validator ≠ none) :
    Kept x (x.reject request reason).2 :=
  ⟨queueResponse_receive .., rfl, (x.reject_same request reason).validator_ne_none h⟩

theorem forward_kept (hv : x.connection.validator ≠ none)
    (h : x.forward request turns = .ok (verdict, x')) : Kept x x' := by
  obtain ⟨g₁, -, h⟩ := bind_eq_ok.mp h
  obtain ⟨⟨pushed, g₂⟩, -, h⟩ := bind_eq_ok.mp h
  cases pushed with
  | true =>
    cases h
    exact ⟨rfl, rfl, hv⟩
  | false =>
    have hx' : ({ x with gateway := g₂ }.reject request .gatewayBackpressure).2 = x' :=
      congrArg Prod.snd (Except.ok.inj h)
    have hkept : Kept { x with gateway := g₂ } x' := hx' ▸ reject_kept hv
    exact ⟨hkept.receive, hkept.consumed, hkept.validator⟩

theorem check_kept {validator : SessionValidator}
    (h : x.check validator request turns = .ok (verdict, x')) : Kept x x' := by
  rcases hva : validator.validateAndAdvance request with ⟨reason, v⟩
  simp only [check, hva] at h
  have hkept : Kept (x.advance v request) x' := by
    by_cases hreason : reason = .none
    · rw [if_neg (not_not.mpr hreason)] at h
      exact forward_kept (by simp [advance]) h
    · rw [if_pos hreason] at h
      cases h
      exact reject_kept (by simp [advance])
  exact ⟨hkept.receive, hkept.consumed, hkept.validator⟩

theorem handle_kept (hv : verdict ≠ .sessionInUse)
    (h : x.handle request turns = .ok (verdict, x')) : Kept x x' := by
  unfold handle at h
  cases hbind : x.bindSession request with
  | none =>
    simp only [hbind] at h
    cases h
    exact absurd rfl hv
  | some bound =>
    obtain ⟨validator, y⟩ := bound
    simp only [hbind] at h
    have hkept := check_kept h
    have hy : y.connection.receive = x.connection.receive ∧ y.consumed = x.consumed := by
      unfold bindSession at hbind
      split at hbind
      · cases hbind
        exact ⟨rfl, rfl⟩
      · split_ifs at hbind
        cases hbind
        exact ⟨rfl, rfl⟩
    exact ⟨hkept.receive.trans hy.1, hkept.consumed.trans hy.2, hkept.validator⟩

/-! ### One request, and the loop -/

theorem reject_cases (x : Reading) (request : Request) (reason : RejectReason) :
    (x.reject request reason).2.handed = x.handed ∧
      ((x.reject request reason).1 = .keep ∨ (x.reject request reason).1 = .rejectionNotQueued) := by
  refine ⟨rfl, ?_⟩
  rw [reject]
  dsimp only
  split_ifs
  · exact Or.inl rfl
  · exact Or.inr rfl

theorem check_cases {validator : SessionValidator}
    (h : x.check validator request turns = .ok (verdict, x')) :
    x'.handed = x.handed ++ [request] ∧ (verdict = .keep ∨ verdict = .rejectionNotQueued) := by
  rcases hva : validator.validateAndAdvance request with ⟨reason, v⟩
  simp only [check, hva] at h
  by_cases hreason : reason = .none
  · rw [if_neg (not_not.mpr hreason)] at h
    obtain ⟨g₁, -, h⟩ := bind_eq_ok.mp h
    obtain ⟨⟨pushed, g₂⟩, -, h⟩ := bind_eq_ok.mp h
    cases pushed with
    | true =>
      cases h
      exact ⟨rfl, Or.inl rfl⟩
    | false =>
      have hr := reject_cases { x.advance v request with gateway := g₂ } request .gatewayBackpressure
      have heq : { x.advance v request with gateway := g₂ }.reject request .gatewayBackpressure =
        (verdict, x') := Except.ok.inj h
      rw [heq] at hr
      exact hr
  · rw [if_pos hreason] at h
    have hr := reject_cases (x.advance v request) request reason
    rw [Except.ok.inj h] at hr
    exact hr

theorem handle_cases (h : x.handle request turns = .ok (verdict, x')) :
    (verdict = .sessionInUse ∧ x.connection.validator = none ∧ x' = x) ∨
      x'.handed = x.handed ++ [request] ∧ (verdict = .keep ∨ verdict = .rejectionNotQueued) := by
  unfold handle bindSession at h
  cases hv : x.connection.validator with
  | some v =>
    simp only [hv] at h
    exact Or.inr (check_cases h)
  | none =>
    simp only [hv] at h
    by_cases huse : (x.gateway.sessionToFd request.sessionId).isSome
    · rw [if_pos huse] at h
      cases h
      exact Or.inl ⟨rfl, rfl, rfl⟩
    · rw [if_neg huse] at h
      exact Or.inr (check_cases (x := x.claim request.sessionId) h)

/-- What the decode loop has not consumed. -/
def rest (x : Reading) : List UInt8 := x.connection.receive.drop x.consumed

/-- **One round of the decode loop**, by what is at the front of the rest of the buffer. -/
theorem decodeLoop_cases {fuel : ℕ} {turns : List ℕ}
    (h : decodeLoop (fuel + 1) turns x = .ok (verdict, x')) :
    (Protocol.requestOutcome x.rest = .more ∧ verdict = .keep ∧ x' = x) ∨
      (Protocol.requestOutcome x.rest = .bad ∧ verdict = .malformed ∧ x' = x) ∨
      ∃ request n v y, Protocol.requestOutcome x.rest = .frame request n ∧
        request.sessionId ≠ 0 ∧ x.handle request (turns.headD 0) = .ok (v, y) ∧
        (v ≠ .keep ∧ verdict = v ∧ x' = y ∨
          v = .keep ∧ decodeLoop fuel turns.tail { y with consumed := y.consumed + n } =
            .ok (verdict, x')) := by
  rw [decodeLoop] at h
  obtain ⟨r, hr, -, hacc⟩ := Protocol.decodeRequest_spec x.rest
  rw [Protocol.requestOutcome_eq hr]
  by_cases hmore : x.consumed < x.connection.receive.length
  · rw [if_pos hmore] at h
    obtain ⟨decoded, hdec, h⟩ := bind_eq_ok.mp h
    obtain rfl : decoded = r := Except.ok.inj (hdec.symm.trans hr)
    by_cases hneed : decoded.status = .needMoreData
    · rw [if_pos hneed] at h
      cases h
      exact Or.inl ⟨Protocol.outcome_eq_more.mpr hneed, rfl, rfl⟩
    rw [if_neg hneed] at h
    by_cases hok : decoded.status = .ok
    · rw [if_neg (not_not.mpr hok)] at h
      obtain ⟨⟨v, y⟩, hhandle, h⟩ := bind_eq_ok.mp h
      refine Or.inr (Or.inr ⟨decoded.request, decoded.bytesConsumed, v, y,
        Protocol.outcome_eq_frame.mpr ⟨hok, rfl, rfl⟩, (hacc hok).2.2.2.session, hhandle, ?_⟩)
      by_cases hkeep : v = .keep
      · dsimp only at h
        rw [if_neg (not_not.mpr hkeep)] at h
        exact Or.inr ⟨hkeep, h⟩
      · dsimp only at h
        rw [if_pos hkeep] at h
        cases h
        exact Or.inl ⟨hkeep, rfl, rfl⟩
    · rw [if_pos hok] at h
      cases h
      exact Or.inr (Or.inl ⟨Protocol.outcome_eq_bad.mpr ⟨hok, hneed⟩, rfl, rfl⟩)
  · rw [if_neg hmore] at h
    cases h
    have hempty : x.rest = [] := List.drop_eq_nil_of_le (Nat.not_lt.mp hmore)
    rw [hempty, Protocol.decodeRequest_short (by decide)] at hr
    cases hr
    exact Or.inl ⟨rfl, rfl, rfl⟩

/-- The request the decode loop would begin with. -/
def firstRequest (buffer : List UInt8) : Option Request :=
  match Protocol.requestOutcome buffer with
  | .frame request _ => some request
  | _ => none

end Reading

/-- The variables of `read_requests` when the buffer has been filled. -/
def reading (g : TcpGateway) (c : Connection) (results : List RecvResult) : Reading :=
  { gateway := g, connection := { c with receive := (receiveLoop c.receive results).2 } }

/-- **How `read_requests` ends**: while receiving, in the decode loop, or after it. -/
theorem readRequests_cases {results : List RecvResult} {turns : List ℕ} {verdict : ReadVerdict}
    {x : Reading} (h : g.readRequests c results turns = .ok (verdict, x)) :
    ((receiveLoop c.receive results).1 ≠ .keep ∧ verdict = (receiveLoop c.receive results).1 ∧
        x = g.reading c results) ∨
      (receiveLoop c.receive results).1 = .keep ∧ ∃ v y,
        Reading.decodeLoop ((g.reading c results).connection.receive.length + 1) turns
          (g.reading c results) = .ok (v, y) ∧
        (v ≠ .keep ∧ verdict = v ∧ x = y ∨
          v = .keep ∧ x = y.compact ∧
            verdict = if x.connection.receive.length = receiveCapacity then .bufferFull else .keep) := by
  rw [readRequests] at h
  dsimp only at h
  by_cases hend : (receiveLoop c.receive results).1 = .keep
  · rw [if_neg (not_not.mpr hend)] at h
    obtain ⟨⟨v, y⟩, hloop, h⟩ := bind_eq_ok.mp h
    refine Or.inr ⟨hend, v, y, hloop, ?_⟩
    dsimp only at h
    by_cases hkeep : v = .keep
    · rw [if_neg (not_not.mpr hkeep)] at h
      cases h
      exact Or.inr ⟨hkeep, rfl, rfl⟩
    · rw [if_pos hkeep] at h
      cases h
      exact Or.inl ⟨hkeep, rfl, rfl⟩
  · rw [if_pos hend] at h
    cases h
    exact Or.inl ⟨hend, rfl, rfl⟩

/-- `accept4` returns descriptors that are not open. -/
def FreshDescriptors : TcpGateway → List AcceptResult → Prop
  | _, [] => True
  | g, result :: results =>
    g.connections result.fd = none ∧ FreshDescriptors (g.acceptOne result) results

/-! ## Runs -/

/-- What is assumed of an action: descriptors are fresh, and where `read_requests` binds a connection to
a session, `allow` permits it. -/
def Action.Allowed (allow : Pipeline → UInt32 → Prop) (g : TcpGateway) : Action → Prop
  | .accept results => FreshDescriptors g results
  | .read fd results _ => ∀ c, g.connections fd = some c → c.validator = none →
    (receiveLoop c.receive results).1 = .keep →
    ∀ request ∈ Reading.firstRequest (receiveLoop c.receive results).2,
      g.sessionToFd request.sessionId = none → allow g.pipeline request.sessionId
  | _ => True

/-- Connections are filed under their descriptors. -/
def Keyed (g : TcpGateway) : Prop := ∀ fd c, g.connections fd = some c → c.fd = fd

end TcpGateway

end Dme
