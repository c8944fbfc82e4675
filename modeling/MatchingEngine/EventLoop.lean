import MatchingEngine.Routing

/-!
# The event loop

`TcpGateway::run`: responses are drained, `epoll_wait` reports which sockets are ready, and its events are
handled one after the other, while the engine thread goes on. The functions of the gateway are those of
`TcpGateway`, here with the registrations they make with `epoll_ctl`.

* `EventLoop`, `dispatch`, `drainEngineResponses`: the loop with the registered descriptors.
* `Step`, `Runs`: an iteration begins, an event is handled, or the engine thread executes a statement.
* `Polling.decodeLoop_watches`, `readRequests_eq`: the calls and their registrations.
* **`Armed`**, `Fresh`, `Safe.step`: what is registered, and for whom the events are.
* **`event_loop_safe`**: every state of the loop is one of the gateway, a socket is registered for output
  exactly while it has unsent bytes, and no event is handled for another connection than its own.
-/

set_option autoImplicit false

namespace Dme

open Protocol (Request)
open TcpGateway (AcceptResult Reading)

/-! ## The loop -/

/-- What `epoll_wait` reports: there are connections to accept; or, of a connection, whether the peer is
gone (`EPOLLERR`, `EPOLLHUP` or `EPOLLRDHUP`), whether there is input, and whether there is room for
output. `serial` is history: the connection that has the descriptor then. -/
inductive Readiness
  | listener
  | connection (fd serial : ℕ) (gone readable writable : Bool)
deriving DecidableEq, Repr

namespace Readiness

/-- The descriptor of a connection. -/
def descriptor : Readiness → Option ℕ
  | listener => none
  | connection fd _ _ _ _ => some fd

end Readiness

/-- What the system calls made for an event return, and how far the engine thread gets meanwhile. -/
structure CallResults where
  accepts : List AcceptResult := []
  recvs : List RecvResult := []
  turns : List ℕ := []
  sends : List SendResult := []

/-- `maximum_events`, the size of the array that `epoll_wait` fills. -/
def maximumEvents : ℕ := 128

/-- The registered descriptors of connections, each with whether `EPOLLOUT` is asked for. -/
abbrev Interest := ℕ → Option Bool

/-- Something is left to send: `transmit_begin` and `transmit_end` differ. -/
def Connection.hasOutput (c : Connection) : Bool := !c.transmit.isEmpty

/-- `EPOLL_CTL_MOD` fails, and is ignored, if the descriptor is not registered. -/
def updateInterest (interest : Interest) (c : Connection) : Interest :=
  if (interest c.fd).isSome then Function.update interest c.fd (some c.hasOutput) else interest

/-- The variables of `read_requests`, and the registrations. -/
structure Polling where
  reading : Reading
  interest : Interest

namespace Polling

/-- A request is answered by the gateway itself with one response at most; if `queue_response` has
appended it, it has called `update_interest`. -/
def handle (x : Polling) (request : Request) (turns : ℕ) : Except Fault (ReadVerdict × Polling) := do
  let (verdict, reading) ← x.reading.handle request turns
  .ok (verdict, {
    reading
    interest := if reading.connection.transmit = x.reading.connection.transmit then x.interest
      else updateInterest x.interest reading.connection })

/-- The decode loop of `read_requests`, with the registration of the connection. -/
def decodeLoop : ℕ → List ℕ → Polling → Except Fault (ReadVerdict × Polling)
  | 0, _, _ => .error .endless
  | fuel + 1, turns, x =>
    if x.reading.consumed < x.reading.connection.receive.length then do
      let decoded ← Protocol.decodeRequest (x.reading.connection.receive.drop x.reading.consumed)
      if decoded.status = .needMoreData then .ok (.keep, x)
      else if decoded.status ≠ .ok then .ok (.malformed, x)
      else
        let (verdict, x) ← x.handle decoded.request (turns.headD 0)
        if verdict ≠ .keep then .ok (verdict, x)
        else
          let consumed := x.reading.consumed + decoded.bytesConsumed
          decodeLoop fuel turns.tail { x with reading := { x.reading with consumed } }
    else .ok (.keep, x)

end Polling

/-- The gateway in its loop; `events` are those of the last `epoll_wait` that are still to be handled. -/
structure EventLoop where
  gateway : TcpGateway
  interest : Interest := fun _ => none
  events : List Readiness := []

namespace EventLoop

/-- The body of the loop of `accept_connections`: a connection is registered without `EPOLLOUT`. -/
def acceptOne (s : EventLoop) (result : AcceptResult) : EventLoop :=
  { s with
    gateway := s.gateway.acceptOne result
    interest := if result.nonblocking && result.registered then
        Function.update s.interest result.fd (some false)
      else s.interest }

/-- `accept_connections`, for the descriptors that `accept4` returns. -/
def acceptConnections (s : EventLoop) (results : List AcceptResult) : EventLoop :=
  results.foldl acceptOne s

/-- The connection that was read from is changed in place. -/
def commit (s : EventLoop) (x : Polling) : EventLoop :=
  { s with gateway := x.reading.gateway.store x.reading.connection, interest := x.interest }

/-- `read_requests`, which may queue rejections and so ask for `EPOLLOUT`. -/
def readRequests (s : EventLoop) (c : Connection) (results : List RecvResult) (turns : List ℕ) :
    Except Fault (ReadVerdict × EventLoop) :=
  let (received, receive) := receiveLoop c.receive results
  let x : Polling := ⟨{ gateway := s.gateway, connection := { c with receive } }, s.interest⟩
  if received ≠ .keep then .ok (received, s.commit x)
  else do
    let (verdict, x) ← Polling.decodeLoop (receive.length + 1) turns x
    if verdict ≠ .keep then .ok (verdict, s.commit x)
    else
      let x := { x with reading := x.reading.compact }
      .ok (if x.reading.connection.receive.length = receiveCapacity then .bufferFull else .keep,
        s.commit x)

/-- `flush_output`; only where it succeeds does it call `update_interest`. -/
def flushOutput (s : EventLoop) (c : Connection) (results : List SendResult) : Bool × EventLoop :=
  let (sent, c) := c.flushOutput results
  (sent, { s with
    gateway := s.gateway.store c
    interest := if sent then updateInterest s.interest c else s.interest })

/-- `close_connection`: an open connection is removed from the epoll set. -/
def closeConnection (s : EventLoop) (fd : ℕ) : EventLoop :=
  { s with
    gateway := s.gateway.closeConnection fd
    interest := if (s.gateway.connections fd).isSome then Function.update s.interest fd none
      else s.interest }

/-- The body of the loop of `drain_engine_responses`. -/
def route (s : EventLoop) (response : GatewayResponse) (origin : ℕ) : EventLoop :=
  match s.gateway.sessionToFd response.sessionId with
  | none => s
  | some fd =>
    match s.gateway.connections fd with
    | none => s.closeConnection fd
    | some c =>
      let (queued, c) := c.queueResponse ⟨response.sessionId, response.clientSequence, response.event⟩
      let s := { s with gateway := s.gateway.store c }
      if queued then
        { s with
          gateway.delivered := s.gateway.delivered ++ [⟨c.serial, origin⟩]
          interest := updateInterest s.interest c }
      else s.closeConnection fd

/-- `drain_engine_responses`. -/
def drainEngineResponses : ℕ → List ℕ → EventLoop → Except Fault EventLoop
  | 0, _, _ => .error .endless
  | fuel + 1, turns, s => do
    let gateway ← s.gateway.engineTurns (turns.headD 0)
    let (popped, gateway) ← gateway.popResponse
    match popped with
    | none => .ok { s with gateway }
    | some (response, origin) =>
      drainEngineResponses fuel turns.tail ({ s with gateway }.route response origin)

/-- `if (keep && (event.events & EPOLLIN) != 0) keep = read_requests(...)`. -/
def readReady (s : EventLoop) (c : Connection) (calls : CallResults) (keep readable : Bool) :
    Except Fault (Bool × EventLoop) :=
  if keep && readable then do
    let (verdict, s) ← s.readRequests c calls.recvs calls.turns
    .ok (decide (verdict = .keep), s)
  else .ok (keep, s)

/-- `if (keep && (event.events & EPOLLOUT) != 0) keep = flush_output(...)`. -/
def flushReady (s : EventLoop) (fd : ℕ) (calls : CallResults) (keep writable : Bool) : Bool × EventLoop :=
  if keep && writable then
    match s.gateway.connections fd with
    | none => (keep, s)
    | some c => s.flushOutput c calls.sends
  else (keep, s)

/-- The body of the loop over the events. -/
def dispatch (s : EventLoop) (calls : CallResults) : Readiness → Except Fault EventLoop
  | .listener => .ok (s.acceptConnections calls.accepts)
  | .connection fd _ gone readable writable =>
    match s.gateway.connections fd with
    | none => .ok s
    | some c => do
      let (keep, s) ← s.readReady c calls (!gone) readable
      let (keep, s) := s.flushReady fd calls keep writable
      .ok (if keep then s else s.closeConnection fd)

/-- What `epoll_wait` may report: each descriptor once at most, only descriptors that are registered, and
room for output only where that is asked for. -/
structure Reports (s : EventLoop) (events : List Readiness) : Prop where
  length : events.length ≤ maximumEvents
  nodup : (events.filterMap Readiness.descriptor).Nodup
  registered : ∀ fd serial gone readable writable,
    .connection fd serial gone readable writable ∈ events →
      ∃ output, s.interest fd = some output ∧ (writable = true → output = true) ∧
        ∀ c, s.gateway.connections fd = some c → c.serial = serial

/-- **A step**: an iteration begins, an event is handled, or the engine thread executes a statement. -/
inductive Step : EventLoop → EventLoop → Prop
  | wait {s s' : EventLoop} (fuel : ℕ) (turns : List ℕ) (events : List Readiness) (h : s.events = [])
    (hdrain : drainEngineResponses fuel turns s = .ok s') (hreports : s'.Reports events) :
    Step s { s' with events }
  | dispatch {s s' : EventLoop} {e : Readiness} {rest : List Readiness} (calls : CallResults)
    (h : s.events = e :: rest)
    (hfresh : e = .listener → TcpGateway.FreshDescriptors s.gateway calls.accepts)
    (hd : { s with events := rest }.dispatch calls e = .ok s') : Step s s'
  | engine {s : EventLoop} {gateway : TcpGateway} (h : s.gateway.engineTurn = .ok gateway) :
    Step s { s with gateway }

/-- The states of the loop. -/
inductive Runs : EventLoop → Prop
  | start {g : TcpGateway} (h : TcpGateway.new = .ok g) : Runs { gateway := g }
  | step {s s' : EventLoop} (h : Runs s) (hs : Step s s') : Runs s'

end EventLoop

/-! ## Reading stays with its connection -/

namespace TcpGateway

theorem Untouched.trans {g g' g'' : TcpGateway} (h : Untouched g g') (h' : Untouched g' g'') :
    Untouched g g'' :=
  ⟨h'.connections.trans h.connections, h'.sessionToFd.trans h.sessionToFd,
    h'.accepted.trans h.accepted, h'.delivered.trans h.delivered⟩

theorem engineTurns_frame {g g' : TcpGateway} {n : ℕ} (h : g.engineTurns n = .ok g') :
    Untouched g g' := by
  induction n generalizing g with
  | zero =>
    cases h
    exact ⟨rfl, rfl, rfl, rfl⟩
  | succ n ih =>
    obtain ⟨g₁, hturn, hrest⟩ := bind_eq_ok.mp h
    exact (engineTurn_frame hturn).1.trans (ih hrest)

/-- The other connections are not touched. -/
structure Reading.Stays (x x' : Reading) : Prop where
  fd : x'.connection.fd = x.connection.fd
  serial : x'.connection.serial = x.connection.serial
  connections : x'.gateway.connections = x.gateway.connections

namespace Reading

variable {x x' : Reading} {request : Request} {turns : ℕ} {verdict : ReadVerdict}

theorem Stays.trans {x'' : Reading} (h : Stays x x') (h' : Stays x' x'') : Stays x x'' :=
  ⟨h'.fd.trans h.fd, h'.serial.trans h.serial, h'.connections.trans h.connections⟩

theorem reject_stays (x : Reading) (request : Request) (reason : RejectReason) :
    Stays x (x.reject request reason).2 :=
  have h := x.reject_same request reason
  ⟨h.fd, h.serial, rfl⟩

theorem forward_stays (h : x.forward request turns = .ok (verdict, x')) : Stays x x' := by
  obtain ⟨g₁, hturns, h⟩ := bind_eq_ok.mp h
  obtain ⟨⟨pushed, g₂⟩, hpush, h⟩ := bind_eq_ok.mp h
  have hconnections : g₂.connections = x.gateway.connections :=
    ((engineTurns_frame hturns).trans (pushRequest_frame hpush).1).connections
  cases pushed with
  | true =>
    cases h
    exact ⟨rfl, rfl, hconnections⟩
  | false =>
    have hx' : _ = x' := congrArg Prod.snd (Except.ok.inj h)
    have hreject := reject_stays { x with gateway := g₂ } request .gatewayBackpressure
    exact hx' ▸ ⟨hreject.fd, hreject.serial, hreject.connections.trans hconnections⟩

theorem check_stays {v : SessionValidator} (h : x.check v request turns = .ok (verdict, x')) :
    Stays x x' := by
  rw [check] at h
  have hadvance : Stays x (x.advance (v.validateAndAdvance request).2 request) := ⟨rfl, rfl, rfl⟩
  dsimp only at h
  split_ifs at h
  · have hx' : _ = x' := congrArg Prod.snd (Except.ok.inj h)
    exact hx' ▸ hadvance.trans (reject_stays ..)
  · exact hadvance.trans (forward_stays h)

theorem handle_stays (h : x.handle request turns = .ok (verdict, x')) : Stays x x' := by
  rw [handle, bindSession] at h
  cases hv : x.connection.validator with
  | some v =>
    rw [hv] at h
    exact check_stays h
  | none =>
    rw [hv] at h
    dsimp only at h
    split_ifs at h
    · cases h
      exact ⟨rfl, rfl, rfl⟩
    · have hclaim : Stays x (x.claim request.sessionId) := ⟨rfl, rfl, rfl⟩
      exact hclaim.trans (check_stays h)

end Reading

end TcpGateway

/-! ## The calls and their registrations -/

theorem updateInterest_update (interest : Interest) (c : Connection) (output : Bool) :
    updateInterest (Function.update interest c.fd (some output)) c =
      Function.update interest c.fd (some c.hasOutput) := by
  simp [updateInterest]

namespace Polling

variable {x : Polling} {y : Reading} {interest : Interest} {verdict : ReadVerdict}

/-- The connection that is read from is registered for what it has to send. -/
def Watches (interest : Interest) (x : Polling) : Prop :=
  x.interest = Function.update interest x.reading.connection.fd (some x.reading.connection.hasOutput)

theorem handle_watches {request : Request} {turns : ℕ} (hw : x.Watches interest)
    (h : x.reading.handle request turns = .ok (verdict, y)) :
    ∃ i, x.handle request turns = .ok (verdict, ⟨y, i⟩) ∧ Watches interest ⟨y, i⟩ := by
  refine ⟨_, bind_eq_ok.mpr ⟨_, h, rfl⟩, ?_⟩
  have hfd := (Reading.handle_stays h).fd
  unfold Watches at hw ⊢
  dsimp only
  split_ifs with hsame
  · rw [hw, hfd, Connection.hasOutput, Connection.hasOutput, hsame]
  · rw [hw, ← hfd, updateInterest_update]

/-- **The decode loop keeps the registration up to date.** -/
theorem decodeLoop_watches {fuel : ℕ} {turns : List ℕ} (hw : x.Watches interest)
    (h : Reading.decodeLoop fuel turns x.reading = .ok (verdict, y)) :
    ∃ i, decodeLoop fuel turns x = .ok (verdict, ⟨y, i⟩) ∧ Watches interest ⟨y, i⟩ ∧
      x.reading.Stays y := by
  induction fuel generalizing x turns with
  | zero => cases h
  | succ fuel ih =>
    have hself : x.reading.Stays x.reading := ⟨rfl, rfl, rfl⟩
    rw [Reading.decodeLoop] at h
    rw [decodeLoop]
    split_ifs at h ⊢ with hmore
    · obtain ⟨decoded, hdec, h⟩ := bind_eq_ok.mp h
      rw [hdec]
      dsimp only [bind, Except.bind]
      split_ifs at h ⊢ with hneed hok
      · cases h
        exact ⟨_, rfl, hw, hself⟩
      · cases h
        exact ⟨_, rfl, hw, hself⟩
      · obtain ⟨⟨v, z⟩, hhandle, h⟩ := bind_eq_ok.mp h
        obtain ⟨i, hx, hz⟩ := handle_watches hw hhandle
        have hstays := Reading.handle_stays hhandle
        rw [hx]
        dsimp only at h ⊢
        split_ifs at h ⊢ with hkeep
        · cases h
          exact ⟨i, rfl, hz, hstays⟩
        · obtain ⟨i', hrest, hy, hstays'⟩ := ih
            (x := ⟨{ z with consumed := z.consumed + decoded.bytesConsumed }, i⟩) hz h
          exact ⟨i', hrest, hy, hstays.trans ⟨hstays'.fd, hstays'.serial, hstays'.connections⟩⟩
    · cases h
      exact ⟨_, rfl, hw, hself⟩

end Polling

namespace EventLoop

open TcpGateway (Reaches Keyed Consistent)

variable {s s' : EventLoop} {c : Connection}

/-- **What is registered**: the open connections, for output if they have something to send. -/
def Armed (s : EventLoop) : Prop :=
  s.interest = Option.map Connection.hasOutput ∘ s.gateway.connections

theorem Armed.at (h : s.Armed) {fd : ℕ} (hc : s.gateway.connections fd = some c) :
    s.interest fd = some c.hasOutput := by
  rw [h, Function.comp_apply, hc, Option.map_some]

theorem Armed.update (h : s.Armed) (fd : ℕ) {o : Option Connection}
    (hinterest : s'.interest = Function.update s.interest fd (o.map Connection.hasOutput))
    (hconnections : s'.gateway.connections = Function.update s.gateway.connections fd o) : s'.Armed := by
  rw [Armed, hinterest, hconnections, h, Function.comp_update]

theorem readRequests_eq {results : List RecvResult} {turns : List ℕ} {verdict : ReadVerdict}
    {x : Reading} (h : s.Armed) (hc : s.gateway.connections c.fd = some c)
    (hx : s.gateway.readRequests c results turns = .ok (verdict, x)) :
    s.readRequests c results turns = .ok (verdict, { s with
        gateway := x.gateway.store x.connection
        interest := Function.update s.interest c.fd (some x.connection.hasOutput) }) ∧
      x.connection.fd = c.fd ∧ x.gateway.connections = s.gateway.connections := by
  have hfirst : Polling.Watches s.interest ⟨s.gateway.reading c results, s.interest⟩ := by
    change s.interest = Function.update s.interest c.fd (some c.hasOutput)
    rw [← h.at hc, Function.update_eq_self]
  -- Whatever ends the call, the variables it leaves watch the connection.
  have hcommit : ∀ y i, Polling.Watches s.interest ⟨y, i⟩ → y.connection.fd = c.fd →
      s.commit ⟨y, i⟩ = { s with
        gateway := y.gateway.store y.connection
        interest := Function.update s.interest c.fd (some y.connection.hasOutput) } := by
    intro y i hy hfd
    rw [← hfd, ← show i = _ from hy]
    rfl
  unfold readRequests
  rcases TcpGateway.readRequests_cases hx with ⟨hend, rfl, rfl⟩ | ⟨hend, v, y, hloop, hrest⟩
  · refine ⟨?_, rfl, rfl⟩
    dsimp only
    rw [if_pos hend]
    exact congrArg (fun t => Except.ok (_, t)) (hcommit _ _ hfirst rfl)
  obtain ⟨i, hpolled, hwatch, hstays⟩ := Polling.decodeLoop_watches hfirst hloop
  dsimp only
  rw [if_neg (not_not.mpr hend)]
  rcases hrest with ⟨hv, rfl, rfl⟩ | ⟨hv, rfl, rfl⟩
  · refine ⟨bind_eq_ok.mpr ⟨_, hpolled, ?_⟩, hstays.fd, hstays.connections⟩
    dsimp only
    rw [if_pos hv, hcommit _ _ hwatch hstays.fd]
  · refine ⟨bind_eq_ok.mpr ⟨_, hpolled, ?_⟩, hstays.fd, hstays.connections⟩
    dsimp only
    rw [if_neg (not_not.mpr hv)]
    exact congrArg (fun t => Except.ok (_, t)) (hcommit y.compact i hwatch hstays.fd)

/-- What handling the event of an open connection does: only its own entries are changed. -/
structure Handles (fd : ℕ) (s s' : EventLoop) : Prop where
  reaches : Reaches (fun _ _ => True) s'.gateway
  interest : ∀ i, Function.update s'.interest fd i = Function.update s.interest fd i
  connections : ∃ c, s'.gateway.connections = Function.update s.gateway.connections fd (some c)
  events : s'.events = s.events

theorem Handles.refl {fd : ℕ} (hr : Reaches (fun _ _ => True) s.gateway)
    (hc : s.gateway.connections fd = some c) : Handles fd s s :=
  ⟨hr, fun _ => rfl, ⟨c, by rw [← hc, Function.update_eq_self]⟩, rfl⟩

theorem Handles.live {fd : ℕ} (h : Handles fd s s') : ∃ c, s'.gateway.connections fd = some c := by
  obtain ⟨c, hc⟩ := h.connections
  exact ⟨c, by rw [hc, Function.update_self]⟩

theorem Handles.trans {fd : ℕ} {s'' : EventLoop} (h : Handles fd s s') (h' : Handles fd s' s'') :
    Handles fd s s'' := by
  obtain ⟨c, hc⟩ := h.connections
  obtain ⟨c', hc'⟩ := h'.connections
  exact ⟨h'.reaches, fun i => (h'.interest i).trans (h.interest i),
    ⟨c', by rw [hc', hc, Function.update_idem]⟩, h'.events.trans h.events⟩

/-- **Reading returns**, and keeps what is registered. -/
theorem readRequests_handles (hr : Reaches (fun _ _ => True) s.gateway) (h : s.Armed)
    (hc : s.gateway.connections c.fd = some c) (results : List RecvResult) (turns : List ℕ) :
    ∃ verdict s', s.readRequests c results turns = .ok (verdict, s') ∧ s'.Armed ∧
      Handles c.fd s s' := by
  obtain ⟨b₀, hexact⟩ := hr.sound.exact
  obtain ⟨verdict, x, hx⟩ := TcpGateway.readRequests_isOk hexact c results turns
  obtain ⟨hread, hfd, hconnections⟩ := readRequests_eq h hc hx
  have hstore : (x.gateway.store x.connection).connections =
      Function.update s.gateway.connections c.fd (some x.connection) := by
    rw [TcpGateway.store, hfd, hconnections]
  have hstep : s.gateway.step (.read c.fd results turns) = .ok (x.gateway.store x.connection) := by
    simp only [TcpGateway.step, hc]
    exact bind_eq_ok.mpr ⟨_, hx, rfl⟩
  exact ⟨verdict, _, hread, h.update _ rfl hstore,
    .step (a := .read c.fd results turns) hr (fun _ _ _ _ _ _ _ => trivial) hstep,
    fun i => Function.update_idem .., ⟨_, hstore⟩, rfl⟩

theorem flushOutput_handles (hr : Reaches (fun _ _ => True) s.gateway) (h : s.Armed)
    (hc : s.gateway.connections c.fd = some c) (results : List SendResult) :
    ((s.flushOutput c results).1 = true → (s.flushOutput c results).2.Armed) ∧
      Handles c.fd s (s.flushOutput c results).2 := by
  have hfd := (TcpGateway.flushOutput_same c results).fd
  have hstore : (s.gateway.store (c.flushOutput results).2).connections =
      Function.update s.gateway.connections c.fd (some (c.flushOutput results).2) := by
    rw [TcpGateway.store, hfd]
  have hinterest : updateInterest s.interest (c.flushOutput results).2 =
      Function.update s.interest c.fd (some (c.flushOutput results).2.hasOutput) := by
    rw [updateInterest, hfd, h.at hc, Option.isSome_some, if_pos rfl]
  have hstep : s.gateway.step (.flush c.fd results) =
      .ok (s.gateway.store (c.flushOutput results).2) := by
    simp only [TcpGateway.step, hc]
  have hcall : (s.flushOutput c results).2.interest = if (c.flushOutput results).1 then
      updateInterest s.interest (c.flushOutput results).2 else s.interest := rfl
  refine ⟨fun hsent => h.update _ (o := some (c.flushOutput results).2) ?_ hstore,
    .step (a := .flush c.fd results) hr trivial hstep, fun i => ?_, ⟨_, hstore⟩, rfl⟩
  · rw [hcall, if_pos (show (c.flushOutput results).1 = true from hsent), hinterest]
    rfl
  · rw [hcall]
    split_ifs
    · rw [hinterest, Function.update_idem]
    · rfl

/-- **Closing**: whatever was done to the connection before, it is no longer registered. -/
theorem Handles.close {fd : ℕ} (harmed : s.Armed) (h : Handles fd s s') :
    (s'.closeConnection fd).Armed ∧
      Reaches (fun _ _ => True) (s'.closeConnection fd).gateway ∧
      (s'.closeConnection fd).gateway.connections = Function.update s.gateway.connections fd none := by
  obtain ⟨c, hlive⟩ := h.live
  obtain ⟨c', hc'⟩ := h.connections
  have hconnections : (s'.closeConnection fd).gateway.connections =
      Function.update s.gateway.connections fd none := by
    simp only [closeConnection, TcpGateway.closeConnection, hlive]
    rw [hc', Function.update_idem]
  refine ⟨harmed.update fd (o := none) ?_ hconnections, .step (a := .close fd) h.reaches trivial rfl,
    hconnections⟩
  change (if (s'.gateway.connections fd).isSome then _ else _) = _
  rw [hlive, Option.isSome_some, if_pos rfl, h.interest]
  rfl

theorem route_gateway (s : EventLoop) (r : GatewayResponse) (origin : ℕ) :
    (s.route r origin).gateway = s.gateway.route r origin ∧ (s.route r origin).events = s.events := by
  unfold route TcpGateway.route
  cases s.gateway.sessionToFd r.sessionId with
  | none => exact ⟨rfl, rfl⟩
  | some fd =>
    dsimp only
    cases s.gateway.connections fd with
    | none => exact ⟨rfl, rfl⟩
    | some c =>
      dsimp only
      split_ifs
      · exact ⟨rfl, rfl⟩
      · exact ⟨rfl, rfl⟩

theorem route_armed (hkey : Keyed s.gateway) (h : s.Armed) (r : GatewayResponse) (origin : ℕ) :
    (s.route r origin).Armed := by
  unfold route
  cases hfd : s.gateway.sessionToFd r.sessionId with
  | none => exact h
  | some fd =>
    dsimp only
    cases hc : s.gateway.connections fd with
    | none => simpa [Armed, closeConnection, TcpGateway.closeConnection, hc] using h
    | some c =>
      obtain rfl := hkey fd c hc
      dsimp only
      generalize hqueue : c.queueResponse ⟨r.sessionId, r.clientSequence, r.event⟩ = queue
      have hsame : TcpGateway.Same c queue.2 := hqueue ▸ TcpGateway.queueResponse_same ..
      have hstore : (s.gateway.store queue.2).connections =
          Function.update s.gateway.connections c.fd (some queue.2) := by
        rw [TcpGateway.store, hsame.fd]
      split_ifs
      · refine h.update _ (o := some queue.2) ?_ hstore
        change updateInterest s.interest queue.2 = _
        rw [updateInterest, hsame.fd, h.at hc, Option.isSome_some, if_pos rfl]
        rfl
      · have hlive : (s.gateway.store queue.2).connections c.fd = some queue.2 := by
          rw [hstore, Function.update_self]
        refine h.update c.fd (o := none) ?_ ?_
        · change (if ((s.gateway.store queue.2).connections c.fd).isSome then _ else _) = _
          rw [hlive, Option.isSome_some, if_pos rfl]
          rfl
        · simp only [closeConnection, TcpGateway.closeConnection, hlive]
          rw [hstore, Function.update_idem]

theorem drainEngineResponses_gateway (fuel : ℕ) (turns : List ℕ) (s : EventLoop) :
    (drainEngineResponses fuel turns s).map gateway =
      TcpGateway.drainEngineResponses fuel turns s.gateway := by
  induction fuel generalizing s turns with
  | zero => rfl
  | succ fuel ih =>
    rw [drainEngineResponses, TcpGateway.drainEngineResponses]
    cases s.gateway.engineTurns (turns.headD 0) with
    | error f => rfl
    | ok g₁ =>
      dsimp only [bind, Except.bind]
      cases g₁.popResponse with
      | error f => rfl
      | ok p =>
        obtain ⟨popped, g₂⟩ := p
        cases popped with
        | none => rfl
        | some popped =>
          dsimp only
          rw [ih, (route_gateway _ popped.1 popped.2).1]

theorem drainEngineResponses_armed {fuel : ℕ} {turns : List ℕ} (hcons : Consistent s.gateway)
    (h : s.Armed) (hdrain : drainEngineResponses fuel turns s = .ok s') : s'.Armed := by
  induction fuel generalizing s turns with
  | zero => cases hdrain
  | succ fuel ih =>
    obtain ⟨g₁, hturns, hdrain⟩ := bind_eq_ok.mp hdrain
    obtain ⟨⟨popped, g₂⟩, hpop, hdrain⟩ := bind_eq_ok.mp hdrain
    have huntouched := (TcpGateway.engineTurns_frame hturns).trans (TcpGateway.popResponse_frame hpop).1
    have hcons₂ := hcons.untouched huntouched
    have harmed : Armed { s with gateway := g₂ } := by
      rw [Armed, huntouched.connections]
      exact h
    cases popped with
    | none =>
      cases hdrain
      exact harmed
    | some popped =>
      refine ih ?_ (route_armed (s := { s with gateway := g₂ }) hcons₂.keyed harmed popped.1 popped.2)
        hdrain
      rw [(route_gateway _ popped.1 popped.2).1]
      exact hcons₂.route popped.1 popped.2

theorem acceptConnections_armed {results : List AcceptResult} (h : s.Armed)
    (hfresh : TcpGateway.FreshDescriptors s.gateway results) :
    (s.acceptConnections results).gateway = s.gateway.acceptConnections results ∧
      (s.acceptConnections results).Armed ∧
      (s.acceptConnections results).events = s.events ∧
      ∀ fd c, s.gateway.connections fd = some c →
        (s.acceptConnections results).gateway.connections fd = some c := by
  induction results generalizing s with
  | nil => exact ⟨rfl, h, rfl, fun _ _ hc => hc⟩
  | cons result results ih =>
    obtain ⟨hfree, hfresh⟩ := hfresh
    have hone : (s.acceptOne result).Armed ∧ ∀ fd c, s.gateway.connections fd = some c →
        (s.acceptOne result).gateway.connections fd = some c := by
      unfold acceptOne TcpGateway.acceptOne
      cases result.nonblocking with
      | false => exact ⟨h, fun _ _ hc => hc⟩
      | true =>
        cases result.registered with
        | false => exact ⟨h, fun _ _ hc => hc⟩
        | true =>
          refine ⟨h.update _ (o := some { fd := result.fd, serial := s.gateway.accepted }) rfl ?_,
            fun fd c hc => ?_⟩
          · simp [emplace, hfree]
          · have hne : fd ≠ result.fd := by
              rintro rfl
              cases hfree.symm.trans hc
            simpa [emplace, hfree, hne] using hc
    obtain ⟨hgateway, harmed, hevents, hkeeps⟩ := ih hone.1 hfresh
    exact ⟨hgateway, harmed, hevents, fun fd c hc => hkeeps fd c (hone.2 fd c hc)⟩

theorem readReady_handles (hr : Reaches (fun _ _ => True) s.gateway) (h : s.Armed)
    (hc : s.gateway.connections c.fd = some c) (calls : CallResults) (keep readable : Bool) :
    ∃ keep' s', s.readReady c calls keep readable = .ok (keep', s') ∧ s'.Armed ∧
      Handles c.fd s s' := by
  unfold readReady
  split_ifs
  · obtain ⟨verdict, s', hread, harmed, hhandles⟩ :=
      readRequests_handles hr h hc calls.recvs calls.turns
    exact ⟨_, s', bind_eq_ok.mpr ⟨_, hread, rfl⟩, harmed, hhandles⟩
  · exact ⟨_, s, rfl, h, .refl hr hc⟩

theorem flushReady_handles (hr : Reaches (fun _ _ => True) s.gateway) (h : s.Armed)
    (hc : s.gateway.connections c.fd = some c) (calls : CallResults) (keep writable : Bool) :
    ((s.flushReady c.fd calls keep writable).1 = true →
        (s.flushReady c.fd calls keep writable).2.Armed) ∧
      Handles c.fd s (s.flushReady c.fd calls keep writable).2 := by
  unfold flushReady
  split_ifs
  · rw [hc]
    exact flushOutput_handles hr h hc calls.sends
  · exact ⟨fun _ => h, .refl hr hc⟩

theorem dispatch_connection (calls : CallResults) (fd serial : ℕ) (gone readable writable : Bool)
    (hr : Reaches (fun _ _ => True) s.gateway) (h : s.Armed) :
    ∃ s', s.dispatch calls (.connection fd serial gone readable writable) = .ok s' ∧
      Reaches (fun _ _ => True) s'.gateway ∧ s'.Armed ∧ s'.events = s.events ∧
      ∀ fd', fd' ≠ fd → s'.gateway.connections fd' = s.gateway.connections fd' := by
  cases hc : s.gateway.connections fd with
  | none => exact ⟨s, by simp only [dispatch, hc], hr, h, rfl, fun _ _ => rfl⟩
  | some c =>
    obtain rfl := hr.sound.consistent.keyed fd c hc
    obtain ⟨keep, s₁, hread, harmed₁, h₁⟩ := readReady_handles hr h hc calls (!gone) readable
    obtain ⟨c₁, hc₁⟩ := h₁.live
    have hfd : c₁.fd = c.fd := h₁.reaches.sound.consistent.keyed _ _ hc₁
    obtain ⟨harmed₂, h₂⟩ := flushReady_handles h₁.reaches harmed₁ (hfd.symm ▸ hc₁) calls keep writable
    rw [hfd] at harmed₂ h₂
    have hboth := h₁.trans h₂
    have hdispatch : s.dispatch calls (.connection c.fd serial gone readable writable) = .ok
        (if (s₁.flushReady c.fd calls keep writable).1 then
          (s₁.flushReady c.fd calls keep writable).2
        else (s₁.flushReady c.fd calls keep writable).2.closeConnection c.fd) := by
      simp only [dispatch, hc]
      exact bind_eq_ok.mpr ⟨_, hread, rfl⟩
    refine ⟨_, hdispatch, ?_⟩
    obtain ⟨c₂, hc₂⟩ := hboth.connections
    split_ifs with hkeep
    · exact ⟨h₂.reaches, harmed₂ hkeep, hboth.events, fun fd' hne => by
        rw [hc₂, Function.update_of_ne hne]⟩
    · obtain ⟨harmed, hreach, hconnections⟩ := hboth.close h
      exact ⟨hreach, harmed, hboth.events, fun fd' hne => by
        rw [hconnections, Function.update_of_ne hne]⟩

/-- Every event still to be handled is of the connection that now has its descriptor. -/
structure Fresh (s : EventLoop) : Prop where
  nodup : (s.events.filterMap Readiness.descriptor).Nodup
  owner : ∀ fd serial gone readable writable, .connection fd serial gone readable writable ∈ s.events →
    ∃ c, s.gateway.connections fd = some c ∧ c.serial = serial

/-- **The invariant of the loop.** -/
structure Safe (s : EventLoop) : Prop where
  reaches : Reaches (fun _ _ => True) s.gateway
  armed : s.Armed
  fresh : s.Fresh

theorem Safe.start {g : TcpGateway} (h : TcpGateway.new = .ok g) : Safe { gateway := g } := by
  refine ⟨.new h, ?_, List.nodup_nil, fun _ _ _ _ _ he => absurd he List.not_mem_nil⟩
  obtain ⟨book, -, hnew⟩ := bind_eq_ok.mp h
  obtain ⟨requests, -, hnew⟩ := bind_eq_ok.mp hnew
  obtain ⟨responses, -, hnew⟩ := bind_eq_ok.mp hnew
  cases hnew
  rfl

theorem Reports.fresh {events : List Readiness} (h : s.Reports events) (harmed : s.Armed) :
    Fresh { s with events } := by
  refine ⟨h.nodup, fun fd serial gone readable writable he => ?_⟩
  obtain ⟨output, hinterest, -, hserial⟩ := h.registered _ _ _ _ _ he
  rw [harmed, Function.comp_apply, Option.map_eq_some_iff] at hinterest
  obtain ⟨c, hc, -⟩ := hinterest
  exact ⟨c, hc, hserial c hc⟩

theorem Fresh.tail {e : Readiness} {rest : List Readiness} (h : s.Fresh) (he : s.events = e :: rest)
    (hevents : s'.events = rest)
    (hkeeps : ∀ fd c, e.descriptor ≠ some fd → s.gateway.connections fd = some c →
      s'.gateway.connections fd = some c) : s'.Fresh := by
  obtain ⟨hnodup, howner⟩ := h
  rw [he] at hnodup howner
  refine ⟨?_, fun fd serial gone readable writable hmem => ?_⟩
  · rw [hevents]
    exact hnodup.sublist ((List.sublist_cons_self e rest).filterMap _)
  · rw [hevents] at hmem
    obtain ⟨c, hc, hserial⟩ := howner _ _ _ _ _ (List.mem_cons_of_mem _ hmem)
    refine ⟨c, hkeeps fd c (fun hfd => ?_) hc, hserial⟩
    rw [List.filterMap_cons_some hfd] at hnodup
    exact (List.nodup_cons.mp hnodup).1 (List.mem_filterMap.mpr ⟨_, hmem, rfl⟩)

theorem Safe.dispatch {e : Readiness} {rest : List Readiness} (h : Safe s) (he : s.events = e :: rest)
    (calls : CallResults)
    (hfresh : e = .listener → TcpGateway.FreshDescriptors s.gateway calls.accepts) :
    ∃ s', { s with events := rest }.dispatch calls e = .ok s' ∧ Safe s' := by
  cases e with
  | listener =>
    obtain ⟨hgateway, harmed, hevents, hkeeps⟩ := acceptConnections_armed
      (s := { s with events := rest }) h.armed (hfresh rfl)
    refine ⟨_, rfl, ?_, harmed, h.fresh.tail he hevents fun fd c _ hc => hkeeps fd c hc⟩
    rw [hgateway]
    exact .step (a := .accept calls.accepts) h.reaches (hfresh rfl) rfl
  | connection fd serial gone readable writable =>
    obtain ⟨s', hs', hreach, harmed, hevents, hkeeps⟩ :=
      dispatch_connection (s := { s with events := rest }) calls fd serial gone readable writable
        h.reaches h.armed
    refine ⟨s', hs', hreach, harmed, h.fresh.tail he hevents fun fd' c hne hc => ?_⟩
    rw [hkeeps fd' fun heq => hne (heq ▸ rfl)]
    exact hc

theorem Safe.drain (h : Safe s) :
    (∀ turns, ∃ fuel s', drainEngineResponses fuel turns s = .ok s') ∧
      ∀ fuel turns s', drainEngineResponses fuel turns s = .ok s' →
        Reaches (fun _ _ => True) s'.gateway ∧ s'.Armed := by
  refine ⟨fun turns => ?_, fun fuel turns s' hdrain => ⟨?_, ?_⟩⟩
  · obtain ⟨b₀, hexact⟩ := h.reaches.sound.exact
    obtain ⟨fuel, g', hg'⟩ := TcpGateway.drainEngineResponses_isOk hexact turns
    rw [← drainEngineResponses_gateway] at hg'
    cases hs' : drainEngineResponses fuel turns s with
    | error f =>
      rw [hs'] at hg'
      cases hg'
    | ok s' => exact ⟨fuel, s', hs'⟩
  · refine .step (a := .drain fuel turns) h.reaches trivial ?_
    rw [TcpGateway.step, ← drainEngineResponses_gateway, hdrain]
    rfl
  · exact drainEngineResponses_armed h.reaches.sound.consistent h.armed hdrain

theorem Safe.step (h : Safe s) (hs : Step s s') : Safe s' := by
  cases hs with
  | wait fuel turns events hnone hdrain hreports =>
    obtain ⟨hreach, harmed⟩ := h.drain.2 fuel turns _ hdrain
    exact ⟨hreach, harmed, hreports.fresh harmed⟩
  | dispatch calls he hfresh hd =>
    obtain ⟨s₁, hs₁, hsafe⟩ := h.dispatch he calls hfresh
    cases hs₁.symm.trans hd
    exact hsafe
  | engine hturn =>
    have hconnections := (TcpGateway.engineTurn_frame hturn).1.connections
    refine ⟨.step (a := .engine) h.reaches trivial hturn, ?_, h.fresh.nodup, ?_⟩
    · rw [Armed, hconnections]
      exact h.armed
    · rw [hconnections]
      exact h.fresh.owner

theorem Runs.safe (h : Runs s) : Safe s := by
  induction h with
  | start h => exact .start h
  | step _ hs ih => exact ih.step hs

/-- **The event loop is safe.** In every state of the loop, with whatever the system calls return and
however the engine thread proceeds: the gateway is in a state its calls can reach; exactly the open
connections are registered, for output exactly if they have something to send; every event still to be
handled is for the connection that was reported; handling it returns, and so does draining. -/
theorem event_loop_safe (h : Runs s) :
    Reaches (fun _ _ => True) s.gateway ∧
      (∀ fd, s.interest fd = (s.gateway.connections fd).map fun c => decide (c.transmit ≠ [])) ∧
      (∀ fd serial gone readable writable,
        .connection fd serial gone readable writable ∈ s.events →
          ∃ c, s.gateway.connections fd = some c ∧ c.serial = serial) ∧
      (∀ e rest calls, s.events = e :: rest →
        (e = .listener → TcpGateway.FreshDescriptors s.gateway calls.accepts) →
        ∃ s', { s with events := rest }.dispatch calls e = .ok s') ∧
      ∀ turns, ∃ fuel s', drainEngineResponses fuel turns s = .ok s' := by
  refine ⟨h.safe.reaches, fun fd => ?_, h.safe.fresh.owner, fun e rest calls he hfresh => ?_,
    h.safe.drain.1⟩
  · rw [h.safe.armed, Function.comp_apply]
    congr 1
    funext c
    rw [Connection.hasOutput]
    cases c.transmit with
    | nil => rfl
    | cons byte rest => rfl
  · obtain ⟨s', hs', -⟩ := h.safe.dispatch he calls hfresh
    exact ⟨s', hs'⟩

theorem drainEngineResponses_idle (hwf : s.gateway.pipeline.output.WF)
    (hempty : s.gateway.pipeline.output.contents = []) :
    ∃ g', drainEngineResponses 1 [] s = .ok { s with gateway := g' } ∧
      TcpGateway.Untouched s.gateway g' ∧ g'.pipeline.output = s.gateway.pipeline.output := by
  rcases hwf.tryPop with ⟨-, hpop⟩ | ⟨x, rest, output, hcons, -⟩
  · have hidle : s.gateway.popResponse = .ok (none, _) := bind_eq_ok.mpr ⟨_, hpop, rfl⟩
    exact ⟨_, bind_eq_ok.mpr ⟨_, rfl, bind_eq_ok.mpr ⟨_, hidle, rfl⟩⟩, ⟨rfl, rfl, rfl, rfl⟩, rfl⟩
  · cases hempty.symm.trans hcons

/-- A connection is accepted, and is then reported to have sent something. -/
theorem event_loop_safe_first_connection : ∃ s c, Runs s ∧
    s.events = [.connection 5 0 false true false] ∧ s.gateway.connections 5 = some c ∧
    c.serial = 0 ∧ s.interest 5 = some false := by
  obtain ⟨g, book, hstart⟩ := TcpGateway.exists_starts
  obtain ⟨hwf, hempty, -⟩ := hstart.output
  obtain ⟨g₁, hdrain, hu₁, hout₁⟩ := drainEngineResponses_idle (s := { gateway := g }) hwf hempty
  have hfree : g₁.connections 5 = none := by rw [hu₁.connections, hstart.connections]
  have hwait : Runs { gateway := g₁, events := [.listener] } :=
    .step (.start hstart.new) (.wait 1 [] [.listener] rfl hdrain
      ⟨by decide, by decide, fun _ _ _ _ _ he => by simp at he⟩)
  obtain ⟨s₂, hs₂⟩ : ∃ s₂, EventLoop.dispatch { gateway := g₁ } { accepts := [{ fd := 5 }] } .listener =
    .ok s₂ := ⟨_, rfl⟩
  have haccept : Runs s₂ :=
    .step hwait (.dispatch { accepts := [{ fd := 5 }] } rfl (fun _ => ⟨hfree, trivial⟩) hs₂)
  cases hs₂
  obtain ⟨g₃, hdrain₃, hu₃, -⟩ := drainEngineResponses_idle
    (s := EventLoop.acceptConnections { gateway := g₁ } [{ fd := 5 }])
    (by change g₁.pipeline.output.WF; rw [hout₁]; exact hwf)
    (by change g₁.pipeline.output.contents = []; rw [hout₁]; exact hempty)
  have hc₃ : g₃.connections 5 = some { fd := 5, serial := 0 } := by
    rw [hu₃.connections]
    simp [acceptConnections, acceptOne, TcpGateway.acceptOne, emplace, hfree, hu₁.accepted,
      hstart.accepted]
  have hreported : Runs {
      gateway := g₃
      interest := Function.update (fun _ => none) 5 (some false)
      events := [.connection 5 0 false true false] } := by
    refine .step haccept (.wait 1 [] _ rfl hdrain₃ ⟨by decide, by decide, ?_⟩)
    rintro fd serial gone readable writable he
    cases List.mem_singleton.mp he
    refine ⟨false, rfl, by decide, fun c hc => ?_⟩
    cases hc₃.symm.trans hc
    rfl
  obtain ⟨-, hinterest, howner, -⟩ := event_loop_safe hreported
  obtain ⟨c, hc, hserial⟩ := howner 5 0 false true false (List.mem_singleton_self _)
  exact ⟨_, c, hreported, rfl, hc, hserial, rfl⟩

end EventLoop

end Dme
