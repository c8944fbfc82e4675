import MatchingEngine.Gateway
import MatchingEngine.Protocol

/-!
# The TCP gateway

`SessionValidator` of `gateway.cpp` and `TcpGateway` of `apps/gateway.cpp`. The operating system's part
is given with each call: what `accept4`, `recv` and `send` return one after the other, until they would
block. While the gateway thread is in a call the engine thread may move; `turns` says how many
statements it executes before each access of the gateway thread to a queue.

* `SessionValidator.validateAndAdvance`, `gatewayRejection`.
* `Connection`, `queueResponse`, `flushOutput`; `TcpGateway`, `readRequests`, `drainEngineResponses`,
  `closeConnection`, `acceptConnections`.
* `ReadVerdict`: which `return` of `read_requests` was taken.
* `Action`, `step`: one call, or one statement of the engine thread.

`serial`, `accepted`, `origins`, `delivered` and `handed` are history: the source has no such variables,
and nothing else depends on them.
-/

set_option autoImplicit false

namespace Dme

open Protocol (Request Response)

/-! ## Sessions -/

/-- The limits of a session, with the defaults of the source. -/
structure RiskLimits where
  maximumQuantity : Quantity := 1000000
  maximumPrice : Price := 1000000000
  maximumNotional : UInt64 := 100000000000
deriving DecidableEq, Repr

/-- The validator of a session: the client sequence that comes next, and the limits. -/
structure SessionValidator where
  sessionId : UInt32
  nextSequence : UInt64 := 1
  limits : RiskLimits := {}
deriving DecidableEq, Repr

namespace SessionValidator

/-- `violates_risk`; the product is formed only where it does not wrap. -/
def violatesRisk (v : SessionValidator) (command : Command) : Bool :=
  if command.type = .cancel then false
  else if command.quantity = 0 ∨ command.quantity > v.limits.maximumQuantity then true
  else if command.orderType = .market ∧ command.type = .new then false
  else if command.price ≤ 0 ∨ command.price > v.limits.maximumPrice then true
  else
    let price := command.price.toUInt64
    if price ≠ 0 ∧ command.quantity > v.limits.maximumNotional / price then true
    else price * command.quantity > v.limits.maximumNotional

/-- `validate_and_advance`: a request that comes in its turn uses up its sequence, also if it violates the
limits. -/
def validateAndAdvance (v : SessionValidator) (request : Request) : RejectReason × SessionValidator :=
  if request.sessionId ≠ v.sessionId ∨ request.clientSequence ≠ v.nextSequence then
    (.invalidSessionSequence, v)
  else
    let v := { v with nextSequence := v.nextSequence + 1 }
    (if v.violatesRisk request.command then .riskLimit else .none, v)

end SessionValidator

/-- `gateway_rejection`: the event of a request that the gateway refuses. -/
def gatewayRejection (request : Request) (reason : RejectReason) : Event := {
  type := .rejected
  aggressorSide := request.command.side
  reason
  orderId := request.command.orderId
  price := request.command.price
  quantity := request.command.quantity }

/-! ## Connections -/

/-- The size of the receive buffer of a connection. -/
def receiveCapacity : ℕ := 64 * 1024

/-- The size of the transmit buffer of a connection. -/
def transmitCapacity : ℕ := 256 * 1024

/-- A connection. `receive` is the part of its array that has been received, `transmit` the part from
`transmit_begin` to `transmit_end`. -/
structure Connection where
  fd : ℕ
  /-- Which of the connections accepted so far this is. -/
  serial : ℕ
  sessionId : UInt32 := 0
  validator : Option SessionValidator := none
  receive : List UInt8 := []
  transmitBegin : ℕ := 0
  transmit : List UInt8 := []
deriving DecidableEq, Repr

/-- What a call of `recv` returns, if it does not block: some bytes, none of them at the end of the
stream, or an error. -/
inductive RecvResult
  | data (bytes : List UInt8)
  | interrupted
  | failed
deriving DecidableEq, Repr

/-- What a call of `send` returns, if it does not block. -/
inductive SendResult
  | sent (count : ℕ)
  | interrupted
  | failed
deriving DecidableEq, Repr

/-- Which `return` ends `read_requests`; all but the first return `false`. -/
inductive ReadVerdict
  | keep
  | endOfStream
  | socketError
  | malformed
  | sessionInUse
  | rejectionNotQueued
  | bufferFull
deriving DecidableEq, Repr

namespace Connection

/-- `transmit_end`: where the bytes still to be sent end. -/
def transmitEnd (c : Connection) : ℕ := c.transmitBegin + c.transmit.length

/-- `queue_response`, with the value it returns. -/
def queueResponse (c : Connection) (response : Response) : Bool × Connection :=
  let c := if c.transmitBegin ≠ 0 ∧ transmitCapacity - c.transmitEnd < Protocol.responseFrameSize
    then { c with transmitBegin := 0 } else c
  match Protocol.encodeResponse response (transmitCapacity - c.transmitEnd) with
  | none => (false, c)
  | some frame => (true, { c with transmit := c.transmit ++ frame })

/-- `reject`: a rejection is queued. -/
def reject (c : Connection) (request : Request) (reason : RejectReason) : Bool × Connection :=
  c.queueResponse ⟨request.sessionId, request.clientSequence, gatewayRejection request reason⟩

/-- The loop of `flush_output`, with the value it would return. -/
def flushLoop (c : Connection) : List SendResult → Bool × Connection
  | [] => (true, c)
  | result :: results =>
    if c.transmit = [] then (true, c)
    else match result with
      | .sent 0 => (false, c)
      | .sent count => { c with
          transmitBegin := c.transmitBegin + count
          transmit := c.transmit.drop count }.flushLoop results
      | .interrupted => c.flushLoop results
      | .failed => (false, c)

/-- `flush_output`, with the value it returns. -/
def flushOutput (c : Connection) (results : List SendResult) : Bool × Connection :=
  let (sent, c) := c.flushLoop results
  if sent then (true, if c.transmit = [] then { c with transmitBegin := 0 } else c) else (false, c)

end Connection

/-- The loop of `read_requests` that fills the buffer, and how it ends: `keep` when it is left. -/
def receiveLoop (receive : List UInt8) : List RecvResult → ReadVerdict × List UInt8
  | [] => (.keep, receive)
  | result :: results =>
    if receive.length < receiveCapacity then
      match result with
      | .data [] => (.endOfStream, receive)
      | .data bytes => receiveLoop (receive ++ bytes) results
      | .interrupted => receiveLoop receive results
      | .failed => (.socketError, receive)
    else (.keep, receive)

/-! ## The gateway -/

/-- Where what is in flight came from: the connections of the requests in the input queue, of the one
the runner has taken, and of those that the responses in the output queue answer. -/
structure Origins where
  requests : List ℕ := []
  current : ℕ := 0
  responses : List ℕ := []
deriving DecidableEq, Repr

/-- An engine response queued on a connection, and the connection its request was read from. -/
structure Delivery where
  connection : ℕ
  origin : ℕ
deriving DecidableEq, Repr

/-- The gateway: its connections by descriptor, the table of sessions, and the engine thread with its two
queues. The last three fields keep a record of what has happened. -/
structure TcpGateway where
  connections : ℕ → Option Connection
  sessionToFd : UInt32 → Option ℕ
  pipeline : Pipeline
  accepted : ℕ := 0
  origins : Origins := {}
  delivered : List Delivery := []

/-- The configuration of the gateway's book. -/
def gatewayBookConfig : BookConfig := ⟨9000, 11000, 1, 1000000⟩

/-- `emplace` of a map: a key that is there keeps its value. -/
def emplace {κ α : Type} [DecidableEq κ] (map : κ → Option α) (key : κ) (value : α) : κ → Option α :=
  if (map key).isSome then map else Function.update map key (some value)

namespace TcpGateway

/-- The constructor. -/
def new : Except Fault TcpGateway := do
  let book ← OrderBook.new gatewayBookConfig
  let requests ← SpscQueue.new 65536
  let responses ← SpscQueue.new 262144
  .ok {
    connections := fun _ => none
    sessionToFd := fun _ => none
    pipeline := .start book none requests responses }

/-- The connection is changed in place. -/
def store (g : TcpGateway) (c : Connection) : TcpGateway :=
  { g with connections := Function.update g.connections c.fd (some c) }

/-! ### The queues -/

/-- The origins after a statement of the runner that takes `p` to `p'`. -/
def trackTurn (origins : Origins) (p p' : Pipeline) : Origins :=
  if p'.runner.pc = p.runner.pc then origins
  else match p.runner.pc with
    | .ready => { origins with requests := origins.requests.tail, current := origins.requests.headD 0 }
    | .publishing _ (_ :: _) => { origins with responses := origins.responses ++ [origins.current] }
    | _ => origins

/-- One statement of the engine thread. -/
def engineTurn (g : TcpGateway) : Except Fault TcpGateway := do
  let pipeline ← g.pipeline.run Command.bytes
  .ok { g with pipeline, origins := trackTurn g.origins g.pipeline pipeline }

/-- Statements of the engine thread, one after another. -/
def engineTurns (g : TcpGateway) : ℕ → Except Fault TcpGateway
  | 0 => .ok g
  | turns + 1 => do
    let g ← g.engineTurn
    engineTurns g turns

/-- `requests_.try_push`, for a request of the connection `serial`. -/
def pushRequest (g : TcpGateway) (serial : ℕ) (request : GatewayRequest) :
    Except Fault (Bool × TcpGateway) := do
  let (pushed, input) ← g.pipeline.input.tryPush request
  .ok (pushed, if pushed then { g with
      pipeline := { g.pipeline with input, sent := g.pipeline.sent ++ [request] }
      origins := { g.origins with requests := g.origins.requests ++ [serial] } }
    else { g with pipeline := { g.pipeline with input } })

/-- `responses_.try_pop`, with the origin of the response. -/
def popResponse (g : TcpGateway) : Except Fault (Option (GatewayResponse × ℕ) × TcpGateway) := do
  let (response, output) ← g.pipeline.output.tryPop
  let pipeline := { g.pipeline with output, received := g.pipeline.received ++ response.toList }
  match response with
  | none => .ok (none, { g with pipeline })
  | some response => .ok (some (response, g.origins.responses.headD 0), { g with
      pipeline
      origins := { g.origins with responses := g.origins.responses.tail } })

/-! ### Reading -/

/-- The variables of `read_requests` in its decode loop; `handed` are the requests given to the session
validator. -/
structure Reading where
  gateway : TcpGateway
  connection : Connection
  consumed : ℕ := 0
  handed : List Request := []

namespace Reading

/-- The connection is bound to a session. -/
def claim (x : Reading) (session : UInt32) : Reading :=
  { x with
    connection := { x.connection with
      sessionId := session
      validator := some { sessionId := session } }
    gateway := { x.gateway with
      sessionToFd := emplace x.gateway.sessionToFd session x.connection.fd } }

/-- Binding the connection to the session of its first request, unless it has a validator; `none` if the
session is in use. -/
def bindSession (x : Reading) (request : Request) : Option (SessionValidator × Reading) :=
  match x.connection.validator with
  | some validator => some (validator, x)
  | none =>
    if (x.gateway.sessionToFd request.sessionId).isSome then none
    else some ({ sessionId := request.sessionId }, x.claim request.sessionId)

/-- Queueing a rejection, and whether the loop goes on. -/
def reject (x : Reading) (request : Request) (reason : RejectReason) : ReadVerdict × Reading :=
  let (queued, connection) := x.connection.reject request reason
  (if queued then .keep else .rejectionNotQueued, { x with connection })

/-- Pushing a request to the engine, or rejecting it when the queue is full. -/
def forward (x : Reading) (request : Request) (turns : ℕ) : Except Fault (ReadVerdict × Reading) := do
  let gateway ← x.gateway.engineTurns turns
  let (pushed, gateway) ← gateway.pushRequest x.connection.serial
    ⟨request.sessionId, request.clientSequence, request.command⟩
  if pushed then .ok (.keep, { x with gateway })
  else .ok ({ x with gateway }.reject request .gatewayBackpressure)

/-- The request has been given to the validator. -/
def advance (x : Reading) (validator : SessionValidator) (request : Request) : Reading :=
  { x with
    connection := { x.connection with validator := some validator }
    handed := x.handed ++ [request] }

/-- Giving a request to the validator, and what follows. -/
def check (x : Reading) (validator : SessionValidator) (request : Request) (turns : ℕ) :
    Except Fault (ReadVerdict × Reading) :=
  let (reason, validator) := validator.validateAndAdvance request
  let x := x.advance validator request
  if reason ≠ .none then .ok (x.reject request reason) else x.forward request turns

/-- The body of the decode loop for a decoded request. -/
def handle (x : Reading) (request : Request) (turns : ℕ) : Except Fault (ReadVerdict × Reading) :=
  match x.bindSession request with
  | none => .ok (.sessionInUse, x)
  | some (validator, x) => x.check validator request turns

/-- The decode loop. -/
def decodeLoop : ℕ → List ℕ → Reading → Except Fault (ReadVerdict × Reading)
  | 0, _, _ => .error .endless
  | fuel + 1, turns, x =>
    if x.consumed < x.connection.receive.length then do
      let decoded ← Protocol.decodeRequest (x.connection.receive.drop x.consumed)
      if decoded.status = .needMoreData then .ok (.keep, x)
      else if decoded.status ≠ .ok then .ok (.malformed, x)
      else
        let (verdict, x) ← x.handle decoded.request (turns.headD 0)
        if verdict ≠ .keep then .ok (verdict, x)
        else decodeLoop fuel turns.tail { x with consumed := x.consumed + decoded.bytesConsumed }
    else .ok (.keep, x)

/-- Moving what is left to the front of the buffer. -/
def compact (x : Reading) : Reading :=
  { x with connection := { x.connection with receive := x.connection.receive.drop x.consumed } }

end Reading

/-- `read_requests`; before each request the engine thread has some turns. -/
def readRequests (g : TcpGateway) (c : Connection) (results : List RecvResult) (turns : List ℕ) :
    Except Fault (ReadVerdict × Reading) :=
  let (received, receive) := receiveLoop c.receive results
  let x : Reading := { gateway := g, connection := { c with receive } }
  if received ≠ .keep then .ok (received, x)
  else do
    let (verdict, x) ← Reading.decodeLoop (receive.length + 1) turns x
    if verdict ≠ .keep then .ok (verdict, x)
    else
      let x := x.compact
      .ok (if x.connection.receive.length = receiveCapacity then .bufferFull else .keep, x)

/-! ### Closing, draining and accepting -/

/-- `close_connection`: the session of the connection can be bound again. -/
def closeConnection (g : TcpGateway) (fd : ℕ) : TcpGateway :=
  match g.connections fd with
  | none => g
  | some c => { g with
      sessionToFd := if c.sessionId ≠ 0 then Function.update g.sessionToFd c.sessionId none
        else g.sessionToFd
      connections := Function.update g.connections fd none }

/-- The body of the loop of `drain_engine_responses`. -/
def route (g : TcpGateway) (response : GatewayResponse) (origin : ℕ) : TcpGateway :=
  match g.sessionToFd response.sessionId with
  | none => g
  | some fd =>
    match g.connections fd with
    | none => g.closeConnection fd
    | some c =>
      let (queued, c) := c.queueResponse ⟨response.sessionId, response.clientSequence, response.event⟩
      let g := g.store c
      if queued then { g with delivered := g.delivered ++ [⟨c.serial, origin⟩] }
      else g.closeConnection fd

/-- `drain_engine_responses`; before each response the engine thread has some turns. -/
def drainEngineResponses : ℕ → List ℕ → TcpGateway → Except Fault TcpGateway
  | 0, _, _ => .error .endless
  | fuel + 1, turns, g => do
    let g ← g.engineTurns (turns.headD 0)
    let (popped, g) ← g.popResponse
    match popped with
    | none => .ok g
    | some (response, origin) => drainEngineResponses fuel turns.tail (g.route response origin)

/-- A descriptor that `accept4` returns, and whether it can be made nonblocking and be registered. -/
structure AcceptResult where
  fd : ℕ
  nonblocking : Bool := true
  registered : Bool := true
deriving DecidableEq, Repr

/-- The body of the loop of `accept_connections`. -/
def acceptOne (g : TcpGateway) (result : AcceptResult) : TcpGateway :=
  if result.nonblocking = false then g
  else if result.registered = false then g
  else { g with
    connections := emplace g.connections result.fd { fd := result.fd, serial := g.accepted }
    accepted := g.accepted + 1 }

/-- `accept_connections`, for the descriptors that `accept4` returns. -/
def acceptConnections (g : TcpGateway) (results : List AcceptResult) : TcpGateway :=
  results.foldl acceptOne g

/-! ### Steps -/

/-- A call of a member function, or a statement of the engine thread. -/
inductive Action
  | accept (results : List AcceptResult)
  | read (fd : ℕ) (results : List RecvResult) (turns : List ℕ)
  | flush (fd : ℕ) (results : List SendResult)
  | drain (fuel : ℕ) (turns : List ℕ)
  | close (fd : ℕ)
  | engine
deriving DecidableEq, Repr

/-- **One action of the gateway.** -/
def step (g : TcpGateway) : Action → Except Fault TcpGateway
  | .accept results => .ok (g.acceptConnections results)
  | .read fd results turns =>
    match g.connections fd with
    | none => .ok g
    | some c => do
      let (_, x) ← g.readRequests c results turns
      .ok (x.gateway.store x.connection)
  | .flush fd results =>
    match g.connections fd with
    | none => .ok g
    | some c => .ok (g.store (c.flushOutput results).2)
  | .drain fuel turns => drainEngineResponses fuel turns g
  | .close fd => .ok (g.closeConnection fd)
  | .engine => g.engineTurn

end TcpGateway

end Dme
