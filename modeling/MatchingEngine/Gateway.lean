import MatchingEngine.Journal
import MatchingEngine.OrderBook
import MatchingEngine.Spsc

/-!
# The gateway pipeline

`GatewayEngineRunner` of `gateway.cpp` between its two queues. A producer pushes requests, the
runner numbers them, journals them and gives them to the book, and pushes the tagged events; a
consumer pops these. Between any two of the runner's statements the other two may move.

* `GatewayEngineRunner`, `Pipeline`: the runner with its place in the loop, and the whole with the
  requests sent and taken and the responses received so far.
* `produce`, `run`, `consume`: one step of each party; `Pipeline.Step`.
* `number`, `answer`: the requests numbered from a sequence on, and the book's answers to them.
-/

set_option autoImplicit false

namespace Dme

/-- A request on its way to the engine. -/
structure GatewayRequest where
  sessionId : UInt32 := 0
  clientSequence : UInt64 := 0
  command : Command := {}
deriving DecidableEq, Repr

instance : Inhabited GatewayRequest := ⟨{}⟩

/-- A response of the engine on its way back, with the session and the client sequence of its request. -/
structure GatewayResponse where
  sessionId : UInt32 := 0
  clientSequence : UInt64 := 0
  event : Event := {}
deriving DecidableEq, Repr

instance : Inhabited GatewayResponse := ⟨{}⟩

/-- Where the runner stands in its loop. -/
inductive RunnerPc
  /-- About to pop a request. -/
  | ready
  /-- A request was popped; its sequence comes next. -/
  | popped (incoming : GatewayRequest)
  /-- The sequence is assigned; the journal comes next. -/
  | sequenced (incoming : GatewayRequest)
  /-- The command is in the journal; the book comes next. -/
  | journaled (incoming : GatewayRequest)
  /-- The book has answered; these events are still to be pushed. -/
  | publishing (incoming : GatewayRequest) (events : List Event)
deriving DecidableEq, Repr

/-- The runner: its members, and where it stands in `run`. -/
structure GatewayEngineRunner where
  book : OrderBook
  journal : Option (List JournalRecord)
  nextEngineSequence : Sequence
  pc : RunnerPc
deriving DecidableEq, Repr

/-- The constructor. -/
def GatewayEngineRunner.new (book : OrderBook) (journal : Option (List JournalRecord)) :
    GatewayEngineRunner := ⟨book, journal, book.stats.lastSequence + 1, .ready⟩

/-- The request with its engine sequence. -/
def GatewayRequest.withSequence (request : GatewayRequest) (sequence : Sequence) : GatewayRequest :=
  { request with command := { request.command with sequence } }

/-- The response to a request that carries an event. -/
def GatewayRequest.response (request : GatewayRequest) (event : Event) : GatewayResponse :=
  ⟨request.sessionId, request.clientSequence, event⟩

/-- The runner between its queues, with what the three parties have done so far. -/
structure Pipeline where
  input : SpscQueue GatewayRequest
  output : SpscQueue GatewayResponse
  runner : GatewayEngineRunner
  sent : List GatewayRequest
  taken : List GatewayRequest
  received : List GatewayResponse
deriving DecidableEq, Repr

namespace Pipeline

/-- The pipeline before anything has happened. -/
def start (book : OrderBook) (journal : Option (List JournalRecord))
    (input : SpscQueue GatewayRequest) (output : SpscQueue GatewayResponse) : Pipeline :=
  ⟨input, output, .new book journal, [], [], []⟩

/-- The producer tries to push a request. -/
def produce (p : Pipeline) (request : GatewayRequest) : Except Fault Pipeline := do
  let (pushed, input) ← p.input.tryPush request
  .ok (if pushed then { p with input, sent := p.sent ++ [request] } else { p with input })

/-- The consumer tries to pop a response. -/
def consume (p : Pipeline) : Except Fault Pipeline := do
  let (response, output) ← p.output.tryPop
  .ok { p with output, received := p.received ++ response.toList }

/-- The runner executes its next statement; a full or an empty queue leaves it where it is. -/
def run (bytes : Command → List UInt8) (p : Pipeline) : Except Fault Pipeline :=
  match p.runner.pc with
  | .ready => do
    let (popped, input) ← p.input.tryPop
    match popped with
    | none => .ok { p with input }
    | some incoming =>
      .ok { p with
        input
        runner := { p.runner with pc := .popped incoming }
        taken := p.taken ++ [incoming] }
  | .popped incoming =>
    .ok { p with runner := { p.runner with
      nextEngineSequence := p.runner.nextEngineSequence + 1
      pc := .sequenced (incoming.withSequence p.runner.nextEngineSequence) } }
  | .sequenced incoming =>
    .ok { p with runner := { p.runner with
      journal := p.runner.journal.map fun j => appendRecord bytes j incoming.command
      pc := .journaled incoming } }
  | .journaled incoming => do
    let (book, events) ← p.runner.book.process incoming.command []
    .ok { p with runner := { p.runner with book, pc := .publishing incoming events } }
  | .publishing _ [] => .ok { p with runner := { p.runner with pc := .ready } }
  | .publishing incoming (event :: events) => do
    let (pushed, output) ← p.output.tryPush (incoming.response event)
    .ok (if pushed then
      { p with output, runner := { p.runner with pc := .publishing incoming events } }
      else { p with output })

/-- **One step of one party.** -/
inductive Step (bytes : Command → List UInt8) : Pipeline → Pipeline → Prop
  | produce {p p' : Pipeline} (request : GatewayRequest) (h : p.produce request = .ok p') :
    Step bytes p p'
  | run {p p' : Pipeline} (h : p.run bytes = .ok p') : Step bytes p p'
  | consume {p p' : Pipeline} (h : p.consume = .ok p') : Step bytes p p'

/-- The events of the command in work that are not pushed yet; before the book has answered, all of
its events. -/
def pending (p : Pipeline) : List GatewayResponse :=
  let answer (incoming : GatewayRequest) : List GatewayResponse :=
    match p.runner.book.process incoming.command [] with
    | .ok (_, events) => events.map incoming.response
    | .error _ => []
  match p.runner.pc with
  | .ready => []
  | .popped incoming => answer (incoming.withSequence p.runner.nextEngineSequence)
  | .sequenced incoming => answer incoming
  | .journaled incoming => answer incoming
  | .publishing incoming events => events.map incoming.response

/-- The command in work, while it is popped and not journaled yet. -/
def unjournaled (p : Pipeline) : List Command :=
  match p.runner.pc with
  | .popped incoming => [(incoming.withSequence p.runner.nextEngineSequence).command]
  | .sequenced incoming => [incoming.command]
  | _ => []

end Pipeline

/-- The requests with the sequences from `next` on. -/
def number (next : Sequence) : List GatewayRequest → List GatewayRequest
  | [] => []
  | request :: requests => request.withSequence next :: number (next + 1) requests

/-- **The answers of a book to requests one after another**, each event tagged with its request. -/
def answer (book : OrderBook) :
    List GatewayRequest → Except Fault (OrderBook × List GatewayResponse)
  | [] => .ok (book, [])
  | request :: requests => do
    let (book, events) ← book.process request.command []
    let (book, responses) ← answer book requests
    .ok (book, events.map request.response ++ responses)

end Dme
