import MatchingEngine.Differential
import MatchingEngine.Liquidity
import MatchingEngine.Handling
import MatchingEngine.Routing

/-!
# The gateway as a whole

From the sockets to the book: what the gateway passes on is within its risk limits, so that what comes
out of the engine is what the reference book would say.

* **`Screened`**, `Screened.move`: the requests that were pushed are within the limits.
* `tagged`, `answer_run`: the answers of a book, and a run of the book.
* `Market.Bounded.run`, `Exact.book`, `Screened.taken`: the quantities that rest.
* **`gateway_refines_reference`**, **`gateway_liquidity_exact`**.
-/

set_option autoImplicit false

namespace Dme

/-! ## Runs of the book -/

/-- Events with the session and the client sequence of their requests. -/
def tagged (requests : List GatewayRequest) (evs : List (List Event)) : List GatewayResponse :=
  (List.zipWith (fun r events => events.map r.response) requests evs).flatten

/-- **The answers of a book are the events of a run**, with tags. -/
theorem answer_run {b b' : OrderBook} {requests : List GatewayRequest}
    {responses : List GatewayResponse} (h : answer b requests = .ok (b', responses)) :
    ∃ evs, b.run (requests.map GatewayRequest.command) = .ok (b', evs) ∧
      responses = tagged requests evs := by
  induction requests generalizing b responses with
  | nil =>
    cases h
    exact ⟨[], rfl, rfl⟩
  | cons r requests ih =>
    obtain ⟨⟨b₁, events⟩, hp, h⟩ := bind_eq_ok.mp h
    obtain ⟨⟨b₂, responses₂⟩, hrest, h⟩ := bind_eq_ok.mp h
    cases h
    obtain ⟨evs, hrun, rfl⟩ := ih hrest
    exact ⟨events :: evs, bind_eq_ok.mpr ⟨_, hp, bind_eq_ok.mpr ⟨_, hrun, rfl⟩⟩, rfl⟩

theorem length_number (next : Sequence) (requests : List GatewayRequest) :
    (number next requests).length = requests.length := by
  induction requests generalizing next with
  | nil => rfl
  | cons r requests ih => exact congrArg (· + 1) (ih (next + 1))

theorem number_quantity (next : Sequence) {requests : List GatewayRequest} {Q : ℕ}
    (h : ∀ r ∈ requests, r.command.quantity.toNat ≤ Q) :
    ∀ c ∈ (number next requests).map GatewayRequest.command, c.quantity.toNat ≤ Q := by
  induction requests generalizing next with
  | nil => simp [number]
  | cons r requests ih =>
    rw [number, List.map_cons, List.forall_mem_cons]
    exact ⟨h r List.mem_cons_self, ih _ fun x hx => h x (List.mem_cons_of_mem _ hx)⟩

theorem Market.Bounded.run {m : Market} {Q : ℕ} (h : m.Bounded Q)
    (hs : ∀ s, BestFirst s (m.depth s)) {cs : List Command}
    (hcs : ∀ c ∈ cs, c.quantity.toNat ≤ Q) : (m.run cs).1.Bounded Q := by
  induction cs generalizing m with
  | nil => exact h
  | cons c cs ih =>
    obtain ⟨hc, hcs⟩ := List.forall_mem_cons.mp hcs
    exact ih (h.process hs hc) (Market.process_bestFirst hs c) hcs

theorem totalQuantity_le {os : List RestingOrder} {Q : ℕ} (h : ∀ o ∈ os, o.quantity.toNat ≤ Q) :
    totalQuantity os ≤ os.length * Q := by
  have hle := List.sum_le_card_nsmul (os.map fun o => o.quantity.toNat) Q (fun x hx => by
    obtain ⟨o, ho, rfl⟩ := List.mem_map.mp hx
    exact h o ho)
  rwa [List.length_map, smul_eq_mul] at hle

theorem Inv.levels_fit {b : OrderBook} {q : Queues} {Q : ℕ} (h : Inv b q)
    (hb : (b.market q).Bounded Q) (hfit : b.config.maximumOrders.toNat * Q < 2 ^ 64) (s : Side)
    (p : Price) : totalQuantity (ordersAt ((b.market q).orders b.priceCount) s p) < 2 ^ 64 := by
  have hsum : totalQuantity (ordersAt ((b.market q).orders b.priceCount) s p) ≤ _ :=
    totalQuantity_le fun o ho => hb o.side o (h.mem_orders.mp (List.mem_filter.mp ho).1)
  have hcount : (ordersAt ((b.market q).orders b.priceCount) s p).length ≤ _ :=
    (List.length_filter_le _ _).trans h.orders_length_le
  exact (hsum.trans (Nat.mul_le_mul_right Q hcount)).trans_lt hfit

theorem Exact.book {bytes : Command → List UInt8} {b₀ : OrderBook}
    {journal : Option (List JournalRecord)} {p : Pipeline} (h : Exact bytes b₀ journal p) :
    ∃ done responses, Served b₀ done p.runner.book responses ∧ done <+: p.taken := by
  have hstage := h.stage
  generalize p.runner = runner, p.taken = taken, p.received ++ p.output.contents = out at hstage ⊢
  cases hstage with
  | ready hserved => exact ⟨_, _, hserved, List.prefix_rfl⟩
  | popped hserved r => exact ⟨_, _, hserved, List.prefix_append ..⟩
  | sequenced hserved r => exact ⟨_, _, hserved, List.prefix_append ..⟩
  | journaled hserved r => exact ⟨_, _, hserved, List.prefix_append ..⟩
  | publishing hserved => exact ⟨_, _, hserved, List.prefix_rfl⟩

/-! ## Requests within the limits -/

/-- A cancel command has no quantity on the wire. -/
theorem decodePayload_cancel {type : CommandType} {input : List UInt8} {c : Command}
    (h : Protocol.decodePayload type input = .ok (some c)) (hc : c.type = .cancel) :
    c.quantity = 0 := by
  cases type with
  | new =>
    obtain ⟨side, -, h⟩ := bind_eq_ok.mp h
    obtain ⟨orderType, -, h⟩ := bind_eq_ok.mp h
    split at h
    · obtain ⟨orderId, -, h⟩ := bind_eq_ok.mp h
      obtain ⟨price, -, h⟩ := bind_eq_ok.mp h
      obtain ⟨quantity, -, h⟩ := bind_eq_ok.mp h
      cases h
      cases hc
    · cases h
  | cancel =>
    obtain ⟨orderId, -, h⟩ := bind_eq_ok.mp h
    cases h
    rfl
  | replace =>
    obtain ⟨orderId, -, h⟩ := bind_eq_ok.mp h
    obtain ⟨price, -, h⟩ := bind_eq_ok.mp h
    obtain ⟨quantity, -, h⟩ := bind_eq_ok.mp h
    cases h
    cases hc

theorem FromDecoder.cancel {request : Protocol.Request} (h : FromDecoder request)
    (hc : request.command.type = .cancel) : request.command.quantity = 0 := by
  obtain ⟨stream, n, h⟩ := h
  obtain ⟨r, hr, -⟩ := Protocol.decodeRequest_spec stream
  rw [Protocol.requestOutcome_eq hr, Protocol.outcome_eq_frame] at h
  obtain ⟨hok, rfl, -⟩ := h
  obtain ⟨⟨status, header⟩, -, hr⟩ := bind_eq_ok.mp hr
  dsimp only at hr
  split_ifs at hr with hstatus
  · cases hr
    exact absurd hok hstatus
  · rw [Protocol.decodeFrame] at hr
    split at hr
    · cases hr
      cases hok
    · split_ifs at hr
      · cases hr
        cases hok
      · obtain ⟨command, hcommand, hr⟩ := bind_eq_ok.mp hr
        cases hr
        cases command with
        | none => cases hok
        | some command =>
          rw [Protocol.frameResult] at hok hc ⊢
          split_ifs at hok hc ⊢
          exact decodePayload_cancel hcommand hc

/-- **A decoded request within the limits has a bounded quantity.** -/
theorem FromDecoder.quantity_le {request : Protocol.Request} (h : FromDecoder request)
    (hrisk : ({} : RiskLimits).Permits request.command) :
    request.command.quantity.toNat ≤ 1000000 := by
  rcases hrisk with hcancel | ⟨-, hle, -⟩
  · rw [h.cancel hcancel]
    decide
  · exact hle

namespace TcpGateway

variable {allow : Pipeline → UInt32 → Prop} {g g' : TcpGateway} {b₀ : OrderBook}

/-- Every validator has the default limits. -/
def Limited (connections : ℕ → Option Connection) : Prop :=
  ∀ fd c, connections fd = some c → ∀ v ∈ c.validator, v.limits = {}

theorem Limited.update {connections : ℕ → Option Connection} (h : Limited connections) (fd : ℕ)
    {x : Option Connection} (hx : ∀ c ∈ x, ∀ v ∈ c.validator, v.limits = {}) :
    Limited (Function.update connections fd x) := by
  intro fd' c hc
  by_cases hfd : fd' = fd
  · subst hfd
    rw [Function.update_self] at hc
    exact hx c hc
  · rw [Function.update_of_ne hfd] at hc
    exact h fd' c hc

theorem queueResponse_validator (c : Connection) (response : Protocol.Response) :
    (c.queueResponse response).2.validator = c.validator := by
  unfold Connection.queueResponse
  dsimp only
  split <;> split_ifs <;> rfl

theorem flushOutput_validator (c : Connection) (results : List SendResult) :
    (c.flushOutput results).2.validator = c.validator := by
  have hloop : (c.flushLoop results).2.validator = c.validator := by
    induction results generalizing c with
    | nil => rfl
    | cons result results ih =>
      unfold Connection.flushLoop
      split_ifs
      · rfl
      · rcases result with (_ | count) | _ | _
        · rfl
        · exact ih _
        · exact ih _
        · rfl
  rw [← hloop, Connection.flushOutput]
  dsimp only
  split_ifs <;> rfl

theorem Limited.store (h : Limited g.connections) {c c' : Connection}
    (hc : g.connections c.fd = some c) (hv : c'.validator = c.validator) :
    Limited (g.store c').connections :=
  h.update c'.fd fun x hx v hv' => by
    cases hx
    exact h c.fd c hc v (hv ▸ hv')

theorem Limited.close (h : Limited g.connections) (fd : ℕ) :
    Limited (g.closeConnection fd).connections := by
  rw [closeConnection]
  cases g.connections fd with
  | none => exact h
  | some c => exact h.update fd fun _ hx => by cases hx

theorem Limited.route (h : Limited g.connections) (hkey : Keyed g) (r : GatewayResponse) (origin : ℕ) :
    Limited (g.route r origin).connections := by
  rw [TcpGateway.route]
  cases g.sessionToFd r.sessionId with
  | none => exact h
  | some fd =>
    dsimp only
    cases hc : g.connections fd with
    | none => exact h.close fd
    | some c =>
      obtain rfl := hkey fd c hc
      have hstore := h.store hc (queueResponse_validator c ⟨r.sessionId, r.clientSequence, r.event⟩)
      dsimp only
      split
      · exact hstore
      · exact hstore.close _

/-- **The gateway screens its requests.** -/
structure Screened (b₀ : OrderBook) (g : TcpGateway) : Prop where
  sound : Sound g
  exact : Exact Command.bytes b₀ none g.pipeline
  limited : Limited g.connections
  permitted : ∀ r ∈ g.pipeline.sent,
    ({} : RiskLimits).Permits r.command ∧ r.command.quantity.toNat ≤ 1000000

theorem Screened.new (hbook : OrderBook.new gatewayBookConfig = .ok b₀)
    (h : TcpGateway.new = .ok g) : Screened b₀ g := by
  have hsound := Sound.new h
  obtain ⟨book, hbook', h⟩ := bind_eq_ok.mp h
  cases hbook.symm.trans hbook'
  obtain ⟨requests, hreq, h⟩ := bind_eq_ok.mp h
  obtain ⟨responses, hresp, h⟩ := bind_eq_ok.mp h
  cases h
  exact ⟨hsound, Exact.start (.new hbook) hreq hresp, nofun, nofun⟩

theorem Screened.move {l : List Traffic} (h : Screened b₀ g) (hm : Emits allow g l g') :
    Screened b₀ g' := by
  have hexact : Exact Command.bytes b₀ none g'.pipeline := by
    rcases hm.move.pipeline_step with heq | hstep
    · rw [heq]
      exact h.exact
    · exact h.exact.step hstep
  have hlimited := h.limited
  suffices hrest : Limited g'.connections ∧
      ∀ r ∈ g'.pipeline.sent,
        ({} : RiskLimits).Permits r.command ∧ r.command.quantity.toNat ≤ 1000000 from
    ⟨h.sound.move hm.move, hexact, hrest.1, hrest.2⟩
  cases hm with
  | accept fd hfree => exact ⟨hlimited.update fd fun c hc => by cases hc; nofun, h.permitted⟩
  | receive hc receive => exact ⟨hlimited.store hc rfl, h.permitted⟩
  | @advance c v v' hc hv _ hlimits =>
    refine ⟨hlimited.update c.fd fun x hx w hw => ?_, h.permitted⟩
    cases hx
    cases hw
    exact hlimits.trans (hlimited c.fd c hc v hv)
  | @claim c s hc =>
    refine ⟨hlimited.update c.fd fun x hx w hw => ?_, h.permitted⟩
    cases hx
    cases hw
    rfl
  | refuse hc request reason => exact ⟨hlimited.store hc (queueResponse_validator ..), h.permitted⟩
  | @push _ c v r pushed hc hv _ hrisk hdec hp =>
    refine ⟨?_, fun x hx => ?_⟩
    · rw [(pushRequest_frame hp).1.connections]
      exact hlimited
    · rw [pushRequest_sent hp] at hx
      rcases List.mem_append.mp hx with hx | hx
      · exact h.permitted x hx
      · split_ifs at hx
        · cases List.mem_singleton.mp hx
          rw [hlimited c.fd c hc v hv] at hrisk
          exact ⟨hrisk, hdec.quantity_le hrisk⟩
        · cases hx
  | turn ht =>
    obtain ⟨hframe, hrun⟩ := engineTurn_frame ht
    rw [hframe.connections, run_sent hrun]
    exact ⟨hlimited, h.permitted⟩
  | idle hp =>
    obtain ⟨hframe, hconsume⟩ := popResponse_frame hp
    obtain ⟨⟨response, output⟩, -, heq⟩ := bind_eq_ok.mp hconsume
    rw [hframe.connections, ← Except.ok.inj heq]
    exact ⟨hlimited, h.permitted⟩
  | @route g₁ r origin hp =>
    obtain ⟨hframe, hconsume⟩ := popResponse_frame hp
    obtain ⟨⟨response, output⟩, -, heq⟩ := bind_eq_ok.mp hconsume
    have hkey : Keyed g₁ := fun fd c hc =>
      h.sound.consistent.keyed fd c (by rw [← hframe.connections]; exact hc)
    rw [route_pipeline, ← Except.ok.inj heq]
    exact ⟨Limited.route (by rw [hframe.connections]; exact hlimited) hkey r origin, h.permitted⟩
  | flush hc results => exact ⟨hlimited.store hc (flushOutput_validator ..), h.permitted⟩
  | close fd =>
    rw [closeConnection_pipeline]
    exact ⟨hlimited.close fd, h.permitted⟩

theorem Traced.screened {l : List Traffic} (hbook : OrderBook.new gatewayBookConfig = .ok b₀)
    (h : Traced allow g l) : Screened b₀ g := by
  refine h.invariant (P := fun g _ => Screened b₀ g) (fun _ hg => .new hbook hg) ?_
  exact fun _ _ _ _ h hm => h.move hm

theorem Screened.taken (h : Screened b₀ g) :
    ∀ r ∈ g.pipeline.taken, r.command.quantity.toNat ≤ 1000000 := by
  intro r hr
  refine (h.permitted r ?_).2
  rw [h.exact.sent]
  exact List.mem_append_left _ hr

/-! ## A request on its way -/

theorem engineTurn_taken (h : g.engineTurn = .ok g') :
    g'.pipeline.taken.length ≤ g.pipeline.taken.length + 1 := by
  obtain ⟨-, hrun⟩ := engineTurn_frame h
  unfold Pipeline.run at hrun
  split at hrun
  · obtain ⟨⟨popped, input⟩, -, hrun⟩ := bind_eq_ok.mp hrun
    cases popped with
    | none =>
      rw [← Except.ok.inj hrun]
      exact Nat.le_succ _
    | some incoming =>
      rw [← Except.ok.inj hrun]
      simp
  · rw [← Except.ok.inj hrun]
    exact Nat.le_succ _
  · rw [← Except.ok.inj hrun]
    exact Nat.le_succ _
  · obtain ⟨⟨book, events⟩, -, hrun⟩ := bind_eq_ok.mp hrun
    rw [← Except.ok.inj hrun]
    exact Nat.le_succ _
  · rw [← Except.ok.inj hrun]
    exact Nat.le_succ _
  · obtain ⟨⟨pushed, output⟩, -, hrun⟩ := bind_eq_ok.mp hrun
    rw [← Except.ok.inj hrun]
    cases pushed with
    | true => exact Nat.le_succ _
    | false => exact Nat.le_succ _

theorem engineTurns_taken {n : ℕ} (h : g.engineTurns n = .ok g') :
    g'.pipeline.taken.length ≤ g.pipeline.taken.length + n := by
  induction n generalizing g with
  | zero =>
    cases h
    exact le_rfl
  | succ n ih =>
    obtain ⟨g₁, hturn, hrest⟩ := bind_eq_ok.mp h
    have hone := engineTurn_taken hturn
    have hmore := ih hrest
    omega

theorem Reaches.engineTurns {n : ℕ} (hreach : Reaches allow g) (h : g.engineTurns n = .ok g') :
    Reaches allow g' := by
  induction n generalizing g with
  | zero =>
    cases h
    exact hreach
  | succ n ih =>
    obtain ⟨g₁, hturn, hrest⟩ := bind_eq_ok.mp h
    exact ih (.step (a := .engine) hreach trivial hturn) hrest

theorem engineTurns_foldlM {n : ℕ} (h : g.engineTurns n = .ok g') :
    (List.replicate n Action.engine).foldlM step g = .ok g' := by
  induction n generalizing g with
  | zero => exact h
  | succ n ih =>
    obtain ⟨g₁, hturn, hrest⟩ := bind_eq_ok.mp h
    exact bind_eq_ok.mpr ⟨g₁, hturn, ih hrest⟩

theorem Starts.taken {book : OrderBook} (h : Starts g book) : g.pipeline.taken = [] := by
  obtain ⟨book, -, hnew⟩ := bind_eq_ok.mp h.new
  obtain ⟨requests, -, hnew⟩ := bind_eq_ok.mp hnew
  obtain ⟨responses, -, hnew⟩ := bind_eq_ok.mp hnew
  cases hnew
  rfl

theorem exists_joined_new {book : OrderBook} {frame : List UInt8} {request : Protocol.Request}
    {v : SessionValidator} (h : Starts g book)
    (hdec : Protocol.decodeRequest frame = .ok ⟨.ok, frame.length, request⟩)
    (hvalid : SessionValidator.validateAndAdvance { sessionId := request.sessionId } request =
      (.none, v)) :
    ∃ g₁ g₂, g.step (.accept [{ fd := 5 }]) = .ok g₁ ∧ g₁.step (.read 5 [.data frame] []) = .ok g₂ ∧
      Joined (fun _ _ => True) g [] 5 ⟨request.sessionId, request.clientSequence, request.command⟩
        { fd := 5, serial := g.accepted, sessionId := request.sessionId, validator := some v } g₂ := by
  obtain ⟨hwf, hempty, hsize⟩ := h.input
  exact exists_joined 5 (.new h.new) (by rw [h.connections]) (by rw [h.sessionToFd]) trivial hdec
    hvalid hwf (by rw [hempty, List.length_nil]; omega)

/-! ## The whole -/

/-- **The gateway answers as the reference book does.** Whatever the clients send and however the calls
and the engine thread interleave: every request pushed to the engine is within the risk limits; and the
responses popped, those in the output queue and those still to be pushed are the events of the reference
book, run on the requests taken with the sequences from 1 on, each with the session and the client
sequence of its request. -/
theorem gateway_refines_reference (h : Reaches allow g) :
    (∀ r ∈ g.pipeline.sent, ({} : RiskLimits).Permits r.command) ∧
      (g.pipeline.taken.length < 2 ^ 64 → ∃ r evs, ReferenceBook.run { config := gatewayBookConfig }
          ((number 1 g.pipeline.taken).map GatewayRequest.command) = .ok (r, evs) ∧
        g.pipeline.received ++ g.pipeline.output.contents ++ g.pipeline.pending =
          tagged (number 1 g.pipeline.taken) evs) := by
  obtain ⟨l, hl⟩ := h.traced
  obtain ⟨b₀, hbook⟩ := exists_gatewayBook
  have hscreened := hl.screened hbook
  refine ⟨fun r hr => (hscreened.permitted r hr).1, fun hlen => ?_⟩
  obtain ⟨book, hserved, -⟩ := hscreened.exact.complete
  have hfirst : b₀.stats.lastSequence + 1 = 1 := by
    rw [(Inv.new hbook).2.2]
    rfl
  have hanswer := hserved.answer
  rw [hfirst] at hanswer
  obtain ⟨evs, hrun, hevs⟩ := answer_run hanswer
  obtain ⟨b, r, evs', -, hrun', href, -⟩ := book_refines_reference hbook (Q := 1000000) (by decide)
    ((number 1 g.pipeline.taken).map GatewayRequest.command)
    (by rwa [List.length_map, length_number]) (number_quantity 1 hscreened.taken)
  cases hrun.symm.trans hrun'
  exact ⟨r, evs, href, hevs⟩

/-- A new gateway accepts a connection, and the engine answers its first request. -/
theorem gateway_refines_reference_one_request : ∃ g₀ g r e evs, TcpGateway.new = .ok g₀ ∧
    [.accept [{ fd := 5 }], .read 5 [.data (cancelFrame 1 1 7)] [], .engine, .engine, .engine, .engine,
      .engine].foldlM step g₀ = .ok g ∧
    g.pipeline.output.contents = [⟨1, 1, e⟩] ∧
    ReferenceBook.run { config := gatewayBookConfig }
      ((number 1 g.pipeline.taken).map GatewayRequest.command) = .ok (r, evs) ∧
    g.pipeline.received ++ g.pipeline.output.contents ++ g.pipeline.pending =
      tagged (number 1 g.pipeline.taken) evs := by
  obtain ⟨g₀, book, hstart⟩ := exists_starts
  obtain ⟨g₁, g₂, haccept, hread, hjoined⟩ := exists_joined_new (v := ⟨1, 2, {}⟩) hstart
    decode_cancelFrame_seven (by decide)
  obtain ⟨book', e, hprocess⟩ := process_cancel_one (Inv.new hstart.isNew).1
    (r := ⟨1, 1, { type := .cancel, orderId := 7 }⟩) rfl (book.stats.lastSequence + 1)
  obtain ⟨g, hturns, -, -, hout, -⟩ := engineTurns_one hprocess
    (hjoined.runner.trans hstart.runner) hjoined.wf
    (hjoined.contents.trans (by rw [hstart.input.2.1]; rfl)) (hjoined.output ▸ hstart.output.1)
    (by rw [hjoined.output, hstart.output.2.1, List.length_nil]; have := hstart.output.2.2; omega)
  have hreach : Reaches (fun _ _ => True) g := hjoined.traced.reaches.engineTurns hturns
  have hlen := engineTurns_taken hturns
  rw [hjoined.taken, hstart.taken, List.length_nil] at hlen
  obtain ⟨r, evs, href, hresponses⟩ := (gateway_refines_reference hreach).2 (by omega)
  refine ⟨g₀, g, r, e, evs, hstart.new, ?_, ?_, href, hresponses⟩
  · exact bind_eq_ok.mpr ⟨_, haccept, bind_eq_ok.mpr ⟨_, hread, engineTurns_foldlM hturns⟩⟩
  · rw [hout, hjoined.output, hstart.output.2.1]
    rfl

/-- **Behind the gateway every liquidity decision is exact.** In every state, the totals of the book's
levels are those of the resting orders, and fill-or-kill orders and limit orders that find the book full
are rejected exactly when what they cross is less than their quantity. -/
theorem gateway_liquidity_exact (h : Reaches allow g) :
    ∃ orders, g.pipeline.runner.book.restingOrders = .ok orders ∧
      LiquidityExact g.pipeline.runner.book orders ∧
      ∀ o ∈ orders, o.quantity.toNat ≤ 1000000 := by
  obtain ⟨l, hl⟩ := h.traced
  obtain ⟨b₀, hbook⟩ := exists_gatewayBook
  have hscreened := hl.screened hbook
  obtain ⟨done, responses, hserved, hfirst⟩ := hscreened.exact.book
  generalize g.pipeline.runner.book = b at hserved ⊢
  obtain ⟨evs, hrun, -⟩ := answer_run hserved.answer
  obtain ⟨hinv₀, hconfig₀, hstats⟩ := Inv.new hbook
  obtain ⟨b', q, hrun', hinv, hm, -⟩ := hinv₀.run
    ((number (b₀.stats.lastSequence + 1) done).map GatewayRequest.command)
  cases hrun.symm.trans hrun'
  have hconfig : b.config = gatewayBookConfig :=
    ((congrArg Market.config hm).trans (Market.run_config _ _)).trans hconfig₀
  have hempty : (b₀.market fun _ _ => []).Bounded 1000000 := by
    intro s x hx
    rw [show (b₀.market fun _ _ => []).depth = _ from hinv₀.empty_depth (by rw [hstats])] at hx
    cases hx
  have hbounded := hempty.run hinv₀.depth_bestFirst
    (number_quantity (b₀.stats.lastSequence + 1)
      fun r hr => hscreened.taken r (hfirst.subset hr))
  rw [← hm] at hbounded
  exact ⟨_, hinv.restingOrders,
    hinv.liquidityExact (hinv.levels_fit hbounded (by rw [hconfig]; decide)),
    fun o ho => hbounded o.side o (hinv.mem_orders.mp ho)⟩

/-- The request of session 1 to buy 5 at 10000, as order 7. -/
def buyRequest : Protocol.Request :=
  ⟨1, 1, { type := .new, side := .buy, orderType := .limit, orderId := 7, price := 10000, quantity := 5 }⟩

theorem process_buyRequest {book : OrderBook} (h : OrderBook.new gatewayBookConfig = .ok book) :
    ∃ book' events, book.process (GatewayRequest.withSequence ⟨1, 1, buyRequest.command⟩ 1).command [] =
        .ok (book', events) ∧
      book'.restingOrders = .ok [⟨7, .buy, 10000, 5, 1⟩] ∧ book'.config = gatewayBookConfig ∧
      book'.stats.lastSequence = 1 := by
  obtain ⟨hinv, hconfig, hstats⟩ := Inv.new h
  have hmarket : book.market (fun _ _ => []) = ⟨gatewayBookConfig, fun _ => [], 0⟩ := by
    rw [OrderBook.market, hinv.empty_depth (by rw [hstats]), hconfig, hstats]
  obtain ⟨book', q', hprocess, hinv', hm, -⟩ :=
    hinv.process (GatewayRequest.withSequence ⟨1, 1, buyRequest.command⟩ 1).command []
  rw [hmarket] at hm
  have hdepth : book'.depth q' = _ := congrArg Market.depth hm
  have hone : ∀ x ∈ (book'.market q').orders book'.priceCount, x = ⟨7, .buy, 10000, 5, 1⟩ := by
    intro x hx
    have hmem := hinv'.mem_orders.mp hx
    rw [hdepth] at hmem
    cases hside : x.side with
    | buy =>
      rw [hside] at hmem
      exact List.mem_singleton.mp hmem
    | sell =>
      rw [hside] at hmem
      cases hmem
  have hin : ⟨7, .buy, 10000, 5, 1⟩ ∈ (book'.market q').orders book'.priceCount := by
    rw [hinv'.mem_orders, hdepth]
    exact List.mem_singleton_self _
  have horders := List.eq_replicate_of_mem hone
  have hnodup := List.Nodup.of_map _ hinv'.ids_nodup
  have hlen : ((book'.market q').orders book'.priceCount).length = 1 := by
    rw [horders, List.nodup_replicate] at hnodup
    have := List.length_pos_of_mem hin
    omega
  rw [hlen] at horders
  exact ⟨book', _, hprocess, hinv'.restingOrders.trans (congrArg Except.ok horders),
    congrArg Market.config hm, congrArg Market.lastSequence hm⟩

/-- An order rests behind the gateway: an order to sell 5 at its price is filled, one to sell 6 is
rejected. -/
theorem gateway_liquidity_exact_one_order : ∃ g₀ g frame, TcpGateway.new = .ok g₀ ∧
    Protocol.encodeRequest buyRequest 80 = some frame ∧
    [.accept [{ fd := 5 }], .read 5 [.data frame] [], .engine, .engine, .engine, .engine].foldlM step
      g₀ = .ok g ∧
    g.pipeline.runner.book.restingOrders = .ok [⟨7, .buy, 10000, 5, 1⟩] ∧
    (∃ n : Quantity, g.pipeline.runner.book.quantityAt .buy 10000 = .ok n ∧ n.toNat = 5) ∧
    ¬ RejectedFor g.pipeline.runner.book ⟨2, .new, .sell, .fillOrKill, 0, 8, 10000, 5⟩ .wouldNotFill ∧
    RejectedFor g.pipeline.runner.book ⟨2, .new, .sell, .fillOrKill, 0, 8, 10000, 6⟩ .wouldNotFill := by
  obtain ⟨g₀, book, hstart⟩ := exists_starts
  obtain ⟨frame, hframe⟩ : ∃ frame, Protocol.encodeRequest buyRequest 80 = some frame := ⟨_, rfl⟩
  have hdec : Protocol.decodeRequest frame = .ok ⟨.ok, frame.length, buyRequest⟩ := by
    cases hframe
    decide
  obtain ⟨g₁, g₂, haccept, hread, hjoined⟩ := exists_joined_new (v := ⟨1, 2, {}⟩) hstart hdec (by decide)
  obtain ⟨book', events, hprocess, horders', hconfig, hlast⟩ := process_buyRequest hstart.isNew
  have hnext : book.stats.lastSequence + 1 = 1 := by
    rw [(Inv.new hstart.isNew).2.2]
    rfl
  obtain ⟨g, hturns, -, hrunner, -⟩ := engineTurns_process
    (r := ⟨1, 1, buyRequest.command⟩) hprocess
    (by rw [hjoined.runner, hstart.runner, GatewayEngineRunner.new, hnext]) hjoined.wf
    (hjoined.contents.trans (by rw [hstart.input.2.1]; rfl))
  have hbook : g.pipeline.runner.book = book' := by rw [hrunner]
  have hreach : Reaches (fun _ _ => True) g := hjoined.traced.reaches.engineTurns hturns
  obtain ⟨orders, horders, hexact, -⟩ := gateway_liquidity_exact hreach
  rw [hbook] at horders hexact
  obtain rfl := Except.ok.inj (horders'.symm.trans horders)
  have hvalid : gatewayBookConfig.validPrice 10000 = true := by decide
  have hadmissible : ∀ quantity, quantity ≠ 0 → Admissible book' [⟨7, .buy, 10000, 5, 1⟩]
      ⟨2, .new, .sell, .fillOrKill, 0, 8, 10000, quantity⟩ := by
    intro quantity hne
    exact ⟨rfl, by rw [hlast]; rfl, hne, by rw [hconfig]; exact hvalid, by simp⟩
  refine ⟨g₀, g, frame, hstart.new, hframe, ?_, ?_⟩
  · exact bind_eq_ok.mpr ⟨_, haccept, bind_eq_ok.mpr ⟨_, hread, engineTurns_foldlM hturns⟩⟩
  rw [hbook]
  refine ⟨horders, hexact.quantityAt .buy 10000, ?_, ?_⟩
  · rw [hexact.fillOrKill _ (hadmissible 5 (by decide)) rfl]
    decide
  · rw [hexact.fillOrKill _ (hadmissible 6 (by decide)) rfl]
    decide

end TcpGateway

end Dme
