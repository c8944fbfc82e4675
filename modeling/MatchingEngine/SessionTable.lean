import MatchingEngine.Pipeline
import MatchingEngine.Traces

/-!
# The session table

* **`Consistent`**: `session_to_fd_` holds the sessions of the connections that have a validator, and
  nothing else; **`Consistent.update`**, when one descriptor changes; `Consistent.move`.
* `Sound`, `Reaches.sound`: so they do in every state, and the pipeline is exact.
* **`step_isOk`**: every call returns.
* `Reading.decodeLoop_inUse`: a connection that is refused a session has changed nothing.
* `step_read_first`: what the first request of a connection does.
* **`session_table_consistent`**.
-/

set_option autoImplicit false

namespace Dme

namespace TcpGateway

open Protocol (Request Response)

variable {allow : Pipeline → UInt32 → Prop} {g g' : TcpGateway} {c c' : Connection} {s : UInt32}

/-- **The table and the connections agree.** -/
structure Consistent (g : TcpGateway) : Prop where
  keyed : Keyed g
  bound : ∀ fd c v, g.connections fd = some c → c.validator = some v →
    v.sessionId = c.sessionId ∧ c.sessionId ≠ 0
  unbound : ∀ fd c, g.connections fd = some c → c.validator = none → c.sessionId = 0
  table : ∀ s fd, g.sessionToFd s = some fd ↔
    ∃ c, g.connections fd = some c ∧ c.validator ≠ none ∧ c.sessionId = s

theorem Consistent.congr (h : Consistent g) (hc : g'.connections = g.connections)
    (hs : g'.sessionToFd = g.sessionToFd) : Consistent g' := by
  obtain ⟨hkey, hbound, hunbound, htable⟩ := h
  refine ⟨?_, ?_, ?_, ?_⟩
  · rwa [Keyed, hc]
  · rwa [hc]
  · rwa [hc]
  · rwa [hc, hs]

theorem store_of_ne (g : TcpGateway) {fd : ℕ} (h : fd ≠ c.fd) :
    (g.store c).connections fd = g.connections fd := Function.update_of_ne h ..

theorem Same.validator_eq_none (h : Same c c') : c'.validator = none ↔ c.validator = none := by
  rw [← Option.map_eq_none_iff, h.validator, Option.map_eq_none_iff]

theorem Same.bound (h : Same c c') {v : SessionValidator} (hv : c'.validator = some v) :
    ∃ v₀, c.validator = some v₀ ∧ v₀.sessionId = v.sessionId := by
  have := h.validator
  rw [hv, Option.map_some] at this
  exact Option.map_eq_some_iff.mp this.symm

theorem store_cases {fd : ℕ} {x : Connection} (h : (g.store c).connections fd = some x) :
    (fd = c.fd ∧ x = c) ∨ (fd ≠ c.fd ∧ g.connections fd = some x) := by
  by_cases hfd : fd = c.fd
  · rw [hfd, store_connections] at h
    exact Or.inl ⟨hfd, (Option.some.inj h).symm⟩
  · rw [store_of_ne g hfd] at h
    exact Or.inr ⟨hfd, h⟩

theorem Consistent.table_at (h : Consistent g) (hc : g.connections c.fd = some c) :
    g.sessionToFd s = some c.fd ↔ c.validator ≠ none ∧ c.sessionId = s := by
  rw [h.table]
  constructor
  · rintro ⟨x, hx, hbound⟩
    obtain rfl := Option.some.inj (hc.symm.trans hx)
    exact hbound
  · rintro hbound
    exact ⟨c, hc, hbound⟩

/-- **One descriptor changes**: the table has to follow there, and to stay as it is elsewhere. -/
theorem Consistent.update (h : Consistent g) {fd : ℕ} {o : Option Connection}
    (hconn : g'.connections = Function.update g.connections fd o) (hkey : ∀ x ∈ o, x.fd = fd)
    (hbound : ∀ x ∈ o, ∀ v, x.validator = some v → v.sessionId = x.sessionId ∧ x.sessionId ≠ 0)
    (hunbound : ∀ x ∈ o, x.validator = none → x.sessionId = 0)
    (hat : ∀ s, g'.sessionToFd s = some fd ↔ ∃ x ∈ o, x.validator ≠ none ∧ x.sessionId = s)
    (helse : ∀ s fd', fd' ≠ fd → (g'.sessionToFd s = some fd' ↔ g.sessionToFd s = some fd')) :
    Consistent g' := by
  have hself : g'.connections fd = o := by rw [hconn, Function.update_self]
  have hother : ∀ fd', fd' ≠ fd → g'.connections fd' = g.connections fd' := fun fd' hne => by
    rw [hconn, Function.update_of_ne hne]
  refine ⟨fun fd' x hx => ?_, fun fd' x v hx hv => ?_, fun fd' x hx hv => ?_, fun s fd' => ?_⟩
  · by_cases hfd : fd' = fd
    · subst hfd
      exact hkey x (hself ▸ hx)
    · exact h.keyed fd' x (hother fd' hfd ▸ hx)
  · by_cases hfd : fd' = fd
    · subst hfd
      exact hbound x (hself ▸ hx) v hv
    · exact h.bound fd' x v (hother fd' hfd ▸ hx) hv
  · by_cases hfd : fd' = fd
    · subst hfd
      exact hunbound x (hself ▸ hx) hv
    · exact h.unbound fd' x (hother fd' hfd ▸ hx) hv
  · by_cases hfd : fd' = fd
    · subst hfd
      rw [hself]
      exact hat s
    · rw [hother fd' hfd, helse s fd' hfd]
      exact h.table s fd'

theorem Consistent.touch (h : Consistent g) (hc : g.connections c.fd = some c) (hs : Same c c') :
    Consistent (g.store c') := by
  refine h.update (o := some c') rfl ?_ ?_ ?_ (fun t => ?_) fun t fd' _ => Iff.rfl
  · rintro x ⟨⟩
    rfl
  · rintro x ⟨⟩ v hv
    obtain ⟨v₀, hv₀, heq⟩ := hs.bound hv
    rw [← heq, hs.sessionId]
    exact h.bound _ c v₀ hc hv₀
  · rintro x ⟨⟩ hv
    rw [hs.sessionId]
    exact h.unbound _ c hc (hs.validator_eq_none.mp hv)
  · change g.sessionToFd t = some c'.fd ↔ _
    rw [hs.fd, h.table_at hc]
    simp [hs.validator_eq_none, hs.sessionId]

theorem Consistent.accept (h : Consistent g) {fd : ℕ} (hfree : g.connections fd = none) :
    Consistent { g with
      connections := Function.update g.connections fd (some { fd, serial := g.accepted })
      accepted := g.accepted + 1 } := by
  refine h.update (o := some { fd, serial := g.accepted }) rfl ?_ ?_ ?_ (fun t => ?_)
    fun t fd' _ => Iff.rfl
  · rintro x ⟨⟩
    rfl
  · rintro x ⟨⟩ v hv
    cases hv
  · rintro x ⟨⟩ _
    rfl
  · change g.sessionToFd t = some fd ↔ _
    rw [h.table]
    simp [hfree]

theorem Consistent.claim (h : Consistent g) (hc : g.connections c.fd = some c)
    (hv : c.validator = none) (hfree : g.sessionToFd s = none) (hs : s ≠ 0) :
    Consistent ({ g with sessionToFd := Function.update g.sessionToFd s (some c.fd) }.store
      { c with sessionId := s, validator := some { sessionId := s } }) := by
  refine h.update (o := some { c with sessionId := s, validator := some { sessionId := s } }) rfl
    ?_ ?_ ?_ (fun t => ?_) fun t fd' hfd => ?_
  · rintro x ⟨⟩
    rfl
  · rintro x ⟨⟩ v ⟨⟩
    exact ⟨rfl, hs⟩
  · rintro x ⟨⟩ hn
    cases hn
  · change Function.update g.sessionToFd s (some c.fd) t = some c.fd ↔ _
    by_cases hts : t = s
    · simp [hts]
    · rw [Function.update_of_ne hts, h.table_at hc]
      simp [hv, Ne.symm hts]
  · change Function.update g.sessionToFd s (some c.fd) t = some fd' ↔ _
    by_cases hts : t = s
    · simp [hts, hfree, Ne.symm hfd]
    · rw [Function.update_of_ne hts]

theorem Consistent.close (h : Consistent g) (fd : ℕ) : Consistent (g.closeConnection fd) := by
  cases hc : g.connections fd with
  | none =>
    rw [closeConnection, hc]
    exact h
  | some c =>
    obtain rfl := h.keyed fd c hc
    have hclosed : (g.closeConnection c.fd).connections = Function.update g.connections c.fd none := by
      rw [closeConnection, hc]
    have htable : ∀ t fd', (g.closeConnection c.fd).sessionToFd t = some fd' ↔
        ¬ (c.validator ≠ none ∧ c.sessionId = t) ∧ g.sessionToFd t = some fd' := by
      intro t fd'
      rw [closeConnection, hc]
      cases hv : c.validator with
      | none => simp [h.unbound _ c hc hv]
      | some v =>
        by_cases hts : t = c.sessionId
        · simp [hts, (h.bound _ c v hc hv).2]
        · simp [hts, Ne.symm hts, (h.bound _ c v hc hv).2]
    refine h.update (o := none) hclosed ?_ ?_ ?_ (fun t => ?_) fun t fd' hfd => ?_
    · rintro x ⟨⟩
    · rintro x ⟨⟩
    · rintro x ⟨⟩
    · rw [htable, h.table_at hc]
      simp
    · rw [htable, ← h.table_at hc]
      constructor
      · exact And.right
      · intro ht
        refine ⟨fun howner => hfd ?_, ht⟩
        exact Option.some.inj (ht.symm.trans howner)

/-! ## Moves -/

/-- Only the queues and the engine have moved. -/
structure Untouched (g g' : TcpGateway) : Prop where
  connections : g'.connections = g.connections
  sessionToFd : g'.sessionToFd = g.sessionToFd
  accepted : g'.accepted = g.accepted
  delivered : g'.delivered = g.delivered

theorem Consistent.untouched (h : Consistent g) (hu : Untouched g g') : Consistent g' :=
  h.congr hu.connections hu.sessionToFd

theorem engineTurn_frame (h : g.engineTurn = .ok g') :
    Untouched g g' ∧ g.pipeline.run Command.bytes = .ok g'.pipeline := by
  obtain ⟨p, hp, hg⟩ := bind_eq_ok.mp h
  cases hg
  exact ⟨⟨rfl, rfl, rfl, rfl⟩, hp⟩

theorem pushRequest_frame {serial : ℕ} {r : GatewayRequest} {pushed : Bool}
    (h : g.pushRequest serial r = .ok (pushed, g')) :
    Untouched g g' ∧ g.pipeline.produce r = .ok g'.pipeline := by
  obtain ⟨⟨pushed, input⟩, hp, hg⟩ := bind_eq_ok.mp h
  cases hg
  cases pushed with
  | true => exact ⟨⟨rfl, rfl, rfl, rfl⟩, bind_eq_ok.mpr ⟨_, hp, rfl⟩⟩
  | false => exact ⟨⟨rfl, rfl, rfl, rfl⟩, bind_eq_ok.mpr ⟨_, hp, rfl⟩⟩

theorem popResponse_frame {popped : Option (GatewayResponse × ℕ)}
    (h : g.popResponse = .ok (popped, g')) :
    Untouched g g' ∧ g.pipeline.consume = .ok g'.pipeline := by
  obtain ⟨⟨response, output⟩, hp, hg⟩ := bind_eq_ok.mp h
  cases response with
  | none =>
    cases hg
    exact ⟨⟨rfl, rfl, rfl, rfl⟩, bind_eq_ok.mpr ⟨_, hp, rfl⟩⟩
  | some response =>
    cases hg
    exact ⟨⟨rfl, rfl, rfl, rfl⟩, bind_eq_ok.mpr ⟨_, hp, rfl⟩⟩

theorem closeConnection_pipeline (g : TcpGateway) (fd : ℕ) :
    (g.closeConnection fd).pipeline = g.pipeline := by
  rw [closeConnection]
  cases g.connections fd <;> rfl

theorem route_pipeline (g : TcpGateway) (r : GatewayResponse) (origin : ℕ) :
    (g.route r origin).pipeline = g.pipeline := by
  rw [TcpGateway.route]
  cases g.sessionToFd r.sessionId with
  | none => rfl
  | some fd =>
    dsimp only
    cases g.connections fd with
    | none => exact closeConnection_pipeline ..
    | some c =>
      dsimp only
      split
      · rfl
      · exact closeConnection_pipeline ..

theorem Consistent.route (h : Consistent g) (r : GatewayResponse) (origin : ℕ) :
    Consistent (g.route r origin) := by
  rw [TcpGateway.route]
  cases hfd : g.sessionToFd r.sessionId with
  | none => exact h
  | some fd =>
    obtain ⟨c, hc, -⟩ := (h.table _ _).mp hfd
    obtain rfl := h.keyed fd c hc
    have hstore := h.touch hc (queueResponse_same c ⟨r.sessionId, r.clientSequence, r.event⟩)
    simp only [hc]
    split
    · exact hstore.congr rfl rfl
    · exact hstore.close c.fd

/-- **Every move keeps the table and the connections in agreement.** -/
theorem Consistent.move (h : Consistent g) (hm : Move allow g g') : Consistent g' := by
  cases hm with
  | accept fd hfree => exact h.accept hfree
  | touch hc hs => exact h.touch hc hs
  | claim hc hv hfree hs => exact h.claim hc hv hfree hs
  | push _ _ _ hp => exact h.untouched (pushRequest_frame hp).1
  | turn ht => exact h.untouched (engineTurn_frame ht).1
  | idle hp => exact h.untouched (popResponse_frame hp).1
  | route hp => exact (h.untouched (popResponse_frame hp).1).route _ _
  | close fd => exact h.close fd

/-- **Every move is a step of the pipeline**, or leaves it alone. -/
theorem Move.pipeline_step (hm : Move allow g g') :
    g'.pipeline = g.pipeline ∨ Pipeline.Step Command.bytes g.pipeline g'.pipeline := by
  cases hm with
  | accept => exact Or.inl rfl
  | touch => exact Or.inl rfl
  | claim => exact Or.inl rfl
  | push _ _ _ hp => exact Or.inr (.produce _ (pushRequest_frame hp).2)
  | turn ht => exact Or.inr (.run (engineTurn_frame ht).2)
  | idle hp => exact Or.inr (.consume (popResponse_frame hp).2)
  | route hp =>
    rw [route_pipeline]
    exact Or.inr (.consume (popResponse_frame hp).2)
  | close => exact Or.inl (closeConnection_pipeline ..)

/-- **What holds in every state**: the table is consistent and the pipeline exact. -/
structure Sound (g : TcpGateway) : Prop where
  consistent : Consistent g
  exact : ∃ b₀, Exact Command.bytes b₀ none g.pipeline

theorem Sound.new (h : TcpGateway.new = .ok g) : Sound g := by
  obtain ⟨book, hbook, h⟩ := bind_eq_ok.mp h
  obtain ⟨requests, hreq, h⟩ := bind_eq_ok.mp h
  obtain ⟨responses, hresp, h⟩ := bind_eq_ok.mp h
  cases h
  refine ⟨⟨?_, ?_, ?_, ?_⟩, book, Exact.start (.new hbook) hreq hresp⟩
  · intro fd c hc
    cases hc
  · intro fd c v hc
    cases hc
  · intro fd c hc
    cases hc
  · intro s fd
    simp

theorem Sound.move (h : Sound g) (hm : Move allow g g') : Sound g' := by
  obtain ⟨b₀, hexact⟩ := h.exact
  refine ⟨h.consistent.move hm, b₀, ?_⟩
  rcases hm.pipeline_step with heq | hstep
  · rwa [heq]
  · exact hexact.step hstep

theorem Reaches.sound (h : Reaches allow g) : Sound g :=
  h.of_moves (fun _ h => h.consistent.keyed) (fun _ h => .new h) fun _ _ h hm => h.move hm

theorem Reaches.traced (h : Reaches allow g) : ∃ l, Traced allow g l := by
  induction h with
  | new h => exact ⟨[], .new h⟩
  | step hg ha h ih =>
    obtain ⟨l, hl⟩ := ih
    obtain ⟨l', hpath⟩ := step_emits hg.sound.consistent.keyed ha h
    exact ⟨_, hl.step ha h hpath⟩

/-! ## Every call returns -/

section Returns

variable {b₀ : OrderBook}

theorem engineTurn_isOk (h : Exact Command.bytes b₀ none g.pipeline) :
    ∃ g', g.engineTurn = .ok g' ∧ Exact Command.bytes b₀ none g'.pipeline := by
  obtain ⟨p, hp, h'⟩ := h.run
  exact ⟨_, bind_eq_ok.mpr ⟨p, hp, rfl⟩, h'⟩

theorem engineTurns_isOk (h : Exact Command.bytes b₀ none g.pipeline) (n : ℕ) :
    ∃ g', g.engineTurns n = .ok g' ∧ Exact Command.bytes b₀ none g'.pipeline := by
  induction n generalizing g with
  | zero => exact ⟨g, rfl, h⟩
  | succ n ih =>
    obtain ⟨g₁, h₁, hexact⟩ := engineTurn_isOk h
    obtain ⟨g', h', hexact'⟩ := ih hexact
    exact ⟨g', bind_eq_ok.mpr ⟨g₁, h₁, h'⟩, hexact'⟩

theorem pushRequest_isOk (h : Exact Command.bytes b₀ none g.pipeline) (serial : ℕ)
    (r : GatewayRequest) : ∃ pushed g', g.pushRequest serial r = .ok (pushed, g') ∧
      Exact Command.bytes b₀ none g'.pipeline := by
  obtain ⟨p, hp, h'⟩ := h.produce r
  obtain ⟨⟨pushed, input⟩, hpush, -⟩ := bind_eq_ok.mp hp
  have hok : g.pushRequest serial r = .ok (pushed, _) := bind_eq_ok.mpr ⟨_, hpush, rfl⟩
  cases hp.symm.trans (pushRequest_frame hok).2
  exact ⟨pushed, _, hok, h'⟩

theorem popResponse_isOk (h : Exact Command.bytes b₀ none g.pipeline) :
    ∃ popped g', g.popResponse = .ok (popped, g') ∧ Exact Command.bytes b₀ none g'.pipeline ∧
      (popped ≠ none →
        g'.pipeline.output.contents.length < g.pipeline.output.contents.length) := by
  have hex : ∀ popped g', g.popResponse = .ok (popped, g') →
      Exact Command.bytes b₀ none g'.pipeline := by
    intro popped g' hok
    obtain ⟨p, hp, h'⟩ := h.consume
    cases hp.symm.trans (popResponse_frame hok).2
    exact h'
  rcases h.output.tryPop with ⟨-, hpop⟩ | ⟨x, rest, output, hcontents, hpop, -, -, hrest⟩
  · have hok : g.popResponse = .ok (none, _) := bind_eq_ok.mpr ⟨_, hpop, rfl⟩
    exact ⟨_, _, hok, hex _ _ hok, fun hne => absurd rfl hne⟩
  · have hok : g.popResponse = .ok (some (x, _), _) := bind_eq_ok.mpr ⟨_, hpop, rfl⟩
    refine ⟨_, _, hok, hex _ _ hok, fun _ => ?_⟩
    change output.contents.length < _
    rw [hcontents, hrest, List.length_cons]
    exact Nat.lt_succ_self _

namespace Reading

variable {x : Reading}

theorem forward_isOk (h : Exact Command.bytes b₀ none x.gateway.pipeline) (request : Request)
    (turns : ℕ) : ∃ verdict x', x.forward request turns = .ok (verdict, x') ∧
      Exact Command.bytes b₀ none x'.gateway.pipeline := by
  obtain ⟨g₁, hturns, h₁⟩ := engineTurns_isOk h turns
  obtain ⟨pushed, g₂, hpush, h₂⟩ := pushRequest_isOk h₁ x.connection.serial
    ⟨request.sessionId, request.clientSequence, request.command⟩
  cases pushed with
  | true => exact ⟨_, _, bind_eq_ok.mpr ⟨_, hturns, bind_eq_ok.mpr ⟨_, hpush, rfl⟩⟩, h₂⟩
  | false => exact ⟨_, _, bind_eq_ok.mpr ⟨_, hturns, bind_eq_ok.mpr ⟨_, hpush, rfl⟩⟩, h₂⟩

theorem check_isOk (h : Exact Command.bytes b₀ none x.gateway.pipeline) (v : SessionValidator)
    (request : Request) (turns : ℕ) : ∃ verdict x', x.check v request turns = .ok (verdict, x') ∧
      Exact Command.bytes b₀ none x'.gateway.pipeline := by
  rw [check]
  dsimp only
  split_ifs
  · exact ⟨_, _, rfl, h⟩
  · exact forward_isOk (x := x.advance (v.validateAndAdvance request).2 request) h request turns

theorem handle_isOk (h : Exact Command.bytes b₀ none x.gateway.pipeline) (request : Request)
    (turns : ℕ) : ∃ verdict x', x.handle request turns = .ok (verdict, x') ∧
      Exact Command.bytes b₀ none x'.gateway.pipeline := by
  unfold handle bindSession
  cases hv : x.connection.validator with
  | some v => exact check_isOk h v request turns
  | none =>
    by_cases huse : (x.gateway.sessionToFd request.sessionId).isSome
    · simp only [huse, if_true]
      exact ⟨_, _, rfl, h⟩
    · simp only [huse]
      exact check_isOk (x := x.claim request.sessionId) h _ request turns

theorem decodeLoop_isOk {fuel : ℕ} (h : Exact Command.bytes b₀ none x.gateway.pipeline)
    (hfuel : x.rest.length < fuel) (turns : List ℕ) :
    ∃ verdict x', decodeLoop fuel turns x = .ok (verdict, x') := by
  induction fuel generalizing x turns with
  | zero => omega
  | succ fuel ih =>
    rw [decodeLoop]
    by_cases hmore : x.consumed < x.connection.receive.length
    · rw [if_pos hmore]
      obtain ⟨r, hr, -, hacc⟩ := Protocol.decodeRequest_spec x.rest
      rw [show Protocol.decodeRequest (x.connection.receive.drop x.consumed) = .ok r from hr]
      dsimp only [bind, Except.bind]
      split_ifs with hneed hok
      · exact ⟨_, _, rfl⟩
      · exact ⟨_, _, rfl⟩
      · obtain ⟨v, y, hy, hexact⟩ := handle_isOk h r.request (turns.headD 0)
        rw [hy]
        dsimp only
        split_ifs with hkeep
        · exact ⟨_, _, rfl⟩
        · have hok := not_not.mp hok
          have hv := not_not.mp hkeep
          subst hv
          have hkept := handle_kept (by decide) hy
          have hframe : Protocol.requestOutcome x.rest = .frame r.request r.bytesConsumed := by
            rw [Protocol.requestOutcome_eq hr]
            exact Protocol.outcome_eq_frame.mpr ⟨hok, rfl, rfl⟩
          have hlen := Protocol.requestOutcome_stable.length hframe
          refine ih (x := { y with consumed := y.consumed + r.bytesConsumed }) hexact ?_ _
          simp only [rest, List.length_drop, hkept.receive, hkept.consumed] at hlen hfuel ⊢
          omega
    · rw [if_neg hmore]
      exact ⟨_, _, rfl⟩

end Reading

theorem readRequests_isOk (h : Exact Command.bytes b₀ none g.pipeline) (c : Connection)
    (results : List RecvResult) (turns : List ℕ) :
    ∃ verdict x, g.readRequests c results turns = .ok (verdict, x) := by
  rw [readRequests]
  dsimp only
  split_ifs with hend
  · exact ⟨_, _, rfl⟩
  · obtain ⟨v, y, hloop⟩ := Reading.decodeLoop_isOk (x := g.reading c results) h
      (Nat.lt_succ_self _) turns
    by_cases hkeep : v = .keep
    · exact ⟨_, _, bind_eq_ok.mpr ⟨_, hloop, by rw [if_neg (not_not.mpr hkeep)]⟩⟩
    · exact ⟨_, _, bind_eq_ok.mpr ⟨_, hloop, by rw [if_pos hkeep]⟩⟩

theorem drainEngineResponses_nil_isOk (h : Exact Command.bytes b₀ none g.pipeline) :
    ∃ fuel g', drainEngineResponses fuel [] g = .ok g' := by
  induction hn : g.pipeline.output.contents.length using Nat.strongRecOn generalizing g with
  | ind n ih =>
    obtain ⟨popped, g₁, hpop, h₁, hless⟩ := popResponse_isOk h
    cases popped with
    | none => exact ⟨1, g₁, bind_eq_ok.mpr ⟨g, rfl, bind_eq_ok.mpr ⟨_, hpop, rfl⟩⟩⟩
    | some popped =>
      have hroute := route_pipeline g₁ popped.1 popped.2
      obtain ⟨fuel, g', hrest⟩ := ih g₁.pipeline.output.contents.length
        (hn ▸ hless (by simp)) (g := g₁.route popped.1 popped.2) (hroute ▸ h₁) (by rw [hroute])
      exact ⟨fuel + 1, g', bind_eq_ok.mpr ⟨g, rfl, bind_eq_ok.mpr ⟨_, hpop, hrest⟩⟩⟩

theorem drainEngineResponses_isOk (h : Exact Command.bytes b₀ none g.pipeline) (turns : List ℕ) :
    ∃ fuel g', drainEngineResponses fuel turns g = .ok g' := by
  induction turns generalizing g with
  | nil => exact drainEngineResponses_nil_isOk h
  | cons n turns ih =>
    obtain ⟨g₁, hturns, h₁⟩ := engineTurns_isOk h n
    obtain ⟨popped, g₂, hpop, h₂, -⟩ := popResponse_isOk h₁
    cases popped with
    | none => exact ⟨1, g₂, bind_eq_ok.mpr ⟨g₁, hturns, bind_eq_ok.mpr ⟨_, hpop, rfl⟩⟩⟩
    | some popped =>
      have hroute := route_pipeline g₂ popped.1 popped.2
      obtain ⟨fuel, g', hrest⟩ := ih (g := g₂.route popped.1 popped.2) (hroute ▸ h₂)
      exact ⟨fuel + 1, g', bind_eq_ok.mpr ⟨g₁, hturns, bind_eq_ok.mpr ⟨_, hpop, hrest⟩⟩⟩

/-- **Every call returns**; draining, after as many rounds as it takes. -/
theorem step_isOk (h : Exact Command.bytes b₀ none g.pipeline) (a : Action) :
    (∃ g', g.step a = .ok g') ∨
      ∃ fuel turns, a = .drain fuel turns ∧ ∃ fuel' g', g.step (.drain fuel' turns) = .ok g' := by
  cases a with
  | accept results => exact Or.inl ⟨_, rfl⟩
  | read fd results turns =>
    rw [step]
    cases g.connections fd with
    | none => exact Or.inl ⟨_, rfl⟩
    | some c =>
      obtain ⟨verdict, x, hx⟩ := readRequests_isOk h c results turns
      exact Or.inl ⟨_, bind_eq_ok.mpr ⟨_, hx, rfl⟩⟩
  | flush fd results =>
    rw [step]
    cases g.connections fd with
    | none => exact Or.inl ⟨_, rfl⟩
    | some c => exact Or.inl ⟨_, rfl⟩
  | drain fuel turns => exact Or.inr ⟨fuel, turns, rfl, drainEngineResponses_isOk h turns⟩
  | close fd => exact Or.inl ⟨_, rfl⟩
  | engine =>
    obtain ⟨g', hg', -⟩ := engineTurn_isOk h
    exact Or.inl ⟨g', hg'⟩

end Returns

/-! ## Refusals -/

theorem receiveLoop_ne_inUse (receive : List UInt8) (results : List RecvResult) :
    (receiveLoop receive results).1 ≠ .sessionInUse := by
  fun_induction receiveLoop receive results <;> simp_all

/-- **A connection that is refused a session** has no validator, and nothing has happened. -/
theorem Reading.decodeLoop_inUse {x x' : Reading} {fuel : ℕ} {turns : List ℕ}
    (h : decodeLoop fuel turns x = .ok (.sessionInUse, x')) :
    x.connection.validator = none ∧ x' = x := by
  induction fuel generalizing x turns with
  | zero => cases h
  | succ fuel ih =>
    rcases decodeLoop_cases h with ⟨-, hv, -⟩ | ⟨-, hv, -⟩ |
      ⟨request, n, v, y, -, hsession, hhandle, h⟩
    · cases hv
    · cases hv
    rcases h with ⟨-, rfl, rfl⟩ | ⟨rfl, h⟩
    · rcases handle_cases hhandle with ⟨-, hnone, heq⟩ | ⟨-, hv⟩
      · exact ⟨hnone, heq⟩
      · simp at hv
    · -- a connection whose request was handled has a validator
      exact absurd (ih h).1 (handle_kept (by decide) hhandle).validator

theorem readRequests_inUse {results : List RecvResult} {turns : List ℕ} {x : Reading}
    (h : g.readRequests c results turns = .ok (.sessionInUse, x)) :
    c.validator = none ∧ x = g.reading c results := by
  rcases readRequests_cases h with ⟨-, hv, -⟩ | ⟨-, v, y, hloop, h⟩
  · exact absurd hv.symm (receiveLoop_ne_inUse _ _)
  · rcases h with ⟨-, rfl, rfl⟩ | ⟨-, -, hv⟩
    · exact Reading.decodeLoop_inUse hloop
    · split_ifs at hv

theorem closeConnection_of_zero {fd : ℕ} (hc : g.connections fd = some c) (hs : c.sessionId = 0) :
    (g.closeConnection fd).sessionToFd = g.sessionToFd := by
  simp [closeConnection, hc, hs]

/-! ## One request -/

/-- **A first request** whose session is free, that passes the validator and finds room. -/
theorem Reading.handle_first {x : Reading} {request : Request} {v : SessionValidator}
    (hv : x.connection.validator = none) (hfree : x.gateway.sessionToFd request.sessionId = none)
    (hvalid : SessionValidator.validateAndAdvance { sessionId := request.sessionId } request =
      (.none, v))
    (hpush : { x.gateway with
        sessionToFd := Function.update x.gateway.sessionToFd request.sessionId
          (some x.connection.fd) }.pushRequest x.connection.serial
        ⟨request.sessionId, request.clientSequence, request.command⟩ = .ok (true, g')) :
    x.handle request 0 = .ok (.keep, {
      gateway := g'
      connection := { x.connection with sessionId := request.sessionId, validator := some v }
      consumed := x.consumed
      handed := x.handed ++ [request] }) := by
  have hclaim : (x.claim request.sessionId).gateway = { x.gateway with
      sessionToFd := Function.update x.gateway.sessionToFd request.sessionId
        (some x.connection.fd) } := by
    rw [claim, emplace, hfree]
    rfl
  rw [← hclaim] at hpush
  simp only [handle, bindSession, hv, hfree, Option.isSome_none, Bool.false_eq_true, if_false, check,
    hvalid, ne_eq, not_true_eq_false]
  exact bind_eq_ok.mpr ⟨_, rfl, bind_eq_ok.mpr ⟨_, hpush, rfl⟩⟩

theorem readRequests_one {frame : List UInt8} {results : List RecvResult} {request : Request}
    {v : ReadVerdict} {y : Reading} (hreceive : receiveLoop c.receive results = (.keep, frame))
    (hdec : Protocol.decodeRequest frame = .ok ⟨.ok, frame.length, request⟩)
    (hhandle : Reading.handle { gateway := g, connection := { c with receive := frame } } request 0 =
      .ok (v, y)) :
    (v ≠ .keep → g.readRequests c results [] = .ok (v, y)) ∧
      (v = .keep → y.connection.receive = frame → y.consumed = 0 →
        g.readRequests c results [] = .ok (.keep, { y with
          connection := { y.connection with receive := [] }
          consumed := frame.length })) := by
  obtain ⟨byte, rest, rfl⟩ : ∃ byte rest, frame = byte :: rest := by
    cases frame with
    | nil => cases hdec
    | cons byte rest => exact ⟨byte, rest, rfl⟩
  refine ⟨fun hv => ?_, fun hv hr hc => ?_⟩
  · have hloop : Reading.decodeLoop (rest.length + 1 + 1) []
        { gateway := g, connection := { c with receive := byte :: rest } } = .ok (v, y) := by
      simp [Reading.decodeLoop, hdec, hhandle, bind, Except.bind, hv]
    simp only [readRequests, hreceive]
    exact bind_eq_ok.mpr ⟨_, hloop, if_pos hv⟩
  · have hloop : Reading.decodeLoop (rest.length + 1 + 1) []
        { gateway := g, connection := { c with receive := byte :: rest } } =
          .ok (.keep, { y with consumed := rest.length + 1 }) := by
      simp [Reading.decodeLoop, hdec, hhandle, bind, Except.bind, hv, hr, hc]
    simp only [readRequests, hreceive]
    refine bind_eq_ok.mpr ⟨_, hloop, ?_⟩
    simp [Reading.compact, receiveCapacity, hr]

theorem receiveLoop_one {frame : List UInt8} (h : frame ≠ []) :
    receiveLoop [] [.data frame] = (.keep, frame) := by
  cases frame with
  | nil => exact absurd rfl h
  | cons byte rest => rfl

/-- A request has been pushed. -/
structure Pushed (g : TcpGateway) (serial : ℕ) (r : GatewayRequest) (g' : TcpGateway) : Prop where
  connections : g'.connections = g.connections
  sessionToFd : g'.sessionToFd = g.sessionToFd
  accepted : g'.accepted = g.accepted
  delivered : g'.delivered = g.delivered
  origins : g'.origins = { g.origins with requests := g.origins.requests ++ [serial] }
  runner : g'.pipeline.runner = g.pipeline.runner
  taken : g'.pipeline.taken = g.pipeline.taken
  output : g'.pipeline.output = g.pipeline.output
  wf : g'.pipeline.input.WF
  size : g'.pipeline.input.buffer.size = g.pipeline.input.buffer.size
  contents : g'.pipeline.input.contents = g.pipeline.input.contents ++ [r]

theorem pushRequest_room (hwf : g.pipeline.input.WF)
    (hroom : g.pipeline.input.contents.length < g.pipeline.input.buffer.size - 1) (serial : ℕ)
    (r : GatewayRequest) : ∃ g', g.pushRequest serial r = .ok (true, g') ∧ Pushed g serial r g' := by
  rcases hwf.tryPush r with ⟨hfull, -⟩ | ⟨-, input, hpush, hwf', hsize, hcontents⟩
  · omega
  · exact ⟨_, bind_eq_ok.mpr ⟨_, hpush, rfl⟩, rfl, rfl, rfl, rfl, rfl, rfl, rfl, rfl, hwf', hsize,
      hcontents⟩

theorem Reading.handle_first_room {x : Reading} {request : Request} {v : SessionValidator}
    (hv : x.connection.validator = none) (hfree : x.gateway.sessionToFd request.sessionId = none)
    (hvalid : SessionValidator.validateAndAdvance { sessionId := request.sessionId } request =
      (.none, v))
    (hwf : x.gateway.pipeline.input.WF)
    (hroom : x.gateway.pipeline.input.contents.length <
      x.gateway.pipeline.input.buffer.size - 1) :
    ∃ g', { x.gateway with
          sessionToFd := Function.update x.gateway.sessionToFd request.sessionId
            (some x.connection.fd) }.pushRequest x.connection.serial
          ⟨request.sessionId, request.clientSequence, request.command⟩ = .ok (true, g') ∧
      Pushed { x.gateway with
          sessionToFd := Function.update x.gateway.sessionToFd request.sessionId
            (some x.connection.fd) } x.connection.serial
        ⟨request.sessionId, request.clientSequence, request.command⟩ g' ∧
      x.handle request 0 = .ok (.keep, {
        gateway := g'
        connection := { x.connection with sessionId := request.sessionId, validator := some v }
        consumed := x.consumed
        handed := x.handed ++ [request] }) := by
  obtain ⟨g', hpush, hpushed⟩ := pushRequest_room
    (g := { x.gateway with
      sessionToFd := Function.update x.gateway.sessionToFd request.sessionId
        (some x.connection.fd) })
    hwf hroom x.connection.serial ⟨request.sessionId, request.clientSequence, request.command⟩
  exact ⟨g', hpush, hpushed, Reading.handle_first hv hfree hvalid hpush⟩

/-- **A connection sends its first request**: it is bound, and the request is in the queue. -/
theorem step_read_first {frame : List UInt8} {request : Request} {v : SessionValidator}
    (hc : g.connections c.fd = some c) (hempty : c.receive = []) (hv : c.validator = none)
    (hfree : g.sessionToFd request.sessionId = none)
    (hdec : Protocol.decodeRequest frame = .ok ⟨.ok, frame.length, request⟩)
    (hvalid : SessionValidator.validateAndAdvance { sessionId := request.sessionId } request =
      (.none, v))
    (hwf : g.pipeline.input.WF)
    (hroom : g.pipeline.input.contents.length < g.pipeline.input.buffer.size - 1) :
    ∃ g', g.step (.read c.fd [.data frame] []) =
        .ok (g'.store { c with sessionId := request.sessionId, validator := some v }) ∧
      { g with sessionToFd := Function.update g.sessionToFd request.sessionId (some c.fd) }.pushRequest
        c.serial ⟨request.sessionId, request.clientSequence, request.command⟩ = .ok (true, g') ∧
      Pushed { g with
          sessionToFd := Function.update g.sessionToFd request.sessionId (some c.fd) }
        c.serial ⟨request.sessionId, request.clientSequence, request.command⟩ g' := by
  obtain ⟨g', hpush, hpushed, hhandle⟩ := Reading.handle_first_room
    (x := { gateway := g, connection := { c with receive := frame } }) hv hfree hvalid hwf hroom
  have hne : frame ≠ [] := by
    rintro rfl
    cases hdec
  have hread := (readRequests_one (hempty ▸ receiveLoop_one hne) hdec hhandle).2 rfl rfl rfl
  refine ⟨g', ?_, hpush, hpushed⟩
  simp only [step, hc]
  refine bind_eq_ok.mpr ⟨_, hread, ?_⟩
  simp only [← hempty]

/-- The gateway at its start. -/
structure Starts (g : TcpGateway) (book : OrderBook) : Prop where
  new : TcpGateway.new = .ok g
  isNew : OrderBook.new gatewayBookConfig = .ok book
  connections : g.connections = fun _ => none
  sessionToFd : g.sessionToFd = fun _ => none
  accepted : g.accepted = 0
  origins : g.origins = {}
  delivered : g.delivered = []
  runner : g.pipeline.runner = .new book none
  input : g.pipeline.input.WF ∧ g.pipeline.input.contents = [] ∧
    65536 ≤ g.pipeline.input.buffer.size - 1
  output : g.pipeline.output.WF ∧ g.pipeline.output.contents = [] ∧
    262144 ≤ g.pipeline.output.buffer.size - 1

theorem exists_gatewayBook : ∃ b, OrderBook.new gatewayBookConfig = .ok b :=
  OrderBook.new_isOk (by decide : checkedPriceCount gatewayBookConfig = .ok 2001) (by decide)

theorem exists_starts : ∃ g book, Starts g book := by
  obtain ⟨book, hbook⟩ := exists_gatewayBook
  obtain ⟨requests, hreq⟩ : ∃ q, SpscQueue.new (T := GatewayRequest) 65536 = .ok q := ⟨_, rfl⟩
  obtain ⟨responses, hresp⟩ : ∃ q, SpscQueue.new (T := GatewayResponse) 262144 = .ok q := ⟨_, rfl⟩
  have hnew : TcpGateway.new = .ok _ :=
    bind_eq_ok.mpr ⟨_, hbook, bind_eq_ok.mpr ⟨_, hreq, bind_eq_ok.mpr ⟨_, hresp, rfl⟩⟩⟩
  exact ⟨_, book, hnew, hbook, rfl, rfl, rfl, rfl, rfl, rfl, SpscQueue.WF.new hreq,
    SpscQueue.WF.new hresp⟩

/-- A cancel request on the wire. -/
def cancelFrame (session : UInt32) (sequence orderId : UInt64) : List UInt8 :=
  (Protocol.encodeRequest ⟨session, sequence, { type := .cancel, orderId }⟩ 80).getD []

theorem decode_cancelFrame_seven : Protocol.decodeRequest (cancelFrame 1 1 7) =
    .ok ⟨.ok, (cancelFrame 1 1 7).length, ⟨1, 1, { type := .cancel, orderId := 7 }⟩⟩ := by decide

theorem decode_cancelFrame_eight : Protocol.decodeRequest (cancelFrame 1 1 8) =
    .ok ⟨.ok, (cancelFrame 1 1 8).length, ⟨1, 1, { type := .cancel, orderId := 8 }⟩⟩ := by decide

/-! ## Result -/

/-- **The session table is consistent**, whatever calls are made in whatever order, and every call
returns. -/
theorem session_table_consistent (h : Reaches (fun _ _ => True) g) :
    (∀ s fd, g.sessionToFd s = some fd ↔
        ∃ c, g.connections fd = some c ∧ c.validator ≠ none ∧ c.sessionId = s) ∧
      (∀ fd c, g.connections fd = some c → c.fd = fd ∧ (c.sessionId ≠ 0 ↔ c.validator ≠ none) ∧
        ∀ v, c.validator = some v → v.sessionId = c.sessionId) ∧
      (∀ fd fd' c c', g.connections fd = some c → g.connections fd' = some c' →
        c.validator ≠ none → c'.validator ≠ none → c.sessionId = c'.sessionId → fd = fd') ∧
      (∀ fd c results turns x, g.connections fd = some c →
        g.readRequests c results turns = .ok (.sessionInUse, x) →
        ((x.gateway.store x.connection).closeConnection fd).sessionToFd = g.sessionToFd) ∧
      ∀ a, (∃ g', g.step a = .ok g') ∨ ∃ fuel turns, a = .drain fuel turns ∧
        ∃ fuel' g', g.step (.drain fuel' turns) = .ok g' := by
  obtain ⟨hcons, b₀, hexact⟩ := h.sound
  refine ⟨hcons.table, fun fd c hc => ⟨hcons.keyed fd c hc, ⟨fun hs hv => ?_, fun hv => ?_⟩,
    fun v hv => (hcons.bound fd c v hc hv).1⟩, fun fd fd' c c' hc hc' hv hv' heq => ?_,
    fun fd c results turns x hc hx => ?_, step_isOk hexact⟩
  · exact hs (hcons.unbound fd c hc hv)
  · obtain ⟨v, hv⟩ := Option.ne_none_iff_exists'.mp hv
    exact (hcons.bound fd c v hc hv).2
  · have hfd := (hcons.table c.sessionId fd).mpr ⟨c, hc, hv, rfl⟩
    have hfd' := (hcons.table c.sessionId fd').mpr ⟨c', hc', hv', heq.symm⟩
    exact Option.some.inj (hfd.symm.trans hfd')
  · obtain ⟨hv, rfl⟩ := readRequests_inUse hx
    obtain rfl := hcons.keyed fd c hc
    exact closeConnection_of_zero (store_connections ..) (hcons.unbound _ c hc hv)

/-- Two peers ask for session 1; the second is refused. -/
theorem session_table_consistent_two_peers : ∃ g₀ g₁ g₂ c x,
    TcpGateway.new = .ok g₀ ∧ g₀.step (.accept [{ fd := 5 }, { fd := 6 }]) = .ok g₁ ∧
    g₁.step (.read 5 [.data (cancelFrame 1 1 7)] []) = .ok g₂ ∧ g₂.connections 6 = some c ∧
    g₂.readRequests c [.data (cancelFrame 1 1 8)] [] = .ok (.sessionInUse, x) ∧
    ((x.gateway.store x.connection).closeConnection 6).sessionToFd 1 = some 5 := by
  obtain ⟨g₀, book, hstart⟩ := exists_starts
  have hfree : ∀ fd, g₀.connections fd = none := fun fd => by rw [hstart.connections]
  obtain ⟨g₁, haccept, hfive, hsix, htable, hpipe⟩ : ∃ g₁,
      g₀.step (.accept [{ fd := 5 }, { fd := 6 }]) = .ok g₁ ∧
      g₁.connections 5 = some { fd := 5, serial := 0 } ∧
      g₁.connections 6 = some { fd := 6, serial := 1 } ∧
      g₁.sessionToFd = g₀.sessionToFd ∧ g₁.pipeline = g₀.pipeline :=
    ⟨_, rfl, by simp [acceptConnections, acceptOne, emplace, hfree, hstart.accepted]⟩
  obtain ⟨g₂, hread, -, hpushed⟩ := step_read_first (g := g₁) (c := { fd := 5, serial := 0 })
    (v := ⟨1, 2, {}⟩) hfive rfl rfl (by rw [htable, hstart.sessionToFd]) decode_cancelFrame_seven
    (by decide)
    (by rw [hpipe]; exact hstart.input.1)
    (by rw [hpipe, hstart.input.2.1, List.length_nil]; have := hstart.input.2.2; omega)
  have hreach : Reaches (fun _ _ => True) _ :=
    .step (a := .read 5 [.data (cancelFrame 1 1 7)] [])
      (.step (a := .accept [{ fd := 5 }, { fd := 6 }]) (.new hstart.new)
        ⟨hfree 5, by simp [acceptOne, emplace, hfree], trivial⟩ haccept)
      (fun _ _ _ _ _ _ _ => trivial) hread
  have hbound : g₂.sessionToFd 1 = some 5 := by
    simp [hpushed.sessionToFd]
  have hsix' : (g₂.store { fd := 5, serial := 0, sessionId := 1, validator := some ⟨1, 2, {}⟩ }
      ).connections 6 = some { fd := 6, serial := 1 } := by
    rw [store_of_ne _ (by decide), hpushed.connections]
    exact hsix
  have hrefuse := (readRequests_one
    (g := g₂.store { fd := 5, serial := 0, sessionId := 1, validator := some ⟨1, 2, {}⟩ })
    (c := { fd := 6, serial := 1 }) (v := .sessionInUse) (receiveLoop_one (by decide))
    decode_cancelFrame_eight
    (by simp only [Reading.handle, Reading.bindSession, store, hbound]; rfl)).1 (by decide)
  refine ⟨g₀, g₁, _, _, _, hstart.new, haccept, hread, hsix', hrefuse, ?_⟩
  rw [(session_table_consistent hreach).2.2.2.1 6 _ _ _ _ hsix' hrefuse]
  exact hbound

end TcpGateway

end Dme
