import MatchingEngine.SessionTable

/-!
# Responses and their connections

A response is routed by its session. A session can be bound again while requests of the connection that
had it before are still in flight, and their responses then go to the new connection
(**`response_crosses_connections`**).

* `Quiet p s`: nothing of session `s` is in flight.
* `Tracks R p o`: what is in flight is related to its origin; `Tracks.run`, `Tracks.push`, `Tracks.pop`.
* `Owns g s n`: if the session has a connection, it is number `n`; **`Routed`**, `Routed.move`.
* `engineTurns_one`, `step_drain_one`, `exists_joined`: one request on its way through the gateway.
* **`responses_stay_with_connections`**: if sessions are bound only while they are quiet, every response
  goes to the connection its request was read from.
-/

set_option autoImplicit false

namespace Dme

/-- The request in work, if an answer to it is still to come. -/
def Pipeline.current (p : Pipeline) : Option GatewayRequest :=
  match p.runner.pc with
  | .ready => none
  | .popped incoming => some incoming
  | .sequenced incoming => some incoming
  | .journaled incoming => some incoming
  | .publishing _ [] => none
  | .publishing incoming (_ :: _) => some incoming

theorem Pipeline.eq_of_publishing {p : Pipeline} {incoming r : GatewayRequest} {events : List Event}
    (hpc : p.runner.pc = .publishing incoming events) (hr : r ∈ p.current) : r = incoming := by
  rw [Pipeline.current, hpc] at hr
  cases events with
  | nil => cases hr
  | cons e events =>
    cases hr
    rfl

theorem Market.process_cancel (m : Market) {c : Command} (h : c.type = .cancel) :
    ∃ e, (m.process c).2 = [e] := by
  rw [Market.process]
  split_ifs
  · exact ⟨_, rfl⟩
  · rw [Market.perform, h]
    dsimp only [Market.cancel]
    cases m.find c.orderId <;> exact ⟨_, rfl⟩

namespace TcpGateway

open Labelled (Path)
open Protocol (Request Response)

variable {allow : Pipeline → UInt32 → Prop} {g g' : TcpGateway} {c c' : Connection}

/-- **Nothing of the session is in flight.** -/
def Quiet (p : Pipeline) (s : UInt32) : Prop :=
  (∀ r ∈ p.input.contents, r.sessionId ≠ s) ∧ (∀ r ∈ p.current, r.sessionId ≠ s) ∧
    ∀ r ∈ p.output.contents, r.sessionId ≠ s

/-! ## What is in flight -/

/-- The session of everything in flight is related to where it came from. -/
structure Tracks (R : UInt32 → ℕ → Prop) (p : Pipeline) (o : Origins) : Prop where
  requests : List.Forall₂ (fun r n => R r.sessionId n) p.input.contents o.requests
  current : ∀ r ∈ p.current, R r.sessionId o.current
  responses : List.Forall₂ (fun r n => R r.sessionId n) p.output.contents o.responses

variable {R R' : UInt32 → ℕ → Prop} {p p' : Pipeline} {o : Origins}

theorem Tracks.mono (h : Tracks R p o) (hR : ∀ s n, R s n → R' s n) : Tracks R' p o :=
  ⟨h.requests.imp fun _ _ => hR _ _, fun r hr => hR _ _ (h.current r hr),
    h.responses.imp fun _ _ => hR _ _⟩

theorem Tracks.of_quiet {s : UInt32} (h : Tracks R p o) (hq : Quiet p s)
    (hR : ∀ t n, t ≠ s → R t n → R' t n) : Tracks R' p o := by
  obtain ⟨hin, hcur, hout⟩ := hq
  refine ⟨?_, fun r hr => hR _ _ (hcur r hr) (h.current r hr), ?_⟩
  · exact ((List.forall₂_and_left _ _).mpr ⟨hin, h.requests⟩).imp fun r n hr => hR _ _ hr.1 hr.2
  · exact ((List.forall₂_and_left _ _).mpr ⟨hout, h.responses⟩).imp fun r n hr => hR _ _ hr.1 hr.2

/-- **A statement of the runner** takes a request with its origin, or pushes a response with it. -/
theorem Tracks.run {bytes : Command → List UInt8} (h : Tracks R p o) (hin : p.input.WF)
    (hout : p.output.WF) (hrun : p.run bytes = .ok p') : Tracks R p' (trackTurn o p p') := by
  obtain ⟨input, output, ⟨book, journal, next, pc⟩, sent, taken, received⟩ := p
  obtain ⟨hrequests, hcurrent, hresponses⟩ := h
  dsimp only at hin hout hrequests hresponses
  cases pc with
  | ready =>
    rcases hin.tryPop with ⟨-, hpop⟩ | ⟨r, rest, input', hcontents, hpop, -, -, hrest⟩
    · simp only [Pipeline.run, hpop, bind, Except.bind] at hrun
      cases hrun
      exact ⟨hrequests, hcurrent, hresponses⟩
    · simp only [Pipeline.run, hpop, bind, Except.bind] at hrun
      cases hrun
      rw [hcontents] at hrequests
      obtain ⟨n, ns, hn, hns, ho⟩ := List.forall₂_cons_left_iff.mp hrequests
      simp only [trackTurn, ho, reduceCtorEq, if_false, List.tail_cons, List.headD_cons]
      refine ⟨hrest ▸ hns, fun r' hr' => ?_, hresponses⟩
      cases hr'
      exact hn
  | popped incoming =>
    cases hrun
    refine ⟨hrequests, fun r hr => ?_, hresponses⟩
    cases hr
    exact hcurrent incoming rfl
  | sequenced incoming =>
    cases hrun
    refine ⟨hrequests, fun r hr => ?_, hresponses⟩
    cases hr
    exact hcurrent incoming rfl
  | journaled incoming =>
    obtain ⟨⟨book', events⟩, -, hrun⟩ := bind_eq_ok.mp hrun
    cases hrun
    refine ⟨hrequests, fun r hr => ?_, hresponses⟩
    rw [Pipeline.eq_of_publishing rfl hr]
    exact hcurrent incoming rfl
  | publishing incoming events =>
    cases events with
    | nil =>
      cases hrun
      refine ⟨hrequests, fun r hr => ?_, hresponses⟩
      cases hr
    | cons e events =>
      rcases hout.tryPush (incoming.response e) with
        ⟨-, hpush⟩ | ⟨-, output', hpush, -, -, hcontents⟩
      · simp only [Pipeline.run, hpush, bind, Except.bind, Bool.false_eq_true, if_false] at hrun
        cases hrun
        rw [trackTurn, if_pos rfl]
        exact ⟨hrequests, hcurrent, hresponses⟩
      · simp only [Pipeline.run, hpush, bind, Except.bind, if_true] at hrun
        cases hrun
        have hne : RunnerPc.publishing incoming events ≠ .publishing incoming (e :: events) := by simp
        simp only [trackTurn, hne, if_false]
        refine ⟨hrequests, fun r hr => ?_, ?_⟩
        · rw [Pipeline.eq_of_publishing rfl hr]
          exact hcurrent incoming rfl
        · change List.Forall₂ _ output'.contents _
          rw [hcontents]
          exact List.rel_append hresponses (.cons (hcurrent incoming rfl) .nil)

theorem Tracks.push {serial : ℕ} {r : GatewayRequest} {pushed : Bool}
    (h : Tracks R g.pipeline g.origins) (hin : g.pipeline.input.WF) (hr : R r.sessionId serial)
    (hpush : g.pushRequest serial r = .ok (pushed, g')) : Tracks R g'.pipeline g'.origins := by
  rcases hin.tryPush r with ⟨-, hp⟩ | ⟨-, input, hp, -, -, hcontents⟩
  · simp only [pushRequest, hp, bind, Except.bind] at hpush
    cases hpush
    exact h
  · simp only [pushRequest, hp, bind, Except.bind, if_true] at hpush
    cases hpush
    refine ⟨?_, h.current, h.responses⟩
    change List.Forall₂ _ input.contents _
    rw [hcontents]
    exact List.rel_append h.requests (.cons hr .nil)

theorem Tracks.pop {popped : Option (GatewayResponse × ℕ)} (h : Tracks R g.pipeline g.origins)
    (hout : g.pipeline.output.WF) (hpop : g.popResponse = .ok (popped, g')) :
    Tracks R g'.pipeline g'.origins ∧ ∀ r n, popped = some (r, n) → R r.sessionId n := by
  rcases hout.tryPop with ⟨-, hp⟩ | ⟨x, rest, output, hcontents, hp, -, -, hrest⟩
  · simp only [popResponse, hp, bind, Except.bind] at hpop
    cases hpop
    exact ⟨⟨h.requests, h.current, h.responses⟩, fun r n hr => by cases hr⟩
  · simp only [popResponse, hp, bind, Except.bind] at hpop
    cases hpop
    have hresponses := h.responses
    rw [hcontents] at hresponses
    obtain ⟨n, ns, hn, hns, ho⟩ := List.forall₂_cons_left_iff.mp hresponses
    rw [ho]
    refine ⟨⟨h.requests, h.current, ?_⟩, fun r m hr => ?_⟩
    · change List.Forall₂ _ output.contents ns
      rwa [hrest]
    · cases hr
      exact hn

/-! ## Owners -/

/-- If the session has a connection, it is the one numbered `n`. -/
def Owns (g : TcpGateway) (s : UInt32) (n : ℕ) : Prop :=
  ∀ fd c, g.connections fd = some c → c.validator ≠ none → c.sessionId = s → c.serial = n

/-- The connections are numbered as they were, and none is bound anew. -/
def Keeps (g g' : TcpGateway) : Prop :=
  ∀ fd c', g'.connections fd = some c' → ∃ c, g.connections fd = some c ∧ c.serial = c'.serial ∧
    (c'.validator ≠ none → c.validator ≠ none ∧ c.sessionId = c'.sessionId)

theorem Owns.mono {s : UInt32} {n : ℕ} (h : Owns g s n) (hk : Keeps g g') : Owns g' s n := by
  intro fd c' hc' hv hs
  obtain ⟨c, hc, hserial, hbound⟩ := hk fd c' hc'
  obtain ⟨hv', heq⟩ := hbound hv
  rw [← hserial]
  exact h fd c hc hv' (heq.trans hs)

theorem Keeps.of_eq (h : g'.connections = g.connections) : Keeps g g' := by
  intro fd c hc
  rw [h] at hc
  exact ⟨c, hc, rfl, fun hv => ⟨hv, rfl⟩⟩

theorem Keeps.trans {g'' : TcpGateway} (h : Keeps g g') (h' : Keeps g' g'') : Keeps g g'' := by
  intro fd c'' hc''
  obtain ⟨c', hc', hserial', hbound'⟩ := h' fd c'' hc''
  obtain ⟨c, hc, hserial, hbound⟩ := h fd c' hc'
  refine ⟨c, hc, hserial.trans hserial', fun hv => ?_⟩
  obtain ⟨hv', hs'⟩ := hbound' hv
  exact ⟨(hbound hv').1, (hbound hv').2.trans hs'⟩

theorem Keeps.store (hc : g.connections c.fd = some c) (hs : Same c c') : Keeps g (g.store c') := by
  intro fd x hx
  rcases store_cases hx with ⟨rfl, rfl⟩ | ⟨-, hx⟩
  · exact ⟨c, by rw [hs.fd, hc], hs.serial.symm, fun hv =>
      ⟨fun hn => hv (hs.validator_eq_none.mpr hn), hs.sessionId.symm⟩⟩
  · exact ⟨x, hx, rfl, fun hv => ⟨hv, rfl⟩⟩

theorem Keeps.close (g : TcpGateway) (fd : ℕ) : Keeps g (g.closeConnection fd) := by
  intro fd' x hx
  rw [closeConnection] at hx
  cases hc : g.connections fd with
  | none =>
    simp only [hc] at hx
    exact ⟨x, hx, rfl, fun hv => ⟨hv, rfl⟩⟩
  | some c =>
    simp only [hc] at hx
    by_cases hfd : fd' = fd
    · rw [hfd, Function.update_self] at hx
      cases hx
    · rw [Function.update_of_ne hfd] at hx
      exact ⟨x, hx, rfl, fun hv => ⟨hv, rfl⟩⟩

theorem Owns.claim {s t : UInt32} {n : ℕ} (h : Owns g t n) (hne : t ≠ s) :
    Owns ({ g with sessionToFd := Function.update g.sessionToFd s (some c.fd) }.store
      { c with sessionId := s, validator := some { sessionId := s } }) t n := by
  intro fd x hx hv hs
  rcases store_cases hx with ⟨-, rfl⟩ | ⟨-, hx⟩
  · exact absurd hs.symm hne
  · exact h fd x hx hv hs

theorem closeConnection_frame (g : TcpGateway) (fd : ℕ) :
    (g.closeConnection fd).origins = g.origins ∧ (g.closeConnection fd).delivered = g.delivered ∧
      (g.closeConnection fd).accepted = g.accepted := by
  rw [closeConnection]
  cases g.connections fd <;> exact ⟨rfl, rfl, rfl⟩

/-- **Routing a response**: nothing is bound, and it goes to the connection of its session. -/
theorem Consistent.route_spec (h : Consistent g) (r : GatewayResponse) (n : ℕ) :
    Keeps g (g.route r n) ∧ (g.route r n).origins = g.origins ∧
      (g.route r n).accepted = g.accepted ∧
      ∀ d ∈ (g.route r n).delivered, d ∈ g.delivered ∨
        ∃ fd c, g.connections fd = some c ∧ c.validator ≠ none ∧ c.sessionId = r.sessionId ∧
          d = ⟨c.serial, n⟩ := by
  rw [TcpGateway.route]
  cases hfd : g.sessionToFd r.sessionId with
  | none => exact ⟨.of_eq rfl, rfl, rfl, fun d hd => Or.inl hd⟩
  | some fd =>
    obtain ⟨c, hc, hv, hs⟩ := (h.table _ _).mp hfd
    obtain rfl := h.keyed fd c hc
    have hsame := queueResponse_same c ⟨r.sessionId, r.clientSequence, r.event⟩
    have hkeep := Keeps.store hc hsame
    simp only [hc]
    split
    · refine ⟨hkeep.trans (.of_eq rfl), rfl, rfl, fun d hd => ?_⟩
      rcases List.mem_append.mp hd with hd | hd
      · exact Or.inl hd
      · rw [List.mem_singleton, hsame.serial] at hd
        exact Or.inr ⟨c.fd, c, hc, hv, hs, hd⟩
    · obtain ⟨ho, hd, ha⟩ := closeConnection_frame
        (g.store (c.queueResponse ⟨r.sessionId, r.clientSequence, r.event⟩).2) c.fd
      refine ⟨hkeep.trans (Keeps.close _ _), ho, ha, fun d hd' => Or.inl ?_⟩
      rw [hd] at hd'
      exact hd'

/-! ## The invariant -/

/-- Every connection has its own number. -/
structure Numbered (g : TcpGateway) : Prop where
  below : ∀ fd c, g.connections fd = some c → c.serial < g.accepted
  distinct : ∀ fd fd' c c', g.connections fd = some c → g.connections fd' = some c' →
    c.serial = c'.serial → fd = fd'

theorem Numbered.mono (h : Numbered g) (ha : g'.accepted = g.accepted)
    (hs : ∀ fd c', g'.connections fd = some c' →
      ∃ c, g.connections fd = some c ∧ c.serial = c'.serial) : Numbered g' := by
  refine ⟨fun fd c' hc' => ?_, fun fd fd' c₁ c₂ hc₁ hc₂ heq => ?_⟩
  · obtain ⟨c, hc, hserial⟩ := hs fd c' hc'
    rw [← hserial, ha]
    exact h.below fd c hc
  · obtain ⟨x₁, hx₁, hserial₁⟩ := hs fd c₁ hc₁
    obtain ⟨x₂, hx₂, hserial₂⟩ := hs fd' c₂ hc₂
    exact h.distinct fd fd' x₁ x₂ hx₁ hx₂ (by rw [hserial₁, hserial₂, heq])

theorem Numbered.keeps (h : Numbered g) (hk : Keeps g g') (ha : g'.accepted = g.accepted) :
    Numbered g' :=
  h.mono ha fun fd c' hc' => (hk fd c' hc').imp fun _ hc => ⟨hc.1, hc.2.1⟩

/-- **What is in flight came from the connections that have its sessions**, and all that was delivered
was delivered where it came from. -/
structure Routed (g : TcpGateway) : Prop where
  sound : Sound g
  numbered : Numbered g
  tracks : Tracks (Owns g) g.pipeline g.origins
  delivered : ∀ d ∈ g.delivered, d.connection = d.origin

theorem Routed.new (h : TcpGateway.new = .ok g) : Routed g := by
  have hsound := Sound.new h
  obtain ⟨book, hbook, h⟩ := bind_eq_ok.mp h
  obtain ⟨requests, hreq, h⟩ := bind_eq_ok.mp h
  obtain ⟨responses, hresp, h⟩ := bind_eq_ok.mp h
  cases h
  obtain ⟨-, hempty, -⟩ := SpscQueue.WF.new hreq
  obtain ⟨-, hempty', -⟩ := SpscQueue.WF.new hresp
  refine ⟨hsound, ⟨fun fd c hc => ?_, fun fd fd' c c' hc => ?_⟩, ⟨?_, fun r hr => ?_, ?_⟩,
    fun d hd => ?_⟩
  · cases hc
  · cases hc
  · change List.Forall₂ _ requests.contents []
    rw [hempty]
    exact .nil
  · cases hr
  · change List.Forall₂ _ responses.contents []
    rw [hempty']
    exact .nil
  · cases hd

theorem Routed.keeps (h : Routed g) (hsound : Sound g') (hk : Keeps g g')
    (ha : g'.accepted = g.accepted) (ht : Tracks (Owns g) g'.pipeline g'.origins)
    (hd : ∀ d ∈ g'.delivered, d.connection = d.origin) : Routed g' :=
  ⟨hsound, h.numbered.keeps hk ha, ht.mono fun _ _ ho => ho.mono hk, hd⟩

theorem Routed.untouched (h : Routed g) (hsound : Sound g') (hu : Untouched g g')
    (ht : Tracks (Owns g) g'.pipeline g'.origins) : Routed g' :=
  h.keeps hsound (.of_eq hu.connections) hu.accepted ht (hu.delivered ▸ h.delivered)

theorem Routed.accept (h : Routed g) {fd : ℕ} (hsound : Sound { g with
      connections := Function.update g.connections fd (some { fd, serial := g.accepted })
      accepted := g.accepted + 1 }) : Routed { g with
      connections := Function.update g.connections fd (some { fd, serial := g.accepted })
      accepted := g.accepted + 1 } := by
  have hcase : ∀ fd' x, Function.update g.connections fd (some { fd, serial := g.accepted }) fd' =
      some x → (fd' = fd ∧ x = { fd, serial := g.accepted }) ∨ (fd' ≠ fd ∧ g.connections fd' = some x) :=
    fun fd' x hx => store_cases (c := { fd, serial := g.accepted }) hx
  refine ⟨hsound, ⟨fun fd' x hx => ?_, fun fd₁ fd₂ x₁ x₂ hx₁ hx₂ heq => ?_⟩,
    h.tracks.mono fun s n ho fd' x hx hv hs => ?_, h.delivered⟩
  · rcases hcase fd' x hx with ⟨-, rfl⟩ | ⟨-, hx⟩
    · exact Nat.lt_succ_self _
    · exact Nat.lt_succ_of_lt (h.numbered.below fd' x hx)
  · rcases hcase fd₁ x₁ hx₁ with ⟨hfd₁, rfl⟩ | ⟨-, hold₁⟩ <;>
      rcases hcase fd₂ x₂ hx₂ with ⟨hfd₂, rfl⟩ | ⟨-, hold₂⟩
    · exact hfd₁.trans hfd₂.symm
    · exact absurd heq.symm (h.numbered.below fd₂ x₂ hold₂).ne
    · exact absurd heq (h.numbered.below fd₁ x₁ hold₁).ne
    · exact h.numbered.distinct fd₁ fd₂ x₁ x₂ hold₁ hold₂ heq
  · rcases hcase fd' x hx with ⟨-, rfl⟩ | ⟨-, hx⟩
    · exact absurd rfl hv
    · exact ho fd' x hx hv hs

theorem Routed.claim {s : UInt32} (h : Routed g) (hc : g.connections c.fd = some c)
    (hq : Quiet g.pipeline s) (hsound : Sound ({ g with
        sessionToFd := Function.update g.sessionToFd s (some c.fd) }.store
      { c with sessionId := s, validator := some { sessionId := s } })) :
    Routed ({ g with sessionToFd := Function.update g.sessionToFd s (some c.fd) }.store
      { c with sessionId := s, validator := some { sessionId := s } }) := by
  refine ⟨hsound, h.numbered.mono rfl fun fd x hx => ?_,
    h.tracks.of_quiet hq fun t n hne ho => ho.claim hne, h.delivered⟩
  rcases store_cases hx with ⟨rfl, rfl⟩ | ⟨-, hx⟩
  · exact ⟨c, hc, rfl⟩
  · exact ⟨x, hx, rfl⟩

theorem Consistent.owns (h : Consistent g) {v : SessionValidator} (hc : g.connections c.fd = some c)
    (hv : c.validator = some v) : Owns g v.sessionId c.serial := by
  intro fd x hx hvx hs
  have hfd : g.sessionToFd v.sessionId = some fd := (h.table _ _).mpr ⟨x, hx, hvx, hs⟩
  have hfd' : g.sessionToFd v.sessionId = some c.fd :=
    (h.table_at hc).mpr ⟨by simp [hv], (h.bound _ c v hc hv).1.symm⟩
  obtain rfl : fd = c.fd := Option.some.inj (hfd.symm.trans hfd')
  rw [Option.some.inj (hx.symm.trans hc)]

/-- **Every move keeps responses on their way**, if sessions are bound only while they are quiet. -/
theorem Routed.move (h : Routed g) (hm : Move Quiet g g') : Routed g' := by
  have hsound := h.sound.move hm
  have hcons := h.sound.consistent
  obtain ⟨b₀, hexact⟩ := h.sound.exact
  cases hm with
  | accept fd hfree => exact h.accept hsound
  | touch hc hs => exact h.keeps hsound (.store hc hs) rfl h.tracks h.delivered
  | claim hc hv hfree hs hq => exact h.claim hc hq hsound
  | push hc hv hr hp =>
    have ht := h.tracks.push hexact.input (hr ▸ hcons.owns hc hv) hp
    exact h.untouched hsound (pushRequest_frame hp).1 ht
  | turn ht =>
    obtain ⟨hu, hrun⟩ := engineTurn_frame ht
    obtain ⟨p, -, heq⟩ := bind_eq_ok.mp ht
    cases heq
    exact h.untouched hsound hu (h.tracks.run hexact.input hexact.output hrun)
  | idle hp => exact h.untouched hsound (popResponse_frame hp).1 (h.tracks.pop hexact.output hp).1
  | @route g₁ r n hp =>
    obtain ⟨ht, hn⟩ := h.tracks.pop hexact.output hp
    obtain ⟨hu, -⟩ := popResponse_frame hp
    obtain ⟨hkeep, ho, ha, hd⟩ := (hcons.untouched hu).route_spec r n
    refine h.keeps hsound ((Keeps.of_eq hu.connections).trans hkeep) (ha.trans hu.accepted) ?_
      fun d hmem => ?_
    · rw [route_pipeline, ho]
      exact ht
    · rcases hd d hmem with hmem | ⟨fd, c, hc, hv, hs, rfl⟩
      · exact h.delivered d (hu.delivered ▸ hmem)
      · rw [hu.connections] at hc
        exact hn r n rfl fd c hc hv hs
  | close fd =>
    obtain ⟨ho, hd, ha⟩ := closeConnection_frame g fd
    refine h.keeps hsound (.close g fd) ha ?_ (hd ▸ h.delivered)
    rw [closeConnection_pipeline, ho]
    exact h.tracks

/-! ## One request through the gateway -/

/-- **Four statements of the engine**: a request is taken, sequenced, journaled and processed. -/
theorem engineTurns_process {r : GatewayRequest} {rest : List GatewayRequest} {book book' : OrderBook}
    {events : List Event} {next : Sequence}
    (hprocess : book.process (r.withSequence next).command [] = .ok (book', events))
    (hrunner : g.pipeline.runner = ⟨book, none, next, .ready⟩) (hin : g.pipeline.input.WF)
    (hrequests : g.pipeline.input.contents = r :: rest) :
    ∃ g', g.engineTurns 4 = .ok g' ∧ Untouched g g' ∧
      g'.pipeline.runner = ⟨book', none, next + 1, .publishing (r.withSequence next) events⟩ ∧
      g'.pipeline.output = g.pipeline.output ∧ g'.origins.responses = g.origins.responses ∧
      g'.origins.current = g.origins.requests.headD 0 := by
  obtain ⟨connections, table, ⟨input, output, runner, sent, taken, received⟩, accepted, origins,
    delivered⟩ := g
  dsimp only at hrunner hin hrequests
  subst hrunner
  rcases hin.tryPop with ⟨hempty, -⟩ | ⟨r', rest', input', hcontents, hpop, -⟩
  · cases hrequests.symm.trans hempty
  obtain ⟨rfl, rfl⟩ := List.cons.inj (hrequests.symm.trans hcontents)
  have hrun₁ : Pipeline.run Command.bytes
      ⟨input, output, ⟨book, none, next, .ready⟩, sent, taken, received⟩ = .ok
      ⟨input', output, ⟨book, none, next, .popped r⟩, sent, taken ++ [r], received⟩ :=
    bind_eq_ok.mpr ⟨_, hpop, rfl⟩
  have hrun₄ : Pipeline.run Command.bytes
      ⟨input', output, ⟨book, none, next + 1, .journaled (r.withSequence next)⟩, sent, taken ++ [r],
        received⟩ = .ok
      ⟨input', output, ⟨book', none, next + 1, .publishing (r.withSequence next) events⟩, sent,
        taken ++ [r], received⟩ :=
    bind_eq_ok.mpr ⟨_, hprocess, rfl⟩
  have hnext : ∀ g₁ p o, (TcpGateway.pipeline g₁).run Command.bytes = .ok p →
      trackTurn g₁.origins g₁.pipeline p = o →
      g₁.engineTurn = .ok { g₁ with pipeline := p, origins := o } := by
    rintro g₁ p _ hp rfl
    exact bind_eq_ok.mpr ⟨p, hp, rfl⟩
  exact ⟨_, bind_eq_ok.mpr ⟨_, hnext _ _ _ hrun₁ (if_neg (by simp)),
    bind_eq_ok.mpr ⟨_, hnext _ _ _ rfl (if_neg (by simp)),
    bind_eq_ok.mpr ⟨_, hnext _ _ _ rfl (if_neg (by simp)),
    bind_eq_ok.mpr ⟨_, hnext _ _ _ hrun₄ (if_neg (by simp)), rfl⟩⟩⟩⟩,
    ⟨rfl, rfl, rfl, rfl⟩, rfl, rfl, rfl, rfl⟩

theorem engineTurns_concat {n : ℕ} {g₁ : TcpGateway} (h : g.engineTurns n = .ok g₁)
    (hlast : g₁.engineTurn = .ok g') : g.engineTurns (n + 1) = .ok g' := by
  induction n generalizing g with
  | zero =>
    cases h
    exact bind_eq_ok.mpr ⟨g', hlast, rfl⟩
  | succ n ih =>
    obtain ⟨g₂, hfirst, h⟩ := bind_eq_ok.mp h
    exact bind_eq_ok.mpr ⟨g₂, hfirst, ih h⟩

/-- **Five statements of the engine**: the one event of a request is pushed, too. -/
theorem engineTurns_one {r : GatewayRequest} {rest : List GatewayRequest} {book book' : OrderBook}
    {e : Event} {next : Sequence}
    (hprocess : book.process (r.withSequence next).command [] = .ok (book', [e]))
    (hrunner : g.pipeline.runner = ⟨book, none, next, .ready⟩) (hin : g.pipeline.input.WF)
    (hrequests : g.pipeline.input.contents = r :: rest) (hout : g.pipeline.output.WF)
    (hroom : g.pipeline.output.contents.length < g.pipeline.output.buffer.size - 1) :
    ∃ g', g.engineTurns 5 = .ok g' ∧ Untouched g g' ∧ g'.pipeline.output.WF ∧
      g'.pipeline.output.contents = g.pipeline.output.contents ++ [r.response e] ∧
      g'.origins.responses = g.origins.responses ++ [g.origins.requests.headD 0] := by
  obtain ⟨g₁, hturns, hu, hrunner₁, hout₁, hresponses, hcurrent⟩ :=
    engineTurns_process hprocess hrunner hin hrequests
  rcases hout.tryPush (r.response e) with ⟨hfull, -⟩ | ⟨-, output', hpush, hwf, -, houtput⟩
  · omega
  obtain ⟨connections, table, ⟨input, output, runner, sent, taken, received⟩, accepted, origins,
    delivered⟩ := g₁
  dsimp only at hrunner₁ hout₁ hresponses hcurrent
  subst hrunner₁ hout₁
  have hrun : Pipeline.run Command.bytes
      ⟨input, g.pipeline.output, ⟨book', none, next + 1, .publishing (r.withSequence next) [e]⟩, sent,
        taken, received⟩ = .ok
      ⟨input, output', ⟨book', none, next + 1, .publishing (r.withSequence next) []⟩, sent, taken,
        received⟩ :=
    bind_eq_ok.mpr ⟨_, hpush, rfl⟩
  refine ⟨_, engineTurns_concat hturns (bind_eq_ok.mpr ⟨_, hrun, rfl⟩),
    ⟨hu.connections, hu.sessionToFd, hu.accepted, hu.delivered⟩, hwf, houtput, ?_⟩
  rw [← hresponses, ← hcurrent]
  exact congrArg Origins.responses (if_neg (by simp))

theorem process_cancel_one {book : OrderBook} {q : Queues} (hinv : Inv book q) {r : GatewayRequest}
    (h : r.command.type = .cancel) (next : Sequence) :
    ∃ book' e, book.process (r.withSequence next).command [] = .ok (book', [e]) := by
  obtain ⟨e, he⟩ := (book.market q).process_cancel (c := (r.withSequence next).command) h
  obtain ⟨book', q', hp, -⟩ := hinv.process (r.withSequence next).command []
  rw [he, List.nil_append] at hp
  exact ⟨book', e, hp⟩

theorem step_accept_one {fd : ℕ} (hfree : g.connections fd = none) :
    g.step (.accept [{ fd }]) = .ok { g with
      connections := Function.update g.connections fd (some { fd, serial := g.accepted })
      accepted := g.accepted + 1 } := by
  simp [step, acceptConnections, acceptOne, emplace, hfree]

theorem queueResponse_empty {response : Protocol.Response} (hbegin : c.transmitBegin = 0)
    (hempty : c.transmit = []) (hs : response.sessionId ≠ 0) (hn : response.clientSequence ≠ 0) :
    (c.queueResponse response).1 = true := by
  obtain ⟨frame, henc⟩ : ∃ frame,
      Protocol.encodeResponse response (transmitCapacity - c.transmitEnd) = some frame := by
    rw [Connection.transmitEnd, hbegin, hempty, Protocol.encodeResponse, if_neg]
    · exact ⟨_, rfl⟩
    · rintro (h | h | h)
      · exact absurd h (by decide)
      · exact hs h
      · exact hn h
  rw [Connection.queueResponse]
  simp only [hbegin, ne_eq, not_true_eq_false, false_and, if_false, henc]

theorem popResponse_cons {r : GatewayResponse} {rest : List GatewayResponse} {n : ℕ} {ns : List ℕ}
    (hwf : g.pipeline.output.WF) (hcontents : g.pipeline.output.contents = r :: rest)
    (ho : g.origins.responses = n :: ns) : ∃ g', g.popResponse = .ok (some (r, n), g') ∧
      Untouched g g' ∧ g'.pipeline.output.WF ∧ g'.pipeline.output.contents = rest := by
  rcases hwf.tryPop with ⟨hnil, -⟩ | ⟨x, rest', output, hcons, hpop, hwf', -, hrest⟩
  · cases hcontents.symm.trans hnil
  obtain ⟨rfl, rfl⟩ := List.cons.inj (hcontents.symm.trans hcons)
  have hok : g.popResponse = .ok (some (r, g.origins.responses.headD 0), _) :=
    bind_eq_ok.mpr ⟨_, hpop, rfl⟩
  rw [ho] at hok
  exact ⟨_, hok, ⟨rfl, rfl, rfl, rfl⟩, hwf', hrest⟩

theorem popResponse_nil (hwf : g.pipeline.output.WF) (hcontents : g.pipeline.output.contents = []) :
    ∃ g', g.popResponse = .ok (none, g') ∧ Untouched g g' := by
  rcases hwf.tryPop with ⟨-, hpop⟩ | ⟨x, rest, output, hcons, -⟩
  · exact ⟨_, bind_eq_ok.mpr ⟨_, hpop, rfl⟩, rfl, rfl, rfl, rfl⟩
  · cases hcontents.symm.trans hcons

theorem route_delivers {fd n : ℕ} {r : GatewayResponse} (hfd : g.sessionToFd r.sessionId = some fd)
    (hc : g.connections fd = some c) (hbegin : c.transmitBegin = 0) (hempty : c.transmit = [])
    (hs : r.sessionId ≠ 0) (hn : r.clientSequence ≠ 0) :
    (g.route r n).delivered = g.delivered ++ [⟨c.serial, n⟩] ∧
      g.answers r = [.answered c.serial r] ∧
      (g.route r n).connections = Function.update g.connections c.fd
        (some (c.queueResponse r.toResponse).2) := by
  have hq : (c.queueResponse r.toResponse).1 = true := queueResponse_empty hbegin hempty hs hn
  rw [TcpGateway.answers]
  simp only [TcpGateway.route, hfd, hc]
  rw [if_pos hq]
  rw [GatewayResponse.toResponse] at hq ⊢
  refine ⟨?_, rfl, ?_⟩
  · rw [if_pos hq, (queueResponse_same ..).serial]
    rfl
  · rw [if_pos hq]
    exact congrArg (fun k => Function.update g.connections k _) (queueResponse_same ..).fd

/-- **The engine answers a request by one event, and the answer is routed.** -/
theorem step_drain_one (allow : Pipeline → UInt32 → Prop) {r : GatewayRequest}
    {rest : List GatewayRequest} {book book' : OrderBook} {e : Event} {next : Sequence} {fd n : ℕ}
    {ns : List ℕ} (hprocess : book.process (r.withSequence next).command [] = .ok (book', [e]))
    (hrunner : g.pipeline.runner = ⟨book, none, next, .ready⟩) (hin : g.pipeline.input.WF)
    (hrequests : g.pipeline.input.contents = r :: rest)
    (hout : g.pipeline.output.WF) (hempty : g.pipeline.output.contents = [])
    (hroom : 0 < g.pipeline.output.buffer.size - 1)
    (ho : g.origins = ⟨n :: ns, 0, []⟩) (hfd : g.sessionToFd r.sessionId = some fd)
    (hc : g.connections fd = some c) (hkey : c.fd = fd) (hbegin : c.transmitBegin = 0)
    (htransmit : c.transmit = []) (hs : r.sessionId ≠ 0) (hn : r.clientSequence ≠ 0) :
    ∃ g', g.step (.drain 2 [5]) = .ok g' ∧ g'.delivered = g.delivered ++ [⟨c.serial, n⟩] ∧
      Path (Emits allow) g [.answered c.serial (r.response e)] g' ∧
      g'.connections fd = some (c.queueResponse (r.response e).toResponse).2 := by
  obtain ⟨g₁, hturns, hu₁, hwf₁, hcontents₁, horigins₁⟩ := engineTurns_one hprocess hrunner hin
    hrequests hout (by rw [hempty]; exact hroom)
  rw [hempty, List.nil_append] at hcontents₁
  rw [ho] at horigins₁
  obtain ⟨g₂, hpop₂, hu₂, hwf₂, hempty₂⟩ := popResponse_cons hwf₁ hcontents₁ horigins₁
  obtain ⟨hroute, hanswers, hconn⟩ := route_delivers (g := g₂) (r := r.response e) (n := n)
    (by rw [hu₂.sessionToFd, hu₁.sessionToFd]; exact hfd)
    (by rw [hu₂.connections, hu₁.connections]; exact hc) hbegin htransmit hs hn
  have hp₂ := route_pipeline g₂ (r.response e) n
  obtain ⟨g₃, hpop₃, hu₃⟩ := popResponse_nil (hp₂ ▸ hwf₂) (hp₂ ▸ hempty₂)
  refine ⟨g₃, ?_, by rw [hu₃.delivered, hroute, hu₂.delivered, hu₁.delivered], ?_, ?_⟩
  · exact bind_eq_ok.mpr ⟨_, hturns, bind_eq_ok.mpr ⟨_, hpop₂,
      bind_eq_ok.mpr ⟨_, rfl, bind_eq_ok.mpr ⟨_, hpop₃, rfl⟩⟩⟩⟩
  · have hpath : Path (Emits allow) g _ g₃ :=
      ((engineTurns_path hturns).tail (.route hpop₂)).tail (.idle hpop₃)
    rwa [hanswers] at hpath
  · rw [hu₃.connections, hconn, hkey, Function.update_self]

/-- **The moves of a connection that sends its first request.** -/
theorem path_read_first {frame : List UInt8} {request : Request} {v : SessionValidator}
    (hc : g.connections c.fd = some c) (hempty : c.receive = []) (hv : c.validator = none)
    (hfree : g.sessionToFd request.sessionId = none) (ha : allow g.pipeline request.sessionId)
    (hdec : Protocol.decodeRequest frame = .ok ⟨.ok, frame.length, request⟩)
    (hvalid : SessionValidator.validateAndAdvance { sessionId := request.sessionId } request =
      (.none, v))
    (hpush : { g with
        sessionToFd := Function.update g.sessionToFd request.sessionId (some c.fd) }.pushRequest
      c.serial ⟨request.sessionId, request.clientSequence, request.command⟩ = .ok (true, g')) :
    Path (Emits allow) g
      [.asked c.serial ⟨request.sessionId, request.clientSequence, request.command⟩]
      (g'.store { c with sessionId := request.sessionId, validator := some v }) := by
  obtain ⟨r, hr, -, hacc⟩ := Protocol.decodeRequest_spec frame
  cases hdec.symm.trans hr
  have hid : v.sessionId = request.sessionId := by
    have hsame := validateAndAdvance_sessionId { sessionId := request.sessionId } request
    rwa [hvalid] at hsame
  obtain ⟨hlimits, hrisk⟩ := Reading.validateAndAdvance_limits hvalid
  let x : Reading := { gateway := g, connection := { c with receive := frame } }
  have hreceive : Path (Emits allow) g [] x.stored := .single (.receive hc frame)
  have hclaim : Path (Emits allow) x.stored [] (x.claim request.sessionId).stored :=
    Reading.claim_path hv hfree (hacc rfl).2.2.2.session ha
  have hadvance : Path (Emits allow) (x.claim request.sessionId).stored []
      ((x.claim request.sessionId).advance v request).stored := Reading.advance_path rfl hid hlimits
  have htable : (x.claim request.sessionId).gateway = { g with
      sessionToFd := Function.update g.sessionToFd request.sessionId (some c.fd) } := by
    simp [x, Reading.claim, emplace, hfree]
  have hpushed : Emits allow ((x.claim request.sessionId).advance v request).stored
      (if true then [.asked c.serial ⟨request.sessionId, request.clientSequence, request.command⟩]
        else [])
      (g'.store ((x.claim request.sessionId).advance v request).connection) :=
    .push (c := ((x.claim request.sessionId).advance v request).connection)
      (store_connections _ _) rfl (by exact hid.symm) (by rw [hlimits]; exact hrisk rfl)
      ⟨_, _, (Protocol.requestOutcome_eq hdec).trans rfl⟩
      (pushRequest_store (by rw [← htable] at hpush; exact hpush) _)
  have hcompact : Path (Emits allow) _ [] _ := Reading.receive_path
    ⟨g', ((x.claim request.sessionId).advance v request).connection, 0, []⟩ []
  have hpath := (((hreceive.trans hclaim).trans hadvance).tail hpushed).trans hcompact
  have hend : { c with sessionId := request.sessionId, validator := some v } =
      { ((x.claim request.sessionId).advance v request).connection with receive := [] } := by
    rw [← hempty]
    rfl
  rw [hend]
  exact hpath

/-- What is left when a connection has been accepted as `fd` and has sent its first request. -/
structure Joined (allow : Pipeline → UInt32 → Prop) (g : TcpGateway) (l : List Traffic) (fd : ℕ)
    (r : GatewayRequest) (c : Connection) (g' : TcpGateway) : Prop where
  traced : Traced allow g' (l ++ [.asked g.accepted r])
  connection : g'.connections fd = some c
  sessionToFd : g'.sessionToFd = Function.update g.sessionToFd r.sessionId (some fd)
  accepted : g'.accepted = g.accepted + 1
  delivered : g'.delivered = g.delivered
  origins : g'.origins = { g.origins with requests := g.origins.requests ++ [g.accepted] }
  runner : g'.pipeline.runner = g.pipeline.runner
  taken : g'.pipeline.taken = g.pipeline.taken
  output : g'.pipeline.output = g.pipeline.output
  wf : g'.pipeline.input.WF
  size : g'.pipeline.input.buffer.size = g.pipeline.input.buffer.size
  contents : g'.pipeline.input.contents = g.pipeline.input.contents ++ [r]

/-- **A connection is accepted and sends its first request.** -/
theorem exists_joined (fd : ℕ) {allow : Pipeline → UInt32 → Prop} {l : List Traffic}
    {frame : List UInt8} {request : Request} {v : SessionValidator}
    (htraced : Traced allow g l) (hfd : g.connections fd = none)
    (hfree : g.sessionToFd request.sessionId = none) (ha : allow g.pipeline request.sessionId)
    (hdec : Protocol.decodeRequest frame = .ok ⟨.ok, frame.length, request⟩)
    (hvalid : SessionValidator.validateAndAdvance { sessionId := request.sessionId } request =
      (.none, v))
    (hwf : g.pipeline.input.WF)
    (hroom : g.pipeline.input.contents.length < g.pipeline.input.buffer.size - 1) :
    ∃ g₁ g₂, g.step (.accept [{ fd }]) = .ok g₁ ∧ g₁.step (.read fd [.data frame] []) = .ok g₂ ∧
      Joined allow g l fd ⟨request.sessionId, request.clientSequence, request.command⟩
        { fd, serial := g.accepted, sessionId := request.sessionId, validator := some v } g₂ := by
  have haccept := step_accept_one hfd
  have hself : Function.update g.connections fd (some { fd, serial := g.accepted }) fd =
    some { fd, serial := g.accepted } := Function.update_self ..
  obtain ⟨g₁, hread, hpush, hpushed⟩ := step_read_first
    (g := { g with
      connections := Function.update g.connections fd (some { fd, serial := g.accepted })
      accepted := g.accepted + 1 })
    (c := { fd, serial := g.accepted }) hself rfl rfl hfree hdec hvalid hwf hroom
  refine ⟨_, _, haccept, hread, ?_, store_connections .., hpushed.sessionToFd, hpushed.accepted,
    hpushed.delivered, hpushed.origins, hpushed.runner, hpushed.taken, hpushed.output, hpushed.wf,
    hpushed.size, hpushed.contents⟩
  have hopen : Traced allow _ l := List.append_nil l ▸
    htraced.step (a := .accept [{ fd }]) ⟨hfd, trivial⟩ haccept (.single (.accept fd hfd))
  refine hopen.step (a := .read fd [.data frame] []) ?_ hread
    (path_read_first (c := { fd, serial := g.accepted }) hself rfl rfl hfree ha hdec hvalid hpush)
  intro c hc _ _ request' hr _
  obtain rfl := Option.some.inj (hself.symm.trans hc)
  have hne : frame ≠ [] := by
    rintro rfl
    cases hdec
  rw [receiveLoop_one hne, Reading.firstRequest, Protocol.requestOutcome_eq hdec] at hr
  cases hr
  exact ha

/-! ## Result -/

/-- **Responses stay with their connections**, if a connection is bound to a session only while nothing
of that session is in flight. -/
theorem responses_stay_with_connections (h : Reaches Quiet g) :
    (∀ d ∈ g.delivered, d.connection = d.origin) ∧
      ∀ fd fd' c c', g.connections fd = some c → g.connections fd' = some c' →
        c.serial = c'.serial → fd = fd' := by
  have hrouted : Routed g := h.of_moves (fun _ h => h.sound.consistent.keyed)
    (fun _ h => .new h) fun _ _ h hm => h.move hm
  exact ⟨hrouted.delivered, hrouted.numbered.distinct⟩

/-- A connection that is the first to bind its session. -/
theorem responses_stay_with_connections_one_request : ∃ g₀ g, TcpGateway.new = .ok g₀ ∧
    [.accept [{ fd := 5 }], .read 5 [.data (cancelFrame 1 1 7)] [], .drain 2 [5]].foldlM step g₀ =
      .ok g ∧
    g.delivered = [⟨0, 0⟩] ∧ ∀ d ∈ g.delivered, d.connection = d.origin := by
  obtain ⟨g₀, book, hstart⟩ := exists_starts
  obtain ⟨hwf, hempty, hsize⟩ := hstart.input
  obtain ⟨hwf', hempty', hsize'⟩ := hstart.output
  obtain ⟨q, hinv⟩ := (Reachable.new hstart.isNew).inv
  have hnew : Traced Quiet g₀ [] := .new hstart.new
  have hquiet : Quiet g₀.pipeline 1 := by
    simp [Quiet, hempty, hempty', Pipeline.current, hstart.runner, GatewayEngineRunner.new]
  obtain ⟨g₁, g₂, haccept, hread, h₂⟩ := exists_joined 5 (v := ⟨1, 2, {}⟩) hnew
    (by rw [hstart.connections]) (by rw [hstart.sessionToFd]) hquiet
    decode_cancelFrame_seven (by decide) hwf
    (by rw [hempty, List.length_nil]; omega)
  have ho : g₂.origins = ⟨[0], 0, []⟩ := by simp [h₂.origins, hstart.origins, hstart.accepted]
  obtain ⟨book', e, hprocess⟩ := process_cancel_one hinv
    (r := ⟨1, 1, { type := .cancel, orderId := 7 }⟩) rfl (book.stats.lastSequence + 1)
  obtain ⟨g₃, hdrain, hdelivered, -⟩ := step_drain_one Quiet hprocess
    (by rw [h₂.runner, hstart.runner]; rfl) h₂.wf (by rw [h₂.contents, hempty]; rfl)
    (h₂.output ▸ hwf') (h₂.output ▸ hempty') (by rw [h₂.output]; omega) ho
    (by rw [h₂.sessionToFd]; exact Function.update_self ..) h₂.connection rfl rfl rfl (by decide)
    (by decide)
  refine ⟨g₀, g₃, hstart.new, ?_, ?_, ?_⟩
  · exact bind_eq_ok.mpr ⟨_, haccept, bind_eq_ok.mpr ⟨_, hread, bind_eq_ok.mpr ⟨_, hdrain, rfl⟩⟩⟩
  · rw [hdelivered, h₂.delivered, hstart.delivered, hstart.accepted]
    rfl
  · exact (responses_stay_with_connections
      (.step (a := .drain 2 [5]) h₂.traced.reaches trivial hdrain)).1

/-- **A response crosses over.** A connection sends a request on session 1 and is closed; another binds
session 1, and is given the answer to the request of the first. -/
theorem response_crosses_connections : ∃ g₀ g, TcpGateway.new = .ok g₀ ∧
    [.accept [{ fd := 5 }], .read 5 [.data (cancelFrame 1 1 7)] [], .close 5, .accept [{ fd := 5 }],
      .read 5 [.data (cancelFrame 1 1 8)] [], .drain 2 [5]].foldlM step g₀ = .ok g ∧
    Reaches (fun _ _ => True) g ∧ g.delivered = [⟨1, 0⟩] := by
  obtain ⟨g₀, book, hstart⟩ := exists_starts
  obtain ⟨hwf, hempty, hsize⟩ := hstart.input
  obtain ⟨hwf', hempty', hsize'⟩ := hstart.output
  obtain ⟨q, hinv⟩ := (Reachable.new hstart.isNew).inv
  have hnew : Traced (fun _ _ => True) g₀ [] := .new hstart.new
  obtain ⟨g₁, g₂, haccept, hread, h₂⟩ := exists_joined 5 (v := ⟨1, 2, {}⟩) hnew
    (by rw [hstart.connections]) (by rw [hstart.sessionToFd]) trivial decode_cancelFrame_seven
    (by decide) hwf (by rw [hempty, List.length_nil]; omega)
  -- the first connection is closed while its request is in the queue
  have hclose : (g₂.closeConnection 5).connections 5 = none ∧
      (g₂.closeConnection 5).sessionToFd 1 = none := by
    simp [closeConnection, h₂.connection]
  obtain ⟨ho₂, hd₂, ha₂⟩ := closeConnection_frame g₂ 5
  have hp₂ := closeConnection_pipeline g₂ 5
  obtain ⟨g₃, g₄, haccept', hread', h₄⟩ := exists_joined 5 (v := ⟨1, 2, {}⟩)
    (h₂.traced.step (a := .close 5) trivial rfl (.single (.close 5))) hclose.1 hclose.2 trivial
    decode_cancelFrame_eight (by decide) (hp₂ ▸ h₂.wf)
    (by rw [hp₂, h₂.contents, h₂.size, hempty, List.nil_append, List.length_singleton]; omega)
  have hcontents : g₄.pipeline.input.contents = _ := h₄.contents
  rw [hp₂, h₂.contents, hempty, List.nil_append, List.singleton_append] at hcontents
  have houtput : g₄.pipeline.output = g₀.pipeline.output := by rw [h₄.output, hp₂, h₂.output]
  have ho : g₄.origins = ⟨[0, 1], 0, []⟩ := by
    simp [h₄.origins, ho₂, h₂.origins, hstart.origins, ha₂, h₂.accepted, hstart.accepted]
  obtain ⟨book', e, hprocess⟩ := process_cancel_one hinv
    (r := ⟨1, 1, { type := .cancel, orderId := 7 }⟩) rfl (book.stats.lastSequence + 1)
  obtain ⟨g₅, hdrain, hdelivered, -⟩ := step_drain_one Quiet hprocess
    (by rw [h₄.runner, hp₂, h₂.runner, hstart.runner]; rfl) h₄.wf hcontents
    (houtput ▸ hwf') (houtput ▸ hempty') (by rw [houtput]; omega) ho
    (by rw [h₄.sessionToFd]; exact Function.update_self ..) h₄.connection rfl rfl rfl (by decide)
    (by decide)
  refine ⟨g₀, g₅, hstart.new, ?_, .step (a := .drain 2 [5]) h₄.traced.reaches trivial hdrain, ?_⟩
  · exact bind_eq_ok.mpr ⟨_, haccept, bind_eq_ok.mpr ⟨_, hread, bind_eq_ok.mpr ⟨_, rfl,
      bind_eq_ok.mpr ⟨_, haccept', bind_eq_ok.mpr ⟨_, hread', bind_eq_ok.mpr ⟨_, hdrain, rfl⟩⟩⟩⟩⟩⟩
  · rw [hdelivered, h₄.delivered, hd₂, h₂.delivered, hstart.delivered, ha₂, h₂.accepted,
      hstart.accepted]
    rfl

end TcpGateway

end Dme
