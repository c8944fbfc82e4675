import MatchingEngine.Handling
import MatchingEngine.Routing

/-!
# Each connection is told the answers to its own requests

* `asked`, `answered`, `queued`, `sentBytes`: the traffic by its kind and connection.
* `repliesTo`: the book's answers to requests one after another, each with the connection that asked;
  `Pipeline.replies`, `Exact.replies`.
* `Transmitted`: the bytes sent to a connection and those waiting are the frames queued on it.
* **`Streamed`**: responses have been queued where the requests came from, in order, and none is missing
  on a connection that is open. `Due`: a reply on its way from the pipeline to a connection.
* **`connection_streams_exact`**.
-/

set_option autoImplicit false

namespace Dme

open Protocol (Request Response responseFrame)

/-! ## Traffic -/

/-- The requests pushed to the engine, with the connections they came from. -/
def asked (l : List Traffic) : List (ℕ × GatewayRequest) :=
  l.filterMap fun
    | .asked serial request => some (serial, request)
    | _ => none

/-- The engine's responses queued on a connection. -/
def answered (n : ℕ) (l : List Traffic) : List GatewayResponse :=
  l.filterMap fun
    | .answered serial response => if serial = n then some response else none
    | _ => none

/-- All responses queued on a connection. -/
def queued (n : ℕ) (l : List Traffic) : List Response :=
  l.filterMap fun
    | .refused serial response => if serial = n then some response else none
    | .answered serial response => if serial = n then some response.toResponse else none
    | _ => none

/-- The bytes that have left for a connection. -/
def sentBytes (n : ℕ) (l : List Traffic) : List UInt8 :=
  l.flatMap fun
    | .sent serial bytes => if serial = n then bytes else []
    | _ => []

variable {n : ℕ} {l l' : List Traffic}

theorem asked_append : asked (l ++ l') = asked l ++ asked l' := List.filterMap_append

theorem answered_append : answered n (l ++ l') = answered n l ++ answered n l' :=
  List.filterMap_append

theorem queued_append : queued n (l ++ l') = queued n l ++ queued n l' := List.filterMap_append

theorem sentBytes_append : sentBytes n (l ++ l') = sentBytes n l ++ sentBytes n l' :=
  List.flatMap_append

theorem traffic_of_ne (h : ∀ e ∈ l, e.serial ≠ n) :
    answered n l = [] ∧ queued n l = [] ∧ sentBytes n l = [] := by
  induction l with
  | nil => exact ⟨rfl, rfl, rfl⟩
  | cons e l ih =>
    obtain ⟨h₁, h₂, h₃⟩ := ih fun e he => h e (List.mem_cons_of_mem _ he)
    have hne := h e List.mem_cons_self
    rw [answered, queued, sentBytes, List.filterMap_cons, List.filterMap_cons, List.flatMap_cons,
      ← answered, ← queued, ← sentBytes, h₁, h₂, h₃]
    cases e <;> simp_all [Traffic.serial]

/-! ## Replies -/

/-- **The book's answers to requests one after another**, each for the connection that asked. -/
def repliesTo (book : OrderBook) (next : Sequence) :
    List (ℕ × GatewayRequest) → Except Fault (OrderBook × List (ℕ × GatewayResponse))
  | [] => .ok (book, [])
  | (serial, request) :: requests => do
    let (book, events) ← book.process (request.withSequence next).command []
    let (book, replies) ← repliesTo book (next + 1) requests
    .ok (book, events.map (fun e => (serial, request.response e)) ++ replies)

/-- The replies for one connection. -/
def repliesFor (n : ℕ) (replies : List (ℕ × GatewayResponse)) : List GatewayResponse :=
  (replies.filter fun y => y.1 = n).map Prod.snd

theorem repliesFor_append (replies replies' : List (ℕ × GatewayResponse)) :
    repliesFor n (replies ++ replies') = repliesFor n replies ++ repliesFor n replies' := by
  rw [repliesFor, List.filter_append, List.map_append, ← repliesFor, ← repliesFor]

theorem repliesFor_concat (replies : List (ℕ × GatewayResponse)) (y : ℕ × GatewayResponse) :
    repliesFor n (replies ++ [y]) = repliesFor n replies ++ if y.1 = n then [y.2] else [] := by
  rw [repliesFor_append]
  by_cases hy : y.1 = n <;> simp [repliesFor, hy]

variable {book book' : OrderBook} {next : Sequence} {requests : List (ℕ × GatewayRequest)}
  {out : List (ℕ × GatewayResponse)}

theorem repliesTo_of_answer {responses : List GatewayResponse}
    (h : answer book (number next (requests.map Prod.snd)) = .ok (book', responses)) :
    ∃ replies, repliesTo book next requests = .ok (book', replies) ∧
      replies.map Prod.snd = responses := by
  induction requests generalizing book next responses with
  | nil =>
    cases h
    exact ⟨[], rfl, rfl⟩
  | cons request requests ih =>
    obtain ⟨⟨book₁, events⟩, hprocess, h⟩ := bind_eq_ok.mp h
    obtain ⟨⟨book₂, rest⟩, hrest, h⟩ := bind_eq_ok.mp h
    cases h
    obtain ⟨replies, hreplies, hmap⟩ := ih hrest
    refine ⟨_, bind_eq_ok.mpr ⟨_, hprocess, bind_eq_ok.mpr ⟨_, hreplies, rfl⟩⟩, ?_⟩
    rw [List.map_append, hmap, List.map_map]
    rfl

theorem repliesTo_concat {request : ℕ × GatewayRequest} {out' : List (ℕ × GatewayResponse)}
    {book'' : OrderBook} (h : repliesTo book next requests = .ok (book', out))
    (h' : repliesTo book next (requests ++ [request]) = .ok (book'', out')) :
    ∃ events : List Event, out' = out ++ events.map fun e => (request.1, request.2.response e) := by
  induction requests generalizing book next out out' with
  | nil =>
    cases h
    obtain ⟨⟨book₁, events⟩, -, h'⟩ := bind_eq_ok.mp h'
    cases h'
    exact ⟨events, by simp⟩
  | cons x requests ih =>
    obtain ⟨⟨book₁, events⟩, hprocess, h⟩ := bind_eq_ok.mp h
    obtain ⟨⟨book₂, rest⟩, hrest, h⟩ := bind_eq_ok.mp h
    cases h
    obtain ⟨⟨book₃, events'⟩, hprocess', h'⟩ := bind_eq_ok.mp h'
    cases hprocess.symm.trans hprocess'
    obtain ⟨⟨book₄, rest'⟩, hrest', h'⟩ := bind_eq_ok.mp h'
    cases h'
    obtain ⟨events', rfl⟩ := ih hrest hrest'
    exact ⟨events', by rw [List.append_assoc]⟩

theorem repliesTo_mem (h : repliesTo book next requests = .ok (book', out))
    {y : ℕ × GatewayResponse} (hy : y ∈ out) :
    ∃ r, (y.1, r) ∈ requests ∧ y.2.sessionId = r.sessionId := by
  induction requests generalizing book next out with
  | nil =>
    cases h
    cases hy
  | cons x requests ih =>
    obtain ⟨⟨book₁, events⟩, -, h⟩ := bind_eq_ok.mp h
    obtain ⟨⟨book₂, rest⟩, hrest, h⟩ := bind_eq_ok.mp h
    cases h
    rcases List.mem_append.mp hy with hy | hy
    · obtain ⟨e, -, rfl⟩ := List.mem_map.mp hy
      exact ⟨x.2, List.mem_cons_self, rfl⟩
    · obtain ⟨r, hr, hs⟩ := ih hrest hy
      exact ⟨r, List.mem_cons_of_mem _ hr, hs⟩

/-- The replies to the requests that the engine has taken. -/
def Pipeline.replies (p : Pipeline) (b₀ : OrderBook) (requests : List (ℕ × GatewayRequest)) :
    List (ℕ × GatewayResponse) :=
  match repliesTo b₀ (b₀.stats.lastSequence + 1) (requests.take p.taken.length) with
  | .ok (_, replies) => replies
  | .error _ => []

variable {p p' : Pipeline} {b₀ : OrderBook}

theorem Pipeline.replies_eq
    (h : repliesTo b₀ (b₀.stats.lastSequence + 1) (requests.take p.taken.length) =
      .ok (book, out)) : p.replies b₀ requests = out := by
  rw [Pipeline.replies, h]

/-- **The replies are what has been received and what is still to come.** -/
theorem Exact.replies (h : Exact Command.bytes b₀ none p)
    (hsent : requests.map Prod.snd = p.sent) :
    ∃ book, repliesTo b₀ (b₀.stats.lastSequence + 1) (requests.take p.taken.length) =
        .ok (book, p.replies b₀ requests) ∧
      (p.replies b₀ requests).map Prod.snd = p.received ++ p.output.contents ++ p.pending := by
  obtain ⟨book, hserved, -⟩ := h.complete
  have htaken : (requests.take p.taken.length).map Prod.snd = p.taken := by
    rw [List.map_take, hsent, h.sent, List.take_left]
  have hanswer := hserved.answer
  rw [← htaken] at hanswer
  obtain ⟨replies, hreplies, hmap⟩ := repliesTo_of_answer hanswer
  rw [Pipeline.replies_eq hreplies]
  exact ⟨book, hreplies, by rw [hmap]⟩

theorem run_taken {bytes : Command → List UInt8} (h : p.run bytes = .ok p') :
    p'.received = p.received ∧ (p'.taken = p.taken ∨ ∃ r, p'.taken = p.taken ++ [r]) := by
  rw [Pipeline.run] at h
  cases hpc : p.runner.pc with
  | ready =>
    rw [hpc] at h
    obtain ⟨⟨popped, input⟩, -, h⟩ := bind_eq_ok.mp h
    cases popped with
    | none =>
      cases h
      exact ⟨rfl, Or.inl rfl⟩
    | some r =>
      cases h
      exact ⟨rfl, Or.inr ⟨r, rfl⟩⟩
  | popped incoming =>
    rw [hpc] at h
    cases h
    exact ⟨rfl, Or.inl rfl⟩
  | sequenced incoming =>
    rw [hpc] at h
    cases h
    exact ⟨rfl, Or.inl rfl⟩
  | journaled incoming =>
    rw [hpc] at h
    obtain ⟨⟨book, events⟩, -, h⟩ := bind_eq_ok.mp h
    cases h
    exact ⟨rfl, Or.inl rfl⟩
  | publishing incoming events =>
    rw [hpc] at h
    cases events with
    | nil =>
      cases h
      exact ⟨rfl, Or.inl rfl⟩
    | cons event events =>
      obtain ⟨⟨pushed, output⟩, -, h⟩ := bind_eq_ok.mp h
      cases pushed <;> cases h <;> exact ⟨rfl, Or.inl rfl⟩

theorem Pipeline.mem_pending {x : GatewayResponse} (h : x ∈ p.pending) :
    ∃ r ∈ p.current, x.sessionId = r.sessionId := by
  rw [Pipeline.pending] at h
  rw [Pipeline.current]
  cases hpc : p.runner.pc with
  | ready =>
    rw [hpc] at h
    cases h
  | popped incoming =>
    simp only [hpc] at h
    refine ⟨incoming, rfl, ?_⟩
    split at h
    · obtain ⟨e, -, rfl⟩ := List.mem_map.mp h
      rfl
    · cases h
  | sequenced incoming =>
    simp only [hpc] at h
    refine ⟨incoming, rfl, ?_⟩
    split at h
    · obtain ⟨e, -, rfl⟩ := List.mem_map.mp h
      rfl
    · cases h
  | journaled incoming =>
    simp only [hpc] at h
    refine ⟨incoming, rfl, ?_⟩
    split at h
    · obtain ⟨e, -, rfl⟩ := List.mem_map.mp h
      rfl
    · cases h
  | publishing incoming events =>
    rw [hpc] at h
    obtain ⟨e, he, rfl⟩ := List.mem_map.mp h
    cases events with
    | nil => cases he
    | cons _ _ => exact ⟨incoming, rfl, rfl⟩

namespace TcpGateway

variable {g g' : TcpGateway} {c c' : Connection}

/-! ## Bytes -/

/-- **The bytes for each connection** are the frames queued on it: all of them sent or waiting if it is
open. -/
structure Transmitted (g : TcpGateway) (l : List Traffic) : Prop where
  below : ∀ e ∈ l, e.serial < g.accepted
  all : ∀ n, sentBytes n l <+: (queued n l).flatMap responseFrame
  live : ∀ fd c, g.connections fd = some c →
    sentBytes c.serial l ++ c.transmit = (queued c.serial l).flatMap responseFrame

theorem Transmitted.sub (h : Transmitted g l) (ha : g'.accepted = g.accepted)
    (hsub : ∀ fd x, g'.connections fd = some x → g.connections fd = some x) : Transmitted g' l :=
  ⟨ha ▸ h.below, h.all, fun fd x hx => h.live fd x (hsub fd x hx)⟩

theorem Transmitted.asked (h : Transmitted g l) {m : ℕ} (hm : m < g.accepted) (r : GatewayRequest) :
    Transmitted g (l ++ [.asked m r]) := by
  have hq : ∀ n, queued n (l ++ [.asked m r]) = queued n l := fun n => by
    rw [queued_append]
    exact List.append_nil _
  have hs : ∀ n, sentBytes n (l ++ [.asked m r]) = sentBytes n l := fun n => by
    rw [sentBytes_append]
    exact List.append_nil _
  refine ⟨fun e he => ?_, fun n => ?_, fun fd x hx => ?_⟩
  · rcases List.mem_append.mp he with he | he
    · exact h.below e he
    · rw [List.mem_singleton.mp he]
      exact hm
  · rw [hq, hs]
    exact h.all n
  · rw [hq, hs]
    exact h.live fd x hx

/-- **One connection changes**: what leaves and what waits is what waited and what is queued. -/
theorem Transmitted.store (h : Transmitted g l) (hnum : Numbered g)
    (hc : g.connections c.fd = some c) (hfd : c'.fd = c.fd) (hserial : c'.serial = c.serial)
    (hl' : ∀ e ∈ l', e.serial = c.serial)
    (hbytes : sentBytes c.serial l' ++ c'.transmit =
      c.transmit ++ (queued c.serial l').flatMap responseFrame) :
    Transmitted (g.store c') (l ++ l') := by
  have hother : ∀ n, n ≠ c.serial → sentBytes n (l ++ l') = sentBytes n l ∧
      queued n (l ++ l') = queued n l := by
    intro n hn
    obtain ⟨-, hq, hs⟩ := traffic_of_ne (n := n) fun e he heq => hn (heq.symm.trans (hl' e he))
    rw [sentBytes_append, queued_append, hq, hs, List.append_nil, List.append_nil]
    exact ⟨rfl, rfl⟩
  have hself : sentBytes c.serial (l ++ l') ++ c'.transmit =
      (queued c.serial (l ++ l')).flatMap responseFrame := by
    rw [sentBytes_append, List.append_assoc, hbytes, ← List.append_assoc, h.live _ c hc,
      queued_append, List.flatMap_append]
  refine ⟨fun e he => ?_, fun n => ?_, fun fd x hx => ?_⟩
  · rcases List.mem_append.mp he with he | he
    · exact h.below e he
    · rw [hl' e he]
      exact hnum.below _ c hc
  · by_cases hn : n = c.serial
    · subst hn
      rw [← hself]
      exact List.prefix_append ..
    · rw [(hother n hn).1, (hother n hn).2]
      exact h.all n
  · rcases store_cases hx with ⟨-, rfl⟩ | ⟨hne, hx⟩
    · rw [hserial]
      exact hself
    · have hn : x.serial ≠ c.serial := fun heq =>
        hne (by rw [hfd]; exact hnum.distinct _ _ x c hx hc heq)
      rw [(hother _ hn).1, (hother _ hn).2]
      exact h.live fd x hx

theorem Transmitted.queue (h : Transmitted g l) (hnum : Numbered g)
    (hc : g.connections c.fd = some c) (response : Response)
    (hl' : ∀ e ∈ l', e.serial = c.serial)
    (hsent : sentBytes c.serial l' = [])
    (hqueued : queued c.serial l' = if (c.queueResponse response).1 then [response] else []) :
    Transmitted (g.store (c.queueResponse response).2) (l ++ l') := by
  have hsame := queueResponse_same c response
  refine h.store hnum hc hsame.fd hsame.serial hl' ?_
  rw [hsent, hqueued, List.nil_append]
  rcases c.queueResponse_spec response with ⟨hq, -, -, -, ht⟩ | ⟨hq, -, ht⟩
  · rw [hq, ht]
    simp
  · rw [hq, ht]
    simp

/-! ## Answers -/

/-- The replies that have left the pipeline. -/
def told (b₀ : OrderBook) (p : Pipeline) (l : List Traffic) : List (ℕ × GatewayResponse) :=
  (p.replies b₀ (asked l)).take p.received.length

/-- The replies that are still in flight. -/
def untold (b₀ : OrderBook) (p : Pipeline) (l : List Traffic) : List (ℕ × GatewayResponse) :=
  (p.replies b₀ (asked l)).drop p.received.length

/-- What is in flight belongs to the connections that have its sessions. -/
structure Flight (b₀ : OrderBook) (g : TcpGateway) (l : List Traffic) : Prop where
  exact : Exact Command.bytes b₀ none g.pipeline
  sent : (asked l).map Prod.snd = g.pipeline.sent
  waiting : ∀ y ∈ (asked l).drop g.pipeline.taken.length, Owns g y.2.sessionId y.1
  flying : ∀ y ∈ untold b₀ g.pipeline l, Owns g y.2.sessionId y.1

/-- **Every connection is told the replies to its own requests**: the first of them, in order, and all
that have left the pipeline if it is open. -/
structure Streamed (b₀ : OrderBook) (g : TcpGateway) (l : List Traffic) : Prop where
  routed : Routed g
  transmitted : Transmitted g l
  flight : Flight b₀ g l
  bound : ∀ fd c r, g.connections fd = some c → (c.serial, r) ∈ asked l →
    c.validator ≠ none ∧ c.sessionId = r.sessionId
  all : ∀ n, answered n l <+: repliesFor n (told b₀ g.pipeline l)
  live : ∀ fd c, g.connections fd = some c →
    answered c.serial l = repliesFor c.serial (told b₀ g.pipeline l)

theorem Flight.replies (h : Flight b₀ g l) : ∃ book,
    repliesTo b₀ (b₀.stats.lastSequence + 1) ((asked l).take g.pipeline.taken.length) =
        .ok (book, g.pipeline.replies b₀ (asked l)) ∧
      (g.pipeline.replies b₀ (asked l)).map Prod.snd =
        g.pipeline.received ++ g.pipeline.output.contents ++ g.pipeline.pending :=
  h.exact.replies h.sent

theorem Flight.length_le (h : Flight b₀ g l) :
    g.pipeline.received.length ≤ (g.pipeline.replies b₀ (asked l)).length := by
  obtain ⟨-, -, hmap⟩ := h.replies
  have := congrArg List.length hmap
  simp only [List.length_map, List.length_append] at this
  omega

theorem Flight.untold_map (h : Flight b₀ g l) :
    (untold b₀ g.pipeline l).map Prod.snd = g.pipeline.output.contents ++ g.pipeline.pending := by
  obtain ⟨-, -, hmap⟩ := h.replies
  rw [untold, List.map_drop, hmap, List.append_assoc, List.drop_left]

theorem Flight.waiting_map (h : Flight b₀ g l) :
    ((asked l).drop g.pipeline.taken.length).map Prod.snd = g.pipeline.input.contents := by
  rw [List.map_drop, h.sent, h.exact.sent, List.drop_left]

theorem Flight.mem_asked (h : Flight b₀ g l) {y : ℕ × GatewayResponse}
    (hy : y ∈ g.pipeline.replies b₀ (asked l)) :
    ∃ r, (y.1, r) ∈ asked l ∧ y.2.sessionId = r.sessionId := by
  obtain ⟨book, hreplies, -⟩ := h.replies
  obtain ⟨r, hr, hs⟩ := repliesTo_mem hreplies hy
  exact ⟨r, List.mem_of_mem_take hr, hs⟩

theorem Flight.of_quiet (h : Flight b₀ g l) {s : UInt32} (hq : Quiet g.pipeline s)
    (hp : g'.pipeline = g.pipeline) (ho : ∀ t n, t ≠ s → Owns g t n → Owns g' t n) :
    Flight b₀ g' l := by
  obtain ⟨hin, hcur, hout⟩ := hq
  refine ⟨hp ▸ h.exact, hp ▸ h.sent, fun y hy => ?_, fun y hy => ?_⟩
  · rw [hp] at hy
    refine ho _ _ (hin y.2 ?_) (h.waiting y hy)
    rw [← h.waiting_map]
    exact List.mem_map_of_mem hy
  · rw [hp] at hy
    refine ho _ _ ?_ (h.flying y hy)
    have hmem := List.mem_map_of_mem (f := Prod.snd) hy
    rw [h.untold_map, List.mem_append] at hmem
    rcases hmem with hmem | hmem
    · exact hout y.2 hmem
    · obtain ⟨r, hr, hs⟩ := Pipeline.mem_pending hmem
      rw [hs]
      exact hcur r hr

theorem Flight.mono (h : Flight b₀ g l) (hp : g'.pipeline = g.pipeline) (hl : asked l' = asked l)
    (ho : ∀ s n, Owns g s n → Owns g' s n) : Flight b₀ g' l' := by
  refine ⟨hp ▸ h.exact, hp ▸ hl ▸ h.sent, fun y hy => ?_, fun y hy => ?_⟩
  · rw [hp, hl] at hy
    exact ho _ _ (h.waiting y hy)
  · rw [untold, hp, hl] at hy
    exact ho _ _ (h.flying y hy)

/-! ## Moves that leave the pipeline alone -/

theorem bound_store (h : ∀ fd x r, g.connections fd = some x → (x.serial, r) ∈ asked l →
      x.validator ≠ none ∧ x.sessionId = r.sessionId)
    (hc : g.connections c.fd = some c) (hs : Same c c') : ∀ fd x r,
      (g.store c').connections fd = some x → (x.serial, r) ∈ asked l →
        x.validator ≠ none ∧ x.sessionId = r.sessionId := by
  intro fd x r hx hr
  rcases store_cases hx with ⟨-, rfl⟩ | ⟨-, hx⟩
  · rw [hs.serial] at hr
    obtain ⟨hv, hsession⟩ := h _ c r hc hr
    exact ⟨hs.validator_ne_none hv, hs.sessionId.trans hsession⟩
  · exact h fd x r hx hr

theorem Streamed.store (h : Streamed b₀ g l) (hc : g.connections c.fd = some c) (hs : Same c c')
    (hrouted : Routed (g.store c')) (htransmitted : Transmitted (g.store c') (l ++ l'))
    (hasked : asked l' = []) (hanswered : ∀ n, answered n l' = []) :
    Streamed b₀ (g.store c') (l ++ l') := by
  have ha : asked (l ++ l') = asked l := by rw [asked_append, hasked, List.append_nil]
  have hn : ∀ n, answered n (l ++ l') = answered n l := fun n => by
    rw [answered_append, hanswered, List.append_nil]
  have htold : told b₀ (g.store c').pipeline (l ++ l') = told b₀ g.pipeline l := by
    rw [told, ha]
    rfl
  refine ⟨hrouted, htransmitted, h.flight.mono rfl ha fun s n ho => ho.mono (.store hc hs),
    ha ▸ bound_store h.bound hc hs, fun n => by rw [hn, htold]; exact h.all n, fun fd x hx => ?_⟩
  rw [hn, htold]
  rcases store_cases hx with ⟨-, rfl⟩ | ⟨-, hx⟩
  · rw [hs.serial]
    exact h.live _ c hc
  · exact h.live fd x hx

theorem Streamed.sub (h : Streamed b₀ g l) (hrouted : Routed g') (hp : g'.pipeline = g.pipeline)
    (ha : g'.accepted = g.accepted)
    (hsub : ∀ fd x, g'.connections fd = some x → g.connections fd = some x) : Streamed b₀ g' l := by
  have hkeeps : Keeps g g' := fun fd x hx => ⟨x, hsub fd x hx, rfl, fun hv => ⟨hv, rfl⟩⟩
  refine ⟨hrouted, h.transmitted.sub ha hsub, h.flight.mono hp rfl fun s n ho => ho.mono hkeeps,
    fun fd x r hx => h.bound fd x r (hsub fd x hx), fun n => by rw [hp]; exact h.all n,
    fun fd x hx => by rw [hp]; exact h.live fd x (hsub fd x hx)⟩

theorem closeConnection_sub {fd fd' : ℕ} {x : Connection}
    (h : (g.closeConnection fd).connections fd' = some x) :
    g.connections fd' = some x ∧ fd' ≠ fd := by
  rw [closeConnection] at h
  cases hc : g.connections fd with
  | none =>
    simp only [hc] at h
    refine ⟨h, ?_⟩
    rintro rfl
    cases hc.symm.trans h
  | some c =>
    simp only [hc] at h
    by_cases hfd : fd' = fd
    · rw [hfd, Function.update_self] at h
      cases h
    · rw [Function.update_of_ne hfd] at h
      exact ⟨h, hfd⟩

theorem Streamed.close (h : Streamed b₀ g l) {fd : ℕ} (hrouted : Routed (g.closeConnection fd)) :
    Streamed b₀ (g.closeConnection fd) l :=
  h.sub hrouted (closeConnection_pipeline ..) (closeConnection_frame g fd).2.2
    fun _ _ hx => (closeConnection_sub hx).1

theorem Streamed.claim {s : UInt32} (h : Streamed b₀ g l) (hc : g.connections c.fd = some c)
    (hv : c.validator = none) (hq : Quiet g.pipeline s)
    (hrouted : Routed ({ g with sessionToFd := Function.update g.sessionToFd s (some c.fd) }.store
      { c with sessionId := s, validator := some { sessionId := s } })) :
    Streamed b₀ ({ g with sessionToFd := Function.update g.sessionToFd s (some c.fd) }.store
      { c with sessionId := s, validator := some { sessionId := s } }) l := by
  have hold : ∀ fd x, ({ g with
        sessionToFd := Function.update g.sessionToFd s (some c.fd) }.store
      { c with sessionId := s, validator := some { sessionId := s } }).connections fd = some x →
      (∃ y, g.connections fd = some y ∧ y.serial = x.serial ∧ y.transmit = x.transmit) := by
    intro fd x hx
    rcases store_cases hx with ⟨rfl, rfl⟩ | ⟨-, hx⟩
    · exact ⟨c, hc, rfl, rfl⟩
    · exact ⟨x, hx, rfl, rfl⟩
  refine ⟨hrouted, ⟨h.transmitted.below, h.transmitted.all, fun fd x hx => ?_⟩,
    h.flight.of_quiet hq rfl fun t n hne ho => ho.claim hne, fun fd x r hx hr => ?_, h.all,
    fun fd x hx => ?_⟩
  · obtain ⟨y, hy, hserial, htransmit⟩ := hold fd x hx
    rw [← hserial, ← htransmit]
    exact h.transmitted.live fd y hy
  · rcases store_cases hx with ⟨-, rfl⟩ | ⟨-, hx⟩
    · exact absurd hv (h.bound _ c r hc hr).1
    · exact h.bound fd x r hx hr
  · obtain ⟨y, hy, hserial, -⟩ := hold fd x hx
    rw [← hserial]
    exact h.live fd y hy

theorem Streamed.accept (h : Streamed b₀ g l) {fd : ℕ} (hrouted : Routed { g with
      connections := Function.update g.connections fd (some { fd, serial := g.accepted })
      accepted := g.accepted + 1 }) : Streamed b₀ { g with
      connections := Function.update g.connections fd (some { fd, serial := g.accepted })
      accepted := g.accepted + 1 } l := by
  have hcase : ∀ fd' x, Function.update g.connections fd (some { fd, serial := g.accepted }) fd' =
      some x → (fd' = fd ∧ x = { fd, serial := g.accepted }) ∨ (fd' ≠ fd ∧ g.connections fd' = some x) :=
    fun fd' x hx => store_cases (c := { fd, serial := g.accepted }) hx
  have hbelow : ∀ e ∈ l, e.serial ≠ g.accepted := fun e he => (h.transmitted.below e he).ne
  have hasked : ∀ r, (g.accepted, r) ∉ asked l := by
    intro r hr
    obtain ⟨e, he, heq⟩ := List.mem_filterMap.mp hr
    cases e with
    | asked serial request =>
      cases heq
      exact hbelow _ he rfl
    | _ => cases heq
  obtain ⟨hanswered, hqueued, hsent⟩ := traffic_of_ne hbelow
  refine ⟨hrouted, ⟨fun e he => Nat.lt_succ_of_lt (h.transmitted.below e he), h.transmitted.all,
    fun fd' x hx => ?_⟩, h.flight.mono rfl rfl fun s n ho fd' x hx hv hs => ?_,
    fun fd' x r hx hr => ?_, h.all, fun fd' x hx => ?_⟩
  · rcases hcase fd' x hx with ⟨-, rfl⟩ | ⟨-, hx⟩
    · dsimp only
      rw [hqueued, hsent]
      rfl
    · exact h.transmitted.live fd' x hx
  · rcases hcase fd' x hx with ⟨-, rfl⟩ | ⟨-, hx⟩
    · exact absurd rfl hv
    · exact ho fd' x hx hv hs
  · rcases hcase fd' x hx with ⟨-, rfl⟩ | ⟨-, hx⟩
    · exact absurd hr (hasked r)
    · exact h.bound fd' x r hx hr
  · rcases hcase fd' x hx with ⟨-, rfl⟩ | ⟨-, hx⟩
    · dsimp only
      rw [hanswered, repliesFor, eq_comm, List.map_eq_nil_iff, List.filter_eq_nil_iff]
      intro y hy heq
      obtain ⟨r, hr, -⟩ := h.flight.mem_asked (List.mem_of_mem_take hy)
      exact hasked r (of_decide_eq_true heq ▸ hr)
    · exact h.live fd' x hx

/-! ## Moves of the pipeline -/

theorem Streamed.untouched (h : Streamed b₀ g l) (hrouted : Routed g') (hu : Untouched g g')
    (hflight : Flight b₀ g' l) (htold : told b₀ g'.pipeline l = told b₀ g.pipeline l) :
    Streamed b₀ g' l := by
  refine ⟨hrouted, h.transmitted.sub hu.accepted fun fd x hx => hu.connections ▸ hx, hflight, ?_,
    fun n => htold ▸ h.all n, ?_⟩
  · rw [hu.connections]
    exact h.bound
  · rw [hu.connections, htold]
    exact h.live

theorem Owns.untouched {s : UInt32} {n : ℕ} (h : Owns g s n) (hu : Untouched g g') : Owns g' s n :=
  h.mono (.of_eq hu.connections)

theorem pushRequest_pipeline {n : ℕ} {r : GatewayRequest} {pushed : Bool}
    (h : g.pushRequest n r = .ok (pushed, g')) : g'.pipeline.taken = g.pipeline.taken ∧
      g'.pipeline.received = g.pipeline.received := by
  obtain ⟨⟨pushed, input⟩, -, heq⟩ := bind_eq_ok.mp h
  cases heq
  cases pushed <;> exact ⟨rfl, rfl⟩

theorem Flight.push_exact {n : ℕ} {r : GatewayRequest} {pushed : Bool} (h : Flight b₀ g l)
    (hp : g.pushRequest n r = .ok (pushed, g')) : Exact Command.bytes b₀ none g'.pipeline := by
  obtain ⟨p, hp', hexact⟩ := h.exact.produce r
  cases (pushRequest_frame hp).2.symm.trans hp'
  exact hexact

theorem Streamed.push_refused {n : ℕ} {r : GatewayRequest} (h : Streamed b₀ g l) (hrouted : Routed g')
    (hp : g.pushRequest n r = .ok (false, g')) : Streamed b₀ g' l := by
  obtain ⟨hu, -⟩ := pushRequest_frame hp
  obtain ⟨htaken, hreceived⟩ := pushRequest_pipeline hp
  have hsent := pushRequest_sent hp
  simp only [Bool.false_eq_true, if_false, List.append_nil] at hsent
  have hreplies : g'.pipeline.replies b₀ (asked l) = g.pipeline.replies b₀ (asked l) := by
    rw [Pipeline.replies, htaken, ← Pipeline.replies]
  refine h.untouched hrouted hu
    ⟨h.flight.push_exact hp, hsent ▸ h.flight.sent, fun y hy => ?_, fun y hy => ?_⟩ ?_
  · rw [htaken] at hy
    exact (h.flight.waiting y hy).untouched hu
  · rw [untold, hreceived, hreplies] at hy
    exact (h.flight.flying y hy).untouched hu
  · rw [told, told, hreceived, hreplies]

theorem Streamed.push {v : SessionValidator} {r : GatewayRequest} (h : Streamed b₀ g l)
    (hrouted : Routed g') (hc : g.connections c.fd = some c) (hv : c.validator = some v)
    (hr : r.sessionId = v.sessionId) (hp : g.pushRequest c.serial r = .ok (true, g')) :
    Streamed b₀ g' (l ++ [.asked c.serial r]) := by
  obtain ⟨hu, -⟩ := pushRequest_frame hp
  obtain ⟨htaken, hreceived⟩ := pushRequest_pipeline hp
  have hsent := pushRequest_sent hp
  rw [if_pos rfl] at hsent
  have hasked : asked (l ++ [.asked c.serial r]) = asked l ++ [(c.serial, r)] := asked_append
  have hanswered : ∀ n, answered n (l ++ [.asked c.serial r]) = answered n l := fun n => by
    rw [answered_append]
    exact List.append_nil _
  have hlength : g.pipeline.taken.length ≤ (asked l).length := by
    have := congrArg List.length h.flight.sent
    rw [List.length_map, h.flight.exact.sent, List.length_append] at this
    omega
  have hreplies : g'.pipeline.replies b₀ (asked l ++ [(c.serial, r)]) =
      g.pipeline.replies b₀ (asked l) := by
    rw [Pipeline.replies, htaken, List.take_append_of_le_length hlength, ← Pipeline.replies]
  have htold : told b₀ g'.pipeline (l ++ [.asked c.serial r]) = told b₀ g.pipeline l := by
    rw [told, told, hreceived, hasked, hreplies]
  refine ⟨hrouted, (h.transmitted.asked (h.routed.numbered.below _ c hc) r).sub hu.accepted
    fun fd x hx => hu.connections ▸ hx,
    ⟨h.flight.push_exact hp, ?_, fun y hy => ?_, fun y hy => ?_⟩, ?_,
    fun n => by rw [hanswered, htold]; exact h.all n, fun fd x hx => ?_⟩
  · rw [hasked, List.map_append, h.flight.sent, hsent]
    rfl
  · rw [hasked, htaken, List.drop_append_of_le_length hlength, List.mem_append,
      List.mem_singleton] at hy
    rcases hy with hy | rfl
    · exact (h.flight.waiting y hy).untouched hu
    · rw [hr]
      exact (h.routed.sound.consistent.owns hc hv).untouched hu
  · rw [untold, hreceived, hasked, hreplies] at hy
    exact (h.flight.flying y hy).untouched hu
  · intro fd x r' hx hr'
    rw [hu.connections] at hx
    rw [hasked, List.mem_append, List.mem_singleton] at hr'
    rcases hr' with hr' | heq
    · exact h.bound fd x r' hx hr'
    · obtain ⟨hserial, rfl⟩ := Prod.mk.inj heq
      obtain rfl := h.routed.numbered.distinct _ _ x c hx hc hserial
      obtain rfl := Option.some.inj (hx.symm.trans hc)
      exact ⟨by simp [hv], ((h.routed.sound.consistent.bound _ _ v hc hv).1.symm).trans hr.symm⟩
  · rw [hu.connections] at hx
    rw [hanswered, htold]
    exact h.live fd x hx

/-- **A statement of the engine**: what it takes on goes on its way. -/
theorem Streamed.turn (h : Streamed b₀ g l) (hrouted : Routed g') (ht : g.engineTurn = .ok g') :
    Streamed b₀ g' l := by
  obtain ⟨hu, hrun⟩ := engineTurn_frame ht
  obtain ⟨hreceived, htaken⟩ := run_taken hrun
  have hexact : Exact Command.bytes b₀ none g'.pipeline := by
    obtain ⟨p, hp', hexact⟩ := h.flight.exact.run
    cases hrun.symm.trans hp'
    exact hexact
  have hsent : (asked l).map Prod.snd = g'.pipeline.sent := by
    rw [run_sent hrun]
    exact h.flight.sent
  have hle := h.flight.length_le
  -- the replies grow by those to the request taken, if one is
  obtain ⟨more, hmore, hown⟩ : ∃ more, g'.pipeline.replies b₀ (asked l) =
      g.pipeline.replies b₀ (asked l) ++ more ∧ ∀ y ∈ more, Owns g y.2.sessionId y.1 := by
    rcases htaken with heq | ⟨r, heq⟩
    · refine ⟨[], ?_, by simp⟩
      rw [List.append_nil, Pipeline.replies, heq, ← Pipeline.replies]
    · obtain ⟨book, hreplies, -⟩ := h.flight.replies
      obtain ⟨book', hreplies', -⟩ := hexact.replies hsent
      have hlt : g.pipeline.taken.length < (asked l).length := by
        have := congrArg List.length hsent
        rw [List.length_map, hexact.sent, heq] at this
        simp only [List.length_append, List.length_singleton] at this
        omega
      rw [heq, List.length_append, List.length_singleton,
        List.take_add_one, List.getElem?_eq_getElem hlt, Option.toList_some] at hreplies'
      obtain ⟨events, hevents⟩ := repliesTo_concat hreplies hreplies'
      refine ⟨_, hevents, fun y hy => ?_⟩
      obtain ⟨e, -, rfl⟩ := List.mem_map.mp hy
      exact h.flight.waiting (asked l)[g.pipeline.taken.length] (List.mem_drop_iff_getElem.mpr
        ⟨0, by omega, by simp⟩)
  refine h.untouched hrouted hu ⟨hexact, hsent, fun y hy => ?_, fun y hy => ?_⟩ ?_
  · refine (h.flight.waiting y (List.drop_subset_drop_left _ ?_ hy)).untouched hu
    rcases htaken with heq | ⟨r, heq⟩
    · rw [heq]
    · rw [heq, List.length_append]
      exact Nat.le_add_right ..
  · rw [untold, hmore, hreceived, List.drop_append_of_le_length hle, List.mem_append] at hy
    rcases hy with hy | hy
    · exact (h.flight.flying y hy).untouched hu
    · exact (hown y hy).untouched hu
  · rw [told, told, hmore, hreceived, List.take_append_of_le_length hle]

theorem popResponse_pipeline {popped : Option (GatewayResponse × ℕ)}
    (h : g.popResponse = .ok (popped, g')) : g'.pipeline.taken = g.pipeline.taken ∧
      g'.pipeline.sent = g.pipeline.sent ∧
      g'.pipeline.received = g.pipeline.received ++ (popped.map Prod.fst).toList := by
  obtain ⟨⟨response, output⟩, -, heq⟩ := bind_eq_ok.mp h
  cases response with
  | none =>
    cases heq
    exact ⟨rfl, rfl, rfl⟩
  | some response =>
    cases heq
    exact ⟨rfl, rfl, rfl⟩

/-- **A response is popped**: it is the next reply in flight. -/
theorem Flight.pop {popped : Option (GatewayResponse × ℕ)} (h : Flight b₀ g l)
    (hp : g.popResponse = .ok (popped, g')) : Flight b₀ g' l ∧
      match popped with
      | none => told b₀ g'.pipeline l = told b₀ g.pipeline l
      | some (r, _) => ∃ m, (m, r) ∈ untold b₀ g.pipeline l ∧
          told b₀ g'.pipeline l = told b₀ g.pipeline l ++ [(m, r)] := by
  obtain ⟨hu, hconsume⟩ := popResponse_frame hp
  obtain ⟨htaken, hsent, hreceived⟩ := popResponse_pipeline hp
  have hexact : Exact Command.bytes b₀ none g'.pipeline := by
    obtain ⟨p, hp', hexact⟩ := h.exact.consume
    cases hconsume.symm.trans hp'
    exact hexact
  have hsent' : (asked l).map Prod.snd = g'.pipeline.sent := hsent ▸ h.sent
  have hreplies : g'.pipeline.replies b₀ (asked l) = g.pipeline.replies b₀ (asked l) := by
    rw [Pipeline.replies, htaken, ← Pipeline.replies]
  have hle : g.pipeline.received.length ≤ g'.pipeline.received.length := by
    rw [hreceived, List.length_append]
    exact Nat.le_add_right ..
  have hflight : Flight b₀ g' l := by
    refine ⟨hexact, hsent', fun y hy => ?_, fun y hy => ?_⟩
    · rw [htaken] at hy
      exact (h.waiting y hy).untouched hu
    · rw [untold, hreplies] at hy
      exact (h.flying y (List.drop_subset_drop_left _ hle hy)).untouched hu
  refine ⟨hflight, ?_⟩
  cases popped with
  | none =>
    rw [Option.map_none, Option.toList_none, List.append_nil] at hreceived
    dsimp only
    rw [told, told, hreplies, hreceived]
  | some popped =>
    obtain ⟨r, origin⟩ := popped
    have hlt : g.pipeline.received.length < (g.pipeline.replies b₀ (asked l)).length := by
      have := hflight.length_le
      rw [hreceived, hreplies, List.length_append] at this
      exact this
    have hget : ((g.pipeline.replies b₀ (asked l))[g.pipeline.received.length]).2 = r := by
      obtain ⟨-, -, hmap⟩ := hflight.replies
      rw [hreplies, hreceived, Option.map_some, Option.toList_some] at hmap
      have := congrArg (fun l => l[g.pipeline.received.length]?) hmap
      simpa [List.getElem?_eq_getElem, hlt] using this
    refine ⟨((g.pipeline.replies b₀ (asked l))[g.pipeline.received.length]).1, ?_, ?_⟩
    · rw [← hget, untold]
      exact List.mem_drop_iff_getElem.mpr ⟨0, by omega, by simp⟩
    · conv_rhs => rw [← hget]
      rw [told, told, hreplies, hreceived, Option.map_some, Option.toList_some, List.length_append,
        List.length_singleton, List.take_add_one, List.getElem?_eq_getElem hlt, Option.toList_some]

theorem Streamed.idle (h : Streamed b₀ g l) (hrouted : Routed g')
    (hp : g.popResponse = .ok (none, g')) : Streamed b₀ g' l := by
  obtain ⟨hflight, htold⟩ := h.flight.pop hp
  exact h.untouched hrouted (popResponse_frame hp).1 hflight htold

/-- **Where a response goes.** -/
theorem Consistent.route_cases (h : Consistent g) (r : GatewayResponse) (origin : ℕ) :
    (g.sessionToFd r.sessionId = none ∧ g.answers r = [] ∧ g.route r origin = g) ∨
      ∃ c, g.connections c.fd = some c ∧ c.validator ≠ none ∧ c.sessionId = r.sessionId ∧
        (g.answers r = if (c.queueResponse r.toResponse).1 then [.answered c.serial r] else []) ∧
        g.route r origin = if (c.queueResponse r.toResponse).1 then
            { g.store (c.queueResponse r.toResponse).2 with delivered := g.delivered ++
              [⟨(c.queueResponse r.toResponse).2.serial, origin⟩] }
          else (g.store (c.queueResponse r.toResponse).2).closeConnection c.fd := by
  cases hfd : g.sessionToFd r.sessionId with
  | none => exact Or.inl ⟨rfl, by rw [answers, hfd], by rw [TcpGateway.route, hfd]⟩
  | some fd =>
    obtain ⟨c, hc, hv, hs⟩ := (h.table _ _).mp hfd
    obtain rfl := h.keyed fd c hc
    refine Or.inr ⟨c, hc, hv, hs, ?_, ?_⟩
    · simp only [answers, hfd, hc]
    · simp only [TcpGateway.route, hfd, hc]
      rfl

/-- A reply `r` to connection `m` has been popped, and is still to be queued. -/
structure Due (b₀ : OrderBook) (g : TcpGateway) (l : List Traffic) (m : ℕ) (r : GatewayResponse) :
    Prop where
  consistent : Consistent g
  numbered : Numbered g
  transmitted : Transmitted g l
  flight : Flight b₀ g l
  bound : ∀ fd c r', g.connections fd = some c → (c.serial, r') ∈ asked l →
    c.validator ≠ none ∧ c.sessionId = r'.sessionId
  owner : Owns g r.sessionId m
  asked : ∃ r', (m, r') ∈ asked l ∧ r.sessionId = r'.sessionId
  all : ∀ n, answered n l <+: repliesFor n (told b₀ g.pipeline l)
  live : ∀ fd c, g.connections fd = some c → repliesFor c.serial (told b₀ g.pipeline l) =
    answered c.serial l ++ if m = c.serial then [r] else []

theorem Streamed.pop {r : GatewayResponse} {origin : ℕ} (h : Streamed b₀ g l)
    (hp : g.popResponse = .ok (some (r, origin), g')) : ∃ m, Due b₀ g' l m r := by
  obtain ⟨hflight, m, hm, htold⟩ := h.flight.pop hp
  obtain ⟨hu, -⟩ := popResponse_frame hp
  refine ⟨m, h.routed.sound.consistent.untouched hu,
    h.routed.numbered.keeps (.of_eq hu.connections) hu.accepted,
    h.transmitted.sub hu.accepted fun fd x hx => hu.connections ▸ hx, hflight,
    hu.connections ▸ h.bound, (h.flight.flying (m, r) hm).untouched hu,
    h.flight.mem_asked (List.mem_of_mem_drop hm), fun n => ?_, fun fd x hx => ?_⟩
  · rw [htold, repliesFor_concat]
    exact (h.all n).trans (List.prefix_append ..)
  · rw [htold, repliesFor_concat, h.live fd x (hu.connections ▸ hx)]

section Due

variable {m : ℕ} {r : GatewayResponse} (h : Due b₀ g l m r)

include h

/-- No connection has the session: the one that asked is closed. -/
theorem Due.dropped (hfree : g.sessionToFd r.sessionId = none) (hrouted : Routed g) :
    Streamed b₀ g l := by
  refine ⟨hrouted, h.transmitted, h.flight, h.bound, h.all, fun fd x hx => ?_⟩
  rw [h.live fd x hx, if_neg, List.append_nil]
  rintro rfl
  obtain ⟨r', hr', hsession⟩ := h.asked
  obtain ⟨hv, hs⟩ := h.bound fd x r' hx hr'
  have htable := (h.consistent.table r.sessionId fd).mpr ⟨x, hx, hv, hs.trans hsession.symm⟩
  cases hfree.symm.trans htable

variable (hc : g.connections c.fd = some c) (hv : c.validator ≠ none)
  (hs : c.sessionId = r.sessionId)

include hc

theorem Due.transmitted_store :
    Transmitted (g.store (c.queueResponse r.toResponse).2)
      (l ++ if (c.queueResponse r.toResponse).1 then [.answered c.serial r] else []) := by
  refine h.transmitted.queue h.numbered hc r.toResponse ?_ ?_ ?_
  · split_ifs <;> simp [Traffic.serial]
  · split_ifs <;> rfl
  · split_ifs
    · simp [queued]
    · rfl

include hv hs

/-- The session has a connection, which is the one that asked, and the reply is queued on it. -/
theorem Due.queued (hq : (c.queueResponse r.toResponse).1 = true) {delivered : List Delivery}
    (hrouted : Routed { g.store (c.queueResponse r.toResponse).2 with delivered }) :
    Streamed b₀ { g.store (c.queueResponse r.toResponse).2 with delivered }
      (l ++ [.answered c.serial r]) := by
  have hserial : c.serial = m := h.owner c.fd c hc hv hs
  have hsame := queueResponse_same c r.toResponse
  have htransmitted := h.transmitted_store hc
  rw [if_pos hq] at htransmitted
  have hasked : Dme.asked (l ++ [.answered c.serial r]) = Dme.asked l :=
    asked_append.trans (List.append_nil _)
  have hanswered : ∀ n, answered n (l ++ [.answered c.serial r]) =
      answered n l ++ if m = n then [r] else [] := fun n => by
    rw [answered_append, hserial]
    by_cases hn : m = n <;> simp [answered, hn]
  have htold : told b₀ g.pipeline (l ++ [.answered c.serial r]) = told b₀ g.pipeline l := by
    rw [told, told, hasked]
  have hflight : Flight b₀ { g.store (c.queueResponse r.toResponse).2 with delivered }
      (l ++ [.answered c.serial r]) :=
    h.flight.mono rfl hasked fun s n ho => ho.mono (Keeps.store hc hsame)
  refine ⟨hrouted, htransmitted.sub rfl fun _ _ hx => hx, hflight,
    hasked ▸ bound_store h.bound hc hsame, fun n => ?_, fun fd x hx => ?_⟩
  · change _ <+: repliesFor n (told b₀ g.pipeline _)
    rw [htold, hanswered]
    by_cases hn : m = n
    · have hself := h.live _ c hc
      rw [hserial, hn] at hself
      rw [hself, hn]
    · rw [if_neg hn, List.append_nil]
      exact h.all n
  · change _ = repliesFor _ (told b₀ g.pipeline _)
    rw [htold, hanswered]
    rcases store_cases hx with ⟨-, rfl⟩ | ⟨-, hx⟩
    · rw [hsame.serial, h.live _ c hc]
    · rw [h.live fd x hx]

/-- There is no room for the reply: the connection that asked is closed. -/
theorem Due.closed (hq : ¬ (c.queueResponse r.toResponse).1 = true)
    (hrouted : Routed ((g.store (c.queueResponse r.toResponse).2).closeConnection c.fd)) :
    Streamed b₀ ((g.store (c.queueResponse r.toResponse).2).closeConnection c.fd) l := by
  have hserial : c.serial = m := h.owner c.fd c hc hv hs
  have hsame := queueResponse_same c r.toResponse
  have htransmitted := h.transmitted_store hc
  rw [if_neg hq, List.append_nil] at htransmitted
  have hp : ((g.store (c.queueResponse r.toResponse).2).closeConnection c.fd).pipeline =
      g.pipeline := closeConnection_pipeline ..
  have hsub : ∀ fd x, ((g.store (c.queueResponse r.toResponse).2).closeConnection
      c.fd).connections fd = some x → g.connections fd = some x ∧ fd ≠ c.fd := by
    intro fd x hx
    obtain ⟨hx, hne⟩ := closeConnection_sub hx
    rcases store_cases hx with ⟨heq, -⟩ | ⟨-, hx⟩
    · exact absurd (heq.trans hsame.fd) hne
    · exact ⟨hx, hne⟩
  refine ⟨hrouted, htransmitted.sub (closeConnection_frame _ _).2.2 fun fd x hx =>
      (closeConnection_sub hx).1, h.flight.mono hp rfl fun s n ho =>
      ho.mono ((Keeps.store hc hsame).trans (.close _ _)),
    fun fd x r' hx => h.bound fd x r' (hsub fd x hx).1, fun n => by rw [hp]; exact h.all n,
    fun fd x hx => ?_⟩
  obtain ⟨hx, hne⟩ := hsub fd x hx
  rw [hp, h.live fd x hx, if_neg, List.append_nil]
  exact fun heq => hne (h.numbered.distinct _ _ x c hx hc (heq.symm.trans hserial.symm))

end Due

/-- **Routing a response**: it goes to the connection that asked, or that one is gone. -/
theorem Streamed.route {r : GatewayResponse} {origin : ℕ} (h : Streamed b₀ g l)
    (hrouted : Routed (g'.route r origin)) (hp : g.popResponse = .ok (some (r, origin), g')) :
    Streamed b₀ (g'.route r origin) (l ++ g'.answers r) := by
  obtain ⟨m, hdue⟩ := h.pop hp
  rcases hdue.consistent.route_cases r origin with ⟨hfree, ha, hroute⟩ | ⟨c, hc, hv, hs, ha, hroute⟩
  · rw [ha, hroute, List.append_nil]
    exact hdue.dropped hfree (hroute ▸ hrouted)
  rw [hroute] at hrouted ⊢
  rw [ha]
  by_cases hq : (c.queueResponse r.toResponse).1 = true
  · rw [if_pos hq] at hrouted ⊢
    rw [if_pos hq]
    exact hdue.queued hc hv hs hq hrouted
  · rw [if_neg hq] at hrouted ⊢
    rw [if_neg hq, List.append_nil]
    exact hdue.closed hc hv hs hq hrouted

/-! ## Whole runs -/

theorem Streamed.new (hbook : OrderBook.new gatewayBookConfig = .ok b₀)
    (h : TcpGateway.new = .ok g) : Streamed b₀ g [] := by
  have hrouted := Routed.new h
  obtain ⟨book, hbook', h⟩ := bind_eq_ok.mp h
  cases hbook.symm.trans hbook'
  obtain ⟨requests, hreq, h⟩ := bind_eq_ok.mp h
  obtain ⟨responses, hresp, h⟩ := bind_eq_ok.mp h
  cases h
  refine ⟨hrouted, ⟨by simp, fun n => List.prefix_rfl, fun fd c hc => ?_⟩,
    ⟨Exact.start (.new hbook) hreq hresp, rfl, by simp [asked], fun y hy => ?_⟩, fun fd c r hc => ?_,
    fun n => List.nil_prefix, fun fd c hc => ?_⟩
  · cases hc
  · cases hy
  · cases hc
  · cases hc

/-- **Every move keeps the streams exact**, if sessions are bound only while they are quiet. -/
theorem Streamed.move (h : Streamed b₀ g l) (hm : Emits Quiet g l' g') :
    Streamed b₀ g' (l ++ l') := by
  have hrouted := h.routed.move hm.move
  have hnum := h.routed.numbered
  cases hm with
  | accept fd hfree =>
    rw [List.append_nil]
    exact h.accept hrouted
  | receive hc receive =>
    refine h.store hc ⟨rfl, rfl, rfl, rfl⟩ hrouted ?_ rfl fun _ => rfl
    exact h.transmitted.store hnum hc rfl rfl (by simp) (by simp [sentBytes, queued])
  | advance hc hv hid =>
    refine h.store hc ⟨rfl, rfl, rfl, by rw [hv]; exact congrArg some hid⟩ hrouted ?_ rfl fun _ => rfl
    exact h.transmitted.store hnum hc rfl rfl (by simp) (by simp [sentBytes, queued])
  | claim hc hv hfree hs hq =>
    rw [List.append_nil]
    exact h.claim hc hv hq hrouted
  | @refuse c hc request reason =>
    refine h.store hc (queueResponse_same ..) hrouted (h.transmitted.queue hnum hc _ ?_ ?_ ?_) ?_
      fun n => ?_
    · split_ifs <;> simp [Traffic.serial]
    · split_ifs <;> rfl
    · rw [Connection.reject, ← rejection]
      split_ifs
      · simp [queued]
      · rfl
    · split_ifs <;> rfl
    · split_ifs <;> rfl
  | @push _ c v r pushed hc hv hr _ _ hp =>
    cases pushed with
    | false =>
      rw [if_neg (by decide), List.append_nil]
      exact h.push_refused hrouted hp
    | true => exact h.push hrouted hc hv hr hp
  | turn ht =>
    rw [List.append_nil]
    exact h.turn hrouted ht
  | idle hp =>
    rw [List.append_nil]
    exact h.idle hrouted hp
  | route hp => exact h.route hrouted hp
  | @flush c hc results =>
    have hsame := flushOutput_same c results
    refine h.store hc hsame hrouted (h.transmitted.store hnum hc hsame.fd hsame.serial
      (by simp [Traffic.serial]) ?_) rfl fun _ => rfl
    simpa [sentBytes, queued] using c.flushed_append results
  | close fd =>
    rw [List.append_nil]
    exact h.close hrouted

theorem Traced.streamed (hbook : OrderBook.new gatewayBookConfig = .ok b₀) (h : Traced Quiet g l) :
    Streamed b₀ g l :=
  h.invariant (fun _ => Streamed.new hbook) fun _ _ _ _ h hm => h.move hm

/-- **The stream of each connection is exact.** Whatever calls are made in whatever order, if sessions
are bound only while nothing of them is in flight: the engine has taken the first of the requests that
the connections have asked, and its replies, each for the connection that asked, are those popped, those
in the output queue and those still to be pushed. On each connection, open or closed, the first replies
to its own requests have been queued, in order and none twice, and the bytes sent to it are the first of
the frames queued on it. On a connection that is open, every reply popped for it has been queued, and
every frame queued has been sent or waits. -/
theorem connection_streams_exact (hbook : OrderBook.new gatewayBookConfig = .ok b₀)
    (h : Traced Quiet g l) :
    (asked l).map Prod.snd = g.pipeline.sent ∧
      ∃ book out, repliesTo b₀ (b₀.stats.lastSequence + 1)
          ((asked l).take g.pipeline.taken.length) = .ok (book, out) ∧
        out.map Prod.snd =
          g.pipeline.received ++ g.pipeline.output.contents ++ g.pipeline.pending ∧
        (∀ n, answered n l <+: repliesFor n (out.take g.pipeline.received.length) ∧
          sentBytes n l <+: (queued n l).flatMap responseFrame) ∧
        ∀ fd c, g.connections fd = some c →
          answered c.serial l = repliesFor c.serial (out.take g.pipeline.received.length) ∧
          sentBytes c.serial l ++ c.transmit = (queued c.serial l).flatMap responseFrame := by
  have hstreamed := h.streamed hbook
  obtain ⟨book, hreplies, hmap⟩ := hstreamed.flight.replies
  exact ⟨hstreamed.flight.sent, book, _, hreplies, hmap,
    fun n => ⟨hstreamed.all n, hstreamed.transmitted.all n⟩,
    fun fd c hc => ⟨hstreamed.live fd c hc, hstreamed.transmitted.live fd c hc⟩⟩

theorem Traced.first_answer {n : ℕ} {request : GatewayRequest} {r : GatewayResponse}
    (h : Traced Quiet g ([.asked n request] ++ [.answered n r])) {fd : ℕ} {c : Connection}
    (hc : g.connections fd = some c) (hn : c.serial = n) : c.transmit = responseFrame r.toResponse := by
  obtain ⟨b₀, hbook⟩ := exists_gatewayBook
  have htransmit := (h.streamed hbook).transmitted.live fd c hc
  simpa [sentBytes, queued, hn] using htransmit

/-- A connection is accepted and asks its first request; the engine answers, and the answer is sent. -/
theorem connection_streams_exact_one_request : ∃ g₀ g b₀ book out r bytes, TcpGateway.new = .ok g₀ ∧
    [.accept [{ fd := 5 }], .read 5 [.data (cancelFrame 1 1 7)] [], .drain 2 [5],
      .flush 5 [.sent 68]].foldlM step g₀ = .ok g ∧
    Traced Quiet g [.asked 0 ⟨1, 1, { type := .cancel, orderId := 7 }⟩, .answered 0 r, .sent 0 bytes] ∧
    OrderBook.new gatewayBookConfig = .ok b₀ ∧
    repliesTo b₀ (b₀.stats.lastSequence + 1)
      ([(0, ⟨1, 1, { type := .cancel, orderId := 7 }⟩)].take g.pipeline.taken.length) =
        .ok (book, out) ∧
    [r] = repliesFor 0 (out.take g.pipeline.received.length) ∧
    bytes = responseFrame r.toResponse ∧ bytes.length = 68 := by
  obtain ⟨g₀, book, hstart⟩ := exists_starts
  obtain ⟨hwf, hempty, hsize⟩ := hstart.input
  obtain ⟨hwf', hempty', hsize'⟩ := hstart.output
  obtain ⟨q, hinv⟩ := (Reachable.new hstart.isNew).inv
  have hquiet : Quiet g₀.pipeline 1 := by
    simp [Quiet, hempty, hempty', Pipeline.current, hstart.runner, GatewayEngineRunner.new]
  obtain ⟨g₁, g₂, haccept, hread, h₂⟩ := exists_joined 5 (v := ⟨1, 2, {}⟩) (.new hstart.new)
    (by rw [hstart.connections]) (by rw [hstart.sessionToFd]) hquiet
    decode_cancelFrame_seven (by decide) hwf
    (by rw [hempty, List.length_nil]; omega)
  have ho : g₂.origins = ⟨[0], 0, []⟩ := by simp [h₂.origins, hstart.origins, hstart.accepted]
  obtain ⟨book', e, hprocess⟩ := process_cancel_one hinv
    (r := ⟨1, 1, { type := .cancel, orderId := 7 }⟩) rfl (book.stats.lastSequence + 1)
  obtain ⟨g₃, hdrain, -, hpath, hconn⟩ := step_drain_one Quiet hprocess
    (by rw [h₂.runner, hstart.runner]; rfl) h₂.wf (by rw [h₂.contents, hempty]; rfl)
    (h₂.output ▸ hwf') (h₂.output ▸ hempty') (by rw [h₂.output]; omega) ho
    (by rw [h₂.sessionToFd]; exact Function.update_self ..) h₂.connection rfl rfl rfl (by decide)
    (by decide)
  have htraced₂ := h₂.traced
  rw [hstart.accepted] at htraced₂ hpath hconn
  have htraced₃ := htraced₂.step (a := .drain 2 [5]) trivial hdrain hpath
  generalize hc : (Connection.queueResponse _ _).2 = c at hconn
  have hsame : c.fd = 5 ∧ c.serial = 0 := by
    rw [← hc]
    exact ⟨(queueResponse_same ..).fd, (queueResponse_same ..).serial⟩
  have htransmit := htraced₃.first_answer hconn hsame.2
  have hlen : c.transmit.length = 68 := by
    rw [htransmit]
    exact Protocol.length_responseFrame _
  have hne : c.transmit ≠ [] := by
    intro hnil
    rw [hnil, List.length_nil] at hlen
    omega
  have hall : c.flushed [.sent 68] = c.transmit := by
    rw [Connection.flushed_sent hne (by decide)]
    exact List.take_of_length_le hlen.le
  have hflush : g₃.step (.flush 5 [.sent 68]) = .ok (g₃.store (c.flushOutput [.sent 68]).2) := by
    simp only [step, hconn]
  have htraced := htraced₃.step (a := .flush 5 [.sent 68]) trivial hflush
    (.single (.flush (by rw [hsame.1]; exact hconn) [.sent 68]))
  rw [hsame.2, hall] at htraced
  obtain ⟨-, book'', out, hreplies, -, -, hlive⟩ := connection_streams_exact hstart.isNew htraced
  have hserial : (c.flushOutput [.sent 68]).2.serial = 0 := (flushOutput_same ..).serial.trans hsame.2
  have hstored : (g₃.store (c.flushOutput [.sent 68]).2).connections 5 =
      some (c.flushOutput [.sent 68]).2 := by
    have hfd : (c.flushOutput [.sent 68]).2.fd = 5 := (flushOutput_same ..).fd.trans hsame.1
    rw [← hfd]
    exact store_connections ..
  have hanswered := (hlive 5 _ hstored).1
  rw [hserial] at hanswered
  refine ⟨g₀, _, book, book'', out, _, c.transmit, hstart.new, ?_, htraced, hstart.isNew, hreplies,
    hanswered, htransmit, hlen⟩
  exact bind_eq_ok.mpr ⟨_, haccept, bind_eq_ok.mpr ⟨_, hread, bind_eq_ok.mpr ⟨_, hdrain,
    bind_eq_ok.mpr ⟨_, hflush, rfl⟩⟩⟩⟩

end TcpGateway

end Dme
