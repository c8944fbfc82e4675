import MatchingEngine.Gateway
import MatchingEngine.Restore

/-!
# The pipeline is exact

* `Served`: the book has answered the requests `done`, numbered from the first one on.
* `Stage`: what the runner has done and still owes, at each place of its loop.
* **`Exact`**, `Exact.produce`, `Exact.run`, `Exact.consume`: every step of every party returns and
  keeps it.
* **`pipeline_exact`**.
-/

set_option autoImplicit false

namespace Dme

/-! ## Answers -/

theorem number_concat (next : Sequence) (requests : List GatewayRequest) (r : GatewayRequest) :
    number next (requests ++ [r]) =
      number next requests ++ [r.withSequence (next + UInt64.ofNat requests.length)] := by
  induction requests generalizing next with
  | nil => simp [number]
  | cons x requests ih =>
    rw [List.cons_append, number, ih, number, List.cons_append, List.length_cons, Nat.add_comm,
      UInt64.ofNat_add, UInt64.add_assoc]
    rfl

theorem answer_concat {b b₁ b₂ : OrderBook} {requests : List GatewayRequest} {r : GatewayRequest}
    {responses : List GatewayResponse} {events : List Event}
    (h : answer b requests = .ok (b₁, responses))
    (hp : b₁.process r.command [] = .ok (b₂, events)) :
    answer b (requests ++ [r]) = .ok (b₂, responses ++ events.map r.response) := by
  induction requests generalizing b responses with
  | nil =>
    cases h
    simp [answer, hp, bind, Except.bind]
  | cons x requests ih =>
    simp only [answer, bind, Except.bind] at h
    cases hx : b.process x.command [] with
    | error f => simp [hx] at h
    | ok r₁ =>
      simp only [hx] at h
      cases hrest : answer r₁.1 requests with
      | error f => simp [hrest] at h
      | ok r₂ =>
        simp only [hrest, Except.ok.injEq, Prod.mk.injEq] at h
        obtain ⟨rfl, rfl⟩ := h
        simp only [List.cons_append, answer, hx, bind, Except.bind, ih hrest, List.append_assoc]

/-- **The book `book` has answered the requests `done`** with `responses`. -/
structure Served (b₀ : OrderBook) (done : List GatewayRequest) (book : OrderBook)
    (responses : List GatewayResponse) : Prop where
  answer : answer b₀ (number (b₀.stats.lastSequence + 1) done) = .ok (book, responses)
  next : book.stats.lastSequence + 1 = b₀.stats.lastSequence + 1 + UInt64.ofNat done.length
  inv : ∃ q, Inv book q
  gapless : ∀ x ∈ responses, x.event.reason ≠ .sequenceGap

variable {b₀ book : OrderBook} {done : List GatewayRequest} {responses : List GatewayResponse}

theorem Reachable.served (h : Reachable b₀) : Served b₀ [] b₀ [] :=
  ⟨rfl, by simp, h.inv, by simp⟩

theorem Served.request (h : Served b₀ done book responses) (r : GatewayRequest) :
    ∃ book' events,
      book.process (r.withSequence (book.stats.lastSequence + 1)).command [] = .ok (book', events) ∧
      book'.stats.lastSequence = book.stats.lastSequence + 1 ∧
      Served b₀ (done ++ [r]) book' (responses ++ events.map r.response) := by
  obtain ⟨q, hinv⟩ := h.inv
  obtain ⟨book', q', hp, hinv', hm, -⟩ := hinv.process
    (r.withSequence (book.stats.lastSequence + 1)).command []
  rw [List.nil_append] at hp
  have hlast : book'.stats.lastSequence = book.stats.lastSequence + 1 := by
    refine (congrArg Market.lastSequence hm).trans ?_
    rw [Market.process_lastSequence]
    exact if_pos rfl
  refine ⟨book', _, hp, hlast, ?_, ?_, ⟨q', hinv'⟩, fun x hx => ?_⟩
  · rw [number_concat, ← h.next]
    exact answer_concat h.answer hp
  · rw [hlast, h.next, List.length_append, UInt64.ofNat_add, UInt64.add_assoc]
    rfl
  · rcases List.mem_append.mp hx with hx | hx
    · exact h.gapless x hx
    · obtain ⟨e, he, rfl⟩ := List.mem_map.mp hx
      exact Market.process_reason rfl he

/-! ## The invariant -/

section Stage

variable (bytes : Command → List UInt8) (b₀ : OrderBook) (journal : Option (List JournalRecord))

/-- The journal after the requests `done`. -/
def journalOf (done : List GatewayRequest) : Option (List JournalRecord) :=
  journal.map fun j =>
    j ++ recordsOf bytes ((number (b₀.stats.lastSequence + 1) done).map GatewayRequest.command)

theorem journalOf_nil : journalOf bytes b₀ journal [] = journal := by
  simp [journalOf, number, recordsOf]

/-- **What the runner has done and still owes**, when it has taken the requests of the second
argument and the responses of the third have left it. -/
inductive Stage : GatewayEngineRunner → List GatewayRequest → List GatewayResponse → Prop
  | ready {book : OrderBook} {done : List GatewayRequest} {out : List GatewayResponse}
      (h : Served b₀ done book out) :
    Stage ⟨book, journalOf bytes b₀ journal done, book.stats.lastSequence + 1, .ready⟩ done out
  | popped {book : OrderBook} {done : List GatewayRequest} {out : List GatewayResponse}
      (h : Served b₀ done book out) (request : GatewayRequest) :
    Stage ⟨book, journalOf bytes b₀ journal done, book.stats.lastSequence + 1, .popped request⟩
      (done ++ [request]) out
  | sequenced {book : OrderBook} {done : List GatewayRequest} {out : List GatewayResponse}
      (h : Served b₀ done book out) (request : GatewayRequest) :
    Stage ⟨book, journalOf bytes b₀ journal done, book.stats.lastSequence + 1 + 1,
      .sequenced (request.withSequence (book.stats.lastSequence + 1))⟩ (done ++ [request]) out
  | journaled {book : OrderBook} {done : List GatewayRequest} {out : List GatewayResponse}
      (h : Served b₀ done book out) (request : GatewayRequest) :
    Stage ⟨book, journalOf bytes b₀ journal (done ++ [request]), book.stats.lastSequence + 1 + 1,
      .journaled (request.withSequence (book.stats.lastSequence + 1))⟩ (done ++ [request]) out
  | publishing {book : OrderBook} {done : List GatewayRequest} {out : List GatewayResponse}
      {incoming : GatewayRequest} {events : List Event}
      (h : Served b₀ done book (out ++ events.map incoming.response)) :
    Stage ⟨book, journalOf bytes b₀ journal done, book.stats.lastSequence + 1,
      .publishing incoming events⟩ done out

/-- **The pipeline is exact.** -/
structure Exact (p : Pipeline) : Prop where
  input : p.input.WF
  output : p.output.WF
  sent : p.sent = p.taken ++ p.input.contents
  stage : Stage bytes b₀ journal p.runner p.taken (p.received ++ p.output.contents)

end Stage

variable {bytes : Command → List UInt8} {journal : Option (List JournalRecord)} {p : Pipeline}

theorem Served.record (h : Served b₀ done book responses) (r : GatewayRequest) :
    (journalOf bytes b₀ journal done).map (fun j =>
        j ++ recordsOf bytes [(r.withSequence (book.stats.lastSequence + 1)).command]) =
      journalOf bytes b₀ journal (done ++ [r]) := by
  rw [journalOf, journalOf, Option.map_map, number_concat, ← h.next]
  congr 1
  funext j
  simp [recordsOf]

theorem Exact.produce (h : Exact bytes b₀ journal p) (request : GatewayRequest) :
    ∃ p', p.produce request = .ok p' ∧ Exact bytes b₀ journal p' := by
  rcases h.input.tryPush request with ⟨-, hpush⟩ | ⟨-, input, hpush, hwf, -, hcontents⟩
  · refine ⟨p, ?_, h⟩
    simp [Pipeline.produce, hpush, bind, Except.bind]
  · refine ⟨{ p with input, sent := p.sent ++ [request] }, ?_, hwf, h.output, ?_, h.stage⟩
    · simp [Pipeline.produce, hpush, bind, Except.bind]
    · change p.sent ++ [request] = p.taken ++ input.contents
      rw [hcontents, h.sent, List.append_assoc]

theorem Exact.consume (h : Exact bytes b₀ journal p) :
    ∃ p', p.consume = .ok p' ∧ Exact bytes b₀ journal p' := by
  rcases h.output.tryPop with ⟨-, hpop⟩ | ⟨x, rest, output, hcontents, hpop, hwf, -, hrest⟩
  · refine ⟨p, ?_, h⟩
    simp [Pipeline.consume, hpop, bind, Except.bind]
  · refine ⟨{ p with output, received := p.received ++ [x] }, ?_, h.input, hwf, h.sent, ?_⟩
    · simp [Pipeline.consume, hpop, bind, Except.bind]
    · have := h.stage
      rw [hcontents] at this
      change Stage bytes b₀ journal p.runner p.taken (p.received ++ [x] ++ output.contents)
      rwa [hrest, List.append_assoc]

theorem Exact.of {input : SpscQueue GatewayRequest} {output : SpscQueue GatewayResponse}
    {runner : GatewayEngineRunner} {sent taken : List GatewayRequest}
    {received out : List GatewayResponse} (hin : input.WF) (hout : output.WF)
    (hsent : sent = taken ++ input.contents) (hgone : received ++ output.contents = out)
    (hstage : Stage bytes b₀ journal runner taken out) :
    Exact bytes b₀ journal ⟨input, output, runner, sent, taken, received⟩ :=
  ⟨hin, hout, hsent, hgone ▸ hstage⟩

theorem Exact.run (h : Exact bytes b₀ journal p) :
    ∃ p', p.run bytes = .ok p' ∧ Exact bytes b₀ journal p' := by
  obtain ⟨input, output, runner, sent, taken, received⟩ := p
  obtain ⟨hin, hout, hsent, hstage⟩ := h
  dsimp only at hin hout hsent hstage
  generalize hgone : received ++ output.contents = out at hstage
  cases hstage with
  | ready hserved =>
    rcases hin.tryPop with ⟨-, hpop⟩ | ⟨r, rest, input', hcontents, hpop, hwf, -, hrest⟩
    · refine ⟨_, ?_, .of hin hout hsent hgone (.ready hserved)⟩
      simp only [Pipeline.run, hpop, bind, Except.bind]
    · have hsent' : sent = taken ++ [r] ++ input'.contents := by
        rw [hsent, hcontents, hrest, List.append_assoc, List.singleton_append]
      refine ⟨_, ?_, .of hwf hout hsent' hgone (.popped hserved r)⟩
      simp only [Pipeline.run, hpop, bind, Except.bind]
  | popped hserved r => exact ⟨_, rfl, .of hin hout hsent hgone (.sequenced hserved r)⟩
  | sequenced hserved r =>
    refine ⟨_, rfl, .of hin hout hsent hgone ?_⟩
    have hstage := @Stage.journaled bytes b₀ journal _ _ _ hserved r
    rw [← hserved.record r] at hstage
    exact hstage
  | @journaled book _ _ hserved r =>
    obtain ⟨book', events, hp, hlast, hserved'⟩ := hserved.request r
    have hstage : Stage bytes b₀ journal ⟨book', _, _, .publishing (r.withSequence
        (book.stats.lastSequence + 1)) events⟩ _ out := .publishing hserved'
    refine ⟨_, ?_, .of hin hout hsent hgone hstage⟩
    simp only [Pipeline.run, hp, bind, Except.bind, hlast]
  | @publishing _ _ _ incoming events hserved =>
    cases events with
    | nil =>
      rw [List.map_nil, List.append_nil] at hserved
      exact ⟨_, rfl, .of hin hout hsent hgone (.ready hserved)⟩
    | cons e events =>
      rcases hout.tryPush (incoming.response e) with
        ⟨-, hpush⟩ | ⟨-, output', hpush, hwf, -, hcontents⟩
      · refine ⟨_, ?_, .of hin hout hsent hgone (.publishing hserved)⟩
        simp only [Pipeline.run, hpush, bind, Except.bind]
        rfl
      · rw [List.map_cons, List.append_cons] at hserved
        have hgone' : received ++ output'.contents = out ++ [incoming.response e] := by
          rw [hcontents, ← List.append_assoc, hgone]
        refine ⟨_, ?_, .of hin hwf hsent hgone' (.publishing hserved)⟩
        simp only [Pipeline.run, hpush, bind, Except.bind, if_true]

/-! ## Whole runs -/

theorem Exact.start (hb : Reachable b₀) {ci co : ℕ} {input : SpscQueue GatewayRequest}
    {output : SpscQueue GatewayResponse} (hin : SpscQueue.new ci = .ok input)
    (hout : SpscQueue.new co = .ok output) :
    Exact bytes b₀ journal (.start b₀ journal input output) := by
  obtain ⟨hinput, hempty, -⟩ := SpscQueue.WF.new hin
  obtain ⟨houtput, hempty', -⟩ := SpscQueue.WF.new hout
  have hstage := @Stage.ready bytes b₀ journal _ _ _ hb.served
  rw [journalOf_nil] at hstage
  exact .of hinput houtput (by rw [hempty]; rfl) (by rw [hempty']; rfl) hstage

theorem Exact.step {p' : Pipeline} (h : Exact bytes b₀ journal p)
    (hstep : Pipeline.Step bytes p p') : Exact bytes b₀ journal p' := by
  cases hstep with
  | produce request hp =>
    obtain ⟨p'', hp', h'⟩ := h.produce request
    cases hp.symm.trans hp'
    exact h'
  | run hp =>
    obtain ⟨p'', hp', h'⟩ := h.run
    cases hp.symm.trans hp'
    exact h'
  | consume hp =>
    obtain ⟨p'', hp', h'⟩ := h.consume
    cases hp.symm.trans hp'
    exact h'

theorem Exact.steps {p' : Pipeline} (h : Exact bytes b₀ journal p)
    (hsteps : Relation.ReflTransGen (Pipeline.Step bytes) p p') :
    Exact bytes b₀ journal p' := by
  induction hsteps with
  | refl => exact h
  | tail _ hstep ih => exact ih.step hstep

theorem Exact.complete (h : Exact bytes b₀ journal p) :
    ∃ book, Served b₀ p.taken book (p.received ++ p.output.contents ++ p.pending) ∧
      p.runner.journal.map (· ++ recordsOf bytes p.unjournaled) =
        journalOf bytes b₀ journal p.taken := by
  obtain ⟨input, output, runner, sent, taken, received⟩ := p
  have hstage := h.stage
  dsimp only at hstage ⊢
  generalize received ++ output.contents = out at hstage ⊢
  cases hstage with
  | @ready book _ _ hserved =>
    refine ⟨book, ?_, by simp [Pipeline.unjournaled, recordsOf]⟩
    simpa [Pipeline.pending] using hserved
  | popped hserved r =>
    obtain ⟨book', events, hp, -, hserved'⟩ := hserved.request r
    refine ⟨book', ?_, hserved.record r⟩
    simp only [Pipeline.pending, hp]
    exact hserved'
  | sequenced hserved r =>
    obtain ⟨book', events, hp, -, hserved'⟩ := hserved.request r
    refine ⟨book', ?_, hserved.record r⟩
    simp only [Pipeline.pending, hp]
    exact hserved'
  | journaled hserved r =>
    obtain ⟨book', events, hp, -, hserved'⟩ := hserved.request r
    refine ⟨book', ?_, by simp [Pipeline.unjournaled, recordsOf]⟩
    simp only [Pipeline.pending, hp]
    exact hserved'
  | publishing hserved => exact ⟨_, hserved, by simp [Pipeline.unjournaled, recordsOf]⟩

/-- **The pipeline is exact.** However the producer, the runner and the consumer take turns, from
any book and any two queues: no step faults; the requests sent are those taken and those in the
input queue; the responses received, those in the output queue and the events not pushed yet are
the book's answers to the requests taken, numbered on from the book's last sequence; none of them
is out of sequence; and the journal has grown by the commands of these requests, but for the one
that is in work and not journaled yet. -/
theorem pipeline_exact (hb : Reachable b₀) {ci co : ℕ} {input : SpscQueue GatewayRequest}
    {output : SpscQueue GatewayResponse} (hin : SpscQueue.new ci = .ok input)
    (hout : SpscQueue.new co = .ok output) (bytes : Command → List UInt8)
    (journal : Option (List JournalRecord))
    (h : Relation.ReflTransGen (Pipeline.Step bytes) (.start b₀ journal input output) p) :
    ((∀ request, ∃ p', p.produce request = .ok p') ∧ (∃ p', p.run bytes = .ok p') ∧
        ∃ p', p.consume = .ok p') ∧
      p.sent = p.taken ++ p.input.contents ∧
      (∃ book responses,
        answer b₀ (number (b₀.stats.lastSequence + 1) p.taken) = .ok (book, responses) ∧
        p.received ++ p.output.contents ++ p.pending = responses ∧
        ∀ x ∈ responses, x.event.reason ≠ .sequenceGap) ∧
      p.runner.journal.map (· ++ recordsOf bytes p.unjournaled) =
        journal.map (· ++ recordsOf bytes
          ((number (b₀.stats.lastSequence + 1) p.taken).map GatewayRequest.command)) := by
  have hexact : Exact bytes b₀ journal p := (Exact.start hb hin hout).steps h
  obtain ⟨book, hserved, hjournal⟩ := hexact.complete
  refine ⟨⟨fun request => ?_, ?_, ?_⟩, hexact.sent,
    ⟨book, _, hserved.answer, rfl, hserved.gapless⟩, hjournal⟩
  · obtain ⟨p', hp, -⟩ := hexact.produce request
    exact ⟨p', hp⟩
  · obtain ⟨p', hp, -⟩ := hexact.run
    exact ⟨p', hp⟩
  · obtain ⟨p', hp, -⟩ := hexact.consume
    exact ⟨p', hp⟩

/-- A request is journaled and processed, and the first of its two responses pushed. -/
theorem pipeline_exact_one_request : ∃ b₀ input output p book responses,
    OrderBook.new ⟨1, 4, 1, 2⟩ = .ok b₀ ∧ SpscQueue.new 1 = .ok input ∧
    SpscQueue.new 1 = .ok output ∧
    Relation.ReflTransGen (Pipeline.Step Command.bytes) (.start b₀ (some []) input output) p ∧
    p.taken = [⟨3, 1, ⟨0, .new, .buy, .limit, 0, 7, 2, 5⟩⟩] ∧ p.sent = p.taken ++ p.input.contents ∧
    p.output.contents = [⟨3, 1, ⟨1, .accepted, .buy, .none, 0, 7, 0, 0, 0⟩⟩] ∧
    p.pending = [⟨3, 1, ⟨1, .rested, .buy, .none, 0, 7, 0, 2, 5⟩⟩] ∧
    answer b₀ (number (b₀.stats.lastSequence + 1) p.taken) = .ok (book, responses) ∧
    p.received ++ p.output.contents ++ p.pending = responses ∧
    p.runner.journal =
      some (recordsOf Command.bytes ((number (b₀.stats.lastSequence + 1) p.taken).map
        GatewayRequest.command)) := by
  have hrun : ((do
      let b₀ ← OrderBook.new ⟨1, 4, 1, 2⟩
      let input ← SpscQueue.new 1
      let output ← SpscQueue.new 1
      let p₁ ← (Pipeline.start b₀ (some []) input output).produce
        ⟨3, 1, ⟨0, .new, .buy, .limit, 0, 7, 2, 5⟩⟩
      let p₂ ← p₁.run Command.bytes
      let p₃ ← p₂.run Command.bytes
      let p₄ ← p₃.run Command.bytes
      let p₅ ← p₄.run Command.bytes
      let p₆ ← p₅.run Command.bytes
      .ok (p₆.taken, p₆.output.contents, p₆.pending, p₆.unjournaled)) : Except Fault
        (List GatewayRequest × List GatewayResponse × List GatewayResponse × List Command)) =
      .ok ([⟨3, 1, ⟨0, .new, .buy, .limit, 0, 7, 2, 5⟩⟩],
        [⟨3, 1, ⟨1, .accepted, .buy, .none, 0, 7, 0, 0, 0⟩⟩],
        [⟨3, 1, ⟨1, .rested, .buy, .none, 0, 7, 0, 2, 5⟩⟩], []) := by decide +kernel
  obtain ⟨b₀, hnew, hrun⟩ := bind_eq_ok.mp hrun
  obtain ⟨input, hin, hrun⟩ := bind_eq_ok.mp hrun
  obtain ⟨output, hout, hrun⟩ := bind_eq_ok.mp hrun
  obtain ⟨p₁, h₁, hrun⟩ := bind_eq_ok.mp hrun
  obtain ⟨p₂, h₂, hrun⟩ := bind_eq_ok.mp hrun
  obtain ⟨p₃, h₃, hrun⟩ := bind_eq_ok.mp hrun
  obtain ⟨p₄, h₄, hrun⟩ := bind_eq_ok.mp hrun
  obtain ⟨p₅, h₅, hrun⟩ := bind_eq_ok.mp hrun
  obtain ⟨p, h₆, hrun⟩ := bind_eq_ok.mp hrun
  simp only [Except.ok.injEq, Prod.mk.injEq] at hrun
  obtain ⟨htaken, houtput, hpending, hnone⟩ := hrun
  have hsteps := (((((Relation.ReflTransGen.single (Pipeline.Step.produce _ h₁)).tail (.run h₂)).tail
    (.run h₃)).tail (.run h₄)).tail (.run h₅)).tail (.run h₆)
  obtain ⟨-, hsent, ⟨book, responses, hanswer, hresponses, -⟩, hjournal⟩ :=
    pipeline_exact (Reachable.new hnew) hin hout Command.bytes (some []) hsteps
  refine ⟨b₀, input, output, p, book, responses, hnew, hin, hout, hsteps, htaken, hsent, houtput,
    hpending, hanswer, hresponses, ?_⟩
  rw [hnone] at hjournal
  simpa [recordsOf] using hjournal

end Dme
