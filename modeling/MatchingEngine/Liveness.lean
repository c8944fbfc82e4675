import Mathlib
import MatchingEngine.Lib.Fairness
import MatchingEngine.Pipeline

/-!
# Every request is answered

A schedule gives the turns of the three parties of the pipeline, without end: the producer tries to
push a request, the runner executes its next statement, the consumer tries to pop. Either queue may be
full or empty at any of them.

* `Turn`, `Pipeline.turn`, `Pipeline.after`.
* `Statement`, `Pipeline.run_statement`: all that one statement of the runner can do.
* `Served.mono`, `Served.tagged`: the answers to the first requests, and whose they are.
* `Aims`, `distance`, `helps`: the way to the last response of given requests; **`aims_helpful`**.
* **`every_request_answered`**.
-/

set_option autoImplicit false

namespace Dme

/-! ## Turns -/

/-- Whose turn it is. -/
inductive Turn
  | produce (request : GatewayRequest)
  | run
  | consume
deriving DecidableEq, Repr

namespace Pipeline

/-- One turn of the party it belongs to. -/
def turn (bytes : Command → List UInt8) (p : Pipeline) : Turn → Except Fault Pipeline
  | .produce request => p.produce request
  | .run => p.run bytes
  | .consume => p.consume

/-- **The pipeline after the first turns of a schedule.** -/
def after (bytes : Command → List UInt8) (schedule : ℕ → Turn) (p : Pipeline) :
    ℕ → Except Fault Pipeline
  | 0 => .ok p
  | t + 1 => do
    let p ← after bytes schedule p t
    p.turn bytes (schedule t)

end Pipeline

/-- The statements the runner still has to execute for the request in work, pushes apart. -/
def RunnerPc.left : RunnerPc → ℕ
  | .ready => 0
  | .popped _ => 4
  | .sequenced _ => 3
  | .journaled _ => 2
  | .publishing _ _ => 1

/-- **What one statement of the runner can do.** -/
inductive Statement (p : Pipeline) : Pipeline → Prop
  | starved (hpc : p.runner.pc = .ready) (hin : p.input.contents = []) : Statement p p
  | pops {p' : Pipeline} (incoming : GatewayRequest) (hpc : p.runner.pc = .ready)
      (hpc' : p'.runner.pc.left = 4) (htaken : p'.taken = p.taken ++ [incoming])
      (hout : p'.output = p.output) : Statement p p'
  | works {p' : Pipeline} (hleft : p.runner.pc.left = p'.runner.pc.left + 1)
      (htaken : p'.taken = p.taken) (hout : p'.output = p.output) : Statement p p'
  | full (incoming : GatewayRequest) (event : Event) (events : List Event)
      (hpc : p.runner.pc = .publishing incoming (event :: events))
      (hfull : p.output.contents.length = p.output.buffer.size - 1) : Statement p p
  | pushes {p' : Pipeline} (incoming : GatewayRequest) (event : Event) (events : List Event)
      (hpc : p.runner.pc = .publishing incoming (event :: events)) (hpc' : p'.runner.pc.left = 1)
      (htaken : p'.taken = p.taken)
      (hout : p'.output.contents = p.output.contents ++ [incoming.response event])
      (hsize : p'.output.buffer.size = p.output.buffer.size) : Statement p p'

section Turns

variable {bytes : Command → List UInt8} {p p' : Pipeline}

theorem Pipeline.turn_step {turn : Turn} (h : p.turn bytes turn = .ok p') : Step bytes p p' := by
  cases turn with
  | produce request => exact .produce request h
  | run => exact .run h
  | consume => exact .consume h

theorem Pipeline.produce_effect {request : GatewayRequest} (h : p.produce request = .ok p') :
    p.sent <+: p'.sent ∧ p'.output = p.output ∧ p'.runner = p.runner ∧ p'.taken = p.taken ∧
      p'.received = p.received := by
  simp only [produce, bind, Except.bind] at h
  split at h
  · cases h
  · cases h
    split_ifs
    · exact ⟨List.prefix_append _ _, rfl, rfl, rfl, rfl⟩
    · exact ⟨List.prefix_rfl, rfl, rfl, rfl, rfl⟩

theorem Pipeline.consume_effect (hout : p.output.WF) (h : p.consume = .ok p') :
    (p.output.contents = [] ∧ p' = p) ∨ ∃ x rest, p.output.contents = x :: rest ∧
      p'.output.contents = rest ∧ p'.received = p.received ++ [x] ∧
      p'.output.buffer.size = p.output.buffer.size ∧ p'.sent = p.sent ∧ p'.runner = p.runner ∧
      p'.taken = p.taken := by
  rcases hout.tryPop with ⟨hempty, hpop⟩ | ⟨x, rest, output, hcontents, hpop, -, hsize, hrest⟩
  · simp only [consume, hpop, bind, Except.bind, Option.toList_none, List.append_nil] at h
    cases h
    exact .inl ⟨hempty, rfl⟩
  · simp only [consume, hpop, bind, Except.bind] at h
    cases h
    exact .inr ⟨x, rest, hcontents, hrest, rfl, hsize, rfl, rfl, rfl⟩

theorem Pipeline.run_statement (hin : p.input.WF) (hout : p.output.WF) (h : p.run bytes = .ok p') :
    Statement p p' ∧ p'.sent = p.sent ∧ p'.received = p.received := by
  obtain ⟨input, output, ⟨book, journal, next, pc⟩, sent, taken, received⟩ := p
  cases pc with
  | ready =>
    rcases hin.tryPop with ⟨hempty, hpop⟩ | ⟨r, rest, input', -, hpop, -, -, -⟩
    · simp only [run, hpop, bind, Except.bind] at h
      cases h
      exact ⟨.starved rfl hempty, rfl, rfl⟩
    · simp only [run, hpop, bind, Except.bind] at h
      cases h
      exact ⟨.pops r rfl rfl rfl rfl, rfl, rfl⟩
  | popped incoming =>
    cases h
    exact ⟨.works rfl rfl rfl, rfl, rfl⟩
  | sequenced incoming =>
    cases h
    exact ⟨.works rfl rfl rfl, rfl, rfl⟩
  | journaled incoming =>
    simp only [run, bind, Except.bind] at h
    split at h
    · cases h
    · cases h
      exact ⟨.works rfl rfl rfl, rfl, rfl⟩
  | publishing incoming events =>
    cases events with
    | nil =>
      cases h
      exact ⟨.works rfl rfl rfl, rfl, rfl⟩
    | cons event events =>
      rcases hout.tryPush (incoming.response event) with
        ⟨hfull, hpush⟩ | ⟨-, output', hpush, -, hsize, hcontents⟩
      · simp only [run, hpush, bind, Except.bind] at h
        cases h
        exact ⟨.full incoming event events rfl hfull, rfl, rfl⟩
      · simp only [run, hpush, bind, Except.bind] at h
        cases h
        exact ⟨.pushes incoming event events rfl rfl rfl hcontents hsize, rfl, rfl⟩

end Turns

/-! ## Answers -/

section Answers

variable {b₀ book book' : OrderBook} {done : List GatewayRequest} {responses : List GatewayResponse}

theorem Served.requests (h : Served b₀ done book responses) (more : List GatewayRequest) :
    ∃ book' rest, Served b₀ (done ++ more) book' (responses ++ rest) := by
  induction more generalizing done book responses with
  | nil => exact ⟨book, [], by simpa using h⟩
  | cons r more ih =>
    obtain ⟨book₁, events, -, -, h₁⟩ := h.request r
    obtain ⟨book₂, rest, h₂⟩ := ih h₁
    rw [← List.append_cons, List.append_assoc] at h₂
    exact ⟨book₂, _, h₂⟩

/-- **The answers to the first requests come first.** -/
theorem Served.mono {done' : List GatewayRequest} {responses' : List GatewayResponse}
    (h : Served b₀ done book responses) (h' : Served b₀ done' book' responses')
    (hdone : done <+: done') : responses <+: responses' := by
  obtain ⟨more, rfl⟩ := hdone
  obtain ⟨book₁, rest, h₁⟩ := h.requests more
  cases h₁.answer.symm.trans h'.answer
  exact List.prefix_append _ _

theorem Market.perform_ne_nil {m : Market} {c : Command} {depth : Depth} {events : List Event}
    (h : m.perform c = .ok (depth, events)) : events ≠ [] := by
  rw [Market.perform] at h
  cases htype : c.type with
  | new =>
    simp only [htype, Market.submit] at h
    split_ifs at h
    cases h
    exact List.cons_ne_nil _ _
  | cancel =>
    simp only [htype, Market.cancel] at h
    split at h
    · cases h
    · cases h
      exact List.cons_ne_nil _ _
  | replace =>
    simp only [htype, Market.replace] at h
    split at h
    · cases h
    · split_ifs at h
      cases h
      exact List.cons_ne_nil _ _

theorem Market.process_ne_nil (m : Market) (c : Command) : (m.process c).2 ≠ [] := by
  rw [Market.process]
  split_ifs
  · exact List.cons_ne_nil _ _
  · cases hperform : m.perform c with
    | error reason => exact List.cons_ne_nil _ _
    | ok r => exact Market.perform_ne_nil hperform

/-- **Every request has a response of its own.** -/
theorem Served.tagged (hb : Reachable b₀) (h : Served b₀ done book responses) {r : GatewayRequest}
    (hr : r ∈ done) :
    ∃ x ∈ responses, x.sessionId = r.sessionId ∧ x.clientSequence = r.clientSequence := by
  obtain ⟨front, back, rfl⟩ := List.append_of_mem hr
  obtain ⟨book₁, before, h₁⟩ := hb.served.requests front
  obtain ⟨book₂, events, hp, -, h₂⟩ := h₁.request r
  obtain ⟨q, hinv⟩ := h₁.inv
  obtain ⟨book₂', q', hp', -⟩ := hinv.process _ []
  cases hp.symm.trans hp'
  obtain ⟨e, he⟩ := List.exists_mem_of_ne_nil _ (Market.process_ne_nil (book₁.market q)
    (r.withSequence (book₁.stats.lastSequence + 1)).command)
  have hfirst := h₂.mono h ⟨back, by simp⟩
  exact ⟨r.response e, hfirst.subset (List.mem_append_right _ (List.mem_map_of_mem he)), rfl, rfl⟩

end Answers

/-! ## The way to the last response -/

section Aims

variable (bytes : Command → List UInt8) (b₀ : OrderBook) (journal : Option (List JournalRecord))
  (asked : List GatewayRequest) (due : List GatewayResponse)

/-- **The pipeline on its way** to the responses `due` to the requests `asked`, which are sent. -/
structure Aims (p : Pipeline) : Prop where
  exact : Exact bytes b₀ journal p
  room : 2 ≤ p.output.buffer.size
  sent : asked <+: p.sent
  passed : asked.length < p.taken.length →
    due.length ≤ p.received.length + p.output.contents.length

/-- The turns of the runner and of the consumer that are needed until `k` responses to the first `n`
requests are received. -/
def Pipeline.distance (n k : ℕ) (p : Pipeline) : ℕ :=
  5 * (n - p.taken.length) + (if p.taken.length ≤ n then p.runner.pc.left else 0) +
    (k - (p.received.length + p.output.contents.length)) + (k - p.received.length)

/-- The next turn of this party is one of them. -/
def Pipeline.helps (n k : ℕ) (p : Pipeline) : Turn → Prop
  | .produce _ => False
  | .run => p.taken.length ≤ n ∧
    match p.runner.pc with
    | .ready => p.taken.length < n
    | .publishing _ (_ :: _) => p.output.contents.length < p.output.buffer.size - 1
    | _ => True
  | .consume => p.output.contents ≠ [] ∧ p.received.length < k

variable {bytes b₀ journal asked due} {p p' : Pipeline} {book : OrderBook}

theorem Aims.asked_taken (h : Aims bytes b₀ journal asked due p)
    (hle : asked.length ≤ p.taken.length) : asked <+: p.taken :=
  List.prefix_of_prefix_length_le h.sent (h.exact.sent ▸ List.prefix_append _ _) hle

theorem Aims.taken_asked (h : Aims bytes b₀ journal asked due p)
    (hle : p.taken.length ≤ asked.length) : p.taken <+: asked :=
  List.prefix_of_prefix_length_le (h.exact.sent ▸ List.prefix_append _ _) h.sent hle

/-- **A runner that has taken all requests `asked` and is ready has pushed all responses.** -/
theorem Aims.all_pushed (h : Aims bytes b₀ journal asked due p) (hserved : Served b₀ asked book due)
    (hpc : p.runner.pc = .ready) (hle : asked.length ≤ p.taken.length) :
    due.length ≤ p.received.length + p.output.contents.length := by
  obtain ⟨book', h', -⟩ := h.exact.complete
  have hfirst := (hserved.mono h' (h.asked_taken hle)).length_le
  simpa [Pipeline.pending, hpc] using hfirst

/-- **An event that is pushed for one of these requests is due.** -/
theorem Aims.one_due (h : Aims bytes b₀ journal asked due p) (hserved : Served b₀ asked book due)
    {incoming : GatewayRequest} {event : Event} {events : List Event}
    (hpc : p.runner.pc = .publishing incoming (event :: events))
    (hle : p.taken.length ≤ asked.length) :
    p.received.length + p.output.contents.length < due.length := by
  obtain ⟨book', h', -⟩ := h.exact.complete
  have hfirst := (h'.mono hserved (h.taken_asked hle)).length_le
  simp only [Pipeline.pending, hpc, List.length_append, List.map_cons, List.length_cons] at hfirst
  omega

theorem Aims.step (h : Aims bytes b₀ journal asked due p) (hserved : Served b₀ asked book due)
    {turn : Turn} (hturn : p.turn bytes turn = .ok p') : Aims bytes b₀ journal asked due p' := by
  have hexact' := h.exact.step (Pipeline.turn_step hturn)
  cases turn with
  | produce request =>
    obtain ⟨hsent, hout, -, htaken, hreceived⟩ := Pipeline.produce_effect hturn
    refine ⟨hexact', hout ▸ h.room, h.sent.trans hsent, ?_⟩
    rw [hout, htaken, hreceived]
    exact h.passed
  | run =>
    obtain ⟨hstatement, hsent, hreceived⟩ :=
      Pipeline.run_statement h.exact.input h.exact.output hturn
    have hpassed := h.passed
    cases hstatement with
    | starved => exact h
    | full => exact h
    | pops incoming hpc _ htaken hout =>
      refine ⟨hexact', hout ▸ h.room, hsent ▸ h.sent, fun hlt => ?_⟩
      rw [hout, hreceived]
      rw [htaken, List.length_append, List.length_singleton] at hlt
      exact h.all_pushed hserved hpc (Nat.le_of_lt_succ hlt)
    | works _ htaken hout =>
      refine ⟨hexact', hout ▸ h.room, hsent ▸ h.sent, ?_⟩
      rwa [hout, htaken, hreceived]
    | pushes _ _ _ _ _ htaken hout hsize =>
      refine ⟨hexact', hsize ▸ h.room, hsent ▸ h.sent, fun hlt => ?_⟩
      have := hpassed (htaken ▸ hlt)
      rw [hout, hreceived, List.length_append]
      omega
  | consume =>
    rcases Pipeline.consume_effect h.exact.output hturn with
      ⟨-, rfl⟩ | ⟨x, rest, hcontents, hrest, hreceived, hsize, hsent, -, htaken⟩
    · exact h
    · refine ⟨hexact', hsize ▸ h.room, hsent ▸ h.sent, fun hlt => ?_⟩
      have := h.passed (htaken ▸ hlt)
      rw [hcontents, List.length_cons] at this
      rw [hrest, hreceived, List.length_append, List.length_singleton]
      omega

theorem Aims.distance_le (h : Aims bytes b₀ journal asked due p)
    {turn : Turn} (hturn : p.turn bytes turn = .ok p') :
    p'.distance asked.length due.length ≤ p.distance asked.length due.length := by
  cases turn with
  | produce request =>
    obtain ⟨-, hout, hrunner, htaken, hreceived⟩ := Pipeline.produce_effect hturn
    rw [Pipeline.distance, Pipeline.distance, hout, hrunner, htaken, hreceived]
  | run =>
    obtain ⟨hstatement, -, hreceived⟩ :=
      Pipeline.run_statement h.exact.input h.exact.output hturn
    cases hstatement with
    | starved => exact le_rfl
    | full => exact le_rfl
    | pops incoming hpc hpc' htaken hout =>
      have hleft : p.runner.pc.left = 0 := congrArg RunnerPc.left hpc
      simp only [Pipeline.distance, hleft, hpc', htaken, hout, hreceived, List.length_append,
        List.length_singleton]
      split_ifs <;> omega
    | works hleft htaken hout =>
      simp only [Pipeline.distance, hleft, htaken, hout, hreceived]
      split_ifs <;> omega
    | pushes _ _ _ hpc hpc' htaken hout =>
      have hleft : p.runner.pc.left = 1 := congrArg RunnerPc.left hpc
      simp only [Pipeline.distance, hleft, hpc', htaken, hout, hreceived, List.length_append,
        List.length_singleton]
      omega
  | consume =>
    rcases Pipeline.consume_effect h.exact.output hturn with
      ⟨-, rfl⟩ | ⟨x, rest, hcontents, hrest, hreceived, -, -, hrunner, htaken⟩
    · exact le_rfl
    · simp only [Pipeline.distance, hcontents, hrest, hreceived, hrunner, htaken,
        List.length_append, List.length_cons, List.length_nil]
      omega

theorem Aims.distance_lt (h : Aims bytes b₀ journal asked due p)
    (hserved : Served b₀ asked book due) {turn : Turn}
    (hhelps : p.helps asked.length due.length turn) (hturn : p.turn bytes turn = .ok p') :
    p'.distance asked.length due.length < p.distance asked.length due.length := by
  cases turn with
  | produce request => exact hhelps.elim
  | run =>
    obtain ⟨hle, hgo⟩ := hhelps
    obtain ⟨hstatement, -, hreceived⟩ :=
      Pipeline.run_statement h.exact.input h.exact.output hturn
    cases hstatement with
    | starved hpc hin =>
      simp only [hpc] at hgo
      have hsent := h.sent.length_le
      rw [h.exact.sent, hin, List.append_nil] at hsent
      omega
    | full _ _ _ hpc hfull =>
      simp only [hpc] at hgo
      omega
    | pops incoming hpc hpc' htaken hout =>
      simp only [hpc] at hgo
      have hleft : p.runner.pc.left = 0 := congrArg RunnerPc.left hpc
      simp only [Pipeline.distance, hleft, hpc', htaken, hout, hreceived, List.length_append,
        List.length_singleton]
      split_ifs <;> omega
    | works hleft htaken hout =>
      simp only [Pipeline.distance, hleft, htaken, hout, hreceived, if_pos hle]
      omega
    | pushes _ _ _ hpc hpc' htaken hout =>
      have hdue := h.one_due hserved hpc hle
      have hleft : p.runner.pc.left = 1 := congrArg RunnerPc.left hpc
      simp only [Pipeline.distance, hleft, hpc', htaken, hout, hreceived, List.length_append,
        List.length_singleton]
      omega
  | consume =>
    obtain ⟨hne, hlt⟩ := hhelps
    rcases Pipeline.consume_effect h.exact.output hturn with
      ⟨hempty, -⟩ | ⟨x, rest, hcontents, hrest, hreceived, -, -, hrunner, htaken⟩
    · exact absurd hempty hne
    · simp only [Pipeline.distance, hcontents, hrest, hreceived, hrunner, htaken,
        List.length_append, List.length_cons, List.length_nil]
      omega

/-- **Short of the goal, the runner or the consumer helps**: a runner that waits for room in the output
queue has filled it. -/
theorem Aims.exists_helps (h : Aims bytes b₀ journal asked due p)
    (hserved : Served b₀ asked book due) (hne : p.distance asked.length due.length ≠ 0) :
    ∃ turn, p.helps asked.length due.length turn := by
  have hroom := h.room
  -- with all responses pushed, only the consumer is left
  have hconsume : due.length ≤ p.received.length + p.output.contents.length →
      p.received.length < due.length → ∃ turn, p.helps asked.length due.length turn := by
    intro hpushed hlt
    refine ⟨.consume, fun hempty => ?_, hlt⟩
    rw [hempty, List.length_nil] at hpushed
    omega
  by_cases hle : p.taken.length ≤ asked.length
  · cases hpc : p.runner.pc with
    | ready =>
      by_cases hlt : p.taken.length < asked.length
      · exact ⟨.run, hle, by simpa only [hpc] using hlt⟩
      · have hpushed := h.all_pushed hserved hpc (Nat.le_of_not_lt hlt)
        refine hconsume hpushed ?_
        simp only [Pipeline.distance, hpc, RunnerPc.left] at hne
        split_ifs at hne
        omega
    | popped incoming => exact ⟨.run, hle, by simp only [hpc]⟩
    | sequenced incoming => exact ⟨.run, hle, by simp only [hpc]⟩
    | journaled incoming => exact ⟨.run, hle, by simp only [hpc]⟩
    | publishing incoming events =>
      cases events with
      | nil => exact ⟨.run, hle, by simp only [hpc]⟩
      | cons event events =>
        by_cases hfree : p.output.contents.length < p.output.buffer.size - 1
        · exact ⟨.run, hle, by simpa only [hpc] using hfree⟩
        · have hdue := h.one_due hserved hpc hle
          refine ⟨.consume, fun hempty => ?_, by omega⟩
          rw [hempty, List.length_nil] at hfree
          omega
  · have hpushed := h.passed (Nat.lt_of_not_le hle)
    refine hconsume hpushed ?_
    rw [Pipeline.distance, if_neg hle] at hne
    omega

theorem Aims.helps_stay (h : Aims bytes b₀ journal asked due p)
    (hserved : Served b₀ asked book due) {turn turn' : Turn}
    (hhelps : p.helps asked.length due.length turn) (hturn : p.turn bytes turn' = .ok p') :
    p'.distance asked.length due.length < p.distance asked.length due.length ∨
      p'.helps asked.length due.length turn := by
  by_cases heq : turn = turn'
  · exact .inl (h.distance_lt hserved hhelps (heq ▸ hturn))
  · right
    cases turn' with
    | produce request =>
      obtain ⟨-, hout, hrunner, htaken, hreceived⟩ := Pipeline.produce_effect hturn
      cases turn with
      | produce => exact hhelps
      | run => simpa only [Pipeline.helps, hout, hrunner, htaken] using hhelps
      | consume => simpa only [Pipeline.helps, hout, hreceived] using hhelps
    | run =>
      obtain ⟨hstatement, -, hreceived⟩ :=
        Pipeline.run_statement h.exact.input h.exact.output hturn
      cases turn with
      | produce => exact hhelps
      | run => exact absurd rfl heq
      | consume =>
        obtain ⟨hne, hlt⟩ := hhelps
        refine ⟨?_, hreceived ▸ hlt⟩
        cases hstatement with
        | starved => exact hne
        | full => exact hne
        | pops _ _ _ _ hout => rwa [hout]
        | works _ _ hout => rwa [hout]
        | pushes _ _ _ _ _ _ hout =>
          rw [hout]
          exact List.append_ne_nil_of_left_ne_nil hne _
    | consume =>
      rcases Pipeline.consume_effect h.exact.output hturn with
        ⟨-, rfl⟩ | ⟨x, rest, hcontents, hrest, -, hsize, -, hrunner, htaken⟩
      · exact hhelps
      · cases turn with
        | produce => exact hhelps
        | consume => exact absurd rfl heq
        | run =>
          obtain ⟨hle, hgo⟩ := hhelps
          refine ⟨htaken ▸ hle, ?_⟩
          rw [hrunner, htaken, hrest, hsize]
          rw [hcontents, List.length_cons] at hgo
          split at hgo
          · exact hgo
          · omega
          · trivial

theorem aims_helpful (hserved : Served b₀ asked book due) :
    Fairness.Helpful (fun turn p p' => p.turn bytes turn = .ok p') (Aims bytes b₀ journal asked due)
      (Pipeline.distance asked.length due.length)
      fun turn p => p.helps asked.length due.length turn where
  keep h hturn := h.step hserved hturn
  le h hturn := h.distance_le hturn
  some h hne := h.exists_helps hserved hne
  lower h hhelps hturn := h.distance_lt hserved hhelps hturn
  stay h hhelps hturn := h.helps_stay hserved hhelps hturn

theorem Aims.reached (h : Aims bytes b₀ journal asked due p) (hserved : Served b₀ asked book due)
    (hzero : p.distance asked.length due.length = 0) : due <+: p.received := by
  rw [Pipeline.distance] at hzero
  obtain ⟨book', h', -⟩ := h.exact.complete
  have hfirst := hserved.mono h' (h.asked_taken (by omega))
  rw [List.append_assoc] at hfirst
  exact List.prefix_of_prefix_length_le hfirst (List.prefix_append _ _) (by omega)

end Aims

/-! ## Fair schedules -/

variable {b₀ : OrderBook} {bytes : Command → List UInt8} {journal : Option (List JournalRecord)}
  {p : Pipeline}

theorem Exact.turn (h : Exact bytes b₀ journal p) (turn : Turn) :
    ∃ p', p.turn bytes turn = .ok p' ∧ Exact bytes b₀ journal p' := by
  cases turn with
  | produce request => exact h.produce request
  | run => exact h.run
  | consume => exact h.consume

theorem Exact.after (h : Exact bytes b₀ journal p) (schedule : ℕ → Turn) (t : ℕ) :
    ∃ p', p.after bytes schedule t = .ok p' ∧ Exact bytes b₀ journal p' := by
  induction t with
  | zero => exact ⟨p, rfl, h⟩
  | succ t ih =>
    obtain ⟨p₁, hp₁, h₁⟩ := ih
    obtain ⟨p₂, hp₂, h₂⟩ := h₁.turn (schedule t)
    refine ⟨p₂, ?_, h₂⟩
    simp only [Pipeline.after, hp₁, bind, Except.bind, hp₂]

theorem Aims.start (hb : Reachable b₀) {ci co : ℕ} {input : SpscQueue GatewayRequest}
    {output : SpscQueue GatewayResponse} (hin : SpscQueue.new ci = .ok input)
    (hout : SpscQueue.new co = .ok output) :
    Aims bytes b₀ journal [] [] (.start b₀ journal input output) := by
  refine ⟨Exact.start hb hin hout, ?_, List.nil_prefix, fun _ => Nat.zero_le _⟩
  have hco : co ≠ 0 := by
    rintro rfl
    simp [SpscQueue.new, SpscQueue.storageCapacity, bind, Except.bind] at hout
  obtain ⟨-, -, hsize⟩ := SpscQueue.WF.new hout
  change 2 ≤ output.buffer.size
  omega

/-- **The next goal**: the responses to all requests sent so far. -/
theorem Aims.next {asked : List GatewayRequest} {due : List GatewayResponse} (hb : Reachable b₀)
    (h : Aims bytes b₀ journal asked due p) :
    ∃ book due', Served b₀ p.sent book due' ∧ Aims bytes b₀ journal p.sent due' p := by
  obtain ⟨book, due', hserved⟩ := hb.served.requests p.sent
  refine ⟨book, due', hserved, h.exact, h.room, List.prefix_rfl, fun hlt => ?_⟩
  rw [h.exact.sent, List.length_append] at hlt
  omega

/-- **Every request is answered.** Under every schedule in which the runner and the consumer have
their turns again and again, whatever the producer does and however often a queue is full or empty: no
turn faults, and of the requests sent up to any time each has a response of its own and all responses
are received from some time on, in the order of the requests and before any other. -/
theorem every_request_answered (hb : Reachable b₀) {ci co : ℕ} {input : SpscQueue GatewayRequest}
    {output : SpscQueue GatewayResponse} (hin : SpscQueue.new ci = .ok input)
    (hout : SpscQueue.new co = .ok output) (bytes : Command → List UInt8)
    (journal : Option (List JournalRecord)) (schedule : ℕ → Turn)
    (hrun : ∃ᶠ t in Filter.atTop, schedule t = .run)
    (hconsume : ∃ᶠ t in Filter.atTop, schedule t = .consume) (t : ℕ) :
    ∃ p book responses,
      (Pipeline.start b₀ journal input output).after bytes schedule t = .ok p ∧
      answer b₀ (number (b₀.stats.lastSequence + 1) p.sent) = .ok (book, responses) ∧
      (∀ r ∈ p.sent, ∃ x ∈ responses,
        x.sessionId = r.sessionId ∧ x.clientSequence = r.clientSequence) ∧
      ∀ᶠ u in Filter.atTop, ∃ p',
        (Pipeline.start b₀ journal input output).after bytes schedule u = .ok p' ∧
          responses <+: p'.received := by
  have hstart : Aims bytes b₀ journal [] [] (.start b₀ journal input output) :=
    Aims.start hb hin hout
  choose state hstate _ using hstart.exact.after schedule
  have hzero : state 0 = .start b₀ journal input output := Except.ok.inj (hstate 0).symm
  have hturn : ∀ u, (state u).turn bytes (schedule u) = .ok (state (u + 1)) := by
    intro u
    have hsucc := hstate (u + 1)
    simpa only [Pipeline.after, hstate u, bind, Except.bind] using hsucc
  have haims : Aims bytes b₀ journal [] [] (state t) :=
    (aims_helpful hb.served).always hturn (hzero ▸ hstart) (Nat.zero_le t)
  obtain ⟨book, due, hserved, hgoal⟩ := haims.next hb
  refine ⟨state t, book, due, hstate t, hserved.answer, fun r hr => hserved.tagged hb hr, ?_⟩
  have hreached := (aims_helpful hserved).eventually hturn hgoal fun turn p hhelps => by
    cases turn with
    | produce request => exact hhelps.elim
    | run => exact hrun
    | consume => exact hconsume
  filter_upwards [hreached] with u hu
  exact ⟨state u, hstate u, hu.1.reached hserved hu.2⟩

/-- The three parties in turn, with queues of one cell: the request that is pushed first is answered. -/
theorem every_request_answered_in_turn : ∃ b₀ input output,
    OrderBook.new ⟨1, 4, 1, 2⟩ = .ok b₀ ∧ SpscQueue.new 1 = .ok input ∧
    SpscQueue.new 1 = .ok output ∧
    ∀ᶠ u in Filter.atTop, ∃ p', (Pipeline.start b₀ (some []) input output).after Command.bytes
        (fun t => if t % 3 = 0 then .produce ⟨3, 1, ⟨0, .new, .buy, .limit, 0, 7, 2, 5⟩⟩
          else if t % 3 = 1 then .run else .consume) u = .ok p' ∧
      ∃ x ∈ p'.received, x.sessionId = 3 ∧ x.clientSequence = 1 := by
  obtain ⟨b₀, hnew⟩ := OrderBook.new_isOk (by decide : checkedPriceCount ⟨1, 4, 1, 2⟩ = .ok 4) (by decide)
  have hin : SpscQueue.new (T := GatewayRequest) 1 = .ok ⟨#[{}, {}], 1, 0, 0⟩ := by decide
  have hout : SpscQueue.new (T := GatewayResponse) 1 = .ok ⟨#[{}, {}], 1, 0, 0⟩ := by decide
  refine ⟨b₀, _, _, hnew, hin, hout, ?_⟩
  obtain ⟨p, book, responses, hp, -, htagged, hreceived⟩ :=
    every_request_answered (Reachable.new hnew) hin hout Command.bytes (some [])
      (fun t => if t % 3 = 0 then .produce ⟨3, 1, ⟨0, .new, .buy, .limit, 0, 7, 2, 5⟩⟩
        else if t % 3 = 1 then .run else .consume)
      (Filter.frequently_atTop.mpr fun a => ⟨3 * a + 1, by omega, by
        rw [if_neg (by omega), if_pos (by omega)]⟩)
      (Filter.frequently_atTop.mpr fun a => ⟨3 * a + 2, by omega, by
        rw [if_neg (by omega), if_neg (by omega)]⟩) 1
  have hpush : SpscQueue.tryPush ⟨#[{}, {}], 1, 0, 0⟩
      (⟨3, 1, ⟨0, .new, .buy, .limit, 0, 7, 2, 5⟩⟩ : GatewayRequest) =
        .ok (true, ⟨#[⟨3, 1, ⟨0, .new, .buy, .limit, 0, 7, 2, 5⟩⟩, {}], 1, 0, 1⟩) := by decide
  have hsent : (⟨3, 1, ⟨0, .new, .buy, .limit, 0, 7, 2, 5⟩⟩ : GatewayRequest) ∈ p.sent := by
    simp only [Pipeline.after, Pipeline.turn, Pipeline.produce, Pipeline.start, Nat.zero_mod,
      if_true, hpush, bind, Except.bind, Except.ok.injEq] at hp
    rw [← hp]
    exact List.mem_cons_self
  obtain ⟨x, hx, hsession, hclient⟩ := htagged _ hsent
  filter_upwards [hreceived] with u hu
  obtain ⟨p', hp', hfirst⟩ := hu
  exact ⟨p', hp', x, hfirst.subset hx, hsession, hclient⟩

end Dme
