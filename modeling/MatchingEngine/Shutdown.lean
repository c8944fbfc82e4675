import MatchingEngine.Accounting
import MatchingEngine.Lib.Labelled
import MatchingEngine.Pipeline

/-!
# The runners and their stop flag

`EngineRunner::run` and `GatewayEngineRunner::run` with all their tests of `stop`: the loop ends at the next
test of its condition and then flushes the journal; a push that fails while `stop` is set returns at
once. A producer, a consumer and whoever sets `stop` move between any two statements.

* `Handler`: what a runner does with a value it has popped; `EngineRunner.handler`,
  `GatewayEngineRunner.handler`.
* `Place`, `RunLoop`, `run`, `Step`: the loop, statement by statement, and the other parties.
* `Progress`, **`Sound`**, `Sound.run`, `Sound.step`: what was taken, answered and pushed.
* `budget`, **`Sound.returns`**: the statements that are left once `stop` is set.
* **`engine_runner_shutdown`**, **`gateway_runner_returns`**.
-/

set_option autoImplicit false

namespace Dme

instance : Inhabited Command := ⟨{}⟩

instance : Inhabited Event := ⟨{}⟩

/-! ## The loop -/

/-- What a runner does with a value, and what it does last. -/
structure Handler (σ α β : Type) where
  handle : σ → α → Except Fault (σ × List β)
  flush : σ → σ

/-- Where a runner stands. -/
inductive Place (α β : Type)
  /-- About to test `stop` for the condition of the loop. -/
  | checking
  /-- About to pop. -/
  | popping
  /-- A value was popped. -/
  | handling (incoming : α)
  /-- These events are still to be pushed. -/
  | publishing (events : List β)
  /-- The push of the first of these events has failed; `stop` is tested next. -/
  | stalled (events : List β)
  /-- The loop has ended. -/
  | flushing
  /-- The function has returned without pushing these events. -/
  | returned (events : List β)
deriving DecidableEq, Repr

/-- A runner between its queues, with what was sent, taken and received so far. -/
structure RunLoop (σ α β : Type) where
  state : σ
  input : SpscQueue α
  output : SpscQueue β
  stop : Bool := false
  place : Place α β := .checking
  sent : List α := []
  taken : List α := []
  received : List β := []

/-- Who moves. -/
inductive Party
  | producer
  | runner
  | consumer
  | stopper
deriving DecidableEq, Repr

namespace RunLoop

variable {σ α β : Type}

/-- Before anything has happened. -/
def start (state : σ) (input : SpscQueue α) (output : SpscQueue β) : RunLoop σ α β :=
  { state, input, output }

/-- **The runner executes its next statement.** -/
def run (H : Handler σ α β) (s : RunLoop σ α β) : Except Fault (RunLoop σ α β) :=
  match s.place with
  | .checking => .ok { s with place := if s.stop then .flushing else .popping }
  | .popping => do
    let (popped, input) ← s.input.tryPop
    match popped with
    | none => .ok { s with input, place := .checking }
    | some incoming => .ok { s with input, place := .handling incoming, taken := s.taken ++ [incoming] }
  | .handling incoming => do
    let (state, events) ← H.handle s.state incoming
    .ok { s with state, place := .publishing events }
  | .publishing [] => .ok { s with place := .checking }
  | .publishing (event :: events) => do
    let (pushed, output) ← s.output.tryPush event
    .ok { s with output, place := if pushed then .publishing events else .stalled (event :: events) }
  | .stalled events => .ok { s with place := if s.stop then .returned events else .publishing events }
  | .flushing => .ok { s with state := H.flush s.state, place := .returned [] }
  | .returned _ => .ok s

/-- The producer tries to push a value. -/
def produce (s : RunLoop σ α β) (value : α) : Except Fault (RunLoop σ α β) := do
  let (pushed, input) ← s.input.tryPush value
  .ok (if pushed then { s with input, sent := s.sent ++ [value] } else { s with input })

/-- The consumer tries to pop an event. -/
def consume (s : RunLoop σ α β) : Except Fault (RunLoop σ α β) := do
  let (event, output) ← s.output.tryPop
  .ok { s with output, received := s.received ++ event.toList }

/-- **One step of one party.** -/
inductive Step (H : Handler σ α β) : RunLoop σ α β → List Party → RunLoop σ α β → Prop
  | produce {s s' : RunLoop σ α β} (value : α) (h : s.produce value = .ok s') :
    Step H s [.producer] s'
  | run {s s' : RunLoop σ α β} (h : s.run H = .ok s') : Step H s [.runner] s'
  | consume {s s' : RunLoop σ α β} (h : s.consume = .ok s') : Step H s [.consumer] s'
  | stop (s : RunLoop σ α β) : Step H s [.stopper] { s with stop := true }

end RunLoop

/-! ## The two runners -/

/-- A journal with the number of its records at the last flush of the stream. -/
structure JournalStream where
  records : List JournalRecord := []
  flushed : ℕ := 0
  synchronous : Bool := false
deriving DecidableEq, Repr

section Runners

variable (bytes : Command → List UInt8)

/-- `JournalWriter::append`. -/
def JournalStream.append (journal : JournalStream) (command : Command) : JournalStream :=
  let records := appendRecord bytes journal.records command
  { journal with records, flushed := if journal.synchronous then records.length else journal.flushed }

/-- `JournalWriter::flush`. -/
def JournalStream.flush (journal : JournalStream) : JournalStream :=
  { journal with flushed := journal.records.length }

/-- The book of a runner, and its journal if there is one. -/
structure RunnerState where
  book : OrderBook
  journal : Option JournalStream
deriving DecidableEq, Repr

/-- What `EngineRunner::run` does with a command. -/
def EngineRunner.handle (s : RunnerState) (command : Command) :
    Except Fault (RunnerState × List Event) := do
  let journal := s.journal.map fun journal => journal.append bytes command
  let (book, events) ← s.book.process command []
  .ok ({ book, journal }, events)

/-- The journal is flushed, if there is one. -/
def RunnerState.flush (s : RunnerState) : RunnerState :=
  { s with journal := s.journal.map JournalStream.flush }

/-- `EngineRunner::run`: the work on a command, and the end of the function. -/
def EngineRunner.handler : Handler RunnerState Command Event := ⟨EngineRunner.handle bytes, .flush⟩

/-- What `GatewayEngineRunner::run` does with a request; the state has the next engine sequence. -/
def GatewayEngineRunner.handle (s : RunnerState × Sequence) (incoming : GatewayRequest) :
    Except Fault ((RunnerState × Sequence) × List GatewayResponse) := do
  let incoming := incoming.withSequence s.2
  let (state, events) ← EngineRunner.handle bytes s.1 incoming.command
  .ok ((state, s.2 + 1), events.map incoming.response)

/-- `GatewayEngineRunner::run`: the work on a request, and the end of the function. -/
def GatewayEngineRunner.handler : Handler (RunnerState × Sequence) GatewayRequest GatewayResponse :=
  ⟨GatewayEngineRunner.handle bytes, fun s => (s.1.flush, s.2)⟩

end Runners

/-! ## What a runner has done -/

section Loop

variable {σ α β : Type} {H : Handler σ α β} {s₀ state : σ} {most : ℕ}

/-- The values of a list, with the events of each. -/
def Handler.handleAll (H : Handler σ α β) : σ → List α → Except Fault (σ × List (List β))
  | state, [] => .ok (state, [])
  | state, x :: xs => do
    let (state, events) ← H.handle state x
    let (state, answers) ← H.handleAll state xs
    .ok (state, events :: answers)

theorem Handler.handleAll_concat {xs : List α} {x : α} {answers : List (List β)} {events : List β}
    {state' : σ} (h : H.handleAll s₀ xs = .ok (state, answers))
    (hx : H.handle state x = .ok (state', events)) :
    H.handleAll s₀ (xs ++ [x]) = .ok (state', answers ++ [events]) := by
  induction xs generalizing s₀ answers with
  | nil =>
    cases h
    simp [Handler.handleAll, hx, bind, Except.bind]
  | cons y xs ih =>
    obtain ⟨⟨state₁, events₁⟩, hy, h⟩ := bind_eq_ok.mp h
    obtain ⟨⟨state₂, answers₂⟩, hrest, h⟩ := bind_eq_ok.mp h
    cases h
    rw [List.cons_append, Handler.handleAll, hy]
    exact bind_eq_ok.mpr ⟨_, rfl, bind_eq_ok.mpr ⟨_, ih hrest, rfl⟩⟩

theorem Handler.handleAll_last {xs : List α} {before : List (List β)} {last : List β}
    (h : H.handleAll s₀ xs = .ok (state, before ++ [last])) :
    ∃ x state₁, xs.getLast? = some x ∧ H.handle state₁ x = .ok (state, last) := by
  induction xs generalizing s₀ before with
  | nil => simp [Handler.handleAll] at h
  | cons y xs ih =>
    obtain ⟨⟨state₁, events₁⟩, hy, h⟩ := bind_eq_ok.mp h
    obtain ⟨⟨state₂, answers₂⟩, hrest, h⟩ := bind_eq_ok.mp h
    obtain ⟨rfl, hanswers⟩ := Prod.mk.inj (Except.ok.inj h)
    cases before with
    | nil =>
      obtain ⟨rfl, rfl⟩ := List.cons.inj hanswers
      cases xs with
      | nil =>
        cases hrest
        exact ⟨y, s₀, rfl, hy⟩
      | cons z zs =>
        -- a second value has events of its own
        obtain ⟨⟨state₃, events₃⟩, -, hrest⟩ := bind_eq_ok.mp hrest
        obtain ⟨⟨state₄, answers₄⟩, -, hrest⟩ := bind_eq_ok.mp hrest
        cases hrest
    | cons events before =>
      obtain ⟨-, rfl⟩ := List.cons.inj hanswers
      obtain ⟨x, state', hlast, hx⟩ := ih hrest
      refine ⟨x, state', ?_, hx⟩
      rw [List.getLast?_cons, hlast]
      rfl

/-- **A handler that always answers**, with at most `most` events, in states with `valid`. -/
structure Handler.Serves (H : Handler σ α β) (valid : σ → Prop) (most : ℕ) : Prop where
  handle : ∀ state x, valid state →
    ∃ state' events, H.handle state x = .ok (state', events) ∧ valid state' ∧ events.length ≤ most
  flush : ∀ state, valid state → valid (H.flush state)

/-- **What a runner has done** that has taken the values of the third argument and has pushed the events
of the fourth. -/
inductive Progress (H : Handler σ α β) (s₀ : σ) : Place α β → σ → List α → List β → Prop
  | checking {state : σ} {done : List α} {answers : List (List β)}
      (h : H.handleAll s₀ done = .ok (state, answers)) :
    Progress H s₀ .checking state done answers.flatten
  | popping {state : σ} {done : List α} {answers : List (List β)}
      (h : H.handleAll s₀ done = .ok (state, answers)) :
    Progress H s₀ .popping state done answers.flatten
  | handling {state : σ} {done : List α} {answers : List (List β)}
      (h : H.handleAll s₀ done = .ok (state, answers)) (incoming : α) :
    Progress H s₀ (.handling incoming) state (done ++ [incoming]) answers.flatten
  | publishing {state : σ} {done : List α} {answers : List (List β)} {pushed rest : List β}
      (h : H.handleAll s₀ done = .ok (state, answers ++ [pushed ++ rest])) :
    Progress H s₀ (.publishing rest) state done (answers.flatten ++ pushed)
  | stalled {state : σ} {done : List α} {answers : List (List β)} {pushed rest : List β}
      (h : H.handleAll s₀ done = .ok (state, answers ++ [pushed ++ rest])) (hne : rest ≠ []) :
    Progress H s₀ (.stalled rest) state done (answers.flatten ++ pushed)
  | flushing {state : σ} {done : List α} {answers : List (List β)}
      (h : H.handleAll s₀ done = .ok (state, answers)) :
    Progress H s₀ .flushing state done answers.flatten
  | flushed {state : σ} {done : List α} {answers : List (List β)}
      (h : H.handleAll s₀ done = .ok (state, answers)) :
    Progress H s₀ (.returned []) (H.flush state) done answers.flatten
  | abandoned {state : σ} {done : List α} {answers : List (List β)} {pushed rest : List β}
      (h : H.handleAll s₀ done = .ok (state, answers ++ [pushed ++ rest])) (hne : rest ≠ []) :
    Progress H s₀ (.returned rest) state done (answers.flatten ++ pushed)

/-- The statements that a runner executes at most until it returns, once `stop` is set. -/
def Place.budget (most : ℕ) : Place α β → ℕ
  | .checking => 2
  | .popping => most + 5
  | .handling _ => most + 4
  | .publishing events => events.length + 3
  | .stalled _ => 1
  | .flushing => 1
  | .returned _ => 0

/-- The events that a runner has not pushed. -/
def Place.owed : Place α β → List β
  | .publishing events => events
  | .stalled events => events
  | .returned events => events
  | _ => []

/-- The loop has ended. -/
def Place.ended : Place α β → Bool
  | .flushing => true
  | .returned _ => true
  | _ => false

variable [Inhabited α] [Inhabited β] {valid : σ → Prop} {s s' : RunLoop σ α β}

/-- **A sound run.** -/
structure RunLoop.Sound (H : Handler σ α β) (valid : σ → Prop) (most : ℕ) (s₀ : σ)
    (s : RunLoop σ α β) : Prop where
  input : s.input.WF
  output : s.output.WF
  sent : s.sent = s.taken ++ s.input.contents
  progress : Progress H s₀ s.place s.state s.taken (s.received ++ s.output.contents)
  valid : valid s.state
  owed : s.place.owed.length ≤ most
  stopped : s.place.ended = true → s.stop = true

namespace RunLoop

theorem Sound.start (valid : σ → Prop) (s₀ : σ) (h : valid s₀) {ci co : ℕ} {input : SpscQueue α}
    {output : SpscQueue β} (hin : SpscQueue.new ci = .ok input) (hout : SpscQueue.new co = .ok output) :
    Sound H valid most s₀ (.start s₀ input output) := by
  obtain ⟨hinput, hempty, -⟩ := SpscQueue.WF.new hin
  obtain ⟨houtput, hempty', -⟩ := SpscQueue.WF.new hout
  have hprogress : Progress H s₀ .checking s₀ [] ([] : List (List β)).flatten := .checking rfl
  exact ⟨hinput, houtput, by simp [RunLoop.start, hempty], by simpa [RunLoop.start, hempty'],
    h, by simp [RunLoop.start, Place.owed], fun hended => by cases hended⟩

theorem Sound.produce (h : Sound H valid most s₀ s) (value : α) :
    ∃ s', s.produce value = .ok s' ∧ Sound H valid most s₀ s' ∧ s'.place = s.place ∧
      s'.stop = s.stop := by
  rcases h.input.tryPush value with ⟨-, hpush⟩ | ⟨-, input, hpush, hwf, -, hcontents⟩
  · refine ⟨s, ?_, h, rfl, rfl⟩
    simp [RunLoop.produce, hpush, bind, Except.bind]
  · refine ⟨{ s with input, sent := s.sent ++ [value] }, ?_,
      { h with input := hwf, sent := ?_ }, rfl, rfl⟩
    · simp [RunLoop.produce, hpush, bind, Except.bind]
    · change s.sent ++ [value] = s.taken ++ input.contents
      rw [hcontents, h.sent, List.append_assoc]

theorem Sound.consume (h : Sound H valid most s₀ s) :
    ∃ s', s.consume = .ok s' ∧ Sound H valid most s₀ s' ∧ s'.place = s.place ∧ s'.stop = s.stop := by
  rcases h.output.tryPop with ⟨-, hpop⟩ | ⟨x, rest, output, hcontents, hpop, hwf, -, hrest⟩
  · refine ⟨s, ?_, h, rfl, rfl⟩
    simp [RunLoop.consume, hpop, bind, Except.bind]
  · refine ⟨{ s with output, received := s.received ++ [x] }, ?_,
      { h with output := hwf, progress := ?_ }, rfl, rfl⟩
    · simp [RunLoop.consume, hpop, bind, Except.bind]
    · have hprogress := h.progress
      rw [hcontents] at hprogress
      change Progress H s₀ s.place s.state s.taken (s.received ++ [x] ++ output.contents)
      rwa [hrest, List.append_assoc]

theorem Sound.stop (h : Sound H valid most s₀ s) : Sound H valid most s₀ { s with stop := true } :=
  { h with stopped := fun _ => rfl }

/-- **One statement of the runner**; with `stop` set, there is one less to come. -/
theorem Sound.run (hH : H.Serves valid most) (h : Sound H valid most s₀ s) :
    ∃ s', s.run H = .ok s' ∧ Sound H valid most s₀ s' ∧ s'.stop = s.stop ∧
      (s.stop = true → s'.place.budget most ≤ s.place.budget most - 1) := by
  obtain ⟨state, input, output, stop, place, sent, taken, received⟩ := s
  obtain ⟨hin, hout, hsent, hprogress, hvalid, howed, hstopped⟩ := h
  dsimp only at hin hout hsent hprogress hvalid howed hstopped
  generalize hgone : received ++ output.contents = out at hprogress
  cases hprogress with
  | checking hall =>
    cases stop with
    | false =>
      exact ⟨_, rfl, ⟨hin, hout, hsent, hgone ▸ .popping hall, hvalid, Nat.zero_le _, nofun⟩, rfl, nofun⟩
    | true =>
      exact ⟨_, rfl, ⟨hin, hout, hsent, hgone ▸ .flushing hall, hvalid, Nat.zero_le _,
        fun _ => rfl⟩, rfl, fun _ => le_rfl⟩
  | popping hall =>
    rcases hin.tryPop with ⟨-, hpop⟩ | ⟨x, rest, input', hcontents, hpop, hwf, -, hrest⟩
    · refine ⟨⟨state, input, output, stop, .checking, sent, taken, received⟩, ?_,
        ⟨hin, hout, hsent, hgone ▸ .checking hall, hvalid, Nat.zero_le _, nofun⟩, rfl, fun _ => ?_⟩
      · simp only [RunLoop.run, hpop, bind, Except.bind]
      · simp only [Place.budget]
        omega
    · have hsent' : sent = taken ++ [x] ++ input'.contents := by
        rw [hsent, hcontents, hrest, List.append_assoc, List.singleton_append]
      refine ⟨⟨state, input', output, stop, .handling x, sent, taken ++ [x], received⟩, ?_,
        ⟨hwf, hout, hsent', hgone ▸ .handling hall x, hvalid, Nat.zero_le _, nofun⟩, rfl,
        fun _ => le_rfl⟩
      simp only [RunLoop.run, hpop, bind, Except.bind]
  | handling hall incoming =>
    obtain ⟨state', events, hhandle, hvalid', hmost⟩ := hH.handle state incoming hvalid
    have hprogress : Progress H s₀ (.publishing events) state' _ (_ ++ []) :=
      .publishing (Handler.handleAll_concat hall hhandle)
    rw [List.append_nil] at hprogress
    refine ⟨⟨state', input, output, stop, .publishing events, sent, _, received⟩, ?_,
      ⟨hin, hout, hsent, hgone ▸ hprogress, hvalid', hmost, nofun⟩, rfl, fun _ => ?_⟩
    · simp only [RunLoop.run, hhandle, bind, Except.bind]
    · simp only [Place.budget]
      omega
  | @publishing _ _ answers pushed rest hall =>
    cases rest with
    | nil =>
      have hprogress := @Progress.checking _ _ _ H s₀ _ _ _ hall
      simp only [List.flatten_append, List.flatten_singleton, List.append_nil] at hprogress
      exact ⟨_, rfl, ⟨hin, hout, hsent, hgone ▸ hprogress, hvalid, Nat.zero_le _, nofun⟩, rfl,
        fun _ => le_rfl⟩
    | cons event events =>
      rcases hout.tryPush event with ⟨-, hpush⟩ | ⟨-, output', hpush, hwf, -, hcontents⟩
      · refine ⟨⟨state, input, output, stop, .stalled (event :: events), sent, taken, received⟩, ?_,
          ⟨hin, hout, hsent, hgone ▸ .stalled hall (List.cons_ne_nil _ _), hvalid, howed,
            nofun⟩, rfl, fun _ => ?_⟩
        · simp only [RunLoop.run, hpush, bind, Except.bind]
          rfl
        · simp only [Place.budget]
          omega
      · rw [List.append_cons pushed event events] at hall
        have hgone' : received ++ output'.contents = answers.flatten ++ (pushed ++ [event]) := by
          rw [hcontents, ← List.append_assoc, hgone, List.append_assoc]
        refine ⟨⟨state, input, output', stop, .publishing events, sent, taken, received⟩, ?_,
          ⟨hin, hwf, hsent, hgone' ▸ .publishing hall, hvalid, Nat.le_of_succ_le howed, nofun⟩, rfl,
          fun _ => ?_⟩
        · simp only [RunLoop.run, hpush, bind, Except.bind, if_true]
        · simp only [Place.budget, List.length_cons]
          omega
  | @stalled _ _ answers pushed rest hall hne =>
    cases stop with
    | false =>
      exact ⟨_, rfl, ⟨hin, hout, hsent, hgone ▸ .publishing hall, hvalid, howed, nofun⟩, rfl, nofun⟩
    | true =>
      exact ⟨_, rfl, ⟨hin, hout, hsent, hgone ▸ .abandoned hall hne, hvalid, howed,
        fun _ => rfl⟩, rfl, fun _ => le_rfl⟩
  | flushing hall =>
    exact ⟨_, rfl, ⟨hin, hout, hsent, hgone ▸ .flushed hall, hH.flush _ hvalid, Nat.zero_le _,
      fun _ => hstopped rfl⟩, rfl, fun _ => le_rfl⟩
  | flushed hall =>
    exact ⟨_, rfl, ⟨hin, hout, hsent, hgone ▸ .flushed hall, hvalid, howed, hstopped⟩, rfl,
      fun _ => le_rfl⟩
  | abandoned hall hne =>
    exact ⟨_, rfl, ⟨hin, hout, hsent, hgone ▸ .abandoned hall hne, hvalid, howed, hstopped⟩, rfl,
      fun _ => le_rfl⟩

theorem Sound.step (hH : H.Serves valid most) (h : Sound H valid most s₀ s) {l : List Party}
    (hstep : Step H s l s') : Sound H valid most s₀ s' ∧ (s.stop = true → s'.stop = true ∧
      s'.place.budget most ≤ s.place.budget most - l.count .runner) := by
  cases hstep with
  | produce value hs =>
    obtain ⟨s'', hs', h', hplace, hstop⟩ := h.produce value
    cases hs.symm.trans hs'
    exact ⟨h', fun hs => ⟨hstop.trans hs, hplace ▸ le_rfl⟩⟩
  | run hs =>
    obtain ⟨s'', hs', h', hstop, hbudget⟩ := h.run hH
    cases hs.symm.trans hs'
    exact ⟨h', fun hs => ⟨hstop.trans hs, hbudget hs⟩⟩
  | consume hs =>
    obtain ⟨s'', hs', h', hplace, hstop⟩ := h.consume
    cases hs.symm.trans hs'
    exact ⟨h', fun hs => ⟨hstop.trans hs, hplace ▸ le_rfl⟩⟩
  | stop => exact ⟨h.stop, fun _ => ⟨rfl, le_rfl⟩⟩

theorem Sound.steps (hH : H.Serves valid most) (h : Sound H valid most s₀ s) {l : List Party}
    (hpath : Labelled.Path (Step H) s l s') : Sound H valid most s₀ s' ∧ (s.stop = true →
      s'.stop = true ∧ s'.place.budget most ≤ s.place.budget most - l.count .runner) := by
  induction hpath with
  | refl => exact ⟨h, fun hstop => ⟨hstop, le_rfl⟩⟩
  | tail _ hstep ih =>
    obtain ⟨hsound, hrun⟩ := ih
    obtain ⟨hsound', hrun'⟩ := hsound.step hH hstep
    refine ⟨hsound', fun hstop => ?_⟩
    obtain ⟨hstop', hle⟩ := hrun hstop
    obtain ⟨hstop'', hle'⟩ := hrun' hstop'
    rw [List.count_append]
    exact ⟨hstop'', by omega⟩

theorem Sound.budget_le (h : Sound H valid most s₀ s) : s.place.budget most ≤ most + 5 := by
  have howed := h.owed
  cases hplace : s.place with
  | publishing events =>
    rw [hplace] at howed
    simp only [Place.owed, Place.budget] at howed ⊢
    omega
  | _ =>
    simp only [Place.budget]
    omega

/-- **Once `stop` is set the runner returns**, whatever the other parties do. -/
theorem Sound.returns (hH : H.Serves valid most) (h : Sound H valid most s₀ s)
    (hstop : s.stop = true) {l : List Party} (hpath : Labelled.Path (Step H) s l s')
    (hl : most + 5 ≤ l.count .runner) : ∃ rest, s'.place = .returned rest := by
  obtain ⟨-, hrun⟩ := h.steps hH hpath
  have hzero : s'.place.budget most = 0 := by
    have := (hrun hstop).2
    have := h.budget_le
    omega
  cases hplace : s'.place with
  | returned rest => exact ⟨rest, rfl⟩
  | _ => simp [hplace, Place.budget] at hzero

/-- **What a runner that has returned has done.** -/
theorem Sound.returned (h : Sound H valid most s₀ s) {rest : List β}
    (hplace : s.place = .returned rest) :
    s.stop = true ∧ ∃ state answers, H.handleAll s₀ s.taken = .ok (state, answers) ∧
      s.received ++ s.output.contents ++ rest = answers.flatten ∧
      ((rest = [] ∧ s.state = H.flush state) ∨
        (rest ≠ [] ∧ s.state = state ∧ ∃ before last, answers = before ++ [last] ∧ rest <:+ last)) := by
  have hprogress := h.progress
  refine ⟨h.stopped (by rw [hplace]; rfl), ?_⟩
  rw [hplace] at hprogress
  generalize hout : s.received ++ s.output.contents = out at hprogress
  generalize hstate : s.state = final at hprogress
  cases hprogress with
  | flushed hall => exact ⟨_, _, hall, List.append_nil _, Or.inl ⟨rfl, rfl⟩⟩
  | abandoned hall hne =>
    refine ⟨_, _, hall, ?_, Or.inr ⟨hne, rfl, _, _, rfl, List.suffix_append _ _⟩⟩
    simp

/-! ### Events that are left out -/

section LeftOut

omit [Inhabited α]

/-- The runner tried to push the first of `rest` when the output queue was full, and has not moved
since. -/
def Stalls (H : Handler σ α β) (s₁ : RunLoop σ α β) (rest : List β) (s : RunLoop σ α β) : Prop :=
  ∃ l t t' l', Labelled.Path (Step H) s₁ l t ∧ t.place = .publishing rest ∧
    t.output.contents.length = t.output.buffer.size - 1 ∧ t.run H = .ok t' ∧
    Labelled.Path (Step H) t' l' s ∧ Party.runner ∉ l'

/-- It has then found `stop` set and returned. -/
def Abandons (H : Handler σ α β) (s₁ : RunLoop σ α β) (rest : List β) (s : RunLoop σ α β) : Prop :=
  ∃ t t' l, Stalls H s₁ rest t ∧ t.stop = true ∧ t.run H = .ok t' ∧ Labelled.Path (Step H) t' l s

theorem Stalls.tail {s₁ : RunLoop σ α β} {rest : List β} {l : List Party} (h : Stalls H s₁ rest s)
    (hstep : Step H s l s') (hl : Party.runner ∉ l) : Stalls H s₁ rest s' := by
  obtain ⟨l₁, t, t', l₂, hpath, hplace, hfull, hrun, hrest, hno⟩ := h
  exact ⟨l₁, t, t', _, hpath, hplace, hfull, hrun, hrest.tail hstep, by simp [hno, hl]⟩

theorem Abandons.tail {s₁ : RunLoop σ α β} {rest : List β} {l : List Party} (h : Abandons H s₁ rest s)
    (hstep : Step H s l s') : Abandons H s₁ rest s' := by
  obtain ⟨t, t', l₁, hstalls, hstop, hrun, hpath⟩ := h
  exact ⟨t, t', _, hstalls, hstop, hrun, hpath.tail hstep⟩

/-- What a run says about the place it has led to. -/
def Explains (H : Handler σ α β) (s₁ s : RunLoop σ α β) : Prop :=
  ∀ rest, (s.place = .stalled rest → Stalls H s₁ rest s) ∧
    (s.place = .returned rest → rest ≠ [] → Abandons H s₁ rest s)

theorem Explains.other {s₁ : RunLoop σ α β} {l : List Party} (h : Explains H s₁ s)
    (hstep : Step H s l s') (hl : Party.runner ∉ l) (hplace : s'.place = s.place) :
    Explains H s₁ s' := by
  intro rest
  rw [hplace]
  exact ⟨fun hs => ((h rest).1 hs).tail hstep hl, fun hs hne => ((h rest).2 hs hne).tail hstep⟩

theorem Explains.run {s₁ : RunLoop σ α β} {l : List Party} (h : Explains H s₁ s)
    (hout : s.output.WF) (hpath : Labelled.Path (Step H) s₁ l s) (hrun : s.run H = .ok s') :
    Explains H s₁ s' := by
  have hstep : Step H s [.runner] s' := .run hrun
  intro rest
  cases hplace : s.place with
  | checking =>
    simp only [RunLoop.run, hplace] at hrun
    cases hrun
    split_ifs <;> exact ⟨nofun, nofun⟩
  | popping =>
    simp only [RunLoop.run, hplace] at hrun
    obtain ⟨⟨popped, input⟩, -, hrun⟩ := bind_eq_ok.mp hrun
    cases popped <;> cases hrun <;> exact ⟨nofun, nofun⟩
  | handling incoming =>
    simp only [RunLoop.run, hplace] at hrun
    obtain ⟨⟨state, events⟩, -, hrun⟩ := bind_eq_ok.mp hrun
    cases hrun
    exact ⟨nofun, nofun⟩
  | publishing events =>
    have hrun' := hrun
    cases events with
    | nil =>
      simp only [RunLoop.run, hplace] at hrun
      cases hrun
      exact ⟨nofun, nofun⟩
    | cons event events =>
      simp only [RunLoop.run, hplace] at hrun
      rcases hout.tryPush event with ⟨hfull, hpush⟩ | ⟨-, output, hpush, -⟩
      · rw [hpush] at hrun
        cases hrun
        refine ⟨fun hs => ?_, nofun⟩
        cases hs
        exact ⟨l, s, _, [], hpath, hplace, hfull, hrun', .refl _, List.not_mem_nil⟩
      · rw [hpush] at hrun
        cases hrun
        exact ⟨nofun, nofun⟩
  | stalled events =>
    have hrun' := hrun
    simp only [RunLoop.run, hplace] at hrun
    cases hrun
    cases hstop : s.stop with
    | false => exact ⟨nofun, nofun⟩
    | true =>
      refine ⟨nofun, fun hs _ => ?_⟩
      cases hs
      exact ⟨s, _, [], (h _).1 hplace, hstop, hstop ▸ hrun', .refl _⟩
  | flushing =>
    simp only [RunLoop.run, hplace] at hrun
    cases hrun
    refine ⟨nofun, fun hs hne => ?_⟩
    cases hs
    exact absurd rfl hne
  | returned events =>
    have hsame : s' = s := by
      simp only [RunLoop.run, hplace] at hrun
      exact (Except.ok.inj hrun).symm
    rw [hsame] at hstep ⊢
    refine ⟨fun hs => ?_, fun hs hne => ((h rest).2 hs hne).tail hstep⟩
    cases hplace.symm.trans hs

end LeftOut

/-- **A runner leaves events out only where the output queue was full.** -/
theorem Sound.explains (hH : H.Serves valid most) {s₁ : RunLoop σ α β} (h : Sound H valid most s₀ s₁)
    (hplace : s₁.place = .checking) {l : List Party} (hpath : Labelled.Path (Step H) s₁ l s) :
    Explains H s₁ s := by
  induction hpath with
  | refl =>
    intro rest
    rw [hplace]
    exact ⟨nofun, nofun⟩
  | @tail t u l l' hbefore hstep ih =>
    have hsound := (h.steps hH hbefore).1
    cases hstep with
    | produce value hs =>
      obtain ⟨s'', hs', -, hsame, -⟩ := hsound.produce value
      cases hs.symm.trans hs'
      exact ih.other (.produce value hs) (by simp) hsame
    | run hs => exact ih.run hsound.output hbefore hs
    | consume hs =>
      obtain ⟨s'', hs', -, hsame, -⟩ := hsound.consume
      cases hs.symm.trans hs'
      exact ih.other (.consume hs) (by simp) hsame
    | stop => exact ih.other (.stop _) (by simp) rfl

end RunLoop

end Loop

/-! ## The two runners stop -/

section Stopping

variable {bytes : Command → List UInt8} {n : ℕ}

/-- The book is sound, and has room for `n` orders. -/
def RunnerState.Valid (n : ℕ) (s : RunnerState) : Prop :=
  (∃ q, Inv s.book q) ∧ s.book.config.maximumOrders.toNat = n

theorem EngineRunner.handle_valid {s : RunnerState} (h : s.Valid n) (c : Command) :
    ∃ s' events, EngineRunner.handle bytes s c = .ok (s', events) ∧ s'.Valid n ∧
      events.length ≤ n + 3 := by
  obtain ⟨⟨q, hinv⟩, hconfig⟩ := h
  obtain ⟨b', q', hp, hinv', hm, -⟩ := hinv.process c []
  have hc : b'.config = s.book.config :=
    (congrArg Market.config hm).trans (Market.process_config _ _)
  have hwork := ((s.book.market q).process_work c).2
  have hsize := hinv.orders_length_le
  rw [hinv.orders_perm.length_eq, List.length_append, hconfig] at hsize
  refine ⟨_, _, bind_eq_ok.mpr ⟨_, hp, rfl⟩, ⟨⟨q', hinv'⟩, by rw [← hconfig, ← hc]⟩, ?_⟩
  rw [List.nil_append]
  have : (s.book.market q).size ≤ n := hsize
  omega

theorem EngineRunner.serves (bytes : Command → List UInt8) (n : ℕ) :
    (EngineRunner.handler bytes).Serves (RunnerState.Valid n) (n + 3) where
  handle _ c h := EngineRunner.handle_valid h c
  flush _ h := h

theorem GatewayEngineRunner.serves (bytes : Command → List UInt8) (n : ℕ) :
    (GatewayEngineRunner.handler bytes).Serves (fun s => s.1.Valid n) (n + 3) where
  handle s r h := by
    obtain ⟨s', events, hs, hvalid, hlength⟩ := EngineRunner.handle_valid h (r.withSequence s.2).command
    exact ⟨_, _, bind_eq_ok.mpr ⟨_, hs, rfl⟩, hvalid, by rwa [List.length_map]⟩
  flush _ h := h

theorem EngineRunner.handleAll_eq {s s' : RunnerState} {cs : List Command} {evs : List (List Event)}
    (h : (EngineRunner.handler bytes).handleAll s cs = .ok (s', evs)) :
    s.book.run cs = .ok (s'.book, evs) ∧
      s'.journal = s.journal.map fun journal => cs.foldl (JournalStream.append bytes) journal := by
  induction cs generalizing s evs with
  | nil =>
    cases h
    simp [OrderBook.run]
  | cons c cs ih =>
    obtain ⟨⟨s₁, events⟩, hs, h⟩ := bind_eq_ok.mp h
    obtain ⟨⟨s₂, answers⟩, hrest, h⟩ := bind_eq_ok.mp h
    cases h
    obtain ⟨⟨book, events'⟩, hp, hs⟩ := bind_eq_ok.mp hs
    cases hs
    obtain ⟨hrun, hjournal⟩ := ih hrest
    refine ⟨bind_eq_ok.mpr ⟨_, hp, bind_eq_ok.mpr ⟨_, hrun, rfl⟩⟩, ?_⟩
    rw [hjournal, Option.map_map]
    rfl

theorem JournalStream.foldl_append (bytes : Command → List UInt8) (journal : JournalStream)
    (cs : List Command) :
    (cs.foldl (append bytes) journal).records = journal.records ++ recordsOf bytes cs ∧
      (cs ≠ [] → journal.synchronous = true →
        (cs.foldl (append bytes) journal).flushed = (cs.foldl (append bytes) journal).records.length) := by
  induction cs using List.reverseRecOn with
  | nil => simp [recordsOf]
  | append_singleton cs c ih =>
    have hsync : (cs.foldl (append bytes) journal).synchronous = journal.synchronous := by
      clear ih
      induction cs using List.reverseRecOn with
      | nil => rfl
      | append_singleton cs c ih =>
        rw [List.foldl_append]
        exact ih
    rw [List.foldl_append]
    refine ⟨?_, fun _ h => if_pos (hsync.trans h)⟩
    simp only [List.foldl_cons, List.foldl_nil, append, appendRecord, ih.1]
    simp [recordsOf]

/-- **`EngineRunner::run` shuts down cleanly.** In every run, whatever the queues hold and whenever `stop`
is set: no statement faults, and no command is lost between the queue and the runner. When the
function has returned, its book has processed exactly the commands it has taken, and each one is in
the journal; their events were pushed in order, except for the last events of the last command if the
output queue was full when the first of them was tried for the last time. The journal is flushed unless
events were left out; a synchronous one is flushed in any case. -/
theorem engine_runner_shutdown {b₀ : OrderBook} (hb : Reachable b₀) {ci co : ℕ}
    {input : SpscQueue Command} {output : SpscQueue Event} (hin : SpscQueue.new ci = .ok input)
    (hout : SpscQueue.new co = .ok output) (journal : Option JournalStream) {l : List Party}
    {s : RunLoop RunnerState Command Event}
    (h : Labelled.Path (RunLoop.Step (EngineRunner.handler bytes))
      (.start ⟨b₀, journal⟩ input output) l s) :
    (∃ s', s.run (EngineRunner.handler bytes) = .ok s') ∧ s.sent = s.taken ++ s.input.contents ∧
      ∀ rest, s.place = .returned rest → s.stop = true ∧
        (∃ evs, b₀.run s.taken = .ok (s.state.book, evs) ∧
          s.received ++ s.output.contents ++ rest = evs.flatten ∧
          (rest ≠ [] → (∃ before last, evs = before ++ [last] ∧ rest <:+ last) ∧
            RunLoop.Abandons (EngineRunner.handler bytes) (.start ⟨b₀, journal⟩ input output) rest s)) ∧
        ∀ j ∈ journal, ∃ j' ∈ s.state.journal, j'.records = j.records ++ recordsOf bytes s.taken ∧
          (rest = [] ∨ j.synchronous = true → j'.flushed = j'.records.length) := by
  have hserves := EngineRunner.serves bytes b₀.config.maximumOrders.toNat
  have hstart : RunLoop.Sound (EngineRunner.handler bytes) _ (b₀.config.maximumOrders.toNat + 3)
      ⟨b₀, journal⟩ _ :=
    .start (RunnerState.Valid b₀.config.maximumOrders.toNat) _ ⟨hb.inv, rfl⟩ hin hout
  have hsound := (hstart.steps hserves h).1
  obtain ⟨s', hrun, -⟩ := hsound.run hserves
  refine ⟨⟨s', hrun⟩, hsound.sent, fun rest hplace => ?_⟩
  obtain ⟨hstop, state, evs, hall, hevents, hcases⟩ := hsound.returned hplace
  obtain ⟨hbook, hjournal⟩ := EngineRunner.handleAll_eq hall
  refine ⟨hstop, ⟨evs, ?_, hevents, fun hne => ?_⟩, fun j hj => ?_⟩
  · rcases hcases with ⟨-, hstate⟩ | ⟨-, hstate, -⟩
    · rw [hstate]
      exact hbook
    · rw [hstate]
      exact hbook
  · rcases hcases with ⟨hnil, -⟩ | ⟨-, -, hlast⟩
    · exact absurd hnil hne
    · exact ⟨hlast, (hstart.explains hserves rfl h rest).2 hplace hne⟩
  · obtain ⟨hrecords, hflushed⟩ := j.foldl_append bytes s.taken
    cases Option.mem_def.mp hj
    rcases hcases with ⟨-, hstate⟩ | ⟨hne, hstate, before, last, hlast, -⟩
    · refine ⟨(s.taken.foldl (JournalStream.append bytes) j).flush, Option.mem_def.mpr ?_, hrecords,
        fun _ => rfl⟩
      rw [hstate]
      exact congrArg (Option.map JournalStream.flush) hjournal
    · refine ⟨_, Option.mem_def.mpr (hstate ▸ hjournal), hrecords, fun hor => hflushed ?_ ?_⟩
      · rintro hnil
        rw [hnil] at hall
        cases hall
        simp at hlast
      · exact hor.resolve_left hne

/-- A command with two events meets an output queue with room for one, and `stop` is set. -/
theorem engine_runner_shutdown_full_queue : ∃ b₀ input output l s evs,
    OrderBook.new ⟨1, 4, 1, 2⟩ = .ok b₀ ∧ SpscQueue.new 1 = .ok input ∧ SpscQueue.new 1 = .ok output ∧
      Labelled.Path (RunLoop.Step (EngineRunner.handler Command.bytes))
        (.start ⟨b₀, some {}⟩ input output) l s ∧
      s.place = .returned [⟨1, .rested, .buy, .none, 0, 7, 0, 2, 5⟩] ∧
      b₀.run s.taken = .ok (s.state.book, evs) ∧
      s.received ++ s.output.contents ++ [⟨1, .rested, .buy, .none, 0, 7, 0, 2, 5⟩] = evs.flatten ∧
      RunLoop.Abandons (EngineRunner.handler Command.bytes) (.start ⟨b₀, some {}⟩ input output)
        [⟨1, .rested, .buy, .none, 0, 7, 0, 2, 5⟩] s := by
  have hrun : ((do
      let b₀ ← OrderBook.new ⟨1, 4, 1, 2⟩
      let input ← SpscQueue.new 1
      let output ← SpscQueue.new 1
      let s₁ ← (RunLoop.start ⟨b₀, some {}⟩ input output).produce ⟨1, .new, .buy, .limit, 0, 7, 2, 5⟩
      let s₂ ← s₁.run (EngineRunner.handler Command.bytes)
      let s₃ ← s₂.run (EngineRunner.handler Command.bytes)
      let s₄ ← s₃.run (EngineRunner.handler Command.bytes)
      let s₅ ← s₄.run (EngineRunner.handler Command.bytes)
      let s₆ ← s₅.run (EngineRunner.handler Command.bytes)
      let s₇ ← { s₆ with stop := true }.run (EngineRunner.handler Command.bytes)
      .ok s₇.place) : Except Fault (Place Command Event)) =
      .ok (.returned [⟨1, .rested, .buy, .none, 0, 7, 0, 2, 5⟩]) := by decide +kernel
  obtain ⟨b₀, hnew, hrun⟩ := bind_eq_ok.mp hrun
  obtain ⟨input, hin, hrun⟩ := bind_eq_ok.mp hrun
  obtain ⟨output, hout, hrun⟩ := bind_eq_ok.mp hrun
  obtain ⟨s₁, h₁, hrun⟩ := bind_eq_ok.mp hrun
  obtain ⟨s₂, h₂, hrun⟩ := bind_eq_ok.mp hrun
  obtain ⟨s₃, h₃, hrun⟩ := bind_eq_ok.mp hrun
  obtain ⟨s₄, h₄, hrun⟩ := bind_eq_ok.mp hrun
  obtain ⟨s₅, h₅, hrun⟩ := bind_eq_ok.mp hrun
  obtain ⟨s₆, h₆, hrun⟩ := bind_eq_ok.mp hrun
  obtain ⟨s₇, h₇, hrun⟩ := bind_eq_ok.mp hrun
  have hplace := Except.ok.inj hrun
  have hpath := (((((((Labelled.Path.single (RunLoop.Step.produce _ h₁)).tail (.run h₂)).tail
    (.run h₃)).tail (.run h₄)).tail (.run h₅)).tail (.run h₆)).tail (.stop s₆)).tail (.run h₇)
  obtain ⟨-, -, hreturned⟩ := engine_runner_shutdown (.new hnew) hin hout _ hpath
  obtain ⟨-, ⟨evs, hevs, hevents, hleft⟩, -⟩ := hreturned _ hplace
  exact ⟨b₀, input, output, _, s₇, evs, hnew, hin, hout, hpath, hplace, hevs, hevents,
    (hleft (List.cons_ne_nil _ _)).2⟩

/-- **The requests of a run of `GatewayEngineRunner`**, numbered. -/
theorem GatewayEngineRunner.handleAll_eq {s s' : RunnerState} {next next' : Sequence}
    {requests : List GatewayRequest} {answers : List (List GatewayResponse)}
    (h : (GatewayEngineRunner.handler bytes).handleAll (s, next) requests = .ok ((s', next'), answers)) :
    answer s.book (number next requests) = .ok (s'.book, answers.flatten) := by
  induction requests generalizing s next answers with
  | nil =>
    cases h
    rfl
  | cons r requests ih =>
    obtain ⟨⟨⟨s₁, next₁⟩, events⟩, hs, h⟩ := bind_eq_ok.mp h
    obtain ⟨⟨⟨s₂, next₂⟩, answers₂⟩, hrest, h⟩ := bind_eq_ok.mp h
    cases h
    obtain ⟨⟨s₃, events₃⟩, hhandle, hs⟩ := bind_eq_ok.mp hs
    cases hs
    obtain ⟨⟨book, events'⟩, hp, hhandle⟩ := bind_eq_ok.mp hhandle
    cases hhandle
    exact bind_eq_ok.mpr ⟨_, hp, bind_eq_ok.mpr ⟨_, ih hrest, rfl⟩⟩

/-- **`GatewayEngineRunner::run` returns.** Once `stop` is set, the function returns after at most eight
statements more than the book has room for orders, also if nobody pops the responses. It has then
answered all requests it has taken, numbered on from the book's last sequence; the responses it has not
pushed are to the last of them. -/
theorem gateway_runner_returns {b₀ : OrderBook} (hb : Reachable b₀) {ci co : ℕ}
    {input : SpscQueue GatewayRequest} {output : SpscQueue GatewayResponse}
    (hin : SpscQueue.new ci = .ok input) (hout : SpscQueue.new co = .ok output)
    (journal : Option JournalStream) {l l' : List Party}
    {s s' : RunLoop (RunnerState × Sequence) GatewayRequest GatewayResponse}
    (h : Labelled.Path (RunLoop.Step (GatewayEngineRunner.handler bytes))
      (.start (⟨b₀, journal⟩, b₀.stats.lastSequence + 1) input output) l s) (hstop : s.stop = true)
    (h' : Labelled.Path (RunLoop.Step (GatewayEngineRunner.handler bytes)) s l' s')
    (hl' : b₀.config.maximumOrders.toNat + 8 ≤ l'.count .runner) :
    ∃ rest responses, s'.place = .returned rest ∧
      answer b₀ (number (b₀.stats.lastSequence + 1) s'.taken) = .ok (s'.state.1.book, responses) ∧
      s'.received ++ s'.output.contents ++ rest = responses ∧
      ∀ x ∈ rest, ∃ r, s'.taken.getLast? = some r ∧ x.sessionId = r.sessionId ∧
        x.clientSequence = r.clientSequence := by
  have hserves := GatewayEngineRunner.serves bytes b₀.config.maximumOrders.toNat
  have hsound := ((RunLoop.Sound.start (fun s : RunnerState × Sequence => s.1.Valid _)
    (⟨b₀, journal⟩, b₀.stats.lastSequence + 1) ⟨hb.inv, rfl⟩ hin hout).steps hserves h).1
  obtain ⟨rest, hplace⟩ := hsound.returns hserves hstop h' (by omega)
  obtain ⟨-, state, answers, hall, hresponses, hcases⟩ :=
    (hsound.steps hserves h').1.returned hplace
  refine ⟨rest, _, hplace, ?_, hresponses, fun x hx => ?_⟩
  · have hbook : s'.state.1.book = state.1.book := by
      rcases hcases with ⟨-, hstate⟩ | ⟨-, hstate, -⟩
      · rw [hstate]
        rfl
      · rw [hstate]
    rw [hbook]
    exact GatewayEngineRunner.handleAll_eq hall
  · rcases hcases with ⟨rfl, -⟩ | ⟨-, -, before, last, rfl, hsuffix⟩
    · cases hx
    · obtain ⟨r, state₁, hlast, hr⟩ := Handler.handleAll_last hall
      obtain ⟨⟨s₃, events⟩, -, hr⟩ := bind_eq_ok.mp hr
      cases hr
      obtain ⟨e, -, rfl⟩ := List.mem_map.mp (hsuffix.subset hx)
      exact ⟨r, hlast, rfl, rfl⟩

theorem RunLoop.path_returned {σ α β : Type} {H : Handler σ α β} {s : RunLoop σ α β} {rest : List β}
    (h : s.place = .returned rest) (n : ℕ) :
    Labelled.Path (RunLoop.Step H) s (List.replicate n .runner) s := by
  have hrun : s.run H = .ok s := by simp only [RunLoop.run, h]
  induction n with
  | zero => exact .refl _
  | succ n ih =>
    rw [List.replicate_succ']
    exact ih.tail (.run hrun)

/-- A request with two responses meets an output queue with room for one, which nobody pops. -/
theorem gateway_runner_returns_full_queue : ∃ b₀ input output s l' s' book responses,
    OrderBook.new ⟨1, 4, 1, 2⟩ = .ok b₀ ∧ SpscQueue.new 1 = .ok input ∧ SpscQueue.new 1 = .ok output ∧
      Labelled.Path (RunLoop.Step (GatewayEngineRunner.handler Command.bytes))
        (.start (⟨b₀, none⟩, b₀.stats.lastSequence + 1) input output)
        [.producer, .runner, .runner, .runner, .stopper] s ∧
      Labelled.Path (RunLoop.Step (GatewayEngineRunner.handler Command.bytes)) s l' s' ∧
      s'.place = .returned [⟨3, 4, ⟨1, .rested, .buy, .none, 0, 7, 0, 2, 5⟩⟩] ∧
      s'.taken = [⟨3, 4, ⟨0, .new, .buy, .limit, 0, 7, 2, 5⟩⟩] ∧
      answer b₀ (number (b₀.stats.lastSequence + 1) s'.taken) = .ok (book, responses) ∧
      s'.received ++ s'.output.contents ++ [⟨3, 4, ⟨1, .rested, .buy, .none, 0, 7, 0, 2, 5⟩⟩] =
        responses := by
  have hrun : ((do
      let b₀ ← OrderBook.new ⟨1, 4, 1, 2⟩
      let input ← SpscQueue.new 1
      let output ← SpscQueue.new 1
      let s₁ ← (RunLoop.start ((⟨b₀, none⟩ : RunnerState), b₀.stats.lastSequence + 1) input output).produce
        ⟨3, 4, ⟨0, .new, .buy, .limit, 0, 7, 2, 5⟩⟩
      let s₂ ← s₁.run (GatewayEngineRunner.handler Command.bytes)
      let s₃ ← s₂.run (GatewayEngineRunner.handler Command.bytes)
      let s₄ ← s₃.run (GatewayEngineRunner.handler Command.bytes)
      let s₅ ← { s₄ with stop := true }.run (GatewayEngineRunner.handler Command.bytes)
      let s₆ ← s₅.run (GatewayEngineRunner.handler Command.bytes)
      let s₇ ← s₆.run (GatewayEngineRunner.handler Command.bytes)
      .ok (s₇.place, s₇.taken)) :
        Except Fault (Place GatewayRequest GatewayResponse × List GatewayRequest)) =
      .ok (.returned [⟨3, 4, ⟨1, .rested, .buy, .none, 0, 7, 0, 2, 5⟩⟩],
        [⟨3, 4, ⟨0, .new, .buy, .limit, 0, 7, 2, 5⟩⟩]) := by decide +kernel
  obtain ⟨b₀, hnew, hrun⟩ := bind_eq_ok.mp hrun
  obtain ⟨input, hin, hrun⟩ := bind_eq_ok.mp hrun
  obtain ⟨output, hout, hrun⟩ := bind_eq_ok.mp hrun
  obtain ⟨s₁, h₁, hrun⟩ := bind_eq_ok.mp hrun
  obtain ⟨s₂, h₂, hrun⟩ := bind_eq_ok.mp hrun
  obtain ⟨s₃, h₃, hrun⟩ := bind_eq_ok.mp hrun
  obtain ⟨s₄, h₄, hrun⟩ := bind_eq_ok.mp hrun
  obtain ⟨s₅, h₅, hrun⟩ := bind_eq_ok.mp hrun
  obtain ⟨s₆, h₆, hrun⟩ := bind_eq_ok.mp hrun
  obtain ⟨s₇, h₇, hrun⟩ := bind_eq_ok.mp hrun
  obtain ⟨hplace, htaken⟩ := Prod.mk.inj (Except.ok.inj hrun)
  have hmax : b₀.config.maximumOrders = 2 := by rw [(Inv.new hnew).2.1]
  have hpath := ((((Labelled.Path.single (RunLoop.Step.produce _ h₁)).tail (.run h₂)).tail
    (.run h₃)).tail (.run h₄)).tail (.stop s₄)
  have hpath' := (((Labelled.Path.single (RunLoop.Step.run h₅)).tail (.run h₆)).tail (.run h₇)).trans
    (RunLoop.path_returned hplace 7)
  obtain ⟨rest, responses, hreturned, hanswer, hresponses, -⟩ :=
    gateway_runner_returns (.new hnew) hin hout none hpath rfl hpath' (by rw [hmax]; decide)
  obtain rfl := Place.returned.inj (hplace.symm.trans hreturned)
  exact ⟨b₀, input, output, _, _, s₇, _, responses, hnew, hin, hout, hpath, hpath', hplace, htaken,
    hanswer, hresponses⟩

end Stopping

end Dme
