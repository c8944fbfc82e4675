import MatchingEngine.Spsc

/-!
# The queue between two threads

`try_push` and `try_pop` of `spsc_queue.hpp`, run by a producer and a consumer whose loads, slot
accesses and stores interleave in any order on sequentially consistent memory.

* `ProducerPc`, `ConsumerPc`: where each thread stands, with what it has loaded so far.
* `producerStep`, `consumerStep`: the next access of each thread, and what its call returns if that
  access ends it; `SpscThreads.Step`.
* `ProducerPc.Fits`, `ConsumerPc.Fits`: what a thread has loaded still agrees with the queue.
* **`Fifo`**, `Fifo.producerStep`, `Fifo.consumerStep`: every access returns and keeps it.
* **`spsc_bounded_fifo`**.
-/

set_option autoImplicit false

namespace Dme

/-- Where the producer stands in `try_push`. -/
inductive ProducerPc (T : Type)
  | idle
  | loadedTail (value : T) (tail : ℕ)
  /-- `head` was loaded, and differs from `next`. -/
  | hasRoom (value : T) (tail next : ℕ)
  | written (value : T) (next : ℕ)
deriving DecidableEq, Repr

/-- Where the consumer stands in `try_pop`. -/
inductive ConsumerPc (T : Type)
  | idle
  | loadedHead (head : ℕ)
  /-- `tail` was loaded, and differs from `head`. -/
  | nonempty (head : ℕ)
  | read (head : ℕ) (value : T)
deriving DecidableEq, Repr

/-- The queue and its two threads, with the values pushed and popped so far. -/
structure SpscThreads (T : Type) where
  queue : SpscQueue T
  producer : ProducerPc T := .idle
  consumer : ConsumerPc T := .idle
  pushed : List T := []
  popped : List T := []
deriving DecidableEq, Repr

namespace SpscThreads

variable {T : Type}

/-- The producer's next access; an idle producer calls `try_push` with `value`. The second component
is the result of the call, if this access ends it. -/
def producerStep (s : SpscThreads T) (value : T) : Except Fault (SpscThreads T × Option Bool) :=
  match s.producer with
  | .idle => .ok ({ s with producer := .loadedTail value s.queue.tail }, none)
  | .loadedTail value tail =>
    let next := (tail + 1) &&& s.queue.mask
    if next = s.queue.head then .ok ({ s with producer := .idle }, some false)
    else .ok ({ s with producer := .hasRoom value tail next }, none)
  | .hasRoom value tail next => do
    let buffer ← vecSet s.queue.buffer tail value
    .ok ({ s with queue := { s.queue with buffer }, producer := .written value next }, none)
  | .written value next =>
    .ok ({ s with
      queue := { s.queue with tail := next }
      producer := .idle
      pushed := s.pushed ++ [value] }, some true)

/-- The consumer's next access; an idle consumer calls `try_pop`. The second component is the result
of the call, if this access ends it: no value, or the value popped. -/
def consumerStep (s : SpscThreads T) : Except Fault (SpscThreads T × Option (Option T)) :=
  match s.consumer with
  | .idle => .ok ({ s with consumer := .loadedHead s.queue.head }, none)
  | .loadedHead head =>
    if head = s.queue.tail then .ok ({ s with consumer := .idle }, some none)
    else .ok ({ s with consumer := .nonempty head }, none)
  | .nonempty head => do
    let value ← vecGet s.queue.buffer head
    .ok ({ s with consumer := .read head value }, none)
  | .read head value =>
    .ok ({ s with
      queue := { s.queue with head := (head + 1) &&& s.queue.mask }
      consumer := .idle
      popped := s.popped ++ [value] }, some (some value))

/-- **One access of one thread.** -/
inductive Step : SpscThreads T → SpscThreads T → Prop
  | producer {s s' : SpscThreads T} {result : Option Bool} (value : T)
      (h : s.producerStep value = .ok (s', result)) : Step s s'
  | consumer {s s' : SpscThreads T} {result : Option (Option T)}
      (h : s.consumerStep = .ok (s', result)) : Step s s'

/-- The slot the producer is about to write. -/
def nextWrite (s : SpscThreads T) : Option ℕ :=
  match s.producer with
  | .hasRoom _ tail _ => some tail
  | _ => none

/-- The slot the consumer is about to read. -/
def nextRead (s : SpscThreads T) : Option ℕ :=
  match s.consumer with
  | .nonempty head => some head
  | _ => none

end SpscThreads

/-- The slots whose values are published and not popped yet. -/
def SpscQueue.unreadSlots {T : Type} (queue : SpscQueue T) : List ℕ :=
  Ring.contents id queue.buffer.size queue.head queue.tail

/-! ## The invariant -/

section Invariant

variable {T : Type} [Inhabited T]

/-- What the producer has loaded agrees with the queue. -/
inductive ProducerPc.Fits (queue : SpscQueue T) : ProducerPc T → Prop
  | idle : Fits queue .idle
  | loadedTail (value : T) : Fits queue (.loadedTail value queue.tail)
  | hasRoom (value : T)
      (h : Circle.gap queue.buffer.size queue.head queue.tail + 1 < queue.buffer.size) :
    Fits queue (.hasRoom value queue.tail (Circle.step queue.buffer.size queue.tail))
  | written (h : Circle.gap queue.buffer.size queue.head queue.tail + 1 < queue.buffer.size) :
    Fits queue (.written (vecAt queue.buffer queue.tail)
      (Circle.step queue.buffer.size queue.tail))

/-- What the consumer has loaded agrees with the queue. -/
inductive ConsumerPc.Fits (queue : SpscQueue T) : ConsumerPc T → Prop
  | idle : Fits queue .idle
  | loadedHead : Fits queue (.loadedHead queue.head)
  | nonempty (h : queue.head ≠ queue.tail) : Fits queue (.nonempty queue.head)
  | read (h : queue.head ≠ queue.tail) :
    Fits queue (.read queue.head (vecAt queue.buffer queue.head))

/-- **First in, first out.** -/
structure Fifo (size : ℕ) (s : SpscThreads T) : Prop where
  wf : s.queue.WF
  size : s.queue.buffer.size = size
  fifo : s.pushed = s.popped ++ s.queue.contents
  producer : s.producer.Fits s.queue
  consumer : s.consumer.Fits s.queue

variable {queue : SpscQueue T} {size : ℕ} {s : SpscThreads T}

theorem ProducerPc.Fits.pop {pc : ProducerPc T} (h : pc.Fits queue) (hwf : queue.WF)
    (hne : queue.head ≠ queue.tail) :
    pc.Fits { queue with head := Circle.step queue.buffer.size queue.head } := by
  have hgap := Circle.gap_step_left hwf.head_lt hwf.tail_lt hne
  cases h with
  | idle => exact .idle
  | loadedTail value => exact .loadedTail value
  | hasRoom value hroom => exact .hasRoom value (by dsimp only; omega)
  | written hroom => exact .written (by dsimp only; omega)

theorem ConsumerPc.Fits.write {pc : ConsumerPc T} (h : pc.Fits queue) (hwf : queue.WF) (value : T) :
    pc.Fits { queue with buffer := queue.buffer.setIfInBounds queue.tail value } := by
  cases h with
  | idle => exact .idle
  | loadedHead => exact .loadedHead
  | nonempty hne => exact .nonempty hne
  | read hne =>
    rw [← vecAt_set_ne hwf.tail_lt (Ne.symm hne) value]
    exact .read hne

theorem ConsumerPc.Fits.publish {pc : ConsumerPc T} (h : pc.Fits queue) (hwf : queue.WF)
    (hroom : Circle.gap queue.buffer.size queue.head queue.tail + 1 < queue.buffer.size) :
    pc.Fits { queue with tail := Circle.step queue.buffer.size queue.tail } := by
  have hne : queue.head ≠ Circle.step queue.buffer.size queue.tail := by
    intro heq
    have := (Ring.full_iff hwf.head_lt hwf.tail_lt).mp heq.symm
    omega
  cases h with
  | idle => exact .idle
  | loadedHead => exact .loadedHead
  | nonempty _ => exact .nonempty hne
  | read _ => exact .read hne

theorem Fifo.of {producer : ProducerPc T} {consumer : ConsumerPc T} {pushed popped : List T}
    (hwf : queue.WF) (hsize : queue.buffer.size = size) (hfifo : pushed = popped ++ queue.contents)
    (hproducer : producer.Fits queue) (hconsumer : consumer.Fits queue) :
    Fifo size ⟨queue, producer, consumer, pushed, popped⟩ :=
  ⟨hwf, hsize, hfifo, hproducer, hconsumer⟩

theorem Fifo.producerStep (h : Fifo size s) (value : T) :
    ∃ s' result, s.producerStep value = .ok (s', result) ∧ Fifo size s' ∧
      (result = some false → s.queue.contents.length = size - 1) := by
  obtain ⟨queue, producer, consumer, pushed, popped⟩ := s
  obtain ⟨hwf, rfl, hfifo, hproducer, hconsumer⟩ := h
  dsimp only at hwf hfifo hproducer hconsumer ⊢
  cases hproducer with
  | idle => exact ⟨_, _, rfl, .of hwf rfl hfifo (.loadedTail value) hconsumer, by simp⟩
  | loadedTail value =>
    simp only [SpscThreads.producerStep, hwf.step hwf.tail_lt]
    rcases hwf.full_or_room with ⟨hfull, hgap⟩ | ⟨hfree, hroom⟩
    · refine ⟨_, _, if_pos hfull, .of hwf rfl hfifo .idle hconsumer, fun _ => ?_⟩
      rw [SpscQueue.contents, Ring.length_contents, hgap]
    · exact ⟨_, _, if_neg hfree, .of hwf rfl hfifo (.hasRoom value hroom) hconsumer, by simp⟩
  | hasRoom value hroom =>
    obtain ⟨hwf', hsame⟩ := hwf.write value
    have hsize : (queue.buffer.setIfInBounds queue.tail value).size = queue.buffer.size := by simp
    have hwritten := @ProducerPc.Fits.written T _
      { queue with buffer := queue.buffer.setIfInBounds queue.tail value }
      (by simpa only [hsize] using hroom)
    simp only [vecAt_set_self hwf.tail_lt, hsize] at hwritten
    refine ⟨_, none, ?_, .of hwf' hsize (hfifo.trans (by rw [hsame])) hwritten
      (hconsumer.write hwf value), by simp⟩
    simp only [SpscThreads.producerStep, vecSet_eq hwf.tail_lt]
    rfl
  | written hroom =>
    obtain ⟨hwf', hcontents⟩ := hwf.publish hroom
    refine ⟨_, _, rfl, .of hwf' rfl ?_ .idle (hconsumer.publish hwf hroom), by simp⟩
    rw [hcontents, hfifo, List.append_assoc]

theorem Fifo.consumerStep (h : Fifo size s) :
    ∃ s' result, s.consumerStep = .ok (s', result) ∧ Fifo size s' ∧
      (result = some none → s.queue.contents = []) := by
  obtain ⟨queue, producer, consumer, pushed, popped⟩ := s
  obtain ⟨hwf, hsize, hfifo, hproducer, hconsumer⟩ := h
  dsimp only at hwf hsize hfifo hproducer hconsumer ⊢
  cases hconsumer with
  | idle => exact ⟨_, _, rfl, .of hwf hsize hfifo hproducer .loadedHead, by simp⟩
  | loadedHead =>
    by_cases he : queue.head = queue.tail
    · exact ⟨_, _, if_pos he, .of hwf hsize hfifo hproducer .idle,
        fun _ => (Ring.contents_eq_nil_iff _ hwf.head_lt).mpr he⟩
    · exact ⟨_, _, if_neg he, .of hwf hsize hfifo hproducer (.nonempty he), by simp⟩
  | nonempty hne =>
    refine ⟨_, none, ?_, .of hwf hsize hfifo hproducer (.read hne), by simp⟩
    simp only [SpscThreads.consumerStep, vecGet_eq hwf.head_lt]
    rfl
  | read hne =>
    obtain ⟨hwf', hcontents⟩ := hwf.release hne
    rw [hcontents, List.append_cons] at hfifo
    refine ⟨_, some (some (vecAt queue.buffer queue.head)), ?_,
      .of hwf' hsize hfifo (hproducer.pop hwf hne) .idle, by simp⟩
    simp only [SpscThreads.consumerStep, hwf.step hwf.head_lt]

/-! ## Whole runs -/

theorem Fifo.start {minimum : ℕ} (h : SpscQueue.new minimum = .ok queue) :
    Fifo queue.buffer.size { queue } := by
  obtain ⟨hwf, hempty, -⟩ := SpscQueue.WF.new h
  exact .of hwf rfl (by rw [hempty]; rfl) .idle .idle

theorem Fifo.step {s' : SpscThreads T} (h : Fifo size s) (hstep : s.Step s') : Fifo size s' := by
  cases hstep with
  | producer value hp =>
    obtain ⟨s'', result, hp', h', -⟩ := h.producerStep value
    cases hp.symm.trans hp'
    exact h'
  | consumer hc =>
    obtain ⟨s'', result, hc', h', -⟩ := h.consumerStep
    cases hc.symm.trans hc'
    exact h'

theorem Fifo.steps {s' : SpscThreads T} (h : Fifo size s)
    (hsteps : Relation.ReflTransGen SpscThreads.Step s s') : Fifo size s' := by
  induction hsteps with
  | refl => exact h
  | tail _ hstep ih => exact ih.step hstep

theorem Fifo.nextWrite (h : Fifo size s) {slot : ℕ} (hw : s.nextWrite = some slot) :
    slot ∉ s.queue.unreadSlots := by
  obtain ⟨queue, producer, consumer, pushed, popped⟩ := s
  obtain ⟨hwf, -, -, hproducer, -⟩ := h
  dsimp only at hwf hproducer
  cases hproducer with
  | hasRoom value hroom =>
    cases hw
    exact Ring.tail_notMem_contents hwf.head_lt hwf.tail_lt
  | _ => cases hw

theorem Fifo.nextRead (h : Fifo size s) {slot : ℕ} (hr : s.nextRead = some slot) :
    slot ∈ s.queue.unreadSlots := by
  obtain ⟨queue, producer, consumer, pushed, popped⟩ := s
  obtain ⟨hwf, -, -, -, hconsumer⟩ := h
  dsimp only at hwf hconsumer
  cases hconsumer with
  | nonempty hne =>
    cases hr
    rw [SpscQueue.unreadSlots, Ring.contents_pop id hwf.head_lt hwf.tail_lt hne]
    exact List.mem_cons_self
  | _ => cases hr

theorem Fifo.length_contents_le (h : Fifo size s) : s.queue.contents.length ≤ size - 1 := by
  have := Circle.gap_lt (a := s.queue.head) h.wf.tail_lt
  rw [SpscQueue.contents, Ring.length_contents, ← h.size]
  omega

/-- **A bounded first-in first-out queue under every interleaving.** However the accesses of one
producer and one consumer interleave, from a new queue: no access faults; the values popped are the
first of the values pushed, and the rest are in the queue; the slot about to be written holds no
unread value, and the slot about to be read holds one; at most all slots but one are unread, which is
no less than was asked for; a push fails only when that many were unread as `head` was loaded, a pop
only when none was as `tail` was loaded. -/
theorem spsc_bounded_fifo {minimum : ℕ} (hnew : SpscQueue.new minimum = .ok queue)
    (h : Relation.ReflTransGen SpscThreads.Step { queue } s) :
    ((∀ value, ∃ r, s.producerStep value = .ok r) ∧ ∃ r, s.consumerStep = .ok r) ∧
      (s.popped <+: s.pushed ∧ s.pushed = s.popped ++ s.queue.contents) ∧
      (∀ slot, s.nextWrite = some slot → slot ∉ s.queue.unreadSlots) ∧
      (∀ slot, s.nextRead = some slot → slot ∈ s.queue.unreadSlots) ∧
      (s.queue.contents.length ≤ queue.buffer.size - 1 ∧ minimum ≤ queue.buffer.size - 1) ∧
      (∀ value s', s.producerStep value = .ok (s', some false) →
        s.queue.contents.length = queue.buffer.size - 1) ∧
      ∀ s', s.consumerStep = .ok (s', some none) → s.queue.contents = [] := by
  have hfifo := (Fifo.start hnew).steps h
  refine ⟨⟨fun value => ?_, ?_⟩, ⟨?_, hfifo.fifo⟩, fun _ => hfifo.nextWrite,
    fun _ => hfifo.nextRead, ⟨hfifo.length_contents_le, (SpscQueue.WF.new hnew).2.2⟩,
    fun value s' hp => ?_, fun s' hc => ?_⟩
  · obtain ⟨s', result, hp, -⟩ := hfifo.producerStep value
    exact ⟨_, hp⟩
  · obtain ⟨s', result, hc, -⟩ := hfifo.consumerStep
    exact ⟨_, hc⟩
  · rw [hfifo.fifo]
    exact List.prefix_append ..
  · obtain ⟨_, _, hp', -, hfull⟩ := hfifo.producerStep value
    cases hp.symm.trans hp'
    exact hfull rfl
  · obtain ⟨_, _, hc', -, hempty⟩ := hfifo.consumerStep
    cases hc.symm.trans hc'
    exact hempty rfl

/-- A second push into a queue of two slots, about to fail. -/
theorem spsc_bounded_fifo_full_queue : ∃ s s' : SpscThreads ℕ,
    SpscQueue.new 1 = .ok (⟨#[0, 0], 1, 0, 0⟩ : SpscQueue ℕ) ∧
      Relation.ReflTransGen SpscThreads.Step { queue := ⟨#[0, 0], 1, 0, 0⟩ } s ∧
      s.pushed = [5] ∧ s.producerStep 6 = .ok (s', some false) ∧ s.queue.contents.length = 1 := by
  have hnew : SpscQueue.new 1 = .ok (⟨#[0, 0], 1, 0, 0⟩ : SpscQueue ℕ) := by decide
  have hrun : Relation.ReflTransGen SpscThreads.Step { queue := ⟨#[0, 0], 1, 0, 0⟩ }
      (⟨⟨#[5, 0], 1, 0, 1⟩, .loadedTail 6 1, .idle, [5], []⟩ : SpscThreads ℕ) :=
    .head (.producer 5 rfl) (.head (.producer 5 rfl) (.head (.producer 5 rfl)
      (.head (.producer 5 rfl) (.head (.producer 6 rfl) .refl))))
  obtain ⟨-, -, -, -, -, hfull, -⟩ := spsc_bounded_fifo hnew hrun
  exact ⟨_, _, hnew, hrun, rfl, rfl, hfull 6 _ rfl⟩

end Invariant

end Dme
