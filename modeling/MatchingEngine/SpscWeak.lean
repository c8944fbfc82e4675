import MatchingEngine.Lib.ReleaseAcquire
import MatchingEngine.SpscThreads

/-!
# The queue on release/acquire memory

`try_push` and `try_pop` of `spsc_queue.hpp` with the memory orders they name: each thread loads its own
index relaxed and the other's with acquire, which may return an old store; the slots are plain memory; an
index is stored with release.

* `SpscWeak.producerStep`, `SpscWeak.consumerStep`: the next access of each thread, given the store a load
  returns; `SpscWeak.Step`.
* `Slots`: who wrote and read each slot last, and when.
* **`Sound`**, `Sound.producerStep`, `Sound.consumerStep`: no access races or leaves the buffer, whichever
  stores the loads return.
* **`spsc_release_acquire`**.
-/

set_option autoImplicit false

namespace Dme

open ReleaseAcquire

/-- The two threads of a queue. -/
inductive SpscThread
  | producer
  | consumer
deriving DecidableEq, Repr

instance : Fintype SpscThread where
  elems := {.producer, .consumer}
  complete t := by cases t <;> decide

/-- The two atomics of a queue. -/
inductive SpscIndex
  | head
  | tail
deriving DecidableEq, Repr

/-- The thread that stores an index. -/
def SpscIndex.owner : SpscIndex → SpscThread
  | .head => .consumer
  | .tail => .producer

/-- The memory of a queue: its indices and its slots. -/
abbrev SpscMemory (T : Type) := Memory SpscThread SpscIndex ℕ ℕ T

/-- Undefined behaviour of an access to the buffer. -/
inductive AccessFault
  | race
  | outOfRange
deriving DecidableEq, Repr

/-- The queue and its two threads, with the values pushed and popped so far. -/
structure SpscWeak (T : Type) where
  size : ℕ
  mask : ℕ
  memory : SpscMemory T
  producer : ProducerPc T := .idle
  consumer : ConsumerPc T := .idle
  pushed : List T := []
  popped : List T := []

namespace SpscWeak

variable {T : Type}

/-- A constructed queue, before the threads start. -/
def start [Inhabited T] (queue : SpscQueue T) : SpscWeak T where
  size := queue.buffer.size
  mask := queue.mask
  memory := .init (fun | .head => queue.head | .tail => queue.tail) (vecAt queue.buffer)

/-- The producer's next access; an idle producer calls `try_push` with `value`. A load returns store
`store` of its index, and there is no step if it cannot. -/
def producerStep (s : SpscWeak T) (value : T) (store : ℕ) :
    Option (Except AccessFault (SpscWeak T × Option Bool)) :=
  match s.producer with
  | .idle => (s.memory.loadRelaxed .producer .tail store).map fun (tail, memory) =>
    .ok ({ s with memory, producer := .loadedTail value tail }, none)
  | .loadedTail value tail =>
    (s.memory.loadAcquire .producer .head store).map fun (head, memory) =>
      let next := (tail + 1) &&& s.mask
      if next = head then .ok ({ s with memory, producer := .idle }, some false)
      else .ok ({ s with memory, producer := .hasRoom value tail next }, none)
  | .hasRoom value tail next => some <|
    if tail < s.size then
      match s.memory.writeCell .producer tail value with
      | none => .error .race
      | some memory => .ok ({ s with memory, producer := .written value next }, none)
    else .error .outOfRange
  | .written value next => some <|
    .ok ({ s with
      memory := s.memory.storeRelease .producer .tail next
      producer := .idle
      pushed := s.pushed ++ [value] }, some true)

/-- The consumer's next access; an idle consumer calls `try_pop`. -/
def consumerStep (s : SpscWeak T) (store : ℕ) :
    Option (Except AccessFault (SpscWeak T × Option (Option T))) :=
  match s.consumer with
  | .idle => (s.memory.loadRelaxed .consumer .head store).map fun (head, memory) =>
    .ok ({ s with memory, consumer := .loadedHead head }, none)
  | .loadedHead head =>
    (s.memory.loadAcquire .consumer .tail store).map fun (tail, memory) =>
      if head = tail then .ok ({ s with memory, consumer := .idle }, some none)
      else .ok ({ s with memory, consumer := .nonempty head }, none)
  | .nonempty head => some <|
    if head < s.size then
      match s.memory.readCell .consumer head with
      | none => .error .race
      | some (value, memory) => .ok ({ s with memory, consumer := .read head value }, none)
    else .error .outOfRange
  | .read head value => some <|
    .ok ({ s with
      memory := s.memory.storeRelease .consumer .head ((head + 1) &&& s.mask)
      consumer := .idle
      popped := s.popped ++ [value] }, some (some value))

/-- **One access of one thread.** -/
inductive Step : SpscWeak T → SpscWeak T → Prop
  | producer {s s' : SpscWeak T} {result : Option Bool} (value : T) (store : ℕ)
      (h : s.producerStep value store = some (.ok (s', result))) : Step s s'
  | consumer {s s' : SpscWeak T} {result : Option (Option T)} (store : ℕ)
      (h : s.consumerStep store = some (.ok (s', result))) : Step s s'

end SpscWeak

/-! ## What each thread knows -/

variable {T : Type}

/-- Where the producer stands, from the number of values pushed and the store of `head` it has seen. -/
inductive ProducerPc.Knows (size pushed head : ℕ) : ProducerPc T → Prop
  | idle : Knows size pushed head .idle
  | loadedTail (value : T) : Knows size pushed head (.loadedTail value (pushed % size))
  | hasRoom (value : T) (h : pushed + 2 ≤ head + size) :
    Knows size pushed head (.hasRoom value (pushed % size) ((pushed + 1) % size))
  | written (value : T) (h : pushed + 2 ≤ head + size) :
    Knows size pushed head (.written value ((pushed + 1) % size))

/-- Where the consumer stands, from the number of values popped and the store of `tail` it has seen. -/
inductive ConsumerPc.Knows (size popped tail : ℕ) : ConsumerPc T → Prop
  | idle : Knows size popped tail .idle
  | loadedHead : Knows size popped tail (.loadedHead (popped % size))
  | nonempty (h : popped < tail) : Knows size popped tail (.nonempty (popped % size))
  | read (value : T) (h : popped < tail) : Knows size popped tail (.read (popped % size) value)

/-- The value written and not published. -/
def ProducerPc.unpublished : ProducerPc T → List T
  | .written value _ => [value]
  | _ => []

/-- The value read whose slot is not released. -/
def ConsumerPc.unreleased : ConsumerPc T → List T
  | .read _ value => [value]
  | _ => []

/-- **The stores of an index**: one for each of `count` values, each after its thread's access to the
slot. -/
structure Publishes (m : SpscMemory T) (size : ℕ) (index : SpscIndex) (count : ℕ) : Prop where
  length : (m.history index).length = count + 1
  store : ∀ k message, (m.history index)[k]? = some message →
    message.value = k % size ∧ k ≤ message.view.time index.owner

/-- **The slots**: value `i` is in slot `i % size` until it is overwritten, and was written as the
producer's access `i + 1`; the consumer's access `i + 1` is the read of value `i`. -/
structure Slots (m : SpscMemory T) (size : ℕ) (writes reads : List T) : Prop where
  producer : (m.view .producer).time .producer = writes.length
  consumer : (m.view .consumer).time .consumer = reads.length
  cell : ∀ i value, writes[i]? = some value → writes.length ≤ i + size →
    m.cell (i % size) = value ∧ m.written (i % size) .producer = i + 1
  lastRead : ∀ slot, m.read slot .consumer = 0 ∨
    ∃ i < reads.length, i % size = slot ∧ m.read slot .consumer = i + 1
  others : ∀ slot, m.written slot .consumer = 0 ∧ m.read slot .producer = 0

/-- **The invariant.** -/
structure Sound (size : ℕ) (s : SpscWeak T) : Prop where
  size : s.size = size
  isPow : ∃ k, s.size = 2 ^ k
  mask : s.mask = s.size - 1
  wf : s.memory.WF SpscIndex.owner
  tail : Publishes s.memory s.size .tail s.pushed.length
  head : Publishes s.memory s.size .head s.popped.length
  slots : Slots s.memory s.size (s.pushed ++ s.producer.unpublished)
    (s.popped ++ s.consumer.unreleased)
  fifo : s.popped ++ s.consumer.unreleased <+: s.pushed
  room : s.pushed.length + 1 ≤ (s.memory.view .producer).seen .head + s.size
  unread : s.popped.length ≤ (s.memory.view .consumer).seen .tail
  producer : s.producer.Knows s.size s.pushed.length ((s.memory.view .producer).seen .head)
  consumer : s.consumer.Knows s.size s.popped.length ((s.memory.view .consumer).seen .tail)

/-! ## The stores of an index -/

section Memory

variable {m m' : SpscMemory T} {size count : ℕ} {index : SpscIndex} {writes reads : List T}

theorem Publishes.seen_le (h : Publishes m size index count) (hwf : m.WF SpscIndex.owner)
    (t : SpscThread) : (m.view t).seen index ≤ count := by
  have := hwf.seen_lt t index
  rw [h.length] at this
  omega

theorem Publishes.knows (h : Publishes m size index count) (hwf : m.WF SpscIndex.owner)
    (t : SpscThread) : (m.view t).seen index ≤ (m.view t).time index.owner :=
  hwf.knows id (fun k message hget => (h.store k message hget).2) t

theorem Publishes.congr (h : Publishes m size index count)
    (hsame : m'.history index = m.history index) : Publishes m' size index count :=
  ⟨by rw [hsame, h.length], by rw [hsame]; exact h.store⟩

/-- **Publishing**: the owner has made its access. -/
theorem Publishes.storeRelease (h : Publishes m size index count)
    (htime : count + 1 ≤ (m.view index.owner).time index.owner) :
    Publishes (m.storeRelease index.owner index ((count + 1) % size)) size index (count + 1) := by
  refine ⟨?_, fun k message hget => ?_⟩
  · simp [Memory.storeRelease, h.length]
  · simp only [Memory.storeRelease, Function.update_self, List.getElem?_append] at hget
    split_ifs at hget with hlt
    · exact h.store k message hget
    · obtain ⟨hlen, rfl⟩ := List.getElem?_eq_some_iff.mp hget
      rw [h.length] at hlt hlen
      obtain rfl : k = count + 1 := by simp only [List.length_singleton] at hlen; omega
      simp only [List.getElem_singleton, true_and]
      exact htime

/-! ## The slots -/

theorem Slots.congr (h : Slots m size writes reads) (hcell : m'.cell = m.cell)
    (hwritten : m'.written = m.written) (hread : m'.read = m.read)
    (htime : ∀ t, (m'.view t).time t = (m.view t).time t) : Slots m' size writes reads := by
  refine ⟨by rw [htime, h.producer], by rw [htime, h.consumer], ?_, ?_, ?_⟩
  · rw [hcell, hwritten]
    exact h.cell
  · rw [hread]
    exact h.lastRead
  · rw [hwritten, hread]
    exact h.others

/-- **No race on writing** the next slot: the read of the value that was there has been seen. -/
theorem Slots.exclusive (h : Slots m size writes reads) (hwf : m.WF SpscIndex.owner)
    (hle : reads.length ≤ writes.length)
    (hroom : writes.length + 1 ≤ (m.view .producer).time .consumer + size) :
    m.Exclusive .producer (writes.length % size) := by
  refine ⟨fun t => ?_, fun t => ?_⟩
  · cases t with
    | producer => exact hwf.written_le _ _
    | consumer => rw [(h.others _).1]; exact Nat.zero_le _
  · cases t with
    | producer => rw [(h.others _).2]; exact Nat.zero_le _
    | consumer =>
      rcases h.lastRead (writes.length % size) with h0 | ⟨i, hi, hslot, hread⟩
      · rw [h0]; exact Nat.zero_le _
      · have := Nat.ModEq.add_le_of_lt (m := size) hslot (by omega)
        omega

/-- **No race on reading** the first unread slot: its write has been seen. -/
theorem Slots.visible (h : Slots m size writes reads) (hlt : reads.length < writes.length)
    (hfresh : writes.length ≤ reads.length + size)
    (hseen : reads.length < (m.view .consumer).time .producer) :
    m.Visible .consumer (reads.length % size) := by
  intro t
  cases t with
  | producer =>
    obtain ⟨-, hwritten⟩ := h.cell _ _ (List.getElem?_eq_getElem hlt) hfresh
    rw [hwritten]
    exact hseen
  | consumer => rw [(h.others _).1]; exact Nat.zero_le _

theorem Slots.writeCell (h : Slots m size writes reads) {value : T}
    (hwrite : m.writeCell .producer (writes.length % size) value = some m') :
    Slots m' size (writes ++ [value]) reads := by
  rw [Memory.writeCell] at hwrite
  split_ifs at hwrite
  cases hwrite
  refine ⟨?_, ?_, fun i v hget hfresh => ?_, h.lastRead, fun slot => ⟨?_, (h.others slot).2⟩⟩
  · simp only [Function.update_self, View.time_tick_self, h.producer, List.length_append,
      List.length_singleton]
  · rw [← h.consumer]
    rfl
  · rw [List.length_append, List.length_singleton] at hfresh
    dsimp only
    by_cases hi : i < writes.length
    · -- value `i` is not overwritten: the slots differ
      have hne : i % size ≠ writes.length % size := by
        intro heq
        have := Nat.ModEq.add_le_of_lt (m := size) heq hi
        omega
      rw [List.getElem?_append_left hi] at hget
      rw [Function.update_of_ne hne, Function.update_of_ne hne]
      exact h.cell i v hget (by omega)
    · obtain ⟨hlen, rfl⟩ := List.getElem?_eq_some_iff.mp hget
      rw [List.length_append, List.length_singleton] at hlen
      obtain rfl : i = writes.length := by omega
      rw [Function.update_self, Function.update_self, Function.update_self, h.producer]
      exact ⟨by simp, rfl⟩
  · dsimp only
    by_cases hslot : slot = writes.length % size
    · rw [hslot, Function.update_self, Function.update_of_ne (by decide)]
      exact (h.others _).1
    · rw [Function.update_of_ne hslot]
      exact (h.others _).1

theorem Slots.readCell (h : Slots m size writes reads) {value : T}
    (hread : m.readCell .consumer (reads.length % size) = some (value, m')) :
    value = m.cell (reads.length % size) ∧ Slots m' size writes (reads ++ [value]) := by
  rw [Memory.readCell] at hread
  split_ifs at hread
  cases hread
  refine ⟨rfl, ?_, ?_, h.cell, fun slot => ?_, fun slot => ⟨(h.others slot).1, ?_⟩⟩
  · rw [← h.producer]
    rfl
  · simp only [Function.update_self, View.time_tick_self, h.consumer, List.length_append,
      List.length_singleton]
  · dsimp only
    rw [List.length_append, List.length_singleton]
    by_cases hslot : slot = reads.length % size
    · refine Or.inr ⟨reads.length, Nat.lt_succ_self _, hslot.symm, ?_⟩
      rw [hslot, Function.update_self, Function.update_self, h.consumer]
    · rw [Function.update_of_ne hslot]
      rcases h.lastRead slot with h0 | ⟨i, hi, heq, hlast⟩
      · exact Or.inl h0
      · exact Or.inr ⟨i, by omega, heq, hlast⟩
  · dsimp only
    by_cases hslot : slot = reads.length % size
    · rw [hslot, Function.update_self, Function.update_of_ne (by decide)]
      exact (h.others _).2
    · rw [Function.update_of_ne hslot]
      exact (h.others _).2

end Memory

/-! ## The invariant is kept -/

namespace Sound

variable {n : ℕ} {s : SpscWeak T}

theorem size_pos (h : Sound n s) : 0 < s.size := by
  obtain ⟨k, hk⟩ := h.isPow
  rw [hk]
  exact Nat.two_pow_pos k

theorem wrap (h : Sound n s) (count : ℕ) :
    (count % s.size + 1) &&& s.mask = (count + 1) % s.size := by
  obtain ⟨k, hk⟩ := h.isPow
  rw [h.mask, hk, Nat.and_two_pow_sub_one_eq_mod, Nat.mod_add_mod]

theorem popped_le (h : Sound n s) : s.popped.length ≤ s.pushed.length := by
  have := h.fifo.length_le
  rw [List.length_append] at this
  omega

/-- A slot is never written before the producer has seen its last value read. -/
theorem writes_le (h : Sound n s) : (s.pushed ++ s.producer.unpublished).length + 1 ≤
    (s.memory.view .producer).seen .head + s.size := by
  have hroom := h.room
  have hknows := h.producer
  rw [List.length_append]
  generalize s.producer = pc at hknows ⊢
  cases hknows with
  | written value hw => simp only [ProducerPc.unpublished, List.length_singleton]; omega
  | _ => simpa [ProducerPc.unpublished] using hroom

theorem full_iff (h : Sound n s) {store : ℕ}
    (hseen : (s.memory.view .producer).seen .head ≤ store) (hle : store ≤ s.popped.length) :
    (s.pushed.length + 1) % s.size = store % s.size ↔ s.pushed.length + 1 = store + s.size := by
  have hroom := h.room
  have hpopped := h.popped_le
  refine ⟨fun heq => ?_, fun heq => by rw [heq, Nat.add_mod_right]⟩
  have := Nat.ModEq.add_le_of_lt (m := s.size) (Eq.symm heq) (by omega)
  omega

theorem empty_iff (h : Sound n s) {store : ℕ}
    (hseen : (s.memory.view .consumer).seen .tail ≤ store) (hle : store ≤ s.pushed.length) :
    s.popped.length % s.size = store % s.size ↔ s.popped.length = store := by
  have hroom := h.room
  have hunread := h.unread
  have hhead := h.head.seen_le h.wf .producer
  refine ⟨fun heq => ?_, fun heq => by rw [heq]⟩
  by_contra hne
  have := Nat.ModEq.add_le_of_lt (m := s.size) heq (by omega)
  omega

theorem acquireHead (h : Sound n s) {m : SpscMemory T} {pc : ProducerPc T} {store : ℕ}
    (hacq : Memory.Acquired SpscIndex.owner s.memory m .producer .head store)
    (hseen : (s.memory.view .producer).seen .head ≤ store)
    (hpc : s.producer.unpublished = [] ∧ pc.unpublished = [])
    (hknows : pc.Knows s.size s.pushed.length store) :
    Sound n { s with memory := m, producer := pc } := by
  have hconsumer : m.view .consumer = s.memory.view .consumer := hacq.others _ (by decide)
  have htime : ∀ t, (m.view t).time t = (s.memory.view t).time t := by
    intro t
    cases t with
    | producer => exact hacq.own.2
    | consumer => rw [hconsumer]
  have hslots := h.slots
  rw [hpc.1] at hslots
  refine ⟨h.size, h.isPow, h.mask, hacq.wf, h.tail.congr (by rw [hacq.history]),
    h.head.congr (by rw [hacq.history]), ?_, h.fifo, ?_, ?_, ?_, ?_⟩
  · dsimp only
    rw [hpc.2]
    exact hslots.congr hacq.cell hacq.written hacq.read htime
  · have := h.room
    dsimp only
    rw [hacq.seen]
    omega
  · dsimp only
    rw [hconsumer]
    exact h.unread
  · dsimp only
    rw [hacq.seen]
    exact hknows
  · dsimp only
    rw [hconsumer]
    exact h.consumer

theorem acquireTail (h : Sound n s) {m : SpscMemory T} {pc : ConsumerPc T} {store : ℕ}
    (hacq : Memory.Acquired SpscIndex.owner s.memory m .consumer .tail store)
    (hseen : (s.memory.view .consumer).seen .tail ≤ store)
    (hpc : s.consumer.unreleased = [] ∧ pc.unreleased = [])
    (hknows : pc.Knows s.size s.popped.length store) :
    Sound n { s with memory := m, consumer := pc } := by
  have hproducer : m.view .producer = s.memory.view .producer := hacq.others _ (by decide)
  have htime : ∀ t, (m.view t).time t = (s.memory.view t).time t := by
    intro t
    cases t with
    | producer => rw [hproducer]
    | consumer => exact hacq.own.2
  have hslots := h.slots
  have hfifo := h.fifo
  rw [hpc.1] at hslots hfifo
  refine ⟨h.size, h.isPow, h.mask, hacq.wf, h.tail.congr (by rw [hacq.history]),
    h.head.congr (by rw [hacq.history]), ?_, ?_, ?_, ?_, ?_, ?_⟩
  · dsimp only
    rw [hpc.2]
    exact hslots.congr hacq.cell hacq.written hacq.read htime
  · dsimp only
    rw [hpc.2]
    exact hfifo
  · dsimp only
    rw [hproducer]
    exact h.room
  · have := h.unread
    dsimp only
    rw [hacq.seen]
    omega
  · dsimp only
    rw [hproducer]
    exact h.producer
  · dsimp only
    rw [hacq.seen]
    exact hknows

theorem writeSlot (h : Sound n s) (value : T) (hpc : s.producer.unpublished = [])
    (hroom : s.pushed.length + 2 ≤ (s.memory.view .producer).seen .head + s.size) :
    ∃ m, s.memory.writeCell .producer (s.pushed.length % s.size) value = some m ∧
      Sound n { s with memory := m, producer := .written value ((s.pushed.length + 1) % s.size) } := by
  have hslots := h.slots
  have hfifo := h.fifo.length_le
  have hknown : _ ≤ (s.memory.view .producer).time .consumer := h.head.knows h.wf .producer
  rw [hpc, List.append_nil] at hslots
  have hfree := hslots.exclusive h.wf hfifo (by omega)
  obtain ⟨m, hm⟩ : ∃ m, s.memory.writeCell .producer (s.pushed.length % s.size) value = some m :=
    ⟨_, if_pos hfree⟩
  obtain ⟨hwf, hsame⟩ := h.wf.writeCell hm
  refine ⟨m, hm, h.size, h.isPow, h.mask, hwf, h.tail.congr (by rw [hsame.history]),
    h.head.congr (by rw [hsame.history]), hslots.writeCell hm, h.fifo, ?_, ?_, ?_, ?_⟩
  · dsimp only
    rw [hsame.seen]
    exact h.room
  · dsimp only
    rw [hsame.seen]
    exact h.unread
  · dsimp only
    rw [hsame.seen]
    exact .written value hroom
  · dsimp only
    rw [hsame.seen]
    exact h.consumer

theorem publish (h : Sound n s) {value : T} {next : ℕ} (hpc : s.producer = .written value next) :
    Sound n { s with
      memory := s.memory.storeRelease .producer .tail next
      producer := .idle
      pushed := s.pushed ++ [value] } := by
  have hslots := h.slots
  have hknows := h.producer
  rw [hpc] at hslots hknows
  cases hknows with
  | written _ hroom =>
    have hlength : (s.pushed ++ [value]).length = s.pushed.length + 1 := by simp
    refine ⟨h.size, h.isPow, h.mask, h.wf.storeRelease .tail _, ?_, h.head.congr rfl, ?_,
      h.fifo.trans (List.prefix_append ..), ?_, h.unread, .idle, h.consumer⟩
    · rw [hlength]
      exact h.tail.storeRelease (hslots.producer.trans hlength).ge
    · dsimp only [ProducerPc.unpublished] at hslots ⊢
      rw [List.append_nil]
      refine hslots.congr rfl rfl rfl fun t => ?_
      cases t <;> rfl
    · rw [hlength]
      exact hroom

/-- **One access of the producer**, whichever store it loads. -/
theorem producerStep (h : Sound n s) {value : T} {store : ℕ}
    {r : Except AccessFault (SpscWeak T × Option Bool)} (hr : s.producerStep value store = some r) :
    ∃ s' result, r = .ok (s', result) ∧ Sound n s' ∧
      (result = some false → s.pushed.length + 1 = store + s.size ∧ store ≤ s.popped.length) := by
  have hknows := h.producer
  rcases hpc : s.producer with _ | ⟨value, tail⟩ | ⟨value, tail, next⟩ | ⟨value, next⟩
  · simp only [SpscWeak.producerStep, hpc] at hr
    obtain ⟨⟨tail, m⟩, hload, rfl⟩ := Option.map_eq_some_iff.mp hr
    obtain ⟨rfl, hlast, message, hget, rfl⟩ := h.wf.loadRelaxed hload rfl
    rw [h.tail.length] at hlast
    obtain rfl : store = s.pushed.length := by omega
    refine ⟨_, _, rfl, ?_, by simp⟩
    rw [(h.tail.store _ _ hget).1]
    have hslots := h.slots
    rw [hpc] at hslots
    exact ⟨h.size, h.isPow, h.mask, h.wf, h.tail, h.head, hslots, h.fifo, h.room, h.unread,
      .loadedTail value, h.consumer⟩
  · simp only [SpscWeak.producerStep, hpc] at hr
    rw [hpc] at hknows
    obtain ⟨⟨head, m⟩, hload, rfl⟩ := Option.map_eq_some_iff.mp hr
    obtain ⟨hacq, hseen, message, hget, rfl⟩ := h.wf.loadAcquire hload
    obtain ⟨hlt, -⟩ := List.getElem?_eq_some_iff.mp hget
    rw [h.head.length] at hlt
    have hfull := h.full_iff hseen (by omega)
    cases hknows with
    | loadedTail _ =>
      dsimp only
      rw [h.wrap, (h.head.store _ _ hget).1]
      by_cases heq : (s.pushed.length + 1) % s.size = store % s.size
      · rw [if_pos heq]
        exact ⟨_, _, rfl, h.acquireHead hacq hseen ⟨by rw [hpc]; rfl, rfl⟩ .idle,
          fun _ => ⟨hfull.mp heq, by omega⟩⟩
      · rw [if_neg heq]
        have hroom := h.room
        have hne := mt hfull.mpr heq
        exact ⟨_, _, rfl, h.acquireHead hacq hseen ⟨by rw [hpc]; rfl, rfl⟩
          (.hasRoom value (by omega)), by simp⟩
  · simp only [SpscWeak.producerStep, hpc] at hr
    rw [hpc] at hknows
    cases hknows with
    | hasRoom _ hroom =>
      obtain ⟨m, hm, hsound⟩ := h.writeSlot value (by rw [hpc]; rfl) hroom
      rw [if_pos (Nat.mod_lt _ h.size_pos), hm] at hr
      cases hr
      exact ⟨_, _, rfl, hsound, by simp⟩
  · simp only [SpscWeak.producerStep, hpc] at hr
    cases hr
    exact ⟨_, _, rfl, h.publish hpc, by simp⟩

theorem readSlot (h : Sound n s) (hpc : s.consumer.unreleased = [])
    (hunread : s.popped.length < (s.memory.view .consumer).seen .tail) :
    ∃ value m, s.memory.readCell .consumer (s.popped.length % s.size) = some (value, m) ∧
      Sound n { s with memory := m, consumer := .read (s.popped.length % s.size) value } := by
  have hslots := h.slots
  have hfifo := h.fifo
  have hwrites := h.writes_le
  have hseen := h.head.seen_le h.wf .producer
  have hlt := hunread.trans_le (h.tail.seen_le h.wf .consumer)
  have hknown : _ ≤ (s.memory.view .consumer).time .producer := h.tail.knows h.wf .consumer
  rw [hpc, List.append_nil] at hslots hfifo
  have hlt' : s.popped.length < (s.pushed ++ s.producer.unpublished).length := by
    rw [List.length_append]
    omega
  have hvisible := hslots.visible hlt' (by omega) (by omega)
  obtain ⟨value, m, hm⟩ : ∃ value m,
      s.memory.readCell .consumer (s.popped.length % s.size) = some (value, m) :=
    ⟨_, _, if_pos hvisible⟩
  obtain ⟨hwf, hsame⟩ := h.wf.readCell hm
  obtain ⟨hvalue, hslots'⟩ := hslots.readCell hm
  -- the slot holds value `popped.length`
  have hget : s.pushed[s.popped.length]? = some value := by
    have hw : (s.pushed ++ s.producer.unpublished)[s.popped.length]? =
        some (s.pushed[s.popped.length]) := by
      rw [List.getElem?_append_left hlt, List.getElem?_eq_getElem hlt]
    obtain ⟨hcell, -⟩ := hslots.cell _ _ hw (by omega)
    rw [List.getElem?_eq_getElem hlt, hvalue, hcell]
  refine ⟨value, m, hm, h.size, h.isPow, h.mask, hwf, h.tail.congr (by rw [hsame.history]),
    h.head.congr (by rw [hsame.history]), hslots', ?_, ?_, ?_, ?_, ?_⟩
  · obtain ⟨rest, hrest⟩ := hfifo
    rw [← hrest, List.getElem?_append_right le_rfl, Nat.sub_self] at hget
    obtain ⟨rest', rfl⟩ : ∃ rest', rest = value :: rest' := List.head?_eq_some_iff.mp (by
      rw [List.head?_eq_getElem?, hget])
    exact ⟨rest', by rw [← hrest]; simp [ConsumerPc.unreleased]⟩
  · dsimp only
    rw [hsame.seen]
    exact h.room
  · dsimp only
    rw [hsame.seen]
    exact h.unread
  · dsimp only
    rw [hsame.seen]
    exact h.producer
  · dsimp only
    rw [hsame.seen]
    exact .read value hunread

theorem release (h : Sound n s) {value : T} {head : ℕ} (hpc : s.consumer = .read head value) :
    Sound n { s with
      memory := s.memory.storeRelease .consumer .head ((head + 1) &&& s.mask)
      consumer := .idle
      popped := s.popped ++ [value] } := by
  have hslots := h.slots
  have hfifo := h.fifo
  have hknows := h.consumer
  rw [hpc] at hslots hknows hfifo
  cases hknows with
  | read _ hunread =>
    have hlength : (s.popped ++ [value]).length = s.popped.length + 1 := by simp
    rw [h.wrap]
    refine ⟨h.size, h.isPow, h.mask, h.wf.storeRelease .head _, h.tail.congr rfl, ?_, ?_, ?_, h.room, ?_,
      h.producer, .idle⟩
    · rw [hlength]
      exact h.head.storeRelease (hslots.consumer.trans hlength).ge
    · dsimp only [ConsumerPc.unreleased] at hslots ⊢
      rw [List.append_nil (s.popped ++ [value])]
      refine hslots.congr rfl rfl rfl fun t => ?_
      cases t <;> rfl
    · dsimp only [ConsumerPc.unreleased] at hfifo ⊢
      rwa [List.append_nil]
    · rw [hlength]
      exact hunread

/-- **One access of the consumer**, whichever store it loads. -/
theorem consumerStep (h : Sound n s) {store : ℕ}
    {r : Except AccessFault (SpscWeak T × Option (Option T))} (hr : s.consumerStep store = some r) :
    ∃ s' result, r = .ok (s', result) ∧ Sound n s' ∧
      (result = some none → s.popped.length = store) := by
  have hknows := h.consumer
  rcases hpc : s.consumer with _ | head | head | ⟨head, value⟩
  · simp only [SpscWeak.consumerStep, hpc] at hr
    obtain ⟨⟨head, m⟩, hload, rfl⟩ := Option.map_eq_some_iff.mp hr
    obtain ⟨rfl, hlast, message, hget, rfl⟩ := h.wf.loadRelaxed hload rfl
    rw [h.head.length] at hlast
    obtain rfl : store = s.popped.length := by omega
    refine ⟨_, _, rfl, ?_, by simp⟩
    rw [(h.head.store _ _ hget).1]
    have hslots := h.slots
    have hfifo := h.fifo
    rw [hpc] at hslots hfifo
    exact ⟨h.size, h.isPow, h.mask, h.wf, h.tail, h.head, hslots, hfifo, h.room, h.unread, h.producer,
      .loadedHead⟩
  · simp only [SpscWeak.consumerStep, hpc] at hr
    rw [hpc] at hknows
    obtain ⟨⟨tail, m⟩, hload, rfl⟩ := Option.map_eq_some_iff.mp hr
    obtain ⟨hacq, hseen, message, hget, rfl⟩ := h.wf.loadAcquire hload
    obtain ⟨hlt, -⟩ := List.getElem?_eq_some_iff.mp hget
    rw [h.tail.length] at hlt
    have hempty := h.empty_iff hseen (by omega)
    cases hknows with
    | loadedHead =>
      dsimp only
      rw [(h.tail.store _ _ hget).1]
      by_cases heq : s.popped.length % s.size = store % s.size
      · rw [if_pos heq]
        exact ⟨_, _, rfl, h.acquireTail hacq hseen ⟨by rw [hpc]; rfl, rfl⟩ .idle,
          fun _ => hempty.mp heq⟩
      · rw [if_neg heq]
        have hunread := h.unread
        have hne := mt hempty.mpr heq
        exact ⟨_, _, rfl, h.acquireTail hacq hseen ⟨by rw [hpc]; rfl, rfl⟩
          (.nonempty (by omega)), by simp⟩
  · simp only [SpscWeak.consumerStep, hpc] at hr
    rw [hpc] at hknows
    cases hknows with
    | nonempty hunread =>
      obtain ⟨value, m, hm, hsound⟩ := h.readSlot (by rw [hpc]; rfl) hunread
      rw [if_pos (Nat.mod_lt _ h.size_pos), hm] at hr
      cases hr
      exact ⟨_, _, rfl, hsound, by simp⟩
  · simp only [SpscWeak.consumerStep, hpc] at hr
    cases hr
    exact ⟨_, _, rfl, h.release hpc, by simp⟩

/-- Each thread can always take a step: it can load what it has seen. -/
theorem progress (h : Sound n s) : (∀ value, ∃ store r, s.producerStep value store = some r) ∧
    ∃ store r, s.consumerStep store = some r := by
  refine ⟨fun value => ?_, ?_⟩
  · rcases hpc : s.producer with _ | _ | _ | _ <;> simp only [SpscWeak.producerStep, hpc]
    · obtain ⟨r, hr⟩ := Memory.loadRelaxed_isSome le_rfl (h.wf.seen_lt .producer .tail)
      exact ⟨_, _, by rw [hr]; rfl⟩
    · obtain ⟨r, hr⟩ := Memory.loadAcquire_isSome le_rfl (h.wf.seen_lt .producer .head)
      exact ⟨_, _, by rw [hr]; rfl⟩
    · exact ⟨0, _, rfl⟩
    · exact ⟨0, _, rfl⟩
  · rcases hpc : s.consumer with _ | _ | _ | _ <;> simp only [SpscWeak.consumerStep, hpc]
    · obtain ⟨r, hr⟩ := Memory.loadRelaxed_isSome le_rfl (h.wf.seen_lt .consumer .head)
      exact ⟨_, _, by rw [hr]; rfl⟩
    · obtain ⟨r, hr⟩ := Memory.loadAcquire_isSome le_rfl (h.wf.seen_lt .consumer .tail)
      exact ⟨_, _, by rw [hr]; rfl⟩
    · exact ⟨0, _, rfl⟩
    · exact ⟨0, _, rfl⟩

theorem contents (h : Sound n s) : s.pushed = s.popped ++
    (List.range (s.pushed.length - s.popped.length)).map
      fun i => s.memory.cell ((s.popped.length + i) % s.size) := by
  have hwrites := h.writes_le
  have hseen := h.head.seen_le h.wf .producer
  obtain ⟨rest, hrest⟩ : s.popped <+: s.pushed := (List.prefix_append ..).trans h.fifo
  have hlength : s.pushed.length - s.popped.length = rest.length := by
    rw [← hrest, List.length_append]
    omega
  rw [hlength]
  conv_lhs => rw [← hrest]
  congr 1
  refine List.ext_getElem (by simp) fun i hi _ => ?_
  have hget : (s.pushed ++ s.producer.unpublished)[s.popped.length + i]? = some rest[i] := by
    rw [← hrest, List.append_assoc, List.getElem?_append_right (Nat.le_add_right ..),
      Nat.add_sub_cancel_left, List.getElem?_append_left hi, List.getElem?_eq_getElem hi]
  rw [List.getElem_map, List.getElem_range, (h.slots.cell _ _ hget (by omega)).1]

end Sound

/-! ## Whole runs -/

section Runs

variable {n : ℕ} {queue : SpscQueue T} {s s' : SpscWeak T}

theorem Publishes.start {m : SpscMemory T} {size : ℕ} {index : SpscIndex}
    (h : m.history index = [⟨0, ⊥⟩]) : Publishes m size index 0 := by
  refine ⟨by rw [h]; rfl, fun k message hget => ?_⟩
  rw [h] at hget
  obtain ⟨hlt, rfl⟩ := List.getElem?_eq_some_iff.mp hget
  obtain rfl : k = 0 := Nat.lt_one_iff.mp hlt
  exact ⟨(Nat.zero_mod _).symm, Nat.zero_le _⟩

theorem Sound.start [Inhabited T] {minimum : ℕ} (h : SpscQueue.new minimum = .ok queue) :
    Sound queue.buffer.size (SpscWeak.start queue) := by
  obtain ⟨hwf, -, -⟩ := SpscQueue.WF.new h
  have hzero : queue.head = 0 ∧ queue.tail = 0 := by
    simp only [SpscQueue.new, SpscQueue.storageCapacity, bind, Except.bind] at h
    split_ifs at h
    cases h
    exact ⟨rfl, rfl⟩
  have hpos := hwf.head_lt
  refine ⟨rfl, hwf.isPow, hwf.mask, .init _ _, .start ?_, .start ?_, ?_, List.prefix_rfl, ?_, le_rfl,
    .idle, .idle⟩
  · simp only [SpscWeak.start, Memory.init, hzero]
  · simp only [SpscWeak.start, Memory.init, hzero]
  · exact ⟨rfl, rfl, fun i value hget => by simp [SpscWeak.start, ProducerPc.unpublished] at hget,
      fun _ => Or.inl rfl, fun _ => ⟨rfl, rfl⟩⟩
  · simp only [SpscWeak.start, List.length_nil]
    omega

theorem Sound.step (h : Sound n s) (hstep : s.Step s') : Sound n s' := by
  cases hstep with
  | producer value store hp =>
    obtain ⟨_, _, heq, h', -⟩ := h.producerStep hp
    cases heq
    exact h'
  | consumer store hc =>
    obtain ⟨_, _, heq, h', -⟩ := h.consumerStep hc
    cases heq
    exact h'

theorem Sound.steps (h : Sound n s) (hsteps : Relation.ReflTransGen SpscWeak.Step s s') :
    Sound n s' := by
  induction hsteps with
  | refl => exact h
  | tail _ hstep ih => exact ih.step hstep

/-- **A bounded first-in first-out queue on release/acquire memory.** However the accesses of one producer
and one consumer interleave, and whichever stores their loads return: both threads can go on, and no
access races or leaves the buffer; the values popped are the first of those pushed, and the others are in
their slots, at most all slots but one; a push fails only if the pops it has seen leave that many values,
a pop only if all values it has seen are popped. -/
theorem spsc_release_acquire [Inhabited T] {minimum : ℕ} (hnew : SpscQueue.new minimum = .ok queue)
    (h : Relation.ReflTransGen SpscWeak.Step (.start queue) s) :
    ((∀ value, ∃ store r, s.producerStep value store = some r) ∧
      ∃ store r, s.consumerStep store = some r) ∧
      (∀ value store r, s.producerStep value store = some r → ∃ s' result, r = .ok (s', result)) ∧
      (∀ store r, s.consumerStep store = some r → ∃ s' result, r = .ok (s', result)) ∧
      s.pushed = s.popped ++ (List.range (s.pushed.length - s.popped.length)).map
        (fun i => s.memory.cell ((s.popped.length + i) % queue.buffer.size)) ∧
      (s.pushed.length ≤ s.popped.length + (queue.buffer.size - 1) ∧
        minimum ≤ queue.buffer.size - 1) ∧
      (∀ value store s', s.producerStep value store = some (.ok (s', some false)) →
        s.pushed.length = store + (queue.buffer.size - 1) ∧ store ≤ s.popped.length) ∧
      ∀ store s', s.consumerStep store = some (.ok (s', some none)) → s.popped.length = store := by
  have hsound := (Sound.start hnew).steps h
  have hpos := hsound.size_pos
  have hwrites := hsound.room
  have hseen := hsound.head.seen_le hsound.wf .producer
  have hsize := hsound.size
  refine ⟨hsound.progress, fun value store r hr => ?_, fun store r hr => ?_, hsize ▸ hsound.contents,
    ⟨by omega, (SpscQueue.WF.new hnew).2.2⟩, fun value store s' hp => ?_, fun store s' hc => ?_⟩
  · obtain ⟨s', result, hok, -⟩ := hsound.producerStep hr
    exact ⟨s', result, hok⟩
  · obtain ⟨s', result, hok, -⟩ := hsound.consumerStep hr
    exact ⟨s', result, hok⟩
  · obtain ⟨_, _, heq, -, hfull⟩ := hsound.producerStep hp
    cases heq
    have := hfull rfl
    omega
  · obtain ⟨_, _, heq, -, hempty⟩ := hsound.consumerStep hc
    cases heq
    exact hempty rfl

/-- A pop that loads an old `tail` after a value was pushed, and fails. -/
theorem spsc_release_acquire_stale_pop : ∃ s s' : SpscWeak ℕ,
    SpscQueue.new 1 = .ok (⟨#[0, 0], 1, 0, 0⟩ : SpscQueue ℕ) ∧
      Relation.ReflTransGen SpscWeak.Step (.start ⟨#[0, 0], 1, 0, 0⟩) s ∧
      s.pushed = [5] ∧ s.popped = [] ∧ s.consumerStep 0 = some (.ok (s', some none)) ∧
      s.memory.cell 0 = 5 := by
  have hnew : SpscQueue.new 1 = .ok (⟨#[0, 0], 1, 0, 0⟩ : SpscQueue ℕ) := by decide
  obtain ⟨s, hrun, hpushed, hpopped, s', hstep⟩ : ∃ s : SpscWeak ℕ,
      Relation.ReflTransGen SpscWeak.Step (.start ⟨#[0, 0], 1, 0, 0⟩) s ∧
        s.pushed = [5] ∧ s.popped = [] ∧ ∃ s', s.consumerStep 0 = some (.ok (s', some none)) :=
    ⟨_, .head (.producer 5 0 rfl) (.head (.producer 5 0 rfl) (.head (.producer 5 0 rfl)
      (.head (.producer 5 0 rfl) (.head (.consumer 0 rfl) .refl)))), rfl, rfl, _, rfl⟩
  obtain ⟨-, -, -, hcontents, -⟩ := spsc_release_acquire hnew hrun
  rw [hpushed, hpopped] at hcontents
  exact ⟨s, s', hnew, hrun, hpushed, hpopped, hstep, (List.cons.inj hcontents).1.symm⟩

end Runs

end Dme
