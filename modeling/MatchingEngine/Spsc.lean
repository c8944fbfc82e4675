import MatchingEngine.Lib.Ring
import MatchingEngine.Types

/-!
# The single-producer single-consumer queue

`SpscQueue` of `spsc_queue.hpp`, with `try_push` and `try_pop` each taken as one step.

* `SpscQueue.new`, `tryPush`, `tryPop`, as the source computes them.
* `contents`: the values between `head` and `tail`.
* `WF.write`, `WF.publish`, `WF.release`: what each access does to them.
* **`WF.tryPush`**, **`WF.tryPop`**: the queue is a bounded first-in first-out queue of
  `buffer.size - 1` values.
-/

set_option autoImplicit false

namespace Dme

/-- The queue: a ring of cells with the position to pop from and the one to push to. -/
structure SpscQueue (T : Type) where
  buffer : Array T
  mask : ℕ
  head : ℕ := 0
  tail : ℕ := 0
deriving DecidableEq, Repr

namespace SpscQueue

variable {T : Type}

/-- `storage_capacity`: a power of two with a cell to spare. -/
def storageCapacity (minimum : ℕ) : Except Fault ℕ :=
  if minimum = 0 ∨ minimum ≥ 2 ^ 63 then .error (.invalidArgument "invalid SPSC queue capacity")
  else .ok (bitCeil (minimum + 1))

/-- The constructor. -/
def new [Inhabited T] (minimumCapacity : ℕ) : Except Fault (SpscQueue T) := do
  let capacity ← storageCapacity minimumCapacity
  .ok { buffer := Array.replicate capacity default, mask := capacity - 1 }

/-- `try_push`; `false` if the queue is full. -/
def tryPush (queue : SpscQueue T) (value : T) : Except Fault (Bool × SpscQueue T) :=
  let next := (queue.tail + 1) &&& queue.mask
  if next = queue.head then .ok (false, queue)
  else do
    let buffer ← vecSet queue.buffer queue.tail value
    .ok (true, { queue with buffer, tail := next })

/-- The value popped, if there is one. -/
def tryPop (queue : SpscQueue T) : Except Fault (Option T × SpscQueue T) :=
  if queue.head = queue.tail then .ok (none, queue)
  else do
    let value ← vecGet queue.buffer queue.head
    .ok (some value, { queue with head := (queue.head + 1) &&& queue.mask })

/-! ## A bounded queue -/

/-- **A well-formed queue**: a power of two of cells, the mask that wraps around it, and two
positions. -/
structure WF (queue : SpscQueue T) : Prop where
  isPow : ∃ k, queue.buffer.size = 2 ^ k
  mask : queue.mask = queue.buffer.size - 1
  head_lt : queue.head < queue.buffer.size
  tail_lt : queue.tail < queue.buffer.size

variable [Inhabited T] {queue : SpscQueue T}

/-- The values in the queue, the oldest first. -/
def contents (queue : SpscQueue T) : List T :=
  Ring.contents (vecAt queue.buffer) queue.buffer.size queue.head queue.tail

omit [Inhabited T] in
theorem WF.step (h : queue.WF) {p : ℕ} (hp : p < queue.buffer.size) :
    (p + 1) &&& queue.mask = Circle.step queue.buffer.size p := by
  obtain ⟨k, hk⟩ := h.isPow
  rw [h.mask, Circle.succ_and_mask hk hp]

theorem WF.new {minimum : ℕ} (h : SpscQueue.new minimum = .ok queue) :
    queue.WF ∧ queue.contents = [] ∧ minimum ≤ queue.buffer.size - 1 := by
  simp only [SpscQueue.new, storageCapacity, bind, Except.bind] at h
  split_ifs at h with hbad
  cases h
  obtain ⟨k, hk⟩ := bitCeil_isPow (minimum + 1)
  have hle := le_bitCeil (minimum + 1)
  refine ⟨⟨⟨k, by simpa using hk⟩, by simp, ?_, ?_⟩, ?_, ?_⟩
  · simp only [Array.size_replicate]
    omega
  · simp only [Array.size_replicate]
    omega
  · simp [contents, Ring.contents, Circle.gap, Ring.window]
  · simp only [Array.size_replicate]
    omega

theorem WF.write (h : queue.WF) (value : T) :
    WF { queue with buffer := queue.buffer.setIfInBounds queue.tail value } ∧
      contents { queue with buffer := queue.buffer.setIfInBounds queue.tail value } =
        queue.contents := by
  refine ⟨⟨by simpa using h.isPow, by simpa using h.mask, by simpa using h.head_lt,
    by simpa using h.tail_lt⟩, ?_⟩
  simp only [contents, Array.size_setIfInBounds]
  exact Ring.contents_congr h.head_lt h.tail_lt
    fun p hp => vecAt_set_ne h.tail_lt (Ne.symm hp) value

theorem WF.publish (h : queue.WF)
    (hroom : Circle.gap queue.buffer.size queue.head queue.tail + 1 < queue.buffer.size) :
    WF { queue with tail := Circle.step queue.buffer.size queue.tail } ∧
      contents { queue with tail := Circle.step queue.buffer.size queue.tail } =
        queue.contents ++ [vecAt queue.buffer queue.tail] :=
  ⟨⟨h.isPow, h.mask, h.head_lt, Circle.step_lt h.tail_lt⟩,
    Ring.contents_publish _ h.head_lt h.tail_lt hroom⟩

theorem WF.release (h : queue.WF) (hne : queue.head ≠ queue.tail) :
    WF { queue with head := Circle.step queue.buffer.size queue.head } ∧
      queue.contents = vecAt queue.buffer queue.head ::
        contents { queue with head := Circle.step queue.buffer.size queue.head } :=
  ⟨⟨h.isPow, h.mask, Circle.step_lt h.head_lt, h.tail_lt⟩,
    Ring.contents_pop _ h.head_lt h.tail_lt hne⟩

omit [Inhabited T] in
theorem WF.full_or_room (h : queue.WF) :
    (Circle.step queue.buffer.size queue.tail = queue.head ∧
      Circle.gap queue.buffer.size queue.head queue.tail = queue.buffer.size - 1) ∨
    (Circle.step queue.buffer.size queue.tail ≠ queue.head ∧
      Circle.gap queue.buffer.size queue.head queue.tail + 1 < queue.buffer.size) := by
  have hgap := Circle.gap_lt (a := queue.head) h.tail_lt
  have hfull := Ring.full_iff h.head_lt h.tail_lt
  by_cases heq : Circle.step queue.buffer.size queue.tail = queue.head
  · have := hfull.mp heq
    exact Or.inl ⟨heq, by omega⟩
  · have := mt hfull.mpr heq
    exact Or.inr ⟨heq, by omega⟩

/-- **Pushing** appends, unless the queue is full. -/
theorem WF.tryPush (h : queue.WF) (value : T) :
    (queue.contents.length = queue.buffer.size - 1 ∧ queue.tryPush value = .ok (false, queue)) ∨
      queue.contents.length < queue.buffer.size - 1 ∧
        ∃ queue', queue.tryPush value = .ok (true, queue') ∧ queue'.WF ∧
          queue'.buffer.size = queue.buffer.size ∧ queue'.contents = queue.contents ++ [value] := by
  rw [contents, Ring.length_contents, SpscQueue.tryPush]
  simp only [h.step h.tail_lt]
  rcases h.full_or_room with ⟨hfull, hgap⟩ | ⟨hfree, hroom⟩
  · exact Or.inl ⟨hgap, if_pos hfull⟩
  · obtain ⟨hwf, hsame⟩ := h.write value
    have hsize : (queue.buffer.setIfInBounds queue.tail value).size = queue.buffer.size := by simp
    obtain ⟨hwf', hcontents⟩ := hwf.publish (by simpa only [hsize] using hroom)
    refine Or.inr ⟨by omega, _, ?_, hwf', hsize, ?_⟩
    · rw [if_neg hfree, vecSet_eq h.tail_lt]
      simp only [hsize]
      rfl
    · rw [hcontents, hsame, vecAt_set_self h.tail_lt]
      rfl

/-- **Popping** takes the first value, if there is one. -/
theorem WF.tryPop (h : queue.WF) :
    (queue.contents = [] ∧ queue.tryPop = .ok (none, queue)) ∨
      ∃ value rest queue', queue.contents = value :: rest ∧
        queue.tryPop = .ok (some value, queue') ∧ queue'.WF ∧
        queue'.buffer.size = queue.buffer.size ∧ queue'.contents = rest := by
  rw [SpscQueue.tryPop]
  by_cases he : queue.head = queue.tail
  · exact Or.inl ⟨(Ring.contents_eq_nil_iff _ h.head_lt).mpr he, if_pos he⟩
  · obtain ⟨hwf, hcontents⟩ := h.release he
    refine Or.inr ⟨vecAt queue.buffer queue.head, _, _, hcontents, ?_, hwf, rfl, rfl⟩
    rw [if_neg he, vecGet_eq h.head_lt, h.step h.head_lt]
    rfl

end SpscQueue

end Dme
