import Mathlib.Data.List.Basic
import Mathlib.Tactic.Common

/-!
# Logs behind checkpoints

A history of numbered entries is kept as a checkpoint of its first `k` entries and a log. Entries of the
log that the checkpoint covers may be missing or left over; those after it are the rest of the history.

* `later k log`: the entries of the log after the checkpoint.
* **`Backed`**: the checkpoint and the log make up the history. `Backed.concat`: the next entry;
  `Backed.checkpoint`: a checkpoint of the whole; **`Backed.cut`**: what a cut of the log leaves.
-/

set_option autoImplicit false

namespace Checkpoint

variable {α : Type} (number : α → ℕ)

/-- The entries after the first `k`, by their numbers. -/
def later (k : ℕ) (log : List α) : List α := log.filter fun a => k < number a

/-- **A checkpoint of `k` entries and a log make up a history**, whose entries are numbered from `1` on. -/
structure Backed (history log : List α) (k : ℕ) : Prop where
  numbered : ∀ i a, history[i]? = some a → number a = i + 1
  le : k ≤ history.length
  later : later number k log = history.drop k

variable {number} {history log : List α} {k : ℕ}

theorem Backed.nil : Backed number [] [] 0 := ⟨fun i a h => by simp at h, Nat.le_refl _, rfl⟩

theorem Backed.number_le (h : Backed number history log k) {a : α} (ha : a ∈ log) :
    number a ≤ history.length := by
  by_cases hk : k < number a
  · have hmem : a ∈ Checkpoint.later number k log := List.mem_filter.mpr ⟨ha, by simpa using hk⟩
    rw [h.later] at hmem
    obtain ⟨i, hi, rfl⟩ := List.getElem_of_mem (List.mem_of_mem_drop hmem)
    rw [h.numbered i _ (List.getElem?_eq_getElem hi)]
    exact hi
  · have := h.le
    omega

/-- **The next entry** goes to both. -/
theorem Backed.concat (h : Backed number history log k) {a : α}
    (ha : number a = history.length + 1) : Backed number (history ++ [a]) (log ++ [a]) k := by
  have hle := h.le
  refine ⟨fun i b hb => ?_, by rw [List.length_append]; omega, ?_⟩
  · by_cases hi : i < history.length
    · rw [List.getElem?_append_left hi] at hb
      exact h.numbered i b hb
    · obtain ⟨hlt, rfl⟩ := List.getElem?_eq_some_iff.mp hb
      rw [List.length_append, List.length_singleton] at hlt
      obtain rfl : i = history.length := by omega
      simpa using ha
  · have hk : k < number a := by omega
    rw [Checkpoint.later, List.filter_append, ← Checkpoint.later, h.later,
      List.drop_append_of_le_length hle]
    simp [hk]

/-- **A checkpoint of the whole history** needs nothing of the log. -/
theorem Backed.checkpoint (h : Backed number history log k) :
    Backed number history log history.length := by
  refine ⟨h.numbered, Nat.le_refl _, ?_⟩
  rw [List.drop_length, Checkpoint.later, List.filter_eq_nil_iff]
  intro a ha
  have := h.number_le ha
  simpa using this

/-- **A cut of the log** leaves the beginning of the history, down to the checkpoint at most. -/
theorem Backed.cut (h : Backed number history log k) (n : ℕ) :
    ∃ m, k ≤ m ∧ Backed number (history.take m) (log.take n) k := by
  have hprefix : Checkpoint.later number k (log.take n) <+: history.drop k := by
    rw [← h.later]
    exact (List.take_prefix n log).filter _
  have heq := List.prefix_iff_eq_take.mp hprefix
  have hlen := hprefix.length_le
  rw [List.length_drop] at hlen
  have hle := h.le
  refine ⟨k + (Checkpoint.later number k (log.take n)).length, Nat.le_add_right .., ?_, ?_, ?_⟩
  · intro i a ha
    rw [List.getElem?_take] at ha
    split_ifs at ha
    exact h.numbered i a ha
  · rw [List.length_take]
    omega
  · rw [List.drop_take, Nat.add_sub_cancel_left, ← heq]

end Checkpoint
