import MatchingEngine.Lib.Circle

/-!
# Ring buffers

A ring of `n` cells holds a queue between the positions `head` and `tail`; one cell stays free.

* `window`: the cells from a position on; `contents`: those between `head` and `tail`.
* `contents_congr`, **`contents_publish`**, **`contents_pop`**: the cell at `tail` is free to write,
  stepping `tail` appends it, stepping `head` removes the first; `tail_notMem_contents`.
* `length_contents`, `contents_eq_nil_iff`, `full_iff`: empty and full, told from the positions.
-/

set_option autoImplicit false

namespace Ring

open Circle

variable {α : Type} {n head tail : ℕ}

/-- The values of `m` cells, from position `p` on. -/
def window (cell : ℕ → α) (n : ℕ) : ℕ → ℕ → List α
  | 0, _ => []
  | m + 1, p => cell p :: window cell n m (step n p)

/-- The queue between `head` and `tail`. -/
def contents (cell : ℕ → α) (n head tail : ℕ) : List α := window cell n (gap n head tail) head

theorem length_window (cell : ℕ → α) (m p : ℕ) : (window cell n m p).length = m := by
  induction m generalizing p with
  | zero => rfl
  | succ m ih => rw [window, List.length_cons, ih]

theorem length_contents (cell : ℕ → α) : (contents cell n head tail).length = gap n head tail :=
  length_window ..

theorem contents_eq_nil_iff (cell : ℕ → α) (hh : head < n) :
    contents cell n head tail = [] ↔ head = tail := by
  rw [← List.length_eq_zero_iff, length_contents, gap_eq_zero hh]

theorem full_iff (hh : head < n) (ht : tail < n) :
    step n tail = head ↔ gap n head tail + 1 = n := by
  refine ⟨fun h => ?_, gap_step_wrap hh ht⟩
  by_contra hne
  have hlt := gap_lt (a := head) ht
  have := gap_step_right hh ht (by omega)
  rw [h, gap_self] at this
  omega

theorem contents_congr {cell cell' : ℕ → α} (hh : head < n) (ht : tail < n)
    (hcell : ∀ p, p ≠ tail → cell' p = cell p) :
    contents cell' n head tail = contents cell n head tail := by
  unfold contents
  generalize hm : gap n head tail = m
  induction m generalizing head with
  | zero => rfl
  | succ m ih =>
    obtain ⟨hne, hm'⟩ := gap_succ hh ht hm
    rw [window, window, hcell head hne, ih (step_lt hh) hm']

theorem contents_publish (cell : ℕ → α) (hh : head < n) (ht : tail < n)
    (hroom : gap n head tail + 1 < n) :
    contents cell n head (step n tail) = contents cell n head tail ++ [cell tail] := by
  rw [contents, contents, gap_step_right hh ht hroom]
  generalize hm : gap n head tail = m at hroom ⊢
  clear hroom
  induction m generalizing head with
  | zero =>
    obtain rfl := (gap_eq_zero hh).mp hm
    rfl
  | succ m ih =>
    obtain ⟨hne, hm'⟩ := gap_succ hh ht hm
    rw [window, ih (step_lt hh) hm', window, List.cons_append]

/-- **Removing the first**: `head` steps. -/
theorem contents_pop (cell : ℕ → α) (hh : head < n) (ht : tail < n) (hne : head ≠ tail) :
    contents cell n head tail = cell head :: contents cell n (step n head) tail := by
  rw [contents, contents, gap_step_left hh ht hne, window]

theorem tail_notMem_contents (hh : head < n) (ht : tail < n) : tail ∉ contents id n head tail := by
  unfold contents
  generalize hm : gap n head tail = m
  induction m generalizing head with
  | zero => exact List.not_mem_nil
  | succ m ih =>
    obtain ⟨hne, hm'⟩ := gap_succ hh ht hm
    rw [window, List.mem_cons, not_or]
    exact ⟨Ne.symm hne, ih (step_lt hh) hm'⟩

end Ring
