import Mathlib.Data.List.Basic
import Mathlib.Tactic.Common

/-!
# Checksums computed byte by byte

A checksum is a fold of a step over the entries of a list. If the step is injective in its state, and in
the entry it takes, then no change of a single entry goes unnoticed.

* `foldl_injective`: the state at the end determines the state at the start.
* **`foldl_set_ne`**: a change of one entry changes the checksum.
-/

set_option autoImplicit false

namespace Checksum

variable {σ β : Type} {step : σ → β → σ}

theorem foldl_injective (hstate : ∀ b, Function.Injective fun s => step s b) (l : List β) :
    Function.Injective fun s => l.foldl step s := by
  induction l with
  | nil => exact fun s s' h => h
  | cons b l ih => exact fun s s' h => hstate b (ih h)

/-- **A change of one entry changes the checksum.** -/
theorem foldl_set_ne (hstate : ∀ b, Function.Injective fun s => step s b)
    (hentry : ∀ s, Function.Injective (step s)) {l : List β} {i : ℕ} {b : β} (hi : i < l.length)
    (hb : l[i]? ≠ some b) (s : σ) : (l.set i b).foldl step s ≠ l.foldl step s := by
  induction l generalizing i s with
  | nil => cases hi
  | cons c l ih =>
    cases i with
    | zero =>
      intro h
      exact hb (congrArg some (hentry s (foldl_injective hstate l h)).symm)
    | succ i => exact ih (Nat.lt_of_succ_lt_succ hi) hb (step s c)

end Checksum
