import Mathlib

/-!
# Positions around a circle

The positions below `n`, the last one followed by the first.

* `step n p`: the next position (`succ_and_mask`: with a mask, where `n` is a power of two).
* `gap n a p`: how many steps lead from `a` to `p`, and how a step at either end changes it.
-/

set_option autoImplicit false

namespace Circle

/-- The number of steps from position `a` to position `p`. -/
def gap (n a p : ℕ) : ℕ := if a ≤ p then p - a else n + p - a

/-- The position after `p`. -/
def step (n p : ℕ) : ℕ := if p + 1 < n then p + 1 else 0

variable {n a p q : ℕ}

theorem step_lt (hp : p < n) : step n p < n := by unfold step; split_ifs <;> omega

theorem gap_lt (hp : p < n) : gap n a p < n := by
  unfold gap; split_ifs <;> omega

theorem gap_self : gap n a a = 0 := by simp [gap]

theorem gap_eq_zero (ha : a < n) : gap n a p = 0 ↔ a = p := by
  unfold gap; split_ifs <;> omega

theorem gap_inj (ha : a < n) (hp : p < n) (hq : q < n) (h : gap n a p = gap n a q) : p = q := by
  unfold gap at h; split_ifs at h <;> omega

theorem gap_step_left (ha : a < n) (hp : p < n) (hne : a ≠ p) :
    gap n a p = gap n (step n a) p + 1 := by
  unfold gap step; split_ifs <;> omega

theorem gap_succ {m : ℕ} (ha : a < n) (hp : p < n) (h : gap n a p = m + 1) :
    a ≠ p ∧ gap n (step n a) p = m := by
  have hne : a ≠ p := by
    rintro rfl
    rw [gap_self] at h
    omega
  have hstep := gap_step_left ha hp hne
  exact ⟨hne, by omega⟩

theorem gap_step_right (ha : a < n) (hp : p < n) (h : gap n a p + 1 < n) :
    gap n a (step n p) = gap n a p + 1 := by
  unfold gap step at *; split_ifs at * <;> omega

theorem gap_step_wrap (ha : a < n) (hp : p < n) (h : gap n a p + 1 = n) : step n p = a := by
  unfold gap step at *; split_ifs at * <;> omega

/-- A step on a circle of a power of two of positions, computed with a mask. -/
theorem succ_and_mask {k : ℕ} (hn : n = 2 ^ k) (hp : p < n) : (p + 1) &&& (n - 1) = step n p := by
  rw [hn, Nat.and_two_pow_sub_one_eq_mod, ← hn, step]
  split_ifs with h
  · exact Nat.mod_eq_of_lt h
  · rw [show p + 1 = n by omega, Nat.mod_self]

end Circle
