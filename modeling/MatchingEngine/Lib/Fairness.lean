import Mathlib.Order.Filter.AtTopBot.Basic
import Mathlib.Tactic.Common

/-!
# Fair schedules

Parties take turns in an endless schedule. A rank says how far a state is from its goal; a party is
helpful in a state when its next turn lowers the rank, whatever the others do before.

* **`Helpful`**: no turn raises the rank, and while it is not `0` some party is helpful and stays so.
* `Helpful.lowers`: a helpful party that has its turn again and again lowers the rank.
* **`Helpful.eventually`**: if every helpful party has, the rank is `0` from some time on.
-/

set_option autoImplicit false

namespace Fairness

open Filter

variable {σ β : Type}

/-- **A rank and the parties that lower it**, in the states of an invariant. -/
structure Helpful (step : β → σ → σ → Prop) (inv : σ → Prop) (rank : σ → ℕ)
    (helps : β → σ → Prop) : Prop where
  keep : ∀ {b s s'}, inv s → step b s s' → inv s'
  le : ∀ {b s s'}, inv s → step b s s' → rank s' ≤ rank s
  some : ∀ {s}, inv s → rank s ≠ 0 → ∃ b, helps b s
  lower : ∀ {b s s'}, inv s → helps b s → step b s s' → rank s' < rank s
  stay : ∀ {b c s s'}, inv s → helps b s → step c s s' → rank s' < rank s ∨ helps b s'

variable {step : β → σ → σ → Prop} {inv : σ → Prop} {rank : σ → ℕ} {helps : β → σ → Prop}
  {schedule : ℕ → β} {state : ℕ → σ}

theorem Helpful.always (h : Helpful step inv rank helps)
    (hrun : ∀ t, step (schedule t) (state t) (state (t + 1))) {t u : ℕ} (hinv : inv (state t))
    (htu : t ≤ u) : inv (state u) :=
  Nat.le_induction hinv (fun u _ ih => h.keep ih (hrun u)) u htu

theorem Helpful.rank_le (h : Helpful step inv rank helps)
    (hrun : ∀ t, step (schedule t) (state t) (state (t + 1))) {t u : ℕ} (hinv : inv (state t))
    (htu : t ≤ u) : rank (state u) ≤ rank (state t) :=
  Nat.le_induction le_rfl
    (fun u hu ih => (h.le (h.always hrun hinv hu) (hrun u)).trans ih) u htu

/-- **A helpful party whose turn comes lowers the rank**, if no other turn has before. -/
theorem Helpful.lowers (h : Helpful step inv rank helps)
    (hrun : ∀ t, step (schedule t) (state t) (state (t + 1))) {t : ℕ} (hinv : inv (state t)) {b : β}
    (hb : helps b (state t)) (hturn : ∃ᶠ u in atTop, schedule u = b) :
    ∃ u, t ≤ u ∧ rank (state u) < rank (state t) := by
  obtain ⟨u, htu, hu⟩ := frequently_atTop.mp hturn t
  -- up to the turn of `b`, the rank has fallen or `b` is still helpful
  have hwait : ∀ v, t ≤ v → rank (state v) < rank (state t) ∨ helps b (state v) := by
    intro v htv
    induction v, htv using Nat.le_induction with
    | base => exact .inr hb
    | succ v htv ih =>
      have hinv' := h.always hrun hinv htv
      rcases ih with hlt | hhelps
      · exact .inl ((h.le hinv' (hrun v)).trans_lt hlt)
      · exact (h.stay hinv' hhelps (hrun v)).imp_left fun hlt =>
          hlt.trans_le (h.rank_le hrun hinv htv)
  rcases hwait u htu with hlt | hhelps
  · exact ⟨u, htu, hlt⟩
  · have hlower := h.lower (h.always hrun hinv htu) hhelps (hu ▸ hrun u)
    exact ⟨u + 1, Nat.le_succ_of_le htu, hlower.trans_le (h.rank_le hrun hinv htu)⟩

/-- **Under a fair schedule the rank is `0` from some time on.** -/
theorem Helpful.eventually (h : Helpful step inv rank helps)
    (hrun : ∀ t, step (schedule t) (state t) (state (t + 1))) {t : ℕ} (hinv : inv (state t))
    (hfair : ∀ b s, helps b s → ∃ᶠ u in atTop, schedule u = b) :
    ∀ᶠ u in atTop, inv (state u) ∧ rank (state u) = 0 := by
  -- by induction on the rank that is reached
  have hreach : ∀ n t, inv (state t) → rank (state t) ≤ n →
      ∃ u, inv (state u) ∧ rank (state u) = 0 := by
    intro n
    induction n with
    | zero => exact fun t hinv ht => ⟨t, hinv, Nat.le_zero.mp ht⟩
    | succ n ih =>
      intro t hinv ht
      by_cases hzero : rank (state t) = 0
      · exact ⟨t, hinv, hzero⟩
      · obtain ⟨b, hb⟩ := h.some hinv hzero
        obtain ⟨u, htu, hlt⟩ := h.lowers hrun hinv hb (hfair b _ hb)
        exact ih u (h.always hrun hinv htu) (Nat.le_of_lt_succ (hlt.trans_le ht))
  obtain ⟨u, hu, hzero⟩ := hreach _ t hinv le_rfl
  filter_upwards [eventually_ge_atTop u] with v hv
  exact ⟨h.always hrun hu hv, Nat.le_zero.mp ((h.rank_le hrun hu hv).trans_eq hzero)⟩

end Fairness
