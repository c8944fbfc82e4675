import Mathlib

/-!
# Runs and what they emit

* `Path step s l t`: steps one after another lead from `s` to `t`, and emit `l` together.
* **`Path.invariant`**: what each step keeps, of the state and of all that was emitted so far.
-/

set_option autoImplicit false

namespace Labelled

variable {σ ε : Type} {step : σ → List ε → σ → Prop} {s t u : σ} {l l' : List ε}

/-- Steps one after another, with all they emit. -/
inductive Path (step : σ → List ε → σ → Prop) : σ → List ε → σ → Prop
  | refl (s : σ) : Path step s [] s
  | tail {s t u : σ} {l l' : List ε} (h : Path step s l t) (hstep : step t l' u) :
    Path step s (l ++ l') u

theorem Path.single (h : step s l t) : Path step s l t := Path.tail (.refl s) h

theorem Path.trans (h : Path step s l t) (h' : Path step t l' u) : Path step s (l ++ l') u := by
  induction h' with
  | refl => rwa [List.append_nil]
  | tail _ hstep ih =>
    rw [← List.append_assoc]
    exact ih.tail hstep

/-- **The rule of invariants.** -/
theorem Path.invariant {P : σ → List ε → Prop}
    (hstep : ∀ s l l' t, P s l → step s l' t → P t (l ++ l')) (h : Path step s l' t) (hs : P s l) :
    P t (l ++ l') := by
  induction h with
  | refl => rwa [List.append_nil]
  | tail _ hlast ih =>
    rw [← List.append_assoc]
    exact hstep _ _ _ _ ih hlast

end Labelled
