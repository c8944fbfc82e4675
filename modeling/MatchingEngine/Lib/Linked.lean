import Mathlib

/-!
# Intrusive doubly linked lists

Nodes of an arbitrary type carry a `next` and a `prev` link; `null` marks the ends.

* **`Seg next prev p l x`**: the nodes of `l` are linked in order, the first coming after `p` and
  the last before `x` (`seg_append`, `seg_congr`, `Seg.links_eq`).
* `Seg.push`, `Seg.remove`: appending a node and unlinking one, from the links written.
* `Reads step null n l`: following one link from `n` reads `l` and ends at `null`
  (`Seg.reads_next`, `Seg.reads_prev`).
-/

set_option autoImplicit false

namespace Linked

variable {ι : Type} {next prev next' prev' : ι → ι} {p x p' x' null n : ι} {l l₁ l₂ : List ι}

/-- The nodes of `l` are linked, between `p` and `x`. -/
def Seg (next prev : ι → ι) : ι → List ι → ι → Prop
  | _, [], _ => True
  | p, n :: l, x => prev n = p ∧ next n = l.headD x ∧ Seg next prev n l x

theorem headD_append (l₁ l₂ : List ι) (x : ι) : (l₁ ++ l₂).headD x = l₁.headD (l₂.headD x) := by
  cases l₁ <;> rfl

theorem seg_append : Seg next prev p (l₁ ++ l₂) x ↔
    Seg next prev p l₁ (l₂.headD x) ∧ Seg next prev (l₁.getLastD p) l₂ x := by
  induction l₁ generalizing p with
  | nil => simp [Seg]
  | cons n l₁ ih =>
    rw [List.cons_append, Seg, Seg, ih, headD_append, List.getLastD_cons]
    tauto

theorem seg_congr (hn : ∀ m ∈ l, next' m = next m) (hp : ∀ m ∈ l, prev' m = prev m)
    (h : Seg next prev p l x) : Seg next' prev' p l x := by
  induction l generalizing p with
  | nil => trivial
  | cons n l ih =>
    rw [Seg] at h ⊢
    refine ⟨by rw [hp n (by simp)]; exact h.1, by rw [hn n (by simp)]; exact h.2.1, ?_⟩
    exact ih (fun m hm => hn m (by simp [hm])) (fun m hm => hp m (by simp [hm])) h.2.2

theorem Seg.links_eq (h : Seg next prev p l x) (h' : Seg next' prev' p l x) :
    ∀ m ∈ l, next' m = next m ∧ prev' m = prev m := by
  induction l generalizing p with
  | nil => simp
  | cons n l ih =>
    rw [Seg] at h h'
    intro m hm
    rcases List.mem_cons.mp hm with rfl | hm
    · exact ⟨h'.2.1.trans h.2.1.symm, h'.1.trans h.1.symm⟩
    · exact ih h.2.2 h'.2.2 m hm

theorem Seg.relink_first [DecidableEq ι] (h : Seg next prev p l x) (hd : l.Nodup)
    (hn : ∀ m ∈ l, next' m = next m)
    (hp : ∀ m ∈ l, prev' m = if m = l.headD x then p' else prev m) : Seg next' prev' p' l x := by
  cases l with
  | nil => trivial
  | cons n l =>
    rw [List.nodup_cons] at hd
    rw [Seg] at h ⊢
    refine ⟨by rw [hp n (by simp)]; simp, by rw [hn n (by simp)]; exact h.2.1, ?_⟩
    refine seg_congr (fun m hm => hn m (by simp [hm])) (fun m hm => ?_) h.2.2
    rw [hp m (by simp [hm]), if_neg]
    rintro rfl
    exact hd.1 hm

theorem Seg.relink_last [DecidableEq ι] (h : Seg next prev p l x) (hd : l.Nodup)
    (hn : ∀ m ∈ l, next' m = if m = l.getLastD p then x' else next m)
    (hp : ∀ m ∈ l, prev' m = prev m) : Seg next' prev' p l x' := by
  induction l generalizing p with
  | nil => trivial
  | cons n l ih =>
    rw [List.nodup_cons] at hd
    rw [Seg] at h ⊢
    refine ⟨by rw [hp n (by simp)]; exact h.1, ?_, ?_⟩
    · rw [hn n (by simp), List.getLastD_cons]
      cases l with
      | nil => simp
      | cons m l =>
        rw [if_neg, h.2.1]
        · rfl
        · intro he
          refine hd.1 ?_
          rw [List.getLastD_eq_getLast?, List.getLast?_eq_some_getLast (List.cons_ne_nil m l)] at he
          rw [he]
          exact List.getLast_mem _
    · refine ih h.2.2 hd.2 (fun m hm => ?_) (fun m hm => hp m (by simp [hm]))
      rw [hn m (by simp [hm]), List.getLastD_cons]

/-- **Appending a node**: the old last node, if any, gets it as its successor. -/
theorem Seg.push [DecidableEq ι] (h : Seg next prev null l null) (hd : l.Nodup)
    (hn : ∀ m ∈ l, next' m = if m = l.getLastD null then n else next m)
    (hp : ∀ m ∈ l, prev' m = prev m) (hnn : next' n = null) (hpn : prev' n = l.getLastD null) :
    Seg next' prev' null (l ++ [n]) null := by
  rw [seg_append]
  refine ⟨?_, hpn, hnn, trivial⟩
  exact h.relink_last hd hn hp

/-- **Unlinking a node**: its neighbours, where there are any, get linked to each other. -/
theorem Seg.remove [DecidableEq ι] (h : Seg next prev null (l₁ ++ n :: l₂) null)
    (hd : (l₁ ++ n :: l₂).Nodup) (hnull : null ∉ l₁ ++ n :: l₂)
    (hn : ∀ m ∈ l₁ ++ l₂, next' m = if m = prev n then next n else next m)
    (hp : ∀ m ∈ l₁ ++ l₂, prev' m = if m = next n then prev n else prev m) :
    Seg next' prev' null (l₁ ++ l₂) null := by
  rw [seg_append, Seg] at h
  obtain ⟨h₁, hpn, hnn, h₂⟩ := h
  simp only [List.mem_append, List.mem_cons, not_or] at hnull
  rw [List.nodup_append] at hd
  obtain ⟨hd₁, hd₂, hdis⟩ := hd
  rw [List.nodup_cons] at hd₂
  -- the neighbours of `n` are the last node of `l₁` and the first of `l₂`
  have hlast : ∀ m ∈ l₂, m ≠ prev n := by
    rintro m hm rfl
    rw [hpn] at hm
    rcases List.eq_nil_or_concat l₁ with rfl | ⟨l, a, rfl⟩
    · exact hnull.2.2 hm
    · refine hdis a (by simp) a ?_ rfl
      rw [List.concat_eq_append, List.getLastD_concat] at hm
      exact List.mem_cons_of_mem _ hm
  have hfirst : ∀ m ∈ l₁, m ≠ next n := by
    rintro m hm rfl
    rw [hnn] at hm
    cases l₂ with
    | nil => exact hnull.1 hm
    | cons a l => exact hdis a hm a (by simp) rfl
  rw [seg_append]
  constructor
  · refine h₁.relink_last hd₁ (fun m hm => ?_) (fun m hm => ?_)
    · rw [hn m (List.mem_append_left _ hm), hpn, hnn]
    · rw [hp m (List.mem_append_left _ hm), if_neg (hfirst m hm)]
  · rw [← hpn]
    refine h₂.relink_first hd₂.2 (fun m hm => ?_) (fun m hm => ?_)
    · rw [hn m (List.mem_append_right _ hm), if_neg (hlast m hm)]
    · rw [hp m (List.mem_append_right _ hm), hnn]

/-! ## Reading a list along one link -/

/-- Following `step` from `n` reads `l` and ends at `null`. -/
def Reads (step : ι → ι) (null : ι) : ι → List ι → Prop
  | n, [] => n = null
  | n, m :: l => n = m ∧ m ≠ null ∧ Reads step null (step m) l

theorem Seg.reads_next (h : Seg next prev p l null) (hnull : null ∉ l) :
    Reads next null (l.headD null) l := by
  induction l generalizing p with
  | nil => rfl
  | cons n l ih =>
    rw [Seg] at h
    rw [List.mem_cons, not_or] at hnull
    refine ⟨rfl, Ne.symm hnull.1, ?_⟩
    rw [h.2.1]
    exact ih h.2.2 hnull.2

theorem Seg.reads_prev (h : Seg next prev null l x) (hnull : null ∉ l) :
    Reads prev null (l.getLastD null) l.reverse := by
  induction l using List.reverseRecOn generalizing x with
  | nil => rfl
  | append_singleton l n ih =>
    rw [seg_append, Seg] at h
    simp only [List.mem_append, List.mem_singleton, not_or] at hnull
    rw [List.getLastD_concat, List.reverse_append]
    refine ⟨rfl, Ne.symm hnull.2, ?_⟩
    rw [h.2.1]
    exact ih h.1 hnull.1

end Linked
