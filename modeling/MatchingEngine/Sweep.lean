import MatchingEngine.Market

/-!
# What a sweep does

* `sweep_suffix`: what an aggressor leaves is the end of the list it met, its first order perhaps
  smaller.
* **`sweep_conserves`**: the trades and what is left add up to the aggressor's quantity.
* **`sweep_stops`**: an aggressor with something left meets an order it does not cross.
* **`sweep_fills`**: an aggressor no larger than what `available` counts is filled.
-/

set_option autoImplicit false

namespace Dme

variable {a s : Side} {limit : Price} {remaining : Quantity} {o : RestingOrder}
  {os : List RestingOrder}

theorem sweep_stop (h : remaining = 0 ∨ crossesPrice a limit o.price = false) :
    sweep a limit remaining (o :: os) = ⟨[], remaining, o :: os⟩ := by
  rw [sweep, if_pos h]

theorem sweep_part (h : ¬ (remaining = 0 ∨ crossesPrice a limit o.price = false))
    (hlt : remaining < o.quantity) : sweep a limit remaining (o :: os) =
      ⟨[⟨o.orderId, o.price, remaining⟩], 0, { o with quantity := o.quantity - remaining } :: os⟩ := by
  rw [sweep, if_neg h, if_pos hlt]

theorem sweep_whole (h : ¬ (remaining = 0 ∨ crossesPrice a limit o.price = false))
    (hle : ¬ remaining < o.quantity) : sweep a limit remaining (o :: os) =
      ⟨⟨o.orderId, o.price, o.quantity⟩ :: (sweep a limit (remaining - o.quantity) os).fills,
        (sweep a limit (remaining - o.quantity) os).remaining,
        (sweep a limit (remaining - o.quantity) os).rest⟩ := by
  rw [sweep, if_neg h, if_neg hle]

theorem sweep_suffix {β : Type} (f : RestingOrder → β) (hf : ∀ o x, f { o with quantity := x } = f o)
    (remaining : Quantity) (os : List RestingOrder) :
    (sweep a limit remaining os).rest.map f <:+ os.map f := by
  induction os generalizing remaining with
  | nil => exact List.suffix_rfl
  | cons o os ih =>
    by_cases hstop : remaining = 0 ∨ crossesPrice a limit o.price = false
    · rw [sweep_stop hstop]
    · by_cases hlt : remaining < o.quantity
      · rw [sweep_part hstop hlt, List.map_cons, hf, ← List.map_cons]
      · rw [sweep_whole hstop hlt]
        exact (ih _).trans (List.suffix_cons _ _)

theorem sweep_mem {o' : RestingOrder} (h : o' ∈ (sweep a limit remaining os).rest) :
    ∃ o ∈ os, o'.orderId = o.orderId ∧ o'.side = o.side ∧ o'.price = o.price ∧
      o'.priority = o.priority ∧ o'.quantity ≤ o.quantity := by
  induction os generalizing remaining with
  | nil => simp [sweep] at h
  | cons x os ih =>
    by_cases hstop : remaining = 0 ∨ crossesPrice a limit x.price = false
    · rw [sweep_stop hstop] at h
      exact ⟨o', h, rfl, rfl, rfl, rfl, UInt64.le_refl _⟩
    · by_cases hlt : remaining < x.quantity
      · rw [sweep_part hstop hlt] at h
        rcases List.mem_cons.mp h with rfl | h
        · refine ⟨x, List.mem_cons_self, rfl, rfl, rfl, rfl, ?_⟩
          simp only
          grind
        · exact ⟨o', List.mem_cons_of_mem _ h, rfl, rfl, rfl, rfl, UInt64.le_refl _⟩
      · rw [sweep_whole hstop hlt] at h
        obtain ⟨o, ho, hrest⟩ := ih h
        exact ⟨o, List.mem_cons_of_mem _ ho, hrest⟩

/-- **Nothing is lost**: the trades and the rest are the quantity. -/
theorem sweep_conserves (remaining : Quantity) (os : List RestingOrder) :
    ((sweep a limit remaining os).fills.map fun f => f.quantity.toNat).sum +
      (sweep a limit remaining os).remaining.toNat = remaining.toNat := by
  induction os generalizing remaining with
  | nil => simp [sweep]
  | cons o os ih =>
    by_cases hstop : remaining = 0 ∨ crossesPrice a limit o.price = false
    · rw [sweep_stop hstop]
      simp
    · by_cases hlt : remaining < o.quantity
      · rw [sweep_part hstop hlt]
        simp
      · rw [sweep_whole hstop hlt]
        rw [UInt64.lt_iff_toNat_lt, not_lt] at hlt
        have hsub : (remaining - o.quantity).toNat = remaining.toNat - o.quantity.toNat :=
          UInt64.toNat_sub_of_le _ _ (UInt64.le_iff_toNat_le.mpr hlt)
        have := ih (remaining - o.quantity)
        simp only [List.map_cons, List.sum_cons]
        omega

/-- **An aggressor that is not filled stops at an order it does not cross.** -/
theorem sweep_stops (remaining : Quantity) (os : List RestingOrder)
    (h : (sweep a limit remaining os).remaining ≠ 0) {o : RestingOrder} {os' : List RestingOrder}
    (hrest : (sweep a limit remaining os).rest = o :: os') :
    crossesPrice a limit o.price = false := by
  induction os generalizing remaining with
  | nil => simp [sweep] at hrest
  | cons x os ih =>
    by_cases hstop : remaining = 0 ∨ crossesPrice a limit x.price = false
    · rw [sweep_stop hstop] at h hrest
      cases hrest
      exact hstop.resolve_left h
    · by_cases hlt : remaining < x.quantity
      · rw [sweep_part hstop hlt] at h
        exact absurd rfl h
      · rw [sweep_whole hstop hlt] at h hrest
        exact ih _ h hrest

/-! ## A side in order -/

/-- No order comes before one with a better price. -/
def BestFirst (s : Side) (os : List RestingOrder) : Prop :=
  os.Pairwise fun o o' => better s o'.price o.price = false

theorem crosses_of_better {p p' : Price} (h : better a.opposite p' p = false)
    (hc : crossesPrice a limit p' = true) : crossesPrice a limit p = true := by
  cases a with
  | buy =>
    simp only [Side.opposite, better, decide_eq_false_iff_not, Int64.not_lt] at h
    simp only [crossesPrice, decide_eq_true_eq] at hc ⊢
    exact Int64.le_trans h hc
  | sell =>
    simp only [Side.opposite, better, decide_eq_false_iff_not, Int64.not_lt] at h
    simp only [crossesPrice, ge_iff_le, decide_eq_true_eq] at hc ⊢
    exact Int64.le_trans hc h

theorem filter_crosses_eq_nil (hs : BestFirst a.opposite (o :: os))
    (hc : crossesPrice a limit o.price = false) :
    (o :: os).filter (fun o => crossesPrice a limit o.price) = [] := by
  rw [List.filter_eq_nil_iff]
  intro x hx hcx
  rcases List.mem_cons.mp hx with rfl | hx
  · rw [hc] at hcx
    cases hcx
  · rw [crosses_of_better ((List.pairwise_cons.mp hs).1 x hx) hcx] at hc
    cases hc

/-- What the crossing orders of a list hold. -/
def crossing (a : Side) (limit : Price) (os : List RestingOrder) : ℕ :=
  ((os.filter fun o => crossesPrice a limit o.price).map fun o => o.quantity.toNat).sum

theorem sweep_filled (hs : BestFirst a.opposite os) (h : remaining.toNat ≤ crossing a limit os) :
    (sweep a limit remaining os).remaining = 0 := by
  induction os generalizing remaining with
  | nil =>
    simp only [crossing, List.filter_nil, List.map_nil, List.sum_nil, Nat.le_zero] at h
    exact UInt64.toNat_inj.mp h
  | cons o os ih =>
    obtain ⟨-, htail⟩ := List.pairwise_cons.mp hs
    by_cases hstop : remaining = 0 ∨ crossesPrice a limit o.price = false
    · rw [sweep_stop hstop]
      rcases hstop with h0 | hc
      · exact h0
      · rw [crossing, filter_crosses_eq_nil hs hc] at h
        exact UInt64.toNat_inj.mp (Nat.le_zero.mp h)
    · by_cases hlt : remaining < o.quantity
      · rw [sweep_part hstop hlt]
      · rw [sweep_whole hstop hlt]
        have hc : crossesPrice a limit o.price = true := by simpa using (not_or.mp hstop).2
        rw [UInt64.lt_iff_toNat_lt, not_lt] at hlt
        refine ih htail ?_
        rw [UInt64.toNat_sub_of_le _ _ (UInt64.le_iff_toNat_le.mpr hlt)]
        rw [crossing, List.filter_cons_of_pos (by simpa using hc), List.map_cons, List.sum_cons,
          ← crossing] at h
        omega

/-! ## Quantities as machine words -/

theorem toNat_sum (l : List UInt64) : l.sum.toNat = (l.map UInt64.toNat).sum % 2 ^ 64 := by
  induction l with
  | nil => rfl
  | cons x l ih =>
    rw [List.sum_cons, UInt64.toNat_add, ih, List.map_cons, List.sum_cons]
    omega

theorem sum_by_price (f : RestingOrder → ℕ) (ps : Finset Price) (os : List RestingOrder) :
    ∑ p ∈ ps, ((os.filter fun o => o.price = p).map f).sum =
      ((os.filter fun o => o.price ∈ ps).map f).sum := by
  induction os with
  | nil => simp
  | cons o os ih =>
    have hcons : ∀ p, (((o :: os).filter fun o => o.price = p).map f).sum =
        (if o.price = p then f o else 0) + ((os.filter fun o => o.price = p).map f).sum := by
      intro p
      by_cases hp : o.price = p
      · simp [hp]
      · simp [hp]
    simp only [hcons, Finset.sum_add_distrib, ih, Finset.sum_ite_eq]
    by_cases hp : o.price ∈ ps
    · simp [hp]
    · simp [hp]

theorem crossing_by_price (a : Side) (limit : Price) (os : List RestingOrder) :
    crossing a limit os =
      ∑ p ∈ (os.map RestingOrder.price).toFinset with crossesPrice a limit p = true,
        ((os.filter fun o => o.price = p).map fun o => o.quantity.toNat).sum := by
  rw [sum_by_price, crossing]
  congr 2
  refine List.filter_congr fun o ho => ?_
  have : o.price ∈ (os.map RestingOrder.price).toFinset :=
    List.mem_toFinset.mpr (List.mem_map_of_mem ho)
  simp [this]

theorem toNat_levelTotal (os : List RestingOrder) (p : Price) : (levelTotal os p).toNat =
    ((os.filter fun o => o.price = p).map fun o => o.quantity.toNat).sum % 2 ^ 64 := by
  rw [levelTotal, atPrice, toNat_sum, List.map_map]
  rfl

theorem available_le_crossing (a : Side) (limit : Price) (os : List RestingOrder) :
    available a limit os ≤ crossing a limit os := by
  rw [available, crossing_by_price]
  refine Finset.sum_le_sum fun p _ => ?_
  rw [toNat_levelTotal]
  exact Nat.mod_le _ _

/-- **An order that `available` says can be filled is filled.** -/
theorem sweep_fills (hs : BestFirst a.opposite os) (h : remaining.toNat ≤ available a limit os) :
    (sweep a limit remaining os).remaining = 0 :=
  sweep_filled hs (h.trans (available_le_crossing a limit os))

/-- The words of the levels count what there is, as long as no level overflows its word. -/
theorem available_eq_of_fits (a : Side) (limit : Price) {os : List RestingOrder}
    (h : ∀ p, ((atPrice os p).map fun o => o.quantity.toNat).sum < 2 ^ 64) :
    available a limit os = crossing a limit os := by
  rw [available, crossing_by_price]
  refine Finset.sum_congr rfl fun p _ => ?_
  rw [toNat_levelTotal]
  exact Nat.mod_eq_of_lt (h p)

theorem available_eq_crossing (a : Side) (limit : Price) {os : List RestingOrder}
    (h : (os.map fun o => o.quantity.toNat).sum < 2 ^ 64) :
    available a limit os = crossing a limit os :=
  available_eq_of_fits a limit fun _ => lt_of_le_of_lt
    (List.Sublist.sum_le_sum (List.filter_sublist.map _) fun _ _ => Nat.zero_le _) h

end Dme
