import MatchingEngine.Reference
import MatchingEngine.Sweep

/-!
# The scans of the reference book

* `Best`, **`bestFrom_spec`**: the scan of `best_opposite` finds an order that no other one beats.
* `Facing`: the list of the reference holds, in any order, the opposite side as the market has it;
  then the scan finds the head of that side (`bestOpposite_head`).
* **`matchLoop_sweep`**: the matching loop is a sweep.
* `canFillFrom_iff`: the scan of `can_fill` adds up what crosses.
-/

set_option autoImplicit false

namespace Dme

namespace ReferenceBook

variable {side : Side} {limit : Price} {orders os : List RestingOrder} {o x y : RestingOrder} {i : ℕ}

/-- An order `best_opposite` looks at. -/
def Eligible (side : Side) (limit : Price) (x : RestingOrder) : Prop :=
  ¬ (x.side = side ∨ crosses side limit x = false)

instance : Decidable (Eligible side limit x) := inferInstanceAs (Decidable (¬ _))

theorem beats_irrefl (side : Side) (x : RestingOrder) : beats side x x = false := by
  cases side <;> simp [beats, Int64.lt_irrefl, UInt64.lt_irrefl]

theorem beats_trans {z : RestingOrder} (h : beats side x y = true) (h' : beats side y z = true) :
    beats side x z = true := by
  cases side <;> simp only [beats, Bool.or_eq_true, Bool.and_eq_true, decide_eq_true_eq] at h h' ⊢ <;>
    grind [Int64.lt_trans, UInt64.lt_trans]

/-- The best order of a list so far, with its position. -/
def Best (side : Side) (limit : Price) (l : List RestingOrder) : Option (ℕ × RestingOrder) → Prop
  | none => ∀ x ∈ l, ¬ Eligible side limit x
  | some (j, best) => l[j]? = some best ∧ Eligible side limit best ∧
      ∀ x ∈ l, Eligible side limit x → beats side x best = false

theorem Best.extend {b : ℕ × RestingOrder} (h : Best side limit os (some b))
    (hx : Eligible side limit x → beats side x b.2 = false) :
    Best side limit (os ++ [x]) (some b) := by
  obtain ⟨hget, hel, hall⟩ := h
  refine ⟨?_, hel, fun y hy hey => ?_⟩
  · rw [List.getElem?_append_left (List.getElem?_eq_some_iff.mp hget).1]
    exact hget
  · rcases List.mem_append.mp hy with hy | hy
    · exact hall y hy hey
    · rw [List.mem_singleton.mp hy] at hey ⊢
      exact hx hey

theorem Best.skip {best : Option (ℕ × RestingOrder)} (h : Best side limit os best)
    (hx : ¬ Eligible side limit x) : Best side limit (os ++ [x]) best := by
  cases best with
  | none =>
    intro y hy
    rcases List.mem_append.mp hy with hy | hy
    · exact h y hy
    · rw [List.mem_singleton.mp hy]
      exact hx
  | some b => exact h.extend fun hel => absurd hel hx

theorem Best.take {best : Option (ℕ × RestingOrder)} (h : Best side limit os best)
    (hx : Eligible side limit x) (hbeats : ∀ b ∈ best, beats side x b.2 = true) :
    Best side limit (os ++ [x]) (some (os.length, x)) := by
  refine ⟨by simp, hx, fun y hy hey => ?_⟩
  rcases List.mem_append.mp hy with hy | hy
  · cases best with
    | none => exact absurd hey (h y hy)
    | some b =>
      by_contra hc
      have := h.2.2 y hy hey
      rw [beats_trans (by simpa using hc) (hbeats b rfl)] at this
      cases this
  · rw [List.mem_singleton.mp hy]
    exact beats_irrefl side x

/-- **The scan finds an order that no eligible one beats.** -/
theorem bestFrom_spec (best : Option (ℕ × RestingOrder)) (h : Best side limit os best) :
    Best side limit (os ++ orders) (bestFrom side limit orders os.length best) := by
  induction orders generalizing os best with
  | nil =>
    rw [List.append_nil]
    exact h
  | cons x orders ih =>
    have hnext : ∀ best', Best side limit (os ++ [x]) best' →
        Best side limit (os ++ x :: orders) (bestFrom side limit orders (os.length + 1) best') := by
      intro best' hb
      have := ih best' hb
      rwa [List.append_assoc, List.length_append] at this
    cases best with
    | none =>
      rw [bestFrom]
      split_ifs with hx
      · exact hnext none (h.skip (not_not.mpr hx))
      · exact hnext _ (h.take hx (by simp))
    | some b =>
      rw [bestFrom]
      split_ifs with hx hb
      · exact hnext _ (h.skip (not_not.mpr hx))
      · exact hnext _ (h.take hx (by simpa using hb))
      · exact hnext _ (h.extend fun _ => by simpa using hb)

theorem bestOpposite_spec (side : Side) (limit : Price) (orders : List RestingOrder) :
    Best side limit orders (bestOpposite side limit orders) :=
  @bestFrom_spec side limit orders [] none (by simp [Best])

theorem crosses_eq (side : Side) (limit : Price) (x : RestingOrder) :
    crosses side limit x = crossesPrice side limit x.price := by cases side <;> rfl

theorem crosses_of_beats (h : beats side x y = true) (hy : crosses side limit y = true) :
    crosses side limit x = true := by
  cases side <;> simp only [beats, crosses, Bool.or_eq_true, Bool.and_eq_true, decide_eq_true_eq,
    gt_iff_lt, ge_iff_le] at h hy ⊢ <;> grind [Int64.le_trans, Int64.le_of_lt]

theorem pairwise_beats (hs : BestFirst side.opposite os)
    (hr : os.Pairwise fun x y => x.price = y.price → x.priority < y.priority) :
    os.Pairwise fun x y => beats side x y = true := by
  refine (hs.and hr).imp fun {x y} hxy => ?_
  obtain ⟨hb, hp⟩ := hxy
  cases side <;> simp only [Side.opposite, better, decide_eq_false_iff_not, Int64.not_lt] at hb <;>
    simp only [beats, Bool.or_eq_true, Bool.and_eq_true, decide_eq_true_eq, gt_iff_lt] <;>
    grind [Int64.lt_of_le_of_ne]

/-- The list of a reference book, seen from an aggressor: the opposite side in front, in the order
of the market. -/
structure Facing (side : Side) (orders os others : List RestingOrder) : Prop where
  perm : orders.Perm (os ++ others)
  opposite : ∀ x ∈ os, x.side ≠ side
  own : ∀ x ∈ others, x.side = side
  ordered : os.Pairwise fun x y => beats side x y = true

variable {others : List RestingOrder}

theorem Facing.eligible (h : Facing side orders os others) (hx : x ∈ orders)
    (he : Eligible side limit x) : x ∈ os ∧ crosses side limit x = true := by
  rw [Eligible, not_or, Bool.not_eq_false] at he
  refine ⟨?_, he.2⟩
  rcases List.mem_append.mp (h.perm.mem_iff.mp hx) with hx | hx
  · exact hx
  · exact absurd (h.own x hx) he.1

/-- **The scan finds the head of the opposite side.** -/
theorem bestOpposite_head (h : Facing side orders (o :: os) others)
    (hc : crosses side limit o = true) :
    ∃ i, bestOpposite side limit orders = some (i, o) ∧ orders[i]? = some o := by
  have ho : o ∈ orders := h.perm.mem_iff.mpr (by simp)
  have hel : Eligible side limit o := by
    rw [Eligible, not_or]
    exact ⟨h.opposite o List.mem_cons_self, by simp [hc]⟩
  have hspec := bestOpposite_spec side limit orders
  cases hb : bestOpposite side limit orders with
  | none =>
    rw [hb] at hspec
    exact absurd hel (hspec o ho)
  | some b =>
    obtain ⟨i, best⟩ := b
    rw [hb] at hspec
    obtain ⟨hget, hbest, hall⟩ := hspec
    have hmem : best ∈ orders := List.mem_of_getElem? hget
    rcases List.mem_cons.mp (h.eligible hmem hbest).1 with rfl | hin
    · exact ⟨i, rfl, hget⟩
    · have := hall o ho hel
      rw [(List.pairwise_cons.mp h.ordered).1 best hin] at this
      cases this

theorem bestOpposite_none (h : Facing side orders os others)
    (hc : ∀ o ∈ os.head?, crosses side limit o = false) :
    bestOpposite side limit orders = none := by
  have hnone : ∀ x ∈ os, crosses side limit x = false := by
    cases os with
    | nil => simp
    | cons o os =>
      intro x hx
      rcases List.mem_cons.mp hx with rfl | hx
      · exact hc x rfl
      · by_contra hcx
        have ho := hc o rfl
        rw [crosses_of_beats ((List.pairwise_cons.mp h.ordered).1 x hx) (by simpa using hcx)] at ho
        cases ho
  have hspec := bestOpposite_spec side limit orders
  cases hb : bestOpposite side limit orders with
  | none => rfl
  | some b =>
    rw [hb] at hspec
    obtain ⟨hin, hcx⟩ := h.eligible (List.mem_of_getElem? hspec.1) hspec.2.1
    rw [hnone _ hin] at hcx
    cases hcx

theorem eraseIdx_perm {l : List RestingOrder} (hget : orders[i]? = some o)
    (hp : orders.Perm (o :: l)) : (orders.eraseIdx i).Perm l := by
  obtain ⟨hi, rfl⟩ := List.getElem?_eq_some_iff.mp hget
  exact List.Perm.cons_inv ((List.getElem_cons_eraseIdx_perm hi).trans hp)

theorem set_perm {l : List RestingOrder} (hget : orders[i]? = some o) (hp : orders.Perm (o :: l))
    (x : RestingOrder) : (orders.set i x).Perm (x :: l) := by
  obtain ⟨hi, -⟩ := List.getElem?_eq_some_iff.mp hget
  exact (List.set_perm_cons_eraseIdx hi x).trans ((eraseIdx_perm hget hp).cons x)

/-- **The matching loop is a sweep.** -/
theorem matchLoop_sweep {c : Command} (h : Facing c.side orders os others) (remaining : Quantity)
    (events : List Event) (fuel : ℕ) (hf : os.length + 1 < fuel) :
    ∃ orders', matchLoop c limit fuel orders remaining events =
        .ok (orders', (sweep c.side limit remaining os).remaining,
          events ++ Market.tradesOf c (sweep c.side limit remaining os).fills) ∧
      orders'.Perm ((sweep c.side limit remaining os).rest ++ others) := by
  induction os generalizing orders remaining events fuel with
  | nil =>
    obtain ⟨fuel, rfl⟩ := Nat.exists_eq_succ_of_ne_zero (Nat.ne_zero_of_lt hf)
    refine ⟨orders, ?_, h.perm⟩
    rw [matchLoop, bestOpposite_none h (by simp)]
    simp [sweep, Market.tradesOf]
  | cons o os ih =>
    obtain ⟨fuel, rfl⟩ := Nat.exists_eq_succ_of_ne_zero (Nat.ne_zero_of_lt hf)
    rw [List.length_cons] at hf
    by_cases hstop : remaining = 0 ∨ crossesPrice c.side limit o.price = false
    · rw [sweep_stop hstop]
      refine ⟨orders, ?_, h.perm⟩
      rw [matchLoop]
      by_cases h0 : remaining = 0
      · simp [h0, Market.tradesOf]
      · rw [if_pos h0, bestOpposite_none h]
        · simp [Market.tradesOf]
        · rintro _ ⟨⟩
          rw [crosses_eq]
          exact hstop.resolve_left h0
    · obtain ⟨h0, hc⟩ := not_or.mp hstop
      rw [Bool.not_eq_false, ← crosses_eq] at hc
      obtain ⟨i, hbest, hget⟩ := bestOpposite_head h hc
      rw [matchLoop, if_pos h0, hbest]
      have hperm : orders.Perm (o :: (os ++ others)) := h.perm
      by_cases hlt : remaining < o.quantity
      · -- the first order is met in part, and nothing remains
        have hne : o.quantity - remaining ≠ 0 := by grind
        obtain ⟨fuel, rfl⟩ := Nat.exists_eq_succ_of_ne_zero (show fuel ≠ 0 by omega)
        rw [sweep_part hstop hlt]
        refine ⟨orders.set i { o with quantity := o.quantity - remaining }, ?_, set_perm hget hperm _⟩
        simp only [min_of_lt hlt, hne, if_false, matchLoop, UInt64.sub_self, ne_eq, not_true_eq_false]
        rfl
      · -- the first order is met whole, and leaves the list
        have hnext : Facing c.side (orders.eraseIdx i) os others :=
          ⟨eraseIdx_perm hget hperm, fun x hx => h.opposite x (List.mem_cons_of_mem _ hx), h.own,
            (List.pairwise_cons.mp h.ordered).2⟩
        obtain ⟨orders', hloop, hperm'⟩ := ih hnext (remaining - o.quantity)
          (emit events .trade c o.orderId o.price o.quantity .none) fuel (by omega)
        rw [sweep_whole hstop hlt]
        refine ⟨orders', ?_, hperm'⟩
        simp only [min_of_not_lt hlt, UInt64.sub_self, if_true, hloop]
        simp [emit, Market.tradesOf]

/-- What the scan of `can_fill` adds up. -/
def reach (side : Side) (limit : Price) (orders : List RestingOrder) : ℕ :=
  ((orders.filter fun o => o.side ≠ side ∧ crosses side limit o = true).map
    fun o => o.quantity.toNat).sum

theorem canFillFrom_iff {quantity available : Quantity} (h : available < quantity) :
    canFillFrom side limit quantity orders available = true ↔
      quantity.toNat ≤ available.toNat + reach side limit orders := by
  rw [UInt64.lt_iff_toNat_lt] at h
  induction orders generalizing available with
  | nil =>
    simp only [canFillFrom, reach, List.filter_nil, List.map_nil, List.sum_nil]
    grind
  | cons o orders ih =>
    have hsub : (quantity - available).toNat = quantity.toNat - available.toNat :=
      UInt64.toNat_sub_of_le _ _ (UInt64.le_iff_toNat_le.mpr h.le)
    rw [canFillFrom]
    by_cases hel : o.side ≠ side ∧ crosses side limit o = true
    · have hreach : reach side limit (o :: orders) = o.quantity.toNat + reach side limit orders := by
        rw [reach, List.filter_cons_of_pos (by simpa using hel)]
        rfl
      rw [if_pos hel, hreach]
      split_ifs with hge <;> rw [ge_iff_le, UInt64.le_iff_toNat_le, hsub] at hge
      · simp only [true_iff]
        omega
      · -- the sum so far stays below the quantity, so it does not wrap
        have hadd : (available + o.quantity).toNat = available.toNat + o.quantity.toNat := by
          rw [UInt64.toNat_add, Nat.mod_eq_of_lt]
          have := quantity.toNat_lt
          omega
        rw [ih (by omega), hadd, Nat.add_assoc]
    · rw [if_neg hel, ih h]
      rw [reach, reach, List.filter_cons_of_neg (by simpa using hel)]

theorem Facing.reach_eq (h : Facing side orders os others) :
    reach side limit orders = crossing side limit os := by
  have hfilter : (orders.filter fun o => o.side ≠ side ∧ crosses side limit o = true).Perm
      (os.filter fun o => crossesPrice side limit o.price) := by
    refine (h.perm.filter _).trans ?_
    have hown : others.filter (fun o => o.side ≠ side ∧ crosses side limit o = true) = [] :=
      List.filter_eq_nil_iff.mpr fun o ho => by simp [h.own o ho]
    rw [List.filter_append, hown, List.append_nil]
    exact List.Perm.of_eq (List.filter_congr fun o ho => by simp [h.opposite o ho, crosses_eq])
  exact (hfilter.map _).sum_eq

end ReferenceBook

end Dme
