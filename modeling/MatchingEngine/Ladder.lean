import MatchingEngine.Types
import MatchingEngine.Lib.Signed

/-!
# The price ladder

`BookConfig` and the price arithmetic of `order_book.cpp`, in 64-bit signed integers.

* `checkedPriceCount`, `BookConfig.validPrice`, `priceIndex`, `indexPrice`, `crossesPrice`.
* **`Ladder c n`**: what a configuration accepted with `n` price levels guarantees
  (`ladder_of_checked`); no subtraction, product or sum of the four functions overflows on it
  (`fits_offset`, `fits_ticks`, `fits_price`).
* `indexPrice_priceIndex`, `priceIndex_indexPrice`, `indexPrice_lt_iff`: valid prices and level
  indices correspond, in order.
-/

set_option autoImplicit false

namespace Dme

/-- What a book is made for: its price range and tick, and how many orders it may hold. -/
structure BookConfig where
  minimumPrice : Price := 1
  maximumPrice : Price := 1000000
  tickSize : Price := 1
  maximumOrders : UInt64 := 1000000
deriving DecidableEq, Repr

/-- The largest `std::uint32_t`. -/
def uint32Max : ℕ := 2 ^ 32 - 1

/-- The largest `std::size_t`. -/
def sizeMax : ℕ := 2 ^ 64 - 1

/-- `checked_price_count`: the number of price levels, if the configuration is accepted. -/
def checkedPriceCount (config : BookConfig) : Except Fault ℕ :=
  if config.tickSize ≤ 0 ∨ config.maximumPrice < config.minimumPrice ∨
      config.maximumOrders = 0 ∨ config.maximumOrders.toNat > uint32Max then
    .error (.invalidArgument "invalid order-book configuration")
  else if config.minimumPrice < 0 ∧
      config.maximumPrice > Int64.maxValue + config.minimumPrice then
    .error (.invalidArgument "price range overflows")
  else
    let span := config.maximumPrice - config.minimumPrice
    if span % config.tickSize ≠ 0 then
      .error (.invalidArgument "price range is not tick aligned")
    else
      let count := (span / config.tickSize).toUInt64 + 1
      if count.toNat > sizeMax then .error (.invalidArgument "price ladder is too large")
      else .ok count.toNat

namespace BookConfig

/-- `valid_price`: a price in range and on a tick. -/
def validPrice (c : BookConfig) (price : Price) : Bool :=
  price ≥ c.minimumPrice && price ≤ c.maximumPrice && (price - c.minimumPrice) % c.tickSize = 0

/-- `price_index`: the level of a valid price. -/
def priceIndex (c : BookConfig) (price : Price) : ℕ :=
  ((price - c.minimumPrice) / c.tickSize).toUInt64.toNat

/-- `index_price`: the price of a level. -/
def indexPrice (c : BookConfig) (index : ℕ) : Price :=
  c.minimumPrice + Int64.ofNat index * c.tickSize

end BookConfig

/-- The level index that stands for no price. -/
def noPrice : ℕ := sizeMax

/-- An aggressor with this limit trades at price `opposite`. -/
def crossesPrice (aggressor : Side) (limit opposite : Price) : Bool :=
  match aggressor with
  | .buy => opposite ≤ limit
  | .sell => opposite ≥ limit

/-! ## Accepted configurations -/

/-- **A configuration accepted with `n` price levels**, as integers. -/
structure Ladder (c : BookConfig) (n : ℕ) : Prop where
  tick_pos : 0 < c.tickSize.toInt
  span : c.maximumPrice.toInt = c.minimumPrice.toInt + (n - 1 : ℕ) * c.tickSize.toInt
  count_pos : 0 < n
  span_lt : c.maximumPrice.toInt - c.minimumPrice.toInt < 2 ^ 63
  orders_pos : 0 < c.maximumOrders.toNat
  orders_le : c.maximumOrders.toNat ≤ uint32Max

/-- The bound of the overflow check, which is formed for a negative minimum only. -/
theorem toInt_maxValue_add {p : Price} (hp : p.toInt < 0) :
    Signed.Fits (Int64.maxValue.toInt + p.toInt) ∧
      (Int64.maxValue + p).toInt = 2 ^ 63 - 1 + p.toInt := by
  have hmin := p.le_toInt
  have hfits : Signed.Fits (Int64.maxValue.toInt + p.toInt) := by
    rw [Int64.toInt_maxValue]
    exact ⟨by omega, by omega⟩
  rw [Signed.toInt_add hfits, Int64.toInt_maxValue]
  exact ⟨hfits, rfl⟩

theorem span_lt_of_check {c : BookConfig}
    (h : ¬ (c.minimumPrice < 0 ∧ c.maximumPrice > Int64.maxValue + c.minimumPrice)) :
    c.maximumPrice.toInt - c.minimumPrice.toInt < 2 ^ 63 := by
  have hmax := c.maximumPrice.toInt_lt
  by_cases hneg : c.minimumPrice.toInt < 0
  · simp only [not_and, gt_iff_lt, Int64.lt_iff_toInt_lt, Int64.toInt_zero,
      (toInt_maxValue_add hneg).2] at h
    have := h hneg
    omega
  · omega

/-- **What the constructor's check guarantees.** -/
theorem ladder_of_checked {c : BookConfig} {n : ℕ} (h : checkedPriceCount c = .ok n) : Ladder c n := by
  simp only [checkedPriceCount] at h
  split_ifs at h with h1 h2 h3 h4
  simp only [not_or, not_le, not_lt, gt_iff_lt, Int64.lt_iff_toInt_lt, Int64.toInt_zero,
    Int64.le_iff_toInt_le] at h1
  obtain ⟨htick, hrange, horders, hle⟩ := h1
  have hspan := span_lt_of_check h2
  have hsub := Signed.toInt_sub (a := c.maximumPrice) (b := c.minimumPrice) ⟨by omega, hspan⟩
  have hs0 : 0 ≤ (c.maximumPrice - c.minimumPrice).toInt := by omega
  have hmod : (c.maximumPrice.toInt - c.minimumPrice.toInt) % c.tickSize.toInt = 0 := by
    have := congrArg Int64.toInt (not_not.mp h3)
    rwa [Signed.toInt_mod hs0, hsub, Int64.toInt_zero] at this
  have hdiv := Signed.toInt_div hs0 htick
  have hq0 : 0 ≤ (c.maximumPrice - c.minimumPrice).toInt / c.tickSize.toInt :=
    Int.ediv_nonneg hs0 htick.le
  have hqle : (c.maximumPrice - c.minimumPrice).toInt / c.tickSize.toInt ≤
      (c.maximumPrice - c.minimumPrice).toInt := Int.ediv_le_self _ hs0
  have hq := Signed.toNat_toUInt64 (a := (c.maximumPrice - c.minimumPrice) / c.tickSize)
    (by rw [hdiv]; exact hq0)
  have hn : n = ((c.maximumPrice - c.minimumPrice) / c.tickSize).toUInt64.toNat + 1 := by
    simp only [Except.ok.injEq] at h
    rw [← h, UInt64.toNat_add]
    simp only [UInt64.toNat_one]
    omega
  refine ⟨htick, ?_, by omega, hspan, ?_, by omega⟩
  · have : ((n - 1 : ℕ) : ℤ) = (c.maximumPrice.toInt - c.minimumPrice.toInt) / c.tickSize.toInt := by
      rw [hn, Nat.add_sub_cancel, hq, hdiv, hsub]
    rw [this, Int.ediv_mul_cancel (Int.dvd_of_emod_eq_zero hmod)]
    omega
  · refine Nat.pos_of_ne_zero fun h0 => horders ?_
    rw [← UInt64.toNat_inj, h0]
    rfl

/-- **Which configurations the check accepts**, as integers. -/
theorem checkedPriceCount_isOk {c : BookConfig} (htick : 0 < c.tickSize.toInt)
    (hle : c.minimumPrice.toInt ≤ c.maximumPrice.toInt)
    (hspan : c.maximumPrice.toInt - c.minimumPrice.toInt < 2 ^ 63)
    (hdvd : c.tickSize.toInt ∣ c.maximumPrice.toInt - c.minimumPrice.toInt)
    (hpos : 0 < c.maximumOrders.toNat) (hmax : c.maximumOrders.toNat ≤ uint32Max) :
    ∃ n, checkedPriceCount c = .ok n := by
  have horders : ¬ c.maximumOrders = 0 := by
    intro h0
    rw [h0] at hpos
    exact absurd hpos (by decide)
  have hrange : ¬ (c.tickSize ≤ 0 ∨ c.maximumPrice < c.minimumPrice ∨ c.maximumOrders = 0 ∨
      c.maximumOrders.toNat > uint32Max) := by
    rw [Int64.le_iff_toInt_le, Int64.lt_iff_toInt_lt, Int64.toInt_zero]
    rintro (hneg | hempty | h0 | hmany)
    · omega
    · omega
    · exact horders h0
    · omega
  have hoverflow : ¬ (c.minimumPrice < 0 ∧ c.maximumPrice > Int64.maxValue + c.minimumPrice) := by
    rintro ⟨hneg, hover⟩
    rw [Int64.lt_iff_toInt_lt, Int64.toInt_zero] at hneg
    rw [gt_iff_lt, Int64.lt_iff_toInt_lt, (toInt_maxValue_add hneg).2] at hover
    omega
  have hsub := Signed.toInt_sub (a := c.maximumPrice) (b := c.minimumPrice) ⟨by omega, hspan⟩
  have haligned : ¬ (c.maximumPrice - c.minimumPrice) % c.tickSize ≠ 0 := by
    rw [not_not, ← Int64.toInt_inj, Signed.toInt_mod (by omega), hsub, Int64.toInt_zero]
    exact Int.emod_eq_zero_of_dvd hdvd
  have hcount : ¬ (((c.maximumPrice - c.minimumPrice) / c.tickSize).toUInt64 + 1).toNat > sizeMax := by
    have hlt := (((c.maximumPrice - c.minimumPrice) / c.tickSize).toUInt64 + 1).toNat_lt
    unfold sizeMax
    omega
  exact ⟨_, (if_neg hrange).trans ((if_neg hoverflow).trans
    ((if_neg haligned).trans (if_neg hcount)))⟩

/-! ## Prices and indices -/

section Prices

variable {c : BookConfig} {n : ℕ} (hl : Ladder c n)

include hl

theorem Ladder.index_bound {i : ℕ} (hi : i < n) :
    (i : ℤ) * c.tickSize.toInt ≤ (n - 1 : ℕ) * c.tickSize.toInt :=
  Int.mul_le_mul_of_nonneg_right (by omega) hl.tick_pos.le

theorem Ladder.count_lt : n ≤ 2 ^ 63 := by
  have h1 := hl.span
  have h2 := hl.span_lt
  have h3 : ((n - 1 : ℕ) : ℤ) * 1 ≤ (n - 1 : ℕ) * c.tickSize.toInt :=
    Int.mul_le_mul_of_nonneg_left (by have := hl.tick_pos; omega) (by omega)
  omega

theorem Ladder.toInt_ofNat {i : ℕ} (hi : i < n) : (Int64.ofNat i).toInt = i := by
  have := hl.count_lt
  exact Int64.toInt_ofNat_of_lt (by omega)

theorem Ladder.fits_ticks {i : ℕ} (hi : i < n) :
    Signed.Fits ((Int64.ofNat i).toInt * c.tickSize.toInt) := by
  have h1 := hl.index_bound hi
  have h2 := hl.span
  have h3 := hl.span_lt
  have h4 : 0 ≤ (i : ℤ) * c.tickSize.toInt := Int.mul_nonneg (by omega) hl.tick_pos.le
  rw [hl.toInt_ofNat hi]
  exact ⟨by omega, by omega⟩

theorem Ladder.toInt_ticks {i : ℕ} (hi : i < n) :
    (Int64.ofNat i * c.tickSize).toInt = i * c.tickSize.toInt := by
  rw [Signed.toInt_mul (hl.fits_ticks hi), hl.toInt_ofNat hi]

theorem Ladder.fits_price {i : ℕ} (hi : i < n) :
    Signed.Fits (c.minimumPrice.toInt + (Int64.ofNat i * c.tickSize).toInt) := by
  have h1 := hl.index_bound hi
  have h2 := hl.span
  have h3 : 0 ≤ (i : ℤ) * c.tickSize.toInt := Int.mul_nonneg (by omega) hl.tick_pos.le
  have h4 := c.minimumPrice.le_toInt
  have h5 := c.maximumPrice.toInt_lt
  rw [hl.toInt_ticks hi]
  exact ⟨by omega, by omega⟩

theorem Ladder.toInt_indexPrice {i : ℕ} (hi : i < n) :
    (c.indexPrice i).toInt = c.minimumPrice.toInt + i * c.tickSize.toInt := by
  rw [BookConfig.indexPrice, Signed.toInt_add (hl.fits_price hi), hl.toInt_ticks hi]

theorem Ladder.indexPrice_le_iff {i j : ℕ} (hi : i < n) (hj : j < n) :
    c.indexPrice i ≤ c.indexPrice j ↔ i ≤ j := by
  rw [Int64.le_iff_toInt_le, hl.toInt_indexPrice hi, hl.toInt_indexPrice hj]
  have : (i : ℤ) * c.tickSize.toInt ≤ j * c.tickSize.toInt ↔ (i : ℤ) ≤ j :=
    Int.mul_le_mul_right hl.tick_pos
  omega

theorem Ladder.indexPrice_lt_iff {i j : ℕ} (hi : i < n) (hj : j < n) :
    c.indexPrice i < c.indexPrice j ↔ i < j := by
  rw [← Int64.not_le, ← not_le, hl.indexPrice_le_iff hj hi]

theorem Ladder.indexPrice_inj {i j : ℕ} (hi : i < n) (hj : j < n)
    (h : c.indexPrice i = c.indexPrice j) : i = j :=
  le_antisymm ((hl.indexPrice_le_iff hi hj).mp (by rw [h]; exact Int64.le_refl _))
    ((hl.indexPrice_le_iff hj hi).mp (by rw [h]; exact Int64.le_refl _))

theorem Ladder.fits_offset {p : Price} (h1 : c.minimumPrice.toInt ≤ p.toInt)
    (h2 : p.toInt ≤ c.maximumPrice.toInt) : Signed.Fits (p.toInt - c.minimumPrice.toInt) := by
  have h3 := hl.span_lt
  exact ⟨by omega, by omega⟩

theorem Ladder.validPrice_iff (p : Price) :
    c.validPrice p ↔ c.minimumPrice.toInt ≤ p.toInt ∧ p.toInt ≤ c.maximumPrice.toInt ∧
      (p.toInt - c.minimumPrice.toInt) % c.tickSize.toInt = 0 := by
  simp only [BookConfig.validPrice, Bool.and_eq_true, decide_eq_true_eq, ge_iff_le,
    Int64.le_iff_toInt_le, and_assoc]
  refine and_congr_right fun h1 => and_congr_right fun h2 => ?_
  have hsub := Signed.toInt_sub (hl.fits_offset h1 h2)
  rw [← Int64.toInt_inj, Signed.toInt_mod (by omega), hsub, Int64.toInt_zero]

theorem Ladder.priceIndex_spec {p : Price} (hp : c.validPrice p) :
    (c.priceIndex p : ℤ) * c.tickSize.toInt = p.toInt - c.minimumPrice.toInt := by
  obtain ⟨h1, h2, h3⟩ := (hl.validPrice_iff p).mp hp
  have hsub := Signed.toInt_sub (hl.fits_offset h1 h2)
  have hs0 : 0 ≤ (p - c.minimumPrice).toInt := by omega
  have hdiv := Signed.toInt_div hs0 hl.tick_pos
  rw [BookConfig.priceIndex, Signed.toNat_toUInt64
    (by rw [hdiv]; exact Int.ediv_nonneg hs0 hl.tick_pos.le), hdiv, hsub,
    Int.ediv_mul_cancel (Int.dvd_of_emod_eq_zero h3)]

theorem Ladder.priceIndex_lt {p : Price} (hp : c.validPrice p) : c.priceIndex p < n := by
  have h1 := hl.priceIndex_spec hp
  obtain ⟨_, h2, _⟩ := (hl.validPrice_iff p).mp hp
  have h3 := hl.span
  have h4 : (c.priceIndex p : ℤ) * c.tickSize.toInt ≤ (n - 1 : ℕ) * c.tickSize.toInt := by omega
  have h5 := (Int.mul_le_mul_right hl.tick_pos).mp h4
  have h6 := hl.count_pos
  omega

theorem Ladder.indexPrice_priceIndex {p : Price} (hp : c.validPrice p) :
    c.indexPrice (c.priceIndex p) = p := by
  rw [← Int64.toInt_inj, hl.toInt_indexPrice (hl.priceIndex_lt hp), hl.priceIndex_spec hp]
  omega

theorem Ladder.validPrice_indexPrice {i : ℕ} (hi : i < n) : c.validPrice (c.indexPrice i) := by
  have h1 := hl.index_bound hi
  have h2 := hl.span
  have h3 : 0 ≤ (i : ℤ) * c.tickSize.toInt := Int.mul_nonneg (by omega) hl.tick_pos.le
  rw [hl.validPrice_iff, hl.toInt_indexPrice hi]
  refine ⟨by omega, by omega, ?_⟩
  rw [add_sub_cancel_left]
  exact Int.mul_emod_left _ _

theorem Ladder.priceIndex_indexPrice {i : ℕ} (hi : i < n) : c.priceIndex (c.indexPrice i) = i := by
  have hv := hl.validPrice_indexPrice hi
  exact hl.indexPrice_inj (hl.priceIndex_lt hv) hi (hl.indexPrice_priceIndex hv)

theorem Ladder.indexPrice_zero : c.indexPrice 0 = c.minimumPrice := by
  rw [← Int64.toInt_inj, hl.toInt_indexPrice hl.count_pos]
  simp

theorem Ladder.indexPrice_last : c.indexPrice (n - 1) = c.maximumPrice := by
  have := hl.count_pos
  rw [← Int64.toInt_inj, hl.toInt_indexPrice (by omega), hl.span]

theorem Ladder.validPrice_minimum : c.validPrice c.minimumPrice := by
  rw [← hl.indexPrice_zero]
  exact hl.validPrice_indexPrice hl.count_pos

theorem Ladder.validPrice_maximum : c.validPrice c.maximumPrice := by
  rw [← hl.indexPrice_last]
  exact hl.validPrice_indexPrice (Nat.sub_lt hl.count_pos Nat.one_pos)

theorem Ladder.priceIndex_lt_iff {p p' : Price} (hp : c.validPrice p) (hp' : c.validPrice p') :
    c.priceIndex p < c.priceIndex p' ↔ p < p' := by
  rw [← hl.indexPrice_lt_iff (hl.priceIndex_lt hp) (hl.priceIndex_lt hp'),
    hl.indexPrice_priceIndex hp, hl.indexPrice_priceIndex hp']

theorem Ladder.index_ne_noPrice {i : ℕ} (hi : i < n) : i ≠ noPrice := by
  have := hl.count_lt
  unfold noPrice sizeMax
  omega

theorem Ladder.toNat_node {node : ℕ} (hnode : node < c.maximumOrders.toNat) :
    (UInt32.ofNat node).toNat = node := by
  have hle := hl.orders_le
  unfold uint32Max at hle
  exact UInt32.toNat_ofNat_of_lt' (show node < 2 ^ 32 by omega)

end Prices

end Dme
