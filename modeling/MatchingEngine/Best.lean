import MatchingEngine.Ops

/-!
# The best level

* `Side.Ahead s j i`: level `j` of side `s` has a better price than level `i`.
* `bestIndex_spec`: what `best_index` finds in any bitmap.
* **`Core.bestIndex`**: it finds the occupied level with no occupied level ahead of it.
* `levelsFrom s n i`: the levels from `i` on, best first; `bestFirst`: all of them.
* `crossTotal`: what the crossing levels of a list hold.
-/

set_option autoImplicit false

namespace Dme

/-- Level `j` of this side has a better price than level `i`. -/
def Side.Ahead : Side → ℕ → ℕ → Prop
  | .sell, j, i => j < i
  | .buy, j, i => i < j

/-! ## The scans of the bitmap -/

section Scan

variable {bits : Array UInt64} {word : ℕ}

theorem isSet_word (word : ℕ) {j : ℕ} (hj : j / 64 = word) :
    Bitmap.IsSet bits j ↔ Bitmap.bit (vecAt bits word) (j % 64) = true := by
  rw [Bitmap.IsSet, hj]
  rfl

theorem not_isSet_of_word (h0 : vecAt bits word = 0) {j : ℕ}
    (h : j / 64 ≠ word → ¬ Bitmap.IsSet bits j) : ¬ Bitmap.IsSet bits j := by
  by_cases hj : j / 64 = word
  · rw [isSet_word word hj, h0]
    simp [Bitmap.bit]
  · exact h hj

theorem lowestActive_spec (bits : Array UInt64) (words word : ℕ) (h : word + words = bits.size) :
    ∃ r, OrderBook.lowestActive bits words word = .ok r ∧
      ((r = noPrice ∧ ∀ j, word * 64 ≤ j → ¬ Bitmap.IsSet bits j) ∨
        (Bitmap.IsSet bits r ∧ ∀ j, word * 64 ≤ j → j < r → ¬ Bitmap.IsSet bits j)) := by
  induction words generalizing word with
  | zero =>
    refine ⟨noPrice, rfl, Or.inl ⟨rfl, fun j hj hset => ?_⟩⟩
    have := Bitmap.isSet_lt hset
    omega
  | succ words ih =>
    have hw : word < bits.size := by omega
    simp only [OrderBook.lowestActive, vecGet_eq hw, bind, Except.bind]
    by_cases h0 : vecAt bits word = 0
    · obtain ⟨r, hr, hcase⟩ := ih (word + 1) (by omega)
      refine ⟨r, by rw [if_neg (not_not.mpr h0), hr], ?_⟩
      refine hcase.imp (And.imp_right fun hno j hj => ?_) (And.imp_right fun hno j hj hjr => ?_)
      · exact not_isSet_of_word h0 fun hjw => hno j (by omega)
      · exact not_isSet_of_word h0 fun hjw => hno j (by omega) hjr
    · obtain ⟨hlt, hbit, hbelow⟩ := Bitmap.countrZero_spec h0
      refine ⟨_, if_pos h0, Or.inr ⟨(isSet_word word (by omega)).mpr ?_, fun j hj hjr => ?_⟩⟩
      · rwa [show (word * 64 + Bitmap.countrZero (vecAt bits word)) % 64 =
          Bitmap.countrZero (vecAt bits word) by omega]
      · rw [isSet_word word (by omega), hbelow _ (by omega)]
        simp

theorem highestActive_spec (bits : Array UInt64) (word : ℕ) (h : word ≤ bits.size) :
    ∃ r, OrderBook.highestActive bits word = .ok r ∧
      ((r = noPrice ∧ ∀ j < word * 64, ¬ Bitmap.IsSet bits j) ∨
        (Bitmap.IsSet bits r ∧ ∀ j < word * 64, r < j → ¬ Bitmap.IsSet bits j)) := by
  induction word with
  | zero => exact ⟨noPrice, rfl, Or.inl ⟨rfl, fun j hj => by omega⟩⟩
  | succ word ih =>
    have hw : word < bits.size := by omega
    simp only [OrderBook.highestActive, vecGet_eq hw, bind, Except.bind]
    by_cases h0 : vecAt bits word = 0
    · obtain ⟨r, hr, hcase⟩ := ih (by omega)
      refine ⟨r, by rw [if_neg (not_not.mpr h0), hr], ?_⟩
      refine hcase.imp (And.imp_right fun hno j hj => ?_) (And.imp_right fun hno j hj hjr => ?_)
      · exact not_isSet_of_word h0 fun hjw => hno j (by omega)
      · exact not_isSet_of_word h0 fun hjw => hno j (by omega) hjr
    · obtain ⟨hlt, hbit, habove⟩ := Bitmap.countlZero_spec h0
      refine ⟨_, if_pos h0, Or.inr ⟨(isSet_word word (by omega)).mpr ?_, fun j hj hjr => ?_⟩⟩
      · rwa [show (word * 64 + (63 - Bitmap.countlZero (vecAt bits word))) % 64 =
          63 - Bitmap.countlZero (vecAt bits word) by omega]
      · rw [isSet_word word (by omega), habove _ (by omega)]
        simp

end Scan

variable {b : OrderBook} {q : Queues} {s : Side} {i : ℕ}

/-- **What `best_index` finds in any bitmap**: no bit, or a bit with none ahead of it. -/
theorem bestIndex_spec (b : OrderBook) (s : Side) :
    ∃ i, b.bestIndex s = .ok i ∧ ((i = noPrice ∧ ∀ j, ¬ Bitmap.IsSet (b.bits s) j) ∨
      (Bitmap.IsSet (b.bits s) i ∧ ∀ j, s.Ahead j i → ¬ Bitmap.IsSet (b.bits s) j)) := by
  cases s with
  | sell =>
    obtain ⟨r, hr, hcase⟩ := lowestActive_spec b.askBits b.askBits.size 0 (by simp)
    exact ⟨r, hr, hcase.imp (And.imp_right fun hno j => hno j (by omega))
      (And.imp_right fun hno j hj => hno j (by omega) hj)⟩
  | buy =>
    obtain ⟨r, hr, hcase⟩ := highestActive_spec b.bidBits b.bidBits.size le_rfl
    refine ⟨r, hr, hcase.imp (And.imp_right fun hno j hset => ?_)
      (And.imp_right fun hno j hj hset => ?_)⟩
    · have : j / 64 < b.bidBits.size := Bitmap.isSet_lt hset
      exact hno j (by omega) hset
    · have : j / 64 < b.bidBits.size := Bitmap.isSet_lt hset
      exact hno j (by omega) hj hset

theorem Core.bestIndex (h : Core b q) (s : Side) :
    ∃ i, b.bestIndex s = .ok i ∧ ((i = noPrice ∧ ∀ j, q s j = []) ∨
      (i < b.priceCount ∧ q s i ≠ [] ∧ ∀ j, s.Ahead j i → q s j = [])) := by
  have hempty : ∀ j, ¬ Bitmap.IsSet (b.bits s) j → q s j = [] := fun j hj => by
    rwa [h.active, not_not] at hj
  obtain ⟨i, hi, hcase⟩ := bestIndex_spec b s
  refine ⟨i, hi, hcase.imp (And.imp_right fun hno j => hempty j (hno j)) ?_⟩
  rintro ⟨hset, hno⟩
  have hne := (h.active s i).mp hset
  refine ⟨?_, hne, fun j hj => hempty j (hno j hj)⟩
  by_contra hge
  exact hne (h.outside s i (by omega))

/-! ## The levels in order -/

/-- The levels from `i` on, best first. -/
def levelsFrom (s : Side) (n i : ℕ) : List ℕ :=
  match s with
  | .sell => List.range' i (n - i)
  | .buy => (List.range (i + 1)).reverse

/-- The levels behind level `i`, best first. -/
def levelsAfter (s : Side) (n i : ℕ) : List ℕ :=
  match s with
  | .sell => List.range' (i + 1) (n - (i + 1))
  | .buy => (List.range i).reverse

theorem levelsFrom_eq {n : ℕ} (hi : i < n) : levelsFrom s n i = i :: levelsAfter s n i := by
  cases s with
  | sell =>
    simp only [levelsFrom, levelsAfter]
    rw [show n - i = (n - (i + 1)) + 1 by omega, List.range'_succ]
  | buy =>
    simp only [levelsFrom, levelsAfter]
    rw [List.range_succ, List.reverse_append]
    rfl

theorem mem_levelsFrom {n j : ℕ} (hi : i < n) (hj : j ∈ levelsFrom s n i) :
    j < n ∧ (j = i ∨ s.Ahead i j) := by
  cases s with
  | sell =>
    simp only [levelsFrom, List.mem_range'_1] at hj
    simp only [Side.Ahead]
    omega
  | buy =>
    simp only [levelsFrom, List.mem_reverse, List.mem_range] at hj
    simp only [Side.Ahead]
    omega

/-- What the crossing levels of a list hold, by the totals of the levels. -/
def crossTotal (b : OrderBook) (a : Side) (limit : Price) (l : List ℕ) : ℕ :=
  (l.map fun j => if crossesPrice a limit (b.config.indexPrice j)
    then (b.level a.opposite j).totalQuantity.toNat else 0).sum

variable {a : Side} {limit : Price}

theorem Core.not_crosses_behind (h : Core b q) {j : ℕ} (hi : i < b.priceCount) (hj : j < b.priceCount)
    (hij : a.opposite.Ahead i j)
    (hc : crossesPrice a limit (b.config.indexPrice i) = false) :
    crossesPrice a limit (b.config.indexPrice j) = false := by
  cases a with
  | buy =>
    have hlt := (h.ladder.indexPrice_lt_iff hi hj).mpr hij
    simp only [crossesPrice, decide_eq_false_iff_not, Int64.not_le] at hc ⊢
    exact Int64.lt_trans hc hlt
  | sell =>
    have hlt := (h.ladder.indexPrice_lt_iff hj hi).mpr hij
    simp only [crossesPrice, ge_iff_le, decide_eq_false_iff_not, Int64.not_le] at hc ⊢
    exact Int64.lt_trans hlt hc

/-- The levels of a side, best first. -/
def bestFirst (s : Side) (n : ℕ) : List ℕ :=
  match s with
  | .sell => List.range n
  | .buy => (List.range n).reverse

@[simp] theorem mem_bestFirst {n j : ℕ} : j ∈ bestFirst s n ↔ j < n := by
  cases s <;> simp [bestFirst]

theorem bestFirst_split {n : ℕ} (hi : i < n) :
    ∃ l, bestFirst s n = l ++ levelsFrom s n i ∧ ∀ j ∈ l, s.Ahead j i := by
  cases s with
  | sell =>
    refine ⟨List.range i, ?_, fun j hj => List.mem_range.mp hj⟩
    simp only [bestFirst, levelsFrom, List.range_eq_range']
    rw [show List.range' i (n - i) = List.range' (0 + i) (n - i) by rw [Nat.zero_add],
      List.range'_append_1, Nat.add_sub_cancel' hi.le]
  | buy =>
    refine ⟨(List.range' (i + 1) (n - (i + 1))).reverse, ?_, fun j hj => ?_⟩
    · simp only [bestFirst, levelsFrom]
      rw [← List.reverse_append, List.range_eq_range', List.range_eq_range',
        show List.range' (i + 1) (n - (i + 1)) = List.range' (0 + (i + 1)) (n - (i + 1)) by
          rw [Nat.zero_add], List.range'_append_1, Nat.add_sub_cancel' hi]
    · rw [List.mem_reverse, List.mem_range'_1] at hj
      exact hj.1

end Dme
