import Mathlib

/-!
# Bitmaps in 64-bit words

* `IsSet bits i`: bit `i` of a vector of words; `isSet_setBit`, `isSet_clearBit`: what writing one
  word with a bit added or removed does to all bits.
* `countrZero`, `countlZero`: trailing and leading zeros of a word; `countrZero_spec`,
  `countlZero_spec`: on a nonzero word they name its lowest and its highest set bit.
-/

set_option autoImplicit false

namespace Bitmap

/-- Bit `k` of a word. -/
def bit (w : UInt64) (k : ℕ) : Bool := w.toNat.testBit k

/-- The word whose only set bit is `k`. -/
def single (k : ℕ) : UInt64 := (1 : UInt64) <<< UInt64.ofNat k

variable {w : UInt64} {j k : ℕ}

theorem toNat_single (hk : k < 64) : (single k).toNat = 2 ^ k := by
  rw [single, UInt64.toNat_shiftLeft, UInt64.toNat_ofNat', Nat.shiftLeft_eq]
  have h1 : k % 2 ^ 64 % 64 = k := by omega
  rw [h1, UInt64.toNat_one, one_mul, Nat.mod_eq_of_lt]
  exact Nat.pow_lt_pow_right (by decide) hk

theorem bit_single (hk : k < 64) : bit (single k) j = decide (k = j) := by
  rw [bit, toNat_single hk, Nat.testBit_two_pow]

theorem bit_or (w v : UInt64) : bit (w ||| v) j = (bit w j || bit v j) := by
  rw [bit, UInt64.toNat_or, Nat.testBit_or, bit, bit]

theorem bit_and (w v : UInt64) : bit (w &&& v) j = (bit w j && bit v j) := by
  rw [bit, UInt64.toNat_and, Nat.testBit_and, bit, bit]

theorem bit_not (hj : j < 64) : bit (~~~ w) j = !bit w j := by
  rw [bit, bit, UInt64.toNat_not]
  have h := w.toNat_lt
  rw [show UInt64.size - 1 - w.toNat = 2 ^ 64 - (w.toNat + 1) from by
    simp only [UInt64.size]; omega, Nat.testBit_two_pow_sub_succ h]
  simp [hj]

theorem bit_lt (h : bit w k = true) : k < 64 := by
  by_contra hk
  rw [bit, Nat.testBit_lt_two_pow] at h
  · cases h
  · exact lt_of_lt_of_le w.toNat_lt (Nat.pow_le_pow_right (by decide) (by omega))

theorem eq_zero_iff : w = 0 ↔ ∀ k < 64, bit w k = false := by
  constructor
  · rintro rfl k _; simp [bit]
  · intro h
    rw [← UInt64.toNat_inj]
    refine Nat.eq_of_testBit_eq fun k => ?_
    by_cases hk : k < 64
    · have := h k hk
      simpa [bit] using this
    · have : bit w k = false := by
        by_contra hb
        exact hk (bit_lt (by simpa using hb))
      simpa [bit] using this

/-! ## Zero counts -/

/-- The number of zero bits below the lowest set bit; `64` for the zero word. -/
def countrZero (w : UInt64) : ℕ := ((List.range 64).find? fun k => bit w k).getD 64

/-- The number of zero bits above the highest set bit; `64` for the zero word. -/
def countlZero (w : UInt64) : ℕ := ((List.range 64).find? fun k => bit w (63 - k)).getD 64

theorem countrZero_spec (hw : w ≠ 0) :
    countrZero w < 64 ∧ bit w (countrZero w) = true ∧ ∀ j < countrZero w, bit w j = false := by
  have hex : ∃ k < 64, bit w k = true := by
    by_contra h
    push Not at h
    exact hw (eq_zero_iff.mpr fun k hk => by simpa using h k hk)
  obtain ⟨k, hk, hb⟩ := hex
  unfold countrZero
  cases hf : (List.range 64).find? fun k => bit w k with
  | none =>
    rw [List.find?_eq_none] at hf
    exact absurd hb (hf k (List.mem_range.mpr hk))
  | some i =>
    rw [List.find?_range_eq_some] at hf
    refine ⟨List.mem_range.mp hf.2.1, hf.1, fun j hj => ?_⟩
    have := hf.2.2 j hj
    simpa using this

theorem countlZero_spec (hw : w ≠ 0) :
    countlZero w < 64 ∧ bit w (63 - countlZero w) = true ∧
      ∀ j, 63 - countlZero w < j → bit w j = false := by
  have hex : ∃ k < 64, bit w (63 - k) = true := by
    by_contra h
    push Not at h
    refine hw (eq_zero_iff.mpr fun k hk => ?_)
    have := h (63 - k) (by omega)
    rw [show 63 - (63 - k) = k by omega] at this
    simpa using this
  obtain ⟨k, hk, hb⟩ := hex
  unfold countlZero
  cases hf : (List.range 64).find? fun k => bit w (63 - k) with
  | none =>
    rw [List.find?_eq_none] at hf
    exact absurd hb (hf k (List.mem_range.mpr hk))
  | some i =>
    rw [List.find?_range_eq_some] at hf
    have hi := List.mem_range.mp hf.2.1
    refine ⟨hi, hf.1, fun j hj => ?_⟩
    simp only [Option.getD_some] at hj
    by_contra hbj
    have hj64 : j < 64 := bit_lt (by simpa using hbj)
    have := hf.2.2 (63 - j) (by omega)
    rw [show 63 - (63 - j) = j by omega] at this
    simp at this
    exact hbj this

/-! ## Vectors of words -/

variable {bits : Array UInt64} {i : ℕ}

/-- Bit `i` of a vector of words. -/
def IsSet (bits : Array UInt64) (i : ℕ) : Prop := bit (bits[i / 64]?.getD 0) (i % 64) = true

theorem ext {bits bits' : Array UInt64} (hsize : bits'.size = bits.size)
    (h : ∀ i, IsSet bits' i ↔ IsSet bits i) : bits' = bits := by
  refine Array.ext hsize fun j hj hj' => UInt64.toNat_inj.mp (Nat.eq_of_testBit_eq fun k => ?_)
  by_cases hk : k < 64
  · have hdiv : (j * 64 + k) / 64 = j := by omega
    have hmod : (j * 64 + k) % 64 = k := by omega
    have := h (j * 64 + k)
    rw [IsSet, IsSet, hdiv, hmod, Array.getElem?_eq_getElem hj, Array.getElem?_eq_getElem hj',
      Option.getD_some, Option.getD_some, bit, bit] at this
    exact Bool.eq_iff_iff.mpr this
  · have hhigh : ∀ w : UInt64, w.toNat.testBit k = false := by
      intro w
      by_contra hb
      exact hk (bit_lt (w := w) (by simpa [bit] using hb))
    rw [hhigh, hhigh]

theorem isSet_lt (h : IsSet bits i) : i / 64 < bits.size := by
  by_contra hge
  simp [IsSet, Array.getElem?_eq_none (by omega : bits.size ≤ i / 64), bit] at h

/-- The vector with the bit `i` added to its word. -/
def setBit (bits : Array UInt64) (i : ℕ) : Array UInt64 :=
  bits.setIfInBounds (i / 64) (bits[i / 64]?.getD 0 ||| single (i % 64))

/-- The vector with the bit `i` removed from its word. -/
def clearBit (bits : Array UInt64) (i : ℕ) : Array UInt64 :=
  bits.setIfInBounds (i / 64) (bits[i / 64]?.getD 0 &&& ~~~ single (i % 64))

theorem isSet_setBit (hi : i / 64 < bits.size) (j : ℕ) :
    IsSet (setBit bits i) j ↔ j = i ∨ IsSet bits j := by
  have hm : i % 64 < 64 := Nat.mod_lt _ (by decide)
  simp only [IsSet, setBit, Array.getElem?_setIfInBounds, hi, if_true]
  by_cases h : i / 64 = j / 64
  · have hij : i % 64 = j % 64 ↔ j = i := by omega
    rw [if_pos h, Option.getD_some, bit_or, bit_single hm, ← h, Bool.or_eq_true, decide_eq_true_eq,
      hij, or_comm]
  · rw [if_neg h, or_iff_right (fun e => h (by rw [e]))]

theorem isSet_clearBit (hi : i / 64 < bits.size) (j : ℕ) :
    IsSet (clearBit bits i) j ↔ j ≠ i ∧ IsSet bits j := by
  have hm : i % 64 < 64 := Nat.mod_lt _ (by decide)
  have hj : j % 64 < 64 := Nat.mod_lt _ (by decide)
  simp only [IsSet, clearBit, Array.getElem?_setIfInBounds, hi, if_true]
  by_cases h : i / 64 = j / 64
  · have hij : i % 64 = j % 64 ↔ j = i := by omega
    rw [if_pos h, Option.getD_some, bit_and, bit_not hj, bit_single hm, ← h, Bool.and_eq_true,
      Bool.not_eq_true', decide_eq_false_iff_not, hij, and_comm]
  · rw [if_neg h, and_iff_right (fun e => h (by rw [e]))]

end Bitmap
