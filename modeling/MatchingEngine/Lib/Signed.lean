import Mathlib

/-!
# Signed 64-bit arithmetic

`Int64` wraps around. In C++ a signed operation whose result 64 bits do not hold is undefined.

* `toInt_add`, `toInt_sub`, `toInt_mul`, `toInt_div`, `toInt_mod`: the wrapping operations are those of
  the integers, in range.
* `add`, `sub`, `mul`, `div`, `rem`: the operations with no value where C++ gives them no meaning;
  `add_eq_some` and its companions: their value, when there is one.
-/

set_option autoImplicit false

namespace Signed

variable {a b r : Int64} {x : ℤ}

/-- 64 bits hold the integer. -/
def Fits (x : ℤ) : Prop := -2 ^ 63 ≤ x ∧ x < 2 ^ 63

instance : DecidablePred Fits := fun _ => by unfold Fits; infer_instance

theorem fits_toInt (a : Int64) : Fits a.toInt := ⟨a.le_toInt, a.toInt_lt⟩

/-! ## The wrapping operations -/

theorem bmod_of_fits (h : Fits x) : x.bmod (2 ^ 64) = x :=
  Int.bmod_eq_of_le (by have := h.1; norm_num; omega) (by have := h.2; norm_num; omega)

theorem toInt_add (h : Fits (a.toInt + b.toInt)) : (a + b).toInt = a.toInt + b.toInt := by
  rw [Int64.toInt_add, bmod_of_fits h]

theorem toInt_sub (h : Fits (a.toInt - b.toInt)) : (a - b).toInt = a.toInt - b.toInt := by
  rw [Int64.toInt_sub, bmod_of_fits h]

theorem toInt_mul (h : Fits (a.toInt * b.toInt)) : (a * b).toInt = a.toInt * b.toInt := by
  rw [Int64.toInt_mul, bmod_of_fits h]

theorem tdiv_of_nonneg (ha : 0 ≤ a.toInt) : a.toInt.tdiv b.toInt = a.toInt / b.toInt :=
  Int.tdiv_eq_ediv_of_nonneg ha

theorem fits_div (ha : 0 ≤ a.toInt) (hb : 0 < b.toInt) : Fits (a.toInt / b.toInt) := by
  have h1 := a.toInt_lt
  have h2 : a.toInt / b.toInt ≤ a.toInt := Int.ediv_le_self _ ha
  have h3 : 0 ≤ a.toInt / b.toInt := Int.ediv_nonneg ha hb.le
  exact ⟨by omega, by omega⟩

theorem toInt_div (ha : 0 ≤ a.toInt) (hb : 0 < b.toInt) : (a / b).toInt = a.toInt / b.toInt := by
  rw [Int64.toInt_div, tdiv_of_nonneg ha, bmod_of_fits (fits_div ha hb)]

theorem toInt_mod (ha : 0 ≤ a.toInt) : (a % b).toInt = a.toInt % b.toInt := by
  rw [Int64.toInt_mod, Int.tmod_eq_emod_of_nonneg ha]

theorem toNat_toUInt64 (ha : 0 ≤ a.toInt) : (a.toUInt64.toNat : ℤ) = a.toInt := by
  have h : (0 : Int64) ≤ a := by rw [Int64.le_iff_toInt_le]; simpa using ha
  rw [Int64.toNat_toUInt64_of_le h, Int64.toInt_eq_toNatClampNeg h]

/-! ## The operations of C++ -/

/-- The integer, if 64 bits hold it. -/
def ofInt (x : ℤ) : Option Int64 := if Fits x then some (Int64.ofInt x) else none

/-- The sum, undefined where it overflows. -/
def add (a b : Int64) : Option Int64 := ofInt (a.toInt + b.toInt)

/-- The difference, undefined where it overflows. -/
def sub (a b : Int64) : Option Int64 := ofInt (a.toInt - b.toInt)

/-- The product, undefined where it overflows. -/
def mul (a b : Int64) : Option Int64 := ofInt (a.toInt * b.toInt)

/-- The quotient, rounded towards zero; there is none by zero. -/
def div (a b : Int64) : Option Int64 := if b = 0 then none else ofInt (a.toInt.tdiv b.toInt)

/-- The remainder, defined where the quotient is. -/
def rem (a b : Int64) : Option Int64 := (div a b).bind fun _ => ofInt (a.toInt.tmod b.toInt)

theorem ofInt_toInt (r : Int64) : ofInt r.toInt = some r := by
  rw [ofInt, if_pos (fits_toInt r), Int64.ofInt_toInt]

theorem add_eq_some (h : Fits (a.toInt + b.toInt)) : add a b = some (a + b) := by
  rw [add, ← toInt_add h, ofInt_toInt]

theorem sub_eq_some (h : Fits (a.toInt - b.toInt)) : sub a b = some (a - b) := by
  rw [sub, ← toInt_sub h, ofInt_toInt]

theorem mul_eq_some (h : Fits (a.toInt * b.toInt)) : mul a b = some (a * b) := by
  rw [mul, ← toInt_mul h, ofInt_toInt]

theorem div_eq_some (ha : 0 ≤ a.toInt) (hb : 0 < b.toInt) : div a b = some (a / b) := by
  have h0 : b ≠ 0 := by
    rintro rfl
    exact absurd hb (by decide)
  rw [div, if_neg h0, tdiv_of_nonneg ha, ← toInt_div ha hb, ofInt_toInt]

theorem rem_eq_some (ha : 0 ≤ a.toInt) (hb : 0 < b.toInt) : rem a b = some (a % b) := by
  rw [rem, div_eq_some ha hb, Option.bind_some, ← Int64.toInt_mod, ofInt_toInt]

end Signed
