import Mathlib.Data.Nat.Digits.Defs
import Mathlib.Tactic.Common

/-!
# Words in little-endian order

* `load`: the number whose digits to base 256 are the bytes, the least significant one first.
* `store`: the `k` lowest digits of a number; **`load_store`**, **`store_load`**.
* `setByte`: a number with one of its digits replaced; **`load_set`**.
-/

set_option autoImplicit false

namespace Endian

/-- The number that bytes stand for, the least significant one first. -/
def load (bytes : List UInt8) : ℕ := Nat.ofDigits 256 (bytes.map UInt8.toNat)

theorem load_cons (byte : UInt8) (bytes : List UInt8) :
    load (byte :: bytes) = byte.toNat + 256 * load bytes := by
  simp [load, Nat.ofDigits_cons]

/-- The `k` lowest bytes of a number. -/
def store : ℕ → ℕ → List UInt8
  | 0, _ => []
  | k + 1, n => UInt8.ofNat n :: store k (n / 256)

@[simp] theorem length_store (k n : ℕ) : (store k n).length = k := by
  induction k generalizing n with
  | zero => rfl
  | succ k ih => simp [store, ih]

theorem load_store {k n : ℕ} (h : n < 256 ^ k) : load (store k n) = n := by
  induction k generalizing n with
  | zero =>
    rw [Nat.pow_zero, Nat.lt_one_iff] at h
    rw [h]
    rfl
  | succ k ih =>
    have hdiv : n / 256 < 256 ^ k := Nat.div_lt_of_lt_mul (by rwa [← Nat.pow_succ'])
    rw [store, load_cons, ih hdiv, UInt8.toNat_ofNat']
    omega

theorem load_lt (bytes : List UInt8) : load bytes < 256 ^ bytes.length := by
  induction bytes with
  | nil => exact Nat.one_pos
  | cons byte bytes ih =>
    have hbyte := byte.toNat_lt
    rw [load_cons, List.length_cons, Nat.pow_succ]
    omega

theorem store_load (bytes : List UInt8) : store bytes.length (load bytes) = bytes := by
  induction bytes with
  | nil => rfl
  | cons byte bytes ih =>
    have hbyte := byte.toNat_lt
    have hdiv : (byte.toNat + 256 * load bytes) / 256 = load bytes := by omega
    have hmod : UInt8.ofNat (byte.toNat + 256 * load bytes) = byte := by
      apply UInt8.toNat.inj
      rw [UInt8.toNat_ofNat']
      omega
    rw [load_cons, List.length_cons, store, hdiv, hmod, ih]

theorem load_inj {bytes bytes' : List UInt8} (hlen : bytes'.length = bytes.length)
    (h : load bytes' = load bytes) : bytes' = bytes := by
  rw [← store_load bytes', hlen, h, store_load]

/-- The number with its byte `k`, counted from the lowest, replaced. -/
def setByte (n k : ℕ) (byte : UInt8) : ℕ :=
  n % 256 ^ k + 256 ^ k * (byte.toNat + 256 * (n / 256 ^ (k + 1)))

/-- **A byte of the bytes is a byte of the number.** -/
theorem load_set {bytes : List UInt8} {k : ℕ} (hk : k < bytes.length) (byte : UInt8) :
    load (bytes.set k byte) = setByte (load bytes) k byte := by
  induction bytes generalizing k with
  | nil => exact absurd hk (Nat.not_lt_zero k)
  | cons b bytes ih =>
    have hb := b.toNat_lt
    have hdiv : (b.toNat + 256 * load bytes) / 256 = load bytes := by omega
    have hmod : (b.toNat + 256 * load bytes) % 256 = b.toNat := by omega
    cases k with
    | zero =>
      rw [List.set_cons_zero, load_cons, load_cons, setByte]
      simp [Nat.mod_one, hdiv]
    | succ k =>
      rw [List.set_cons_succ, load_cons, load_cons, ih (Nat.lt_of_succ_lt_succ hk), setByte, setByte,
        Nat.pow_succ' (n := k + 1), ← Nat.div_div_eq_div_mul, hdiv, Nat.pow_succ' (n := k), Nat.mod_mul,
        hdiv, hmod]
      ring

theorem store_zero (k : ℕ) : store k 0 = List.replicate k 0 := by
  induction k with
  | zero => rfl
  | succ k ih =>
    rw [store, Nat.zero_div, ih]
    rfl

end Endian
