import Mathlib

/-!
# Shared types

The identifiers, commands and events of `types.hpp`, and the outcome of a C++ statement.

* Sequences, quantities and order ids are 64-bit unsigned, prices 64-bit signed; unsigned
  arithmetic wraps as the source's does.
* **`Fault`**: everything that can stop a call short of returning: a thrown exception, with its
  text, or a step the language leaves undefined.
* `vecGet`, `vecSet`: indexing a `std::vector`, undefined outside its bounds; `vecAt` is the
  unchecked reading used in specifications.
* `bitCeil`: `std::bit_ceil`.
-/

set_option autoImplicit false

namespace Dme

/-- The id a client gives to an order. -/
abbrev OrderId := UInt64
/-- The position of a command in the engine's order. -/
abbrev Sequence := UInt64
/-- A price in ticks or subunits, which may be negative. -/
abbrev Price := Int64
/-- A quantity, which is never negative. -/
abbrev Quantity := UInt64

/-- The side of an order. -/
inductive Side
  | buy
  | sell
deriving DecidableEq, Repr

/-- What becomes of an order that is not filled at once. -/
inductive OrderType
  | limit
  | market
  | immediateOrCancel
  | fillOrKill
deriving DecidableEq, Repr

/-- What a command asks for. -/
inductive CommandType
  | new
  | cancel
  | replace
deriving DecidableEq, Repr

/-- What an event tells of. -/
inductive EventType
  | accepted
  | rejected
  | trade
  | cancelled
  | replaced
  | rested
deriving DecidableEq, Repr

/-- Why a command or a request is rejected. -/
inductive RejectReason
  | none
  | invalidQuantity
  | invalidPrice
  | duplicateOrderId
  | unknownOrderId
  | bookCapacity
  | wouldNotFill
  | sequenceGap
  | invalidSessionSequence
  | riskLimit
  | gatewayBackpressure
deriving DecidableEq, Repr

/-- A command to the book; which fields matter depends on its type. -/
structure Command where
  sequence : Sequence := 0
  type : CommandType := .new
  side : Side := .buy
  orderType : OrderType := .limit
  reserved : UInt8 := 0
  orderId : OrderId := 0
  price : Price := 0
  quantity : Quantity := 0
deriving DecidableEq, Repr

/-- An event of the book. -/
structure Event where
  sequence : Sequence := 0
  type : EventType := .accepted
  aggressorSide : Side := .buy
  reason : RejectReason := .none
  reserved : UInt8 := 0
  orderId : OrderId := 0
  contraOrderId : OrderId := 0
  price : Price := 0
  quantity : Quantity := 0
deriving DecidableEq, Repr

/-- The other side of the book. -/
def Side.opposite : Side → Side
  | .buy => .sell
  | .sell => .buy

theorem Side.opposite_ne (s : Side) : s.opposite ≠ s := by cases s <;> decide

/-! ## Outcomes -/

/-- **What keeps a call from returning**: an exception with its text, an access outside a vector,
`back()` of an empty vector, an unsigned counter taken below zero, or a loop that is still running
after the number of iterations its data allow. -/
inductive Fault
  | invalidArgument (what : String)
  | logicError (what : String)
  | runtimeError (what : String)
  | lengthError (what : String)
  | outOfRange
  | emptyBack
  | underflow
  | endless
deriving DecidableEq, Repr

theorem bind_eq_ok {α β : Type} {x : Except Fault α} {f : α → Except Fault β} {r : β} :
    x >>= f = .ok r ↔ ∃ a, x = .ok a ∧ f a = .ok r := by
  cases x with
  | error e => simp [bind, Except.bind]
  | ok a => simp [bind, Except.bind]

variable {α : Type}

/-- `std::vector::max_size()` for elements of `size` bytes. -/
def maxSize (size : ℕ) : ℕ := (2 ^ 63 - 1) / size

/-- `std::vector(count)` for elements of `size` bytes. -/
def vecNew (size count : ℕ) (x : α) : Except Fault (Array α) :=
  if count > maxSize size then
    .error (.lengthError "cannot create std::vector larger than max_size()")
  else .ok (Array.replicate count x)

/-- `v[i]` read. -/
def vecGet (v : Array α) (i : ℕ) : Except Fault α :=
  match v[i]? with
  | some x => .ok x
  | none => .error .outOfRange

/-- `v[i] = x`. -/
def vecSet (v : Array α) (i : ℕ) (x : α) : Except Fault (Array α) :=
  if i < v.size then .ok (v.setIfInBounds i x) else .error .outOfRange

/-- Element `i`, or the default past the end. -/
def vecAt [Inhabited α] (v : Array α) (i : ℕ) : α := v[i]?.getD default

theorem vecNew_eq_ok {size count : ℕ} {x : α} {v : Array α} :
    vecNew size count x = .ok v ↔ count ≤ maxSize size ∧ Array.replicate count x = v := by
  rw [vecNew]
  split_ifs with h
  · exact iff_of_false (by simp) fun hv => absurd hv.1 (Nat.not_le.mpr h)
  · simp [Nat.not_lt.mp h]

theorem vecGet_eq [Inhabited α] {v : Array α} {i : ℕ} (h : i < v.size) :
    vecGet v i = .ok (vecAt v i) := by
  simp [vecGet, vecAt, h]

theorem vecSet_eq {v : Array α} {i : ℕ} (h : i < v.size) (x : α) :
    vecSet v i x = .ok (v.setIfInBounds i x) := if_pos h

theorem vecAt_set [Inhabited α] (v : Array α) {i : ℕ} (h : i < v.size) (x : α) (j : ℕ) :
    vecAt (v.setIfInBounds i x) j = if i = j then x else vecAt v j := by
  simp only [vecAt, Array.getElem?_setIfInBounds]
  split_ifs <;> simp

theorem vecAt_set_self [Inhabited α] {v : Array α} {i : ℕ} (h : i < v.size) (x : α) :
    vecAt (v.setIfInBounds i x) i = x := by rw [vecAt_set v h, if_pos rfl]

theorem vecAt_set_ne [Inhabited α] {v : Array α} {i j : ℕ} (h : i < v.size) (hne : i ≠ j) (x : α) :
    vecAt (v.setIfInBounds i x) j = vecAt v j := by rw [vecAt_set v h, if_neg hne]

theorem vecAt_ext [Inhabited α] {v v' : Array α} (hsize : v'.size = v.size)
    (h : ∀ i < v.size, vecAt v' i = vecAt v i) : v' = v := by
  refine Array.ext hsize fun i hi hi' => ?_
  have := h i hi'
  simpa [vecAt, hi, hi'] using this

theorem vecAt_replicate [Inhabited α] (n : ℕ) (i : ℕ) :
    vecAt (Array.replicate n (default : α)) i = default := by
  simp only [vecAt, Array.getElem?_replicate]
  split_ifs <;> rfl

/-! ## The smaller of two words -/

theorem min_of_lt {a b : UInt64} (h : a < b) : min a b = a := by
  rw [UInt64.min_def, if_pos (UInt64.le_of_lt h)]

theorem min_of_not_lt {a b : UInt64} (h : ¬ a < b) : min a b = b := by
  rw [UInt64.min_def]
  split_ifs with hle
  · exact UInt64.le_antisymm hle (UInt64.not_lt.mp h)
  · rfl

/-! ## Sizes -/

/-- The least power of two that is at least `x`. -/
def bitCeil (x : ℕ) : ℕ := if x ≤ 1 then 1 else 2 ^ ((x - 1).log2 + 1)

theorem bitCeil_isPow (x : ℕ) : ∃ k, bitCeil x = 2 ^ k := by
  unfold bitCeil
  split_ifs
  · exact ⟨0, rfl⟩
  · exact ⟨_, rfl⟩

theorem le_bitCeil (x : ℕ) : x ≤ bitCeil x := by
  unfold bitCeil
  split_ifs with h
  · exact h
  · have := Nat.lt_log2_self (n := x - 1)
    omega

theorem bitCeil_le_two_pow {x k : ℕ} (h : x ≤ 2 ^ k) : bitCeil x ≤ 2 ^ k := by
  unfold bitCeil
  split_ifs with hx
  · exact Nat.one_le_two_pow
  · exact Nat.pow_le_pow_right (by decide) ((Nat.log2_lt (by omega)).mpr (by omega))

end Dme
