import Mathlib.Data.List.Basic
import Mathlib.Tactic.Common

/-!
# Logs of records of one size

A log is read record by record, up to its end or to the first record that is short or bad.

* `Reads size decode l as clean`: reading `l` gives the records `as`, and stops at the end of `l` if
  `clean`. `exists_reads`: every log can be read.
* **`Reads.keep`**: what has been read is a clean log. **`Reads.append`**: a clean log can be extended.
* **`Reads.cut`**: a clean log cut anywhere. **`Reads.corrupt`**: a clean log with one entry changed.
* `reads_flatMap`: what is written can be read.
-/

set_option autoImplicit false

namespace Records

variable {α β : Type}

/-- Reading a log. -/
inductive Reads (size : ℕ) (decode : List β → Option α) : List β → List α → Bool → Prop
  | done : Reads size decode [] [] true
  | stop {l : List β} (hne : l ≠ []) (hbad : l.length < size ∨ decode (l.take size) = none) :
    Reads size decode l [] false
  | next {l : List β} {a : α} {as : List α} {clean : Bool} (hlen : size ≤ l.length)
    (ha : decode (l.take size) = some a) (hrest : Reads size decode (l.drop size) as clean) :
    Reads size decode l (a :: as) clean

variable {size : ℕ} {decode : List β → Option α} {l l' : List β} {as as' : List α} {clean : Bool}

theorem exists_reads (hsize : 0 < size) (l : List β) : ∃ as clean, Reads size decode l as clean := by
  induction hn : l.length using Nat.strongRecOn generalizing l with
  | ind n ih =>
    by_cases hnil : l = []
    · exact ⟨[], true, hnil ▸ .done⟩
    by_cases hlen : l.length < size
    · exact ⟨[], false, .stop hnil (Or.inl hlen)⟩
    cases ha : decode (l.take size) with
    | none => exact ⟨[], false, .stop hnil (Or.inr ha)⟩
    | some a =>
      obtain ⟨as, clean, hrest⟩ := ih (l.drop size).length (by rw [List.length_drop]; omega)
        (l.drop size) rfl
      exact ⟨a :: as, clean, .next (by omega) ha hrest⟩

theorem Reads.length_le (h : Reads size decode l as clean) : size * as.length ≤ l.length := by
  induction h with
  | done => simp
  | stop => simp
  | next hlen _ _ ih =>
    rw [List.length_drop] at ih
    rw [List.length_cons, Nat.mul_succ]
    omega

/-- **What has been read is a clean log.** -/
theorem Reads.keep (h : Reads size decode l as clean) :
    Reads size decode (l.take (size * as.length)) as true := by
  induction h with
  | done => exact .done
  | stop => exact .done
  | @next l a as clean hlen ha hrest ih =>
    have hle := hrest.length_le
    rw [List.length_drop] at hle
    rw [List.length_cons, Nat.mul_succ]
    refine .next ?_ ?_ ?_
    · rw [List.length_take]
      omega
    · rwa [List.take_take, Nat.min_eq_left (by omega)]
    · rwa [List.drop_take, Nat.add_sub_cancel]

/-- **A clean log can be extended.** -/
theorem Reads.append (h : Reads size decode l as true) (h' : Reads size decode l' as' clean) :
    Reads size decode (l ++ l') (as ++ as') clean := by
  generalize hc : true = c at h
  induction h with
  | done => exact h'
  | stop => cases hc
  | @next l a as c hlen ha hrest ih =>
    refine .next (by rw [List.length_append]; omega) ?_ ?_
    · rwa [List.take_append_of_le_length hlen]
    · rw [List.drop_append_of_le_length hlen]
      exact ih hc

/-- **A clean log cut after `n` bytes** has the records that are whole. -/
theorem Reads.cut (hsize : 0 < size) (h : Reads size decode l as true) {n : ℕ} (hn : n ≤ l.length) :
    Reads size decode (l.take n) (as.take (n / size)) (decide (n % size = 0)) := by
  generalize hc : true = c at h
  induction h generalizing n with
  | done =>
    obtain rfl : n = 0 := by simpa using hn
    simpa using Reads.done
  | stop => cases hc
  | @next l a as c hlen ha hrest ih =>
    by_cases hlt : n < size
    · rw [Nat.div_eq_of_lt hlt, Nat.mod_eq_of_lt hlt, List.take_zero]
      by_cases h0 : n = 0
      · simpa [h0] using Reads.done
      · rw [decide_eq_false h0]
        refine .stop ?_ (Or.inl ?_)
        · rw [← List.length_pos_iff, List.length_take]
          omega
        · rw [List.length_take]
          omega
    · have hrec := ih (n := n - size) (by rw [List.length_drop]; omega) hc
      rw [Nat.mod_eq_sub_mod (by omega), Nat.div_eq_sub_div hsize (by omega), List.take_succ_cons]
      refine .next (by rw [List.length_take]; omega) ?_ ?_
      · rwa [List.take_take, Nat.min_eq_left (by omega)]
      · rwa [List.drop_take]

/-- **A clean log with one entry changed** ends at the record the entry is in, if no record stays good
under such a change. -/
theorem Reads.corrupt (h : Reads size decode l as true)
    (hdetect : ∀ data a j b, data.length = size → decode data = some a → j < size →
      data[j]? ≠ some b → decode (data.set j b) = none)
    {k j : ℕ} {b : β} (hk : k < as.length) (hj : j < size) (hb : l[size * k + j]? ≠ some b) :
    Reads size decode (l.set (size * k + j) b) (as.take k) false := by
  generalize hc : true = c at h
  induction h generalizing k with
  | done => cases hk
  | stop => cases hc
  | @next l a as c hlen ha hrest ih =>
    cases k with
    | zero =>
      rw [Nat.mul_zero, Nat.zero_add] at hb ⊢
      refine .stop ?_ (Or.inr ?_)
      · rw [← List.length_pos_iff, List.length_set]
        omega
      · rw [List.take_set]
        refine hdetect _ a j b (by rw [List.length_take]; omega) ha hj ?_
        rwa [List.getElem?_take_of_lt hj]
    | succ k =>
      have hplace : size * (k + 1) + j = size + (size * k + j) := by
        rw [Nat.mul_succ]
        omega
      rw [hplace] at hb ⊢
      refine .next (by rw [List.length_set]; exact hlen) ?_ ?_
      · rwa [List.take_set, List.set_eq_of_length_le (by rw [List.length_take]; omega)]
      · rw [List.drop_set, if_neg (by omega), Nat.add_sub_cancel_left]
        exact ih (Nat.lt_of_succ_lt_succ hk) (by rwa [List.getElem?_drop]) hc

theorem reads_flatMap {encode : α → List β} (hlen : ∀ a, (encode a).length = size)
    (hdec : ∀ a, decode (encode a) = some a) (as : List α) :
    Reads size decode (as.flatMap encode) as true := by
  induction as with
  | nil => exact .done
  | cons a as ih =>
    rw [List.flatMap_cons]
    refine .next (by rw [List.length_append, hlen]; omega) ?_ ?_
    · rw [List.take_left' (hlen a), hdec]
    · rwa [List.drop_left' (hlen a)]

end Records
