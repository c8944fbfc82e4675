import Mathlib.Data.List.Basic
import Mathlib.Data.List.Forall2
import Mathlib.Tactic.Common

/-!
# Cutting a stream into frames

A decoder looks at the front of a buffer and finds a frame, an error, or too little to tell.

* `Outcome`; **`Stable decode`**: what a decoder has said of a buffer it says again when more follows,
  and a frame is recognised by its own bytes.
* `Frames decode l as bad rest`: decoding `l` from the front gives the values `as`; then comes `rest`,
  an error if `bad`, and otherwise too little to tell.
* `Decoded decode l as rest`: some frames have been decoded, and there may be more in `rest`.
* `exists_frames`, `Frames.unique`; `Decoded.append`, **`Frames.append`**: decoding can stop and go on when
  more bytes have come.
* **`Frames.pieces`**: the values are those of the pieces of `l`, in order.
-/

set_option autoImplicit false

namespace Framing

variable {α β : Type}

/-- What a decoder says of a buffer; a frame comes with its value and its length. -/
inductive Outcome (α : Type)
  | more
  | bad
  | frame (value : α) (length : ℕ)

/-- **A decoder whose answers stand.** -/
structure Stable (decode : List β → Outcome α) : Prop where
  append : ∀ l s, decode l ≠ .more → decode (l ++ s) = decode l
  own : ∀ {l a n}, decode l = .frame a n → decode (l.take n) = .frame a n
  length : ∀ {l a n}, decode l = .frame a n → 0 < n ∧ n ≤ l.length

/-- Decoding from the front as far as possible. -/
inductive Frames (decode : List β → Outcome α) : List β → List α → Bool → List β → Prop
  | more {l : List β} (h : decode l = .more) : Frames decode l [] false l
  | bad {l : List β} (h : decode l = .bad) : Frames decode l [] true l
  | next {l : List β} {a : α} {n : ℕ} {as : List α} {bad : Bool} {rest : List β}
    (h : decode l = .frame a n) (hrest : Frames decode (l.drop n) as bad rest) :
    Frames decode l (a :: as) bad rest

variable {decode : List β → Outcome α} {l rest : List β} {as : List α} {bad : Bool}

theorem exists_frames (hd : Stable decode) (l : List β) :
    ∃ as bad rest, Frames decode l as bad rest := by
  induction hn : l.length using Nat.strongRecOn generalizing l with
  | ind n ih =>
    cases h : decode l with
    | more => exact ⟨_, _, _, .more h⟩
    | bad => exact ⟨_, _, _, .bad h⟩
    | frame a k =>
      obtain ⟨hpos, hle⟩ := hd.length h
      obtain ⟨as, bad, rest, hrest⟩ := ih (l.drop k).length (by rw [List.length_drop]; omega)
        (l.drop k) rfl
      exact ⟨_, _, _, .next h hrest⟩

theorem Frames.unique {as' : List α} {bad' : Bool} {rest' : List β}
    (h : Frames decode l as bad rest) (h' : Frames decode l as' bad' rest') :
    as' = as ∧ bad' = bad ∧ rest' = rest := by
  induction h generalizing as' with
  | more h₁ =>
    cases h' with
    | more => exact ⟨rfl, rfl, rfl⟩
    | bad h₂ => cases h₁.symm.trans h₂
    | next h₂ => cases h₁.symm.trans h₂
  | bad h₁ =>
    cases h' with
    | more h₂ => cases h₁.symm.trans h₂
    | bad => exact ⟨rfl, rfl, rfl⟩
    | next h₂ => cases h₁.symm.trans h₂
  | next h₁ _ ih =>
    cases h' with
    | more h₂ => cases h₁.symm.trans h₂
    | bad h₂ => cases h₁.symm.trans h₂
    | next h₂ hrest₂ =>
      cases h₁.symm.trans h₂
      obtain ⟨rfl, rfl, rfl⟩ := ih hrest₂
      exact ⟨rfl, rfl, rfl⟩

theorem Frames.rest_eq (h : Frames decode l as bad rest) :
    decode rest = if bad then .bad else .more := by
  induction h with
  | more h => exact h
  | bad h => exact h
  | next _ _ ih => exact ih

/-- Decoding some frames from the front. -/
inductive Decoded (decode : List β → Outcome α) : List β → List α → List β → Prop
  | done {l : List β} : Decoded decode l [] l
  | next {l : List β} {a : α} {n : ℕ} {as : List α} {rest : List β} (h : decode l = .frame a n)
    (hrest : Decoded decode (l.drop n) as rest) : Decoded decode l (a :: as) rest

theorem frames_iff : Frames decode l as bad rest ↔
    Decoded decode l as rest ∧ decode rest = if bad then .bad else .more := by
  constructor
  · intro h
    refine ⟨?_, h.rest_eq⟩
    induction h with
    | more => exact .done
    | bad => exact .done
    | next h _ ih => exact .next h ih
  · rintro ⟨h, hstop⟩
    induction h with
    | done =>
      cases bad with
      | true => exact .bad hstop
      | false => exact .more hstop
    | next h _ ih => exact .next h (ih hstop)

theorem Decoded.rest_unique {rest' : List β} (h : Decoded decode l as rest)
    (h' : Decoded decode l as rest') : rest' = rest := by
  induction h with
  | done =>
    cases h'
    rfl
  | next h₁ _ ih =>
    cases h' with
    | next h₂ hrest =>
      cases h₁.symm.trans h₂
      exact ih hrest

theorem Decoded.append (hd : Stable decode) {as' : List α} {rest' s : List β}
    (h : Decoded decode l as rest) (h' : Decoded decode (rest ++ s) as' rest') :
    Decoded decode (l ++ s) (as ++ as') rest' := by
  induction h with
  | done => exact h'
  | @next l a n as rest h hrest ih =>
    obtain ⟨-, hle⟩ := hd.length h
    have happ : decode (l ++ s) = .frame a n := by
      rw [hd.append l s (by rw [h]; simp), h]
    refine .next happ ?_
    rw [List.drop_append_of_le_length hle]
    exact ih h'

/-- **Decoding goes on where it stopped** when more bytes have come. -/
theorem Frames.append (hd : Stable decode) {as' : List α} {bad' : Bool} {rest' s : List β}
    (h : Frames decode l as false rest) (h' : Frames decode (rest ++ s) as' bad' rest') :
    Frames decode (l ++ s) (as ++ as') bad' rest' := by
  obtain ⟨hdecoded, hstop⟩ := frames_iff.mp h'
  exact frames_iff.mpr ⟨(frames_iff.mp h).1.append hd hdecoded, hstop⟩

/-- **The values are those of the pieces of the stream**, each a frame of its own. -/
theorem Frames.pieces (hd : Stable decode) (h : Frames decode l as bad rest) :
    ∃ pieces : List (List β), l = pieces.flatten ++ rest ∧
      List.Forall₂ (fun piece a => decode piece = .frame a piece.length) pieces as := by
  induction h with
  | more => exact ⟨[], rfl, .nil⟩
  | bad => exact ⟨[], rfl, .nil⟩
  | @next l a n as bad rest h hrest ih =>
    obtain ⟨pieces, heq, hall⟩ := ih
    obtain ⟨-, hle⟩ := hd.length h
    refine ⟨l.take n :: pieces, ?_, .cons ?_ hall⟩
    · rw [List.flatten_cons, List.append_assoc, ← heq, List.take_append_drop]
    · rw [hd.own h, List.length_take, Nat.min_eq_left hle]

end Framing
