import Mathlib.Data.List.Basic
import Mathlib.Tactic.Common

/-!
# Records laid out at fixed offsets

A record is a list of fields, each with the offset at which it is written and read.

* `Consecutive`: each field begins where the one before it ends; `image`: the record they make up.
* `slice`, `write`; **`write_next`**: writing field after field. **`slice_image`**: each is read back.
* `blank`: a record with some of its entries cleared. **`image_eq_blank`**: fields that agree with a
  record, up to the entries cleared, make up that record.
-/

set_option autoImplicit false

namespace Layout

variable {α : Type}

/-- The entries of a field. -/
def slice (l : List α) (offset size : ℕ) : List α := (l.drop offset).take size

/-- The entries from `offset` on replaced by `data`. -/
def write (l : List α) (offset : ℕ) (data : List α) : List α :=
  l.take offset ++ data ++ l.drop (offset + data.length)

/-- The record that fields make up, one after the other. -/
def image (fields : List (ℕ × List α)) : List α := fields.flatMap Prod.snd

/-- The fields are at the offsets from `n` on, without a gap. -/
def Consecutive : ℕ → List (ℕ × List α) → Prop
  | _, [] => True
  | n, (offset, data) :: fields => offset = n ∧ Consecutive (n + data.length) fields

@[simp] theorem image_nil : image ([] : List (ℕ × List α)) = [] := rfl

@[simp] theorem image_cons (field : ℕ × List α) (fields : List (ℕ × List α)) :
    image (field :: fields) = field.2 ++ image fields := rfl

theorem image_append (fields fields' : List (ℕ × List α)) :
    image (fields ++ fields') = image fields ++ image fields' := List.flatMap_append

theorem Consecutive.append {n : ℕ} {fields fields' : List (ℕ × List α)} (h : Consecutive n fields)
    (h' : Consecutive (n + (image fields).length) fields') : Consecutive n (fields ++ fields') := by
  induction fields generalizing n with
  | nil => simpa using h'
  | cons field fields ih =>
    obtain ⟨hoffset, h⟩ := h
    refine ⟨hoffset, ih h ?_⟩
    rwa [image_cons, List.length_append, ← Nat.add_assoc] at h'

theorem write_next {done rest data : List α} {n : ℕ} (hn : done.length = n) :
    write (done ++ rest) n data = (done ++ data) ++ rest.drop data.length := by
  subst hn
  rw [write, List.take_left', ← List.drop_drop, List.drop_left']
  · rfl
  · rfl

theorem length_write {l data : List α} {offset : ℕ} (h : offset + data.length ≤ l.length) :
    (write l offset data).length = l.length := by
  rw [write, List.length_append, List.length_append, List.length_take, List.length_drop]
  omega

/-! ## Reading -/

theorem length_slice {l : List α} {offset size : ℕ} (h : offset + size ≤ l.length) :
    (slice l offset size).length = size := by
  rw [slice, List.length_take, List.length_drop]
  omega

theorem slice_split (l : List α) (offset a b : ℕ) :
    slice l offset (a + b) = slice l offset a ++ slice l (offset + a) b := by
  rw [slice, slice, slice, List.take_add, List.drop_drop]

theorem write_slice {l : List α} {offset size : ℕ} (h : offset + size ≤ l.length) :
    write l offset (slice l offset size) = l := by
  rw [write, length_slice h, slice, List.append_assoc, ← List.drop_drop, List.take_append_drop,
    List.take_append_drop]

/-- **A field is read back**, whatever comes before and after the record. -/
theorem slice_image {n : ℕ} {fields : List (ℕ × List α)} (h : Consecutive n fields)
    {offset : ℕ} {data : List α} (hmem : (offset, data) ∈ fields) {done : List α}
    (hdone : done.length = n) (suffix : List α) :
    slice (done ++ (image fields ++ suffix)) offset data.length = data := by
  induction fields generalizing n done with
  | nil => cases hmem
  | cons field fields ih =>
    obtain ⟨hoffset, h⟩ := h
    rcases List.mem_cons.mp hmem with rfl | hmem
    · dsimp only at hoffset
      subst hoffset
      rw [image_cons, List.append_assoc, slice, List.drop_left' hdone, List.take_left' rfl]
    · have hdone' : (done ++ field.2).length = n + field.2.length := by rw [List.length_append, hdone]
      have hread := ih h hmem hdone'
      rwa [List.append_assoc, ← List.append_assoc field.2, ← image_cons] at hread

/-! ## Clearing -/

/-- The entries that `mask` selects are replaced by `zero`. -/
def blank (mask : ℕ → Bool) (zero : α) (l : List α) : List α :=
  l.mapIdx fun i a => if mask i then zero else a

@[simp] theorem length_blank (mask : ℕ → Bool) (zero : α) (l : List α) :
    (blank mask zero l).length = l.length := List.length_mapIdx

theorem blank_append (mask : ℕ → Bool) (zero : α) (l l' : List α) : blank mask zero (l ++ l') =
    blank mask zero l ++ blank (fun i => mask (l.length + i)) zero l' := by
  rw [blank, List.mapIdx_append]
  simp only [blank, Nat.add_comm]

theorem blank_of_keep {mask : ℕ → Bool} {zero : α} {l : List α} (h : ∀ i < l.length, mask i = false) :
    blank mask zero l = l := by
  refine List.ext_getElem (by simp [blank]) fun i hi hi' => ?_
  simp [blank, h i hi']

theorem blank_of_clear {mask : ℕ → Bool} {zero : α} {l : List α} (h : ∀ i < l.length, mask i = true) :
    blank mask zero l = List.replicate l.length zero := by
  refine List.ext_getElem (by simp [blank]) fun i hi hi' => ?_
  simp [blank, h i (by simpa using hi')]

/-- **Fields that agree with a record make it up.** -/
theorem image_eq_blank {mask : ℕ → Bool} {zero : α} {l : List α} {n : ℕ}
    {fields : List (ℕ × List α)} (h : Consecutive n fields)
    (hlen : n + (image fields).length ≤ l.length)
    (hfields : ∀ field ∈ fields, field.2 =
      blank (fun i => mask (field.1 + i)) zero (slice l field.1 field.2.length)) :
    image fields = blank (fun i => mask (n + i)) zero (slice l n (image fields).length) := by
  induction fields generalizing n with
  | nil => simp [blank, slice]
  | cons field fields ih =>
    obtain ⟨rfl, h⟩ := h
    rw [image_cons, List.length_append] at hlen
    have hrest := ih h (by omega) fun field hfield => hfields field (List.mem_cons_of_mem _ hfield)
    have hfirst := hfields field List.mem_cons_self
    rw [image_cons, List.length_append, slice_split, blank_append, length_slice (by omega), ← hfirst]
    simp only [Nat.add_assoc] at hrest
    exact congrArg (field.2 ++ ·) hrest

end Layout
