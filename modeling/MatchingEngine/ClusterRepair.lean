import MatchingEngine.FixedHash

/-!
# The repair loop of `erase` on every table

Nothing is assumed of the entries: the table may be full before a slot is emptied, an id may be stored
twice, and an entry may lie where no probe for it leads.

* `occupied`: the number of occupied slots.
* `Repairing k x y`: from the table and cursor `x`, `k` iterations of the loop lead to `y`.
* `Repairing.repair`, `exists_repairing`: the loop and its iterations. `Repairing.spec`: what they keep.
* **`repair_loop_terminates`**.
-/

set_option autoImplicit false

namespace Dme

namespace FixedOrderIndex

variable {t : FixedOrderIndex} {x y z : FixedOrderIndex × ℕ} {j k : ℕ}

/-- The number of occupied slots. -/
def occupied (t : FixedOrderIndex) : ℕ :=
  ((Finset.range t.entries.size).filter fun p => (vecAt t.entries p).state = .occupied).card

theorem occupied_eq (t : FixedOrderIndex) : t.occupied = Probing.count t.entries.size t.slots := by
  rw [occupied, Probing.count]
  congr 1
  apply Finset.filter_congr
  intro p _
  rw [slots, Entry.slot]
  cases (vecAt t.entries p).state <;> simp

/-- The condition of the loop. -/
abbrev Goes (x : FixedOrderIndex × ℕ) : Prop := (vecAt x.1.entries x.2).state = .occupied

/-- **Iterations of the repair loop.** -/
inductive Repairing : ℕ → FixedOrderIndex × ℕ → FixedOrderIndex × ℕ → Prop
  | start (x : FixedOrderIndex × ℕ) : Repairing 0 x x
  | next {k : ℕ} {x y z : FixedOrderIndex × ℕ} (hx : Goes x) (h : x.1.displace x.2 = .ok y)
    (hr : Repairing k y z) : Repairing (k + 1) x z

/-- The table has its shape, and the cursor is in it. -/
def Sits (x : FixedOrderIndex × ℕ) : Prop := x.1.Shape ∧ x.2 < x.1.entries.size

/-- **One iteration** keeps the table and the cursor in place, and occupies no slot more. -/
theorem Sits.displace (h : Sits x) (hx : Goes x) : ∃ y, x.1.displace x.2 = .ok y ∧ Sits y ∧
    y.1.entries.size = x.1.entries.size ∧ y.1.occupied ≤ x.1.occupied := by
  obtain ⟨hs, hp⟩ := h
  obtain ⟨e, he⟩ : ∃ e, x.1.slots x.2 = some e :=
    ⟨((vecAt x.1.entries x.2).id, (vecAt x.1.entries x.2).node), slots_eq_some.mpr ⟨hx, rfl, rfl⟩⟩
  obtain ⟨t', hbody, hb⟩ := displace_eq hs hp he
  refine ⟨_, hbody, ⟨hb.shape hs, ?_⟩, hb.size, ?_⟩
  · rw [hb.size]
    exact Circle.step_lt hp
  · rw [occupied_eq, occupied_eq, hb.size, hb.slots]
    exact Probing.count_reinsert_le hs.home_lt hp he

theorem Repairing.spec (h : Repairing k x y) (hx : Sits x) :
    Sits y ∧ y.1.entries.size = x.1.entries.size := by
  induction h with
  | start => exact ⟨hx, rfl⟩
  | next hgoes hbody _ ih =>
    obtain ⟨y', hbody', hy, hsize, -⟩ := hx.displace hgoes
    cases hbody.symm.trans hbody'
    obtain ⟨hz, hsize'⟩ := ih hy
    exact ⟨hz, hsize'.trans hsize⟩

theorem Repairing.repair (h : Repairing k x y) (hx : Sits x) (hy : ¬ Goes y) {fuel : ℕ}
    (hf : k < fuel) : x.1.repair fuel x.2 = .ok y.1 := by
  obtain ⟨fuel, rfl⟩ := Nat.exists_eq_succ_of_ne_zero (Nat.ne_zero_of_lt hf)
  induction h generalizing fuel with
  | start => rw [repair_succ hx.2, if_neg hy]
  | @next k x y z hgoes hbody _ ih =>
    obtain ⟨y', hbody', hy', -⟩ := hx.displace hgoes
    cases hbody.symm.trans hbody'
    obtain ⟨fuel, rfl⟩ := Nat.exists_eq_succ_of_ne_zero (show fuel ≠ 0 by omega)
    rw [repair_succ hx.2, if_pos hgoes, hbody]
    exact ih hy' hy fuel (by omega)

theorem exists_repairing {fuel : ℕ} {t' : FixedOrderIndex} (hx : Sits x)
    (h : x.1.repair fuel x.2 = .ok t') : ∃ k < fuel, ∃ next, Repairing k x (t', next) ∧
      ¬ Goes (t', next) := by
  induction fuel generalizing x with
  | zero => cases h
  | succ fuel ih =>
    rw [repair_succ hx.2] at h
    by_cases hgoes : Goes x
    · rw [if_pos hgoes] at h
      obtain ⟨y, hbody, hy, -⟩ := hx.displace hgoes
      rw [hbody] at h
      obtain ⟨k, hk, next, hr, hstop⟩ := ih hy h
      exact ⟨k + 1, by omega, next, .next hgoes hbody hr, hstop⟩
    · rw [if_neg hgoes] at h
      cases h
      exact ⟨0, by omega, x.2, .start x, hgoes⟩

theorem Repairing.le (h : Repairing k x y) (hy : ¬ Goes y) (h' : Repairing j x z) : j ≤ k := by
  induction h generalizing j with
  | start =>
    cases h' with
    | start => exact le_rfl
    | next hgoes => exact absurd hgoes hy
  | next _ hbody _ ih =>
    cases h' with
    | start => exact Nat.zero_le _
    | next _ hbody' hr =>
      cases hbody.symm.trans hbody'
      exact Nat.succ_le_succ (ih hy hr)

/-- **The repair loop ends on every table.** In a table of a power of two of slots with any entries, a
slot is emptied. From the slot behind it the loop reaches an empty slot, and no run of it is longer;
no iteration occupies a slot more. So `erase` returns for every id. -/
theorem repair_loop_terminates (hs : t.Shape) {slot : ℕ} (hslot : slot < t.entries.size) :
    (∃ k t' next, Repairing k (t.put slot {}, (slot + 1) &&& t.mask) (t', next) ∧
      next < t.entries.size ∧ (vecAt t'.entries next).state = .empty ∧
      (∀ fuel > k, (t.put slot {}).repair fuel ((slot + 1) &&& t.mask) = .ok t') ∧
      ∀ j y, Repairing j (t.put slot {}, (slot + 1) &&& t.mask) y → j ≤ k) ∧
    (∀ j y, Repairing j (t.put slot {}, (slot + 1) &&& t.mask) y →
      (vecAt y.1.entries y.2).state = .occupied →
      ∃ z, y.1.displace y.2 = .ok z ∧ z.1.occupied ≤ y.1.occupied) ∧
    ∀ id, ∃ erased t', t.erase id = .ok (erased, t') := by
  have hput : t.Becomes (Function.update t.slots slot none) (t.put slot {}) :=
    Becomes.put hslot {} fun _ => rfl
  have hsits : Sits (t.put slot {}, (slot + 1) &&& t.mask) := by
    refine ⟨hput.shape hs, ?_⟩
    rw [hput.size, hs.succ_and_mask hslot]
    exact Circle.step_lt hslot
  refine ⟨?_, fun j y hy hgoes => ?_, fun id => ?_⟩
  · -- the slot that was emptied is within reach of the cursor
    have hempty : (t.put slot {}).slots slot = none := by
      rw [hput.slots]
      exact Function.update_self slot none t.slots
    obtain ⟨s, hsome⟩ := Option.isSome_iff_exists.mp
      (Probing.repair_isSome hsits.1.home_lt hsits.2 (hput.size ▸ hslot) hempty)
    obtain ⟨t', hrepair, -⟩ := repair_eq hsits.1 hsits.2 hsome
    obtain ⟨k, -, next, hr, hstop⟩ := exists_repairing hsits hrepair
    obtain ⟨hsits', hsize⟩ := hr.spec hsits
    have hnext : next < t.entries.size := by
      rw [← hput.size, ← hsize]
      exact hsits'.2
    refine ⟨k, t', next, hr, hnext, ?_, fun fuel hf => hr.repair hsits hstop hf,
      fun j y hy => hr.le hstop hy⟩
    cases hstate : (vecAt t'.entries next).state with
    | empty => rfl
    | occupied => exact absurd hstate hstop
  · obtain ⟨z, hbody, -, -, hle⟩ := (hy.spec hsits).1.displace hgoes
    exact ⟨z, hbody, hle⟩
  · obtain ⟨erased, s, herase⟩ := Probing.erase_isSome hs.home_lt t.slots id
    obtain ⟨t', ht', -⟩ := erase_eq hs id herase
    exact ⟨erased, t', ht'⟩

/-- A full table of two slots with one id in both. -/
theorem repair_loop_terminates_twice_stored : ∃ k t' next,
    Repairing k (put ⟨#[⟨5, 0, .occupied⟩, ⟨5, 1, .occupied⟩], 1⟩ 0 {}, 1) (t', next) ∧
      (vecAt t'.entries next).state = .empty := by
  have hs : Shape ⟨#[⟨5, 0, .occupied⟩, ⟨5, 1, .occupied⟩], 1⟩ := ⟨⟨1, rfl⟩, rfl⟩
  obtain ⟨⟨k, t', next, hr, -, hempty, -⟩, -⟩ := repair_loop_terminates hs (show 0 < 2 by decide)
  exact ⟨k, t', next, hr, hempty⟩

end FixedOrderIndex

end Dme
