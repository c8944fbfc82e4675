import MatchingEngine.Lib.Circle

/-!
# Open addressing with linear probing

A table of `n` slots, each empty or holding a key with its value. A key is looked for from its
home slot onwards, around the end of the table, until its entry or an empty slot is met.

* `search`: the first slot at which a probe stops (`search_eq_some`, `search_eq_none`).
* **`Sound`**: no key is stored twice and no probe path to an entry crosses an empty slot. On a
  sound table `find` is the stored map (`find_eq_some_iff`), `insert` adds to it (`insert_fresh`).
* `repair`: after a slot was emptied, take the entries of the following cluster out and insert
  them again one at a time. **`repair_isSome`**: it ends on every table content, and it fills no slot
  more (`count_reinsert_le`).
  **`erase_present`**: on a sound table it leaves a sound table with the other entries.
  **`Sound.erase_insert`**: erasing what was just inserted gives the table back.
-/

set_option autoImplicit false

namespace Probing

open Circle

variable {n a p q : ℕ}

/-! ## Searching -/

/-- The first slot at which `stop` holds, among the `m` slots from `p` onwards. -/
def search (n : ℕ) (stop : ℕ → Bool) : ℕ → ℕ → Option ℕ
  | 0, _ => none
  | m + 1, p => if stop p then some p else search n stop m (step n p)

variable {stop : ℕ → Bool} {m : ℕ}

theorem forall_gap_step (ha : a < n) (hs : stop a = false) (d : ℕ) :
    (∀ q < n, gap n (step n a) q < d → stop q = false) ↔
      ∀ q < n, gap n a q < d + 1 → stop q = false := by
  refine forall_congr' fun q => forall_congr' fun hq => ?_
  by_cases he : a = q
  · subst he
    simp [hs]
  · rw [gap_step_left ha hq he, Nat.add_lt_add_iff_right]

theorem search_eq_none (hm : m ≤ n) (ha : a < n) :
    search n stop m a = none ↔ ∀ q < n, gap n a q < m → stop q = false := by
  induction m generalizing a with
  | zero => simp [search]
  | succ m ih =>
    rw [search]
    split_ifs with hs
    · simp only [false_iff, not_forall]
      exact ⟨a, ha, by rw [gap_self]; omega, by simp [hs]⟩
    · rw [ih (by omega) (step_lt ha), forall_gap_step ha (Bool.not_eq_true _ ▸ hs)]

theorem search_eq_some (hm : m ≤ n) (ha : a < n) :
    search n stop m a = some p ↔ p < n ∧ gap n a p < m ∧ stop p = true ∧
      ∀ q < n, gap n a q < gap n a p → stop q = false := by
  induction m generalizing a with
  | zero => simp [search]
  | succ m ih =>
    rw [search]
    split_ifs with hs
    · constructor
      · intro h
        cases h
        exact ⟨ha, by rw [gap_self]; omega, hs, fun q _ h => by rw [gap_self] at h; omega⟩
      · rintro ⟨hp, _, _, hq⟩
        by_contra hne
        have hap : a ≠ p := fun h => hne (by rw [h])
        have := hq a ha (by rw [gap_self, Nat.pos_iff_ne_zero, ne_eq, gap_eq_zero ha]; exact hap)
        rw [hs] at this
        exact Bool.noConfusion this
    · rw [ih (by omega) (step_lt ha)]
      by_cases hap : a = p
      · subst hap
        constructor
        · rintro ⟨_, _, h, _⟩; exact absurd h hs
        · rintro ⟨_, _, h, _⟩; exact absurd h hs
      · refine and_congr_right fun hp => ?_
        rw [gap_step_left ha hp hap, Nat.add_lt_add_iff_right]
        refine and_congr_right fun _ => and_congr_right fun _ => ?_
        exact forall_gap_step ha (Bool.not_eq_true _ ▸ hs) _

/-! ## Tables -/

section Table

variable {K V : Type} [DecidableEq K]

/-- The slots of a table: empty, or a key with its value. -/
abbrev Slots (K V : Type) := ℕ → Option (K × V)

/-- A probe for `k` stops at an empty slot and at an entry of `k`. -/
def stops (t : Slots K V) (k : K) (p : ℕ) : Bool :=
  match t p with
  | none => true
  | some e => decide (e.1 = k)

/-- Where a probe for `k` stops. -/
def seek (n : ℕ) (home : K → ℕ) (t : Slots K V) (k : K) : Option ℕ :=
  search n (stops t k) n (home k)

/-- The value stored for `k`. -/
def find (n : ℕ) (home : K → ℕ) (t : Slots K V) (k : K) : Option V :=
  (seek n home t k).bind fun p => (t p).map Prod.snd

/-- Store `v` for `k`, unless `k` is stored or no slot is empty. -/
def insert (n : ℕ) (home : K → ℕ) (t : Slots K V) (k : K) (v : V) : Bool × Slots K V :=
  match seek n home t k with
  | none => (false, t)
  | some p => if (t p).isSome then (false, t) else (true, Function.update t p (some (k, v)))

/-- Take out and insert again the entries from slot `p` up to the next empty slot. -/
def repair (n : ℕ) (home : K → ℕ) : ℕ → ℕ → Slots K V → Option (Slots K V)
  | 0, _, _ => none
  | fuel + 1, p, t =>
    match t p with
    | none => some t
    | some e => repair n home fuel (step n p)
        (insert n home (Function.update t p none) e.1 e.2).2

/-- Iterations that `repair` can need in a table of `n` slots. -/
def repairBound (n : ℕ) : ℕ := n * n * n + n

/-- Empty the slot of `k` and repair the cluster behind it. -/
def erase (n : ℕ) (home : K → ℕ) (t : Slots K V) (k : K) : Option (Bool × Slots K V) :=
  match seek n home t k with
  | none => some (false, t)
  | some p => if (t p).isSome then
      (repair n home (repairBound n) (step n p) (Function.update t p none)).map (true, ·)
    else some (false, t)

/-- The table stores `v` for `k`. -/
def Holds (n : ℕ) (t : Slots K V) (k : K) (v : V) : Prop := ∃ p < n, t p = some (k, v)

/-- The number of occupied slots. -/
def count (n : ℕ) (t : Slots K V) : ℕ := ((Finset.range n).filter fun p => (t p).isSome).card

/-- No key is stored in two slots. -/
def Unique (n : ℕ) (t : Slots K V) : Prop :=
  ∀ p < n, ∀ q < n, ∀ k v w, t p = some (k, v) → t q = some (k, w) → p = q

/-- **A sound table**: keys are stored once, and the probe path to an entry has no empty slot. -/
structure Sound (n : ℕ) (home : K → ℕ) (t : Slots K V) : Prop where
  unique : Unique n t
  chain : ∀ p < n, ∀ k v, t p = some (k, v) → ∀ q < n,
    gap n (home k) q < gap n (home k) p → (t q).isSome

omit [DecidableEq K] in
theorem sound_empty (n : ℕ) (home : K → ℕ) : Sound n home (fun _ => none : Slots K V) :=
  ⟨fun _ _ _ _ _ _ _ h => by simp at h, fun _ _ _ _ h => by simp at h⟩

variable {home : K → ℕ} {t : Slots K V} {k : K} {v : V}

theorem stops_eq_false : stops t k p = false ↔ ∃ e, t p = some e ∧ e.1 ≠ k := by
  unfold stops
  cases t p <;> simp

omit [DecidableEq K] in
theorem Holds.unique (hu : Unique n t) {w : V} (h : Holds n t k v) (h' : Holds n t k w) : v = w := by
  obtain ⟨p, hp, h⟩ := h
  obtain ⟨q, hq, h'⟩ := h'
  obtain rfl := hu p hp q hq k v w h h'
  rw [h] at h'
  simpa using h'

/-- **The probe for a stored key ends at its slot.** -/
theorem Sound.seek_eq (hs : Sound n home t) (hh : ∀ k, home k < n) (hp : p < n)
    (h : t p = some (k, v)) : seek n home t k = some p := by
  rw [seek, search_eq_some le_rfl (hh k)]
  refine ⟨hp, gap_lt hp, by simp [stops, h], fun q hq hlt => ?_⟩
  obtain ⟨⟨k', w⟩, he⟩ := Option.isSome_iff_exists.mp (hs.chain p hp k v h q hq hlt)
  refine stops_eq_false.mpr ⟨_, he, fun hk => ?_⟩
  change k' = k at hk
  subst hk
  obtain rfl := hs.unique p hp q hq _ _ _ h he
  exact lt_irrefl _ hlt

theorem key_of_seek (hh : ∀ k, home k < n) {e : K × V} (h : seek n home t k = some p)
    (he : t p = some e) : p < n ∧ e.1 = k := by
  rw [seek, search_eq_some le_rfl (hh k)] at h
  obtain ⟨hp, _, hst, _⟩ := h
  refine ⟨hp, ?_⟩
  simpa [stops, he] using hst

theorem seek_eq_none (hh : ∀ k, home k < n) (h : seek n home t k = none) :
    ∀ p < n, (t p).isSome := by
  rw [seek, search_eq_none le_rfl (hh k)] at h
  intro p hp
  obtain ⟨e, he, _⟩ := stops_eq_false.mp (h p hp (gap_lt hp))
  simp [he]

/-- **Finding is reading the stored map.** -/
theorem Sound.find_eq_some_iff (hs : Sound n home t) (hh : ∀ k, home k < n) :
    find n home t k = some v ↔ Holds n t k v := by
  constructor
  · intro h
    obtain ⟨p, hp, h⟩ := Option.bind_eq_some_iff.mp h
    obtain ⟨e, he, rfl⟩ := Option.map_eq_some_iff.mp h
    obtain ⟨hlt, rfl⟩ := key_of_seek hh hp he
    exact ⟨p, hlt, he⟩
  · rintro ⟨p, hp, h⟩
    simp [find, hs.seek_eq hh hp h, h]

/-! ## Insertion -/

theorem Sound.insert_present (hs : Sound n home t) (hh : ∀ k, home k < n) (h : Holds n t k v)
    (w : V) : insert n home t k w = (false, t) := by
  obtain ⟨p, hp, h⟩ := h
  simp [insert, hs.seek_eq hh hp h, h]

theorem insert_full (hfull : ∀ p < n, (t p).isSome) (hh : ∀ k, home k < n) (w : V) :
    insert n home t k w = (false, t) := by
  unfold insert
  split
  · rfl
  · next p hp =>
    rw [seek, search_eq_some le_rfl (hh k)] at hp
    rw [if_pos (hfull p hp.1)]

theorem insert_absent (hh : ∀ k, home k < n) (habs : ∀ w, ¬ Holds n t k w)
    (hroom : ∃ p < n, t p = none) (v : V) :
    ∃ p < n, t p = none ∧ (∀ q < n, gap n (home k) q < gap n (home k) p → (t q).isSome) ∧
      insert n home t k v = (true, Function.update t p (some (k, v))) := by
  cases hk : seek n home t k with
  | none =>
    obtain ⟨p, hp, he⟩ := hroom
    have := seek_eq_none hh hk p hp
    simp [he] at this
  | some p =>
    have hsp := hk
    rw [seek, search_eq_some le_rfl (hh k)] at hsp
    obtain ⟨hp, _, _, hbefore⟩ := hsp
    have he : t p = none := by
      cases htp : t p with
      | none => rfl
      | some e =>
        obtain ⟨k', w⟩ := e
        obtain ⟨_, rfl⟩ := key_of_seek hh hk htp
        exact absurd ⟨p, hp, htp⟩ (habs w)
    refine ⟨p, hp, he, fun q hq hlt => ?_, by simp [insert, hk, he]⟩
    obtain ⟨e, he, _⟩ := stops_eq_false.mp (hbefore q hq hlt)
    simp [he]

omit [DecidableEq K] in
theorem holds_update (hp : p < n) (he : t p = none) (k' : K) (v' : V) :
    Holds n (Function.update t p (some (k, v))) k' v' ↔ (k' = k ∧ v' = v) ∨ Holds n t k' v' := by
  constructor
  · rintro ⟨q, hq, h⟩
    by_cases hqp : q = p
    · subst hqp
      rw [Function.update_self] at h
      simp only [Option.some.injEq, Prod.mk.injEq] at h
      exact Or.inl ⟨h.1.symm, h.2.symm⟩
    · rw [Function.update_of_ne hqp] at h
      exact Or.inr ⟨q, hq, h⟩
  · rintro (⟨rfl, rfl⟩ | ⟨q, hq, h⟩)
    · exact ⟨p, hp, Function.update_self _ _ _⟩
    · refine ⟨q, hq, ?_⟩
      rw [Function.update_of_ne (fun e => by subst e; rw [he] at h; cases h)]
      exact h

omit [DecidableEq K] in
theorem count_update_some (hp : p < n) (he : t p = none) (e : K × V) :
    count n (Function.update t p (some e)) = count n t + 1 := by
  unfold count
  have : (Finset.range n).filter (fun q => (Function.update t p (some e) q).isSome) =
      Insert.insert p ((Finset.range n).filter fun q => (t q).isSome) := by
    ext q
    simp only [Finset.mem_filter, Finset.mem_range, Finset.mem_insert]
    by_cases hq : q = p
    · subst hq; simp [hp]
    · simp [hq]
  rw [this, Finset.card_insert_of_notMem (by simp [he])]

omit [DecidableEq K] in
theorem count_update_none (hp : p < n) {e : K × V} (he : t p = some e) :
    count n (Function.update t p none) + 1 = count n t := by
  have hcount := count_update_some hp (Function.update_self p none t) e
  rw [Function.update_idem, ← he, Function.update_eq_self] at hcount
  exact hcount.symm

omit [DecidableEq K] in
theorem Sound.update (hs : Sound n home t) (hp : p < n) (habs : ∀ w, ¬ Holds n t k w)
    (hbefore : ∀ q < n, gap n (home k) q < gap n (home k) p → (t q).isSome) :
    Sound n home (Function.update t p (some (k, v))) := by
  have hcase : ∀ q k' w, Function.update t p (some (k, v)) q = some (k', w) →
      (q = p ∧ k' = k) ∨ (q ≠ p ∧ t q = some (k', w)) := by
    intro q k' w h
    by_cases hqp : q = p
    · subst hqp
      rw [Function.update_self] at h
      simp only [Option.some.injEq, Prod.mk.injEq] at h
      exact Or.inl ⟨rfl, h.1.symm⟩
    · rw [Function.update_of_ne hqp] at h
      exact Or.inr ⟨hqp, h⟩
  constructor
  · intro q hq r hr k' w w' h h'
    rcases hcase q k' w h with ⟨rfl, rfl⟩ | ⟨_, hq'⟩ <;>
      rcases hcase r k' w' h' with ⟨rfl, hk⟩ | ⟨_, hr'⟩
    · rfl
    · exact absurd ⟨r, hr, hr'⟩ (habs w')
    · subst hk; exact absurd ⟨q, hq, hq'⟩ (habs w)
    · exact hs.unique q hq r hr k' w w' hq' hr'
  · intro q hq k' w h r hr hlt
    by_cases hrp : r = p
    · subst hrp; simp
    · rw [Function.update_of_ne hrp]
      rcases hcase q k' w h with ⟨rfl, rfl⟩ | ⟨_, hq'⟩
      · exact hbefore r hr hlt
      · exact hs.chain q hq k' w hq' r hr hlt

/-- **Inserting an absent key into a sound table that has room.** -/
theorem Sound.insert_fresh (hs : Sound n home t) (hh : ∀ k, home k < n)
    (habs : ∀ w, ¬ Holds n t k w) (hroom : ∃ p < n, t p = none) (v : V) :
    (insert n home t k v).1 = true ∧ Sound n home (insert n home t k v).2 ∧
      (∀ k' v', Holds n (insert n home t k v).2 k' v' ↔ (k' = k ∧ v' = v) ∨ Holds n t k' v') ∧
      count n (insert n home t k v).2 = count n t + 1 := by
  obtain ⟨p, hp, he, hbefore, hins⟩ := insert_absent hh habs hroom v
  rw [hins]
  exact ⟨rfl, hs.update hp habs hbefore, holds_update hp he, count_update_some hp he _⟩

/-! ## Taking an entry out and inserting it again -/

/-- **What one iteration of `repair` can do** to the entry `(k, v)` of slot `c`: drop it, because
its key is stored a second time; put it back, its probe path being occupied; or move it to the
first empty slot of its path. -/
theorem reinsert_cases {c : ℕ} (hh : ∀ k, home k < n) (hc : c < n) (h : t c = some (k, v)) :
    ((∃ p < n, p ≠ c ∧ ∃ w, t p = some (k, w)) ∧
      (insert n home (Function.update t c none) k v).2 = Function.update t c none) ∨
    ((∀ q < n, gap n (home k) q < gap n (home k) c → (t q).isSome) ∧
      (insert n home (Function.update t c none) k v).2 = t) ∨
    ∃ p < n, t p = none ∧ gap n (home k) p < gap n (home k) c ∧
      (∀ q < n, gap n (home k) q < gap n (home k) p → (t q).isSome) ∧
      (insert n home (Function.update t c none) k v).2 =
        Function.update (Function.update t c none) p (some (k, v)) := by
  cases hk : seek n home (Function.update t c none) k with
  | none =>
    have := seek_eq_none hh hk c hc
    simp at this
  | some p =>
    have hsp := hk
    rw [seek, search_eq_some le_rfl (hh k)] at hsp
    obtain ⟨hp, _, _, hbefore⟩ := hsp
    have hle : gap n (home k) p ≤ gap n (home k) c := by
      by_contra hlt
      have := hbefore c hc (by omega)
      simp [stops] at this
    have hpath : ∀ q < n, gap n (home k) q < gap n (home k) p → (t q).isSome := by
      intro q hq hlt
      obtain ⟨e, he, _⟩ := stops_eq_false.mp (hbefore q hq hlt)
      rw [Function.update_of_ne (fun e => by subst e; omega)] at he
      simp [he]
    by_cases hpc : p = c
    · subst hpc
      refine Or.inr (Or.inl ⟨hpath, ?_⟩)
      simp only [insert, hk, Function.update_self, Option.isSome_none, Bool.false_eq_true, if_false,
        Function.update_idem]
      rw [← h, Function.update_eq_self]
    · have hval : Function.update t c none p = t p := Function.update_of_ne hpc _ _
      have hlt : gap n (home k) p < gap n (home k) c := by
        rcases Nat.lt_or_eq_of_le hle with hlt | heq
        · exact hlt
        · exact absurd (gap_inj (hh k) hp hc heq) hpc
      cases htp : t p with
      | none =>
        refine Or.inr (Or.inr ⟨p, hp, htp, hlt, hpath, ?_⟩)
        simp [insert, hk, hval, htp]
      | some e =>
        obtain ⟨k', w⟩ := e
        obtain ⟨_, rfl⟩ := key_of_seek hh hk (hval.trans htp)
        refine Or.inl ⟨⟨p, hp, hpc, w, htp⟩, ?_⟩
        simp [insert, hk, hval, htp]

theorem count_reinsert_le {c : ℕ} (hh : ∀ k, home k < n) (hc : c < n) (h : t c = some (k, v)) :
    count n (insert n home (Function.update t c none) k v).2 ≤ count n t := by
  have hout := count_update_none hc h
  rcases reinsert_cases hh hc h with ⟨-, hr⟩ | ⟨-, hr⟩ | ⟨p, hp, he, hlt, -, hr⟩
  · rw [hr]
    omega
  · rw [hr]
  · have hpc : p ≠ c := by
      rintro rfl
      exact lt_irrefl _ hlt
    have hin := count_update_some (t := Function.update t c none) hp
      ((Function.update_of_ne hpc _ _).trans he) (k, v)
    rw [hr]
    omega

theorem Sound.reinsert (hs : Sound n home t) (hh : ∀ k, home k < n) {c : ℕ} (hc : c < n)
    (h : t c = some (k, v)) : (insert n home (Function.update t c none) k v).2 = t := by
  rcases reinsert_cases hh hc h with ⟨⟨p, hp, hne, w, he⟩, -⟩ | ⟨-, hback⟩ | ⟨p, hp, he, hlt, -⟩
  · exact absurd (hs.unique p hp c hc k w v he h) hne
  · exact hback
  · have := hs.chain c hc k v h p hp hlt
    simp [he] at this

theorem Sound.repair_eq_self (hs : Sound n home t) (hh : ∀ k, home k < n) {z : ℕ} (hz : z < n)
    (hze : t z = none) {fuel c : ℕ} (hc : c < n) (hf : gap n c z < fuel) :
    repair n home fuel c t = some t := by
  induction fuel generalizing c with
  | zero => exact absurd hf (Nat.not_lt_zero _)
  | succ fuel ih =>
    rw [repair]
    cases he : t c with
    | none => rfl
    | some e =>
      have hne : c ≠ z := by
        rintro rfl
        rw [he] at hze
        cases hze
      have hstep := gap_step_left hc hz hne
      dsimp only
      rw [hs.reinsert hh hc he]
      exact ih (step_lt hc) (by omega)

/-- **Erasing a key that was just inserted** gives the table back, slot by slot. -/
theorem Sound.erase_insert (hs : Sound n home t) (hh : ∀ k, home k < n)
    (habs : ∀ w, ¬ Holds n t k w) (hroom : ∃ p < n, t p = none) (v : V) :
    erase n home (insert n home t k v).2 k = some (true, t) := by
  obtain ⟨p, hp, he, hbefore, hins⟩ := insert_absent hh habs hroom v
  have hself := Function.update_self p (some (k, v)) t
  have hrepair : repair n home (repairBound n) (step n p) t = some t := by
    have hgap := gap_lt (a := step n p) hp
    refine hs.repair_eq_self hh hp he (step_lt hp) ?_
    unfold repairBound
    omega
  rw [hins, erase, (hs.update hp habs hbefore).seek_eq hh hp hself]
  simp only [hself, Option.isSome_some, if_true, Function.update_idem]
  rw [← he, Function.update_eq_self, hrepair]
  rfl

/-! ## Repair ends -/

/-- What an entry adds to the weight of a table: one, and its distance from home. -/
def cost (n : ℕ) (home : K → ℕ) (p : ℕ) : Option (K × V) → ℕ
  | none => 0
  | some e => 1 + gap n (home e.1) p

/-- The number of entries together with their displacements. -/
def weight (n : ℕ) (home : K → ℕ) (t : Slots K V) : ℕ := ∑ p ∈ Finset.range n, cost n home p (t p)

omit [DecidableEq K] in
theorem weight_update (home : K → ℕ) (t : Slots K V) (hp : p < n) (x : Option (K × V)) :
    weight n home (Function.update t p x) + cost n home p (t p) =
      weight n home t + cost n home p x := by
  unfold weight
  have hmem : p ∈ Finset.range n := Finset.mem_range.mpr hp
  rw [← Finset.add_sum_erase _ _ hmem, ← Finset.add_sum_erase (a := p) _ _ hmem,
    Function.update_self]
  have : ∑ q ∈ (Finset.range n).erase p, cost n home q (Function.update t p x q) =
      ∑ q ∈ (Finset.range n).erase p, cost n home q (t q) := by
    refine Finset.sum_congr rfl fun q hq => ?_
    rw [Function.update_of_ne (Finset.ne_of_mem_erase hq)]
  rw [this]
  omega

omit [DecidableEq K] in
theorem weight_le (n : ℕ) (home : K → ℕ) (t : Slots K V) : weight n home t ≤ n * n := by
  calc weight n home t ≤ ∑ _p ∈ Finset.range n, n := by
        refine Finset.sum_le_sum fun p hp => ?_
        cases h : t p with
        | none => exact Nat.zero_le _
        | some e =>
          have := gap_lt (a := home e.1) (Finset.mem_range.mp hp)
          simp only [cost]
          omega
    _ = n * n := by simp

theorem repair_isSome_of_weight (hh : ∀ k, home k < n) :
    ∀ (fuel : ℕ) (c : ℕ) (t : Slots K V), c < n →
      (∃ z < n, t z = none ∧ weight n home t * n + gap n c z < fuel) →
      (repair n home fuel c t).isSome
  | 0, _, _, _, ⟨_, _, _, h⟩ => absurd h (Nat.not_lt_zero _)
  | fuel + 1, c, t, hc, ⟨z, hz, hze, hlt⟩ => by
    rw [repair]
    cases hct : t c with
    | none => rfl
    | some e =>
      obtain ⟨k, v⟩ := e
      simp only
      -- in the two cases that lose weight, slot `c` itself is an empty slot within reach
      have hdrop : ∀ t' : Slots K V, t' c = none → weight n home t' < weight n home t →
          (repair n home fuel (step n c) t').isSome := by
        intro t' hc' hw
        refine repair_isSome_of_weight hh fuel _ t' (step_lt hc) ⟨c, hc, hc', ?_⟩
        have h1 := gap_lt (a := step n c) hc
        have h2 := Nat.mul_le_mul_right n hw
        rw [Nat.succ_mul] at h2
        omega
      have hout := weight_update home t hc none
      rw [hct] at hout
      simp only [cost] at hout
      rcases reinsert_cases hh hc hct with ⟨_, hr⟩ | ⟨_, hr⟩ | ⟨p, hp, hpe, hpd, _, hr⟩
      · rw [hr]
        exact hdrop _ (Function.update_self _ _ _) (by omega)
      · rw [hr]
        refine repair_isSome_of_weight hh fuel _ t (step_lt hc) ⟨z, hz, hze, ?_⟩
        have := gap_step_left hc hz (fun e => by subst e; rw [hct] at hze; cases hze)
        omega
      · rw [hr]
        have hpc : p ≠ c := fun e => by subst e; omega
        refine hdrop _ ?_ ?_
        · rw [Function.update_of_ne (Ne.symm hpc), Function.update_self]
        · have hin := weight_update home (Function.update t c none) hp (some (k, v))
          rw [Function.update_of_ne hpc, hpe] at hin
          simp only [cost] at hin
          omega

/-- **Repair ends on every table content** with an empty slot. -/
theorem repair_isSome (hh : ∀ k, home k < n) {c z : ℕ} (hc : c < n) (hz : z < n)
    (hze : t z = none) : (repair n home (repairBound n) c t).isSome := by
  refine repair_isSome_of_weight hh _ c t hc ⟨z, hz, hze, ?_⟩
  have h1 := Nat.mul_le_mul_right n (weight_le n home t)
  have h2 := gap_lt (a := c) hz
  unfold repairBound
  omega

theorem erase_isSome (hh : ∀ k, home k < n) (t : Slots K V) (k : K) :
    ∃ b t', erase n home t k = some (b, t') := by
  rw [erase]
  cases hk : seek n home t k with
  | none => exact ⟨false, t, rfl⟩
  | some p =>
    dsimp only
    split_ifs
    · obtain ⟨hp, -⟩ := (search_eq_some le_rfl (hh k)).mp hk
      obtain ⟨t', ht'⟩ := Option.isSome_iff_exists.mp
        (repair_isSome hh (step_lt hp) hp (Function.update_self p none t))
      exact ⟨true, t', by rw [ht', Option.map_some]⟩
    · exact ⟨false, t, rfl⟩

/-! ## Repair restores soundness -/

/-- **The state of a repair** whose cursor is `d` probes past the hole `h`: the slots between them
are occupied, and only entries from the cursor onwards may have the hole on their probe path. -/
structure Mending (n : ℕ) (home : K → ℕ) (t : Slots K V) (h d : ℕ) : Prop where
  hole_lt : h < n
  hole : t h = none
  pos : 0 < d
  unique : Unique n t
  run : ∀ q < n, 0 < gap n h q → gap n h q < d → (t q).isSome
  chain : ∀ p < n, ∀ k v, t p = some (k, v) → ∀ q < n,
    gap n (home k) q < gap n (home k) p → (t q).isSome ∨ (q = h ∧ d ≤ gap n h p)

/-- The cursor stands `d` probes past the hole `h`, possibly back at the hole. -/
def Cursor (n h d c : ℕ) : Prop := c < n ∧ (gap n h c = d ∨ (d = n ∧ c = h))

omit [DecidableEq K] in
theorem Mending.sound {h d c : ℕ} (hh : ∀ k, home k < n) (hm : Mending n home t h d)
    (hcur : Cursor n h d c) (hct : t c = none) : Sound n home t := by
  refine ⟨hm.unique, fun p hp k v htp q hq hlt => ?_⟩
  rcases hm.chain p hp k v htp q hq hlt with hs | ⟨rfl, hd⟩
  · exact hs
  · exfalso
    rcases hcur.2 with hdc | ⟨rfl, _⟩
    · -- the cursor lies on the probe path, strictly between the hole and the entry
      have hpc : c ≠ p := fun e => by subst e; rw [hct] at htp; cases htp
      have hlt' : gap n (home k) c < gap n (home k) p := by
        have hne : gap n q c ≠ gap n q p := fun e => hpc (gap_inj hm.hole_lt hcur.1 hp e)
        have h1 := hh k
        have h2 := hcur.1
        unfold gap at *
        split_ifs at * <;> omega
      rcases hm.chain p hp k v htp c hcur.1 hlt' with hs | ⟨rfl, _⟩
      · simp [hct] at hs
      · rw [gap_self] at hdc
        exact absurd hdc.symm hm.pos.ne'
    · exact absurd hd (not_le.mpr (gap_lt hp))

omit [DecidableEq K] in
theorem Mending.advance {h d c : ℕ} (hm : Mending n home t h d) (hcur : Cursor n h d c)
    (htc : t c = some (k, v))
    (hpath : ∀ q < n, gap n (home k) q < gap n (home k) c → (t q).isSome) :
    Mending n home t h (d + 1) ∧ Cursor n h (d + 1) (step n c) := by
  have hch : c ≠ h := fun e => by subst e; rw [hm.hole] at htc; cases htc
  have hdc : gap n h c = d := by
    rcases hcur.2 with hdc | ⟨_, rfl⟩
    · exact hdc
    · exact absurd rfl hch
  refine ⟨⟨hm.hole_lt, hm.hole, Nat.succ_pos d, hm.unique, ?_, ?_⟩, step_lt hcur.1, ?_⟩
  · intro q hq h0 hlt
    rcases Nat.lt_or_eq_of_le (Nat.lt_succ_iff.mp hlt) with hlt | heq
    · exact hm.run q hq h0 hlt
    · obtain rfl := gap_inj hm.hole_lt hq hcur.1 (heq.trans hdc.symm)
      simp [htc]
  · intro p hp k' v' htp q hq hlt
    rcases hm.chain p hp k' v' htp q hq hlt with hs | ⟨rfl, hd⟩
    · exact Or.inl hs
    · refine Or.inr ⟨rfl, ?_⟩
      rcases Nat.lt_or_eq_of_le hd with hlt' | heq
      · exact hlt'
      · obtain rfl := gap_inj hm.hole_lt hp hcur.1 (heq.symm.trans hdc.symm)
        rw [htc] at htp
        cases htp
        have := hpath q hq hlt
        simp [hm.hole] at this
  · have := gap_lt (a := h) hcur.1
    rcases Nat.lt_or_eq_of_le (Nat.succ_le_of_lt this) with hlt | heq
    · exact Or.inl (by rw [gap_step_right hm.hole_lt hcur.1 hlt, hdc])
    · exact Or.inr ⟨by omega, gap_step_wrap hm.hole_lt hcur.1 heq⟩

omit [DecidableEq K] in
/-- The entries of a table after one of them moved from `c` into the hole `h`. -/
theorem move_cases {h c q : ℕ} {k' : K} {w : V} (hch : c ≠ h)
    (hq : Function.update (Function.update t c none) h (some (k, v)) q = some (k', w)) :
    (q = h ∧ k' = k ∧ w = v) ∨ (q ≠ h ∧ q ≠ c ∧ t q = some (k', w)) := by
  by_cases hqh : q = h
  · subst hqh
    rw [Function.update_self] at hq
    simp only [Option.some.injEq, Prod.mk.injEq] at hq
    exact Or.inl ⟨rfl, hq.1.symm, hq.2.symm⟩
  · rw [Function.update_of_ne hqh] at hq
    by_cases hqc : q = c
    · subst hqc; simp at hq
    · rw [Function.update_of_ne hqc] at hq
      exact Or.inr ⟨hqh, hqc, hq⟩

omit [DecidableEq K] in
theorem Mending.move {h d c : ℕ} (hm : Mending n home t h d) (hc : c < n) (htc : t c = some (k, v))
    (hlt : gap n (home k) h < gap n (home k) c)
    (hpath : ∀ q < n, gap n (home k) q < gap n (home k) h → (t q).isSome) :
    Mending n home (Function.update (Function.update t c none) h (some (k, v))) c 1 ∧
      Cursor n c 1 (step n c) := by
  have hch : c ≠ h := fun e => by subst e; exact lt_irrefl _ hlt
  have hn : 1 < n := by have := hm.hole_lt; omega
  have hval : ∀ q, q ≠ h → q ≠ c →
      Function.update (Function.update t c none) h (some (k, v)) q = t q := fun q h1 h2 => by
    rw [Function.update_of_ne h1, Function.update_of_ne h2]
  refine ⟨⟨hc, ?_, Nat.one_pos, ?_, fun q _ h0 h1 => by omega, ?_⟩, step_lt hc, Or.inl ?_⟩
  · rw [Function.update_of_ne hch, Function.update_self]
  · intro p hp q hq k' w w' h1 h2
    rcases move_cases hch h1 with ⟨rfl, rfl, rfl⟩ | ⟨hph, hpc, hp'⟩ <;>
      rcases move_cases hch h2 with ⟨rfl, hk, _⟩ | ⟨hqh, hqc, hq'⟩
    · rfl
    · exact absurd (hm.unique q hq c hc _ _ _ hq' htc) hqc
    · subst hk; exact absurd (hm.unique p hp c hc _ _ _ hp' htc) hpc
    · exact hm.unique p hp q hq k' w w' hp' hq'
  · intro p hp k' w h1 q hq hlt'
    by_cases hqh : q = h
    · subst hqh; exact Or.inl (by simp)
    rcases move_cases hch h1 with ⟨rfl, rfl, rfl⟩ | ⟨hph, hpc, h1⟩
    · have hqc : q ≠ c := fun e => by subst e; omega
      rw [hval q hqh hqc]
      exact Or.inl (hpath q hq hlt')
    · by_cases hqc : q = c
      · refine Or.inr ⟨hqc, Nat.pos_of_ne_zero fun h0 => hpc ?_⟩
        exact ((gap_eq_zero hc).mp h0).symm
      · rw [hval q hqh hqc]
        rcases hm.chain p hp k' w h1 q hq hlt' with hs | ⟨he, _⟩
        · exact Or.inl hs
        · exact absurd he hqh
  · rw [gap_step_right hc hc (by rw [gap_self]; omega), gap_self]

omit [DecidableEq K] in
theorem holds_move {h c : ℕ} (hh : h < n) (hc : c < n) (hhole : t h = none)
    (htc : t c = some (k, v)) (k' : K) (w : V) :
    Holds n (Function.update (Function.update t c none) h (some (k, v))) k' w ↔ Holds n t k' w := by
  have hch : c ≠ h := fun e => by subst e; rw [hhole] at htc; cases htc
  constructor
  · rintro ⟨q, hq, h1⟩
    rcases move_cases hch h1 with ⟨rfl, rfl, rfl⟩ | ⟨_, _, h1⟩
    · exact ⟨c, hc, htc⟩
    · exact ⟨q, hq, h1⟩
  · rintro ⟨q, hq, h1⟩
    by_cases hqc : q = c
    · subst hqc
      rw [htc] at h1
      cases h1
      exact ⟨h, hh, Function.update_self _ _ _⟩
    · refine ⟨q, hq, ?_⟩
      rw [Function.update_of_ne (fun e => by subst e; rw [hhole] at h1; cases h1),
        Function.update_of_ne hqc, h1]

/-- **A repair that ends leaves a sound table with the same entries.** -/
theorem Mending.repair_spec (hh : ∀ k, home k < n) {t' : Slots K V} :
    ∀ (fuel : ℕ) (c h d : ℕ) (t : Slots K V), Mending n home t h d → Cursor n h d c →
      repair n home fuel c t = some t' →
      Sound n home t' ∧ ∀ k v, Holds n t' k v ↔ Holds n t k v
  | 0, _, _, _, _, _, _, hr => by simp [repair] at hr
  | fuel + 1, c, h, d, t, hm, hcur, hr => by
    rw [repair] at hr
    cases htc : t c with
    | none =>
      simp only [htc, Option.some.injEq] at hr
      subst hr
      exact ⟨hm.sound hh hcur htc, fun _ _ => Iff.rfl⟩
    | some e =>
      obtain ⟨k, v⟩ := e
      simp only [htc] at hr
      rcases reinsert_cases hh hcur.1 htc with ⟨⟨p, hp, hpc, w, hpw⟩, _⟩ | ⟨hpath, he⟩ |
        ⟨p, hp, hpe, hpd, hpath, he⟩
      · exact absurd (hm.unique p hp c hcur.1 k w v hpw htc) hpc
      · rw [he] at hr
        obtain ⟨hm', hcur'⟩ := hm.advance hcur htc hpath
        exact Mending.repair_spec hh fuel _ _ _ t hm' hcur' hr
      · -- the only empty slot on the path of an entry is the hole
        obtain rfl : p = h := by
          rcases hm.chain c hcur.1 k v htc p hp hpd with hs | ⟨rfl, _⟩
          · simp [hpe] at hs
          · rfl
        rw [he] at hr
        obtain ⟨hm', hcur'⟩ := hm.move hcur.1 htc hpd hpath
        obtain ⟨hs, hiff⟩ := Mending.repair_spec hh fuel _ _ _ _ hm' hcur' hr
        exact ⟨hs, fun k' v' => (hiff k' v').trans (holds_move hm.hole_lt hcur.1 hm.hole htc k' v')⟩

omit [DecidableEq K] in
theorem Sound.mending (hs : Sound n home t) (hp : p < n) :
    Mending n home (Function.update t p none) p 1 ∧ Cursor n p 1 (step n p) := by
  have hval : ∀ q k w, Function.update t p none q = some (k, w) → q ≠ p ∧ t q = some (k, w) := by
    intro q k w h
    by_cases hqp : q = p
    · subst hqp; simp at h
    · rw [Function.update_of_ne hqp] at h
      exact ⟨hqp, h⟩
  refine ⟨⟨hp, Function.update_self _ _ _, Nat.one_pos, ?_, fun q _ h0 h1 => by omega, ?_⟩,
    step_lt hp, ?_⟩
  · intro q hq r hr k w w' h1 h2
    exact hs.unique q hq r hr k w w' (hval q k w h1).2 (hval r k w' h2).2
  · intro q hq k w h1 r hr hlt
    obtain ⟨hqp, h1⟩ := hval q k w h1
    by_cases hrp : r = p
    · refine Or.inr ⟨hrp, Nat.pos_of_ne_zero fun h0 => hqp ?_⟩
      exact ((gap_eq_zero hp).mp h0).symm
    · rw [Function.update_of_ne hrp]
      exact Or.inl (hs.chain q hq k w h1 r hr hlt)
  · rcases Nat.lt_or_eq_of_le (Nat.succ_le_of_lt (Nat.zero_lt_of_lt hp)) with hn | hn
    · exact Or.inl (by rw [gap_step_right hp hp (by rw [gap_self]; omega), gap_self])
    · refine Or.inr ⟨by omega, gap_step_wrap hp hp (by rw [gap_self]; omega)⟩

/-! ## Deletion -/

theorem erase_absent (hh : ∀ k, home k < n) (habs : ∀ w, ¬ Holds n t k w) :
    erase n home t k = some (false, t) := by
  unfold erase
  cases hk : seek n home t k with
  | none => rfl
  | some p =>
    cases htp : t p with
    | none => simp [htp]
    | some e =>
      obtain ⟨k', w⟩ := e
      obtain ⟨hp, rfl⟩ := key_of_seek hh hk htp
      exact absurd ⟨p, hp, htp⟩ (habs w)

omit [DecidableEq K] in
theorem holds_clear (hu : Unique n t) (hp : p < n) (h : t p = some (k, v)) (k' : K) (w : V) :
    Holds n (Function.update t p none) k' w ↔ k' ≠ k ∧ Holds n t k' w := by
  constructor
  · rintro ⟨q, hq, h1⟩
    by_cases hqp : q = p
    · subst hqp; simp at h1
    · rw [Function.update_of_ne hqp] at h1
      exact ⟨fun e => by subst e; exact hqp (hu q hq p hp _ _ _ h1 h), q, hq, h1⟩
  · rintro ⟨hne, q, hq, h1⟩
    refine ⟨q, hq, ?_⟩
    rw [Function.update_of_ne (fun e => by subst e; rw [h] at h1; cases h1; exact hne rfl), h1]

/-- **Erasing a stored key from a sound table.** -/
theorem Sound.erase_present (hs : Sound n home t) (hh : ∀ k, home k < n) (h : Holds n t k v) :
    ∃ t', erase n home t k = some (true, t') ∧ Sound n home t' ∧
      ∀ k' v', Holds n t' k' v' ↔ k' ≠ k ∧ Holds n t k' v' := by
  obtain ⟨p, hp, h⟩ := h
  obtain ⟨t', ht'⟩ := Option.isSome_iff_exists.mp
    (repair_isSome hh (step_lt hp) hp (Function.update_self p none t))
  obtain ⟨hm, hcur⟩ := hs.mending hp
  obtain ⟨hs', hiff⟩ := hm.repair_spec hh _ _ _ _ _ hcur ht'
  refine ⟨t', ?_, hs', fun k' v' => (hiff k' v').trans (holds_clear hs.unique hp h k' v')⟩
  simp [erase, hs.seek_eq hh hp h, h, ht']

omit [DecidableEq K] in
theorem card_eq_count (hu : Unique n t) (S : Finset K) (hS : ∀ k, k ∈ S ↔ ∃ v, Holds n t k v) :
    S.card = count n t := by
  classical
  have himg : S.image some =
      ((Finset.range n).filter fun p => (t p).isSome).image fun p => (t p).map Prod.fst := by
    ext o
    simp only [Finset.mem_image, Finset.mem_filter, Finset.mem_range]
    constructor
    · rintro ⟨k, hk, rfl⟩
      obtain ⟨v, p, hp, h⟩ := (hS k).mp hk
      exact ⟨p, ⟨hp, by simp [h]⟩, by simp [h]⟩
    · rintro ⟨p, ⟨hp, h⟩, rfl⟩
      obtain ⟨⟨k, v⟩, h⟩ := Option.isSome_iff_exists.mp h
      exact ⟨k, (hS k).mpr ⟨v, p, hp, h⟩, by simp [h]⟩
  rw [count, ← Finset.card_image_of_injective S (Option.some_injective K), himg]
  refine Finset.card_image_of_injOn fun p hp q hq he => ?_
  simp only [Finset.coe_filter, Finset.mem_range, Set.mem_ofPred_eq] at hp hq
  obtain ⟨⟨k, v⟩, h1⟩ := Option.isSome_iff_exists.mp hp.2
  obtain ⟨⟨k', w⟩, h2⟩ := Option.isSome_iff_exists.mp hq.2
  simp only [h1, h2, Option.map_some, Option.some.injEq] at he
  subst he
  exact hu p hp.1 q hq.1 k v w h1 h2

omit [DecidableEq K] in
theorem count_eq_iff_full : count n t = n ↔ ∀ p < n, (t p).isSome := by
  have : count n t = n ↔ ((Finset.range n).filter fun p => (t p).isSome).card = (Finset.range n).card := by
    rw [Finset.card_range, count]
  rw [this, Finset.card_filter_eq_iff]
  simp

end Table

end Probing
