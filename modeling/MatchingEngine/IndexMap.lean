import MatchingEngine.FixedHash

/-!
# The order-id index is a bounded map

* `FixedOrderIndex.WF`, `Has`: the table invariant and the pairs it stores; one specification for
  each call (`find_spec`, `insert_spec`, `insert_refused`, `erase_spec`, `erase_unknown`).
* `IndexCall`, `FixedOrderIndex.run`: arbitrary sequences of calls on one table. `BoundedMap.run`:
  the same calls on a finite map with room for a fixed number of keys; `latest`: the node of the
  latest successful insertion that no deletion follows.
* **`run_refines`**: a table run and a map run give the same answers, and end related.
-/

set_option autoImplicit false

namespace Dme

namespace FixedOrderIndex

variable {t : FixedOrderIndex} {id : OrderId} {node : UInt32}

/-- The table invariant. -/
structure WF (t : FixedOrderIndex) : Prop where
  shape : t.Shape
  sound : Probing.Sound t.entries.size t.home t.slots
  clean : t.Clean

/-- The table stores `node` for `id`. -/
def Has (t : FixedOrderIndex) (id : OrderId) (node : UInt32) : Prop :=
  Probing.Holds t.entries.size t.slots id node

theorem WF.has_unique (h : t.WF) {node' : UInt32} (h₁ : t.Has id node) (h₂ : t.Has id node') :
    node = node' := Probing.Holds.unique h.sound.unique h₁ h₂

theorem WF.find_spec (h : t.WF) (id : OrderId) :
    ∃ o, t.find id = .ok o ∧ ∀ node, o = some node ↔ t.Has id node :=
  ⟨_, find_eq h.shape id, fun _ => h.sound.find_eq_some_iff h.shape.home_lt⟩

theorem WF.find_has (h : t.WF) (hn : t.Has id node) : t.find id = .ok (some node) := by
  obtain ⟨o, ho, hiff⟩ := h.find_spec id
  rw [ho, (hiff node).mpr hn]

theorem WF.find_not_has (h : t.WF) (hn : ∀ node, ¬ t.Has id node) : t.find id = .ok none := by
  obtain ⟨o, ho, hiff⟩ := h.find_spec id
  rw [ho, Option.eq_none_iff_forall_ne_some.mpr fun node he => hn node ((hiff node).mp he)]

/-- **Inserting an id that is not stored, with a slot to spare.** -/
theorem WF.insert_spec (h : t.WF) (habs : ∀ node, ¬ t.Has id node)
    (hroom : ∃ p < t.entries.size, t.slots p = none) (node : UInt32) :
    ∃ t', t.insert id node = .ok (true, t') ∧ t'.WF ∧ t'.entries.size = t.entries.size ∧
      ∀ i n, t'.Has i n ↔ (i = id ∧ n = node) ∨ t.Has i n := by
  obtain ⟨t', hins, hb, _⟩ := insert_eq h.shape id node
  obtain ⟨htrue, hsound, hholds, _⟩ := h.sound.insert_fresh h.shape.home_lt habs hroom node
  rw [htrue] at hins
  refine ⟨t', hins, ⟨hb.shape h.shape, ?_, hb.clean h.clean⟩, hb.size, fun i n => ?_⟩
  · rw [hb.size, hb.home, hb.slots]; exact hsound
  · rw [Has, hb.size, hb.slots]; exact hholds i n

theorem WF.insert_refused (h : t.WF) (hno : t.Has id node ∨ ∀ p < t.entries.size, (t.slots p).isSome)
    (node' : UInt32) : t.insert id node' = .ok (false, t) := by
  obtain ⟨t', hins, _, hsame⟩ := insert_eq h.shape id node'
  have hfalse : Probing.insert t.entries.size t.home t.slots id node' = (false, t.slots) := by
    rcases hno with hp | hfull
    · exact h.sound.insert_present h.shape.home_lt hp node'
    · exact Probing.insert_full hfull h.shape.home_lt node'
  rw [hfalse] at hins hsame
  rw [hins, hsame rfl]

/-- **Erasing a stored id.** -/
theorem WF.erase_spec (h : t.WF) (hn : t.Has id node) :
    ∃ t', t.erase id = .ok (true, t') ∧ t'.WF ∧ t'.entries.size = t.entries.size ∧
      ∀ i n, t'.Has i n ↔ i ≠ id ∧ t.Has i n := by
  obtain ⟨s, her, hsound, hholds⟩ := h.sound.erase_present h.shape.home_lt hn
  obtain ⟨t', het, hb, _⟩ := erase_eq h.shape id her
  refine ⟨t', het, ⟨hb.shape h.shape, ?_, hb.clean h.clean⟩, hb.size, fun i n => ?_⟩
  · rw [hb.size, hb.home, hb.slots]; exact hsound
  · rw [Has, hb.size, hb.slots]; exact hholds i n

/-- **Erasing an id that was just inserted** gives the table back, entry by entry. -/
theorem WF.erase_insert (h : t.WF) (habs : ∀ node, ¬ t.Has id node)
    (hroom : ∃ p < t.entries.size, t.slots p = none) {r : Bool} {t' : FixedOrderIndex}
    (hins : t.insert id node = .ok (r, t')) : t'.erase id = .ok (true, t) := by
  obtain ⟨t₁, hins₁, hb, -⟩ := insert_eq h.shape id node
  cases hins.symm.trans hins₁
  have hundo := h.sound.erase_insert h.shape.home_lt habs hroom node
  rw [← hb.slots, ← hb.size, ← hb.home] at hundo
  obtain ⟨t₂, her, hb', -⟩ := erase_eq (hb.shape h.shape) id hundo
  rw [her, h.clean.ext (hb'.clean (hb.clean h.clean)) (hb'.size.trans hb.size)
    (hb'.mask.trans hb.mask) hb'.slots]

theorem WF.erase_unknown (h : t.WF) (hn : ∀ node, ¬ t.Has id node) : t.erase id = .ok (false, t) := by
  obtain ⟨t', het, _, hsame⟩ := erase_eq h.shape id (Probing.erase_absent h.shape.home_lt hn)
  rw [het, hsame rfl]

theorem new_spec {requested : ℕ} (h : new requested = .ok t) :
    t.WF ∧ requested * 2 ≤ t.entries.size ∧ (∀ i n, ¬ t.Has i n) := by
  obtain ⟨capacity, hcapacity, h⟩ := bind_eq_ok.mp h
  rw [tableCapacity] at hcapacity
  split_ifs at hcapacity with hreq
  · cases hcapacity
    obtain ⟨entries, hentries, h⟩ := bind_eq_ok.mp h
    obtain ⟨-, rfl⟩ := vecNew_eq_ok.mp hentries
    cases h
    have hempty : ∀ (m mask : ℕ),
        (⟨Array.replicate m {}, mask⟩ : FixedOrderIndex).slots = fun _ => none := by
      intro m mask
      funext p
      rw [slots, show ({} : Entry) = default from rfl, vecAt_replicate]
      rfl
    refine ⟨⟨⟨?_, ?_⟩, ?_, fun p _ => vecAt_replicate _ p⟩, ?_, ?_⟩
    · rw [Array.size_replicate]; exact bitCeil_isPow _
    · rw [Array.size_replicate]
    · rw [hempty]; exact Probing.sound_empty _ _
    · rw [Array.size_replicate]; exact le_bitCeil _
    · rintro i n ⟨p, _, hp⟩
      rw [hempty] at hp
      cases hp

theorem new_isOk (requested : ℕ) (h : requested ≠ 0) (h' : requested ≤ 2 ^ 32) :
    ∃ t, new requested = .ok t := by
  have hcapacity : bitCeil (requested * 2) ≤ maxSize 16 :=
    (bitCeil_le_two_pow (show requested * 2 ≤ 2 ^ 33 by omega)).trans (by decide)
  have hentries := (vecNew_eq_ok (x := ({} : Entry))).mpr ⟨hcapacity, rfl⟩
  refine ⟨⟨Array.replicate (bitCeil (requested * 2)) {}, bitCeil (requested * 2) - 1⟩, ?_⟩
  simp only [new, tableCapacity]
  rw [if_neg (by omega)]
  simp only [bind, Except.bind, hentries]

end FixedOrderIndex

/-! ## Runs of calls -/

/-- A call of a member function of the index. -/
inductive IndexCall
  | insert (id : OrderId) (node : UInt32)
  | find (id : OrderId)
  | erase (id : OrderId)
deriving DecidableEq, Repr

/-- What a call returns. -/
inductive IndexResult
  | inserted (done : Bool)
  | found (node : Option UInt32)
  | erased (done : Bool)
deriving DecidableEq, Repr

/-- One call on a table. -/
def FixedOrderIndex.call (t : FixedOrderIndex) :
    IndexCall → Except Fault (IndexResult × FixedOrderIndex)
  | .insert id node => do
    let (done, t') ← t.insert id node
    .ok (.inserted done, t')
  | .find id => do
    let node ← t.find id
    .ok (.found node, t)
  | .erase id => do
    let (done, t') ← t.erase id
    .ok (.erased done, t')

/-- A sequence of calls on a table, with their results. -/
def FixedOrderIndex.run (t : FixedOrderIndex) :
    List IndexCall → Except Fault (List IndexResult × FixedOrderIndex)
  | [] => .ok ([], t)
  | c :: cs => do
    let (r, t') ← t.call c
    let (rs, t'') ← FixedOrderIndex.run t' cs
    .ok (r :: rs, t'')

/-- A finite map from order ids to nodes. -/
abbrev NodeMap := Finmap fun _ : OrderId => UInt32

namespace BoundedMap

/-- One call on a finite map with room for `room` keys. -/
def call (room : ℕ) (m : NodeMap) : IndexCall → IndexResult × NodeMap
  | .insert id node =>
    if id ∈ m ∨ m.keys.card = room then (.inserted false, m) else (.inserted true, m.insert id node)
  | .find id => (.found (m.lookup id), m)
  | .erase id => if id ∈ m then (.erased true, m.erase id) else (.erased false, m)

/-- A sequence of calls on a finite map. -/
def run (room : ℕ) : NodeMap → List IndexCall → List IndexResult × NodeMap
  | m, [] => ([], m)
  | m, c :: cs =>
    let (r, m') := call room m c
    let (rs, m'') := run room m' cs
    (r :: rs, m'')

end BoundedMap

/-- The node of the latest successful insertion of `id` in a history that no deletion of `id`
follows, starting from `o`. -/
def latest (id : OrderId) (o : Option UInt32) : List (IndexCall × IndexResult) → Option UInt32
  | [] => o
  | (.insert i node, .inserted true) :: h => latest id (if i = id then some node else o) h
  | (.erase i, _) :: h => latest id (if i = id then none else o) h
  | _ :: h => latest id o h

/-! ## Refinement -/

/-- The table stores the map. -/
structure FixedOrderIndex.Stores (t : FixedOrderIndex) (m : NodeMap) : Prop where
  wf : t.WF
  has : ∀ id node, t.Has id node ↔ m.lookup id = some node

namespace FixedOrderIndex.Stores

variable {t : FixedOrderIndex} {m : NodeMap}

theorem mem_iff (h : t.Stores m) (id : OrderId) : id ∈ m ↔ ∃ node, t.Has id node := by
  rw [Finmap.mem_iff]
  exact exists_congr fun node => (h.has id node).symm

theorem full_iff (h : t.Stores m) :
    m.keys.card = t.entries.size ↔ ∀ p < t.entries.size, (t.slots p).isSome := by
  rw [Probing.card_eq_count h.wf.sound.unique m.keys fun id => by
    rw [Finmap.mem_keys, h.mem_iff]; rfl]
  exact Probing.count_eq_iff_full

theorem find_refines (h : t.Stores m) (id : OrderId) : t.find id = .ok (m.lookup id) := by
  obtain ⟨o, ho, hiff⟩ := h.wf.find_spec id
  rw [ho]
  congr 1
  ext node
  rw [hiff, h.has]

theorem insert_refused (h : t.Stores m) {id : OrderId} (hno : id ∈ m ∨ m.keys.card = t.entries.size)
    (node : UInt32) : t.insert id node = .ok (false, t) := by
  rcases hno with hmem | hfull
  · obtain ⟨n, hn⟩ := (h.mem_iff id).mp hmem
    exact h.wf.insert_refused (Or.inl hn) node
  · exact h.wf.insert_refused (Or.inr (h.full_iff.mp hfull) : t.Has id node ∨ _) node

theorem insert_refines (h : t.Stores m) {id : OrderId}
    (hno : ¬ (id ∈ m ∨ m.keys.card = t.entries.size)) (node : UInt32) :
    ∃ t', t.insert id node = .ok (true, t') ∧ t'.Stores (m.insert id node) ∧
      t'.entries.size = t.entries.size := by
  rw [not_or] at hno
  have habs : ∀ n, ¬ t.Has id n := fun n hn => hno.1 ((h.mem_iff id).mpr ⟨n, hn⟩)
  have hroom : ∃ p < t.entries.size, t.slots p = none := by
    by_contra hc
    push Not at hc
    refine hno.2 (h.full_iff.mpr fun p hp => ?_)
    exact Option.isSome_iff_ne_none.mpr (hc p hp)
  obtain ⟨t', hins, hwf, hsize, hhas⟩ := h.wf.insert_spec habs hroom node
  refine ⟨t', hins, ⟨hwf, fun i n => ?_⟩, hsize⟩
  rw [hhas, h.has]
  by_cases hi : i = id
  · subst hi
    have hnone : m.lookup i = none := Finmap.lookup_eq_none.mpr hno.1
    simp [Finmap.lookup_insert, hnone, eq_comm]
  · simp [Finmap.lookup_insert_of_ne m hi, hi]

theorem erase_refines (h : t.Stores m) {id : OrderId} (hmem : id ∈ m) :
    ∃ t', t.erase id = .ok (true, t') ∧ t'.Stores (m.erase id) ∧
      t'.entries.size = t.entries.size := by
  obtain ⟨n, hn⟩ := (h.mem_iff id).mp hmem
  obtain ⟨t', her, hwf, hsize, hhas⟩ := h.wf.erase_spec hn
  refine ⟨t', her, ⟨hwf, fun i n => ?_⟩, hsize⟩
  rw [hhas, h.has]
  by_cases hi : i = id
  · subst hi; simp [Finmap.lookup_erase]
  · simp [Finmap.lookup_erase_ne hi, hi]

theorem erase_unknown (h : t.Stores m) {id : OrderId} (hmem : id ∉ m) :
    t.erase id = .ok (false, t) :=
  h.wf.erase_unknown fun n hn => hmem ((h.mem_iff id).mpr ⟨n, hn⟩)

/-- **One call on the table is one call on the map.** -/
theorem call_refines (h : t.Stores m) (c : IndexCall) :
    ∃ t', t.call c = .ok ((BoundedMap.call t.entries.size m c).1, t') ∧
      t'.Stores (BoundedMap.call t.entries.size m c).2 ∧ t'.entries.size = t.entries.size := by
  cases c with
  | find id => exact ⟨t, by simp [call, h.find_refines, BoundedMap.call, bind, Except.bind], h, rfl⟩
  | insert id node =>
    rw [BoundedMap.call]
    split_ifs with hno
    · exact ⟨t, by simp [call, h.insert_refused hno, bind, Except.bind], h, rfl⟩
    · obtain ⟨t', hins, hst, hsize⟩ := h.insert_refines hno node
      exact ⟨t', by simp [call, hins, bind, Except.bind], hst, hsize⟩
  | erase id =>
    rw [BoundedMap.call]
    split_ifs with hmem
    · obtain ⟨t', her, hst, hsize⟩ := h.erase_refines hmem
      exact ⟨t', by simp [call, her, bind, Except.bind], hst, hsize⟩
    · exact ⟨t, by simp [call, h.erase_unknown hmem, bind, Except.bind], h, rfl⟩

/-- **A run on the table is a run on the map.** -/
theorem run_refines (h : t.Stores m) (cs : List IndexCall) :
    ∃ t', t.run cs = .ok ((BoundedMap.run t.entries.size m cs).1, t') ∧
      t'.Stores (BoundedMap.run t.entries.size m cs).2 ∧ t'.entries.size = t.entries.size := by
  induction cs generalizing t m with
  | nil => exact ⟨t, rfl, h, rfl⟩
  | cons c cs ih =>
    obtain ⟨t₁, hc, h₁, hsize⟩ := h.call_refines c
    obtain ⟨t₂, hr, h₂, hsize'⟩ := ih h₁
    rw [hsize] at hr h₂ hsize'
    exact ⟨t₂, by simp [run, hc, hr, BoundedMap.run, bind, Except.bind], h₂, hsize'⟩

end FixedOrderIndex.Stores

theorem BoundedMap.lookup_call (room : ℕ) (m : NodeMap) (c : IndexCall) (id : OrderId) :
    (call room m c).2.lookup id = latest id (m.lookup id) [(c, (call room m c).1)] := by
  cases c with
  | find i => rfl
  | insert i node =>
    rw [call]
    split_ifs with hno
    · rfl
    · simp only [latest]
      by_cases hi : i = id
      · subst hi; simp [Finmap.lookup_insert]
      · simp [hi, Finmap.lookup_insert_of_ne m (Ne.symm hi)]
  | erase i =>
    rw [call]
    split_ifs with hmem
    · simp only [latest]
      by_cases hi : i = id
      · subst hi; simp [Finmap.lookup_erase]
      · simp [hi, Finmap.lookup_erase_ne (Ne.symm hi)]
    · simp only [latest]
      by_cases hi : i = id
      · subst hi; simp [Finmap.lookup_eq_none.mpr hmem]
      · simp [hi]

theorem latest_cons (id : OrderId) (o : Option UInt32) (c : IndexCall × IndexResult)
    (h : List (IndexCall × IndexResult)) :
    latest id o (c :: h) = latest id (latest id o [c]) h := by
  rcases c with ⟨c, r⟩
  cases c <;> cases r <;> try rfl
  next i node done => cases done <;> rfl

/-- **The map after a run is what the history says.** -/
theorem BoundedMap.lookup_run (room : ℕ) (cs : List IndexCall) (m : NodeMap) (id : OrderId) :
    (run room m cs).2.lookup id = latest id (m.lookup id) (cs.zip (run room m cs).1) := by
  induction cs generalizing m with
  | nil => rfl
  | cons c cs ih =>
    simp only [run, List.zip_cons_cons]
    rw [latest_cons, ← lookup_call, ih]

namespace FixedOrderIndex

theorem new_stores {requested : ℕ} {t : FixedOrderIndex} (h : new requested = .ok t) :
    t.Stores ∅ := by
  obtain ⟨hwf, _, hhas⟩ := new_spec h
  exact ⟨hwf, fun id node => ⟨fun hn => absurd hn (hhas id node), fun hn => by simp at hn⟩⟩

/-- **The index is a finite map with room for as many keys as it has slots**, after any calls on
a new table of any accepted capacity. -/
theorem index_refines_bounded_map {requested : ℕ} {t₀ : FixedOrderIndex}
    (h₀ : new requested = .ok t₀) (calls : List IndexCall) :
    ∃ t, t₀.run calls = .ok ((BoundedMap.run t₀.entries.size ∅ calls).1, t) ∧
      t.entries.size = t₀.entries.size ∧
      (∀ id, t.find id = .ok
        (latest id none (calls.zip (BoundedMap.run t₀.entries.size ∅ calls).1))) ∧
      (∀ id node, ∃ done t', t.insert id node = .ok (done, t') ∧
        (done = false ↔ (∃ n, t.find id = .ok (some n)) ∨
          ∀ p < t.entries.size, (vecAt t.entries p).state = .occupied) ∧
        (done = false → t' = t)) ∧
      ∀ id, ∃ done t', t.erase id = .ok (done, t') ∧
        (done = true ↔ ∃ n, t.find id = .ok (some n)) ∧
        ∀ id', id' ≠ id → t'.find id' = t.find id' := by
  obtain ⟨t, hrun, hst, hsize⟩ := (new_stores h₀).run_refines calls
  set m := (BoundedMap.run t₀.entries.size ∅ calls).2 with hm
  have hmem : ∀ id, (∃ n, t.find id = .ok (some n)) ↔ id ∈ m := by
    intro id
    rw [Finmap.mem_iff, hst.find_refines id]
    simp
  have hfull : (∀ p < t.entries.size, (vecAt t.entries p).state = .occupied) ↔
      m.keys.card = t.entries.size := by
    rw [hst.full_iff]
    refine forall_congr' fun p => forall_congr' fun _ => ?_
    rw [Option.isSome_iff_ne_none, ne_eq, slots_eq_none]
    cases (vecAt t.entries p).state <;> simp
  refine ⟨t, hrun, hsize, fun id => ?_, fun id node => ?_, fun id => ?_⟩
  · rw [hst.find_refines id, hm, BoundedMap.lookup_run]
    simp
  · rw [hmem, hfull]
    by_cases hno : id ∈ m ∨ m.keys.card = t.entries.size
    · exact ⟨false, t, hst.insert_refused hno node, by simp [hno], fun _ => rfl⟩
    · obtain ⟨t', hins, _⟩ := hst.insert_refines hno node
      exact ⟨true, t', hins, by simp [hno], by simp⟩
  · rw [hmem]
    by_cases hid : id ∈ m
    · obtain ⟨t', her, hst', _⟩ := hst.erase_refines hid
      refine ⟨true, t', her, by simp [hid], fun id' hne => ?_⟩
      rw [hst'.find_refines, hst.find_refines, Finmap.lookup_erase_ne hne]
    · exact ⟨false, t, hst.erase_unknown hid, by simp [hid], fun _ _ => rfl⟩

/-- Two slots: both fill up, a third id is refused, and an erased id makes room. -/
theorem index_refines_bounded_map_two_slots :
    ∃ t₀ : FixedOrderIndex, new 1 = .ok t₀ ∧ ∃ t,
      t₀.run [.insert 0 7, .insert 5 8, .insert 9 1, .erase 0, .find 5] =
        .ok ((BoundedMap.run t₀.entries.size ∅
          [.insert 0 7, .insert 5 8, .insert 9 1, .erase 0, .find 5]).1, t) := by
  obtain ⟨t₀, h₀⟩ := new_isOk 1 (by decide) (by decide)
  obtain ⟨t, hrun, _⟩ := index_refines_bounded_map h₀
    [.insert 0 7, .insert 5 8, .insert 9 1, .erase 0, .find 5]
  exact ⟨t₀, h₀, t, hrun⟩

example : (FixedOrderIndex.new 1 >>= fun t => t.run
    [.insert 0 7, .insert 5 8, .insert 9 1, .erase 0, .find 5, .find 0]).map Prod.fst =
      .ok [.inserted true, .inserted true, .inserted false, .erased true, .found (some 8),
        .found none] := by
  decide +kernel

end FixedOrderIndex

end Dme
