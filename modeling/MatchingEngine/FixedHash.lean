import MatchingEngine.Types
import MatchingEngine.Lib.Probing

/-!
# The fixed order-id index

`FixedOrderIndex` of `fixed_hash.hpp`: a power-of-two table of entries, linear probing with the
slot wrapped by a mask, and deletion by reinserting the cluster behind the emptied slot.

* `FixedOrderIndex.insert`, `find`, `erase`, as the source computes them.
* `slots`, `home`: the table as an open-addressing table; `insert_eq`, `find_eq`, `erase_eq`: the
  three loops are the operations of `Probing` on it. `displace`: the body of the repair loop.
-/

set_option autoImplicit false

namespace Dme

/-- The state of a slot. -/
inductive State
  | empty
  | occupied
deriving DecidableEq, Repr

/-- A slot; it is empty unless its state says otherwise. -/
structure Entry where
  id : OrderId := 0
  node : UInt32 := 0
  state : State := .empty
deriving DecidableEq, Repr, Inhabited

/-- The table of slots, with `mask` one less than their number. -/
structure FixedOrderIndex where
  entries : Array Entry
  mask : ℕ
deriving DecidableEq, Repr

namespace FixedOrderIndex

/-- `table_capacity`: a power of two, at least twice what is requested. -/
def tableCapacity (requested : ℕ) : Except Fault ℕ :=
  if requested = 0 ∨ requested > 2 ^ 62 then
    .error (.invalidArgument "invalid fixed-index capacity")
  else .ok (bitCeil (requested * 2))

/-- The constructor. -/
def new (requested : ℕ) : Except Fault FixedOrderIndex := do
  let capacity ← tableCapacity requested
  let entries ← vecNew 16 capacity {}
  .ok { entries, mask := capacity - 1 }

/-- `hash`, in wrapping 64-bit arithmetic. -/
def hash (value : OrderId) : UInt64 :=
  let value := value ^^^ (value >>> 30)
  let value := value * 0xbf58476d1ce4e5b9
  let value := value ^^^ (value >>> 27)
  let value := value * 0x94d049bb133111eb
  value ^^^ (value >>> 31)

/-- The slot a probe for `id` starts at. -/
def home (t : FixedOrderIndex) (id : OrderId) : ℕ := (hash id).toNat &&& t.mask

/-- The loop of `insert`, with the number of slots still to be probed. -/
def insertProbe (t : FixedOrderIndex) (id : OrderId) (node : UInt32) :
    ℕ → ℕ → Except Fault (Bool × FixedOrderIndex)
  | 0, _ => .ok (false, t)
  | probes + 1, slot => do
    let entry ← vecGet t.entries slot
    if entry.state = .occupied ∧ entry.id = id then .ok (false, t)
    else if entry.state = .empty then
      let entries ← vecSet t.entries slot ⟨id, node, .occupied⟩
      .ok (true, { t with entries })
    else insertProbe t id node probes ((slot + 1) &&& t.mask)

/-- `insert`; `false` if the id is there already or every slot is taken. -/
def insert (t : FixedOrderIndex) (id : OrderId) (node : UInt32) :
    Except Fault (Bool × FixedOrderIndex) :=
  insertProbe t id node t.entries.size (t.home id)

/-- The loop of `find`, with the number of slots still to be probed. -/
def findProbe (t : FixedOrderIndex) (id : OrderId) : ℕ → ℕ → Except Fault (Option UInt32)
  | 0, _ => .ok none
  | probes + 1, slot => do
    let entry ← vecGet t.entries slot
    if entry.state = .empty then .ok none
    else if entry.state = .occupied ∧ entry.id = id then .ok (some entry.node)
    else findProbe t id probes ((slot + 1) &&& t.mask)

/-- The node stored for `id`; `none` is the source's `nullptr`. -/
def find (t : FixedOrderIndex) (id : OrderId) : Except Fault (Option UInt32) :=
  findProbe t id t.entries.size (t.home id)

/-- The cluster repair of `erase`, from slot `next`. -/
def repair (t : FixedOrderIndex) : ℕ → ℕ → Except Fault FixedOrderIndex
  | 0, _ => .error .endless
  | fuel + 1, next => do
    let displaced ← vecGet t.entries next
    if displaced.state = .occupied then
      let entries ← vecSet t.entries next {}
      let (_, t') ← insert { t with entries } displaced.id displaced.node
      repair t' fuel ((next + 1) &&& t.mask)
    else .ok t

/-- The loop of `erase`, with the number of slots still to be probed. -/
def eraseProbe (t : FixedOrderIndex) (id : OrderId) : ℕ → ℕ → Except Fault (Bool × FixedOrderIndex)
  | 0, _ => .ok (false, t)
  | probes + 1, slot => do
    let entry ← vecGet t.entries slot
    if entry.state = .empty then .ok (false, t)
    else if entry.state = .occupied ∧ entry.id = id then
      let entries ← vecSet t.entries slot {}
      let t' ← repair { t with entries } (Probing.repairBound t.entries.size) ((slot + 1) &&& t.mask)
      .ok (true, t')
    else eraseProbe t id probes ((slot + 1) &&& t.mask)

/-- `erase`; `false` if the id is not there. -/
def erase (t : FixedOrderIndex) (id : OrderId) : Except Fault (Bool × FixedOrderIndex) :=
  eraseProbe t id t.entries.size (t.home id)

/-! ## The table as an open-addressing table -/

/-- The entry of a slot. -/
def Entry.slot (e : Entry) : Option (OrderId × UInt32) :=
  match e.state with
  | .empty => none
  | .occupied => some (e.id, e.node)

/-- The slots of the table. -/
def slots (t : FixedOrderIndex) : Probing.Slots OrderId UInt32 :=
  fun p => Entry.slot (vecAt t.entries p)

/-- **The shape of a table**: a power of two of slots, and the mask that wraps around it. -/
structure Shape (t : FixedOrderIndex) : Prop where
  isPow : ∃ k, t.entries.size = 2 ^ k
  mask : t.mask = t.entries.size - 1

variable {t : FixedOrderIndex} {id : OrderId} {node : UInt32}

theorem Shape.pos (hs : t.Shape) : 0 < t.entries.size := by
  obtain ⟨k, hk⟩ := hs.isPow
  rw [hk]
  exact Nat.two_pow_pos k

theorem Shape.and_mask (hs : t.Shape) (x : ℕ) : x &&& t.mask = x % t.entries.size := by
  obtain ⟨k, hk⟩ := hs.isPow
  rw [hs.mask, hk, Nat.and_two_pow_sub_one_eq_mod]

theorem Shape.home_lt (hs : t.Shape) (id : OrderId) : t.home id < t.entries.size := by
  rw [home, hs.and_mask]
  exact Nat.mod_lt _ hs.pos

theorem Shape.succ_and_mask (hs : t.Shape) {p : ℕ} (hp : p < t.entries.size) :
    (p + 1) &&& t.mask = Circle.step t.entries.size p := by
  obtain ⟨k, hk⟩ := hs.isPow
  rw [hs.mask, Circle.succ_and_mask hk hp]

/-- The table with slot `p` overwritten. -/
def put (t : FixedOrderIndex) (p : ℕ) (e : Entry) : FixedOrderIndex :=
  { t with entries := t.entries.setIfInBounds p e }

@[simp] theorem size_put (p : ℕ) (e : Entry) : (t.put p e).entries.size = t.entries.size := by
  simp [put]

@[simp] theorem mask_put (p : ℕ) (e : Entry) : (t.put p e).mask = t.mask := rfl

theorem Shape.put (hs : t.Shape) (p : ℕ) (e : Entry) : (t.put p e).Shape :=
  ⟨by rw [size_put]; exact hs.isPow, by rw [size_put, mask_put]; exact hs.mask⟩

theorem slots_put {p : ℕ} (hp : p < t.entries.size) (e : Entry) :
    (t.put p e).slots = Function.update t.slots p (Entry.slot e) := by
  funext q
  by_cases h : q = p
  · subst h
    rw [Function.update_self, slots, put, vecAt_set_self hp]
  · rw [Function.update_of_ne h, slots, put, vecAt_set_ne hp (Ne.symm h), slots]

theorem slots_eq_none {p : ℕ} : t.slots p = none ↔ (vecAt t.entries p).state = .empty := by
  simp only [slots, Entry.slot]
  cases (vecAt t.entries p).state <;> simp

theorem slots_eq_some {p : ℕ} {e : OrderId × UInt32} :
    t.slots p = some e ↔ (vecAt t.entries p).state = .occupied ∧
      (vecAt t.entries p).id = e.1 ∧ (vecAt t.entries p).node = e.2 := by
  obtain ⟨i, n⟩ := e
  simp only [slots, Entry.slot]
  cases (vecAt t.entries p).state <;> simp

/-! ## The loops are the operations of `Probing` -/

/-- Empty slots hold the default entry. -/
def Clean (t : FixedOrderIndex) : Prop := ∀ p, t.slots p = none → vecAt t.entries p = {}

theorem Clean.put (h : t.Clean) {p : ℕ} (hp : p < t.entries.size) {e : Entry}
    (he : Entry.slot e = none → e = {}) : (t.put p e).Clean := by
  intro q hq
  rw [slots_put hp] at hq
  by_cases hqp : q = p
  · subst hqp
    rw [Function.update_self] at hq
    rw [FixedOrderIndex.put, vecAt_set_self hp, he hq]
  · rw [Function.update_of_ne hqp] at hq
    rw [FixedOrderIndex.put, vecAt_set_ne hp (Ne.symm hqp), h q hq]

theorem Clean.ext {t' : FixedOrderIndex} (h : t.Clean) (h' : t'.Clean)
    (hsize : t'.entries.size = t.entries.size) (hmask : t'.mask = t.mask)
    (hslots : t'.slots = t.slots) : t' = t := by
  have hentry : ∀ p, vecAt t'.entries p = vecAt t.entries p := by
    intro p
    have hp := congrFun hslots p
    cases he : t.slots p with
    | none => rw [h p he, h' p (hp.trans he)]
    | some e =>
      obtain ⟨hs, hi, hn⟩ := slots_eq_some.mp he
      obtain ⟨hs', hi', hn'⟩ := slots_eq_some.mp (hp.trans he)
      cases hv : vecAt t.entries p
      cases hv' : vecAt t'.entries p
      simp_all
  obtain ⟨entries, mask⟩ := t
  obtain ⟨entries', mask'⟩ := t'
  obtain rfl : mask' = mask := hmask
  exact congrArg (FixedOrderIndex.mk · mask') (vecAt_ext hsize fun p _ => hentry p)

/-- `t'` has the slots `s` in a table of the same size. -/
structure Becomes (t : FixedOrderIndex) (s : Probing.Slots OrderId UInt32) (t' : FixedOrderIndex) :
    Prop where
  size : t'.entries.size = t.entries.size
  mask : t'.mask = t.mask
  slots : t'.slots = s
  clean : t.Clean → t'.Clean

theorem Becomes.refl (t : FixedOrderIndex) : t.Becomes t.slots t := ⟨rfl, rfl, rfl, id⟩

theorem Becomes.put {p : ℕ} (hp : p < t.entries.size) (e : Entry)
    (he : Entry.slot e = none → e = {}) :
    t.Becomes (Function.update t.slots p (Entry.slot e)) (t.put p e) :=
  ⟨size_put p e, rfl, slots_put hp e, fun h => h.put hp he⟩

section Becomes

variable {s s' : Probing.Slots OrderId UInt32} {t' t'' : FixedOrderIndex}

theorem Becomes.shape (h : t.Becomes s t') (hs : t.Shape) : t'.Shape :=
  ⟨by rw [h.size]; exact hs.isPow, by rw [h.size, h.mask]; exact hs.mask⟩

theorem Becomes.home (h : t.Becomes s t') : t'.home = t.home := by
  funext id; simp only [FixedOrderIndex.home, h.mask]

theorem Becomes.trans (h : t.Becomes s t') (h' : t'.Becomes s' t'') : t.Becomes s' t'' :=
  ⟨h'.size.trans h.size, h'.mask.trans h.mask, h'.slots, h'.clean ∘ h.clean⟩

end Becomes

theorem insertProbe_eq (hs : t.Shape) (m p : ℕ) (hp : p < t.entries.size) :
    t.insertProbe id node m p = .ok
      (match Probing.search t.entries.size (Probing.stops t.slots id) m p with
      | none => (false, t)
      | some q => if (t.slots q).isSome then (false, t) else (true, t.put q ⟨id, node, .occupied⟩)) := by
  induction m generalizing p with
  | zero => rfl
  | succ m ih =>
    rw [insertProbe, Probing.search, vecGet_eq hp]
    cases hslot : t.slots p with
    | none =>
      have he := slots_eq_none.mp hslot
      simp [he, Probing.stops, hslot, bind, Except.bind, vecSet_eq hp, put]
    | some e =>
      obtain ⟨ho, hi, hn⟩ := slots_eq_some.mp hslot
      by_cases hid : e.1 = id
      · simp [ho, hi, hid, Probing.stops, hslot, bind, Except.bind]
      · simp only [bind, Except.bind, ho, hi, hid, Probing.stops, hslot]
        simpa [hs.succ_and_mask hp] using ih _ (Circle.step_lt hp)

/-- **`insert` is insertion into the slots.** -/
theorem insert_eq (hs : t.Shape) (id : OrderId) (node : UInt32) :
    ∃ t', t.insert id node =
        .ok ((Probing.insert t.entries.size t.home t.slots id node).1, t') ∧
      t.Becomes (Probing.insert t.entries.size t.home t.slots id node).2 t' ∧
      ((Probing.insert t.entries.size t.home t.slots id node).1 = false → t' = t) := by
  rw [insert, insertProbe_eq hs _ _ (hs.home_lt id), Probing.insert, Probing.seek]
  cases hk : Probing.search t.entries.size (Probing.stops t.slots id) t.entries.size (t.home id) with
  | none => exact ⟨t, rfl, Becomes.refl t, fun _ => rfl⟩
  | some q =>
    have hq := ((Probing.search_eq_some le_rfl (hs.home_lt id)).mp hk).1
    by_cases ho : (t.slots q).isSome
    · exact ⟨t, by simp [ho], by simpa [ho] using Becomes.refl t, fun _ => rfl⟩
    · have hput : t.Becomes (Function.update t.slots q (some (id, node)))
          (t.put q ⟨id, node, .occupied⟩) :=
        Becomes.put hq ⟨id, node, .occupied⟩ fun hnone => by cases hnone
      exact ⟨t.put q ⟨id, node, .occupied⟩, by simp [ho], by simpa [ho] using hput, by simp [ho]⟩

theorem findProbe_eq (hs : t.Shape) (m p : ℕ) (hp : p < t.entries.size) :
    t.findProbe id m p = .ok
      ((Probing.search t.entries.size (Probing.stops t.slots id) m p).bind
        fun q => (t.slots q).map Prod.snd) := by
  induction m generalizing p with
  | zero => rfl
  | succ m ih =>
    rw [findProbe, Probing.search, vecGet_eq hp]
    cases hslot : t.slots p with
    | none =>
      have he := slots_eq_none.mp hslot
      simp [he, Probing.stops, hslot, bind, Except.bind]
    | some e =>
      obtain ⟨ho, hi, hn⟩ := slots_eq_some.mp hslot
      by_cases hid : e.1 = id
      · simp [ho, hi, hn, hid, Probing.stops, hslot, bind, Except.bind]
      · simp only [bind, Except.bind, ho, hi, hid, Probing.stops, hslot]
        simpa [hs.succ_and_mask hp] using ih _ (Circle.step_lt hp)

/-- **`find` is finding in the slots.** -/
theorem find_eq (hs : t.Shape) (id : OrderId) :
    t.find id = .ok (Probing.find t.entries.size t.home t.slots id) := by
  rw [find, findProbe_eq hs _ _ (hs.home_lt id), Probing.find, Probing.seek]

/-- The body of the repair loop: the entry at `next` is taken out and inserted again. -/
def displace (t : FixedOrderIndex) (next : ℕ) : Except Fault (FixedOrderIndex × ℕ) := do
  let displaced ← vecGet t.entries next
  let entries ← vecSet t.entries next {}
  let (_, t') ← insert { t with entries } displaced.id displaced.node
  .ok (t', (next + 1) &&& t.mask)

/-- **The repair loop**, by its condition and its body. -/
theorem repair_succ {p : ℕ} (hp : p < t.entries.size) (fuel : ℕ) :
    t.repair (fuel + 1) p = if (vecAt t.entries p).state = .occupied then
      (t.displace p).bind fun x => x.1.repair fuel x.2 else .ok t := by
  rw [repair, displace, vecGet_eq hp, vecSet_eq hp]
  simp only [bind, Except.bind]
  split_ifs
  · cases insert { t with entries := t.entries.setIfInBounds p {} } (vecAt t.entries p).id
      (vecAt t.entries p).node <;> rfl
  · rfl

theorem displace_eq (hs : t.Shape) {p : ℕ} (hp : p < t.entries.size) {e : OrderId × UInt32}
    (he : t.slots p = some e) : ∃ t', t.displace p = .ok (t', Circle.step t.entries.size p) ∧
      t.Becomes
        (Probing.insert t.entries.size t.home (Function.update t.slots p none) e.1 e.2).2 t' := by
  obtain ⟨-, hi, hn⟩ := slots_eq_some.mp he
  have hput : t.Becomes (Function.update t.slots p none) (t.put p {}) := Becomes.put hp {} fun _ => rfl
  obtain ⟨t', hins, hb, -⟩ := insert_eq (hput.shape hs) e.1 e.2
  rw [hput.size, hput.home, hput.slots] at hb
  refine ⟨t', ?_, hput.trans hb⟩
  simp only [put] at hins
  simp only [displace, vecGet_eq hp, vecSet_eq hp, bind, Except.bind, hi, hn, hins,
    hs.succ_and_mask hp]

theorem repair_eq (hs : t.Shape) {fuel p : ℕ} (hp : p < t.entries.size)
    {s : Probing.Slots OrderId UInt32}
    (h : Probing.repair t.entries.size t.home fuel p t.slots = some s) :
    ∃ t', t.repair fuel p = .ok t' ∧ t.Becomes s t' := by
  induction fuel generalizing t p with
  | zero => simp [Probing.repair] at h
  | succ fuel ih =>
    rw [Probing.repair] at h
    rw [repair_succ hp]
    cases hslot : t.slots p with
    | none =>
      have he := slots_eq_none.mp hslot
      simp only [hslot, Option.some.injEq] at h
      subst h
      exact ⟨t, by simp [he], Becomes.refl t⟩
    | some e =>
      simp only [hslot] at h
      obtain ⟨t₁, hbody, hb⟩ := displace_eq hs hp hslot
      obtain ⟨t', hrep, hb'⟩ := ih (t := t₁) (p := Circle.step t.entries.size p) (hb.shape hs)
        (by rw [hb.size]; exact Circle.step_lt hp)
        (by rw [hb.size, hb.home, hb.slots]; exact h)
      refine ⟨t', ?_, hb.trans hb'⟩
      rw [if_pos (slots_eq_some.mp hslot).1, hbody]
      exact hrep

theorem eraseProbe_eq (hs : t.Shape) (m p : ℕ) (hp : p < t.entries.size) :
    t.eraseProbe id m p =
      match Probing.search t.entries.size (Probing.stops t.slots id) m p with
      | none => .ok (false, t)
      | some q => if (t.slots q).isSome then
          ((t.put q {}).repair (Probing.repairBound t.entries.size)
            (Circle.step t.entries.size q)).map (true, ·)
        else .ok (false, t) := by
  induction m generalizing p with
  | zero => rfl
  | succ m ih =>
    rw [eraseProbe, Probing.search, vecGet_eq hp]
    cases hslot : t.slots p with
    | none =>
      have he := slots_eq_none.mp hslot
      simp [he, Probing.stops, hslot, bind, Except.bind]
    | some e =>
      obtain ⟨ho, hi, hn⟩ := slots_eq_some.mp hslot
      by_cases hid : e.1 = id
      · simp only [bind, Except.bind, ho, hi, hid, Probing.stops, hslot, vecSet_eq hp,
          hs.succ_and_mask hp, put]
        simp only [reduceCtorEq, and_self, if_true, if_false, decide_true]
        rw [hslot]
        cases repair _ _ _ <;> rfl
      · simp only [bind, Except.bind, ho, hi, hid, Probing.stops, hslot]
        simpa [hs.succ_and_mask hp] using ih _ (Circle.step_lt hp)

/-- **`erase` is erasing from the slots**, and its repair loop ends. -/
theorem erase_eq (hs : t.Shape) (id : OrderId) {b : Bool} {s : Probing.Slots OrderId UInt32}
    (h : Probing.erase t.entries.size t.home t.slots id = some (b, s)) :
    ∃ t', t.erase id = .ok (b, t') ∧ t.Becomes s t' ∧ (b = false → t' = t) := by
  rw [erase, eraseProbe_eq hs _ _ (hs.home_lt id)]
  rw [Probing.erase, Probing.seek] at h
  cases hk : Probing.search t.entries.size (Probing.stops t.slots id) t.entries.size (t.home id) with
  | none =>
    simp only [hk, Option.some.injEq, Prod.mk.injEq] at h
    obtain ⟨rfl, rfl⟩ := h
    exact ⟨t, rfl, Becomes.refl t, fun _ => rfl⟩
  | some q =>
    have hq := ((Probing.search_eq_some le_rfl (hs.home_lt id)).mp hk).1
    simp only [hk] at h
    by_cases ho : (t.slots q).isSome
    · simp only [ho, if_true, Option.map_eq_some_iff, Prod.mk.injEq] at h
      obtain ⟨s', hr, rfl, rfl⟩ := h
      have hput : t.Becomes (Function.update t.slots q none) (t.put q {}) := Becomes.put hq {} fun _ => rfl
      obtain ⟨t', hrep, hb⟩ := repair_eq (t := t.put q {}) (hput.shape hs)
        (p := Circle.step t.entries.size q) (by rw [hput.size]; exact Circle.step_lt hq)
        (by rw [hput.size, hput.home, hput.slots]; exact hr)
      refine ⟨t', ?_, hput.trans hb, by simp⟩
      simp only [ho, if_true, hrep, Except.map]
    · simp only [ho, Bool.false_eq_true, if_false, Option.some.injEq, Prod.mk.injEq] at h
      obtain ⟨rfl, rfl⟩ := h
      exact ⟨t, by simp [ho], Becomes.refl t, fun _ => rfl⟩

end FixedOrderIndex

end Dme
