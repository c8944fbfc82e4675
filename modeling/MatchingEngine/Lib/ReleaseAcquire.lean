import Mathlib

/-!
# Release/acquire memory with single-writer atomics

Threads `τ` share atomic locations `A`, each of them stored to by one thread only, and plain cells `C`.
A load may return any store that is not older than what must be respected; an access to a plain cell
that conflicts with an access not ordered before it is a data race.

* `View`: what happens before the next step of a thread, as a store of each atomic and a number of cell
  accesses of each thread.
* `Memory`: the stores of each atomic, each with the view it releases; the cells, with the time of the
  last read and of the last write of each thread.
* `loadRelaxed`, `loadAcquire`, `storeRelease`, `writeCell`, `readCell`.
* **`WF`**: every view in the memory is closed, and a thread has seen all of what it has done itself.
  `WF.init`, `WF.loadRelaxed`, `WF.loadAcquire`, `WF.storeRelease`, `WF.writeCell`, `WF.readCell`.
* **`WF.knows`**: what every store of an atomic releases is known to whoever has seen the store.
-/

set_option autoImplicit false

namespace ReleaseAcquire

variable {τ A C V D : Type}

/-- What happens before a step: the newest store of each atomic, and the number of cell accesses of each
thread. -/
abbrev View (τ A : Type) := (A → ℕ) × (τ → ℕ)

namespace View

/-- The newest store of `a`. -/
abbrev seen (w : View τ A) : A → ℕ := w.1

/-- The accesses to cells. -/
abbrev time (w : View τ A) : τ → ℕ := w.2

/-- Store `k` of `a` is seen. -/
def see [DecidableEq A] (w : View τ A) (a : A) (k : ℕ) : View τ A :=
  (Function.update w.seen a k, w.time)

/-- Thread `t` accesses a cell. -/
def tick [DecidableEq τ] (w : View τ A) (t : τ) : View τ A :=
  (w.seen, Function.update w.time t (w.time t + 1))

variable {w : View τ A} {a : A} {t : τ} {k : ℕ}

theorem seen_see_self [DecidableEq A] : (w.see a k).seen a = k := Function.update_self ..

theorem seen_see_of_ne [DecidableEq A] {b : A} (h : b ≠ a) : (w.see a k).seen b = w.seen b :=
  Function.update_of_ne h ..

theorem le_see [DecidableEq A] (h : w.seen a ≤ k) : w ≤ w.see a k :=
  ⟨le_update_iff.mpr ⟨h, fun _ _ => le_rfl⟩, le_rfl⟩

theorem le_tick [DecidableEq τ] : w ≤ w.tick t :=
  ⟨le_rfl, le_update_iff.mpr ⟨Nat.le_succ _, fun _ _ => le_rfl⟩⟩

theorem time_tick_self [DecidableEq τ] : (w.tick t).time t = w.time t + 1 := Function.update_self ..

theorem time_tick_of_ne [DecidableEq τ] {u : τ} (h : u ≠ t) : (w.tick t).time u = w.time u :=
  Function.update_of_ne h ..

end View

/-- A store: its value, and the view it releases. -/
structure Message (τ A V : Type) where
  value : V
  view : View τ A

/-- **The memory**: the atomics `A`, the plain cells `C`, and what each thread has seen. -/
structure Memory (τ A C V D : Type) where
  /-- The stores of each atomic in modification order, its first value at the front. -/
  history : A → List (Message τ A V)
  view : τ → View τ A
  cell : C → D
  /-- When a thread last wrote a cell, in its own time. -/
  written : C → τ → ℕ
  /-- When a thread last read a cell, in its own time. -/
  read : C → τ → ℕ

namespace Memory

/-- Memory before the threads start. -/
def init (value : A → V) (cell : C → D) : Memory τ A C V D where
  history a := [⟨value a, ⊥⟩]
  view _ := ⊥
  cell := cell
  written _ _ := 0
  read _ _ := 0

section Atomics

variable [DecidableEq τ] [DecidableEq A]

/-- A relaxed load that returns store `k`; no result if coherence forbids it. -/
def loadRelaxed (m : Memory τ A C V D) (t : τ) (a : A) (k : ℕ) : Option (V × Memory τ A C V D) :=
  if (m.view t).seen a ≤ k then
    (m.history a)[k]?.map fun message =>
      (message.value, { m with view := Function.update m.view t ((m.view t).see a k) })
  else none

/-- An acquire load that returns store `k`: what the store releases happens before the next step. -/
def loadAcquire (m : Memory τ A C V D) (t : τ) (a : A) (k : ℕ) : Option (V × Memory τ A C V D) :=
  if (m.view t).seen a ≤ k then
    (m.history a)[k]?.map fun message =>
      (message.value,
        { m with view := Function.update m.view t ((m.view t).see a k ⊔ message.view) })
  else none

/-- A release store: it releases all that happens before it. -/
def storeRelease (m : Memory τ A C V D) (t : τ) (a : A) (value : V) : Memory τ A C V D :=
  let view := (m.view t).see a (m.history a).length
  { m with
    history := Function.update m.history a (m.history a ++ [⟨value, view⟩])
    view := Function.update m.view t view }

end Atomics

section Cells

variable [DecidableEq τ] [DecidableEq C] [Fintype τ]

/-- All writes of the cell happen before the next step of `t`. -/
def Visible (m : Memory τ A C V D) (t : τ) (c : C) : Prop :=
  ∀ u, m.written c u ≤ (m.view t).time u

/-- All accesses to the cell happen before the next step of `t`. -/
def Exclusive (m : Memory τ A C V D) (t : τ) (c : C) : Prop :=
  m.Visible t c ∧ ∀ u, m.read c u ≤ (m.view t).time u

instance (m : Memory τ A C V D) (t : τ) (c : C) : Decidable (m.Visible t c) := by
  unfold Visible; infer_instance

instance (m : Memory τ A C V D) (t : τ) (c : C) : Decidable (m.Exclusive t c) := by
  unfold Exclusive; infer_instance

/-- Writing a cell; no result on a data race. -/
def writeCell (m : Memory τ A C V D) (t : τ) (c : C) (value : D) : Option (Memory τ A C V D) :=
  if m.Exclusive t c then
    some { m with
      view := Function.update m.view t ((m.view t).tick t)
      cell := Function.update m.cell c value
      written := Function.update m.written c
        (Function.update (m.written c) t ((m.view t).time t + 1)) }
  else none

/-- Reading a cell; no result on a data race. -/
def readCell (m : Memory τ A C V D) (t : τ) (c : C) : Option (D × Memory τ A C V D) :=
  if m.Visible t c then
    some (m.cell c, { m with
      view := Function.update m.view t ((m.view t).tick t)
      read := Function.update m.read c
        (Function.update (m.read c) t ((m.view t).time t + 1)) })
  else none

end Cells

/-! ## Closed views -/

/-- **A view of the past**: with a store, what the store released is in the view, and nothing is ahead
of what the threads have done. -/
structure Past (m : Memory τ A C V D) (w : View τ A) : Prop where
  closed : ∀ a, ∃ message, (m.history a)[w.seen a]? = some message ∧ message.view ≤ w
  time_le : ∀ t, w.time t ≤ (m.view t).time t

/-- Nothing is forgotten. -/
structure Grows (m m' : Memory τ A C V D) : Prop where
  history : ∀ a, m.history a <+: m'.history a
  view : ∀ t, m.view t ≤ m'.view t

variable {m m' : Memory τ A C V D} {w w' : View τ A} {t u : τ} {a b : A} {c : C} {k : ℕ}

theorem Past.mono (h : m.Past w) (hg : m.Grows m') : m'.Past w := by
  refine ⟨fun a => ?_, fun t => (h.time_le t).trans ((hg.view t).2 t)⟩
  obtain ⟨message, hget, hle⟩ := h.closed a
  obtain ⟨hlt, -⟩ := List.getElem?_eq_some_iff.mp hget
  obtain ⟨tail, htail⟩ := hg.history a
  exact ⟨message, by rw [← htail, List.getElem?_append_left hlt, hget], hle⟩

theorem Past.sup (h : m.Past w) (h' : m.Past w') : m.Past (w ⊔ w') := by
  refine ⟨fun a => ?_, fun t => sup_le (h.time_le t) (h'.time_le t)⟩
  rcases le_total (w.seen a) (w'.seen a) with hle | hle
  · obtain ⟨message, hget, hview⟩ := h'.closed a
    exact ⟨message, by rwa [show (w ⊔ w').seen a = w'.seen a from sup_of_le_right hle],
      hview.trans le_sup_right⟩
  · obtain ⟨message, hget, hview⟩ := h.closed a
    exact ⟨message, by rwa [show (w ⊔ w').seen a = w.seen a from sup_of_le_left hle],
      hview.trans le_sup_left⟩

theorem Past.seen_lt (h : m.Past w) (a : A) : w.seen a < (m.history a).length := by
  obtain ⟨message, hget, -⟩ := h.closed a
  exact (List.getElem?_eq_some_iff.mp hget).1

/-- **Well-formed memory** with the writer of each atomic. -/
structure WF (owner : A → τ) (m : Memory τ A C V D) : Prop where
  view : ∀ t, m.Past (m.view t)
  message : ∀ a k (message : Message τ A V), (m.history a)[k]? = some message →
    m.Past message.view ∧ message.view.seen a = k
  own : ∀ a, (m.view (owner a)).seen a + 1 = (m.history a).length
  written_le : ∀ c t, m.written c t ≤ (m.view t).time t
  read_le : ∀ c t, m.read c t ≤ (m.view t).time t

variable {owner : A → τ}

theorem WF.init (value : A → V) (cell : C → D) :
    (init value cell : Memory τ A C V D).WF owner where
  view t := ⟨fun a => ⟨_, rfl, le_rfl⟩, fun _ => le_rfl⟩
  message a k message h := by
    obtain ⟨hlt, rfl⟩ := List.getElem?_eq_some_iff.mp h
    obtain rfl : k = 0 := Nat.lt_one_iff.mp hlt
    exact ⟨⟨fun a => ⟨_, rfl, le_rfl⟩, fun _ => le_rfl⟩, rfl⟩
  own a := rfl
  written_le c t := le_rfl
  read_le c t := le_rfl

/-- **What every store of an atomic releases is known to whoever has seen it.** -/
theorem WF.knows (h : m.WF owner) (known : ℕ → ℕ)
    (hknown : ∀ k message, (m.history a)[k]? = some message → known k ≤ message.view.time t) (u : τ) :
    known ((m.view u).seen a) ≤ (m.view u).time t := by
  obtain ⟨message, hget, hle⟩ := (h.view u).closed a
  exact (hknown _ _ hget).trans (hle.2 t)

theorem WF.seen_lt (h : m.WF owner) (t : τ) (a : A) : (m.view t).seen a < (m.history a).length :=
  (h.view t).seen_lt a

theorem WF.seen_le_own (h : m.WF owner) (hw : m.Past w) (a : A) :
    w.seen a ≤ (m.view (owner a)).seen a := by
  have := hw.seen_lt a
  have := h.own a
  omega

/-- **All steps but stores**: the view of one thread grows, and stays closed. -/
theorem WF.grow (h : m.WF owner) (hhistory : m'.history = m.history)
    (hothers : ∀ u, u ≠ t → m'.view u = m.view u) (hle : m.view t ≤ m'.view t)
    (hclosed : ∀ a, ∃ message : Message τ A V,
      (m.history a)[(m'.view t).seen a]? = some message ∧ message.view ≤ m'.view t)
    (htime : ∀ u, u ≠ t → (m'.view t).time u ≤ (m.view u).time u)
    (hwritten : ∀ c u, m'.written c u ≤ (m'.view u).time u)
    (hread : ∀ c u, m'.read c u ≤ (m'.view u).time u) : m'.WF owner := by
  have hview : ∀ u, m.view u ≤ m'.view u := by
    intro u
    by_cases hu : u = t
    · exact hu ▸ hle
    · rw [hothers u hu]
  have hg : m.Grows m' := ⟨fun a => by rw [hhistory], hview⟩
  have hpast : m'.Past (m'.view t) := by
    refine ⟨fun a => by rw [hhistory]; exact hclosed a, fun u => ?_⟩
    by_cases hu : u = t
    · rw [hu]
    · rw [hothers u hu]
      exact htime u hu
  refine ⟨fun u => ?_, fun a k message hget => ?_, fun a => ?_, hwritten, hread⟩
  · by_cases hu : u = t
    · exact hu ▸ hpast
    · rw [hothers u hu]
      exact (h.view u).mono hg
  · rw [hhistory] at hget
    exact ⟨(h.message a k message hget).1.mono hg, (h.message a k message hget).2⟩
  · have hown := h.own a
    rw [hhistory]
    by_cases ha : owner a = t
    · have hlt := hpast.seen_lt a
      have hmono : (m.view t).seen a ≤ (m'.view t).seen a := hle.1 a
      rw [hhistory] at hlt
      rw [ha] at hown ⊢
      omega
    · rw [hothers _ ha, hown]

section Atomics

variable [DecidableEq τ] [DecidableEq A]

/-- **The writer of an atomic** loads its own last store, and learns nothing from it. -/
theorem WF.loadRelaxed (h : m.WF owner) {value : V}
    (hload : m.loadRelaxed t a k = some (value, m')) (ht : owner a = t) :
    m' = m ∧ k + 1 = (m.history a).length ∧
      ∃ message, (m.history a)[k]? = some message ∧ message.value = value := by
  subst ht
  have hown := h.own a
  rw [Memory.loadRelaxed] at hload
  split_ifs at hload with hle
  obtain ⟨message, hget, heq⟩ := Option.map_eq_some_iff.mp hload
  obtain ⟨hlt, -⟩ := List.getElem?_eq_some_iff.mp hget
  obtain rfl : (m.view (owner a)).seen a = k := by omega
  cases heq
  refine ⟨?_, hown, message, hget, rfl⟩
  simp only [View.see, Function.update_eq_self]

theorem loadRelaxed_isSome (hle : (m.view t).seen a ≤ k) (hlt : k < (m.history a).length) :
    ∃ r, m.loadRelaxed t a k = some r := by
  rw [Memory.loadRelaxed, if_pos hle, List.getElem?_eq_getElem hlt]
  exact ⟨_, rfl⟩

theorem loadAcquire_isSome (hle : (m.view t).seen a ≤ k) (hlt : k < (m.history a).length) :
    ∃ r, m.loadAcquire t a k = some r := by
  rw [Memory.loadAcquire, if_pos hle, List.getElem?_eq_getElem hlt]
  exact ⟨_, rfl⟩

/-- What an acquire load of store `k` leaves as it was. -/
structure Acquired (owner : A → τ) (m m' : Memory τ A C V D) (t : τ) (a : A) (k : ℕ) : Prop where
  wf : m'.WF owner
  history : m'.history = m.history
  cell : m'.cell = m.cell
  written : m'.written = m.written
  read : m'.read = m.read
  others : ∀ u, u ≠ t → m'.view u = m.view u
  seen : (m'.view t).seen a = k
  /-- A thread learns nothing about its own stores and accesses. -/
  own : (∀ b, owner b = t → (m'.view t).seen b = (m.view t).seen b) ∧
    (m'.view t).time t = (m.view t).time t

theorem WF.loadAcquire (h : m.WF owner) {value : V}
    (hload : m.loadAcquire t a k = some (value, m')) :
    Acquired owner m m' t a k ∧ (m.view t).seen a ≤ k ∧
      ∃ message, (m.history a)[k]? = some message ∧ message.value = value := by
  rw [Memory.loadAcquire] at hload
  split_ifs at hload with hle
  obtain ⟨message, hget, heq⟩ := Option.map_eq_some_iff.mp hload
  obtain ⟨hpast, hindex⟩ := h.message a k message hget
  cases heq
  have hclosed : ∀ b, ∃ r, (m.history b)[((m.view t).see a k ⊔ message.view).seen b]? = some r ∧
      r.view ≤ (m.view t).see a k ⊔ message.view := by
    intro b
    by_cases hb : b = a
    · subst hb
      refine ⟨message, ?_, le_sup_right⟩
      have hseen : ((m.view t).see b k ⊔ message.view).seen b = k :=
        (congrArg₂ max View.seen_see_self hindex).trans (max_self k)
      rw [hseen, hget]
    · obtain ⟨r, hr, hrle⟩ := ((h.view t).sup hpast).closed b
      refine ⟨r, ?_, hrle.trans (sup_le_sup_right (View.le_see hle) _)⟩
      have hseen : ((m.view t).see a k ⊔ message.view).seen b = (m.view t ⊔ message.view).seen b :=
        congrArg (max · _) (View.seen_see_of_ne hb)
      rw [hseen, hr]
  have hw : m.Past ((m.view t).see a k ⊔ message.view) :=
    ⟨hclosed, fun u => sup_le ((h.view t).time_le u) (hpast.time_le u)⟩
  have hgrow : m.view t ≤ (m.view t).see a k ⊔ message.view :=
    (View.le_see hle).trans le_sup_left
  set m' := { m with view := Function.update m.view t ((m.view t).see a k ⊔ message.view) }
  have hself : m'.view t = (m.view t).see a k ⊔ message.view := Function.update_self ..
  have hothers : ∀ u, u ≠ t → m'.view u = m.view u := fun u hu => Function.update_of_ne hu ..
  have hview : ∀ u, m.view u ≤ m'.view u := by
    intro u
    by_cases hu : u = t
    · rw [hu, hself]
      exact hgrow
    · rw [hothers u hu]
  have hwf : m'.WF owner :=
    h.grow rfl hothers (hview t) (by rwa [hself]) (fun u _ => by rw [hself]; exact hw.time_le u)
      (fun c u => (h.written_le c u).trans ((hview u).2 u))
      (fun c u => (h.read_le c u).trans ((hview u).2 u))
  refine ⟨⟨hwf, rfl, rfl, rfl, rfl, hothers, ?_, fun b hb => ?_, ?_⟩, hle, message, hget, rfl⟩
  · rw [hself]
    exact (congrArg₂ max View.seen_see_self hindex).trans (max_self k)
  · subst hb
    rw [hself]
    exact le_antisymm (h.seen_le_own hw b) (hgrow.1 b)
  · rw [hself]
    exact le_antisymm (hw.time_le t) (hgrow.2 t)

theorem WF.storeRelease (h : m.WF owner) (a : A) (value : V) :
    (m.storeRelease (owner a) a value).WF owner := by
  set w := (m.view (owner a)).see a (m.history a).length with hw
  have hle : m.view (owner a) ≤ w := View.le_see (h.seen_lt _ a).le
  have hview : ∀ u, m.view u ≤ (m.storeRelease (owner a) a value).view u := by
    intro u
    by_cases hu : u = owner a
    · subst hu; simpa only [Memory.storeRelease, Function.update_self] using hle
    · simp only [Memory.storeRelease, Function.update_of_ne hu, le_refl]
  have hhistory : ∀ b, m.history b <+: (m.storeRelease (owner a) a value).history b := by
    intro b
    by_cases hb : b = a
    · subst hb; simp only [Memory.storeRelease, Function.update_self, List.prefix_append]
    · simp only [Memory.storeRelease, Function.update_of_ne hb, List.prefix_rfl]
  have hg : m.Grows (m.storeRelease (owner a) a value) := ⟨hhistory, hview⟩
  have hnew : (m.storeRelease (owner a) a value).Past w := by
    refine ⟨fun b => ?_, fun u => ((h.view _).time_le u).trans ((hview u).2 u)⟩
    by_cases hb : b = a
    · subst hb
      refine ⟨⟨value, w⟩, ?_, le_rfl⟩
      rw [hw, View.seen_see_self]
      simp [Memory.storeRelease]
    · obtain ⟨message, hget, hmessage⟩ := (h.view (owner a)).closed b
      refine ⟨message, ?_, hmessage.trans hle⟩
      rw [hw, View.seen_see_of_ne hb]
      simpa only [Memory.storeRelease, Function.update_of_ne hb] using hget
  refine ⟨fun u => ?_, fun b k message hget => ?_, fun b => ?_,
    fun c u => (h.written_le c u).trans ((hview u).2 u),
    fun c u => (h.read_le c u).trans ((hview u).2 u)⟩
  · by_cases hu : u = owner a
    · subst hu; simpa only [Memory.storeRelease, Function.update_self] using hnew
    · have hsame : (m.storeRelease (owner a) a value).view u = m.view u := Function.update_of_ne hu ..
      rw [hsame]
      exact (h.view u).mono hg
  · by_cases hb : b = a
    · subst hb
      simp only [Memory.storeRelease, Function.update_self, List.getElem?_append] at hget
      split_ifs at hget with hlt
      · exact ⟨(h.message b k message hget).1.mono hg, (h.message b k message hget).2⟩
      · obtain ⟨hlen, rfl⟩ := List.getElem?_eq_some_iff.mp hget
        obtain rfl : k = (m.history b).length := by simp only [List.length_singleton] at hlen; omega
        simp only [List.getElem_singleton]
        exact ⟨hnew, Function.update_self ..⟩
    · have hsame : (m.storeRelease (owner a) a value).history b = m.history b :=
        Function.update_of_ne hb ..
      rw [hsame] at hget
      exact ⟨(h.message b k message hget).1.mono hg, (h.message b k message hget).2⟩
  · by_cases hb : b = a
    · subst hb
      simp only [Memory.storeRelease, Function.update_self, View.seen_see_self, List.length_append,
        List.length_singleton]
    · have hseen : ((m.storeRelease (owner a) a value).view (owner b)).seen b =
          (m.view (owner b)).seen b := by
        by_cases ho : owner b = owner a
        · simp only [Memory.storeRelease, ho, Function.update_self, View.seen_see_of_ne hb]
        · simp only [Memory.storeRelease, Function.update_of_ne ho]
      rw [hseen, h.own b]
      simp only [Memory.storeRelease, Function.update_of_ne hb]

end Atomics

section Cells

variable [DecidableEq τ] [DecidableEq C] [Fintype τ]

omit [DecidableEq C] [Fintype τ] in
/-- **An access to a cell** moves the time of its thread on. -/
theorem WF.access (h : m.WF owner) (hhistory : m'.history = m.history)
    (hview : m'.view = Function.update m.view t ((m.view t).tick t))
    (hwritten : ∀ c u, m'.written c u ≤ (m'.view u).time u)
    (hread : ∀ c u, m'.read c u ≤ (m'.view u).time u) : m'.WF owner := by
  have hself : m'.view t = (m.view t).tick t := by rw [hview, Function.update_self]
  refine h.grow hhistory (fun u hu => by rw [hview, Function.update_of_ne hu])
    (hself ▸ View.le_tick) (fun a => ?_) (fun u hu => ?_) hwritten hread
  · obtain ⟨message, hget, hle⟩ := (h.view t).closed a
    exact ⟨message, by rw [hself]; exact hget, hself ▸ hle.trans View.le_tick⟩
  · rw [hself, View.time_tick_of_ne hu]
    exact (h.view t).time_le u

omit [DecidableEq C] [Fintype τ] in
theorem time_le_tick (m : Memory τ A C V D) (t u : τ) :
    (m.view u).time u ≤ (Function.update m.view t ((m.view t).tick t) u).time u := by
  by_cases hu : u = t
  · subst hu
    rw [Function.update_self, View.time_tick_self]
    exact Nat.le_succ _
  · rw [Function.update_of_ne hu]

omit [Fintype τ] in
theorem stamp_le {times : C → τ → ℕ} (h : ∀ c u, times c u ≤ (m.view u).time u) (t : τ) (c d : C)
    (u : τ) :
    Function.update times c (Function.update (times c) t ((m.view t).time t + 1)) d u ≤
      (Function.update m.view t ((m.view t).tick t) u).time u := by
  by_cases hd : d = c
  · subst hd
    rw [Function.update_self]
    by_cases hu : u = t
    · subst hu
      rw [Function.update_self, Function.update_self, View.time_tick_self]
    · rw [Function.update_of_ne hu]
      exact (h d u).trans (m.time_le_tick t u)
  · rw [Function.update_of_ne hd]
    exact (h d u).trans (m.time_le_tick t u)

/-- What an access to a cell leaves as it was. -/
structure Accessed (m m' : Memory τ A C V D) : Prop where
  history : m'.history = m.history
  seen : ∀ u, (m'.view u).seen = (m.view u).seen

omit [DecidableEq C] [Fintype τ] in
theorem Accessed.of (hhistory : m'.history = m.history)
    (hview : m'.view = Function.update m.view t ((m.view t).tick t)) : Accessed m m' := by
  refine ⟨hhistory, fun u => ?_⟩
  rw [hview]
  by_cases hu : u = t
  · rw [hu, Function.update_self]
    rfl
  · rw [Function.update_of_ne hu]

theorem WF.writeCell (h : m.WF owner) {value : D} (hwrite : m.writeCell t c value = some m') :
    m'.WF owner ∧ Accessed m m' := by
  rw [Memory.writeCell] at hwrite
  split_ifs at hwrite with hexclusive
  cases hwrite
  exact ⟨h.access rfl rfl (stamp_le h.written_le t c)
    fun d u => (h.read_le d u).trans (m.time_le_tick t u), .of rfl rfl⟩

theorem WF.readCell (h : m.WF owner) {value : D} (hread : m.readCell t c = some (value, m')) :
    m'.WF owner ∧ Accessed m m' := by
  rw [Memory.readCell] at hread
  split_ifs at hread with hvisible
  cases hread
  exact ⟨h.access rfl rfl (fun d u => (h.written_le d u).trans (m.time_le_tick t u))
    (stamp_le h.read_le t c), .of rfl rfl⟩

end Cells

end Memory

end ReleaseAcquire
