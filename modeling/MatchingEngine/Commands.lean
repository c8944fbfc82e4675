import MatchingEngine.Market

/-!
# What a command does to a market

* **`Performed`**: everything a command that is carried out can do, with the checks it has passed
  (`performed`); `perform_event`, `perform_reason`: its events, and why it may be rejected.
* `execute_events`: the trades of an order, and what is said of the rest; `process_carries`.
* `process_lastSequence`, `process_gap`, `process_reason`: the sequence numbers.
* `run_append`, `run_gaps`: runs.
* `inSequence`: how many commands have come in sequence; `run_inSequence`: the sequence counts them.
-/

set_option autoImplicit false

namespace Dme

namespace Market

variable {m : Market} {c : Command}

/-! ## Commands that are carried out -/

/-- **A command that is carried out**: the checks it has passed, the new depth and the events. -/
inductive Performed (m : Market) (c : Command) : Depth → List Event → Prop
  | new (hc : c.type = .new) (hq : c.quantity ≠ 0)
    (hp : c.orderType ≠ .market → m.config.validPrice c.price = true)
    (hf : m.find c.orderId = none) (hk : c.orderType = .fillOrKill → m.canFill c)
    (hr : m.size = m.config.maximumOrders.toNat → c.orderType = .limit → m.canFill c) :
    Performed m c (m.execute c).1 (eventOf .accepted c 0 0 0 .none :: (m.execute c).2)
  | cancel (hc : c.type = .cancel) {o : RestingOrder} (hf : m.find c.orderId = some o) :
    Performed m c (withdraw m.depth c.orderId) [eventOf .cancelled c 0 o.price o.quantity .none]
  | replace (hc : c.type = .replace) {o : RestingOrder} (hf : m.find c.orderId = some o)
    (hq : c.quantity ≠ 0) (hp : m.config.validPrice c.price = true) :
    Performed m c ({ m with depth := withdraw m.depth c.orderId }.execute (replacement c o)).1
      (eventOf .replaced (replacement c o) 0 c.price c.quantity .none ::
        ({ m with depth := withdraw m.depth c.orderId }.execute (replacement c o)).2)

theorem performed {d : Depth} {evs : List Event} (h : m.perform c = .ok (d, evs)) :
    m.Performed c d evs := by
  unfold perform at h
  cases hc : c.type with
  | new =>
    simp only [hc, submit] at h
    split_ifs at h with hq hv hdup hk hr
    cases h
    refine .new hc hq (fun ht => ?_) (by simpa using hdup) (fun ht => ?_) fun hs ht => ?_
    · by_contra hbad
      exact hv ⟨ht, by simpa using hbad⟩
    · by_contra hbad
      exact hk ⟨ht, hbad⟩
    · by_contra hbad
      exact hr ⟨hs, ht, hbad⟩
  | cancel =>
    simp only [hc, cancel] at h
    cases hf : m.find c.orderId with
    | none => simp [hf] at h
    | some o =>
      simp only [hf] at h
      cases h
      exact .cancel hc hf
  | replace =>
    simp only [hc, replace] at h
    cases hf : m.find c.orderId with
    | none => simp [hf] at h
    | some o =>
      simp only [hf] at h
      split_ifs at h with hq hv
      cases h
      exact .replace hc hf hq (by simpa using hv)

/-- What is said of the rest of an order: nothing was left, it rests, or it is dropped. -/
def leftover (c : Command) (remaining : Quantity) : List Event :=
  if remaining = 0 then []
  else [eventOf (if c.orderType = .limit then .rested else .cancelled) c 0 c.price remaining .none]

theorem execute_events (m : Market) (c : Command) : (m.execute c).2 =
    tradesOf c (sweep c.side (m.limit c) c.quantity (m.depth c.side.opposite)).fills ++
      leftover c (sweep c.side (m.limit c) c.quantity (m.depth c.side.opposite)).remaining := by
  by_cases h0 : (sweep c.side (m.limit c) c.quantity (m.depth c.side.opposite)).remaining = 0
  · simp only [execute, leftover, if_pos h0, List.append_nil]
  · by_cases hlim : c.orderType = .limit
    · simp only [execute, leftover, if_neg h0, if_pos hlim]
    · simp only [execute, leftover, if_neg h0, if_neg hlim]

theorem execute_event (m : Market) (c : Command) {e : Event} (he : e ∈ (m.execute c).2) :
    ((e.type = .trade ∨ e.type = .rested ∨ e.type = .cancelled) ∧ e.reason = .none) ∧
      e.sequence = c.sequence ∧ e.orderId = c.orderId := by
  rw [execute_events] at he
  rcases List.mem_append.mp he with he | he
  · obtain ⟨f, -, rfl⟩ := List.mem_map.mp he
    exact ⟨⟨Or.inl rfl, rfl⟩, rfl, rfl⟩
  · rw [leftover] at he
    split_ifs at he with h0 hlim
    · cases he
    · rw [List.mem_singleton.mp he]
      exact ⟨⟨Or.inr (Or.inl rfl), rfl⟩, rfl, rfl⟩
    · rw [List.mem_singleton.mp he]
      exact ⟨⟨Or.inr (Or.inr rfl), rfl⟩, rfl, rfl⟩

theorem perform_event {d : Depth} {evs : List Event} (h : m.perform c = .ok (d, evs)) {e : Event}
    (he : e ∈ evs) : e.type ≠ .rejected ∧ e.reason = .none := by
  have hexec : ∀ m' c', e ∈ (execute m' c').2 → e.type ≠ .rejected ∧ e.reason = .none := by
    intro m' c' hm
    obtain ⟨⟨ht, hr⟩, -⟩ := execute_event m' c' hm
    exact ⟨by rcases ht with h | h | h <;> rw [h] <;> simp, hr⟩
  cases performed h with
  | new =>
    rcases List.mem_cons.mp he with rfl | he
    · exact ⟨by simp [eventOf], rfl⟩
    · exact hexec _ _ he
  | cancel =>
    rw [List.mem_singleton.mp he]
    exact ⟨by simp [eventOf], rfl⟩
  | replace =>
    rcases List.mem_cons.mp he with rfl | he
    · exact ⟨by simp [eventOf], rfl⟩
    · exact hexec _ _ he

theorem process_carries (m : Market) (c : Command) {e : Event} (he : e ∈ (m.process c).2) :
    e.sequence = c.sequence ∧ e.orderId = c.orderId := by
  rw [process] at he
  split_ifs at he
  · rw [List.mem_singleton.mp he]
    exact ⟨rfl, rfl⟩
  rcases hp : m.perform c with reason | ⟨d, evs⟩
  · rw [hp] at he
    rw [List.mem_singleton.mp he]
    exact ⟨rfl, rfl⟩
  · rw [hp] at he
    cases performed hp with
    | new =>
      rcases List.mem_cons.mp he with rfl | he
      · exact ⟨rfl, rfl⟩
      · exact (execute_event _ _ he).2
    | cancel =>
      rw [List.mem_singleton.mp he]
      exact ⟨rfl, rfl⟩
    | replace =>
      rcases List.mem_cons.mp he with rfl | he
      · exact ⟨rfl, rfl⟩
      · exact (execute_event _ _ he).2

theorem perform_reason {r : RejectReason} (h : m.perform c = .error r) : r ≠ .sequenceGap := by
  unfold perform at h
  cases hc : c.type with
  | new =>
    simp only [hc, submit] at h
    split_ifs at h <;> cases h <;> simp
  | cancel =>
    simp only [hc, cancel] at h
    cases hf : m.find c.orderId with
    | none => simp only [hf] at h; cases h; simp
    | some o => simp [hf] at h
  | replace =>
    simp only [hc, replace] at h
    cases hf : m.find c.orderId with
    | none => simp only [hf] at h; cases h; simp
    | some o =>
      simp only [hf] at h
      split_ifs at h <;> cases h <;> simp

/-! ## Sequences -/

@[simp] theorem process_config (m : Market) (c : Command) : (m.process c).1.config = m.config := by
  rw [process]
  split_ifs
  · rfl
  · cases m.perform c <;> rfl

@[simp] theorem run_config (m : Market) (cs : List Command) : (m.run cs).1.config = m.config := by
  induction cs generalizing m with
  | nil => rfl
  | cons c cs ih => rw [run, ih, process_config]

theorem process_lastSequence (m : Market) (c : Command) : (m.process c).1.lastSequence =
    if c.sequence = m.lastSequence + 1 then m.lastSequence + 1 else m.lastSequence := by
  rw [process]
  by_cases hseq : c.sequence = m.lastSequence + 1
  · rw [if_neg (not_not.mpr hseq), if_pos hseq]
    cases m.perform c with
    | error r => exact hseq
    | ok r => exact hseq
  · rw [if_pos hseq, if_neg hseq]

theorem process_gap (h : c.sequence ≠ m.lastSequence + 1) : (m.process c).1 = m := by
  rw [process, if_pos h]

theorem process_reason (hseq : c.sequence = m.lastSequence + 1) {e : Event}
    (he : e ∈ (m.process c).2) : e.reason ≠ .sequenceGap := by
  rw [process, if_neg (not_not.mpr hseq)] at he
  cases hp : m.perform c with
  | error reason =>
    rw [hp] at he
    rw [List.mem_singleton.mp he]
    exact perform_reason hp
  | ok result =>
    rw [hp] at he
    rw [(perform_event hp he).2]
    simp

theorem run_append (m : Market) (cs cs' : List Command) :
    (m.run (cs ++ cs')).1 = ((m.run cs).1.run cs').1 := by
  induction cs generalizing m with
  | nil => rfl
  | cons c cs ih =>
    rw [List.cons_append, run, run]
    exact ih _

theorem run_gaps (hseq : c.sequence ≠ m.lastSequence + 1) (n : ℕ) :
    m.run (List.replicate n c) = (m, List.replicate n [rejection c .sequenceGap]) := by
  have hstep : m.process c = (m, [rejection c .sequenceGap]) := if_pos hseq
  induction n with
  | zero => rfl
  | succ n ih => rw [List.replicate_succ, run, hstep, ih, List.replicate_succ]

end Market

/-! ## Counting the commands in sequence -/

/-- **How many commands have come in sequence**, `n` of them before these. -/
def inSequence (n : ℕ) : List Command → ℕ
  | [] => n
  | c :: cs => inSequence (if c.sequence = UInt64.ofNat (n + 1) then n + 1 else n) cs

theorem le_inSequence (n : ℕ) (cs : List Command) : n ≤ inSequence n cs := by
  induction cs generalizing n with
  | nil => exact le_rfl
  | cons c cs ih =>
    rw [inSequence]
    refine le_trans ?_ (ih _)
    split_ifs <;> omega

theorem inSequence_le (n : ℕ) (cs : List Command) : inSequence n cs ≤ n + cs.length := by
  induction cs generalizing n with
  | nil => exact le_rfl
  | cons c cs ih =>
    rw [inSequence, List.length_cons]
    refine (ih _).trans ?_
    split_ifs <;> omega

theorem inSequence_append (n : ℕ) (cs cs' : List Command) :
    inSequence n (cs ++ cs') = inSequence (inSequence n cs) cs' := by
  induction cs generalizing n with
  | nil => rfl
  | cons c cs ih => exact ih _

namespace Market

variable {m : Market} {n : ℕ}

theorem process_inSequence (h : m.lastSequence = UInt64.ofNat n) (c : Command) :
    (m.process c).1.lastSequence = UInt64.ofNat (inSequence n [c]) := by
  have hnext : UInt64.ofNat n + 1 = UInt64.ofNat (n + 1) := (UInt64.ofNat_add n 1).symm
  rw [process_lastSequence, h, hnext, inSequence, inSequence]
  split_ifs <;> rfl

theorem run_inSequence (h : m.lastSequence = UInt64.ofNat n) (cs : List Command) :
    (m.run cs).1.lastSequence = UInt64.ofNat (inSequence n cs) := by
  induction cs generalizing m n with
  | nil => exact h
  | cons c cs ih => exact ih (process_inSequence h c)

theorem process_le (h : m.lastSequence = UInt64.ofNat n) (c : Command)
    (hlt : inSequence n [c] < 2 ^ 64) : m.lastSequence ≤ (m.process c).1.lastSequence := by
  have hle := le_inSequence n [c]
  rw [process_inSequence h, h, UInt64.le_iff_toNat_le, UInt64.toNat_ofNat_of_lt' hlt,
    UInt64.toNat_ofNat_of_lt' (hle.trans_lt hlt)]
  exact hle

end Market

end Dme
