import MatchingEngine.Restore

/-!
# Safety of `process`

* **`process_is_safe`**: on a book reached from a new one, `process` meets no fault and ends, and in
  every state of its matching loop the head of a crossing best level is a live node.
* **`rejection_changes_nothing`**: a rejected command appends one event and changes counters only; a
  replace command that is not rejected accounts for its whole quantity.
-/

set_option autoImplicit false

namespace Dme

variable {b : OrderBook} {q : Queues} {s : Side} {i : ℕ} {n : UInt32}

/-- A node with an order in it: it is not free, and the index leads from its id to it. -/
def OrderBook.Live (b : OrderBook) (n : UInt32) : Prop :=
  n.toNat < b.nodes.size ∧ n ∉ b.freeNodes ∧ (b.node n).remaining ≠ 0 ∧
    b.orderIndex.find (b.node n).id = .ok (some n)

theorem Inv.live (h : Inv b q) (hn : n ∈ q s i) : b.Live n :=
  ⟨h.node_lt hn, fun hf => (h.free n hf).2.2 s i hn, h.positive s i n hn,
    h.index_wf.find_has ((h.index _ n).mpr ⟨s, i, hn, rfl⟩)⟩

/-- **The states of the matching loop** in a call of `process` on `b` with command `c`, with the
command the loop runs for. -/
inductive Looping (b : OrderBook) (c : Command) : Command → OrderBook.Matching → Prop
  | new (hc : c.type = .new) (hseq : c.sequence = b.stats.lastSequence + 1) (events : List Event) :
    Looping b c c ⟨b.counted c, c.quantity, events⟩
  | replace {index : UInt32} {node : OrderNode} {b₁ : OrderBook} {events events₁ : List Event}
    (hc : c.type = .replace) (hseq : c.sequence = b.stats.lastSequence + 1)
    (hfind : b.orderIndex.find c.orderId = .ok (some index))
    (hnode : vecGet b.nodes index.toNat = .ok node)
    (hcancel : (b.counted c).cancel c events true = .ok (b₁, events₁)) (events₂ : List Event) :
    Looping b c { c with side := node.side, orderType := .limit } ⟨b₁, c.quantity, events₂⟩
  | next {c' : Command} {x x' : OrderBook.Matching} (h : Looping b c c' x) (hr : x.remaining ≠ 0)
    (hs : OrderBook.matchStep c' (b.effectiveLimit c') x = .ok (some x')) : Looping b c c' x'

theorem Inv.matchStep_inv {c : Command} {limit : Price} {x x' : OrderBook.Matching}
    (h : Inv x.book q) (hs : OrderBook.matchStep c limit x = .ok (some x')) :
    (∃ q', Inv x'.book q') ∧ x'.book.config = x.book.config := by
  obtain ⟨b, remaining, events⟩ := x
  cases hd : b.depth q c.side.opposite with
  | nil =>
    rw [h.matchStep_none remaining events (by simp [hd])] at hs
    cases hs
  | cons o os =>
    by_cases hc : crossesPrice c.side limit o.price = true
    · by_cases hlt : remaining < o.quantity
      · obtain ⟨b₁, hstep, hinv, htr, -⟩ := h.matchStep_part events hd hc hlt
        cases hstep.symm.trans hs
        exact ⟨⟨q, hinv⟩, htr.1⟩
      · obtain ⟨b₁, q₁, hstep, hinv, htr, -⟩ := h.matchStep_whole events hd hc hlt
        cases hstep.symm.trans hs
        exact ⟨⟨q₁, hinv⟩, htr.1⟩
    · rw [h.matchStep_none remaining events] at hs
      · cases hs
      · rw [hd]
        rintro _ _ ⟨⟩
        simpa using hc

theorem Inv.cancel_replacing (h : Inv b q) {c : Command} {events events₁ : List Event}
    {b₁ : OrderBook} (hc : b.cancel c events true = .ok (b₁, events₁)) :
    (∃ q', Inv b₁ q') ∧ b₁.config = b.config := by
  rcases h.find_isSome c.orderId with ⟨o, n, s, i, -, hidx, hn, -⟩ | ⟨-, hidx, -⟩
  · obtain ⟨b', q', hrem, hinv, htr, -⟩ := h.removeNode hn
    have hg := h.getNode hn
    simp only [OrderBook.cancel, hidx, bind, Except.bind, hg, hrem] at hc
    cases hc
    exact ⟨⟨q', hinv⟩, htr.1⟩
  · simp only [OrderBook.cancel, hidx, bind, Except.bind] at hc
    cases hc
    exact ⟨⟨q, h.reject events c .unknownOrderId⟩, rfl⟩

theorem Looping.inv (h : Inv b q) {c c' : Command} {x : OrderBook.Matching} (hx : Looping b c c' x) :
    (∃ q', Inv x.book q') ∧ x.book.config = b.config := by
  induction hx with
  | new => exact ⟨⟨q, h.counted c⟩, rfl⟩
  | replace _ _ _ _ hcancel => exact (h.counted c).cancel_replacing hcancel
  | next _ _ hs ih =>
    obtain ⟨⟨q', hinv⟩, hconfig⟩ := ih
    obtain ⟨hinv', hconfig'⟩ := hinv.matchStep_inv hs
    exact ⟨hinv', hconfig'.trans hconfig⟩

theorem Inv.best_mem (h : Inv b q) {limit : Price} {a : Side}
    (hbest : b.bestIndex s = .ok i) (hc : b.crosses a limit i = true) :
    i < b.priceCount ∧ (b.level s i).head ∈ q s i := by
  rcases h.head_cases s with ⟨hnone, -⟩ | ⟨j, n, l, rest, hj, hlt, hq, -⟩
  · rw [hbest] at hnone
    cases hnone
    simp [OrderBook.crosses] at hc
  · rw [hbest] at hj
    cases hj
    refine ⟨hlt, ?_⟩
    rw [(h.queue s i hlt).head, hq]
    exact List.mem_cons_self

theorem Inv.best_live (h : Inv b q) {limit : Price} {a : Side}
    (hbest : b.bestIndex s = .ok i) (hc : b.crosses a limit i = true) :
    ∃ level, vecGet (b.levels s) i = .ok level ∧ b.Live level.head := by
  obtain ⟨hlt, hmem⟩ := h.best_mem hbest hc
  exact ⟨b.level s i, h.getLevel s hlt, h.live hmem⟩

/-- **No fault, and an end.** Every run of commands on a new book returns, and so does every further
command; in each state of its matching loop the head of a crossing best level is live. -/
theorem process_is_safe {config : BookConfig} {b₀ : OrderBook} (hnew : OrderBook.new config = .ok b₀)
    (cs : List Command) :
    ∃ b evs, b₀.run cs = .ok (b, evs) ∧ ∀ c events,
      (∃ b' events', b.process c events = .ok (b', events')) ∧
      ∀ c' x, Looping b c c' x → ∀ i, x.book.bestIndex c'.side.opposite = .ok i →
        x.book.crosses c'.side (b.effectiveLimit c') i = true →
        ∃ level, vecGet (x.book.levels c'.side.opposite) i = .ok level ∧ x.book.Live level.head := by
  obtain ⟨b, q, hrun, hinv, -⟩ := (Inv.new hnew).1.run cs
  refine ⟨b, _, hrun, fun c events => ⟨?_, fun c' x hx i hbest hc => ?_⟩⟩
  · obtain ⟨b', q', hp, -⟩ := hinv.process c events
    exact ⟨b', _, hp⟩
  · obtain ⟨⟨q', hinv'⟩, -⟩ := hx.inv hinv
    exact hinv'.best_live hbest hc

/-- A new book of four prices and two orders, and a crossing pair of commands. -/
theorem process_is_safe_four_prices : ∃ b₀, OrderBook.new ⟨1, 4, 1, 2⟩ = .ok b₀ ∧
    ∃ b evs, b₀.run [⟨1, .new, .buy, .limit, 0, 7, 2, 5⟩, ⟨2, .new, .sell, .limit, 0, 8, 2, 9⟩] =
      .ok (b, evs) := by
  obtain ⟨b₀, hnew⟩ := OrderBook.new_isOk
    (by decide : checkedPriceCount ⟨1, 4, 1, 2⟩ = .ok 4) (by decide)
  obtain ⟨b, evs, hrun, -⟩ := process_is_safe hnew
    [⟨1, .new, .buy, .limit, 0, 7, 2, 5⟩, ⟨2, .new, .sell, .limit, 0, 8, 2, 9⟩]
  exact ⟨b₀, hnew, b, evs, hrun⟩

/-! ## Rejection -/

theorem Market.execute_accounts (m : Market) (c : Command) (hlim : c.orderType = .limit) :
    ∃ trades rested, (m.execute c).2 = trades ++ rested ∧ (∀ e ∈ trades, e.type = .trade) ∧
      (∀ e ∈ rested, e.type = .rested) ∧ rested.length ≤ 1 ∧
      ((trades ++ rested).map fun e => e.quantity.toNat).sum = c.quantity.toNat := by
  have hsum := @sweep_conserves c.side (m.limit c) c.quantity (m.depth c.side.opposite)
  have htype : ∀ fills, ∀ e ∈ tradesOf c fills, e.type = .trade := by
    intro fills e he
    obtain ⟨f, -, rfl⟩ := List.mem_map.mp he
    rfl
  have hquantity : ∀ fills, ((tradesOf c fills).map fun e => e.quantity.toNat).sum =
      (fills.map fun f => f.quantity.toNat).sum := by
    intro fills
    rw [tradesOf, List.map_map]
    rfl
  simp only [execute]
  split_ifs with h0
  · refine ⟨_, [], (List.append_nil _).symm, htype _, by simp, by simp, ?_⟩
    rw [List.append_nil, hquantity, ← hsum, h0]
    rfl
  · refine ⟨_, _, rfl, htype _, by simp [eventOf], by simp, ?_⟩
    rw [List.map_append, List.sum_append, hquantity, ← hsum]
    simp [eventOf]

theorem Market.replace_accounts {m : Market} {c : Command} {d : Depth} {evs : List Event}
    (h : m.perform c = .ok (d, evs)) (hc : c.type = .replace) :
    ∃ replaced trades rested, evs = replaced :: (trades ++ rested) ∧ replaced.type = .replaced ∧
      (∀ e ∈ trades, e.type = .trade) ∧ (∀ e ∈ rested, e.type = .rested) ∧ rested.length ≤ 1 ∧
      ((trades ++ rested).map fun e => e.quantity.toNat).sum = c.quantity.toNat := by
  cases performed h with
  | new hc' | cancel hc' => simp [hc] at hc'
  | @replace _ o =>
    obtain ⟨trades, rested, hevs, hrest⟩ :=
      execute_accounts { m with depth := withdraw m.depth c.orderId } (replacement c o) rfl
    exact ⟨_, trades, rested, by rw [hevs], rfl, hrest⟩

/-- **Rejection is atomic.** A rejected command appends its one event and changes the counters only.
A replace command is rejected, or it appends `Replaced` and then trades and rests for its whole
quantity. -/
theorem rejection_changes_nothing (hb : Reachable b) (c : Command) (events : List Event) :
    ∃ b' evs, b.process c events = .ok (b', events ++ evs) ∧
      (∀ e ∈ evs, e.type = .rejected → evs = [e] ∧
        b' = { b with stats := { b.stats with
          lastSequence := if e.reason = .sequenceGap then b.stats.lastSequence
            else b.stats.lastSequence + 1
          commands := if e.reason = .sequenceGap then b.stats.commands else b.stats.commands + 1
          rejected := b.stats.rejected + 1 } }) ∧
      (c.type = .replace → (∃ e, evs = [e] ∧ e.type = .rejected) ∨
        ∃ replaced trades rested, evs = replaced :: (trades ++ rested) ∧ replaced.type = .replaced ∧
          (∀ e ∈ trades, e.type = .trade) ∧ (∀ e ∈ rested, e.type = .rested) ∧ rested.length ≤ 1 ∧
          ((trades ++ rested).map fun e => e.quantity.toNat).sum = c.quantity.toNat) := by
  obtain ⟨q, hinv⟩ := hb.inv
  rcases hinv.process_cases c events with ⟨-, hp⟩ | ⟨hseq, hf⟩
  · refine ⟨_, [Market.rejection c .sequenceGap], hp, fun e he _ => ?_,
      fun _ => Or.inl ⟨_, rfl, rfl⟩⟩
    rw [List.mem_singleton.mp he]
    exact ⟨rfl, rfl⟩
  · cases hperf : (b.market q).perform c with
    | error r =>
      rw [hperf] at hf
      refine ⟨_, [Market.rejection c r], hf, fun e he _ => ?_, fun _ => Or.inl ⟨_, rfl, rfl⟩⟩
      have hr : (Market.rejection c r).reason ≠ .sequenceGap := Market.perform_reason hperf
      rw [List.mem_singleton.mp he]
      refine ⟨rfl, ?_⟩
      simp only [if_neg hr, ← hseq]
      rfl
    | ok r =>
      rw [hperf] at hf
      obtain ⟨b', q', hp, -⟩ := hf
      exact ⟨b', r.2, hp, fun e he hrej => absurd hrej (Market.perform_event hperf he).1,
        fun hc => Or.inr (Market.replace_accounts hperf hc)⟩

/-- On a book with one resting order, a replace with a price off the ladder is rejected. -/
theorem rejection_changes_nothing_bad_price : ∃ b₀ b₁ evs₁ b₂ e,
    OrderBook.new ⟨1, 4, 1, 2⟩ = .ok b₀ ∧
    b₀.process ⟨1, .new, .buy, .limit, 0, 7, 2, 5⟩ [] = .ok (b₁, evs₁) ∧
    b₁.process ⟨2, .replace, .buy, .limit, 0, 7, 9, 5⟩ [] = .ok (b₂, [e]) ∧
    e.type = .rejected ∧ e.reason = .invalidPrice ∧
    b₂ = { b₁ with stats := { b₁.stats with
      lastSequence := b₁.stats.lastSequence + 1
      commands := b₁.stats.commands + 1
      rejected := b₁.stats.rejected + 1 } } := by
  have hrun : (do
      let b₀ ← OrderBook.new ⟨1, 4, 1, 2⟩
      let r₁ ← b₀.process ⟨1, .new, .buy, .limit, 0, 7, 2, 5⟩ []
      let r₂ ← r₁.1.process ⟨2, .replace, .buy, .limit, 0, 7, 9, 5⟩ []
      .ok r₂.2 : Except Fault (List Event)) =
      .ok [⟨2, .rejected, .buy, .invalidPrice, 0, 7, 0, 0, 0⟩] := by
    decide +kernel
  obtain ⟨b₀, hnew, hrun⟩ := bind_eq_ok.mp hrun
  obtain ⟨⟨b₁, evs₁⟩, hp, hrun⟩ := bind_eq_ok.mp hrun
  obtain ⟨⟨b₂, evs₂⟩, hp₂, hrun⟩ := bind_eq_ok.mp hrun
  obtain rfl : evs₂ = _ := Except.ok.inj hrun
  obtain ⟨b', evs', hp', hrejected, -⟩ := rejection_changes_nothing ((Reachable.new hnew).process hp)
    ⟨2, .replace, .buy, .limit, 0, 7, 9, 5⟩ []
  obtain ⟨rfl, rfl⟩ := Prod.mk.inj (Except.ok.inj (hp₂.symm.trans hp'))
  exact ⟨b₀, b₁, evs₁, b₂, _, hnew, hp, hp₂, rfl, rfl, (hrejected _ (List.mem_singleton_self _) rfl).2⟩

end Dme
