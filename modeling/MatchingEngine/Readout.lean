import MatchingEngine.Simulation

/-!
# Reading a book out

What the book's read functions return depends on its market only.

* `Core.queueAt`, **`Core.restingOrders`**: the queue of a level, and all of them.
* `Core.bestBid`, `Core.bestAsk`, `Core.quantityAt`: the top of the book and the totals.
* `Core.restingOrders_eq`: the counter of resting orders.
-/

set_option autoImplicit false

namespace Dme

namespace Market

/-- The resting orders at a price. -/
def level (m : Market) (s : Side) (price : Price) : List RestingOrder :=
  atPrice (m.depth s) price

/-- The resting orders of the lowest `n` prices, as the book lists them. -/
def orders (m : Market) (n : ℕ) : List RestingOrder :=
  (List.range n).flatMap fun i =>
    m.level .buy (m.config.indexPrice i) ++ m.level .sell (m.config.indexPrice i)

/-- The price of the first order of a side, or `0`. -/
def top (m : Market) (s : Side) : Price :=
  match m.depth s with
  | [] => 0
  | o :: _ => o.price

theorem top_nil {m : Market} {s : Side} (h : m.depth s = []) : m.top s = 0 := by
  rw [top, h]

theorem top_cons {m : Market} {s : Side} {o : RestingOrder} {os : List RestingOrder}
    (h : m.depth s = o :: os) : m.top s = o.price := by
  rw [top, h]

end Market

variable {b : OrderBook} {q : Queues} {s : Side} {i : ℕ}

theorem Core.queueFrom (h : Core b q) (hi : i < b.priceCount) (l₁ l₂ : List UInt32) (fuel : ℕ)
    (hq : q s i = l₁ ++ l₂) (hf : l₂.length < fuel) :
    b.queueFrom fuel (l₂.headD invalidNode) = .ok (l₂.map b.order) := by
  induction l₂ generalizing l₁ fuel with
  | nil =>
    obtain ⟨fuel, rfl⟩ := Nat.exists_eq_succ_of_ne_zero (Nat.ne_zero_of_lt hf)
    simp [OrderBook.queueFrom]
  | cons n l₂ ih =>
    obtain ⟨fuel, rfl⟩ := Nat.exists_eq_succ_of_ne_zero (Nat.ne_zero_of_lt hf)
    rw [List.length_cons, Nat.succ_lt_succ_iff] at hf
    have hn : n ∈ q s i := by rw [hq]; simp
    have hg := h.getNode hn
    have hnext : (b.node n).next = l₂.headD invalidNode := by
      have := h.queue s i hi
      rw [hq] at this
      exact this.neighbours.2
    have hrest := ih (l₁ ++ [n]) fuel (by simpa using hq) hf
    simp only [OrderBook.queueFrom, List.headD_cons, ne_eq, h.ne_invalidNode hn, not_false_eq_true,
      if_true, hg, bind, Except.bind, hnext, hrest, List.map_cons]
    rfl

theorem Core.queueAt (h : Core b q) (s : Side) (hi : i < b.priceCount) :
    b.queueAt s i = .ok ((b.market q).level s (b.config.indexPrice i)) := by
  have hl := h.getLevel s hi
  have hlen : (q s i).length ≤ b.nodes.size :=
    length_le_of_nodup (h.queue s i hi).nodup fun n hn => h.node_lt hn
  have hread := h.queueFrom (s := s) hi [] (q s i) (b.nodes.size + 1) rfl (by omega)
  simp only [OrderBook.queueAt, hl, bind, Except.bind]
  rw [(h.queue s i hi).head, hread]
  exact congrArg Except.ok (h.depth_level hi).symm

theorem Core.restingBelow (h : Core b q) (n : ℕ) (hn : n ≤ b.priceCount) :
    b.restingBelow n = .ok ((b.market q).orders n) := by
  induction n with
  | zero => rfl
  | succ n ih =>
    simp only [OrderBook.restingBelow, ih (by omega), h.queueAt .buy hn, h.queueAt .sell hn, bind,
      Except.bind]
    rw [Market.orders, Market.orders, List.range_succ, List.flatMap_append]
    simp [OrderBook.market]

/-- **The listing of a book.** -/
theorem Core.restingOrders (h : Core b q) :
    b.restingOrders = .ok ((b.market q).orders b.priceCount) := h.restingBelow _ le_rfl

theorem bestFirst_perm (s : Side) (n : ℕ) : (bestFirst s n).Perm (List.range n) := by
  cases s with
  | sell => exact List.Perm.refl _
  | buy => exact List.reverse_perm _

theorem Core.depth_eq_levels (h : Core b q) (s : Side) :
    b.depth q s = (bestFirst s b.priceCount).flatMap fun i =>
      (b.market q).level s (b.config.indexPrice i) := by
  rw [OrderBook.depth, line, List.map_flatMap]
  exact List.flatMap_congr fun i hi => (h.depth_level (mem_bestFirst.mp hi)).symm

theorem Core.depth_perm (h : Core b q) (s : Side) : ((List.range b.priceCount).flatMap fun i =>
    (b.market q).level s (b.config.indexPrice i)).Perm (b.depth q s) := by
  rw [h.depth_eq_levels]
  exact (bestFirst_perm s _).symm.flatMap_right _

theorem Core.orders_perm (h : Core b q) :
    ((b.market q).orders b.priceCount).Perm (b.depth q .buy ++ b.depth q .sell) :=
  (List.flatMap_append_perm _ _ _).symm.trans ((h.depth_perm .buy).append (h.depth_perm .sell))

theorem Core.depth_side (h : Core b q) {x : RestingOrder} (hx : x ∈ b.depth q s) : x.side = s := by
  obtain ⟨i, n, hn, rfl⟩ := h.mem_depth.mp hx
  exact h.node_side hn

theorem Core.mem_orders (h : Core b q) {x : RestingOrder} :
    x ∈ (b.market q).orders b.priceCount ↔ x ∈ b.depth q x.side := by
  simp only [Market.orders, Market.level, atPrice, List.mem_flatMap, List.mem_range, List.mem_append,
    List.mem_filter, decide_eq_true_eq]
  constructor
  · rintro ⟨i, _, ⟨hx, _⟩ | ⟨hx, _⟩⟩
    · rw [h.depth_side hx]
      exact hx
    · rw [h.depth_side hx]
      exact hx
  · intro hx
    obtain ⟨i, n, hn, he⟩ := h.mem_depth.mp hx
    have hp : x.price = b.config.indexPrice i := he ▸ h.order_price hn
    refine ⟨i, h.lt_of_mem hn, ?_⟩
    cases hside : x.side with
    | buy => exact Or.inl ⟨hside ▸ hx, hp⟩
    | sell => exact Or.inr ⟨hside ▸ hx, hp⟩

theorem Core.mem_orders_side (h : Core b q) {x : RestingOrder} :
    (x ∈ (b.market q).orders b.priceCount ∧ x.side = s) ↔ x ∈ b.depth q s := by
  rw [h.mem_orders]
  constructor
  · rintro ⟨hx, rfl⟩
    exact hx
  · intro hx
    rw [h.depth_side hx]
    exact ⟨hx, rfl⟩

theorem Core.filter_side (h : Core b q) (s : Side) (p : RestingOrder → Bool) :
    (((b.market q).orders b.priceCount).filter fun o => o.side = s ∧ p o).Perm
      ((b.depth q s).filter p) := by
  have hside : ∀ t, (b.depth q t).filter (fun o => o.side = s ∧ p o) =
      if t = s then (b.depth q s).filter p else [] := by
    intro t
    split_ifs with ht
    · subst ht
      exact List.filter_congr fun o ho => by simp [h.depth_side ho]
    · exact List.filter_eq_nil_iff.mpr fun o ho => by simp [h.depth_side ho, ht]
  refine (h.orders_perm.filter _).trans ?_
  rw [List.filter_append, hside, hside]
  cases s <;> simp

theorem Core.orders_length_le (h : Core b q) :
    ((b.market q).orders b.priceCount).length ≤ b.config.maximumOrders.toNat := by
  have hsize := h.size_market
  rw [← h.nodes_size, h.orders_perm.length_eq, List.length_append]
  simp only [Market.size, OrderBook.market] at hsize
  omega

theorem Core.depth_ext {b' : OrderBook} {q' : Queues} (h : Core b q) (h' : Core b' q')
    (hc : b'.config = b.config)
    (hl : ∀ s p, atPrice (b'.depth q' s) p = atPrice (b.depth q s) p) :
    b'.depth q' = b.depth q := by
  funext s
  rw [h.depth_eq_levels, h'.depth_eq_levels, h.priceCount_eq h' hc, hc]
  exact List.flatMap_congr fun i _ => hl s _

theorem Core.ids_nodup (h : Core b q) :
    (((b.market q).orders b.priceCount).map RestingOrder.orderId).Nodup := by
  have hside : ∀ s, ((b.depth q s).map RestingOrder.orderId).Nodup := by
    intro s
    rw [OrderBook.depth, List.map_map]
    refine (h.line_nodup s).map_on fun n hn m hm he => ?_
    obtain ⟨i, hn⟩ := h.mem_line.mp hn
    obtain ⟨j, hm⟩ := h.mem_line.mp hm
    exact h.id_unique hn hm he
  rw [(h.orders_perm.map _).nodup_iff, List.map_append, List.nodup_append]
  refine ⟨hside .buy, hside .sell, fun x hx y hy hxy => ?_⟩
  obtain ⟨o, ho, rfl⟩ := List.mem_map.mp hx
  obtain ⟨o', ho', rfl⟩ := List.mem_map.mp hy
  obtain ⟨i, n, hn, rfl⟩ := h.mem_depth.mp ho
  obtain ⟨j, m, hm, rfl⟩ := h.mem_depth.mp ho'
  rw [h.id_unique hn hm hxy] at hn
  cases (h.queue_unique hn hm).1

theorem Core.top (h : Core b q) (s : Side) :
    ∃ i, b.bestIndex s = .ok i ∧
      (if i = noPrice then 0 else b.config.indexPrice i) = (b.market q).top s := by
  have hdepth : (b.market q).depth s = (line q s b.priceCount).map b.order := rfl
  rcases h.head_cases s with ⟨hbest, hline⟩ | ⟨i, n, l, rest, hbest, hi, hq, hline⟩
  · rw [hline, List.map_nil] at hdepth
    refine ⟨noPrice, hbest, ?_⟩
    rw [if_pos rfl, Market.top_nil hdepth]
  · rw [hline, List.map_cons] at hdepth
    have hn : n ∈ q s i := by rw [hq]; exact List.mem_cons_self
    refine ⟨i, hbest, ?_⟩
    rw [if_neg (h.ladder.index_ne_noPrice hi), Market.top_cons hdepth, h.order_price hn]

theorem Core.bestBid (h : Core b q) : b.bestBid = .ok ((b.market q).top .buy) := by
  obtain ⟨i, hi, htop⟩ := h.top .buy
  simp only [OrderBook.bestBid, hi, bind, Except.bind]
  rw [htop]

theorem Core.bestAsk (h : Core b q) : b.bestAsk = .ok ((b.market q).top .sell) := by
  obtain ⟨i, hi, htop⟩ := h.top .sell
  simp only [OrderBook.bestAsk, hi, bind, Except.bind]
  rw [htop]

theorem Core.level_invalid (h : Core b q) (s : Side) {price : Price}
    (hp : ¬ b.config.validPrice price = true) : (b.market q).level s price = [] := by
  rw [Market.level, atPrice, List.filter_eq_nil_iff]
  intro o ho
  obtain ⟨i, n, hn, rfl⟩ := h.mem_depth.mp ho
  rw [h.order_price hn, decide_eq_true_eq]
  rintro rfl
  exact hp (h.ladder.validPrice_indexPrice (h.lt_of_mem hn))

/-- **The total of a price.** -/
theorem Core.quantityAt (h : Core b q) (s : Side) (price : Price) :
    b.quantityAt s price = .ok (levelTotal ((b.market q).depth s) price) := by
  rw [OrderBook.quantityAt]
  by_cases hv : b.config.validPrice price = true
  · have hi := h.ladder.priceIndex_lt hv
    have hl : vecGet (b.levels s) (b.config.priceIndex price) =
        .ok (b.level s (b.config.priceIndex price)) := h.getLevel s hi
    rw [if_pos hv]
    simp only [hl, bind, Except.bind]
    rw [← h.levelTotal_eq hi, h.ladder.indexPrice_priceIndex hv]
    rfl
  · have hnone : atPrice ((b.market q).depth s) price = [] := h.level_invalid s hv
    rw [if_neg hv, levelTotal, hnone]
    rfl

theorem Core.restingOrders_eq (h : Core b q) : b.stats.restingOrders = (b.market q).size := by
  have h₁ := h.resting
  have h₂ := h.size_market
  omega

end Dme
