import MatchingEngine.Depth
import MatchingEngine.Sweep

/-!
# The matching loop sweeps the opposite side

* `Core.head_cases`: the best level of a side starts with the first order of its depth.
* `Core.reduce`: taking a quantity off the first order of a queue.
* **`Inv.matchStep_part`**, **`Inv.matchStep_whole`**: one iteration of the loop, which uses up the
  aggressor or the first order.
* **`Inv.matchLoop`**: the loop ends, and does what `sweep` does.
-/

set_option autoImplicit false

namespace Dme

variable {b b' : OrderBook} {q : Queues} {s : Side} {i : ℕ} {n m : UInt32}

theorem Core.head_cases (h : Core b q) (s : Side) :
    (b.bestIndex s = .ok noPrice ∧ line q s b.priceCount = []) ∨
      ∃ i n l rest, b.bestIndex s = .ok i ∧ i < b.priceCount ∧ q s i = n :: l ∧
        line q s b.priceCount = n :: rest := by
  obtain ⟨i, hi, ⟨rfl, hempty⟩ | ⟨hlt, hne, hahead⟩⟩ := h.bestIndex s
  · refine Or.inl ⟨hi, ?_⟩
    rw [line, List.flatMap_eq_nil_iff]
    exact fun j _ => hempty j
  · obtain ⟨n, l, hq⟩ := List.exists_cons_of_ne_nil hne
    obtain ⟨A, B, hline, hA, -⟩ := line_split q s hlt
    have hold := hline (q s i)
    rw [setQueue_eq_self] at hold
    have hnil : A = [] := by
      refine List.eq_nil_iff_forall_not_mem.mpr fun m hm => ?_
      obtain ⟨j, hj, hmj⟩ := hA m hm
      rw [hahead j hj] at hmj
      cases hmj
    exact Or.inr ⟨i, n, l, l ++ B, hi, hlt, hq, by rw [hold, hnil, hq]; rfl⟩

theorem Queue.reduce {nodes nodes' : Array OrderNode} {p : Price} {level : PriceLevel}
    {l : List UInt32} (h : Queue nodes s p level (n :: l)) (traded : Quantity)
    (hsize : nodes'.size = nodes.size)
    (hn : vecAt nodes' n.toNat =
      { vecAt nodes n.toNat with remaining := (vecAt nodes n.toNat).remaining - traded })
    (hm : ∀ m : UInt32, m ≠ n → vecAt nodes' m.toNat = vecAt nodes m.toNat) :
    Queue nodes' s p { level with totalQuantity := level.totalQuantity - traded } (n :: l) := by
  have hnot : n ∉ l := (List.nodup_cons.mp h.nodup).1
  have hlinks : ∀ m : UInt32, (vecAt nodes' m.toNat).next = (vecAt nodes m.toNat).next ∧
      (vecAt nodes' m.toNat).previous = (vecAt nodes m.toNat).previous ∧
      (vecAt nodes' m.toNat).side = (vecAt nodes m.toNat).side ∧
      (vecAt nodes' m.toNat).price = (vecAt nodes m.toNat).price := by
    intro m
    by_cases hmn : m = n
    · rw [hmn, hn]
      exact ⟨rfl, rfl, rfl, rfl⟩
    · rw [hm m hmn]
      exact ⟨rfl, rfl, rfl, rfl⟩
  exact {
    head := h.head
    tail := h.tail
    count := h.count
    total := by
      have hrest : (l.map fun m => (vecAt nodes' m.toNat).remaining) =
          l.map fun m => (vecAt nodes m.toNat).remaining :=
        List.map_congr_left fun m hl => by rw [hm m (ne_of_mem_of_not_mem hl hnot)]
      rw [List.map_cons, List.sum_cons, hrest, hn, h.total, List.map_cons, List.sum_cons]
      grind
    linked := Linked.seg_congr (fun m _ => (hlinks m).1) (fun m _ => (hlinks m).2.1) h.linked
    nodup := h.nodup
    node := fun m hl => by
      rw [hsize, (hlinks m).2.2.1, (hlinks m).2.2.2]
      exact h.node m hl }

/-- The book after a trade against node `n`, the first of level `i`. -/
def OrderBook.reduced (b : OrderBook) (s : Side) (i : ℕ) (n : UInt32) (traded : Quantity) :
    OrderBook :=
  { b with
    nodes := b.nodes.setIfInBounds n.toNat
      { b.node n with remaining := (b.node n).remaining - traded }
    stats := { b.stats with trades := b.stats.trades + 1 } }.setLevels s
      ((b.levels s).setIfInBounds i
        { b.level s i with totalQuantity := (b.level s i).totalQuantity - traded })

theorem Core.reduced_node (h : Core b q) (hn : n ∈ q s i) (traded : Quantity) (m : UInt32) :
    (b.reduced s i n traded).node m =
      if m = n then { b.node n with remaining := (b.node n).remaining - traded } else b.node m := by
  rw [OrderBook.node, OrderBook.reduced, OrderBook.setLevels_nodes, vecAt_set_node (h.node_lt hn)]
  rfl

theorem Core.reduce (h : Core b q) {l : List UInt32} (hq : q s i = n :: l) (traded : Quantity) :
    Core (b.reduced s i n traded) q := by
  have hn : n ∈ q s i := by rw [hq]; exact List.mem_cons_self
  have hi := h.lt_of_mem hn
  have hnode := h.reduced_node hn traded
  have hqueue := h.queue s i hi
  rw [hq] at hqueue
  have hids : ∀ m, ((b.reduced s i n traded).node m).id = (b.node m).id := fun m => by
    rw [hnode]
    split_ifs with hm
    · rw [hm]
    · rfl
  have hsize : (b.reduced s i n traded).nodes.size = b.nodes.size := by simp [OrderBook.reduced]
  have hbits : (b.reduced s i n traded).bits = b.bits := by
    rw [OrderBook.reduced, OrderBook.setLevels_bits]; rfl
  have htouch : Touches b (b.reduced s i n traded) s i
      { b.level s i with totalQuantity := (b.level s i).totalQuantity - traded } :=
    { config := by simp [OrderBook.reduced]
      priceCount := by simp [OrderBook.reduced]
      levels := fun t => by rw [OrderBook.reduced, OrderBook.setLevels_levels]; rfl
      bits_size := fun t => by rw [hbits]
      nodes_size := hsize
      index_size := by simp [OrderBook.reduced] }
  have hcore := h.update (l := q s i) hi _ htouch ?_ (fun t j htj m hm => ?_)
  · rw [setQueue_eq_self] at hcore
    have hfree : (b.reduced s i n traded).freeNodes = b.freeNodes := by simp [OrderBook.reduced]
    have hindex : (b.reduced s i n traded).orderIndex = b.orderIndex := by simp [OrderBook.reduced]
    refine hcore (fun t j => ?_) ?_ (fun m hm => ?_) (fun m hm => ?_) ?_ (fun id m => ?_) ?_
    · rw [hbits, h.active]
    · rw [hfree]
      exact h.free_nodup
    · rw [hfree] at hm
      obtain ⟨hlt, hdef, hnot⟩ := h.free m hm
      have hmn : m ≠ n := fun he => hnot s i (he ▸ hn)
      rw [hsize, hnode, if_neg hmn]
      exact ⟨hlt, hdef, hnot⟩
    · rw [hfree]
      exact h.cover m (hsize ▸ hm)
    · rw [hindex]
      exact h.index_wf
    · rw [hindex, h.index, hids]
    · rw [hfree, hsize]
      simpa [OrderBook.reduced] using h.resting
  · rw [hq]
    exact hqueue.reduce traded hsize (by rw [← OrderBook.node, hnode, if_pos rfl]; rfl)
      fun m hm => by rw [← OrderBook.node, hnode, if_neg hm]; rfl
  · rw [hnode, if_neg]
    rintro rfl
    exact htj (h.queue_unique hn hm)

section Reduced

variable (s : Side) (i : ℕ) (n : UInt32) (traded : Quantity)

theorem OrderBook.reduced_config : (b.reduced s i n traded).config = b.config := by
  simp [OrderBook.reduced]

theorem OrderBook.reduced_stats :
    (b.reduced s i n traded).stats = { b.stats with trades := b.stats.trades + 1 } := by
  simp [OrderBook.reduced]

theorem OrderBook.reduced_freeNodes : (b.reduced s i n traded).freeNodes = b.freeNodes := by
  simp [OrderBook.reduced]

end Reduced

theorem Core.reduced_order (h : Core b q) (hn : n ∈ q s i) (traded : Quantity) (m : UInt32) :
    (b.reduced s i n traded).order m = if m = n then
      { b.order n with quantity := (b.order n).quantity - traded } else b.order m := by
  rw [OrderBook.order, h.reduced_node hn]
  split_ifs <;> rfl

theorem Core.mem_pull (h : Core b q) (hn : n ∈ q s i) {t : Side} {j : ℕ}
    (hm : m ∈ setQueue q s i ((q s i).erase n) t j) : m ≠ n ∧ m ∈ q t j := by
  obtain ⟨hmem, hnot⟩ := (mem_setQueue_erase (h.queue_of_mem hn).nodup).mp hm
  refine ⟨?_, hmem⟩
  rintro rfl
  exact hnot ⟨rfl, h.queue_unique hn hmem⟩

theorem Inv.of_pull (h : Inv b q) (hn : n ∈ q s i)
    (hcore : Core b' (setQueue q s i ((q s i).erase n)))
    (hframe : ∀ m, m ≠ n → b'.order m = b.order m) : Inv b' (setQueue q s i ((q s i).erase n)) := by
  refine ⟨hcore, fun t j m hm => ?_⟩
  obtain ⟨hmn, hm⟩ := h.mem_pull hn hm
  have hquantity := congrArg RestingOrder.quantity (hframe m hmn)
  exact fun h0 => h.positive t j m hm (hquantity.symm.trans h0)

theorem Core.notMem_line (h : Core b q) (hn : n ∈ q s i) {t : Side} (hts : t ≠ s) :
    n ∉ line q t b.priceCount := fun hm => by
  obtain ⟨j, hj⟩ := h.mem_line.mp hm
  exact hts (h.queue_unique hn hj).1

theorem Core.reduced_depth (h : Core b q) {l rest : List UInt32} (hq : q s i = n :: l)
    (hline : line q s b.priceCount = n :: rest) (traded : Quantity) :
    (b.reduced s i n traded).depth q = Function.update (b.depth q) s
      ({ b.order n with quantity := (b.order n).quantity - traded } :: rest.map b.order) := by
  have hn : n ∈ q s i := by rw [hq]; exact List.mem_cons_self
  have hnd := h.line_nodup s
  rw [hline, List.nodup_cons] at hnd
  have hsame : ∀ l : List UInt32, n ∉ l → l.map (b.reduced s i n traded).order = l.map b.order :=
    fun l hl => List.map_congr_left fun m hm => by
      rw [h.reduced_order hn, if_neg (ne_of_mem_of_not_mem hm hl)]
  funext t
  rw [OrderBook.depth, h.priceCount_eq (h.reduce hq traded) (OrderBook.reduced_config _ _ _ _)]
  by_cases hts : t = s
  · subst hts
    rw [Function.update_self, hline, List.map_cons, hsame rest hnd.1, h.reduced_order hn, if_pos rfl]
  · rw [Function.update_of_ne hts, hsame _ (h.notMem_line hn hts)]
    rfl

theorem Core.pull_head_depth (h : Core b q) {l rest : List UInt32} (hq : q s i = n :: l)
    (hline : line q s b.priceCount = n :: rest) (h' : Core b' (setQueue q s i ((q s i).erase n)))
    (hc : b'.config = b.config) (hframe : ∀ m, m ≠ n → b'.order m = b.order m) :
    b'.depth (setQueue q s i ((q s i).erase n)) = Function.update (b.depth q) s (rest.map b.order) := by
  have hn : n ∈ q s i := by rw [hq]; exact List.mem_cons_self
  have hnd := h.line_nodup s
  rw [hline, List.nodup_cons] at hnd
  have hsame : ∀ l : List UInt32, n ∉ l → l.map b'.order = l.map b.order :=
    fun l hl => List.map_congr_left fun m hm => hframe m (ne_of_mem_of_not_mem hm hl)
  funext t
  rw [OrderBook.depth, h.priceCount_eq h' hc, h.line_pull hn]
  by_cases hts : t = s
  · subst hts
    rw [Function.update_self, hline, List.erase_cons_head, hsame rest hnd.1]
  · rw [Function.update_of_ne hts, List.erase_of_not_mem (h.notMem_line hn hts),
      hsame _ (h.notMem_line hn hts)]
    rfl

/-- The loop's work on the first order of the opposite side, up to its removal. -/
theorem Core.matchStep_eq (h : Core b q) {c : Command} {limit : Price} {l : List UInt32}
    (remaining : Quantity) (events : List Event) (hbest : b.bestIndex c.side.opposite = .ok i)
    (hq : q c.side.opposite i = n :: l)
    (hc : crossesPrice c.side limit (b.order n).price = true) :
    OrderBook.matchStep c limit ⟨b, remaining, events⟩ = (do
      let book ← (if (b.order n).quantity - min remaining (b.order n).quantity = 0
        then (b.reduced c.side.opposite i n (min remaining (b.order n).quantity)).removeNode n
        else .ok (b.reduced c.side.opposite i n (min remaining (b.order n).quantity)))
      .ok (some ⟨book, remaining - min remaining (b.order n).quantity,
        events ++ [eventOf .trade c (b.order n).orderId (b.order n).price
          (min remaining (b.order n).quantity) .none]⟩)) := by
  have hn : n ∈ q c.side.opposite i := by rw [hq]; exact List.mem_cons_self
  have hi := h.lt_of_mem hn
  have hhead : (b.level c.side.opposite i).head = n := by rw [(h.queue_of_mem hn).head, hq]; rfl
  rw [h.order_price hn] at hc
  rw [OrderBook.matchStep]
  simp only [hbest, bind, Except.bind, h.crosses_eq hi, hc, Bool.true_eq_false, if_false,
    h.getLevel c.side.opposite hi, hhead, h.getNode hn, vecSet_eq (h.node_lt hn),
    vecSet_eq (h.level_lt c.side.opposite hi), OrderBook.reduced]
  rfl

/-- What the loop keeps of a book's counters. -/
def Traded (b b' : OrderBook) (trades : ℕ) : Prop :=
  b'.config = b.config ∧ b'.stats = { b.stats with
    trades := b.stats.trades + UInt64.ofNat trades
    restingOrders := b'.stats.restingOrders }

theorem Traded.refl (b : OrderBook) : Traded b b 0 := ⟨rfl, by simp⟩

theorem Traded.trans {b₁ b₂ b₃ : OrderBook} {k l : ℕ} (h : Traded b₁ b₂ k) (h' : Traded b₂ b₃ l) :
    Traded b₁ b₃ (k + l) := by
  refine ⟨h'.1.trans h.1, ?_⟩
  rw [h'.2, h.2]
  simp [UInt64.ofNat_add, UInt64.add_assoc]

theorem Core.matchStep_none (h : Core b q) {c : Command} {limit : Price} (remaining : Quantity)
    (events : List Event)
    (hstop : ∀ o os, b.depth q c.side.opposite = o :: os → crossesPrice c.side limit o.price = false) :
    OrderBook.matchStep c limit ⟨b, remaining, events⟩ = .ok none := by
  rw [OrderBook.matchStep]
  rcases h.head_cases c.side.opposite with ⟨hbest, _⟩ | ⟨i, n, l, rest, hbest, hi, hq, hline⟩
  · simp only [hbest, bind, Except.bind]
    rw [if_pos (by rw [OrderBook.crosses, if_pos rfl])]
  · have hn : n ∈ q c.side.opposite i := by rw [hq]; exact List.mem_cons_self
    have hc := hstop (b.order n) (rest.map b.order) (by rw [OrderBook.depth, hline]; rfl)
    rw [h.order_price hn] at hc
    simp only [hbest, bind, Except.bind]
    rw [if_pos (by rw [h.crosses_eq hi, hc])]

theorem Core.first_order (h : Core b q) {o : RestingOrder} {os : List RestingOrder}
    (hd : b.depth q s = o :: os) :
    ∃ i n l rest, b.bestIndex s = .ok i ∧ q s i = n :: l ∧ n ∈ q s i ∧
      line q s b.priceCount = n :: rest ∧ b.order n = o ∧ rest.map b.order = os := by
  rcases h.head_cases s with ⟨-, hline⟩ | ⟨i, n, l, rest, hbest, -, hq, hline⟩
  · rw [OrderBook.depth, hline] at hd
    cases hd
  · rw [OrderBook.depth, hline, List.map_cons] at hd
    obtain ⟨ho, hos⟩ := List.cons.inj hd
    exact ⟨i, n, l, rest, hbest, hq, by rw [hq]; exact List.mem_cons_self, hline, ho, hos⟩

section Step

variable {c : Command} {limit : Price} {o : RestingOrder} {os : List RestingOrder}

/-- **An iteration that uses up the aggressor**: the first order is met in part. -/
theorem Inv.matchStep_part (h : Inv b q) {remaining : Quantity} (events : List Event)
    (hd : b.depth q c.side.opposite = o :: os) (hc : crossesPrice c.side limit o.price = true)
    (hlt : remaining < o.quantity) :
    ∃ b', OrderBook.matchStep c limit ⟨b, remaining, events⟩ =
        .ok (some ⟨b', 0, events ++ [eventOf .trade c o.orderId o.price remaining .none]⟩) ∧
      Inv b' q ∧ Traded b b' 1 ∧ b'.freeNodes = b.freeNodes ∧
      b'.depth q = Function.update (b.depth q) c.side.opposite
        ({ o with quantity := o.quantity - remaining } :: os) := by
  obtain ⟨i, n, l, rest, hbest, hq, hn, hline, rfl, rfl⟩ := h.first_order hd
  have hne : (b.order n).quantity - remaining ≠ 0 := by grind
  rw [h.matchStep_eq remaining events hbest hq hc, min_of_lt hlt, if_neg hne, UInt64.sub_self]
  refine ⟨_, rfl, ⟨h.toCore.reduce hq remaining, fun t j m hm => ?_⟩,
    ⟨OrderBook.reduced_config _ _ _ _, ?_⟩, OrderBook.reduced_freeNodes _ _ _ _,
    h.reduced_depth hq hline remaining⟩
  · rw [h.reduced_node hn]
    split_ifs with hmn
    · exact hne
    · exact h.positive t j m hm
  · rw [OrderBook.reduced_stats]
    rfl

/-- **An iteration that uses up the first order**, and removes it. -/
theorem Inv.matchStep_whole (h : Inv b q) {remaining : Quantity} (events : List Event)
    (hd : b.depth q c.side.opposite = o :: os) (hc : crossesPrice c.side limit o.price = true)
    (hlt : ¬ remaining < o.quantity) :
    ∃ b' q', OrderBook.matchStep c limit ⟨b, remaining, events⟩ =
        .ok (some ⟨b', remaining - o.quantity,
          events ++ [eventOf .trade c o.orderId o.price o.quantity .none]⟩) ∧
      Inv b' q' ∧ Traded b b' 1 ∧ b.freeNodes.length ≤ b'.freeNodes.length ∧
      b'.depth q' = Function.update (b.depth q) c.side.opposite os := by
  obtain ⟨i, n, l, rest, hbest, hq, hn, hline, rfl, rfl⟩ := h.first_order hd
  obtain ⟨b', hrem, hcore, hconf, hfree, hstats, -, hframe⟩ :=
    (h.toCore.reduce hq (b.order n).quantity).removeNode hn
  have hconfig := hconf.trans (OrderBook.reduced_config _ _ _ _)
  have horder : ∀ m, m ≠ n → b'.order m = b.order m := fun m hm => by
    rw [OrderBook.order, hframe m hm, ← OrderBook.order, h.reduced_order hn, if_neg hm]
  rw [h.matchStep_eq remaining events hbest hq hc, min_of_not_lt hlt, UInt64.sub_self, if_pos rfl]
  refine ⟨b', _, by rw [hrem]; rfl, h.of_pull hn hcore horder, ⟨hconfig, ?_⟩, ?_,
    h.pull_head_depth hq hline hcore hconfig horder⟩
  · rw [hstats, OrderBook.reduced_stats]
    rfl
  · rw [hfree, OrderBook.reduced_freeNodes]
    simp

end Step

section Loop

variable {c : Command} {limit : Price} {fuel : ℕ} {x x' : OrderBook.Matching}

theorem matchLoop_done (hr : x.remaining = 0) :
    OrderBook.matchLoop c limit (fuel + 1) x = .ok x := by
  rw [OrderBook.matchLoop, if_neg (by rw [hr]; exact UInt64.lt_irrefl 0)]

theorem matchLoop_break (hs : OrderBook.matchStep c limit x = .ok none) :
    OrderBook.matchLoop c limit (fuel + 1) x = .ok x := by
  rw [OrderBook.matchLoop, hs]
  split_ifs <;> rfl

theorem matchLoop_next (hr : x.remaining ≠ 0) (hs : OrderBook.matchStep c limit x = .ok (some x')) :
    OrderBook.matchLoop c limit (fuel + 1) x = OrderBook.matchLoop c limit fuel x' := by
  rw [OrderBook.matchLoop, if_pos (by grind), hs]
  rfl

end Loop

/-- **The matching loop ends and sweeps the opposite side.** -/
theorem Inv.matchLoop (c : Command) (limit : Price) (fuel : ℕ) (h : Inv b q) (remaining : Quantity)
    (events : List Event) {os : List RestingOrder} (hd : b.depth q c.side.opposite = os)
    (hf : os.length < fuel) :
    ∃ b' q', OrderBook.matchLoop c limit fuel ⟨b, remaining, events⟩ =
        .ok ⟨b', (sweep c.side limit remaining os).remaining,
          events ++ Market.tradesOf c (sweep c.side limit remaining os).fills⟩ ∧
      Inv b' q' ∧ Traded b b' (sweep c.side limit remaining os).fills.length ∧
      b.freeNodes.length ≤ b'.freeNodes.length ∧
      b'.depth q' = Function.update (b.depth q) c.side.opposite
        (sweep c.side limit remaining os).rest := by
  -- each iteration uses up the first order, or what is left of the aggressor
  induction os generalizing b q fuel remaining events with
  | nil =>
    obtain ⟨fuel, rfl⟩ := Nat.exists_eq_succ_of_ne_zero (Nat.ne_zero_of_lt hf)
    refine ⟨b, q, ?_, h, Traded.refl b, le_rfl, by rw [sweep, ← hd, Function.update_eq_self]⟩
    rw [matchLoop_break (h.matchStep_none remaining events (by simp [hd]))]
    simp [sweep, Market.tradesOf]
  | cons o os ih =>
    obtain ⟨fuel, rfl⟩ := Nat.exists_eq_succ_of_ne_zero (Nat.ne_zero_of_lt hf)
    rw [List.length_cons, Nat.succ_lt_succ_iff] at hf
    by_cases hstop : remaining = 0 ∨ crossesPrice c.side limit o.price = false
    · rw [sweep_stop hstop]
      refine ⟨b, q, ?_, h, Traded.refl b, le_rfl, by rw [← hd, Function.update_eq_self]⟩
      rcases hstop with h0 | hc
      · rw [matchLoop_done h0]
        simp [Market.tradesOf]
      · rw [matchLoop_break (h.matchStep_none remaining events ?_)]
        · simp [Market.tradesOf]
        · rw [hd]
          rintro _ _ ⟨⟩
          exact hc
    · obtain ⟨hr, hc⟩ := not_or.mp hstop
      rw [Bool.not_eq_false] at hc
      by_cases hlt : remaining < o.quantity
      · obtain ⟨b₁, hstep, hinv, htr, hfree, hdepth⟩ := h.matchStep_part events hd hc hlt
        obtain ⟨fuel, rfl⟩ := Nat.exists_eq_succ_of_ne_zero (Nat.ne_zero_of_lt hf)
        rw [matchLoop_next hr hstep, matchLoop_done rfl, sweep_part hstop hlt]
        exact ⟨b₁, q, rfl, hinv, htr, by rw [hfree], hdepth⟩
      · obtain ⟨b₁, q₁, hstep, hinv, htr, hfree, hdepth⟩ := h.matchStep_whole events hd hc hlt
        obtain ⟨b₂, q₂, hloop, hinv₂, htr₂, hfree₂, hdepth₂⟩ := ih fuel hinv
          (remaining - o.quantity) _ (by rw [hdepth, Function.update_self]) hf
        rw [matchLoop_next hr hstep, hloop, sweep_whole hstop hlt]
        refine ⟨b₂, q₂, ?_, hinv₂, ?_, hfree.trans hfree₂, ?_⟩
        · simp [Market.tradesOf]
        · rw [List.length_cons, Nat.add_comm]
          exact htr.trans htr₂
        · rw [hdepth₂, hdepth, Function.update_idem]

end Dme
