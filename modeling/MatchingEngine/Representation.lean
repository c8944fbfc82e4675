import MatchingEngine.Priority

/-!
# The representation of a book

* **`Represented R b q`**: what the ladders, bitmaps, arena, free stack, index and counters of a book
  say, level by level, when the nodes of each level are `q` and their priorities are ordered by `R`.
* `Begun R b`: the new and the restored books.
* `Grown b₀ b`: `b` is reached from `b₀` by commands during which the sequence does not wrap.
* **`representation_invariant`**: every book grown from a new or a restored one is represented.
-/

set_option autoImplicit false

namespace Dme

variable {R : Sequence → Sequence → Prop} {b b₀ : OrderBook} {q : Queues} {s : Side} {i : ℕ}

/-- **The representation of a book**, with the nodes of each level from head to tail and the order
`R` of their priorities. -/
structure Represented (R : Sequence → Sequence → Prop) (b : OrderBook) (q : Queues) : Prop where
  /-- Following `next` from the head reads the nodes of the level. -/
  next_chain : ∀ s, ∀ i < b.priceCount,
    Linked.Reads (fun n => (b.node n).next) invalidNode (b.level s i).head (q s i)
  /-- Following `previous` from the tail reads them in the opposite direction. -/
  previous_chain : ∀ s, ∀ i < b.priceCount,
    Linked.Reads (fun n => (b.node n).previous) invalidNode (b.level s i).tail (q s i).reverse
  acyclic : ∀ s, ∀ i < b.priceCount, (q s i).Nodup
  count : ∀ s, ∀ i < b.priceCount, (b.level s i).count.toNat = (q s i).length
  ends : ∀ s, ∀ i < b.priceCount, ((b.level s i).head = invalidNode ↔ (b.level s i).count = 0) ∧
    ((b.level s i).tail = invalidNode ↔ (b.level s i).count = 0)
  node : ∀ s, ∀ i < b.priceCount, ∀ n ∈ q s i, n.toNat < b.nodes.size ∧ (b.node n).side = s ∧
    (b.node n).price = b.config.indexPrice i ∧ 0 < (b.node n).remaining
  total : ∀ s, ∀ i < b.priceCount, (b.level s i).totalQuantity.toNat =
    ((q s i).map fun n => (b.node n).remaining.toNat).sum % 2 ^ 64
  active : ∀ s, ∀ i < b.priceCount, (Bitmap.IsSet (b.bits s) i ↔ 0 < (b.level s i).count)
  inactive : ∀ s i, b.priceCount ≤ i → ¬ Bitmap.IsSet (b.bits s) i
  one_level : ∀ s, ∀ i < b.priceCount, ∀ s', ∀ i' < b.priceCount, ∀ n, n ∈ q s i → n ∈ q s' i' →
    s = s' ∧ i = i'
  free_nodup : b.freeNodes.Nodup
  /-- A node of the arena is free or on a level, and not both. -/
  partition : ∀ n : UInt32, n.toNat < b.nodes.size →
    (n ∈ b.freeNodes ↔ ∀ s, ∀ i < b.priceCount, n ∉ q s i)
  free : ∀ n ∈ b.freeNodes, n.toNat < b.nodes.size ∧ b.node n = {}
  index_live : ∀ s, ∀ i < b.priceCount, ∀ n ∈ q s i,
    b.orderIndex.find (b.node n).id = .ok (some n)
  index_other : ∀ id, (∀ s, ∀ i < b.priceCount, ∀ n ∈ q s i, (b.node n).id ≠ id) →
    b.orderIndex.find id = .ok none
  ids : ∀ s, ∀ i < b.priceCount, ∀ s', ∀ i' < b.priceCount, ∀ n ∈ q s i, ∀ n' ∈ q s' i',
    (b.node n).id = (b.node n').id → n = n'
  resting : b.stats.restingOrders =
    ∑ i ∈ Finset.range b.priceCount, ((q .buy i).length + (q .sell i).length)
  priorities : ∀ s, ∀ i < b.priceCount,
    (q s i).Pairwise fun n n' => R (b.node n).priority (b.node n').priority

/-! ## From the invariant -/

theorem Core.ends (h : Core b q) (hi : i < b.priceCount) :
    ((b.level s i).head = invalidNode ↔ (b.level s i).count = 0) ∧
      ((b.level s i).tail = invalidNode ↔ (b.level s i).count = 0) := by
  rw [h.count_eq_zero hi, (h.queue s i hi).head, (h.queue s i hi).tail]
  cases hq : q s i with
  | nil => exact ⟨by simp, by simp⟩
  | cons m l =>
    have hne : ∀ x ∈ m :: l, x ≠ invalidNode := fun x hx => h.ne_invalidNode (hq ▸ hx)
    refine ⟨by simpa using hne m List.mem_cons_self, ?_⟩
    rw [List.getLastD_eq_getLast?, List.getLast?_eq_some_getLast (List.cons_ne_nil m l)]
    simpa using hne _ (List.getLast_mem (List.cons_ne_nil m l))

theorem Core.resting_sum (h : Core b q) : b.stats.restingOrders =
    ∑ i ∈ Finset.range b.priceCount, ((q .buy i).length + (q .sell i).length) := by
  have hlen := h.orders_perm.length_eq
  have hlevel : ∀ i ∈ List.range b.priceCount, ∀ s,
      ((b.market q).level s (b.config.indexPrice i)).length = (q s i).length := by
    intro i hi s
    rw [Market.level, OrderBook.market, h.depth_level (List.mem_range.mp hi), List.length_map]
  rw [List.length_append, Market.orders, List.length_flatMap] at hlen
  rw [h.restingOrders_eq, Market.size]
  refine hlen.symm.trans (congrArg List.sum (List.map_congr_left fun i hi => ?_))
  rw [List.length_append]
  exact congrArg₂ (· + ·) (hlevel i hi .buy) (hlevel i hi .sell)

theorem Core.level_ranked (h : Core b q) (hr : Ranked R (b.depth q)) (s : Side)
    (hi : i < b.priceCount) :
    (q s i).Pairwise fun n n' => R (b.node n).priority (b.node n').priority := by
  have hlevel := (hr s).filter fun o => o.price = b.config.indexPrice i
  rw [← atPrice, h.depth_level hi, List.pairwise_map] at hlevel
  refine hlevel.imp_of_mem fun {n n'} hn hn' hnn => ?_
  exact hnn (by rw [h.order_price hn, h.order_price hn'])

theorem Inv.represented (h : Inv b q) (hr : Ranked R (b.depth q)) : Represented R b q where
  next_chain s i hi := by
    rw [(h.queue s i hi).head]
    exact (h.queue s i hi).linked.reads_next (h.invalidNode_notMem s i)
  previous_chain s i hi := by
    rw [(h.queue s i hi).tail]
    exact (h.queue s i hi).linked.reads_prev (h.invalidNode_notMem s i)
  acyclic s i hi := (h.queue s i hi).nodup
  count s i hi := (h.queue s i hi).count
  ends s i hi := h.ends hi
  node s i hi n hn := ⟨h.node_lt hn, h.node_side hn, h.node_price hn,
    UInt64.pos_iff_ne_zero.mpr (h.positive s i n hn)⟩
  total s i hi := by
    rw [h.total_eq hi, toNat_sum, List.map_map]
    rfl
  active s i hi := by
    rw [h.active, ← not_iff_not, not_not, ← h.count_eq_zero hi]
    simp [UInt32.pos_iff_ne_zero]
  inactive s i hi := by
    rw [h.active, h.outside s i hi]
    simp
  one_level s i _ s' i' _ n hn hn' := (h.queue_unique hn' hn)
  free_nodup := h.free_nodup
  partition n hn := by
    refine ⟨fun hf s i _ => (h.free n hf).2.2 s i, fun hnot => ?_⟩
    rcases h.cover n hn with hf | ⟨s, i, hm⟩
    · exact hf
    · exact absurd hm (hnot s i (h.lt_of_mem hm))
  free n hn := ⟨(h.free n hn).1, (h.free n hn).2.1⟩
  index_live s i _ n hn := h.index_wf.find_has ((h.index _ n).mpr ⟨s, i, hn, rfl⟩)
  index_other id hid := by
    refine h.index_wf.find_not_has fun n hn => ?_
    obtain ⟨s, i, hm, he⟩ := (h.index id n).mp hn
    exact hid s i (h.lt_of_mem hm) n hm he
  ids s i _ s' i' _ n hn n' hn' hid := h.id_unique hn hn' hid
  resting := h.resting_sum
  priorities s i hi := h.level_ranked hr s hi

/-! ## Reachable books -/

/-- Books to begin with, and how priorities compare along their levels: a new book, a book on which
a restore has succeeded, and such a book whose orders have distinct priorities at each level. -/
inductive Begun : (Sequence → Sequence → Prop) → OrderBook → Prop
  | new {config : BookConfig} {b : OrderBook} (h : OrderBook.new config = .ok b) : Begun (· < ·) b
  | restored {b₁ b : OrderBook} {last : Sequence} {orders : List RestingOrder} (hb : Reachable b₁)
    (h : b₁.restore last orders = (b, .ok ())) : Begun (· ≤ ·) b
  | restoredDistinct {b₁ b : OrderBook} {last : Sequence} {orders : List RestingOrder}
    (hb : Reachable b₁) (h : b₁.restore last orders = (b, .ok ()))
    (hd : DistinctPriorities orders) : Begun (· < ·) b

/-- Books reached from `b₀` by commands during which the last sequence does not wrap. -/
inductive Grown (b₀ : OrderBook) : OrderBook → Prop
  | start : Grown b₀ b₀
  | process {b b' : OrderBook} {c : Command} {events events' : List Event} (hb : Grown b₀ b)
    (h : b.process c events = .ok (b', events'))
    (hwrap : b.stats.lastSequence ≤ b'.stats.lastSequence) : Grown b₀ b'

theorem Reachable.restored_aged {b₁ b : OrderBook} {last : Sequence} {orders : List RestingOrder}
    (hb : Reachable b₁) (h : b₁.restore last orders = (b, .ok ()))
    (hr : Ranked R (enqueueAll (fun _ => []) (byPriority orders))) :
    ∃ q, Inv b q ∧ (b.market q).Aged R := by
  obtain ⟨q₁, hinv₁⟩ := hb.inv
  obtain ⟨q, hinv, -, hdepth, hstats, -, hall⟩ := hinv₁.restore_ok h
  refine ⟨q, hinv, ?_, fun s x hx => ?_⟩
  · change Ranked R (b.depth q)
    rw [hdepth]
    exact hr
  · change x ∈ b.depth q s at hx
    change x.priority ≤ b.stats.lastSequence
    rw [hdepth, mem_enqueueAll, mem_byPriority] at hx
    rcases hx with ⟨hx, -⟩ | hx
    · rw [hstats]
      exact (hall x hx).2.2
    · cases hx

theorem Begun.aged (h : Begun R b) : ∃ q, Inv b q ∧ (b.market q).Aged R := by
  cases h with
  | new h =>
    obtain ⟨hinv, -, hstats⟩ := Inv.new h
    exact ⟨_, hinv, Market.aged_of_empty (hinv.empty_depth (by rw [hstats]))⟩
  | restored hb h => exact hb.restored_aged h (ranked_le_restored _)
  | restoredDistinct hb h hd => exact hb.restored_aged h (ranked_lt_restored hd)

theorem Begun.lt_imp (h : Begun R b) {x y : Sequence} (hxy : x < y) : R x y := by
  cases h with
  | new => exact hxy
  | restored => exact UInt64.le_of_lt hxy
  | restoredDistinct => exact hxy

theorem Grown.aged (h : Grown b₀ b) (h₀ : Begun R b₀) : ∃ q, Inv b q ∧ (b.market q).Aged R := by
  induction h with
  | start => exact h₀.aged
  | @process b b' c events events' _ hp hwrap ih =>
    obtain ⟨q, hinv, haged⟩ := ih
    obtain ⟨b₁, q₁, hp₁, hinv₁, hm, -⟩ := hinv.process c events
    rw [hp] at hp₁
    cases hp₁
    have hlast : b'.stats.lastSequence = ((b.market q).process c).1.lastSequence :=
      congrArg Market.lastSequence hm
    refine ⟨q₁, hinv₁, ?_⟩
    rw [hm]
    refine haged.process (fun _ _ => h₀.lt_imp) hinv.depth_bestFirst c ?_
    rw [← hlast]
    exact hwrap

/-- **The representation invariant.** -/
theorem representation_invariant (h₀ : Begun R b₀) (h : Grown b₀ b) : ∃ q, Represented R b q := by
  obtain ⟨q, hinv, haged⟩ := h.aged h₀
  exact ⟨q, hinv.represented haged.ranked⟩

/-- A new book that has taken one order. -/
theorem representation_invariant_one_order : ∃ b₀ b₁ evs q, OrderBook.new ⟨1, 4, 1, 2⟩ = .ok b₀ ∧
    b₀.process ⟨1, .new, .buy, .limit, 0, 7, 2, 5⟩ [] = .ok (b₁, evs) ∧
    Represented (· < ·) b₁ q := by
  obtain ⟨b₀, hnew⟩ := OrderBook.new_isOk (by decide : checkedPriceCount ⟨1, 4, 1, 2⟩ = .ok 4) (by decide)
  obtain ⟨hinv, -, hstats⟩ := Inv.new hnew
  obtain ⟨b₁, q₁, hp, -⟩ := hinv.process ⟨1, .new, .buy, .limit, 0, 7, 2, 5⟩ []
  have hwrap : b₀.stats.lastSequence ≤ b₁.stats.lastSequence := by
    rw [hstats]
    exact UInt64.zero_le
  obtain ⟨q, hq⟩ := representation_invariant (.new hnew) (Grown.start.process hp hwrap)
  exact ⟨b₀, b₁, _, q, hnew, hp, hq⟩

end Dme
