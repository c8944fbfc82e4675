import MatchingEngine.Queue

/-!
# Adding and removing resting orders

* `setActive_spec`, `clearActive_spec`: the activity bit of a level.
* **`Core.addResting`**: on a book with a free node, `add_resting` returns, appends the node to the
  queue of its level and changes no other order.
* **`Core.removeNode`**: `remove_node` returns, takes the node out of its queue and changes no other
  order.
-/

set_option autoImplicit false

namespace Dme

namespace OrderBook

variable (b : OrderBook) (s s' : Side) (ls : Array PriceLevel) (ws : Array UInt64)

section Fields

@[simp] theorem setLevels_config : (b.setLevels s ls).config = b.config := by cases s <;> rfl
@[simp] theorem setLevels_priceCount : (b.setLevels s ls).priceCount = b.priceCount := by
  cases s <;> rfl
@[simp] theorem setLevels_bits : (b.setLevels s ls).bits = b.bits := by
  funext t; cases s <;> cases t <;> rfl
@[simp] theorem setLevels_nodes : (b.setLevels s ls).nodes = b.nodes := by cases s <;> rfl
@[simp] theorem setLevels_freeNodes : (b.setLevels s ls).freeNodes = b.freeNodes := by
  cases s <;> rfl
@[simp] theorem setLevels_orderIndex : (b.setLevels s ls).orderIndex = b.orderIndex := by
  cases s <;> rfl
@[simp] theorem setLevels_stats : (b.setLevels s ls).stats = b.stats := by cases s <;> rfl
@[simp] theorem setBits_nodes : (b.setBits s ws).nodes = b.nodes := by cases s <;> rfl
@[simp] theorem setBits_orderIndex : (b.setBits s ws).orderIndex = b.orderIndex := by cases s <;> rfl
@[simp] theorem setBits_stats : (b.setBits s ws).stats = b.stats := by cases s <;> rfl

end Fields

theorem setLevels_levels : (b.setLevels s ls).levels s' = if s' = s then ls else b.levels s' := by
  cases s <;> cases s' <;> rfl

theorem setBits_bits : (b.setBits s ws).bits s' = if s' = s then ws else b.bits s' := by
  cases s <;> cases s' <;> rfl

variable {b s}

theorem setActive_spec {i : ℕ} (h : i / 64 < (b.bits s).size) :
    b.setActive s i = .ok (b.setBits s (Bitmap.setBit (b.bits s) i)) := by
  simp only [setActive, vecGet_eq h, bind, Except.bind, vecSet_eq h]
  rfl

theorem clearActive_spec {i : ℕ} (h : i / 64 < (b.bits s).size) :
    b.clearActive s i = .ok (b.setBits s (Bitmap.clearBit (b.bits s) i)) := by
  simp only [clearActive, vecGet_eq h, bind, Except.bind, vecSet_eq h]
  rfl

end OrderBook

namespace OrderBook

variable {b : OrderBook} {s : Side} {i : ℕ}

theorem setBits_self (b : OrderBook) (s : Side) : b.setBits s (b.bits s) = b := by
  cases s <;> rfl

/-- The book with the ladder and the bitmap of one side, the arena, the free stack, the index and
the counters replaced. -/
def rebuilt (b : OrderBook) (s : Side) (ls : Array PriceLevel) (ws : Array UInt64)
    (nodes : Array OrderNode) (freeNodes : List UInt32) (orderIndex : FixedOrderIndex)
    (stats : BookStats) : OrderBook :=
  { (b.setLevels s ls).setBits s ws with nodes, freeNodes, orderIndex, stats }

section Rebuilt

variable (b : OrderBook) (s : Side) (ls : Array PriceLevel) (ws : Array UInt64)
  (nodes : Array OrderNode) (freeNodes : List UInt32) (orderIndex : FixedOrderIndex)
  (stats : BookStats)

@[simp] theorem rebuilt_config :
    (b.rebuilt s ls ws nodes freeNodes orderIndex stats).config = b.config := by
  cases s <;> rfl

@[simp] theorem rebuilt_priceCount :
    (b.rebuilt s ls ws nodes freeNodes orderIndex stats).priceCount = b.priceCount := by
  cases s <;> rfl

theorem rebuilt_levels (t : Side) : (b.rebuilt s ls ws nodes freeNodes orderIndex stats).levels t =
    if t = s then ls else b.levels t := by
  cases s <;> cases t <;> rfl

theorem rebuilt_bits (t : Side) : (b.rebuilt s ls ws nodes freeNodes orderIndex stats).bits t =
    if t = s then ws else b.bits t := by
  cases s <;> cases t <;> rfl

@[simp] theorem rebuilt_node (n : UInt32) :
    (b.rebuilt s ls ws nodes freeNodes orderIndex stats).node n = vecAt nodes n.toNat := rfl

end Rebuilt

/-- The end of `add_resting`'s work on a level: its bit is set when it was empty. -/
theorem activate_spec (c : Prop) [Decidable c] (h : i / 64 < (b.bits s).size) :
    ∃ ws, (if c then b.setActive s i else .ok b) = .ok (b.setBits s ws) ∧
      ws.size = (b.bits s).size ∧
      ∀ j, Bitmap.IsSet ws j ↔ (c ∧ j = i) ∨ Bitmap.IsSet (b.bits s) j := by
  by_cases hc : c
  · refine ⟨Bitmap.setBit (b.bits s) i, ?_, by simp [Bitmap.setBit], fun j => ?_⟩
    · rw [if_pos hc, setActive_spec h]
    · rw [Bitmap.isSet_setBit h]
      simp [hc]
  · refine ⟨b.bits s, ?_, rfl, fun j => by simp [hc]⟩
    rw [if_neg hc, setBits_self]

/-- The end of `remove_node`'s work on a level: its bit is cleared when it becomes empty. -/
theorem deactivate_spec (c : Prop) [Decidable c] (h : i / 64 < (b.bits s).size) :
    ∃ ws, (if c then b.clearActive s i else .ok b) = .ok (b.setBits s ws) ∧
      ws.size = (b.bits s).size ∧
      ∀ j, Bitmap.IsSet ws j ↔ ¬ (c ∧ j = i) ∧ Bitmap.IsSet (b.bits s) j := by
  by_cases hc : c
  · refine ⟨Bitmap.clearBit (b.bits s) i, ?_, by simp [Bitmap.clearBit], fun j => ?_⟩
    · rw [if_pos hc, clearActive_spec h]
    · rw [Bitmap.isSet_clearBit h]
      simp [hc]
  · refine ⟨b.bits s, ?_, rfl, fun j => by simp [hc]⟩
    rw [if_neg hc, setBits_self]

end OrderBook

variable {b b' : OrderBook} {q : Queues} {s : Side} {i : ℕ} {n : UInt32}

theorem Core.word_lt (h : Core b q) (s : Side) (hi : i < b.priceCount) :
    i / 64 < (b.bits s).size := by
  rw [h.bits_size]
  omega

/-- A book whose only changed level is `i` of side `s`. -/
structure Touches (b b' : OrderBook) (s : Side) (i : ℕ) (level' : PriceLevel) : Prop where
  config : b'.config = b.config
  priceCount : b'.priceCount = b.priceCount
  levels : ∀ t, b'.levels t = if t = s then (b.levels s).setIfInBounds i level' else b.levels t
  bits_size : ∀ t, (b'.bits t).size = (b.bits t).size
  nodes_size : b'.nodes.size = b.nodes.size
  index_size : b'.orderIndex.entries.size = b.orderIndex.entries.size

theorem Touches.level {level' : PriceLevel} (ht : Touches b b' s i level') (h : Core b q)
    (hi : i < b.priceCount) (t : Side) (j : ℕ) :
    b'.level t j = if t = s ∧ j = i then level' else b.level t j := by
  have hlt := h.level_lt s hi
  rw [OrderBook.level, ht.levels]
  by_cases hs : t = s
  · subst hs
    rw [if_pos rfl, vecAt_set _ hlt]
    by_cases hj : j = i
    · rw [if_pos hj.symm, if_pos ⟨rfl, hj⟩]
    · rw [if_neg (Ne.symm hj), if_neg fun hc => hj hc.2, OrderBook.level]
  · rw [if_neg hs, if_neg fun hc => hs hc.1, OrderBook.level]

/-- **Changing one queue.** What is left to check when only one level of a book changes. -/
theorem Core.update {l : List UInt32} (h : Core b q) (hi : i < b.priceCount) (level' : PriceLevel)
    (ht : Touches b b' s i level')
    (hqueue : Queue b'.nodes s (b.config.indexPrice i) level' l)
    (hframe : ∀ t j, ¬ (t = s ∧ j = i) → ∀ m ∈ q t j, b'.node m = b.node m)
    (hactive : ∀ t j, Bitmap.IsSet (b'.bits t) j ↔ setQueue q s i l t j ≠ [])
    (hnodup : b'.freeNodes.Nodup)
    (hfree : ∀ m ∈ b'.freeNodes, m.toNat < b'.nodes.size ∧ b'.node m = {} ∧
      ∀ t j, m ∉ setQueue q s i l t j)
    (hcover : ∀ m : UInt32, m.toNat < b'.nodes.size →
      m ∈ b'.freeNodes ∨ ∃ t j, m ∈ setQueue q s i l t j)
    (hwf : b'.orderIndex.WF)
    (hindex : ∀ id m, b'.orderIndex.Has id m ↔
      ∃ t j, m ∈ setQueue q s i l t j ∧ (b'.node m).id = id)
    (hresting : b'.stats.restingOrders + b'.freeNodes.length = b'.nodes.size) :
    Core b' (setQueue q s i l) where
  checked := by rw [ht.config, ht.priceCount]; exact h.checked
  allocated := by rw [ht.priceCount]; exact h.allocated
  levels_size t := by
    rw [ht.levels, ht.priceCount]
    split_ifs
    · rw [Array.size_setIfInBounds, h.levels_size]
    · rw [h.levels_size]
  bits_size t := by rw [ht.bits_size, ht.priceCount, h.bits_size]
  nodes_size := by rw [ht.nodes_size, ht.config, h.nodes_size]
  queue t j hj := by
    rw [ht.priceCount] at hj
    rw [ht.config, ht.level h hi]
    by_cases htj : t = s ∧ j = i
    · obtain ⟨rfl, rfl⟩ := htj
      rw [if_pos ⟨rfl, rfl⟩, setQueue_self]
      exact hqueue
    · rw [if_neg htj, setQueue_of_ne q l htj]
      exact (h.queue t j hj).congr ht.nodes_size (hframe t j htj)
  outside t j hj := by
    rw [ht.priceCount] at hj
    rw [setQueue_of_ne q l (by rintro ⟨_, rfl⟩; omega), h.outside t j hj]
  active := hactive
  free_nodup := hnodup
  free := hfree
  cover := hcover
  index_wf := hwf
  index_size := by rw [ht.nodes_size, ht.index_size]; exact h.index_size
  index := hindex
  resting := hresting

section Rebuilt

variable {level' : PriceLevel} {ws : Array UInt64} {nodes' : Array OrderNode}
  {freeNodes' : List UInt32} {t' : FixedOrderIndex} {stats : BookStats}

theorem touches_rebuilt (hsize : nodes'.size = b.nodes.size) (hwsize : ws.size = (b.bits s).size)
    (hisize : t'.entries.size = b.orderIndex.entries.size) :
    Touches b (b.rebuilt s ((b.levels s).setIfInBounds i level') ws nodes' freeNodes' t' stats) s i
      level' := by
  refine ⟨by simp, by simp, fun t => OrderBook.rebuilt_levels .., fun t => ?_, hsize, hisize⟩
  rw [OrderBook.rebuilt_bits]
  split_ifs with hts
  · rw [hts, hwsize]
  · rfl

theorem Core.active_rebuilt (h : Core b q) {l : List UInt32} {ls : Array PriceLevel}
    (hwi : Bitmap.IsSet ws i ↔ l ≠ [])
    (hwj : ∀ j, j ≠ i → (Bitmap.IsSet ws j ↔ Bitmap.IsSet (b.bits s) j)) (t : Side) (j : ℕ) :
    Bitmap.IsSet ((b.rebuilt s ls ws nodes' freeNodes' t' stats).bits t) j ↔
      setQueue q s i l t j ≠ [] := by
  rw [OrderBook.rebuilt_bits]
  by_cases htj : t = s ∧ j = i
  · obtain ⟨rfl, rfl⟩ := htj
    rw [if_pos rfl, setQueue_self, hwi]
  · rw [setQueue_of_ne q _ htj, ← h.active]
    split_ifs with hts
    · subst hts
      exact hwj j fun hj => htj ⟨rfl, hj⟩
    · rfl

end Rebuilt

theorem mem_setQueue_append {t : Side} {j : ℕ} {m : UInt32} :
    m ∈ setQueue q s i (q s i ++ [n]) t j ↔ m ∈ q t j ∨ (m = n ∧ t = s ∧ j = i) := by
  by_cases htj : t = s ∧ j = i
  · obtain ⟨rfl, rfl⟩ := htj
    simp [setQueue_self]
  · simp [setQueue_of_ne q _ htj, htj]

/-- The level after a node with this quantity has been appended. -/
def PriceLevel.pushed (level : PriceLevel) (n : UInt32) (quantity : Quantity) : PriceLevel where
  head := if level.tail = invalidNode then n else level.head
  tail := n
  totalQuantity := level.totalQuantity + quantity
  count := level.count + 1

theorem Core.tail_mem (h : Core b q) (hi : i < b.priceCount)
    (ht : (b.level s i).tail ≠ invalidNode) : (b.level s i).tail ∈ q s i := by
  have hq := h.queue s i hi
  rw [ne_eq, hq.tail_eq_invalid (h.invalidNode_notMem s i)] at ht
  rw [hq.tail, List.getLastD_eq_getLast?, List.getLast?_eq_some_getLast ht]
  exact List.getLast_mem ht

theorem Core.length_append_lt (h : Core b q) (hn : n.toNat < b.nodes.size)
    (hnq : ∀ t j, n ∉ q t j) (hi : i < b.priceCount) : (q s i).length + 1 < 2 ^ 32 := by
  have hlen : (n :: q s i).length ≤ b.nodes.size := by
    refine length_le_of_nodup (List.nodup_cons.mpr ⟨hnq s i, (h.queue s i hi).nodup⟩) fun m hm => ?_
    rcases List.mem_cons.mp hm with rfl | hm
    · exact hn
    · exact h.node_lt hm
  have := h.nodes_size_le
  rw [List.length_cons] at hlen
  unfold uint32Max at this
  omega

/-- The links `add_resting` writes put a free node at the end of the queue of its level. -/
theorem Core.link_spec (h : Core b q) (hi : i < b.priceCount) (hn : n.toNat < b.nodes.size)
    (hnq : ∀ t j, n ∉ q t j) (node : OrderNode) (hs : node.side = s)
    (hp : node.price = b.config.indexPrice i) (hprev : node.previous = (b.level s i).tail)
    (hnext : node.next = invalidNode) :
    ∃ nodes', OrderBook.linkTail (b.nodes.setIfInBounds n.toNat node) (b.level s i) n =
        .ok (nodes', { b.level s i with
          head := if (b.level s i).tail = invalidNode then n else (b.level s i).head }) ∧
      nodes'.size = b.nodes.size ∧
      Queue nodes' s (b.config.indexPrice i) ((b.level s i).pushed n node.remaining) (q s i ++ [n]) ∧
      vecAt nodes' n.toNat = node ∧
      ∀ m, m ≠ n → ∃ next, vecAt nodes' m.toNat = { b.node m with next } ∧
        (m ∉ q s i → next = (b.node m).next) := by
  have hq := h.queue s i hi
  have hinv := h.invalidNode_notMem s i
  obtain ⟨nodes', hlink, hsize, hnodes⟩ := linkTail_spec
    (b.nodes.setIfInBounds n.toNat node) (b.level s i) n
    (fun ht => by rw [Array.size_setIfInBounds]; exact h.node_lt (h.tail_mem hi ht))
  rw [Array.size_setIfInBounds] at hsize
  have hat : ∀ m : UInt32, m ≠ n → vecAt nodes' m.toNat =
      if (b.level s i).tail ≠ invalidNode ∧ m = (b.level s i).tail then { b.node m with next := n }
      else b.node m := by
    intro m hm
    rw [hnodes, vecAt_set_node hn, if_neg hm]
    rfl
  have hatn : vecAt nodes' n.toNat = node := by
    rw [hnodes, if_neg, vecAt_set_node hn, if_pos rfl]
    rintro ⟨ht, he⟩
    exact hnq s i (he ▸ h.tail_mem hi ht)
  refine ⟨nodes', hlink, hsize, ?_, hatn, fun m hm => ?_⟩
  · refine hq.push hinv hsize (hnq s i) hn (h.length_append_lt hn hnq hi) hatn hs hp hprev hnext
      fun m hm => ?_
    rw [hat m (fun he => hnq s i (he ▸ hm))]
    have hne := h.ne_invalidNode hm
    by_cases hmt : m = (b.level s i).tail
    · rw [if_pos ⟨hmt ▸ hne, hmt⟩, if_pos hmt]; rfl
    · rw [if_neg fun hc => hmt hc.2, if_neg hmt]; rfl
  · rw [hat m hm]
    by_cases hmt : (b.level s i).tail ≠ invalidNode ∧ m = (b.level s i).tail
    · exact ⟨n, by rw [if_pos hmt], fun hm => absurd (hmt.2 ▸ h.tail_mem hi hmt.1) hm⟩
    · exact ⟨(b.node m).next, by rw [if_neg hmt], fun _ => rfl⟩

theorem Core.pushed_count (h : Core b q) (hi : i < b.priceCount) (quantity : Quantity) :
    ((b.level s i).pushed n quantity).count = 1 ↔ q s i = [] := by
  rw [← h.count_eq_zero hi, PriceLevel.pushed]
  constructor <;> intro hc
  · simpa using hc
  · simp [hc]

theorem Core.push_index (h : Core b q) (hnq : ∀ t j, n ∉ q t j) {node : OrderNode}
    {nodes' : Array OrderNode} {t' : FixedOrderIndex} (hatn : vecAt nodes' n.toNat = node)
    (hat : ∀ m : UInt32, m ≠ n → (vecAt nodes' m.toNat).id = (b.node m).id)
    (hhas : ∀ id m, t'.Has id m ↔ (id = node.id ∧ m = n) ∨ b.orderIndex.Has id m)
    (id : OrderId) (m : UInt32) :
    t'.Has id m ↔ ∃ t j, m ∈ setQueue q s i (q s i ++ [n]) t j ∧ (vecAt nodes' m.toNat).id = id := by
  simp only [hhas, h.index, mem_setQueue_append]
  by_cases hmn : m = n
  · subst hmn
    simp only [hatn, hnq, false_and, exists_false, or_false, false_or, and_true, true_and]
    constructor
    · exact fun he => ⟨s, i, ⟨rfl, rfl⟩, he.symm⟩
    · rintro ⟨_, _, _, he⟩
      exact he.symm
  · simp only [hat m hmn, hmn, and_false, false_and, false_or, or_false]

theorem Core.push (h : Core b q) (hi : i < b.priceCount) {rest : List UInt32}
    (hfree : b.freeNodes = n :: rest) {node : OrderNode} {nodes' : Array OrderNode}
    {level' : PriceLevel} {ws : Array UInt64} {t' : FixedOrderIndex} (stats : BookStats)
    (hsize : nodes'.size = b.nodes.size)
    (hqueue : Queue nodes' s (b.config.indexPrice i) level' (q s i ++ [n]))
    (hatn : vecAt nodes' n.toNat = node)
    (hat : ∀ m, m ≠ n → ∃ next, vecAt nodes' m.toNat = { b.node m with next } ∧
      (m ∉ q s i → next = (b.node m).next))
    (hwsize : ws.size = (b.bits s).size)
    (hwset : ∀ j, Bitmap.IsSet ws j ↔ (q s i = [] ∧ j = i) ∨ Bitmap.IsSet (b.bits s) j)
    (hwf : t'.WF) (hisize : t'.entries.size = b.orderIndex.entries.size)
    (hhas : ∀ id m, t'.Has id m ↔ (id = node.id ∧ m = n) ∨ b.orderIndex.Has id m)
    (hstats : stats.restingOrders = b.stats.restingOrders + 1) :
    Core (b.rebuilt s ((b.levels s).setIfInBounds i level') ws nodes' rest t' stats)
      (setQueue q s i (q s i ++ [n])) := by
  obtain ⟨hn, -, hnq⟩ := h.free n (by rw [hfree]; simp)
  have hnodup := h.free_nodup
  rw [hfree, List.nodup_cons] at hnodup
  have hid : ∀ m, m ≠ n → (vecAt nodes' m.toNat).id = (b.node m).id := by
    intro m hm
    obtain ⟨next, hnext, -⟩ := hat m hm
    rw [hnext]
  refine h.update hi level' (touches_rebuilt hsize hwsize hisize) hqueue (fun t j htj m hm => ?_)
    (h.active_rebuilt ?_ fun j hj => ?_) hnodup.2 (fun m hm => ?_) (fun m hm => ?_) hwf
    (h.push_index hnq hatn hid hhas) ?_
  · obtain ⟨next, hnext, hsame⟩ := hat m fun he => hnq t j (he ▸ hm)
    rw [OrderBook.rebuilt_node, hnext, hsame fun hm' => htj (h.queue_unique hm' hm)]
  · rw [hwset]
    simp only [and_true, ne_eq, List.append_eq_nil_iff, List.cons_ne_self, and_false,
      not_false_eq_true, iff_true]
    exact (em _).imp_right (h.active _ _).mpr
  · rw [hwset]
    exact or_iff_right fun hc => hj hc.2
  · have hmn : m ≠ n := fun he => hnodup.1 (he ▸ hm)
    obtain ⟨hlt, hdef, hnot⟩ := h.free m (by rw [hfree]; exact List.mem_cons_of_mem _ hm)
    obtain ⟨next, hnext, hsame⟩ := hat m hmn
    refine ⟨hsize ▸ hlt, ?_, fun t j hmem => ?_⟩
    · rw [OrderBook.rebuilt_node, hnext, hsame (hnot _ _)]
      exact hdef
    · rcases mem_setQueue_append.mp hmem with hmem | ⟨he, -⟩
      · exact hnot t j hmem
      · exact hmn he
  · rcases h.cover m (hsize ▸ hm) with hf | ⟨t, j, hmem⟩
    · rw [hfree] at hf
      rcases List.mem_cons.mp hf with rfl | hf
      · exact Or.inr ⟨s, i, mem_setQueue_append.mpr (Or.inr ⟨rfl, rfl, rfl⟩)⟩
      · exact Or.inl hf
    · exact Or.inr ⟨t, j, mem_setQueue_append.mpr (Or.inl hmem)⟩
  · have := h.resting
    rw [hfree, List.length_cons] at this
    show stats.restingOrders + rest.length = nodes'.size
    omega

/-- **Adding a resting order.** -/
theorem Core.addResting (h : Core b q) {id : OrderId} {price : Price} (quantity : Quantity)
    (priority : Sequence) {rest : List UInt32} (events : List Event) (hv : b.config.validPrice price)
    (hid : ∀ m, ¬ b.orderIndex.Has id m) (hfree : b.freeNodes = n :: rest) :
    ∃ b', b.addResting id s price quantity priority events = .ok (b', emit events .rested
        ⟨priority, .new, s, .limit, 0, id, price, quantity⟩ 0 price quantity .none) ∧
      Core b' (setQueue q s (b.config.priceIndex price) (q s (b.config.priceIndex price) ++ [n])) ∧
      b'.config = b.config ∧ b'.freeNodes = rest ∧
      b'.stats = { b.stats with restingOrders := b.stats.restingOrders + 1 } ∧
      b.orderIndex.insert id n = .ok (true, b'.orderIndex) ∧
      OrderBook.restingOrder (b'.node n) = ⟨id, s, price, quantity, priority⟩ ∧
      ∀ m, m ≠ n → OrderBook.restingOrder (b'.node m) = OrderBook.restingOrder (b.node m) := by
  obtain ⟨hn, -, hnq⟩ := h.free n (by rw [hfree]; simp)
  have hi := h.ladder.priceIndex_lt hv
  have hprice := h.ladder.indexPrice_priceIndex hv
  generalize hidef : b.config.priceIndex price = i at hi hprice ⊢
  have hlevels := h.level_lt s hi
  obtain ⟨node, hnode⟩ : ∃ node : OrderNode, node =
    { id, price, remaining := quantity, priority, previous := (b.level s i).tail, side := s } :=
    ⟨_, rfl⟩
  obtain ⟨nodes', hlink, hsize, hqueue, hatn, hat⟩ := h.link_spec (s := s) hi hn hnq
    node (by rw [hnode]) (by rw [hnode, hprice]) (by rw [hnode]) (by rw [hnode])
  have hlevel : (b.level s i).pushed n node.remaining =
      { head := if (b.level s i).tail = invalidNode then n else (b.level s i).head
        tail := n
        totalQuantity := (b.level s i).totalQuantity + quantity
        count := (b.level s i).count + 1 } := by rw [hnode]; rfl
  obtain ⟨ws, hws, hwsize, hwset⟩ := OrderBook.activate_spec
    (b := { b with nodes := nodes', freeNodes := rest }.setLevels s
      ((b.levels s).setIfInBounds i ((b.level s i).pushed n node.remaining))) (s := s)
    ((b.level s i).count + 1 = 1) (by rw [OrderBook.setLevels_bits]; exact h.word_lt s hi)
  rw [OrderBook.setLevels_bits] at hwsize hwset
  simp only [show (b.level s i).count + 1 = 1 ↔ q s i = [] from h.pushed_count (n := n) hi 0] at hwset
  obtain ⟨t', hins, hwf, hisize, hhas⟩ := h.index_wf.insert_spec hid h.index_room n
  have hcore := h.push hi hfree { b.stats with restingOrders := b.stats.restingOrders + 1 } hsize
    hqueue hatn hat hwsize hwset hwf hisize (by rw [hnode]; exact hhas) rfl
  refine ⟨_, ?_, hcore, by simp, rfl, rfl, hins, ?_, fun m hm => ?_⟩
  · rw [OrderBook.addResting, hfree]
    simp only [hidef, vecGet_eq hlevels, bind, Except.bind, vecSet_eq hn]
    rw [← OrderBook.level, ← hnode, hlink]
    simp only [vecSet_eq hlevels]
    rw [← hlevel, hws]
    simp only [OrderBook.setBits_orderIndex, OrderBook.setLevels_orderIndex, hins]
    cases s <;> rfl
  · rw [OrderBook.rebuilt_node, hatn, hnode]; rfl
  · obtain ⟨next, hnext, -⟩ := hat m hm
    rw [OrderBook.rebuilt_node, hnext]; rfl

/-! ## Removal -/

/-- The level after this node of its queue has been unlinked. -/
def PriceLevel.unlinked (level : PriceLevel) (node : OrderNode) : PriceLevel where
  head := if node.previous = invalidNode then node.next else level.head
  tail := if node.next = invalidNode then node.previous else level.tail
  totalQuantity := level.totalQuantity - node.remaining
  count := level.count - 1

theorem erase_of_split {l l₁ l₂ : List UInt32} (hd : l.Nodup) (hl : l = l₁ ++ n :: l₂) :
    l.erase n = l₁ ++ l₂ := by
  rw [hl, List.nodup_append] at hd
  rw [hl, List.erase_append_right _ fun hm => hd.2.2 n hm n (by simp) rfl, List.erase_cons_head]

theorem Core.links_mem (h : Core b q) (hn : n ∈ q s i) :
    ((b.node n).previous ≠ invalidNode → (b.node n).previous ∈ (q s i).erase n) ∧
      ((b.node n).next ≠ invalidNode → (b.node n).next ∈ (q s i).erase n) := by
  have hq := h.queue_of_mem hn
  obtain ⟨l₁, l₂, hl⟩ := List.append_of_mem hn
  rw [erase_of_split hq.nodup hl]
  rw [hl] at hq
  obtain ⟨hp, hx⟩ := hq.neighbours
  refine ⟨fun hne => ?_, fun hne => ?_⟩
  · rw [OrderBook.node, hp] at hne ⊢
    rcases List.eq_nil_or_concat l₁ with rfl | ⟨l, a, rfl⟩
    · exact absurd rfl hne
    · rw [List.concat_eq_append, List.getLastD_concat]
      simp
  · rw [OrderBook.node, hx] at hne ⊢
    cases l₂ with
    | nil => exact absurd rfl hne
    | cons a l => simp

/-- The links `remove_node` writes take a node out of the queue of its level. -/
theorem Core.unlink_spec (h : Core b q) (hn : n ∈ q s i) :
    ∃ nodes₁ nodes₂ level₁, OrderBook.unlinkPrevious b.nodes (b.level s i) (b.node n) =
        .ok (nodes₁, level₁) ∧
      nodes₁.size = b.nodes.size ∧ vecAt nodes₁ n.toNat = b.node n ∧
      OrderBook.unlinkNext nodes₁ level₁ (b.node n) = .ok (nodes₂,
        { (b.level s i).unlinked (b.node n) with
          totalQuantity := (b.level s i).totalQuantity
          count := (b.level s i).count }) ∧
      nodes₂.size = b.nodes.size ∧ vecAt nodes₂ n.toNat = b.node n ∧
      Queue (nodes₂.setIfInBounds n.toNat {}) s (b.config.indexPrice i)
        ((b.level s i).unlinked (b.node n)) ((q s i).erase n) ∧
      ∀ m, m ≠ n → ∃ next previous, vecAt nodes₂ m.toNat = { b.node m with next, previous } ∧
        (m ∉ q s i → next = (b.node m).next ∧ previous = (b.node m).previous) := by
  have hq := h.queue_of_mem hn
  have hlt := h.node_lt hn
  obtain ⟨hprev, hnext⟩ := h.links_mem hn
  have hmem : ∀ {m}, m ∈ (q s i).erase n → m ∈ q s i ∧ m ≠ n := fun hm =>
    ⟨List.mem_of_mem_erase hm, fun he => hq.nodup.not_mem_erase (he ▸ hm)⟩
  obtain ⟨nodes₁, h₁, hsize₁, hat₁⟩ := unlinkPrevious_spec b.nodes (b.level s i)
    (b.node n) fun hne => h.node_lt (hmem (hprev hne)).1
  obtain ⟨nodes₂, h₂, hsize₂, hat₂⟩ := unlinkNext_spec nodes₁
    { b.level s i with head :=
      if (b.node n).previous = invalidNode then (b.node n).next else (b.level s i).head }
    (b.node n) fun hne => by rw [hsize₁]; exact h.node_lt (hmem (hnext hne)).1
  have hn₁ : vecAt nodes₁ n.toNat = b.node n := by
    rw [hat₁, if_neg fun hc => (hmem (hprev hc.1)).2 hc.2.symm]
    rfl
  have hn₂ : vecAt nodes₂ n.toNat = b.node n := by
    rw [hat₂, if_neg fun hc => (hmem (hnext hc.1)).2 hc.2.symm, hn₁]
  have hat : ∀ m : UInt32, vecAt nodes₂ m.toNat = { b.node m with
      next := if (b.node n).previous ≠ invalidNode ∧ m = (b.node n).previous then (b.node n).next
        else (b.node m).next
      previous := if (b.node n).next ≠ invalidNode ∧ m = (b.node n).next then (b.node n).previous
        else (b.node m).previous } := by
    intro m
    rw [hat₂, hat₁]
    split_ifs <;> rfl
  refine ⟨nodes₁, nodes₂, _, h₁, hsize₁, hn₁, h₂, hsize₂.trans hsize₁, hn₂, ?_, fun m hm =>
    ⟨_, _, hat m, fun hmq => ⟨if_neg fun hc => ?_, if_neg fun hc => ?_⟩⟩⟩
  · obtain ⟨l₁, l₂, hl⟩ := List.append_of_mem hn
    rw [erase_of_split hq.nodup hl]
    rw [hl] at hq
    refine hq.remove (hl ▸ h.invalidNode_notMem s i) (by simp [hsize₂, hsize₁]) fun m hm => ?_
    obtain ⟨hmq, hmn⟩ : m ∈ q s i ∧ m ≠ n :=
      hmem (by rw [erase_of_split (h.queue_of_mem hn).nodup hl]; exact hm)
    have hne := h.ne_invalidNode hmq
    rw [vecAt_set_node (by rw [hsize₂, hsize₁]; exact hlt), if_neg hmn, hat]
    have hp : ((b.node n).previous ≠ invalidNode ∧ m = (b.node n).previous) ↔
        m = (b.node n).previous := ⟨And.right, fun he => ⟨he ▸ hne, he⟩⟩
    have hx : ((b.node n).next ≠ invalidNode ∧ m = (b.node n).next) ↔
        m = (b.node n).next := ⟨And.right, fun he => ⟨he ▸ hne, he⟩⟩
    simp only [hp, hx]
    rfl
  · exact hmq (hc.2 ▸ (hmem (hprev hc.1)).1)
  · exact hmq (hc.2 ▸ (hmem (hnext hc.1)).1)

theorem mem_setQueue_erase (hd : (q s i).Nodup) {t : Side} {j : ℕ} {m : UInt32} :
    m ∈ setQueue q s i ((q s i).erase n) t j ↔ m ∈ q t j ∧ ¬ (m = n ∧ t = s ∧ j = i) := by
  by_cases htj : t = s ∧ j = i
  · obtain ⟨rfl, rfl⟩ := htj
    rw [setQueue_self, hd.mem_erase_iff]
    tauto
  · simp [setQueue_of_ne q _ htj, htj]

theorem Core.unlinked_count (h : Core b q) (hn : n ∈ q s i) :
    (b.level s i).count ≠ 0 ∧ ((b.level s i).count - 1 = 0 ↔ (q s i).erase n = []) := by
  have hc := (h.queue_of_mem hn).count
  have hpos := List.length_pos_of_mem hn
  have hne : (b.level s i).count ≠ 0 := fun h0 => by
    rw [h0] at hc
    exact absurd hc.symm (by simpa using Nat.ne_of_gt hpos)
  have hle : (1 : UInt32) ≤ (b.level s i).count := by
    rw [UInt32.le_iff_toNat_le, hc, UInt32.toNat_one]
    exact hpos
  refine ⟨hne, ?_⟩
  rw [← List.length_eq_zero_iff, List.length_erase_of_mem hn, ← UInt32.toNat_inj,
    UInt32.toNat_sub_of_le _ _ hle, hc]
  rfl

theorem Core.pull_index (h : Core b q) (hn : n ∈ q s i) {nodes' : Array OrderNode}
    {t' : FixedOrderIndex} (hat : ∀ m : UInt32, m ≠ n → (vecAt nodes' m.toNat).id = (b.node m).id)
    (hhas : ∀ id m, t'.Has id m ↔ id ≠ (b.node n).id ∧ b.orderIndex.Has id m)
    (id : OrderId) (m : UInt32) :
    t'.Has id m ↔
      ∃ t j, m ∈ setQueue q s i ((q s i).erase n) t j ∧ (vecAt nodes' m.toNat).id = id := by
  simp only [hhas, h.index, mem_setQueue_erase (h.queue_of_mem hn).nodup]
  constructor
  · rintro ⟨hid, t, j, hm, rfl⟩
    have hmn : m ≠ n := fun he => hid (by rw [he])
    exact ⟨t, j, ⟨hm, fun hc => hmn hc.1⟩, hat m hmn⟩
  · rintro ⟨t, j, ⟨hm, hnot⟩, rfl⟩
    have hmn : m ≠ n := by
      rintro rfl
      exact hnot ⟨rfl, h.queue_unique hn hm⟩
    exact ⟨fun hid => hmn (h.id_unique hm hn (by rw [← hid, hat m hmn])), t, j, hm, (hat m hmn).symm⟩

theorem Core.pull (h : Core b q) (hn : n ∈ q s i) (nodes' : Array OrderNode) {level' : PriceLevel}
    {ws : Array UInt64} {t' : FixedOrderIndex} (stats : BookStats)
    (hsize : nodes'.size = b.nodes.size)
    (hqueue : Queue nodes' s (b.config.indexPrice i) level' ((q s i).erase n))
    (hatn : vecAt nodes' n.toNat = {})
    (hat : ∀ m, m ≠ n → ∃ next previous, vecAt nodes' m.toNat = { b.node m with next, previous } ∧
      (m ∉ q s i → next = (b.node m).next ∧ previous = (b.node m).previous))
    (hwsize : ws.size = (b.bits s).size)
    (hwset : ∀ j, Bitmap.IsSet ws j ↔
      ¬ ((q s i).erase n = [] ∧ j = i) ∧ Bitmap.IsSet (b.bits s) j)
    (hwf : t'.WF) (hisize : t'.entries.size = b.orderIndex.entries.size)
    (hhas : ∀ id m, t'.Has id m ↔ id ≠ (b.node n).id ∧ b.orderIndex.Has id m)
    (hstats : stats.restingOrders + 1 = b.stats.restingOrders) :
    Core (b.rebuilt s ((b.levels s).setIfInBounds i level') ws nodes' (n :: b.freeNodes) t' stats)
      (setQueue q s i ((q s i).erase n)) := by
  have hi := h.lt_of_mem hn
  have hnd := (h.queue_of_mem hn).nodup
  have hsame : ∀ m, m ≠ n → m ∉ q s i → vecAt nodes' m.toNat = b.node m := by
    intro m hmn hmq
    obtain ⟨next, previous, hm, hlinks⟩ := hat m hmn
    obtain ⟨h₁, h₂⟩ := hlinks hmq
    rw [hm, h₁, h₂]
  have hnfree : n ∉ b.freeNodes := fun hf => (h.free n hf).2.2 s i hn
  have hid : ∀ m, m ≠ n → (vecAt nodes' m.toNat).id = (b.node m).id := by
    intro m hm
    obtain ⟨next, previous, hnode, -⟩ := hat m hm
    rw [hnode]
  refine h.update hi level' (touches_rebuilt hsize hwsize hisize) hqueue (fun t j htj m hm => ?_)
    (h.active_rebuilt ?_ fun j hj => ?_) (List.nodup_cons.mpr ⟨hnfree, h.free_nodup⟩)
    (fun m hm => ?_) (fun m hm => ?_) hwf (h.pull_index hn hid hhas) ?_
  · rw [OrderBook.rebuilt_node]
    refine hsame m (fun he => htj ?_) fun hm' => htj (h.queue_unique hm' hm)
    exact h.queue_unique hn (he ▸ hm)
  · rw [hwset, h.active]
    simp only [and_true, and_iff_left_iff_imp]
    exact fun _ => List.ne_nil_of_mem hn
  · rw [hwset]
    exact and_iff_right fun hc => hj hc.2
  · rcases List.mem_cons.mp hm with rfl | hm
    · refine ⟨hsize ▸ h.node_lt hn, hatn, fun t j hmem => ?_⟩
      obtain ⟨hmem, hnot⟩ := (mem_setQueue_erase hnd).mp hmem
      exact hnot ⟨rfl, h.queue_unique hn hmem⟩
    · obtain ⟨hlt, hdef, hnot⟩ := h.free m hm
      refine ⟨hsize ▸ hlt, ?_, fun t j hmem => hnot t j ((mem_setQueue_erase hnd).mp hmem).1⟩
      rw [OrderBook.rebuilt_node, hsame m (fun he => hnfree (he ▸ hm)) (hnot s i)]
      exact hdef
  · by_cases hmn : m = n
    · exact Or.inl (hmn ▸ List.mem_cons_self)
    · refine (h.cover m (hsize ▸ hm)).imp (List.mem_cons_of_mem n) ?_
      rintro ⟨t, j, hmem⟩
      exact ⟨t, j, (mem_setQueue_erase hnd).mpr ⟨hmem, fun hc => hmn hc.1⟩⟩
  · have := h.resting
    show stats.restingOrders + (n :: b.freeNodes).length = nodes'.size
    rw [List.length_cons]
    omega

theorem Core.resting_pos (h : Core b q) (hn : n ∈ q s i) : 0 < b.stats.restingOrders := by
  have hlen : (n :: b.freeNodes).length ≤ b.nodes.size := by
    refine length_le_of_nodup (List.nodup_cons.mpr ⟨fun hf => (h.free n hf).2.2 s i hn,
      h.free_nodup⟩) fun m hm => ?_
    rcases List.mem_cons.mp hm with rfl | hm
    · exact h.node_lt hn
    · exact (h.free m hm).1
  have := h.resting
  rw [List.length_cons] at hlen
  omega

/-- **Removing a resting order.** -/
theorem Core.removeNode (h : Core b q) (hn : n ∈ q s i) :
    ∃ b', b.removeNode n = .ok b' ∧ Core b' (setQueue q s i ((q s i).erase n)) ∧
      b'.config = b.config ∧ b'.freeNodes = n :: b.freeNodes ∧
      b'.stats = { b.stats with restingOrders := b.stats.restingOrders - 1 } ∧
      b.orderIndex.erase (b.node n).id = .ok (true, b'.orderIndex) ∧
      ∀ m, m ≠ n → OrderBook.restingOrder (b'.node m) = OrderBook.restingOrder (b.node m) := by
  have hi := h.lt_of_mem hn
  have hlt := h.node_lt hn
  have hside := h.node_side hn
  have hprice := h.priceIndex_node hn
  have hlevels := h.level_lt s hi
  obtain ⟨nodes₁, nodes₂, level₁, h₁, hsize₁, hn₁, h₂, hsize₂, hn₂, hqueue, hat⟩ := h.unlink_spec hn
  obtain ⟨hcount, hzero⟩ := h.unlinked_count hn
  have hpos := h.resting_pos hn
  obtain ⟨ws, hws, hwsize, hwset⟩ := OrderBook.deactivate_spec
    (b := { b with nodes := nodes₂ }.setLevels s
      ((b.levels s).setIfInBounds i ((b.level s i).unlinked (b.node n)))) (s := s)
    ((b.level s i).count - 1 = 0) (by rw [OrderBook.setLevels_bits]; exact h.word_lt s hi)
  rw [OrderBook.setLevels_bits] at hwsize hwset
  simp only [hzero] at hwset
  obtain ⟨t', her, hwf, hisize, hhas⟩ :=
    h.index_wf.erase_spec ((h.index (b.node n).id n).mpr ⟨s, i, hn, rfl⟩)
  have hcore := h.pull hn (nodes₂.setIfInBounds n.toNat {})
    { b.stats with restingOrders := b.stats.restingOrders - 1 } (by simp [hsize₂]) hqueue
    (by rw [vecAt_set_node (by omega), if_pos rfl])
    (fun m hm => by rw [vecAt_set_node (by omega), if_neg hm]; exact hat m hm)
    hwsize hwset hwf hisize hhas (Nat.sub_add_cancel hpos)
  refine ⟨_, ?_, hcore, by simp, rfl, rfl, her, fun m hm => ?_⟩
  · rw [OrderBook.removeNode]
    have hg₁ : vecGet nodes₁ n.toNat = .ok (b.node n) := by rw [vecGet_eq (by omega), hn₁]
    have hg₂ : vecGet nodes₂ n.toNat = .ok (b.node n) := by rw [vecGet_eq (by omega), hn₂]
    simp only [h.getNode hn, bind, Except.bind, hside, hprice, h.getLevel s hi, h₁, hg₁, h₂, hg₂,
      hcount, if_false, vecSet_eq hlevels]
    have hlevel : (b.level s i).unlinked (b.node n) =
        { (b.level s i).unlinked (b.node n) with
          totalQuantity := (b.level s i).totalQuantity - (b.node n).remaining
          count := (b.level s i).count - 1 } := rfl
    rw [← hlevel, hws]
    simp only [OrderBook.setBits_orderIndex, OrderBook.setLevels_orderIndex, her,
      OrderBook.setBits_nodes, OrderBook.setLevels_nodes, OrderBook.setBits_stats,
      vecSet_eq (hsize₂ ▸ hlt : n.toNat < nodes₂.size), OrderBook.setLevels_stats,
      Nat.ne_of_gt hpos, if_false]
    cases s <;> rfl
  · rw [OrderBook.rebuilt_node, vecAt_set_node (by omega), if_neg hm]
    obtain ⟨next, previous, hnode, -⟩ := hat m hm
    rw [hnode]; rfl

end Dme
