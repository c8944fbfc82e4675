import MatchingEngine.OrderBook
import MatchingEngine.IndexMap
import MatchingEngine.Lib.Linked

/-!
# The representation invariant

`q s i` is the queue of level `i` of side `s`, as the list of its arena nodes from head to tail.

* `Queue`: a level, its links, its counters and its nodes agree with one such list.
* **`Core b q`**: the ladders, bitmaps, arena, free stack, order-id index and resting counter of
  `b` all describe the queues `q`. `Inv` adds that no resting order is used up.
* `setQueue`, `Core.queue_unique`; `Inv.new`, `OrderBook.new_isOk`: a new book.
-/

set_option autoImplicit false

namespace Dme

/-- The queues of a book, by side and level. -/
abbrev Queues := Side → ℕ → List UInt32

/-- The queues with one of them replaced. -/
def setQueue (q : Queues) (s : Side) (i : ℕ) (l : List UInt32) : Queues :=
  Function.update q s (Function.update (q s) i l)

theorem setQueue_self (q : Queues) (s : Side) (i : ℕ) (l : List UInt32) : setQueue q s i l s i = l := by
  simp [setQueue]

theorem setQueue_of_ne (q : Queues) {s s' : Side} {i i' : ℕ} (l : List UInt32)
    (h : ¬ (s' = s ∧ i' = i)) : setQueue q s i l s' i' = q s' i' := by
  unfold setQueue
  by_cases hs : s' = s
  · subst hs
    rw [Function.update_self, Function.update_of_ne fun hi => h ⟨rfl, hi⟩]
  · rw [Function.update_of_ne hs]

theorem setQueue_setQueue (q : Queues) (s : Side) (i : ℕ) (l l' : List UInt32) :
    setQueue (setQueue q s i l) s i l' = setQueue q s i l' := by
  simp [setQueue]

theorem setQueue_side (q : Queues) {s s' : Side} (i : ℕ) (l : List UInt32) (h : s' ≠ s) :
    setQueue q s i l s' = q s' := by
  unfold setQueue
  rw [Function.update_of_ne h]

namespace OrderBook

/-- The node with index `n`. -/
def node (b : OrderBook) (n : UInt32) : OrderNode := vecAt b.nodes n.toNat

/-- The level `i` of a side. -/
def level (b : OrderBook) (s : Side) (i : ℕ) : PriceLevel := vecAt (b.levels s) i

end OrderBook

/-- **A level and its queue**: the nodes `l` of an arena, from head to tail. -/
structure Queue (nodes : Array OrderNode) (s : Side) (p : Price) (level : PriceLevel)
    (l : List UInt32) : Prop where
  head : level.head = l.headD invalidNode
  tail : level.tail = l.getLastD invalidNode
  count : level.count.toNat = l.length
  total : level.totalQuantity = (l.map fun n => (vecAt nodes n.toNat).remaining).sum
  linked : Linked.Seg (fun n : UInt32 => (vecAt nodes n.toNat).next)
    (fun n : UInt32 => (vecAt nodes n.toNat).previous) invalidNode l invalidNode
  nodup : l.Nodup
  node : ∀ n ∈ l, n.toNat < nodes.size ∧ (vecAt nodes n.toNat).side = s ∧
    (vecAt nodes n.toNat).price = p

/-- **The structure of a book with queues `q`.** -/
structure Core (b : OrderBook) (q : Queues) : Prop where
  checked : checkedPriceCount b.config = .ok b.priceCount
  allocated : b.priceCount ≤ maxSize 24
  levels_size : ∀ s, (b.levels s).size = b.priceCount
  bits_size : ∀ s, (b.bits s).size = (b.priceCount + 63) / 64
  nodes_size : b.nodes.size = b.config.maximumOrders.toNat
  queue : ∀ s, ∀ i < b.priceCount, Queue b.nodes s (b.config.indexPrice i) (b.level s i) (q s i)
  outside : ∀ s i, b.priceCount ≤ i → q s i = []
  active : ∀ s i, Bitmap.IsSet (b.bits s) i ↔ q s i ≠ []
  free_nodup : b.freeNodes.Nodup
  free : ∀ n ∈ b.freeNodes, n.toNat < b.nodes.size ∧ b.node n = {} ∧ ∀ s i, n ∉ q s i
  cover : ∀ n : UInt32, n.toNat < b.nodes.size → n ∈ b.freeNodes ∨ ∃ s i, n ∈ q s i
  index_wf : b.orderIndex.WF
  index_size : b.nodes.size * 2 ≤ b.orderIndex.entries.size
  index : ∀ id n, b.orderIndex.Has id n ↔ ∃ s i, n ∈ q s i ∧ (b.node n).id = id
  resting : b.stats.restingOrders + b.freeNodes.length = b.nodes.size

/-- **The representation invariant.** -/
structure Inv (b : OrderBook) (q : Queues) : Prop extends Core b q where
  positive : ∀ s i, ∀ n ∈ q s i, (b.node n).remaining ≠ 0

section Core

variable {b : OrderBook} {q : Queues} {s s' : Side} {i i' : ℕ} {n m : UInt32}

theorem Core.ladder (h : Core b q) : Ladder b.config b.priceCount := ladder_of_checked h.checked

theorem Core.lt_of_mem (h : Core b q) (hn : n ∈ q s i) : i < b.priceCount := by
  by_contra hi
  rw [h.outside s i (by omega)] at hn
  cases hn

theorem Core.queue_of_mem (h : Core b q) (hn : n ∈ q s i) :
    Queue b.nodes s (b.config.indexPrice i) (b.level s i) (q s i) := h.queue s i (h.lt_of_mem hn)

theorem Core.node_lt (h : Core b q) (hn : n ∈ q s i) : n.toNat < b.nodes.size :=
  ((h.queue_of_mem hn).node n hn).1

theorem Core.node_side (h : Core b q) (hn : n ∈ q s i) : (b.node n).side = s :=
  ((h.queue_of_mem hn).node n hn).2.1

theorem Core.node_price (h : Core b q) (hn : n ∈ q s i) :
    (b.node n).price = b.config.indexPrice i := ((h.queue_of_mem hn).node n hn).2.2

theorem Core.level_lt (h : Core b q) (s : Side) (hi : i < b.priceCount) : i < (b.levels s).size := by
  rw [h.levels_size]
  exact hi

theorem Core.getLevel (h : Core b q) (s : Side) (hi : i < b.priceCount) :
    vecGet (b.levels s) i = .ok (b.level s i) := vecGet_eq (h.level_lt s hi)

theorem Core.getNode (h : Core b q) (hn : n ∈ q s i) : vecGet b.nodes n.toNat = .ok (b.node n) :=
  vecGet_eq (h.node_lt hn)

theorem Core.priceIndex_node (h : Core b q) (hn : n ∈ q s i) :
    b.config.priceIndex (b.node n).price = i := by
  rw [h.node_price hn, h.ladder.priceIndex_indexPrice (h.lt_of_mem hn)]

/-- **A node is in one queue only.** -/
theorem Core.queue_unique (h : Core b q) (hn : n ∈ q s i) (hn' : n ∈ q s' i') : s' = s ∧ i' = i :=
  ⟨by rw [← h.node_side hn, h.node_side hn'],
    by rw [← h.priceIndex_node hn, h.priceIndex_node hn']⟩

theorem Core.nodes_size_le (h : Core b q) : b.nodes.size ≤ uint32Max := by
  rw [h.nodes_size]
  exact h.ladder.orders_le

theorem ne_invalidNode_of_lt {k : ℕ} (hk : k ≤ uint32Max) (hn : n.toNat < k) : n ≠ invalidNode := by
  rintro rfl
  have : invalidNode.toNat = uint32Max := by decide
  omega

theorem Core.ne_invalidNode (h : Core b q) (hn : n ∈ q s i) : n ≠ invalidNode :=
  ne_invalidNode_of_lt h.nodes_size_le (h.node_lt hn)

theorem Core.invalidNode_notMem (h : Core b q) (s : Side) (i : ℕ) : invalidNode ∉ q s i :=
  fun hn => h.ne_invalidNode hn rfl

theorem Core.count_eq_zero (h : Core b q) (hi : i < b.priceCount) :
    (b.level s i).count = 0 ↔ q s i = [] := by
  rw [← List.length_eq_zero_iff, ← (h.queue s i hi).count, ← UInt32.toNat_inj]
  rfl

theorem Core.total_eq (h : Core b q) (hi : i < b.priceCount) :
    (b.level s i).totalQuantity = ((q s i).map fun n => (b.node n).remaining).sum :=
  (h.queue s i hi).total

theorem Core.id_unique (h : Core b q) (hn : n ∈ q s i) (hm : m ∈ q s' i')
    (hid : (b.node n).id = (b.node m).id) : n = m :=
  h.index_wf.has_unique ((h.index _ n).mpr ⟨s, i, hn, rfl⟩) ((h.index _ m).mpr ⟨s', i', hm, hid.symm⟩)

theorem length_le_of_nodup {l : List UInt32} {k : ℕ} (hd : l.Nodup) (hlt : ∀ n ∈ l, n.toNat < k) :
    l.length ≤ k := by
  have hnd : (l.map UInt32.toNat).Nodup := hd.map fun a b hab => UInt32.toNat_inj.mp hab
  have hsub : l.map UInt32.toNat ⊆ List.range k := by
    intro x hx
    obtain ⟨n, hn, rfl⟩ := List.mem_map.mp hx
    exact List.mem_range.mpr (hlt n hn)
  simpa using (hnd.subperm hsub).length_le

theorem Core.index_room (h : Core b q) :
    ∃ p < b.orderIndex.entries.size, b.orderIndex.slots p = none := by
  by_contra hc
  push Not at hc
  have hval : ∀ p < b.orderIndex.entries.size, ∃ id n, b.orderIndex.slots p = some (id, n) := by
    intro p hp
    obtain ⟨e, he⟩ := Option.ne_none_iff_exists'.mp (hc p hp)
    exact ⟨e.1, e.2, he⟩
  -- a full table would have more entries than the arena has nodes
  have hmaps : ∀ p ∈ Finset.range b.orderIndex.entries.size,
      ((b.orderIndex.slots p).map fun e => e.2.toNat).getD 0 ∈ Finset.range b.nodes.size := by
    intro p hp
    obtain ⟨id, n, he⟩ := hval p (Finset.mem_range.mp hp)
    obtain ⟨s, i, hn, _⟩ := (h.index id n).mp ⟨p, Finset.mem_range.mp hp, he⟩
    rw [he]
    exact Finset.mem_range.mpr (h.node_lt hn)
  have hsize := h.index_size
  have hpos : 0 < b.nodes.size := by rw [h.nodes_size]; exact h.ladder.orders_pos
  obtain ⟨p, hp, p', hp', hne, heq⟩ := Finset.exists_ne_map_eq_of_card_lt_of_maps_to
    (by simp only [Finset.card_range]; omega) hmaps
  rw [Finset.mem_range] at hp hp'
  obtain ⟨id, n, he⟩ := hval p hp
  obtain ⟨id', n', he'⟩ := hval p' hp'
  rw [he, he'] at heq
  obtain rfl : n = n' := UInt32.toNat_inj.mp heq
  obtain ⟨s, i, _, rfl⟩ := (h.index id n).mp ⟨p, hp, he⟩
  obtain ⟨s', i', _, rfl⟩ := (h.index id' n).mp ⟨p', hp', he'⟩
  exact hne (h.index_wf.sound.unique p hp p' hp' _ _ _ he he')

/-- The counters other than that of resting orders are not part of the structure. -/
theorem Core.withStats (h : Core b q) {stats : BookStats}
    (hr : stats.restingOrders = b.stats.restingOrders) : Core { b with stats } q :=
  ⟨h.checked, h.allocated, h.levels_size, h.bits_size, h.nodes_size, h.queue, h.outside, h.active,
    h.free_nodup, h.free, h.cover, h.index_wf, h.index_size, h.index, hr ▸ h.resting⟩

theorem Inv.withStats (h : Inv b q) {stats : BookStats}
    (hr : stats.restingOrders = b.stats.restingOrders) : Inv { b with stats } q :=
  ⟨h.toCore.withStats hr, h.positive⟩

end Core

/-! ## The new book -/

theorem Queue.nil (nodes : Array OrderNode) (s : Side) (p : Price) : Queue nodes s p {} [] :=
  ⟨rfl, rfl, rfl, rfl, trivial, List.nodup_nil, fun _ h => by cases h⟩

theorem Ladder.vectors {config : BookConfig} {k : ℕ} (hl : Ladder config k) (hk : k ≤ maxSize 24) :
    (k + 63) / 64 ≤ maxSize 8 ∧ config.maximumOrders.toNat ≤ maxSize 48 := by
  have hle := hl.orders_le
  norm_num [maxSize, uint32Max] at hk hle ⊢
  omega

theorem OrderBook.new_isOk {config : BookConfig} {k : ℕ} (h : checkedPriceCount config = .ok k)
    (hk : k ≤ maxSize 24) : ∃ b, OrderBook.new config = .ok b := by
  have hl := ladder_of_checked h
  have hle := hl.orders_le
  obtain ⟨hbits, hnodes⟩ := hl.vectors hk
  obtain ⟨t, ht⟩ := FixedOrderIndex.new_isOk config.maximumOrders.toNat
    (Nat.ne_of_gt hl.orders_pos) (by unfold uint32Max at hle; omega)
  simp only [OrderBook.new, h, ht, vecNew, Nat.not_lt.mpr hk, Nat.not_lt.mpr hbits,
    Nat.not_lt.mpr hnodes, if_false, bind, Except.bind]
  exact ⟨_, rfl⟩

/-- **A new book has no orders.** -/
theorem Inv.new {config : BookConfig} {b : OrderBook} (h : OrderBook.new config = .ok b) :
    Inv b (fun _ _ => []) ∧ b.config = config ∧ b.stats = {} := by
  obtain ⟨n, hc, h⟩ := bind_eq_ok.mp h
  obtain ⟨bids, hbids, h⟩ := bind_eq_ok.mp h
  obtain ⟨asks, hasks, h⟩ := bind_eq_ok.mp h
  obtain ⟨bidBits, hbidBits, h⟩ := bind_eq_ok.mp h
  obtain ⟨askBits, haskBits, h⟩ := bind_eq_ok.mp h
  obtain ⟨nodes, hnodes, h⟩ := bind_eq_ok.mp h
  obtain ⟨t, hx, h⟩ := bind_eq_ok.mp h
  obtain ⟨hlevels, rfl⟩ := vecNew_eq_ok.mp hbids
  obtain ⟨-, rfl⟩ := vecNew_eq_ok.mp hasks
  obtain ⟨-, rfl⟩ := vecNew_eq_ok.mp hbidBits
  obtain ⟨-, rfl⟩ := vecNew_eq_ok.mp haskBits
  obtain ⟨-, rfl⟩ := vecNew_eq_ok.mp hnodes
  cases h
  obtain ⟨hwf, hsize, hempty⟩ := FixedOrderIndex.new_spec hx
  have hofNat : ∀ k < config.maximumOrders.toNat, (UInt32.ofNat k).toNat = k :=
    fun k => (ladder_of_checked hc).toNat_node
  have hmem : ∀ m : UInt32, m ∈ (List.range config.maximumOrders.toNat).map UInt32.ofNat ↔
      m.toNat < config.maximumOrders.toNat := by
    intro m
    simp only [List.mem_map, List.mem_range]
    constructor
    · rintro ⟨k, hk, rfl⟩
      rw [hofNat k hk]
      exact hk
    · exact fun hm => ⟨m.toNat, hm, by simp⟩
  refine ⟨⟨⟨hc, hlevels, ?_, ?_, by simp, ?_, fun _ _ _ => rfl, ?_, ?_, ?_, ?_, hwf, by simpa using hsize,
    ?_, by simp⟩, fun _ _ _ h => by cases h⟩, rfl, rfl⟩
  · rintro (_ | _) <;> simp [OrderBook.levels]
  · rintro (_ | _) <;> simp [OrderBook.bits]
  · intro s i _
    have : vecAt (Array.replicate n ({} : PriceLevel)) i = {} := vecAt_replicate n i
    cases s <;> simp only [OrderBook.level, OrderBook.levels, this] <;> exact Queue.nil _ _ _
  · intro s i
    have hz : ∀ k : ℕ, (Array.replicate k (0 : UInt64))[i / 64]?.getD 0 = 0 := by
      intro k
      rw [Array.getElem?_replicate]
      split_ifs <;> rfl
    cases s <;> simp [Bitmap.IsSet, OrderBook.bits, hz, Bitmap.bit]
  · refine List.Nodup.map_on ?_ List.nodup_range
    intro x hx y hy hxy
    rw [List.mem_range] at hx hy
    have := congrArg UInt32.toNat hxy
    rwa [hofNat x hx, hofNat y hy] at this
  · intro m hm
    refine ⟨by simpa using (hmem m).mp hm, ?_, fun _ _ => by simp⟩
    exact vecAt_replicate _ _
  · intro m hm
    exact Or.inl ((hmem m).mpr (by simpa using hm))
  · intro id m
    constructor
    · exact fun hh => absurd hh (hempty id m)
    · rintro ⟨_, _, hm, _⟩
      cases hm

end Dme
