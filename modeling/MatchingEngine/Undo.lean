import MatchingEngine.Restore

/-!
# Resting an order and cancelling it

* **`Core.ext`**: the queues, the orders in them, the free stack, the index and the counters tell
  every array of a book, links and bitmaps included.
* `submit_cases`, `Core.matchLoop_idle`: how a limit order comes to rest without a trade.
* **`cancel_undoes_rest`**: cancelling such an order gives back the book as it was, but for the two
  commands counted.
-/

set_option autoImplicit false

namespace Dme

variable {b b' b₁ : OrderBook} {q : Queues} {s : Side} {i : ℕ} {n : UInt32} {c k : Command}
  {events evs : List Event}

/-! ## Books told by their queues -/

theorem Queue.level_eq {nodes nodes' : Array OrderNode} {p : Price} {level level' : PriceLevel}
    {l : List UInt32} (h : Queue nodes s p level l) (h' : Queue nodes' s p level' l)
    (hr : ∀ m ∈ l, (vecAt nodes' m.toNat).remaining = (vecAt nodes m.toNat).remaining) :
    level' = level := by
  have htotal : level'.totalQuantity = level.totalQuantity := by
    rw [h.total, h'.total]
    exact congrArg List.sum (List.map_congr_left hr)
  have hcount : level'.count = level.count := UInt32.toNat_inj.mp (h'.count.trans h.count.symm)
  have hhead : level'.head = level.head := h'.head.trans h.head.symm
  have htail : level'.tail = level.tail := h'.tail.trans h.tail.symm
  cases level
  cases level'
  simp_all

theorem Core.node_eq (h : Core b q) (h' : Core b' q) (hn : n ∈ q s i)
    (hr : OrderBook.restingOrder (b'.node n) = OrderBook.restingOrder (b.node n)) :
    b'.node n = b.node n := by
  obtain ⟨hnext, hprev⟩ := (h.queue_of_mem hn).linked.links_eq (h'.queue_of_mem hn).linked n hn
  change (b'.node n).next = (b.node n).next at hnext
  change (b'.node n).previous = (b.node n).previous at hprev
  generalize b'.node n = x at *
  generalize b.node n = y at *
  cases x
  cases y
  simp_all [OrderBook.restingOrder]

/-- **A book is told by its queues**: no link, level or bit is free to differ. -/
theorem Core.ext (h : Core b q) (h' : Core b' q) (hconf : b'.config = b.config)
    (hr : ∀ s i, ∀ n ∈ q s i,
      OrderBook.restingOrder (b'.node n) = OrderBook.restingOrder (b.node n))
    (hfree : b'.freeNodes = b.freeNodes) (hindex : b'.orderIndex = b.orderIndex)
    (hstats : b'.stats = b.stats) : b' = b := by
  have hcount : b'.priceCount = b.priceCount := by
    have := h'.checked
    rw [hconf, h.checked] at this
    exact (Except.ok.inj this).symm
  have hsize : b'.nodes.size = b.nodes.size := by rw [h'.nodes_size, h.nodes_size, hconf]
  -- a node is free, and then as new, or in one of the queues
  have hnode : ∀ m : UInt32, m.toNat < b.nodes.size → b'.node m = b.node m := by
    intro m hm
    rcases h.cover m hm with hm | ⟨s, i, hm⟩
    · rw [(h.free m hm).2.1, (h'.free m (hfree ▸ hm)).2.1]
    · exact h.node_eq h' hm (hr s i m hm)
  have hnodes : b'.nodes = b.nodes := by
    refine vecAt_ext hsize fun j hj => ?_
    have hj' : (UInt32.ofNat j).toNat = j := by
      have hle := h.nodes_size_le
      unfold uint32Max at hle
      exact UInt32.toNat_ofNat_of_lt' (show j < 2 ^ 32 by omega)
    have := hnode (UInt32.ofNat j) (by rw [hj']; exact hj)
    rwa [OrderBook.node, OrderBook.node, hj'] at this
  have hlevels : ∀ s, b'.levels s = b.levels s := by
    intro s
    refine vecAt_ext (by rw [h'.levels_size, h.levels_size, hcount]) fun j hj => ?_
    rw [h.levels_size] at hj
    have hq' := h'.queue s j (by rw [hcount]; exact hj)
    rw [hconf] at hq'
    exact (h.queue s j hj).level_eq hq' fun m _ => by rw [hnodes]
  have hbits : ∀ s, b'.bits s = b.bits s := by
    intro s
    refine Bitmap.ext (by rw [h'.bits_size, h.bits_size, hcount]) fun j => ?_
    rw [h'.active, h.active]
  have hbids := hlevels .buy
  have hasks := hlevels .sell
  have hbidBits := hbits .buy
  have haskBits := hbits .sell
  cases b
  cases b'
  simp_all [OrderBook.levels, OrderBook.bits]

/-! ## Coming to rest -/

theorem submit_cases {r : OrderBook × List Event} (h : b.submit c events false = .ok r) :
    (∃ reason, r = b.reject events c reason) ∨
      c.quantity ≠ 0 ∧ (c.orderType ≠ .market → b.config.validPrice c.price = true) ∧
        b.orderIndex.find c.orderId = .ok none ∧ b.execute c events false = .ok r := by
  rw [OrderBook.submit] at h
  by_cases hq : c.quantity = 0
  · rw [if_pos hq] at h
    exact Or.inl ⟨_, (Except.ok.inj h).symm⟩
  rw [if_neg hq] at h
  by_cases hv : c.orderType ≠ .market ∧ b.config.validPrice c.price = false
  · rw [if_pos hv] at h
    exact Or.inl ⟨_, (Except.ok.inj h).symm⟩
  rw [if_neg hv, if_neg Bool.false_ne_true] at h
  obtain ⟨found, hfound, h⟩ := bind_eq_ok.mp h
  by_cases hnone : found = none
  · rw [if_neg (not_not.mpr hnone)] at h
    obtain ⟨wouldFill, -, h⟩ := bind_eq_ok.mp h
    by_cases hw : wouldFill = false
    · rw [if_pos hw] at h
      exact Or.inl ⟨_, (Except.ok.inj h).symm⟩
    rw [if_neg hw] at h
    obtain ⟨hasRoom, -, h⟩ := bind_eq_ok.mp h
    by_cases hr : hasRoom = false
    · rw [if_pos hr] at h
      exact Or.inl ⟨_, (Except.ok.inj h).symm⟩
    rw [if_neg hr] at h
    refine Or.inr ⟨hq, fun hm => ?_, hnone ▸ hfound, h⟩
    by_contra hbad
    exact hv ⟨hm, by simpa using hbad⟩
  · rw [if_pos hnone] at h
    exact Or.inl ⟨_, (Except.ok.inj h).symm⟩

theorem Core.matchLoop_idle (h : Core b q) {limit : Price} {remaining : Quantity} {fuel : ℕ}
    (hs : (sweep c.side limit remaining (b.depth q c.side.opposite)).fills = []) :
    OrderBook.matchLoop c limit (fuel + 1) ⟨b, remaining, events⟩ = .ok ⟨b, remaining, events⟩ := by
  cases hd : b.depth q c.side.opposite with
  | nil => exact matchLoop_break (h.matchStep_none remaining events (by simp [hd]))
  | cons o os =>
    rw [hd] at hs
    by_cases hstop : remaining = 0 ∨ crossesPrice c.side limit o.price = false
    · rcases hstop with h0 | hc
      · exact matchLoop_done h0
      · refine matchLoop_break (h.matchStep_none remaining events ?_)
        rw [hd]
        rintro _ _ ⟨⟩
        exact hc
    · by_cases hlt : remaining < o.quantity
      · rw [sweep_part hstop hlt] at hs
        cases hs
      · rw [sweep_whole hstop hlt] at hs
        cases hs

theorem not_rested_of_reject {reason : RejectReason}
    (h : (b₁, events ++ evs) = b.reject events c reason) : ∀ e ∈ evs, e.type ≠ .rested := by
  have := (Prod.mk.inj h).2
  rw [emit, List.append_cancel_left_eq] at this
  rw [this]
  simp [eventOf]

theorem Market.fills_eq_nil {m : Market} {d : Depth} (ht : c.type = .new)
    (hp : m.perform c = .ok (d, evs)) (hno : ∀ e ∈ evs, e.type ≠ .trade) :
    (sweep c.side (m.limit c) c.quantity (m.depth c.side.opposite)).fills = [] := by
  cases performed hp with
  | new =>
    rw [List.eq_nil_iff_forall_not_mem]
    intro f hf
    refine hno (eventOf .trade c f.contra f.price f.quantity .none) ?_ rfl
    rw [execute_events]
    exact List.mem_cons_of_mem _ (List.mem_append_left _ (List.mem_map_of_mem hf))
  | cancel hc => cases ht.symm.trans hc
  | replace hc => cases ht.symm.trans hc

/-- **A limit order that rests without a trade** is added to a book nothing else has changed. -/
theorem Inv.process_rests (h : Inv b q) (ht : c.type = .new) (hl : c.orderType = .limit)
    (hp : b.process c events = .ok (b₁, events ++ evs)) (hrest : ∃ e ∈ evs, e.type = .rested)
    (hno : ∀ e ∈ evs, e.type ≠ .trade) :
    c.sequence = b.stats.lastSequence + 1 ∧ b.config.validPrice c.price = true ∧
      (∀ n, ¬ b.orderIndex.Has c.orderId n) ∧
      (b.counted c).addResting c.orderId c.side c.price c.quantity c.sequence
        (emit events .accepted c 0 0 0 .none) = .ok (b₁, events ++ evs) := by
  obtain ⟨e, he, hrested⟩ := hrest
  have hnr : ∀ b₀ : OrderBook, ∀ reason, b.process c events ≠ .ok (b₀.reject events c reason) :=
    fun b₀ reason hrej =>
      not_rested_of_reject (Except.ok.inj (hp.symm.trans hrej)) e he hrested
  rcases h.process_cases c events with ⟨-, hrej⟩ | ⟨hseq, hf⟩
  · exact absurd hrej (hnr b _)
  cases hperf : (b.market q).perform c with
  | error reason =>
    rw [hperf] at hf
    exact absurd hf (hnr _ _)
  | ok r =>
    rw [hperf] at hf
    obtain ⟨b₂, q₂, hp₂, -⟩ := hf
    obtain rfl : evs = r.2 :=
      List.append_cancel_left (Prod.mk.inj (Except.ok.inj (hp.symm.trans hp₂))).2
    have hsub : (b.counted c).submit c events false = .ok (b₁, events ++ r.2) := by
      rw [← hp, OrderBook.process, if_neg (not_not.mpr hseq), ht]
      rfl
    rcases submit_cases hsub with ⟨reason, hrej⟩ | ⟨hq, hv, hfind, hex⟩
    · exact absurd (hp.trans (congrArg Except.ok hrej)) (hnr _ _)
    refine ⟨hseq, hv (by rw [hl]; decide), fun n hn => ?_, ?_⟩
    · cases hfind.symm.trans (h.index_wf.find_has hn)
    -- with nothing to trade the loop leaves the book alone
    have hidle : OrderBook.matchLoop c ((b.counted c).effectiveLimit c)
        ((b.counted c).nodes.size + 2)
        ⟨b.counted c, c.quantity, emit events .accepted c 0 0 0 .none⟩ =
        .ok ⟨b.counted c, c.quantity, emit events .accepted c 0 0 0 .none⟩ :=
      (h.counted c).matchLoop_idle (Market.fills_eq_nil ht hperf hno)
    rw [OrderBook.execute] at hex
    simp only [Bool.false_eq_true, if_false] at hex
    obtain ⟨m, hm, hex⟩ := bind_eq_ok.mp hex
    cases hm.symm.trans hidle
    rwa [if_neg hq, if_pos hl] at hex

/-! ## The undo -/

/-- **Removing a node right after it was added** gives back the book, whatever was counted. -/
theorem Core.removeNode_addResting (h : Core b q) {id : OrderId} {price : Price}
    {quantity : Quantity} {priority : Sequence} {rest : List UInt32}
    (hv : b.config.validPrice price) (habs : ∀ m, ¬ b.orderIndex.Has id m)
    (hfree : b.freeNodes = n :: rest)
    (hadd : b.addResting id s price quantity priority events = .ok (b₁, evs)) (stats : BookStats)
    (hstats : stats.restingOrders = b₁.stats.restingOrders) :
    b₁.stats = { b.stats with restingOrders := b.stats.restingOrders + 1 } ∧
      b₁.orderIndex.find id = .ok (some n) ∧ vecGet b₁.nodes n.toNat = .ok (b₁.node n) ∧
      { b₁ with stats }.removeNode n =
        .ok { b with stats := { stats with restingOrders := b.stats.restingOrders } } := by
  obtain ⟨b₂, hadd₂, hcore, hconf, hrest, hstats₁, hins, hnode, hframe⟩ :=
    h.addResting (s := s) quantity priority events hv habs hfree
  cases hadd.symm.trans hadd₂
  have hnid : (b₁.node n).id = id := congrArg RestingOrder.orderId hnode
  have hnq := (h.free n (by rw [hfree]; exact List.mem_cons_self)).2.2
  generalize b.config.priceIndex price = i at hcore
  have hmem : n ∈ setQueue q s i (q s i ++ [n]) s i := by
    rw [setQueue_self]
    exact List.mem_append_right _ List.mem_cons_self
  obtain ⟨b₂, hrem, hcore₂, hconf₂, hfree₂, hstats₂, her, hframe₂⟩ :=
    (hcore.withStats hstats).removeNode hmem
  refine ⟨hstats₁, ?_, hcore.getNode hmem, ?_⟩
  · exact hcore.index_wf.find_has ((hcore.index id n).mpr ⟨s, i, hmem, hnid⟩)
  rw [setQueue_self, List.erase_append_right _ (hnq s i), List.erase_cons_head, List.append_nil,
    setQueue_setQueue, setQueue_eq_self] at hcore₂
  -- the table takes the entry back out of the slot it gave it
  have hundo := h.index_wf.erase_insert habs h.index_room hins
  rw [← hnid] at hundo
  have hindex : b₂.orderIndex = b.orderIndex :=
    (Prod.mk.inj (Except.ok.inj (her.symm.trans hundo))).2
  have heq : b₂ = { b with stats := { stats with restingOrders := b.stats.restingOrders } } := by
    have hcore₀ : Core { b with stats := { stats with
      restingOrders := b.stats.restingOrders } } q := h.withStats rfl
    refine hcore₀.ext hcore₂ (hconf₂.trans hconf) (fun t j m hm => ?_) ?_ hindex ?_
    · have hne : m ≠ n := fun he => hnq t j (he ▸ hm)
      exact (hframe₂ m hne).trans (hframe m hne)
    · rw [hfree₂, hrest, hfree]
    · rw [hstats₂, hstats, hstats₁]
      rfl
  rw [hrem, heq]

/-- **Resting an order and cancelling it is an exact undo**: in any reachable book, a new limit order
that rests without a trade, and after it a cancel command with its id and the next sequence, give back
every array, the free stack and the hash table; only the two commands have been counted. -/
theorem cancel_undoes_rest (hb : Reachable b) (ht : c.type = .new) (hl : c.orderType = .limit)
    (hp : b.process c events = .ok (b₁, events ++ evs)) (hrest : ∃ e ∈ evs, e.type = .rested)
    (hno : ∀ e ∈ evs, e.type ≠ .trade) (hk : k.type = .cancel) (hid : k.orderId = c.orderId)
    (hseq : k.sequence = c.sequence + 1) (events' : List Event) :
    ∃ evs', b₁.process k events' = .ok ({ b with stats := { b.stats with
      lastSequence := b.stats.lastSequence + 2
      commands := b.stats.commands + 2 } }, events' ++ evs') := by
  obtain ⟨q, h⟩ := hb.inv
  obtain ⟨hcseq, hv, habs, hadd⟩ := h.process_rests ht hl hp hrest hno
  obtain ⟨n, rest, hfree⟩ : ∃ n rest, (b.counted c).freeNodes = n :: rest := by
    refine List.exists_cons_of_ne_nil fun hnil => ?_
    rw [OrderBook.addResting, hnil] at hadd
    cases hadd
  obtain ⟨hstats, hfind, hget, hrem⟩ := (h.counted c).toCore.removeNode_addResting hv habs hfree
    hadd (b₁.counted k).stats rfl
  have hnext : k.sequence = b₁.stats.lastSequence + 1 := by
    rw [hstats, hseq]
    rfl
  refine ⟨[eventOf .cancelled k 0 (b₁.node n).price (b₁.node n).remaining .none], ?_⟩
  rw [OrderBook.process, if_neg (not_not.mpr hnext), hk]
  have hbook : { b.counted c with stats := { (b₁.counted k).stats with
      restingOrders := (b.counted c).stats.restingOrders } } =
      { b with stats := { b.stats with
        lastSequence := b.stats.lastSequence + 2
        commands := b.stats.commands + 2 } } := by
    simp only [OrderBook.counted, hstats, hseq, hcseq, UInt64.add_assoc]
    rfl
  have hcancel : (b₁.counted k).cancel k events' false = .ok ({ b with stats := { b.stats with
      lastSequence := b.stats.lastSequence + 2
      commands := b.stats.commands + 2 } },
      emit events' .cancelled k 0 (b₁.node n).price (b₁.node n).remaining .none) := by
    rw [OrderBook.cancel, hid, show (b₁.counted k).orderIndex.find c.orderId = _ from hfind]
    refine bind_eq_ok.mpr ⟨_, rfl, ?_⟩
    refine bind_eq_ok.mpr ⟨_, hget, ?_⟩
    refine bind_eq_ok.mpr ⟨_, hrem, ?_⟩
    rw [hbook]
    rfl
  exact hcancel

/-- An order that joins a queue of one, and leaves it again. -/
theorem cancel_undoes_rest_second_order : ∃ b b₁ : OrderBook, ∃ evs evs' : List Event,
    Reachable b ∧ b.stats.restingOrders = 1 ∧ b₁.stats.restingOrders = 2 ∧
    b.process ⟨2, .new, .buy, .limit, 0, 8, 2, 3⟩ [] = .ok (b₁, evs) ∧
    b₁.process ⟨3, .cancel, .buy, .limit, 0, 8, 0, 0⟩ [] = .ok ({ b with stats := { b.stats with
      lastSequence := b.stats.lastSequence + 2
      commands := b.stats.commands + 2 } }, evs') := by
  have hrun : (do
      let b₀ ← OrderBook.new ⟨1, 4, 1, 2⟩
      let r ← b₀.process ⟨1, .new, .buy, .limit, 0, 7, 2, 5⟩ []
      let r₁ ← r.1.process ⟨2, .new, .buy, .limit, 0, 8, 2, 3⟩ []
      .ok (r.1.stats.restingOrders, r₁.1.stats.restingOrders, r₁.2)) =
      (.ok (1, 2, [⟨2, .accepted, .buy, .none, 0, 8, 0, 0, 0⟩,
        ⟨2, .rested, .buy, .none, 0, 8, 0, 2, 3⟩]) : Except Fault _) := by decide +kernel
  obtain ⟨b₀, hnew, hrun⟩ := bind_eq_ok.mp hrun
  obtain ⟨⟨b, evs₀⟩, hp, hrun⟩ := bind_eq_ok.mp hrun
  obtain ⟨⟨b₁, evs⟩, hp₁, hrun⟩ := bind_eq_ok.mp hrun
  obtain ⟨hone, htwo, hevs⟩ : b.stats.restingOrders = 1 ∧ b₁.stats.restingOrders = 2 ∧ evs = _ := by
    simpa only [Except.ok.injEq, Prod.mk.injEq] using hrun
  have hb := (Reachable.new hnew).process hp
  obtain ⟨evs', hcancel⟩ := cancel_undoes_rest hb rfl rfl hp₁ (by rw [hevs]; decide)
    (by rw [hevs]; decide) (k := ⟨3, .cancel, .buy, .limit, 0, 8, 0, 0⟩) rfl rfl (by decide) []
  exact ⟨b, b₁, evs, evs', hb, hone, htwo, hp₁, hcancel⟩

end Dme
