import MatchingEngine.Preflight
import MatchingEngine.Market

/-!
# The market a book describes

* `line q s n`: the nodes of a side, best level first.
* `OrderBook.depth`, **`OrderBook.market`**: the abstraction of a book with queues `q`.
* `Core.depth_push`, `Core.depth_pull`: appending a node to a queue is `enqueue`, taking it out is
  `withdraw`.
* `Core.find_some`, `Core.find_none`, `Core.size_market`, `Core.available_eq`: what the market's operations
  read.
-/

set_option autoImplicit false

namespace Dme

/-- The nodes of a side, best level first. -/
def line (q : Queues) (s : Side) (n : ℕ) : List UInt32 := (bestFirst s n).flatMap (q s)

namespace OrderBook

/-- The resting order of a node. -/
def order (b : OrderBook) (n : UInt32) : RestingOrder := restingOrder (b.node n)

/-- The resting orders of a side, best first. -/
def depth (b : OrderBook) (q : Queues) : Depth := fun s => (line q s b.priceCount).map b.order

/-- **The market a book describes.** -/
def market (b : OrderBook) (q : Queues) : Market := ⟨b.config, b.depth q, b.stats.lastSequence⟩

end OrderBook

variable {b b' : OrderBook} {q : Queues} {s : Side} {i : ℕ} {n m : UInt32}

theorem Side.Ahead.ne {j : ℕ} (h : s.Ahead j i) : j ≠ i := by
  cases s <;> simp only [Side.Ahead] at h <;> omega

theorem line_of_ne {t : Side} (hts : t ≠ s) (l : List UInt32) (k : ℕ) :
    line (setQueue q s i l) t k = line q t k := by
  rw [line, setQueue_side q i l hts, line]

theorem line_split (q : Queues) (s : Side) {k : ℕ} (hi : i < k) :
    ∃ A B, (∀ l, line (setQueue q s i l) s k = A ++ l ++ B) ∧
      (∀ m ∈ A, ∃ j, s.Ahead j i ∧ m ∈ q s j) ∧ ∀ m ∈ B, ∃ j, s.Ahead i j ∧ m ∈ q s j := by
  obtain ⟨L, hL, hahead⟩ := bestFirst_split (s := s) hi
  rw [levelsFrom_eq hi] at hL
  have hafter : ∀ j ∈ levelsAfter s k i, s.Ahead i j := by
    intro j hj
    cases s with
    | sell => simp only [levelsAfter, List.mem_range'_1] at hj; exact hj.1
    | buy => simpa [levelsAfter, Side.Ahead] using hj
  refine ⟨L.flatMap (q s), (levelsAfter s k i).flatMap (q s), fun l => ?_, fun m hm => ?_,
    fun m hm => ?_⟩
  · have hsame : ∀ j, j ≠ i → setQueue q s i l s j = q s j := fun j hj =>
      setQueue_of_ne q l fun hc => hj hc.2
    rw [line, hL, List.flatMap_append, List.flatMap_cons, setQueue_self, List.append_assoc,
      List.flatMap_congr fun j hj => hsame j (hahead j hj).ne,
      List.flatMap_congr fun j hj => hsame j (hafter j hj).ne.symm]
  · obtain ⟨j, hj, hm⟩ := List.mem_flatMap.mp hm
    exact ⟨j, hahead j hj, hm⟩
  · obtain ⟨j, hj, hm⟩ := List.mem_flatMap.mp hm
    exact ⟨j, hafter j hj, hm⟩

theorem setQueue_eq_self (q : Queues) (s : Side) (i : ℕ) : setQueue q s i (q s i) = q := by
  unfold setQueue
  rw [Function.update_eq_self, Function.update_eq_self]

theorem Core.mem_line (h : Core b q) : m ∈ line q s b.priceCount ↔ ∃ i, m ∈ q s i := by
  rw [line, List.mem_flatMap]
  exact ⟨fun ⟨i, _, hm⟩ => ⟨i, hm⟩, fun ⟨i, hm⟩ => ⟨i, mem_bestFirst.mpr (h.lt_of_mem hm), hm⟩⟩

theorem bestFirst_nodup (s : Side) (k : ℕ) : (bestFirst s k).Nodup := by
  cases s with
  | sell => exact List.nodup_range
  | buy => exact List.nodup_reverse.mpr List.nodup_range

theorem Core.line_nodup (h : Core b q) (s : Side) : (line q s b.priceCount).Nodup := by
  rw [line, List.nodup_flatMap]
  refine ⟨fun i hi => (h.queue s i (mem_bestFirst.mp hi)).nodup, ?_⟩
  refine (bestFirst_nodup s _).imp fun hij => ?_
  rw [Function.onFun, List.disjoint_left]
  exact fun m hm hm' => hij (h.queue_unique hm' hm).2

theorem Core.priceCount_eq {q' : Queues} (h : Core b q) (h' : Core b' q')
    (hc : b'.config = b.config) : b'.priceCount = b.priceCount := by
  have := h'.checked
  rw [hc, h.checked] at this
  exact (Except.ok.inj this).symm

theorem Core.better_iff (h : Core b q) {j : ℕ} (hi : i < b.priceCount) (hj : j < b.priceCount) :
    better s (b.config.indexPrice i) (b.config.indexPrice j) = true ↔ s.Ahead i j := by
  cases s with
  | sell =>
    rw [better, decide_eq_true_eq]
    exact h.ladder.indexPrice_lt_iff hi hj
  | buy =>
    rw [better, decide_eq_true_eq]
    exact h.ladder.indexPrice_lt_iff hj hi

theorem Side.Ahead.asymm {j : ℕ} (h : s.Ahead i j) : ¬ s.Ahead j i := by
  cases s <;> simp only [Side.Ahead] at h ⊢ <;> omega

theorem Side.Ahead.irrefl (s : Side) (i : ℕ) : ¬ s.Ahead i i := fun h => h.ne rfl

theorem Core.order_price (h : Core b q) (hm : m ∈ q s i) : (b.order m).price = b.config.indexPrice i :=
  h.node_price hm

theorem orderedInsert_append {α : Type} (r : α → α → Prop) [DecidableRel r] {x : α} {A B : List α}
    (hA : ∀ y ∈ A, ¬ r x y) (hB : ∀ y ∈ B, r x y) :
    (A ++ B).orderedInsert r x = A ++ x :: B := by
  induction A with
  | nil =>
    cases B with
    | nil => rfl
    | cons y B => rw [List.nil_append, List.orderedInsert_cons, if_pos (hB y List.mem_cons_self)]; rfl
  | cons y A ih =>
    rw [List.cons_append, List.orderedInsert_cons, if_neg (hA y List.mem_cons_self),
      ih fun z hz => hA z (List.mem_cons_of_mem _ hz)]
    rfl

/-- **A node appended to the queue of its level is an order that joins its side.** -/
theorem Core.depth_push (h : Core b q) (h' : Core b' (setQueue q s i (q s i ++ [n])))
    (hc : b'.config = b.config) (hi : i < b.priceCount) (hnq : ∀ t j, n ∉ q t j)
    (hframe : ∀ m, m ≠ n → b'.order m = b.order m) :
    b'.depth (setQueue q s i (q s i ++ [n])) = enqueue (b.depth q) (b'.order n) := by
  have hmem : n ∈ setQueue q s i (q s i ++ [n]) s i := by rw [setQueue_self]; simp
  have hside : (b'.order n).side = s := h'.node_side hmem
  have hprice : (b'.order n).price = b.config.indexPrice i := by
    rw [h'.order_price hmem, hc]
  have hsame : ∀ t, (line q t b.priceCount).map b'.order = (line q t b.priceCount).map b.order :=
    fun t => List.map_congr_left fun m hm => hframe m fun he => by
      obtain ⟨j, hj⟩ := h.mem_line.mp hm
      exact hnq t j (he ▸ hj)
  funext t
  rw [enqueue, hside, OrderBook.depth, h.priceCount_eq h' hc]
  by_cases hts : t = s
  · subst hts
    obtain ⟨A, B, hline, hA, hB⟩ := line_split q t hi
    have hold := hline (q t i)
    rw [setQueue_eq_self] at hold
    have hA' : ∀ y ∈ (A ++ q t i).map b'.order, ¬ better t (b'.order n).price y.price = true := by
      intro y hy
      obtain ⟨m, hm, rfl⟩ := List.mem_map.mp hy
      obtain ⟨j, hj, hji⟩ : ∃ j, m ∈ q t j ∧ ¬ t.Ahead i j := by
        rcases List.mem_append.mp hm with hm | hm
        · obtain ⟨j, hj, hmj⟩ := hA m hm
          exact ⟨j, hmj, hj.asymm⟩
        · exact ⟨i, hm, Side.Ahead.irrefl t i⟩
      rw [hprice, hframe m (fun he => hnq t j (he ▸ hj)), h.order_price hj,
        h.better_iff hi (h.lt_of_mem hj)]
      exact hji
    have hB' : ∀ y ∈ B.map b'.order, better t (b'.order n).price y.price = true := by
      intro y hy
      obtain ⟨m, hm, rfl⟩ := List.mem_map.mp hy
      obtain ⟨j, hij, hj⟩ := hB m hm
      rw [hprice, hframe m (fun he => hnq t j (he ▸ hj)), h.order_price hj,
        h.better_iff hi (h.lt_of_mem hj)]
      exact hij
    have hins := orderedInsert_append (fun x y : RestingOrder => better t x.price y.price = true)
      hA' hB'
    rw [← List.map_append] at hins
    rw [Function.update_self, OrderBook.depth, ← hsame t, hline, hold, hins]
    simp
  · rw [Function.update_of_ne hts, line_of_ne hts, hsame t]
    rfl

theorem Core.line_pull (h : Core b q) (hn : n ∈ q s i) (t : Side) :
    line (setQueue q s i ((q s i).erase n)) t b.priceCount = (line q t b.priceCount).erase n := by
  by_cases hts : t = s
  · subst hts
    obtain ⟨A, B, hline, hA, hB⟩ := line_split q t (h.lt_of_mem hn)
    have hold := hline (q t i)
    rw [setQueue_eq_self] at hold
    have hnA : n ∉ A := fun hm => by
      obtain ⟨j, hj, hmj⟩ := hA n hm
      exact hj.ne (h.queue_unique hn hmj).2
    rw [hline, hold, List.append_assoc, List.append_assoc, List.erase_append_right _ hnA,
      List.erase_append_left _ hn]
  · rw [line_of_ne hts, List.erase_of_not_mem]
    intro hm
    obtain ⟨j, hj⟩ := h.mem_line.mp hm
    exact hts (h.queue_unique hn hj).1

/-- **A node taken out of its queue is an order that leaves.** -/
theorem Core.depth_pull (h : Core b q) (hn : n ∈ q s i)
    (h' : Core b' (setQueue q s i ((q s i).erase n))) (hc : b'.config = b.config)
    (hframe : ∀ m, m ≠ n → b'.order m = b.order m) :
    b'.depth (setQueue q s i ((q s i).erase n)) = withdraw (b.depth q) (b.order n).orderId := by
  funext t
  have hnd := h.line_nodup t
  rw [withdraw, OrderBook.depth, h.priceCount_eq h' hc, h.line_pull hn, OrderBook.depth,
    List.filter_map, hnd.erase_eq_filter]
  have hfilter : (line q t b.priceCount).filter (fun m => m != n) =
      (line q t b.priceCount).filter
        ((fun o : RestingOrder => decide (o.orderId ≠ (b.order n).orderId)) ∘ b.order) := by
    refine List.filter_congr fun m hm => ?_
    obtain ⟨j, hj⟩ := h.mem_line.mp hm
    rw [Bool.eq_iff_iff, Function.comp_apply, bne_iff_ne, decide_eq_true_eq]
    exact ⟨fun hmn he => hmn (h.id_unique hj hn he), fun hid he => hid (by rw [he])⟩
  rw [← hfilter]
  refine List.map_congr_left fun m hm => hframe m ?_
  simpa using (List.mem_filter.mp hm).2

/-! ## What the market reads -/

theorem Core.mem_depth (h : Core b q) {o : RestingOrder} :
    o ∈ b.depth q s ↔ ∃ i, ∃ m ∈ q s i, b.order m = o := by
  rw [OrderBook.depth, List.mem_map]
  constructor
  · rintro ⟨m, hm, rfl⟩
    obtain ⟨i, hi⟩ := h.mem_line.mp hm
    exact ⟨i, m, hi, rfl⟩
  · rintro ⟨i, m, hm, rfl⟩
    exact ⟨m, h.mem_line.mpr ⟨i, hm⟩, rfl⟩

theorem Core.find_some (h : Core b q) (hn : n ∈ q s i) :
    (b.market q).find (b.order n).orderId = some (b.order n) := by
  have hmem : b.order n ∈ b.depth q .buy ++ b.depth q .sell := by
    rw [List.mem_append]
    cases s with
    | buy => exact Or.inl (h.mem_depth.mpr ⟨i, n, hn, rfl⟩)
    | sell => exact Or.inr (h.mem_depth.mpr ⟨i, n, hn, rfl⟩)
  rw [Market.find, OrderBook.market]
  cases hf : (b.depth q .buy ++ b.depth q .sell).find? fun o => o.orderId = (b.order n).orderId with
  | none => simpa using List.find?_eq_none.mp hf _ hmem
  | some o =>
    have hid : o.orderId = (b.order n).orderId := by simpa using List.find?_some hf
    obtain ⟨t, j, m, hm, rfl⟩ : ∃ t j, ∃ m ∈ q t j, b.order m = o := by
      rcases List.mem_append.mp (List.mem_of_find?_eq_some hf) with ho | ho
      · exact ⟨.buy, h.mem_depth.mp ho⟩
      · exact ⟨.sell, h.mem_depth.mp ho⟩
    rw [h.id_unique hm hn hid]

theorem Core.find_none (h : Core b q) {id : OrderId} (hid : ∀ m, ¬ b.orderIndex.Has id m) :
    (b.market q).find id = none := by
  rw [Market.find, List.find?_eq_none]
  intro o ho
  obtain ⟨t, j, m, hm, rfl⟩ : ∃ t j, ∃ m ∈ q t j, b.order m = o := by
    rcases List.mem_append.mp ho with ho | ho
    · exact ⟨.buy, h.mem_depth.mp ho⟩
    · exact ⟨.sell, h.mem_depth.mp ho⟩
  simp only [decide_eq_true_eq]
  exact fun he => hid m ((h.index id m).mpr ⟨t, j, hm, he⟩)

theorem Core.size_market (h : Core b q) : (b.market q).size + b.freeNodes.length = b.nodes.size := by
  have hnd : (line q .buy b.priceCount ++ line q .sell b.priceCount ++ b.freeNodes).Nodup := by
    rw [List.nodup_append, List.nodup_append]
    refine ⟨⟨h.line_nodup .buy, h.line_nodup .sell, ?_⟩, h.free_nodup, ?_⟩
    · rintro m hm m' hm' rfl
      obtain ⟨i, hi⟩ := h.mem_line.mp hm
      obtain ⟨j, hj⟩ := h.mem_line.mp hm'
      exact absurd (h.queue_unique hi hj).1 (by simp)
    · rintro m hm m' hm' rfl
      obtain ⟨t, i, hi⟩ : ∃ t i, m ∈ q t i := by
        rcases List.mem_append.mp hm with hm | hm
        · exact ⟨.buy, h.mem_line.mp hm⟩
        · exact ⟨.sell, h.mem_line.mp hm⟩
      exact (h.free m hm').2.2 t i hi
  have hperm : ((line q .buy b.priceCount ++ line q .sell b.priceCount ++ b.freeNodes).map
      UInt32.toNat).Perm (List.range b.nodes.size) := by
    rw [List.perm_ext_iff_of_nodup (hnd.map fun x y hxy => UInt32.toNat_inj.mp hxy) List.nodup_range]
    intro k
    simp only [List.mem_map, List.mem_append, List.mem_range, h.mem_line]
    constructor
    · rintro ⟨m, (⟨i, hi⟩ | ⟨i, hi⟩) | hf, rfl⟩
      · exact h.node_lt hi
      · exact h.node_lt hi
      · exact (h.free m hf).1
    · intro hk
      have hle := h.nodes_size_le
      have hofNat : (UInt32.ofNat k).toNat = k :=
        UInt32.toNat_ofNat_of_lt' (show k < 2 ^ 32 by unfold uint32Max at hle; omega)
      refine ⟨UInt32.ofNat k, ?_, hofNat⟩
      rcases h.cover (UInt32.ofNat k) (by rw [hofNat]; exact hk) with hf | ⟨t, i, hi⟩
      · exact Or.inr hf
      · cases t with
        | buy => exact Or.inl (Or.inl ⟨i, hi⟩)
        | sell => exact Or.inl (Or.inr ⟨i, hi⟩)
  have := hperm.length_eq
  simpa [Market.size, OrderBook.market, OrderBook.depth, Nat.add_assoc] using this

theorem Core.depth_level (h : Core b q) (hi : i < b.priceCount) :
    atPrice (b.depth q s) (b.config.indexPrice i) = (q s i).map b.order := by
  obtain ⟨A, B, hline, hA, hB⟩ := line_split q s hi
  have hold := hline (q s i)
  rw [setQueue_eq_self] at hold
  have hnone : ∀ l : List UInt32, (∀ m ∈ l, ∃ j, j ≠ i ∧ m ∈ q s j) →
      (l.map b.order).filter (fun o => o.price = b.config.indexPrice i) = [] := by
    intro l hl
    rw [List.filter_eq_nil_iff]
    intro o ho
    obtain ⟨m, hm, rfl⟩ := List.mem_map.mp ho
    obtain ⟨j, hji, hj⟩ := hl m hm
    rw [h.order_price hj, decide_eq_true_eq]
    exact fun he => hji (h.ladder.indexPrice_inj (h.lt_of_mem hj) hi he)
  have hall : ((q s i).map b.order).filter (fun o => o.price = b.config.indexPrice i) =
      (q s i).map b.order := by
    rw [List.filter_eq_self]
    intro o ho
    obtain ⟨m, hm, rfl⟩ := List.mem_map.mp ho
    simp [h.order_price hm]
  rw [atPrice, OrderBook.depth, hold, List.map_append, List.map_append, List.filter_append,
    List.filter_append, hall, hnone A, hnone B, List.nil_append, List.append_nil]
  · intro m hm
    obtain ⟨j, hj, hmj⟩ := hB m hm
    exact ⟨j, hj.ne.symm, hmj⟩
  · intro m hm
    obtain ⟨j, hj, hmj⟩ := hA m hm
    exact ⟨j, hj.ne, hmj⟩

theorem Core.levelTotal_eq (h : Core b q) (hi : i < b.priceCount) :
    levelTotal (b.depth q s) (b.config.indexPrice i) = (b.level s i).totalQuantity := by
  rw [levelTotal, h.depth_level hi, h.total_eq hi, List.map_map]
  rfl

theorem Core.prices_eq (h : Core b q) (s : Side) : ((b.depth q s).map RestingOrder.price).toFinset =
    ((Finset.range b.priceCount).filter fun i => q s i ≠ []).image b.config.indexPrice := by
  ext p
  simp only [List.mem_toFinset, List.mem_map, h.mem_depth, Finset.mem_image, Finset.mem_filter,
    Finset.mem_range]
  constructor
  · rintro ⟨o, ⟨i, m, hm, rfl⟩, rfl⟩
    exact ⟨i, ⟨h.lt_of_mem hm, List.ne_nil_of_mem hm⟩, (h.order_price hm).symm⟩
  · rintro ⟨i, ⟨_, hne⟩, rfl⟩
    obtain ⟨m, hm⟩ := List.exists_mem_of_ne_nil _ hne
    exact ⟨b.order m, ⟨i, m, hm, rfl⟩, h.order_price hm⟩

/-- **The crossing levels of a book hold what the market finds.** -/
theorem Core.available_eq (h : Core b q) (a : Side) (limit : Price) :
    available a limit (b.depth q a.opposite) =
      crossTotal b a limit (bestFirst a.opposite b.priceCount) := by
  have hrange : (bestFirst a.opposite b.priceCount).toFinset = Finset.range b.priceCount := by
    ext i
    simp
  rw [available, Finset.sum_filter, h.prices_eq, Finset.sum_image, Finset.sum_filter_of_ne,
    crossTotal, ← List.sum_toFinset _ (bestFirst_nodup _ _), hrange]
  · refine Finset.sum_congr rfl fun i hi => ?_
    rw [h.levelTotal_eq (Finset.mem_range.mp hi)]
  · intro i hi hne hq
    refine hne ?_
    rw [h.levelTotal_eq (Finset.mem_range.mp hi), h.total_eq (Finset.mem_range.mp hi), hq]
    simp
  · intro i hi j hj he
    rw [Finset.mem_coe, Finset.mem_filter, Finset.mem_range] at hi hj
    exact h.ladder.indexPrice_inj hi.1 hj.1 he

theorem Core.canFullyFill_eq (h : Core b q) (c : Command) (hq : c.quantity ≠ 0) :
    b.canFullyFill c.side (b.effectiveLimit c) c.quantity = .ok (decide ((b.market q).canFill c)) := by
  rw [h.canFullyFill _ _ hq]
  simp only [Market.canFill, OrderBook.market, h.available_eq]
  rfl

end Dme
