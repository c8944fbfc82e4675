import MatchingEngine.Snapshot

/-!
# Books with other configurations

A configuration is read in three places: to check a price, to limit a market order, and to see whether the
book is full. Where none of them decides, a book with a wider configuration does the same.

* `BookConfig.Covers`: every price of one configuration is one of the other, which holds as many orders.
* `Market.Fits`, `Inv.fits`: the resting orders are on the ladder, and not too many.
* `Market.widen`, `Market.Fits.perform`, `Inv.run_widen`: unless the price or the book's capacity is the
  reason to reject, a wider market does the same.
* `flatMap_of_sorted`, `Inv.restingOrders_widen`: both books list their orders alike.
* **`wider_book_agrees`**.
-/

set_option autoImplicit false

namespace Dme

/-! ## Wider configurations -/

/-- **Every price of `narrow` is one of `wide`**, and as many orders may rest. -/
structure BookConfig.Covers (wide narrow : BookConfig) : Prop where
  prices : ∀ p, narrow.validPrice p = true → wide.validPrice p = true
  orders : narrow.maximumOrders.toNat ≤ wide.maximumOrders.toNat

theorem validPrice_range {c : BookConfig} {p : Price} (h : c.validPrice p = true) :
    c.minimumPrice ≤ p ∧ p ≤ c.maximumPrice := by
  simp only [BookConfig.validPrice, Bool.and_eq_true, decide_eq_true_eq] at h
  exact h.1

theorem sweep_congr {a : Side} {limit limit' : Price} {os : List RestingOrder}
    (h : ∀ o ∈ os, crossesPrice a limit o.price = crossesPrice a limit' o.price) (quantity : Quantity) :
    sweep a limit quantity os = sweep a limit' quantity os := by
  induction os generalizing quantity with
  | nil => rfl
  | cons o os ih =>
    rw [sweep, sweep, h o List.mem_cons_self, ih fun x hx => h x (List.mem_cons_of_mem _ hx)]

theorem available_congr {a : Side} {limit limit' : Price} {os : List RestingOrder}
    (h : ∀ o ∈ os, crossesPrice a limit o.price = crossesPrice a limit' o.price) :
    available a limit os = available a limit' os := by
  unfold available
  congr 1
  refine Finset.filter_congr fun p hp => ?_
  obtain ⟨o, ho, rfl⟩ := List.mem_map.mp (List.mem_toFinset.mp hp)
  rw [h o ho]

namespace Market

variable {m : Market} {wide : BookConfig} {c : Command}

/-- The same orders with another configuration. -/
def widen (m : Market) (wide : BookConfig) : Market := { m with config := wide }

/-- The prices of the resting orders are on the ladder, and they are not too many. -/
structure Fits (m : Market) : Prop where
  prices : ∀ s, ∀ o ∈ m.depth s, m.config.validPrice o.price = true
  size : m.size ≤ m.config.maximumOrders.toNat

theorem Fits.limit (h : m.Fits) (hcovers : wide.Covers m.config) (s : Side) :
    ∀ o ∈ m.depth s, crossesPrice c.side (m.limit c) o.price =
      crossesPrice c.side ((m.widen wide).limit c) o.price := by
  intro o ho
  have hnarrow := validPrice_range (h.prices s o ho)
  have hwide := validPrice_range (hcovers.prices _ (h.prices s o ho))
  unfold Market.limit widen
  split_ifs with hmarket hside
  · rw [hside, crossesPrice, crossesPrice, decide_eq_true hnarrow.2, decide_eq_true hwide.2]
  · have hsell : c.side = .sell := by
      cases hs : c.side with
      | buy => exact absurd hs hside
      | sell => rfl
    rw [hsell, crossesPrice, crossesPrice, decide_eq_true hnarrow.1, decide_eq_true hwide.1]
  · rfl

theorem Fits.execute (h : m.Fits) (hcovers : wide.Covers m.config) (c : Command) :
    (m.widen wide).execute c = m.execute c := by
  have hsweep := sweep_congr (h.limit (c := c) hcovers c.side.opposite) c.quantity
  unfold Market.execute
  rw [hsweep]
  rfl

theorem Fits.canFill (h : m.Fits) (hcovers : wide.Covers m.config) (c : Command) :
    (m.widen wide).canFill c ↔ m.canFill c := by
  have havailable := available_congr (h.limit (c := c) hcovers c.side.opposite)
  unfold Market.canFill
  rw [havailable]
  rfl

theorem Fits.withdraw (h : m.Fits) (id : OrderId) : Fits { m with depth := withdraw m.depth id } := by
  refine ⟨fun s o ho => h.prices s o (List.mem_of_mem_filter ho), le_trans ?_ h.size⟩
  exact Nat.add_le_add (List.length_filter_le ..) (List.length_filter_le ..)

theorem Fits.submit (h : m.Fits) (hcovers : wide.Covers m.config)
    (hprice : m.submit c ≠ .error .invalidPrice) (hfull : m.submit c ≠ .error .bookCapacity) :
    (m.widen wide).submit c = m.submit c := by
  have hexecute := h.execute hcovers c
  have hfill := h.canFill hcovers c
  unfold Market.submit at hprice hfull ⊢
  rw [hexecute]
  by_cases hquantity : c.quantity = 0
  · rw [if_pos hquantity, if_pos hquantity]
  rw [if_neg hquantity] at hprice hfull
  have hvalid : ¬ (c.orderType ≠ .market ∧ m.config.validPrice c.price = false) :=
    fun hc => hprice (if_pos hc)
  have hvalid' : ¬ (c.orderType ≠ .market ∧ (m.widen wide).config.validPrice c.price = false) := by
    rintro ⟨hmarket, hoff⟩
    have hon := hcovers.prices c.price (by simpa using fun hoff => hvalid ⟨hmarket, hoff⟩)
    cases hoff.symm.trans hon
  rw [if_neg hvalid] at hfull
  rw [if_neg hquantity, if_neg hquantity, if_neg hvalid, if_neg hvalid']
  by_cases hknown : (m.find c.orderId).isSome
  · rw [if_pos hknown, if_pos (show ((m.widen wide).find c.orderId).isSome from hknown)]
  rw [if_neg hknown] at hfull
  rw [if_neg hknown, if_neg (show ¬ ((m.widen wide).find c.orderId).isSome from hknown)]
  by_cases hkill : c.orderType = .fillOrKill ∧ ¬ m.canFill c
  · rw [if_pos hkill, if_pos (by rwa [hfill])]
  rw [if_neg hkill] at hfull
  rw [if_neg hkill, if_neg (by rwa [hfill])]
  have hroom : ¬ (m.size = m.config.maximumOrders.toNat ∧ c.orderType = .limit ∧ ¬ m.canFill c) :=
    fun hc => hfull (if_pos hc)
  -- A wider book is not full before the narrow one is.
  have hroom' : ¬ ((m.widen wide).size = (m.widen wide).config.maximumOrders.toNat ∧
      c.orderType = .limit ∧ ¬ (m.widen wide).canFill c) := by
    rintro ⟨hsize, hrest⟩
    rw [hfill] at hrest
    refine hroom ⟨le_antisymm h.size ?_, hrest⟩
    exact hcovers.orders.trans_eq hsize.symm
  rw [if_neg hroom, if_neg hroom']

/-- **A command that is not rejected for its price or for the book's capacity** is performed alike. -/
theorem Fits.perform (h : m.Fits) (hcovers : wide.Covers m.config)
    (hprice : m.perform c ≠ .error .invalidPrice) (hfull : m.perform c ≠ .error .bookCapacity) :
    (m.widen wide).perform c = m.perform c := by
  unfold Market.perform at hprice hfull ⊢
  cases htype : c.type with
  | new =>
    rw [htype] at hprice hfull
    exact h.submit hcovers hprice hfull
  | cancel => rfl
  | replace =>
    rw [htype] at hprice hfull
    dsimp only at hprice hfull ⊢
    unfold Market.replace at hprice hfull ⊢
    rw [show (m.widen wide).find c.orderId = m.find c.orderId from rfl]
    cases hfind : m.find c.orderId with
    | none => rfl
    | some o =>
      rw [hfind] at hprice
      dsimp only at hprice ⊢
      by_cases hquantity : c.quantity = 0
      · rw [if_pos hquantity, if_pos hquantity]
      rw [if_neg hquantity] at hprice
      have hvalid : ¬ m.config.validPrice c.price = false := fun hc => hprice (if_pos hc)
      have hvalid' : ¬ (m.widen wide).config.validPrice c.price = false := by
        intro hoff
        have hon := hcovers.prices c.price (by simpa using hvalid)
        cases hoff.symm.trans hon
      have hexecute := (h.withdraw c.orderId).execute hcovers (replacement c o)
      rw [if_neg hquantity, if_neg hquantity, if_neg hvalid, if_neg hvalid', ← hexecute]
      rfl

/-- The reasons that depend on the configuration. -/
def Local (events : List Event) : Prop :=
  ∀ e ∈ events, e.reason ≠ .invalidPrice ∧ e.reason ≠ .bookCapacity

theorem Fits.process (h : m.Fits) (hcovers : wide.Covers m.config) (hlocal : Local (m.process c).2) :
    (m.widen wide).process c = ((m.process c).1.widen wide, (m.process c).2) := by
  unfold Market.process at hlocal ⊢
  rw [show (m.widen wide).lastSequence = m.lastSequence from rfl]
  split_ifs at hlocal ⊢ with hgap
  · rfl
  · have hperform : (m.widen wide).perform c = m.perform c := by
      refine h.perform hcovers (fun herror => ?_) fun herror => ?_
      · rw [herror] at hlocal
        exact (hlocal _ List.mem_cons_self).1 rfl
      · rw [herror] at hlocal
        exact (hlocal _ List.mem_cons_self).2 rfl
    rw [hperform]
    cases m.perform c with
    | error reason => rfl
    | ok done => rfl

end Market

/-! ## Books -/

variable {b b' : OrderBook} {q q' : Queues} {wide : BookConfig}

theorem Inv.fits (h : Inv b q) : (b.market q).Fits where
  prices s o ho := by
    obtain ⟨i, n, hn, rfl⟩ := h.mem_depth.mp ho
    rw [h.order_price hn]
    exact h.ladder.validPrice_indexPrice (h.lt_of_mem hn)
  size := by
    have hsize := h.size_market
    have hnodes := h.nodes_size
    change (b.market q).size ≤ b.config.maximumOrders.toNat
    omega

theorem Inv.run_widen (h : Inv b q) (hcovers : wide.Covers b.config) (cs : List Command)
    (hlocal : Market.Local ((b.market q).run cs).2.flatten) :
    ((b.market q).widen wide).run cs =
      (((b.market q).run cs).1.widen wide, ((b.market q).run cs).2) := by
  induction cs generalizing b q with
  | nil => rfl
  | cons c cs ih =>
    obtain ⟨b₁, q₁, -, hinv, hm, -⟩ := h.process c []
    rw [Market.run, List.flatten_cons] at hlocal
    have hone := h.fits.process (c := c) hcovers fun e he => hlocal e (List.mem_append_left _ he)
    have hconfig : b₁.config = b.config := by
      have := congrArg Market.config hm
      rwa [Market.process_config] at this
    have hrest := ih hinv (hconfig ▸ hcovers) fun e he => by
      rw [hm] at he
      exact hlocal e (List.mem_append_right _ he)
    rw [hm] at hrest
    rw [Market.run, hone, hrest, Market.run]

theorem flatMap_of_sorted {α β : Type} {lt : α → α → Prop} (hasymm : ∀ x y, lt x y → ¬ lt y x)
    {f : α → List β} {l l' : List α} (hl : l.Pairwise lt) (hl' : l'.Pairwise lt)
    (h : ∀ x, f x ≠ [] → x ∈ l ∧ x ∈ l') : l.flatMap f = l'.flatMap f := by
  have hfilter : ∀ l : List α, l.flatMap f = (l.filter fun x => !(f x).isEmpty).flatMap f := by
    intro l
    induction l with
    | nil => rfl
    | cons x l ih =>
      rw [List.flatMap_cons, ih, List.filter_cons]
      cases hx : f x with
      | nil => simp
      | cons y ys => simp [hx]
  have hnodup : ∀ {l : List α}, l.Pairwise lt → l.Nodup := by
    intro l hp
    refine List.Pairwise.imp (fun hlt heq => ?_) hp
    subst heq
    exact hasymm _ _ hlt hlt
  rw [hfilter l, hfilter l']
  congr 1
  refine List.Perm.eq_of_pairwise (fun x y _ _ hxy hyx => absurd hyx (hasymm x y hxy))
    (hl.filter _) (hl'.filter _) ?_
  refine (List.perm_ext_iff_of_nodup ((hnodup hl).filter _) ((hnodup hl').filter _)).mpr fun x => ?_
  simp only [List.mem_filter, Bool.not_eq_true', List.isEmpty_eq_false_iff]
  exact ⟨fun hx => ⟨(h x hx.2).2, hx.2⟩, fun hx => ⟨(h x hx.2).1, hx.2⟩⟩

theorem Core.prices_pairwise (h : Core b q) :
    ((List.range b.priceCount).map b.config.indexPrice).Pairwise (· < ·) := by
  rw [List.pairwise_map]
  refine List.pairwise_lt_range.imp_of_mem fun hi hj hlt => ?_
  exact (h.ladder.indexPrice_lt_iff (List.mem_range.mp hi) (List.mem_range.mp hj)).mpr hlt

theorem Core.mem_prices (h : Core b q) {p : Price} (hp : b.config.validPrice p = true) :
    p ∈ (List.range b.priceCount).map b.config.indexPrice :=
  List.mem_map.mpr ⟨_, List.mem_range.mpr (h.ladder.priceIndex_lt hp), h.ladder.indexPrice_priceIndex hp⟩

/-- **Books with the same orders list them alike**, whatever their ladders. -/
theorem Inv.restingOrders_widen (h : Inv b q) (h' : Inv b' q')
    (hm : b'.market q' = (b.market q).widen wide) (hcovers : wide.Covers b.config) :
    b'.restingOrders = b.restingOrders := by
  have hconfig : b'.config = wide := congrArg Market.config hm
  have hlevel : ∀ s p, (b'.market q').level s p = (b.market q).level s p := by
    intro s p
    rw [hm]
    rfl
  let f : Price → List RestingOrder := fun p => (b.market q).level .buy p ++ (b.market q).level .sell p
  have horders : (b.market q).orders b.priceCount =
      ((List.range b.priceCount).map b.config.indexPrice).flatMap f := by
    rw [List.flatMap_map]
    rfl
  have horders' : (b'.market q').orders b'.priceCount =
      ((List.range b'.priceCount).map b'.config.indexPrice).flatMap f := by
    rw [List.flatMap_map, Market.orders]
    refine List.flatMap_congr fun i _ => ?_
    rw [hlevel, hlevel]
    rfl
  rw [h.restingOrders, h'.restingOrders, horders, horders']
  refine congrArg Except.ok (flatMap_of_sorted (fun _ _ => Int64.lt_asymm) h'.prices_pairwise
    h.prices_pairwise fun p hp => ?_)
  have hvalid : b.config.validPrice p = true := by
    by_contra hoff
    exact hp (by simp only [f, h.level_invalid _ hoff, List.append_nil])
  exact ⟨h'.mem_prices (hconfig ▸ hcovers.prices p hvalid), h.mem_prices hvalid⟩

/-- What two books with the same orders and the same history agree on. -/
structure SameReadings (b b' : OrderBook) : Prop where
  lastSequence : b'.stats.lastSequence = b.stats.lastSequence
  commands : b'.stats.commands = b.stats.commands
  trades : b'.stats.trades = b.stats.trades
  rejected : b'.stats.rejected = b.stats.rejected
  count : b'.stats.restingOrders = b.stats.restingOrders
  restingOrders : b'.restingOrders = b.restingOrders
  bestBid : b'.bestBid = b.bestBid
  bestAsk : b'.bestAsk = b.bestAsk
  quantityAt : ∀ s p, b'.quantityAt s p = b.quantityAt s p

/-- **A book with a wider configuration does the same**, as long as the narrow one rejects nothing for its
price or for the book's capacity: it emits the same events and ends with the same orders and counters. -/
theorem wider_book_agrees {narrow : BookConfig} (hb : OrderBook.new narrow = .ok b)
    (hb' : OrderBook.new wide = .ok b') (hcovers : wide.Covers narrow) (cs : List Command) :
    ∃ b₁ evs, b.run cs = .ok (b₁, evs) ∧
      ((∀ e ∈ evs.flatten, e.reason ≠ .invalidPrice ∧ e.reason ≠ .bookCapacity) →
        ∃ b₁', b'.run cs = .ok (b₁', evs) ∧ SameReadings b₁ b₁') := by
  obtain ⟨hinv, hconfig, hstats⟩ := Inv.new hb
  obtain ⟨hinv', hconfig', hstats'⟩ := Inv.new hb'
  obtain ⟨b₁, q₁, hrun, hinv₁, hm₁, htrades, hrejected⟩ := hinv.run cs
  refine ⟨b₁, _, hrun, fun hlocal => ?_⟩
  obtain ⟨b₁', q₁', hrun', hinv₁', hm₁', htrades', hrejected'⟩ := hinv'.run cs
  have hstart : b'.market (fun _ _ => []) = (b.market fun _ _ => []).widen wide := by
    rw [OrderBook.market, OrderBook.market, hconfig', hstats', hstats,
      hinv.empty_depth (by rw [hstats]), hinv'.empty_depth (by rw [hstats'])]
    rfl
  have hsame := hinv.run_widen (hconfig.symm ▸ hcovers) cs hlocal
  rw [hstart, hsame] at hrun' hm₁' htrades' hrejected'
  have hmarket : b₁'.market q₁' = (b₁.market q₁).widen wide := by rw [hm₁', hm₁]
  have hcovers₁ : wide.Covers b₁.config := by
    have hconfig₁ : b₁.config = narrow :=
      ((congrArg Market.config hm₁).trans (Market.run_config _ _)).trans hconfig
    rwa [hconfig₁]
  have hlast : b₁'.stats.lastSequence = b₁.stats.lastSequence := congrArg Market.lastSequence hmarket
  refine ⟨b₁', hrun', hlast, ?_, ?_, ?_, ?_,
    hinv₁.restingOrders_widen hinv₁' hmarket hcovers₁, ?_, ?_, fun s p => ?_⟩
  · rw [new_run_commands hb hrun, new_run_commands hb' hrun', hlast]
  · rw [htrades, htrades', hstats, hstats']
  · rw [hrejected, hrejected', hstats, hstats']
  · rw [hinv₁.restingOrders_eq, hinv₁'.restingOrders_eq, hmarket]
    rfl
  · rw [hinv₁.bestBid, hinv₁'.bestBid, hmarket]
    rfl
  · rw [hinv₁.bestAsk, hinv₁'.bestAsk, hmarket]
    rfl
  · rw [hinv₁.quantityAt, hinv₁'.quantityAt, hmarket]
    rfl

theorem exists_resting : ∃ b live evs, OrderBook.new ⟨1, 4, 1, 2⟩ = .ok b ∧
    b.run [⟨1, .new, .buy, .limit, 0, 7, 2, 5⟩] = .ok (live, evs) ∧ live.stats.restingOrders = 1 ∧
    Market.Local evs.flatten := by
  have hcomputed : ((do
      let b ← OrderBook.new ⟨1, 4, 1, 2⟩
      let r ← b.run [⟨1, .new, .buy, .limit, 0, 7, 2, 5⟩]
      .ok (r.2.flatten.map Event.reason, r.1.stats.restingOrders)) :
        Except Fault (List RejectReason × ℕ)) = .ok ([.none, .none], 1) := by decide +kernel
  obtain ⟨b, hb, hcomputed⟩ := bind_eq_ok.mp hcomputed
  obtain ⟨⟨live, evs⟩, hrun, hcomputed⟩ := bind_eq_ok.mp hcomputed
  obtain ⟨hreasons, hresting⟩ := Prod.mk.inj (Except.ok.inj hcomputed)
  refine ⟨b, live, evs, hb, hrun, hresting, fun e he => ?_⟩
  have hmem := List.mem_map_of_mem (f := Event.reason) he
  rw [hreasons] at hmem
  have hnone : e.reason = .none := by simpa using hmem
  rw [hnone]
  decide

/-- An order rests in a small book and in a larger one. -/
theorem wider_book_agrees_one_order : ∃ b b' b₁ b₁' evs, OrderBook.new ⟨1, 4, 1, 2⟩ = .ok b ∧
    OrderBook.new ⟨0, 9, 1, 3⟩ = .ok b' ∧
    b.run [⟨1, .new, .buy, .limit, 0, 7, 2, 5⟩] = .ok (b₁, evs) ∧
    b'.run [⟨1, .new, .buy, .limit, 0, 7, 2, 5⟩] = .ok (b₁', evs) ∧
    b₁.stats.restingOrders = 1 ∧ b₁'.restingOrders = b₁.restingOrders := by
  obtain ⟨b, live, evs, hb, hrun, hresting, hlocal⟩ := exists_resting
  obtain ⟨b', hb'⟩ := OrderBook.new_isOk (by decide : checkedPriceCount ⟨0, 9, 1, 3⟩ = .ok 10) (by decide)
  have hcovers : BookConfig.Covers ⟨0, 9, 1, 3⟩ ⟨1, 4, 1, 2⟩ := by
    refine ⟨fun p hp => ?_, by decide⟩
    have hwide : Ladder ⟨0, 9, 1, 3⟩ 10 := ladder_of_checked (by decide)
    have hnarrow : Ladder ⟨1, 4, 1, 2⟩ 4 := ladder_of_checked (by decide)
    rw [hnarrow.validPrice_iff] at hp
    rw [hwide.validPrice_iff]
    simp at hp ⊢
    omega
  obtain ⟨b₁, evs₁, hrun₁, hagrees⟩ :=
    wider_book_agrees hb hb' hcovers [⟨1, .new, .buy, .limit, 0, 7, 2, 5⟩]
  cases hrun.symm.trans hrun₁
  obtain ⟨b₁', hrun', hsame⟩ := hagrees hlocal
  exact ⟨b, b', live, b₁', evs, hb, hb', hrun, hrun', hresting, hsame.restingOrders⟩

end Dme
