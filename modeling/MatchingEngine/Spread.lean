import MatchingEngine.Restore

/-!
# The book is never crossed or locked

* `Uncrossed`: every bid is below every ask.
* `Market.perform_uncrossed`: a command keeps it.
* `Travelled`: books reached by commands and by snapshot round trips.
* **`book_never_crosses`**.
-/

set_option autoImplicit false

namespace Dme

variable {d d' : Depth} {o : RestingOrder} {s : Side}

/-- Every bid is below every ask. -/
def Uncrossed (d : Depth) : Prop := ∀ x ∈ d .buy, ∀ y ∈ d .sell, x.price < y.price

theorem Shrinks.uncrossed (h : Shrinks d d') (hu : Uncrossed d) : Uncrossed d' := by
  intro x hx y hy
  obtain ⟨x', hx', hxk⟩ := h.mem hx
  obtain ⟨y', hy', hyk⟩ := h.mem hy
  rw [← show x'.price = x.price from congrArg (fun k => k.2.2.1) hxk,
    ← show y'.price = y.price from congrArg (fun k => k.2.2.1) hyk]
  exact hu x' hx' y' hy'

theorem Uncrossed.enqueue (hu : Uncrossed d)
    (ho : ∀ y ∈ d o.side.opposite, crossesPrice o.side o.price y.price = false) :
    Uncrossed (enqueue d o) := by
  intro x hx y hy
  rcases mem_enqueue.mp hx with ⟨rfl, hs⟩ | hx' <;> rcases mem_enqueue.mp hy with ⟨rfl, hs'⟩ | hy'
  · rw [← hs] at hs'
    cases hs'
  · rw [← hs] at ho
    simpa [crossesPrice] using ho y hy'
  · rw [← hs'] at ho
    simpa [crossesPrice] using ho x hx'
  · exact hu x hx' y hy'

theorem Market.perform_uncrossed {m : Market} {c : Command} {evs : List Event}
    (hs : ∀ s, BestFirst s (m.depth s)) (hu : Uncrossed m.depth)
    (h : m.perform c = .ok (d', evs)) : Uncrossed d' := by
  obtain ⟨d, hshr, rfl | ⟨o, rfl, hj⟩⟩ := perform_shape hs h
  · exact hshr.uncrossed hu
  · exact (hshr.uncrossed hu).enqueue hj.uncrossed

theorem Market.process_uncrossed {m : Market} (hs : ∀ s, BestFirst s (m.depth s))
    (hu : Uncrossed m.depth) (c : Command) : Uncrossed (m.process c).1.depth := by
  rw [Market.process]
  split_ifs with hseq
  · exact hu
  · cases hp : m.perform c with
    | error r => exact hu
    | ok r => exact perform_uncrossed hs hu hp

/-! ## Round trips -/

variable {b : OrderBook} {q : Queues}

/-- Books reached from new ones by commands and by snapshot round trips. -/
inductive Travelled : OrderBook → Prop
  | new {config : BookConfig} {b : OrderBook} (h : OrderBook.new config = .ok b) : Travelled b
  | process {b b' : OrderBook} {c : Command} {events events' : List Event} (hb : Travelled b)
    (h : b.process c events = .ok (b', events')) : Travelled b'
  | roundTrip {b b₀ b' : OrderBook} {orders : List RestingOrder} (hb : Travelled b)
    (hread : b.restingOrders = .ok orders) (hnew : OrderBook.new b.config = .ok b₀)
    (h : b₀.restore b.stats.lastSequence orders = (b', .ok ())) : Travelled b'

theorem Travelled.uncrossed (h : Travelled b) : ∃ q, Inv b q ∧ Uncrossed (b.depth q) := by
  induction h with
  | new h =>
    obtain ⟨hinv, -, hstats⟩ := Inv.new h
    refine ⟨_, hinv, ?_⟩
    rw [hinv.empty_depth (by rw [hstats])]
    intro x hx
    cases hx
  | @process b b' c events events' _ h ih =>
    obtain ⟨q, hinv, hu⟩ := ih
    obtain ⟨b₁, q₁, hp, hinv₁, hm, -⟩ := hinv.process c events
    rw [h] at hp
    cases hp
    refine ⟨q₁, hinv₁, ?_⟩
    have := Market.process_uncrossed (m := b.market q) hinv.depth_bestFirst hu c
    rw [← hm] at this
    exact this
  | @roundTrip b b₀ b' orders _ hread hnew h ih =>
    obtain ⟨q, hinv, hu⟩ := ih
    obtain ⟨q', hinv', -, hdepth, -⟩ := (Inv.new hnew).1.restore_ok h
    refine ⟨q', hinv', ?_⟩
    rw [hinv.restingOrders] at hread
    cases hread
    -- a round trip keeps the set of orders
    have hmem : ∀ s x, x ∈ b'.depth q' s → x ∈ b.depth q s := by
      intro s x hx
      rw [hdepth, mem_enqueueAll, mem_byPriority] at hx
      rcases hx with ⟨hx, rfl⟩ | hx
      · exact hinv.mem_orders.mp hx
      · cases hx
    exact fun x hx y hy => hu x (hmem _ x hx) y (hmem _ y hy)

/-- **The book is never crossed or locked.** -/
theorem book_never_crosses (h : Travelled b) :
    ∃ orders, b.restingOrders = .ok orders ∧ ∀ bid ∈ orders, bid.side = .buy →
      ∀ ask ∈ orders, ask.side = .sell → bid.price < ask.price := by
  obtain ⟨q, hinv, hu⟩ := h.uncrossed
  refine ⟨_, hinv.restingOrders, fun bid hbid hs ask hask hs' => ?_⟩
  exact hu bid (hinv.mem_orders_side.mp ⟨hbid, hs⟩) ask (hinv.mem_orders_side.mp ⟨hask, hs'⟩)

/-- A bid and an ask that have gone through a round trip. -/
theorem book_never_crosses_round_trip : ∃ b b₀ b' orders, Travelled b ∧
    b.restingOrders = .ok orders ∧ OrderBook.new b.config = .ok b₀ ∧
    b₀.restore b.stats.lastSequence orders = (b', .ok ()) ∧
    ∃ bid ask : RestingOrder, b'.restingOrders = .ok [bid, ask] ∧ bid.side = .buy ∧ ask.side = .sell ∧
      bid.price < ask.price := by
  have hrun : (do
      let b ← OrderBook.new ⟨1, 4, 1, 2⟩
      let r₁ ← b.process ⟨1, .new, .buy, .limit, 0, 7, 2, 5⟩ []
      let r₂ ← r₁.1.process ⟨2, .new, .sell, .limit, 0, 8, 3, 4⟩ []
      let orders ← r₂.1.restingOrders
      let b₀ ← OrderBook.new r₂.1.config
      let r := b₀.restore r₂.1.stats.lastSequence orders
      let orders' ← r.1.restingOrders
      .ok (r.2, orders') : Except Fault _) =
      .ok (.ok (), [⟨7, .buy, 2, 5, 1⟩, ⟨8, .sell, 3, 4, 2⟩]) := by
    decide +kernel
  obtain ⟨b, hnew, hrun⟩ := bind_eq_ok.mp hrun
  obtain ⟨⟨b₁, events₁⟩, hp₁, hrun⟩ := bind_eq_ok.mp hrun
  obtain ⟨⟨b₂, events₂⟩, hp₂, hrun⟩ := bind_eq_ok.mp hrun
  obtain ⟨orders, hread, hrun⟩ := bind_eq_ok.mp hrun
  obtain ⟨b₀, hnew₀, hrun⟩ := bind_eq_ok.mp hrun
  obtain ⟨orders', hread', hrun⟩ := bind_eq_ok.mp hrun
  obtain ⟨hrestore, rfl⟩ := Prod.mk.inj (Except.ok.inj hrun)
  have hb : Travelled b₂ := ((Travelled.new hnew).process hp₁).process hp₂
  have hb' := hb.roundTrip hread hnew₀ (Prod.ext rfl hrestore)
  obtain ⟨orders', hread'', huncrossed⟩ := book_never_crosses hb'
  obtain rfl := Except.ok.inj (hread'.symm.trans hread'')
  exact ⟨b₂, b₀, _, orders, hb, hread, hnew₀, Prod.ext rfl hrestore, _, _, hread', rfl, rfl,
    huncrossed _ (by simp) rfl _ (by simp) rfl⟩

end Dme
