import MatchingEngine.Allocation
import MatchingEngine.Snapshot

/-!
# Liquidity decisions

A level keeps the sum of its quantities in one machine word. What the book says of its liquidity is
right just as long as no level holds `2 ^ 64` or more.

* `LiquidityExact`: the totals of the prices, and the two decisions that read them, are those of the
  resting orders.
* `Market.process_new`: what a new order that passes the other checks is answered.
* `Inv.canFill_iff`: the preflight compares an order with the orders it crosses, if the levels fit.
* **`liquidity_exact_iff`**, and `liquidity_wraps`: a book where they do not.
-/

set_option autoImplicit false

namespace Dme

/-- The orders of a side at a price. -/
def ordersAt (orders : List RestingOrder) (s : Side) (p : Price) : List RestingOrder :=
  orders.filter fun o => o.side = s ∧ o.price = p

/-- The orders an order of side `a` crosses. -/
def ordersWithin (orders : List RestingOrder) (a : Side) (limit : Price) : List RestingOrder :=
  orders.filter fun o => o.side = a.opposite ∧ crossesPrice a limit o.price

/-- A new order in sequence that passes the checks of quantity, price and id. -/
structure Admissible (b : OrderBook) (orders : List RestingOrder) (c : Command) : Prop where
  type : c.type = .new
  sequence : c.sequence = b.stats.lastSequence + 1
  quantity : c.quantity ≠ 0
  price : b.config.validPrice c.price = true
  fresh : ∀ o ∈ orders, o.orderId ≠ c.orderId

/-- The command is rejected for this reason. -/
def RejectedFor (b : OrderBook) (c : Command) (reason : RejectReason) : Prop :=
  ∃ b', b.process c [] = .ok (b', [eventOf .rejected c 0 0 0 reason])

/-- **The book with the orders `orders` decides on what they hold.** -/
structure LiquidityExact (b : OrderBook) (orders : List RestingOrder) : Prop where
  quantityAt : ∀ s p, ∃ n : Quantity, b.quantityAt s p = .ok n ∧
    n.toNat = totalQuantity (ordersAt orders s p)
  fillOrKill : ∀ c, Admissible b orders c → c.orderType = .fillOrKill →
    (RejectedFor b c .wouldNotFill ↔
      totalQuantity (ordersWithin orders c.side c.price) < c.quantity.toNat)
  capacity : ∀ c, Admissible b orders c → c.orderType = .limit → b.freeNodes = [] →
    (RejectedFor b c .bookCapacity ↔
      totalQuantity (ordersWithin orders c.side c.price) < c.quantity.toNat)

theorem totalQuantity_perm {os os' : List RestingOrder} (h : os.Perm os') :
    totalQuantity os = totalQuantity os' := (h.map _).sum_eq

/-! ## New orders -/

theorem Market.process_new {m : Market} {c : Command} (hc : c.type = .new)
    (hseq : c.sequence = m.lastSequence + 1) (hq : c.quantity ≠ 0)
    (hp : m.config.validPrice c.price = true) (hf : m.find c.orderId = none) :
    (m.process c).2 =
      if c.orderType = .fillOrKill ∧ ¬ m.canFill c then [rejection c .wouldNotFill]
      else if m.size = m.config.maximumOrders.toNat ∧ c.orderType = .limit ∧ ¬ m.canFill c then
        [rejection c .bookCapacity]
      else eventOf .accepted c 0 0 0 .none :: (m.execute c).2 := by
  rw [process, if_neg (not_not.mpr hseq), perform, hc]
  simp only [submit, if_neg hq, hp, hf, Option.isSome_none, Bool.true_eq_false, and_false, if_false,
    Bool.false_eq_true]
  split_ifs <;> rfl

variable {b : OrderBook} {q : Queues}

theorem Inv.rejectedFor_iff (h : Inv b q) (c : Command) (reason : RejectReason) :
    RejectedFor b c reason ↔ ((b.market q).process c).2 = [eventOf .rejected c 0 0 0 reason] := by
  obtain ⟨b', q', hp, -⟩ := h.process c []
  rw [List.nil_append] at hp
  constructor
  · rintro ⟨b'', hp'⟩
    exact (Prod.mk.inj (Except.ok.inj (hp.symm.trans hp'))).2
  · intro he
    exact ⟨b', he ▸ hp⟩

/-- **The preflight compares an order with the orders it crosses**, if the levels fit. -/
theorem Inv.canFill_iff (h : Inv b q)
    (hfits : ∀ s p, totalQuantity (ordersAt ((b.market q).orders b.priceCount) s p) < 2 ^ 64)
    {c : Command} (hc : c.orderType ≠ .market) :
    (b.market q).canFill c ↔ ¬ totalQuantity
      (ordersWithin ((b.market q).orders b.priceCount) c.side c.price) < c.quantity.toNat := by
  have hlimit : (b.market q).limit c = c.price := by simp [Market.limit, hc]
  have hlevels : ∀ p, ((atPrice (b.depth q c.side.opposite) p).map fun o => o.quantity.toNat).sum <
      2 ^ 64 := fun p =>
    (totalQuantity_perm (h.filter_orders c.side.opposite p)).symm.trans_lt (hfits _ p)
  have hwithin : totalQuantity
      (ordersWithin ((b.market q).orders b.priceCount) c.side c.price) =
      crossing c.side c.price (b.depth q c.side.opposite) :=
    totalQuantity_perm (h.filter_side c.side.opposite fun o => crossesPrice c.side c.price o.price)
  rw [Market.canFill, hlimit, hwithin, not_lt]
  change _ ≤ available c.side c.price (b.depth q c.side.opposite) ↔ _
  rw [available_eq_of_fits c.side c.price hlevels]

theorem Inv.process_admissible (h : Inv b q) {c : Command}
    (ha : Admissible b ((b.market q).orders b.priceCount) c) :
    ((b.market q).process c).2 =
      if c.orderType = .fillOrKill ∧ ¬ (b.market q).canFill c then
        [Market.rejection c .wouldNotFill]
      else if (b.market q).size = b.config.maximumOrders.toNat ∧ c.orderType = .limit ∧
          ¬ (b.market q).canFill c then [Market.rejection c .bookCapacity]
      else eventOf .accepted c 0 0 0 .none :: ((b.market q).execute c).2 := by
  refine Market.process_new ha.type ha.sequence ha.quantity ha.price ?_
  rw [Market.find_eq_none]
  intro s x hx
  refine ha.fresh x (h.mem_orders.mpr ?_)
  have hs := h.depth_side hx
  rwa [hs]

theorem Inv.liquidityExact (h : Inv b q)
    (hfits : ∀ s p, totalQuantity (ordersAt ((b.market q).orders b.priceCount) s p) < 2 ^ 64) :
    LiquidityExact b ((b.market q).orders b.priceCount) where
  quantityAt s p := by
    refine ⟨_, h.quantityAt s p, ?_⟩
    have hperm := totalQuantity_perm (h.filter_orders s p)
    have := hfits s p
    rw [toNat_levelTotal, ordersAt, hperm]
    rw [ordersAt, hperm] at this
    exact Nat.mod_eq_of_lt this
  fillOrKill c ha hc := by
    rw [h.rejectedFor_iff, h.process_admissible ha, ← not_iff_not,
      ← h.canFill_iff hfits (by rw [hc]; decide)]
    by_cases hfill : (b.market q).canFill c
    · simp [hc, hfill, eventOf]
    · simp [hc, hfill, Market.rejection]
  capacity c ha hc hfull := by
    rw [h.rejectedFor_iff, h.process_admissible ha, ← not_iff_not,
      ← h.canFill_iff hfits (by rw [hc]; decide)]
    have hsize := h.freeNodes_eq_nil.mp hfull
    by_cases hfill : (b.market q).canFill c
    · simp [hc, hfill, eventOf]
    · simp [hc, hfill, hsize, Market.rejection]

/-- **Liquidity decisions are exact just when every level fits in its word**: in any reachable book,
the totals of the prices are those of the resting orders, and fill-or-kill orders and limit orders
that find the book full are rejected exactly when what they cross is less than their quantity, if and
only if the orders of each side and price hold less than `2 ^ 64` together. -/
theorem liquidity_exact_iff (h : Reachable b) : ∃ orders, b.restingOrders = .ok orders ∧
    (LiquidityExact b orders ↔ ∀ s p, totalQuantity (ordersAt orders s p) < 2 ^ 64) := by
  obtain ⟨q, hinv⟩ := h.inv
  refine ⟨_, hinv.restingOrders, fun hexact s p => ?_, hinv.liquidityExact⟩
  obtain ⟨n, -, hn⟩ := hexact.quantityAt s p
  exact hn ▸ n.toNat_lt

/-- A book with one order. -/
theorem liquidity_exact_iff_one_order : ∃ b, Reachable b ∧
    b.restingOrders = .ok [⟨7, .sell, 2, 5, 1⟩] ∧ LiquidityExact b [⟨7, .sell, 2, 5, 1⟩] := by
  have hrun : (do
      let b₀ ← OrderBook.new ⟨1, 4, 1, 2⟩
      let r ← b₀.process ⟨1, .new, .sell, .limit, 0, 7, 2, 5⟩ []
      r.1.restingOrders) = .ok [⟨7, .sell, 2, 5, 1⟩] := by decide +kernel
  obtain ⟨b₀, hnew, hrun⟩ := bind_eq_ok.mp hrun
  obtain ⟨⟨b, evs⟩, hp, hrun⟩ := bind_eq_ok.mp hrun
  have hb := (Reachable.new hnew).process hp
  obtain ⟨orders, horders, hiff⟩ := liquidity_exact_iff hb
  cases hrun.symm.trans horders
  refine ⟨b, hb, hrun, hiff.mpr fun s p => ?_⟩
  rw [ordersAt, List.filter_cons, List.filter_nil]
  split_ifs
  · decide
  · decide

/-- **A level that wraps.** Two sell orders of `2 ^ 63` at one price: the book says that nothing
rests there, and a fill-or-kill order for one is rejected. -/
theorem liquidity_wraps : (do
    let b₀ ← OrderBook.new ⟨1, 4, 1, 4⟩
    let r₁ ← b₀.process ⟨1, .new, .sell, .limit, 0, 7, 2, 2 ^ 63⟩ []
    let r₂ ← r₁.1.process ⟨2, .new, .sell, .limit, 0, 8, 2, 2 ^ 63⟩ []
    let orders ← r₂.1.restingOrders
    let total ← r₂.1.quantityAt .sell 2
    let r₃ ← r₂.1.process ⟨3, .new, .buy, .fillOrKill, 0, 9, 2, 1⟩ []
    .ok (totalQuantity (ordersWithin orders .buy 2), total, r₃.2)) =
    (.ok (2 ^ 64, 0, [⟨3, .rejected, .buy, .wouldNotFill, 0, 9, 0, 0, 0⟩]) : Except Fault _) := by
  decide +kernel

end Dme
