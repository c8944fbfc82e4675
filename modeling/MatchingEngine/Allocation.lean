import MatchingEngine.Restore

/-!
# Price-time allocation

* `OrderBook.bestOrders`: the orders of a side, best price first and in the order of their queue.
* **`Greedy`**: a quantity taken from a list of orders, each whole but for the last;
  `Greedy.total`: how much that is.
* `sweep_greedy`: a sweep takes its quantity from the orders that cross, and from no other.
* `PriceTime`, `Market.execute_priceTime`: what an order that is carried out does to the two sides.
* **`price_time_allocation`**.
-/

set_option autoImplicit false

namespace Dme

/-! ## The orders of a side -/

namespace OrderBook

/-- The orders resting at some levels, one level after another. -/
def queuesAt (b : OrderBook) (s : Side) : List ℕ → Except Fault (List RestingOrder)
  | [] => .ok []
  | i :: is => do
    let queue ← b.queueAt s i
    let queues ← b.queuesAt s is
    .ok (queue ++ queues)

/-- The orders of a side, best price first and in the order of their queue. -/
def bestOrders (b : OrderBook) (s : Side) : Except Fault (List RestingOrder) :=
  b.queuesAt s (bestFirst s b.priceCount)

end OrderBook

theorem Core.bestOrders {b : OrderBook} {q : Queues} (h : Core b q) (s : Side) :
    b.bestOrders s = .ok (b.depth q s) := by
  have hqueues : ∀ is : List ℕ, (∀ i ∈ is, i < b.priceCount) → b.queuesAt s is =
      .ok (is.flatMap fun i => (b.market q).level s (b.config.indexPrice i)) := by
    intro is
    induction is with
    | nil => exact fun _ => rfl
    | cons i is ih =>
      intro hlt
      rw [List.forall_mem_cons] at hlt
      simp only [OrderBook.queuesAt, h.queueAt s hlt.1, ih hlt.2, bind, Except.bind,
        List.flatMap_cons]
  rw [h.depth_eq_levels]
  exact hqueues _ fun i hi => mem_bestFirst.mp hi

/-! ## Greedy allocation -/

/-- What some orders hold. -/
def totalQuantity (os : List RestingOrder) : ℕ := (os.map fun o => o.quantity.toNat).sum

/-- The trade that takes an order whole. -/
def RestingOrder.fill (o : RestingOrder) : Fill := ⟨o.orderId, o.price, o.quantity⟩

/-- **A quantity `n` taken from a list of orders**, from the front: with which trades, and what is
left of the list. Every order taken is taken whole, or the last of them in part. -/
inductive Greedy (n : ℕ) : List RestingOrder → List Fill → List RestingOrder → Prop
  | whole (taken rest : List RestingOrder)
      (hn : totalQuantity taken = n ∨ rest = [] ∧ totalQuantity taken ≤ n) :
    Greedy n (taken ++ rest) (taken.map RestingOrder.fill) rest
  | part (taken rest : List RestingOrder) (o : RestingOrder) (quantity : Quantity)
      (hpos : quantity ≠ 0) (hlt : quantity < o.quantity)
      (hn : totalQuantity taken + quantity.toNat = n) :
    Greedy n (taken ++ o :: rest)
      (taken.map RestingOrder.fill ++ [⟨o.orderId, o.price, quantity⟩])
      ({ o with quantity := o.quantity - quantity } :: rest)

theorem totalQuantity_append (os os' : List RestingOrder) :
    totalQuantity (os ++ os') = totalQuantity os + totalQuantity os' := by
  rw [totalQuantity, List.map_append, List.sum_append]
  rfl

theorem totalQuantity_cons (o : RestingOrder) (os : List RestingOrder) :
    totalQuantity (o :: os) = o.quantity.toNat + totalQuantity os := rfl

/-- The quantities of some trades, added up. -/
def totalFills (fills : List Fill) : ℕ := (fills.map fun f => f.quantity.toNat).sum

theorem totalFills_fill (os : List RestingOrder) :
    totalFills (os.map RestingOrder.fill) = totalQuantity os := by
  rw [totalFills, List.map_map]
  rfl

section Greedy

variable {n : ℕ} {L L' : List RestingOrder} {fills : List Fill}

/-- **As much as there is, up to `n`.** -/
theorem Greedy.total (h : Greedy n L fills L') : totalFills fills = min n (totalQuantity L) := by
  cases h with
  | whole taken rest hn =>
    rw [totalFills_fill, totalQuantity_append]
    rcases hn with hn | ⟨rfl, hn⟩
    · omega
    · have : totalQuantity [] = 0 := rfl
      omega
  | part taken rest o quantity hpos hlt hn =>
    rw [UInt64.lt_iff_toNat_lt] at hlt
    have hfills : totalFills (taken.map RestingOrder.fill ++ [⟨o.orderId, o.price, quantity⟩]) =
        totalQuantity taken + quantity.toNat := by
      rw [← totalFills_fill]
      simp [totalFills]
    rw [hfills, totalQuantity_append, totalQuantity_cons]
    omega

theorem Greedy.positive (h : Greedy n L fills L') (hL : ∀ o ∈ L, o.quantity ≠ 0) :
    ∀ f ∈ fills, f.quantity ≠ 0 := by
  have hwhole : ∀ taken : List RestingOrder, (∀ o ∈ taken, o.quantity ≠ 0) →
      ∀ f ∈ taken.map RestingOrder.fill, f.quantity ≠ 0 := by
    rintro taken ht f hf
    obtain ⟨o, ho, rfl⟩ := List.mem_map.mp hf
    exact ht o ho
  cases h with
  | whole taken rest hn => exact hwhole taken fun o ho => hL o (List.mem_append_left _ ho)
  | part taken rest o quantity hpos hlt hn =>
    intro f hf
    rcases List.mem_append.mp hf with hf | hf
    · exact hwhole taken (fun o ho => hL o (List.mem_append_left _ ho)) f hf
    · rw [List.mem_singleton.mp hf]
      exact hpos

theorem Greedy.cons (h : Greedy n L fills L') (o : RestingOrder) :
    Greedy (o.quantity.toNat + n) (o :: L) (o.fill :: fills) L' := by
  cases h with
  | whole taken rest hn =>
    refine .whole (o :: taken) _ (hn.imp (fun hn => ?_) fun hn => ⟨hn.1, ?_⟩)
    · rw [totalQuantity_cons, hn]
    · have := hn.2
      rw [totalQuantity_cons]
      omega
  | part taken rest x quantity hpos hlt hn =>
    refine .part (o :: taken) rest x quantity hpos hlt ?_
    rw [totalQuantity_cons]
    omega

end Greedy

/-! ## Sweeps -/

section Sweep

variable {a : Side} {limit : Price} {os : List RestingOrder}

/-- The orders an aggressor crosses, and the others. -/
def reach (a : Side) (limit : Price) (os : List RestingOrder) : List RestingOrder :=
  os.filter fun o => crossesPrice a limit o.price

/-- The orders an aggressor does not cross. -/
def beyond (a : Side) (limit : Price) (os : List RestingOrder) : List RestingOrder :=
  os.filter fun o => !crossesPrice a limit o.price

theorem reach_append_beyond (hs : BestFirst a.opposite os) :
    reach a limit os ++ beyond a limit os = os := by
  induction os with
  | nil => rfl
  | cons o os ih =>
    by_cases hc : crossesPrice a limit o.price = true
    · rw [reach, List.filter_cons_of_pos (by simpa using hc), beyond,
        List.filter_cons_of_neg (by simpa using hc), List.cons_append]
      exact congrArg _ (ih (List.pairwise_cons.mp hs).2)
    · have hnil := filter_crosses_eq_nil hs (by simpa using hc)
      rw [reach, hnil, List.nil_append, beyond, List.filter_eq_self]
      intro x hx
      have := List.filter_eq_nil_iff.mp hnil x hx
      simpa using this

/-- **A sweep takes its quantity from the orders that cross**, and from no other. -/
theorem sweep_greedy (hs : BestFirst a.opposite os) (remaining : Quantity) :
    ∃ L', Greedy remaining.toNat (reach a limit os) (sweep a limit remaining os).fills L' ∧
      (sweep a limit remaining os).rest = L' ++ beyond a limit os := by
  induction os generalizing remaining with
  | nil => exact ⟨[], .whole [] [] (Or.inr ⟨rfl, Nat.zero_le _⟩), rfl⟩
  | cons o os ih =>
    by_cases hc : crossesPrice a limit o.price = true
    · have hreach : reach a limit (o :: os) = o :: reach a limit os := List.filter_cons_of_pos hc
      have hbeyond : beyond a limit (o :: os) = beyond a limit os :=
        List.filter_cons_of_neg (by simpa using hc)
      have hsplit := @reach_append_beyond a limit os (List.pairwise_cons.mp hs).2
      rw [hreach, hbeyond]
      by_cases h0 : remaining = 0
      · rw [sweep_stop (Or.inl h0), h0]
        exact ⟨o :: reach a limit os, .whole [] _ (Or.inl rfl), by rw [List.cons_append, hsplit]⟩
      · have hgo : ¬ (remaining = 0 ∨ crossesPrice a limit o.price = false) := by simp [h0, hc]
        by_cases hlt : remaining < o.quantity
        · rw [sweep_part hgo hlt]
          exact ⟨_, .part [] _ o remaining h0 hlt (Nat.zero_add _), by rw [List.cons_append, hsplit]⟩
        · obtain ⟨L', hgreedy, hrest⟩ := ih (List.pairwise_cons.mp hs).2 (remaining - o.quantity)
          rw [sweep_whole hgo hlt]
          refine ⟨L', ?_, hrest⟩
          rw [UInt64.lt_iff_toNat_lt, not_lt] at hlt
          have hcons := hgreedy.cons o
          rw [UInt64.toNat_sub_of_le _ _ (UInt64.le_iff_toNat_le.mpr hlt),
            Nat.add_sub_cancel' hlt] at hcons
          exact hcons
    · have hc' : crossesPrice a limit o.price = false := by simpa using hc
      have hnil : reach a limit (o :: os) = [] := filter_crosses_eq_nil hs hc'
      have hsplit := @reach_append_beyond a limit _ hs
      rw [hnil, List.nil_append] at hsplit
      rw [sweep_stop (Or.inr hc'), hnil, hsplit]
      exact ⟨[], .whole [] [] (Or.inr ⟨rfl, Nat.zero_le _⟩), rfl⟩

end Sweep

/-! ## Orders that are carried out -/

/-- **What the order `r` does to the sides `d`** within `limit`, with the trades `fills`: it takes its
quantity from the orders it crosses and leaves `rest` of them and `left` of itself; the orders it does not
cross stay as they are, and so do those of its own side, but for a limit order joining the end of the queue
of its price with what is left. -/
structure PriceTime (limit : Price) (d d' : Depth) (r : Command) (fills : List Fill)
    (rest : List RestingOrder) (left : Quantity) : Prop where
  greedy : Greedy r.quantity.toNat (reach r.side limit (d r.side.opposite)) fills rest
  positive : ∀ f ∈ fills, f.quantity ≠ 0
  total : totalFills fills =
    min r.quantity.toNat (totalQuantity (reach r.side limit (d r.side.opposite)))
  conserved : totalFills fills + left.toNat = r.quantity.toNat
  opposite : d' r.side.opposite = rest ++ beyond r.side limit (d r.side.opposite)
  own : ∀ p, atPrice (d' r.side) p = atPrice (d r.side) p ++
    if left ≠ 0 ∧ r.orderType = .limit ∧ p = r.price then
      [⟨r.orderId, r.side, r.price, left, r.sequence⟩] else []

namespace Market

variable {m : Market}

theorem execute_depth (m : Market) (c : Command) : (m.execute c).1 =
    let swept := sweep c.side (m.limit c) c.quantity (m.depth c.side.opposite)
    let d := Function.update m.depth c.side.opposite swept.rest
    if swept.remaining ≠ 0 ∧ c.orderType = .limit then
      enqueue d ⟨c.orderId, c.side, c.price, swept.remaining, c.sequence⟩ else d := by
  by_cases h0 : (sweep c.side (m.limit c) c.quantity (m.depth c.side.opposite)).remaining = 0
  · simp [execute, h0]
  · by_cases hlim : c.orderType = .limit
    · simp [execute, h0, hlim]
    · simp [execute, h0, hlim]

theorem execute_priceTime (hs : ∀ s, BestFirst s (m.depth s))
    (hpos : ∀ s, ∀ o ∈ m.depth s, o.quantity ≠ 0) (c : Command) :
    ∃ rest, PriceTime (m.limit c) m.depth (m.execute c).1 c
      (sweep c.side (m.limit c) c.quantity (m.depth c.side.opposite)).fills rest
      (sweep c.side (m.limit c) c.quantity (m.depth c.side.opposite)).remaining := by
  obtain ⟨rest, hgreedy, hrest⟩ :=
    @sweep_greedy c.side (m.limit c) _ (hs c.side.opposite) c.quantity
  have hne : c.side ≠ c.side.opposite := c.side.opposite_ne.symm
  refine ⟨rest, hgreedy, hgreedy.positive fun o ho => hpos _ o (List.mem_filter.mp ho).1,
    hgreedy.total, sweep_conserves _ _, ?_, fun p => ?_⟩
  · rw [execute_depth]
    dsimp only
    split_ifs
    · rw [enqueue, Function.update_of_ne hne.symm, Function.update_self, hrest]
    · rw [Function.update_self, hrest]
  · have hown : Function.update m.depth c.side.opposite
        (sweep c.side (m.limit c) c.quantity (m.depth c.side.opposite)).rest c.side =
          m.depth c.side := Function.update_of_ne hne _ _
    rw [execute_depth]
    by_cases hjoin : (sweep c.side (m.limit c) c.quantity (m.depth c.side.opposite)).remaining ≠ 0 ∧
        c.orderType = .limit
    · dsimp only
      rw [if_pos hjoin, atPrice_enqueue (by rw [hown]; exact hs c.side), hown]
      by_cases hp : p = c.price
      · simp [hp, hjoin]
      · simp [hp]
    · dsimp only
      rw [if_neg hjoin, hown, if_neg fun h => hjoin ⟨h.1, h.2.1⟩, List.append_nil]

end Market

/-! ## The book -/

/-- **The order a command works**, and the sides it meets: a new order meets them as they are, a
replace command works a limit order of the same side as the one it has first removed. -/
inductive Works (d : Depth) (c : Command) : Depth → Command → Prop
  | new (hc : c.type = .new) : Works d c d c
  | replace (hc : c.type = .replace) {o : RestingOrder} (ho : o ∈ d o.side)
      (hid : o.orderId = c.orderId) :
    Works d c (withdraw d c.orderId) { c with side := o.side, orderType := .limit }

theorem Market.filter_trades (m : Market) (c : Command) {e : Event} (he : e.type ≠ .trade) :
    (e :: (m.execute c).2).filter (fun e => e.type = .trade) = tradesOf c
      (sweep c.side (m.limit c) c.quantity (m.depth c.side.opposite)).fills := by
  rw [List.filter_cons_of_neg (by simpa using he), execute_events, List.filter_append]
  have htrades : ∀ fills, (tradesOf c fills).filter (fun e => e.type = .trade) =
      tradesOf c fills := by
    intro fills
    rw [List.filter_eq_self]
    intro e he
    obtain ⟨f, -, rfl⟩ := List.mem_map.mp he
    rfl
  have hleft : ∀ remaining, (leftover c remaining).filter (fun e => e.type = .trade) = [] := by
    intro remaining
    rw [leftover]
    split_ifs <;> rfl
  rw [htrades, hleft, List.append_nil]

/-- **Price-time allocation.** A new order or a replacement that is not rejected takes its quantity
from the opposite orders within its limit, best price first and oldest first within a price: each of
them whole but for the last, at its own price. The trades are these, and they add up to the quantity
or to all there is. What they took is all that the opposite side has lost, and what is left of the
order rests at the end of the queue of its price, unless its type has it dropped. -/
theorem price_time_allocation {b b' : OrderBook} (h : Reachable b) {c : Command}
    {events evs : List Event} (hc : c.type = .new ∨ c.type = .replace)
    (hp : b.process c events = .ok (b', events ++ evs)) (hevs : ∀ e ∈ evs, e.type ≠ .rejected) :
    ∃ d d₀ d' r fills rest left, (∀ s, b.bestOrders s = .ok (d s)) ∧
      (∀ s, b'.bestOrders s = .ok (d' s)) ∧ Works d c d₀ r ∧
      (evs.filter fun e => e.type = .trade) =
        fills.map (fun f => eventOf .trade r f.contra f.price f.quantity .none) ∧
      PriceTime (b.effectiveLimit r) d₀ d' r fills rest left := by
  obtain ⟨q, hinv⟩ := h.inv
  obtain ⟨b₁, q₁, hp₁, hinv₁, hm, -⟩ := hinv.process c events
  rw [hp] at hp₁
  obtain ⟨rfl, happ⟩ := Prod.mk.inj (Except.ok.inj hp₁)
  obtain rfl := List.append_cancel_left happ
  have hpos : ∀ s, ∀ o ∈ b.depth q s, o.quantity ≠ 0 := by
    intro s o ho
    obtain ⟨i, n, hn, rfl⟩ := hinv.mem_depth.mp ho
    exact hinv.positive s i n hn
  have hd : b'.depth q₁ = ((b.market q).process c).1.depth := congrArg Market.depth hm
  have hbest := hinv₁.bestOrders
  rw [hd] at hbest
  -- a rejected command would say so
  rw [Market.process] at hbest hevs ⊢
  split_ifs at hbest hevs ⊢ with hseq
  · exact absurd rfl (hevs _ List.mem_cons_self)
  rcases hperform : (b.market q).perform c with reason | ⟨d', evs⟩
  · rw [hperform] at hevs
    exact absurd rfl (hevs _ List.mem_cons_self)
  rw [hperform] at hbest
  dsimp only at hbest ⊢
  cases Market.performed hperform with
  | new hnew =>
    obtain ⟨rest, hpt⟩ := Market.execute_priceTime (m := b.market q) hinv.depth_bestFirst hpos c
    exact ⟨_, _, _, _, _, _, _, hinv.bestOrders, hbest, .new hnew,
      Market.filter_trades _ _ (by simp [eventOf]), hpt⟩
  | cancel hcancel => simp [hcancel] at hc
  | @replace hrep o hf hq hv =>
    have hshr := shrinks_withdraw (b.depth q) c.orderId
    obtain ⟨rest, hpt⟩ := Market.execute_priceTime
      (m := { b.market q with depth := withdraw (b.depth q) c.orderId })
      (hshr.bestFirst hinv.depth_bestFirst)
      (fun s o ho => hpos s o (List.mem_filter.mp ho).1) (Market.replacement c o)
    have hmem := List.mem_append.mp (List.mem_of_find?_eq_some hf)
    have ho : o ∈ b.depth q o.side := by
      rcases hmem with hmem | hmem
      · rw [hinv.depth_side hmem]
        exact hmem
      · rw [hinv.depth_side hmem]
        exact hmem
    exact ⟨_, _, _, _, _, _, _, hinv.bestOrders, hbest,
      .replace hrep ho (by simpa using List.find?_some hf),
      Market.filter_trades _ _ (by simp [eventOf]), hpt⟩

/-- An order that takes one resting order whole and a second one in part. -/
theorem price_time_allocation_two_levels : ∃ b b' evs d d₀ d' r fills rest left, Reachable b ∧
    b.process ⟨3, .new, .buy, .limit, 0, 9, 3, 7⟩ [] = .ok (b', evs) ∧
    evs = [⟨3, .accepted, .buy, .none, 0, 9, 0, 0, 0⟩, ⟨3, .trade, .buy, .none, 0, 9, 7, 2, 5⟩,
      ⟨3, .trade, .buy, .none, 0, 9, 8, 3, 2⟩] ∧
    Works d ⟨3, .new, .buy, .limit, 0, 9, 3, 7⟩ d₀ r ∧
    PriceTime (b.effectiveLimit r) d₀ d' r fills rest left := by
  have hrun : (do
      let b₀ ← OrderBook.new ⟨1, 4, 1, 2⟩
      let r₁ ← b₀.process ⟨1, .new, .sell, .limit, 0, 7, 2, 5⟩ []
      let r₂ ← r₁.1.process ⟨2, .new, .sell, .limit, 0, 8, 3, 5⟩ []
      let r₃ ← r₂.1.process ⟨3, .new, .buy, .limit, 0, 9, 3, 7⟩ []
      .ok r₃.2) = (.ok [⟨3, .accepted, .buy, .none, 0, 9, 0, 0, 0⟩,
        ⟨3, .trade, .buy, .none, 0, 9, 7, 2, 5⟩, ⟨3, .trade, .buy, .none, 0, 9, 8, 3, 2⟩] :
          Except Fault _) := by
    decide +kernel
  obtain ⟨b₀, hnew, hrun⟩ := bind_eq_ok.mp hrun
  obtain ⟨⟨b₁, evs₁⟩, hp₁, hrun⟩ := bind_eq_ok.mp hrun
  obtain ⟨⟨b₂, evs₂⟩, hp₂, hrun⟩ := bind_eq_ok.mp hrun
  obtain ⟨⟨b₃, evs₃⟩, hp₃, hrun⟩ := bind_eq_ok.mp hrun
  obtain rfl := Except.ok.inj hrun
  have hb := ((Reachable.new hnew).process hp₁).process hp₂
  obtain ⟨d, d₀, d', r, fills, rest, left, -, -, hworks, -, hpt⟩ :=
    @price_time_allocation b₂ b₃ hb _ [] _ (Or.inl rfl) hp₃ (by decide)
  exact ⟨b₂, b₃, _, d, d₀, d', r, fills, rest, left, hb, hp₃, rfl, hworks, hpt⟩

end Dme
