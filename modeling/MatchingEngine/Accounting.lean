import MatchingEngine.Differential
import MatchingEngine.Lib.Ledger
import MatchingEngine.Restore

/-!
# Accounts of quantities and of work

* `held`: what rests under each order id; `entriesOf`: what an event means for the ids it names.
* `postAll_sweep`, `postAll_execute`, **`Market.perform_posts`**, `Inv.run_posts`: no event takes more
  from an order than it has left.
* `sweep_length`, **`Market.process_work`**, `Market.run_work`: every trade but one for each command
  removes an order.
* **`quantities_conserved`**, **`work_amortised`**.
-/

set_option autoImplicit false

namespace Dme

open Ledger (postAll)

/-! ## Quantities -/

/-- What rests under each id. -/
def held (orders : List RestingOrder) : OrderId → ℕ :=
  (orders.map fun o => (Pi.single o.orderId o.quantity.toNat : OrderId → ℕ)).sum

/-- **What an event means for the ids it names**, when its command has this quantity. An order comes in
with the quantity of its command, and a replaced order starts again. -/
def entriesOf (quantity : Quantity) (e : Event) : List (Ledger.Entry OrderId) :=
  match e.type with
  | .accepted => [.credit e.orderId quantity.toNat]
  | .replaced => [.close e.orderId, .credit e.orderId e.quantity.toNat]
  | .trade => [.debit e.orderId e.quantity.toNat, .debit e.contraOrderId e.quantity.toNat]
  | .cancelled => [.debit e.orderId e.quantity.toNat]
  | .rested => []
  | .rejected => []

/-- The entries of commands with their events. -/
def entries (cs : List Command) (evs : List (List Event)) : List (Ledger.Entry OrderId) :=
  (cs.zip evs).flatMap fun x => x.2.flatMap (entriesOf x.1.quantity)

@[simp] theorem held_nil : held [] = 0 := rfl

@[simp] theorem held_cons (o : RestingOrder) (os : List RestingOrder) :
    held (o :: os) = Pi.single o.orderId o.quantity.toNat + held os := rfl

theorem held_append (os os' : List RestingOrder) : held (os ++ os') = held os + held os' := by
  rw [held, List.map_append, List.sum_append]
  rfl

theorem held_perm {os os' : List RestingOrder} (h : os.Perm os') : held os = held os' :=
  (h.map _).sum_eq

theorem Depth.held_all (d : Depth) (s : Side) : held d.all = held (d s.opposite) + held (d s) := by
  rw [held_perm (d.all_perm s), held_append]

theorem held_filter (os : List RestingOrder) (id : OrderId) :
    held (os.filter fun o => o.orderId ≠ id) = Function.update (held os) id 0 := by
  induction os with
  | nil => simp
  | cons o os ih =>
    by_cases ho : o.orderId = id
    · rw [List.filter_cons_of_neg (by simpa using ho), ih, held_cons, ho]
      funext a
      by_cases ha : a = id
      · subst ha
        simp
      · simp [ha]
    · rw [List.filter_cons_of_pos (by simpa using ho), held_cons, ih, held_cons]
      funext a
      by_cases ha : a = id
      · subst ha
        simp [Ne.symm ho]
      · simp [ha]

theorem held_eq_filter {os : List RestingOrder} (hd : (os.map RestingOrder.orderId).Nodup)
    {o : RestingOrder} {id : OrderId} (ho : os.find? (fun o => o.orderId = id) = some o) :
    held os = held (os.filter fun o => o.orderId ≠ id) + Pi.single id o.quantity.toNat := by
  have hid : o.orderId = id := by simpa using List.find?_some ho
  induction os with
  | nil => cases ho
  | cons x os ih =>
    by_cases hx : x.orderId = id
    · rw [List.find?_cons_of_pos (by simpa using hx)] at ho
      cases ho
      rw [← eraseP_eq_filter hd, List.eraseP_cons_of_pos (by simpa using hx), held_cons, hx, add_comm]
    · rw [List.find?_cons_of_neg (by simpa using hx)] at ho
      rw [List.filter_cons_of_pos (by simpa using hx), held_cons, held_cons,
        ih (List.nodup_cons.mp hd).2 ho, add_assoc]

theorem postAll_trade (balance : OrderId → ℕ) (a b : OrderId) (n : ℕ) :
    postAll (balance + Pi.single b n + Pi.single a n) [.debit a n, .debit b n] = some balance := by
  simp [Ledger.post_debit]

/-- **The trades of an aggressor**: each one is covered on both sides. -/
theorem postAll_sweep (c : Command) (limit : Price) (quantity remaining : Quantity)
    (os : List RestingOrder) (others : OrderId → ℕ) :
    postAll (held os + others + Pi.single c.orderId remaining.toNat)
        ((Market.tradesOf c (sweep c.side limit remaining os).fills).flatMap (entriesOf quantity)) =
      some (held (sweep c.side limit remaining os).rest + others +
        Pi.single c.orderId (sweep c.side limit remaining os).remaining.toNat) := by
  induction os generalizing remaining with
  | nil => rfl
  | cons o os ih =>
    by_cases hstop : remaining = 0 ∨ crossesPrice c.side limit o.price = false
    · rw [sweep_stop hstop]
      rfl
    · by_cases hlt : remaining < o.quantity
      · rw [sweep_part hstop hlt]
        have hle : remaining.toNat ≤ o.quantity.toNat := (UInt64.lt_iff_toNat_lt.mp hlt).le
        have hsub : o.quantity.toNat = (o.quantity - remaining).toNat + remaining.toNat := by
          rw [UInt64.toNat_sub_of_le _ _ (UInt64.le_iff_toNat_le.mpr hle)]
          omega
        have htrade := postAll_trade (held ({ o with quantity := o.quantity - remaining } :: os) + others)
          c.orderId o.orderId remaining.toNat
        have hheld : held (o :: os) + others = held ({ o with quantity := o.quantity - remaining } :: os) +
            others + Pi.single o.orderId remaining.toNat := by
          rw [held_cons, held_cons, hsub, Pi.single_add]
          abel
        rw [hheld]
        exact htrade.trans (by simp)
      · rw [sweep_whole hstop hlt]
        have hle : o.quantity.toNat ≤ remaining.toNat := by
          rw [UInt64.lt_iff_toNat_lt] at hlt
          omega
        have hsub : remaining.toNat = (remaining - o.quantity).toNat + o.quantity.toNat := by
          rw [UInt64.toNat_sub_of_le _ _ (UInt64.le_iff_toNat_le.mpr hle)]
          omega
        have htrade := postAll_trade (held os + others + Pi.single c.orderId (remaining - o.quantity).toNat)
          c.orderId o.orderId o.quantity.toNat
        have hheld : held (o :: os) + others + Pi.single c.orderId remaining.toNat =
            held os + others + Pi.single c.orderId (remaining - o.quantity).toNat +
              Pi.single o.orderId o.quantity.toNat + Pi.single c.orderId o.quantity.toNat := by
          rw [held_cons, hsub, Pi.single_add]
          abel
        rw [hheld, Market.tradesOf, List.map_cons, List.flatMap_cons, Ledger.postAll_append]
        exact (congrArg (Option.bind · _) htrade).trans (ih _)

namespace Market

variable {m : Market} {c : Command}

theorem postAll_execute (m : Market) (c : Command) (quantity : Quantity) :
    postAll (held m.depth.all + Pi.single c.orderId c.quantity.toNat)
        ((m.execute c).2.flatMap (entriesOf quantity)) = some (held (m.execute c).1.all) := by
  have hsweep := postAll_sweep c (m.limit c) quantity c.quantity (m.depth c.side.opposite)
    (held (m.depth c.side))
  rw [← m.depth.held_all] at hsweep
  have hrest : ∀ l, held (Depth.all (Function.update m.depth c.side.opposite l)) =
      held l + held (m.depth c.side) := by
    intro l
    rw [Depth.held_all _ c.side, Function.update_self, Function.update_of_ne c.side.opposite_ne.symm]
  rw [execute_events, List.flatMap_append, Ledger.postAll_append, hsweep, Option.bind_some, leftover]
  simp only [execute]
  split_ifs with h0 hlim
  · simp [hrest, h0]
  · rw [held_perm (all_enqueue _ _), held_cons, hrest]
    simp [entriesOf, eventOf, add_comm]
  · rw [hrest]
    simp [entriesOf, eventOf, Ledger.post_debit]

/-- **The events of a command that is carried out** take from no order more than it has. -/
theorem perform_posts {d : Depth} {evs : List Event}
    (hd : (m.depth.all.map RestingOrder.orderId).Nodup) (h : m.perform c = .ok (d, evs)) :
    postAll (held m.depth.all) (evs.flatMap (entriesOf c.quantity)) = some (held d.all) := by
  cases performed h with
  | new hc hq hp hf => exact postAll_execute m c c.quantity
  | cancel hc hf =>
    rw [all_withdraw, held_eq_filter hd hf]
    exact congrArg (Option.bind · _) (Ledger.post_debit _ _ _)
  | @replace hc o hf hq hp =>
    have hexec := postAll_execute { m with depth := withdraw m.depth c.orderId } (replacement c o)
      c.quantity
    rw [show held (Depth.all (withdraw m.depth c.orderId)) =
      Function.update (held m.depth.all) c.orderId 0 by rw [all_withdraw, held_filter]] at hexec
    exact hexec

theorem process_posts (hd : (m.depth.all.map RestingOrder.orderId).Nodup) (c : Command) :
    postAll (held m.depth.all) ((m.process c).2.flatMap (entriesOf c.quantity)) =
      some (held (m.process c).1.depth.all) := by
  rw [process]
  split_ifs with hseq
  · rfl
  · cases hp : m.perform c with
    | error reason => rfl
    | ok r => exact perform_posts hd hp

end Market

theorem Inv.run_posts {b : OrderBook} {q : Queues} (h : Inv b q) (cs : List Command) :
    postAll (held (b.market q).depth.all) (entries cs ((b.market q).run cs).2) =
      some (held ((b.market q).run cs).1.depth.all) := by
  induction cs generalizing b q with
  | nil => rfl
  | cons c cs ih =>
    have hd : ((b.market q).depth.all.map RestingOrder.orderId).Nodup :=
      (h.orders_perm.map _).nodup_iff.mp h.ids_nodup
    obtain ⟨b', q', -, hinv, hm, -⟩ := h.process c []
    have hrest := ih hinv
    rw [hm] at hrest
    rw [Market.run, entries, List.zip_cons_cons, List.flatMap_cons, Ledger.postAll_append,
      Market.process_posts hd c]
    exact hrest

/-! ## Work -/

/-- **An aggressor removes the orders it trades with**, but for the last one if that is larger. -/
theorem sweep_length (a : Side) (limit : Price) (remaining : Quantity) (os : List RestingOrder) :
    (sweep a limit remaining os).fills.length + (sweep a limit remaining os).rest.length ≤
        os.length + 1 ∧
      ((sweep a limit remaining os).remaining ≠ 0 →
        (sweep a limit remaining os).fills.length + (sweep a limit remaining os).rest.length =
          os.length) := by
  induction os generalizing remaining with
  | nil => simp [sweep]
  | cons o os ih =>
    by_cases hstop : remaining = 0 ∨ crossesPrice a limit o.price = false
    · rw [sweep_stop hstop]
      simp
    · by_cases hlt : remaining < o.quantity
      · rw [sweep_part hstop hlt]
        simp [Nat.add_comm]
      · rw [sweep_whole hstop hlt]
        obtain ⟨hle, heq⟩ := ih (remaining - o.quantity)
        simp only [List.length_cons]
        exact ⟨by omega, fun h0 => by have := heq h0; omega⟩

namespace Market

variable {m : Market} {c : Command}

theorem size_eq (m : Market) (s : Side) :
    m.size = (m.depth s.opposite).length + (m.depth s).length := by
  cases s with
  | buy => exact Nat.add_comm _ _
  | sell => rfl

theorem size_withdraw_le (m : Market) (id : OrderId) :
    size { m with depth := withdraw m.depth id } ≤ m.size :=
  Nat.add_le_add (List.length_filter_le ..) (List.length_filter_le ..)

theorem size_enqueue (m : Market) (d : Depth) (o : RestingOrder) :
    size { m with depth := enqueue d o } = size { m with depth := d } + 1 := by
  have hlen := (all_enqueue d o).length_eq
  simp only [Depth.all, List.length_append, List.length_cons] at hlen
  exact hlen

theorem execute_work (m : Market) (c : Command) :
    tradeCount (m.execute c).2 + size { m with depth := (m.execute c).1 } ≤ m.size + 1 ∧
      (m.execute c).2.length + size { m with depth := (m.execute c).1 } ≤ m.size + 2 := by
  obtain ⟨hle, heq⟩ := sweep_length c.side (m.limit c) c.quantity (m.depth c.side.opposite)
  have hsize := m.size_eq c.side
  have hrest : ∀ l, size { m with depth := Function.update m.depth c.side.opposite l } =
      l.length + (m.depth c.side).length := by
    intro l
    rw [size_eq _ c.side]
    dsimp only
    rw [Function.update_self, Function.update_of_ne c.side.opposite_ne.symm]
  have htrades : ∀ fills, (tradesOf c fills).length = fills.length := fun _ => List.length_map _
  simp only [execute]
  split_ifs with h0 hlim
  · rw [tradeCount_tradesOf, hrest, htrades]
    omega
  · have := heq h0
    rw [tradeCount_append, tradeCount_tradesOf, size_enqueue, hrest, List.length_append, htrades,
      tradeCount_single (by simp [eventOf]), List.length_singleton]
    omega
  · have := heq h0
    rw [tradeCount_append, tradeCount_tradesOf, hrest, List.length_append, htrades,
      tradeCount_single (by simp [eventOf]), List.length_singleton]
    omega

theorem perform_work {d : Depth} {evs : List Event} (h : m.perform c = .ok (d, evs)) :
    tradeCount evs + size { m with depth := d } ≤ m.size + 1 ∧
      evs.length + size { m with depth := d } ≤ m.size + 3 := by
  have hcons : ∀ (e : Event) es, e.type ≠ .trade → tradeCount (e :: es) = tradeCount es := by
    intro e es he
    rw [tradeCount, List.countP_cons_of_neg (by simpa using he)]
    rfl
  cases performed h with
  | new hc hq hp hf =>
    obtain ⟨ht, hl⟩ := execute_work m c
    rw [hcons _ _ (by simp [eventOf]), List.length_cons]
    omega
  | cancel hc hf =>
    have := m.size_withdraw_le c.orderId
    rw [tradeCount_single (by simp [eventOf]), List.length_singleton]
    omega
  | @replace hc o hf hq hp =>
    have := m.size_withdraw_le c.orderId
    obtain ⟨ht, hl⟩ := execute_work { m with depth := withdraw m.depth c.orderId } (replacement c o)
    rw [hcons _ _ (by simp [eventOf]), List.length_cons]
    dsimp only at ht hl ⊢
    omega

/-- **One command**: it is rejected, or every trade but one removes an order. -/
theorem process_work (m : Market) (c : Command) :
    tradeCount (m.process c).2 + rejectCount (m.process c).2 + (m.process c).1.size ≤ m.size + 1 ∧
      (m.process c).2.length + (m.process c).1.size ≤ m.size + 3 := by
  have hreject : ∀ (m' : Market) r, m'.size = m.size →
      tradeCount [rejection c r] + rejectCount [rejection c r] + m'.size ≤ m.size + 1 ∧
        [rejection c r].length + m'.size ≤ m.size + 3 := by
    intro m' r hsize
    rw [hsize]
    exact ⟨(Nat.add_comm ..).le, by rw [List.length_singleton]; omega⟩
  rw [process]
  split_ifs with hseq
  · exact hreject m _ rfl
  · cases hp : m.perform c with
    | error reason => exact hreject { m with lastSequence := c.sequence } _ rfl
    | ok r =>
      obtain ⟨ht, hl⟩ := perform_work hp
      dsimp only
      rw [rejectCount_perform hp]
      exact ⟨ht, hl⟩

theorem run_work (m : Market) (cs : List Command) :
    tradeCount (m.run cs).2.flatten + rejectCount (m.run cs).2.flatten + (m.run cs).1.size ≤
        m.size + cs.length ∧
      (m.run cs).2.flatten.length + (m.run cs).1.size ≤ m.size + 3 * cs.length := by
  induction cs generalizing m with
  | nil => simp [run, tradeCount, rejectCount]
  | cons c cs ih =>
    obtain ⟨ht, hl⟩ := m.process_work c
    obtain ⟨ht', hl'⟩ := ih (m.process c).1
    rw [run, List.flatten_cons, tradeCount_append, rejectCount_append, List.length_append,
      List.length_cons]
    dsimp only
    omega

end Market

/-! ## The book -/

/-- **Quantities are conserved.** Over any commands from any reachable book, a ledger that starts with what
rests under each id, and in which the events are entered, is never overdrawn and ends with what rests:
no order is traded or cancelled beyond what it has left, as the aggressor or as the resting order. So
what has come in under an id that is not replaced has traded, was cancelled or rests. -/
theorem quantities_conserved {b : OrderBook} (h : Reachable b) (cs : List Command) :
    ∃ b' evs orders orders', b.run cs = .ok (b', evs) ∧ b.restingOrders = .ok orders ∧
      b'.restingOrders = .ok orders' ∧
      postAll (held orders) (entries cs evs) = some (held orders') ∧
      ∀ id, Ledger.Entry.close id ∉ entries cs evs →
        held orders id + Ledger.credited id (entries cs evs) =
          Ledger.debited id (entries cs evs) + held orders' id := by
  obtain ⟨q, hinv⟩ := h.inv
  obtain ⟨b', q', hrun, hinv', hm, -⟩ := hinv.run cs
  have hposts := hinv.run_posts cs
  rw [← hm] at hposts
  have hpost : postAll (held ((b.market q).orders b.priceCount)) (entries cs ((b.market q).run cs).2) =
      some (held ((b'.market q').orders b'.priceCount)) := by
    rw [held_perm hinv.orders_perm, held_perm hinv'.orders_perm]
    exact hposts
  exact ⟨b', _, _, _, hrun, hinv.restingOrders, hinv'.restingOrders, hpost,
    fun id hid => Ledger.postAll_balance hpost hid⟩

/-- A buyer of 3 meets a seller of 5. -/
theorem quantities_conserved_one_trade : ∃ b b' evs orders', Reachable b ∧
    b.run [⟨1, .new, .sell, .limit, 0, 7, 2, 5⟩, ⟨2, .new, .buy, .limit, 0, 8, 2, 3⟩] = .ok (b', evs) ∧
      b'.restingOrders = .ok orders' ∧ held orders' 7 = 2 ∧
      Ledger.debited 7 (entries [⟨1, .new, .sell, .limit, 0, 7, 2, 5⟩,
        ⟨2, .new, .buy, .limit, 0, 8, 2, 3⟩] evs) = 3 := by
  have hrun : ((do
      let b ← OrderBook.new ⟨1, 4, 1, 2⟩
      let r ← b.run [⟨1, .new, .sell, .limit, 0, 7, 2, 5⟩, ⟨2, .new, .buy, .limit, 0, 8, 2, 3⟩]
      let orders ← b.restingOrders
      let orders' ← r.1.restingOrders
      .ok (held orders 7, held orders' 7,
        entries [⟨1, .new, .sell, .limit, 0, 7, 2, 5⟩, ⟨2, .new, .buy, .limit, 0, 8, 2, 3⟩] r.2)) :
      Except Fault (ℕ × ℕ × List (Ledger.Entry OrderId))) =
      .ok (0, 2, [.credit 7 5, .credit 8 3, .debit 8 3, .debit 7 3]) := by decide +kernel
  obtain ⟨b, hnew, hrun⟩ := bind_eq_ok.mp hrun
  obtain ⟨⟨b₁, evs₁⟩, hrun₁, hrun⟩ := bind_eq_ok.mp hrun
  obtain ⟨orders, horders, hrun⟩ := bind_eq_ok.mp hrun
  obtain ⟨orders₁, horders₁, hrun⟩ := bind_eq_ok.mp hrun
  obtain ⟨h0, h2, hentries⟩ : held orders 7 = 0 ∧ held orders₁ 7 = 2 ∧ entries _ evs₁ = _ := by
    simpa using hrun
  obtain ⟨b', evs, orders₀, orders', hrun', horders₀, horders', -, hbalance⟩ :=
    quantities_conserved (.new hnew) [⟨1, .new, .sell, .limit, 0, 7, 2, 5⟩,
      ⟨2, .new, .buy, .limit, 0, 8, 2, 3⟩]
  cases hrun₁.symm.trans hrun'
  cases horders.symm.trans horders₀
  cases horders₁.symm.trans horders'
  have hseven := hbalance 7 (by rw [hentries]; decide)
  rw [h0, h2] at hseven
  refine ⟨b, b₁, evs₁, orders₁, .new hnew, hrun₁, horders₁, h2, ?_⟩
  rw [hentries] at hseven ⊢
  decide

/-- **The work is amortised.** A list of commands on a new book makes at most three events for each
command, less the orders that rest; the trades, the rejections and the resting orders are together no
more than the commands. So with fewer than `2 ^ 64` commands the counters of trades and of rejections do not
wrap. -/
theorem work_amortised {config : BookConfig} {b₀ : OrderBook} (hnew : OrderBook.new config = .ok b₀)
    (cs : List Command) : ∃ b evs, b₀.run cs = .ok (b, evs) ∧
      evs.flatten.length + b.stats.restingOrders ≤ 3 * cs.length ∧
      tradeCount evs.flatten + rejectCount evs.flatten + b.stats.restingOrders ≤ cs.length ∧
      (cs.length < 2 ^ 64 → b.stats.trades.toNat = tradeCount evs.flatten ∧
        b.stats.rejected.toNat = rejectCount evs.flatten) := by
  obtain ⟨hinv, -, hstats⟩ := Inv.new hnew
  obtain ⟨b, q, hrun, hinv', hm, ht, hr⟩ := hinv.run cs
  obtain ⟨hwork, hlength⟩ := (b₀.market fun _ _ => []).run_work cs
  have hsize : (b₀.market fun _ _ => []).size = 0 := by
    rw [← hinv.restingOrders_eq, hstats]
  rw [hsize, ← hm, ← hinv'.restingOrders_eq, Nat.zero_add] at hwork hlength
  refine ⟨b, _, hrun, hlength, hwork, fun hlt => ?_⟩
  rw [ht, hr, hstats, UInt64.zero_add, UInt64.zero_add, UInt64.toNat_ofNat_of_lt' (by
    show _ < 2 ^ 64; omega), UInt64.toNat_ofNat_of_lt' (by show _ < 2 ^ 64; omega)]
  exact ⟨rfl, rfl⟩

/-- Two orders that trade. -/
theorem work_amortised_one_trade : ∃ b₀ b evs, OrderBook.new ⟨1, 4, 1, 2⟩ = .ok b₀ ∧
    b₀.run [⟨1, .new, .sell, .limit, 0, 7, 2, 5⟩, ⟨2, .new, .buy, .limit, 0, 8, 2, 3⟩] = .ok (b, evs) ∧
      evs.flatten.length + b.stats.restingOrders ≤ 6 ∧
      b.stats.trades.toNat = tradeCount evs.flatten := by
  obtain ⟨b₀, hnew⟩ := OrderBook.new_isOk (by decide : checkedPriceCount ⟨1, 4, 1, 2⟩ = .ok 4) (by decide)
  obtain ⟨b, evs, hrun, hlength, -, hcounters⟩ := work_amortised hnew
    [⟨1, .new, .sell, .limit, 0, 7, 2, 5⟩, ⟨2, .new, .buy, .limit, 0, 8, 2, 3⟩]
  exact ⟨b₀, b, evs, hnew, hrun, hlength, (hcounters (by decide)).1⟩

end Dme
