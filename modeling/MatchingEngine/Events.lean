import MatchingEngine.Levels
import MatchingEngine.Restore

/-!
# The events determine the book

A reader of the event stream keeps one queue for each side and price, and nothing else.

* `applyEvent`, `follow`: what the reader does with an event, and with a list of them; it stops at a
  trade that does not name the first order of its queue.
* `follow_sweep`: the trades of an aggressor.
* **`Market.perform_follow`**, **`Market.run_follow`**: after the events of a command, and of a list
  of them, the reader has the queues of the market.
* **`events_determine_book`**: so it has the resting orders of the book, level by level.
-/

set_option autoImplicit false

namespace Dme

/-- The queues a reader of the events keeps. -/
abbrev PriceQueues := Side → Price → List RestingOrder

/-- The queue of one side and price replaced. -/
def PriceQueues.set (Q : PriceQueues) (s : Side) (p : Price) (l : List RestingOrder) :
    PriceQueues := fun s' p' => if s' = s ∧ p' = p then l else Q s' p'

/-- The order with an id leaves its queue. -/
def PriceQueues.remove (Q : PriceQueues) (id : OrderId) : PriceQueues :=
  fun s p => (Q s p).filter fun o => o.orderId ≠ id

/-- What an event says about the queues; a trade has to be with the first order at its price. -/
def applyEvent (Q : PriceQueues) (e : Event) : Option PriceQueues :=
  match e.type with
  | .accepted => some Q
  | .rejected => some Q
  | .rested => some (Q.set e.aggressorSide e.price (Q e.aggressorSide e.price ++
      [⟨e.orderId, e.aggressorSide, e.price, e.quantity, e.sequence⟩]))
  | .replaced => some (Q.remove e.orderId)
  | .cancelled => some (Q.remove e.orderId)
  | .trade =>
    match Q e.aggressorSide.opposite e.price with
    | [] => none
    | o :: os =>
      if o.orderId ≠ e.contraOrderId then none
      else if o.quantity < e.quantity then none
      else if o.quantity - e.quantity = 0 then some (Q.set e.aggressorSide.opposite e.price os)
      else some (Q.set e.aggressorSide.opposite e.price
        ({ o with quantity := o.quantity - e.quantity } :: os))

/-- The queues after a list of events. -/
def follow (Q : PriceQueues) (events : List Event) : Option PriceQueues :=
  events.foldlM applyEvent Q

/-- The queues of a depth. -/
def Depth.queues (d : Depth) : PriceQueues := fun s p => atPrice (d s) p

/-- The orders of a reader's queues at the lowest `n` prices, as a book lists them. -/
def PriceQueues.listing (Q : PriceQueues) (config : BookConfig) (n : ℕ) : List RestingOrder :=
  (List.range n).flatMap fun i => Q .buy (config.indexPrice i) ++ Q .sell (config.indexPrice i)

variable {d : Depth} {m : Market} {c : Command}

@[simp] theorem follow_nil (Q : PriceQueues) : follow Q [] = some Q := rfl

@[simp] theorem follow_cons (Q : PriceQueues) (e : Event) (es : List Event) :
    follow Q (e :: es) = (applyEvent Q e).bind fun Q' => follow Q' es := rfl

theorem follow_append (Q : PriceQueues) (es es' : List Event) :
    follow Q (es ++ es') = (follow Q es).bind fun Q' => follow Q' es' := List.foldlM_append

/-! ## One operation at a time -/

theorem queues_update {s : Side} {os : List RestingOrder} {p : Price} {l : List RestingOrder}
    (hp : atPrice os p = l) (hother : ∀ p', p' ≠ p → atPrice os p' = atPrice (d s) p') :
    d.queues.set s p l = Depth.queues (Function.update d s os) := by
  funext s' p'
  simp only [PriceQueues.set, Depth.queues]
  by_cases hs : s' = s
  · subst hs
    rw [Function.update_self]
    split_ifs with h
    · rw [h.2, hp]
    · exact (hother p' fun hc => h ⟨rfl, hc⟩).symm
  · rw [if_neg fun hc => hs hc.1, Function.update_of_ne hs]

theorem queues_enqueue {o : RestingOrder} (hs : ∀ s, BestFirst s (d s)) :
    d.queues.set o.side o.price (d.queues o.side o.price ++ [o]) = (enqueue d o).queues := by
  funext s p
  simp only [PriceQueues.set, Depth.queues]
  rw [atPrice_enqueue (hs o.side)]
  split_ifs with h
  · rw [h.1, h.2]
  · rfl

theorem queues_withdraw (d : Depth) (id : OrderId) :
    d.queues.remove id = (withdraw d id).queues := by
  funext s p
  simp only [PriceQueues.remove, Depth.queues, atPrice, withdraw, List.filter_filter]
  exact List.filter_congr fun o _ => Bool.and_comm _ _

theorem withdraw_absent {id : OrderId} (h : ∀ s, ∀ x ∈ d s, x.orderId ≠ id) : withdraw d id = d := by
  funext s
  exact List.filter_eq_self.mpr fun o ho => by simpa using h s o ho

theorem follow_sweep (c : Command) (limit : Price) (quantity : Quantity) (os : List RestingOrder)
    (hos : d c.side.opposite = os) :
    follow d.queues (Market.tradesOf c (sweep c.side limit quantity os).fills) =
      some (Depth.queues
        (Function.update d c.side.opposite (sweep c.side limit quantity os).rest)) := by
  induction os generalizing d quantity with
  | nil => simp [sweep, Market.tradesOf, ← hos]
  | cons o os ih =>
    have hhead : d.queues c.side.opposite o.price = o :: atPrice os o.price := by
      rw [Depth.queues, hos, atPrice, List.filter_cons_of_pos (by simp)]
      rfl
    have hother : ∀ p, p ≠ o.price → atPrice os p = atPrice (d c.side.opposite) p := fun p hp => by
      rw [hos, atPrice, atPrice, List.filter_cons_of_neg (by simpa using Ne.symm hp)]
    rw [sweep]
    split_ifs with hstop hpart
    · simp [Market.tradesOf, ← hos]
    · -- the first order is met in part: it stays at the head of its queue
      have hne : o.quantity - quantity ≠ 0 := by grind
      have hnot : ¬ o.quantity < quantity := by grind
      simp only [Market.tradesOf, List.map_cons, List.map_nil, follow_cons, applyEvent, eventOf,
        hhead, ne_eq, not_true_eq_false, if_false, hnot, hne, Option.bind_some, follow_nil]
      refine congrArg some (queues_update ?_ fun p hp => ?_)
      · rw [atPrice, List.filter_cons_of_pos (by simp)]
        rfl
      · rw [atPrice, List.filter_cons_of_neg (by simpa using Ne.symm hp)]
        exact hother p hp
    · -- the first order is met whole: it leaves, and the rest of the side is swept
      have hset : d.queues.set c.side.opposite o.price (atPrice os o.price) =
          Depth.queues (Function.update d c.side.opposite os) := queues_update rfl hother
      have hrest := ih (d := Function.update d c.side.opposite os) (quantity - o.quantity)
        (Function.update_self ..)
      simp only [Market.tradesOf, List.map_cons, follow_cons, applyEvent, eventOf, hhead, ne_eq,
        not_true_eq_false, if_false, UInt64.lt_irrefl, UInt64.sub_self, if_true, Option.bind_some,
        hset]
      simp only [Market.tradesOf, eventOf, Function.update_idem] at hrest
      exact hrest

/-! ## Commands -/

namespace Market

theorem execute_follow (hs : ∀ s, BestFirst s (m.depth s))
    (hid : ∀ s, ∀ x ∈ m.depth s, x.orderId ≠ c.orderId) :
    follow m.depth.queues (m.execute c).2 = some (m.execute c).1.queues := by
  have hsweep := follow_sweep (d := m.depth) c (m.limit c) c.quantity _ rfl
  have hshr := shrinks_sweep m.depth c.side (m.limit c) c.quantity
  simp only [execute]
  split_ifs with h0 hlim
  · exact hsweep
  · rw [follow_append, hsweep]
    simp only [Option.bind_some, follow_cons, applyEvent, eventOf, follow_nil]
    exact congrArg some (queues_enqueue (o := ⟨c.orderId, c.side, c.price, _, c.sequence⟩)
      (hshr.bestFirst hs))
  · rw [follow_append, hsweep]
    simp only [Option.bind_some, follow_cons, applyEvent, eventOf, follow_nil]
    rw [queues_withdraw, withdraw_absent fun s x hx => ?_]
    obtain ⟨y, hy, he⟩ := hshr.mem hx
    rw [← show y.orderId = x.orderId from congrArg (fun k => k.1) he]
    exact hid s y hy

theorem perform_follow {d' : Depth} {evs : List Event} (hs : ∀ s, BestFirst s (m.depth s))
    (h : m.perform c = .ok (d', evs)) : follow m.depth.queues evs = some d'.queues := by
  cases performed h with
  | new hc hq hp hf => exact execute_follow hs (find_eq_none.mp hf)
  | cancel hc hf =>
    simp only [follow_cons, applyEvent, eventOf, Option.bind_some, follow_nil, queues_withdraw]
  | @replace hc o hf hq hp =>
    have hexec := execute_follow (c := replacement c o)
      (m := { m with depth := withdraw m.depth c.orderId })
      ((shrinks_withdraw m.depth c.orderId).bestFirst hs)
      (fun s x hx => by simpa [replacement] using (List.mem_filter.mp hx).2)
    rw [← queues_withdraw] at hexec
    exact hexec

theorem process_follow (hs : ∀ s, BestFirst s (m.depth s)) (c : Command) :
    follow m.depth.queues (m.process c).2 = some (m.process c).1.depth.queues := by
  rw [process]
  split_ifs with hseq
  · rfl
  · cases hp : m.perform c with
    | error reason => rfl
    | ok r => exact perform_follow hs hp

theorem run_follow (hs : ∀ s, BestFirst s (m.depth s)) (cs : List Command) :
    follow m.depth.queues (m.run cs).2.flatten = some (m.run cs).1.depth.queues := by
  induction cs generalizing m with
  | nil => rfl
  | cons c cs ih =>
    rw [run, List.flatten_cons, follow_append, process_follow hs c]
    exact ih (process_bestFirst hs c)

end Market

theorem rejectCount_gaps (c : Command) (r : RejectReason) (n : ℕ) :
    rejectCount (List.replicate n [Market.rejection c r]).flatten = n := by
  induction n with
  | zero => rfl
  | succ n ih =>
    rw [List.replicate_succ, List.flatten_cons, rejectCount_append, ih, Nat.add_comm]
    rfl

/-! ## The book -/

/-- **The event stream determines the book.** Its reader ends with the listing of the book, level by
level, and with its count of resting orders; the counters of trades and of rejections are those of
the stream modulo `2 ^ 64`. -/
theorem events_determine_book {config : BookConfig} {b₀ : OrderBook}
    (hnew : OrderBook.new config = .ok b₀) (cs : List Command) :
    ∃ b evs Q, b₀.run cs = .ok (b, evs) ∧ follow (fun _ _ => []) evs.flatten = some Q ∧
      b.restingOrders = .ok (Q.listing config b.priceCount) ∧
      (∀ s, ∀ i < b.priceCount, b.queueAt s i = .ok (Q s (config.indexPrice i))) ∧
      (∀ s p, config.validPrice p = false → Q s p = []) ∧
      b.stats.restingOrders = (Q.listing config b.priceCount).length ∧
      b.stats.trades.toNat = tradeCount evs.flatten % 2 ^ 64 ∧
      b.stats.rejected.toNat = rejectCount evs.flatten % 2 ^ 64 := by
  obtain ⟨hinv, hconfig, hstats⟩ := Inv.new hnew
  obtain ⟨b, q, hrun, hb, hm, ht, hr⟩ := hinv.run cs
  have hempty : (b₀.market fun _ _ => []).depth.queues = fun _ _ => [] := by
    funext s p
    rw [Depth.queues, OrderBook.market, hinv.empty_depth (by rw [hstats])]
    rfl
  have hfollow := Market.run_follow (m := b₀.market fun _ _ => []) hinv.depth_bestFirst cs
  rw [hempty, ← hm] at hfollow
  have hc : b.config = config := by
    rw [← hconfig]
    exact (congrArg Market.config hm).trans (Market.run_config _ _)
  refine ⟨b, _, _, hrun, hfollow, ?_, ?_, ?_, ?_, ?_, ?_⟩
  · rw [hb.restingOrders, ← hc]
    rfl
  · intro s i hi
    rw [hb.queueAt s hi, ← hc]
    rfl
  · intro s p hp
    exact hb.level_invalid s (by rw [hc, hp]; simp)
  · have hlen := hb.orders_perm.length_eq
    rw [List.length_append] at hlen
    rw [hb.restingOrders_eq, ← hc]
    exact hlen.symm
  · rw [ht, hstats]
    simp
  · rw [hr, hstats]
    simp

/-- One order rests on a fresh book. -/
theorem events_determine_book_one_order : ∃ b₀ b evs Q, OrderBook.new ⟨1, 4, 1, 2⟩ = .ok b₀ ∧
    b₀.run [⟨1, .new, .buy, .limit, 0, 7, 2, 5⟩] = .ok (b, evs) ∧
      follow (fun _ _ => []) evs.flatten = some Q ∧
      b.restingOrders = .ok (Q.listing ⟨1, 4, 1, 2⟩ b.priceCount) := by
  obtain ⟨b₀, hnew⟩ := OrderBook.new_isOk (by decide : checkedPriceCount ⟨1, 4, 1, 2⟩ = .ok 4) (by decide)
  obtain ⟨b, evs, Q, hrun, hQ, hlist, -⟩ :=
    events_determine_book hnew [⟨1, .new, .buy, .limit, 0, 7, 2, 5⟩]
  exact ⟨b₀, b, evs, Q, hnew, hrun, hQ, hlist⟩

/-- The counter of rejections is a machine word: `2 ^ 64` commands out of sequence take it back
to `0`. -/
theorem rejected_counter_wraps : ∃ b₀ b evs, OrderBook.new ⟨1, 4, 1, 2⟩ = .ok b₀ ∧
    b₀.run (List.replicate (2 ^ 64) {}) = .ok (b, evs) ∧
      rejectCount evs.flatten = 2 ^ 64 ∧ b.stats.rejected = 0 := by
  obtain ⟨b₀, hnew⟩ := OrderBook.new_isOk (by decide : checkedPriceCount ⟨1, 4, 1, 2⟩ = .ok 4) (by decide)
  obtain ⟨hinv, -, hstats⟩ := Inv.new hnew
  obtain ⟨b, q, hrun, -, -, -, hr⟩ := hinv.run (List.replicate (2 ^ 64) {})
  have hgap : ({} : Command).sequence ≠ (b₀.market fun _ _ => []).lastSequence + 1 := by
    change (0 : Sequence) ≠ b₀.stats.lastSequence + 1
    rw [hstats]
    decide
  have hcount : rejectCount
      ((b₀.market fun _ _ => []).run (List.replicate (2 ^ 64) {})).2.flatten = 2 ^ 64 := by
    rw [Market.run_gaps hgap, rejectCount_gaps]
  refine ⟨b₀, b, _, hnew, hrun, hcount, ?_⟩
  rw [hr, hcount, hstats]
  decide

end Dme
