import MatchingEngine.Commands
import MatchingEngine.Matching
import MatchingEngine.Sweep

/-!
# The book refines the market

* `Inv.execute`, `Inv.submit`, `Inv.cancel`, `Inv.replace`: each member function of the book returns,
  and does what the market's operation of that name does.
* **`Inv.process_cases`**: everything one call of `process` can do.
* **`Inv.process`**, **`Inv.run`**: the book follows the market over one command and over a list;
  `Inv.run_commands` counts the commands.
-/

set_option autoImplicit false

namespace Dme

variable {b b' : OrderBook} {q : Queues} {s : Side} {i : ℕ} {n : UInt32}

/-- The number of trades in a list of events. -/
def tradeCount (events : List Event) : ℕ := events.countP fun e => e.type = .trade

theorem tradeCount_tradesOf (c : Command) (fills : List Fill) :
    tradeCount (Market.tradesOf c fills) = fills.length := by
  induction fills with
  | nil => rfl
  | cons f fills ih => simp [tradeCount, Market.tradesOf, eventOf]

theorem tradeCount_append (es es' : List Event) :
    tradeCount (es ++ es') = tradeCount es + tradeCount es' := List.countP_append

theorem tradeCount_single {e : Event} (h : e.type ≠ .trade) : tradeCount [e] = 0 := by
  simp [tradeCount, h]

/-! ## What the depth says -/

theorem Core.depth_bestFirst (h : Core b q) (s : Side) : BestFirst s (b.depth q s) := by
  rw [BestFirst, OrderBook.depth, List.pairwise_map, line, List.flatMap, List.pairwise_flatten]
  have hbetter : ∀ i < b.priceCount, ∀ j < b.priceCount, ∀ m ∈ q s i, ∀ m' ∈ q s j, ¬ s.Ahead j i →
      better s (b.order m').price (b.order m).price = false := by
    intro i hi j hj m hm m' hm' hnot
    rw [h.order_price hm, h.order_price hm', ← Bool.not_eq_true, h.better_iff hj hi]
    exact hnot
  constructor
  · intro l hl
    obtain ⟨i, hi, rfl⟩ := List.mem_map.mp hl
    rw [mem_bestFirst] at hi
    refine List.pairwise_of_forall_mem_list fun m hm m' hm' => ?_
    exact hbetter i hi i hi m hm m' hm' (Side.Ahead.irrefl s i)
  · rw [List.pairwise_map]
    have hsorted : (bestFirst s b.priceCount).Pairwise fun i j => s.Ahead i j := by
      cases s with
      | sell => exact List.pairwise_lt_range
      | buy => exact List.pairwise_reverse.mpr List.pairwise_lt_range
    refine hsorted.imp_of_mem fun {i j} hi hj hij m hm m' hm' => ?_
    rw [mem_bestFirst] at hi hj
    exact hbetter i hi j hj m hm m' hm' hij.asymm

theorem Core.has_iff (h : Core b q) (id : OrderId) :
    (∃ n, b.orderIndex.Has id n) ↔ ∃ s, ∃ o ∈ b.depth q s, o.orderId = id := by
  constructor
  · rintro ⟨n, hn⟩
    obtain ⟨s, i, hm, rfl⟩ := (h.index id n).mp hn
    exact ⟨s, b.order n, h.mem_depth.mpr ⟨i, n, hm, rfl⟩, rfl⟩
  · rintro ⟨s, o, ho, rfl⟩
    obtain ⟨i, n, hn, rfl⟩ := h.mem_depth.mp ho
    exact ⟨n, (h.index _ n).mpr ⟨s, i, hn, rfl⟩⟩

theorem Core.find_isSome (h : Core b q) (id : OrderId) :
    (∃ o n s i, (b.market q).find id = some o ∧ b.orderIndex.find id = .ok (some n) ∧ n ∈ q s i ∧
        b.order n = o ∧ o.orderId = id) ∨
      ((b.market q).find id = none ∧ b.orderIndex.find id = .ok none ∧
        ∀ n, ¬ b.orderIndex.Has id n) := by
  by_cases hhas : ∃ n, b.orderIndex.Has id n
  · obtain ⟨n, hn⟩ := hhas
    obtain ⟨s, i, hm, rfl⟩ := (h.index id n).mp hn
    exact Or.inl ⟨b.order n, n, s, i, h.find_some hm, h.index_wf.find_has hn, hm, rfl, rfl⟩
  · have hno : ∀ n, ¬ b.orderIndex.Has id n := fun n hn => hhas ⟨n, hn⟩
    exact Or.inr ⟨h.find_none hno, h.index_wf.find_not_has hno, hno⟩

theorem Core.length_depth_le (h : Core b q) (s : Side) : (b.depth q s).length ≤ b.nodes.size := by
  have := h.size_market
  unfold Market.size OrderBook.market at this
  cases s <;> simp only at this ⊢ <;> omega

/-! ## The member functions -/

/-- A command that is rejected only counts; one that is carried out takes the book to a book of the
new depth and appends its events. -/
def Follows (b : OrderBook) (c : Command) (events : List Event) :
    Except RejectReason (Depth × List Event) → Except Fault (OrderBook × List Event) → Prop
  | .error reason, r => r = .ok (b.reject events c reason)
  | .ok (d, evs), r => ∃ b' q', r = .ok (b', events ++ evs) ∧ Inv b' q' ∧ b'.depth q' = d ∧
      Traded b b' (tradeCount evs)

theorem Inv.addResting (h : Inv b q) {o : RestingOrder} (events : List Event)
    (hv : b.config.validPrice o.price) (hid : ∀ m, ¬ b.orderIndex.Has o.orderId m)
    (hfree : b.freeNodes ≠ []) (hq : o.quantity ≠ 0) :
    ∃ b' q', b.addResting o.orderId o.side o.price o.quantity o.priority events =
        .ok (b', emit events .rested
          ⟨o.priority, .new, o.side, .limit, 0, o.orderId, o.price, o.quantity⟩ 0 o.price o.quantity
          .none) ∧
      Inv b' q' ∧ Traded b b' 0 ∧ b'.freeNodes = b.freeNodes.tail ∧
      b'.depth q' = enqueue (b.depth q) o := by
  obtain ⟨n, rest, hcons⟩ := List.exists_cons_of_ne_nil hfree
  obtain ⟨b', hadd, hcore, hconf, hrest, hstats, -, hn, hframe⟩ := h.toCore.addResting (s := o.side)
    o.quantity o.priority events hv hid hcons
  have hnq := (h.free n (by rw [hcons]; exact List.mem_cons_self)).2.2
  refine ⟨b', _, hadd, ⟨hcore, fun t j m hm => ?_⟩, ⟨hconf, by rw [hstats]; simp⟩, ?_, ?_⟩
  · have hquantity : ∀ x, (b'.node x).remaining = (OrderBook.restingOrder (b'.node x)).quantity :=
      fun _ => rfl
    rcases mem_setQueue_append.mp hm with hm | ⟨rfl, -⟩
    · rw [hquantity, hframe m fun he => hnq t j (he ▸ hm)]
      exact h.positive t j m hm
    · rw [hquantity, hn]
      exact hq
  · rw [hrest, hcons]
    rfl
  · rw [h.depth_push hcore hconf (h.ladder.priceIndex_lt hv) hnq hframe, OrderBook.order, hn]

theorem Core.absent_of_sweep {q' : Queues} (h : Core b q) (h' : Core b' q') {a : Side} {limit : Price}
    {quantity : Quantity} (hd : b'.depth q' = Function.update (b.depth q) a.opposite
      (sweep a limit quantity (b.depth q a.opposite)).rest) {id : OrderId}
    (hid : ∀ n, ¬ b.orderIndex.Has id n) : ∀ n, ¬ b'.orderIndex.Has id n := by
  intro n hn
  obtain ⟨s, o, ho, rfl⟩ := (h'.has_iff id).mp ⟨n, hn⟩
  rw [hd] at ho
  obtain ⟨t, o', ho', he⟩ : ∃ t, ∃ o' ∈ b.depth q t, o'.orderId = o.orderId := by
    by_cases hs : s = a.opposite
    · rw [hs, Function.update_self] at ho
      obtain ⟨o', ho', he, -⟩ := sweep_mem ho
      exact ⟨_, o', ho', he.symm⟩
    · rw [Function.update_of_ne hs] at ho
      exact ⟨s, o, ho, rfl⟩
  obtain ⟨m, hm⟩ := (h.has_iff o.orderId).mpr ⟨t, o', ho', he⟩
  exact hid m hm

/-- **Matching, and what is left of the order.** -/
theorem Inv.execute (h : Inv b q) (c : Command) (events : List Event) (replacement : Bool)
    (hv : c.orderType = .limit → b.config.validPrice c.price)
    (hid : ∀ n, ¬ b.orderIndex.Has c.orderId n)
    (hroom : c.orderType = .limit → b.freeNodes = [] → (b.market q).canFill c) :
    ∃ b' q', b.execute c events replacement =
        .ok (b', (if replacement then events else emit events .accepted c 0 0 0 .none) ++
          ((b.market q).execute c).2) ∧
      Inv b' q' ∧ b'.depth q' = ((b.market q).execute c).1 ∧
      Traded b b' (tradeCount ((b.market q).execute c).2) := by
  obtain ⟨b₁, q₁, hloop, hinv, htr, hfree, hdepth⟩ := Inv.matchLoop c (b.effectiveLimit c)
    (b.nodes.size + 2) h c.quantity
    (if replacement then events else emit events .accepted c 0 0 0 .none) rfl
    (by have := h.length_depth_le c.side.opposite; omega)
  have hlimit : (b.market q).limit c = b.effectiveLimit c := rfl
  have hmd : (b.market q).depth = b.depth q := rfl
  simp only [OrderBook.execute, Market.execute, hloop, bind, Except.bind, hlimit, hmd]
  generalize hsw : sweep c.side (b.effectiveLimit c) c.quantity (b.depth q c.side.opposite) = swept
    at *
  by_cases h0 : swept.remaining = 0
  · simp only [h0, if_true]
    exact ⟨b₁, q₁, rfl, hinv, hdepth, by rw [tradeCount_tradesOf]; exact htr⟩
  · simp only [h0, if_false]
    by_cases hlim : c.orderType = .limit
    · simp only [hlim, if_true]
      have hroom' : b₁.freeNodes ≠ [] := by
        intro hnil
        rw [hnil, List.length_nil, Nat.le_zero, List.length_eq_zero_iff] at hfree
        refine h0 ?_
        rw [← hsw]
        exact sweep_fills (h.depth_bestFirst _) (hroom hlim hfree)
      obtain ⟨b₂, q₂, hadd, hinv₂, htr₂, -, hdepth₂⟩ := hinv.addResting
        (o := ⟨c.orderId, c.side, c.price, swept.remaining, c.sequence⟩) _
        (by rw [htr.1]; exact hv hlim)
        (h.absent_of_sweep hinv.toCore (by rw [hdepth, ← hsw]) hid) hroom' h0
      refine ⟨b₂, q₂, ?_, hinv₂, ?_, ?_⟩
      · rw [hadd]
        simp [emit, eventOf]
      · rw [hdepth₂, hdepth]
      · rw [tradeCount_append, tradeCount_tradesOf, tradeCount_single (by simp [eventOf])]
        exact htr.trans htr₂
    · simp only [hlim, if_false]
      refine ⟨b₁, q₁, ?_, hinv, hdepth, ?_⟩
      · simp [emit]
      · rw [tradeCount_append, tradeCount_tradesOf, tradeCount_single (by simp [eventOf])]
        exact htr

theorem Core.freeNodes_eq_nil (h : Core b q) :
    b.freeNodes = [] ↔ (b.market q).size = b.config.maximumOrders.toNat := by
  rw [← h.nodes_size, ← h.size_market, ← List.length_eq_zero_iff]
  omega

theorem Inv.submit (h : Inv b q) (c : Command) (events : List Event) :
    Follows b c events ((b.market q).submit c) (b.submit c events false) := by
  rw [Market.submit, OrderBook.submit]
  by_cases hq : c.quantity = 0
  · rw [if_pos hq, if_pos hq]
    rfl
  rw [if_neg hq, if_neg hq]
  by_cases hv : c.orderType ≠ .market ∧ b.config.validPrice c.price = false
  · rw [if_pos hv, if_pos (show c.orderType ≠ .market ∧
      (b.market q).config.validPrice c.price = false from hv)]
    rfl
  rw [if_neg hv, if_neg (show ¬ (c.orderType ≠ .market ∧
    (b.market q).config.validPrice c.price = false) from hv)]
  rcases h.find_isSome c.orderId with ⟨o, n, s, i, hfind, hidx, -⟩ | ⟨hfind, hidx, hno⟩
  · simp only [Bool.false_eq_true, if_false, hidx, hfind, bind, Except.bind, Option.isSome_some,
      if_true]
    rfl
  simp only [Bool.false_eq_true, if_false, hidx, hfind, bind, Except.bind, Option.isSome_none,
    h.canFullyFill_eq c hq, ne_eq, not_true_eq_false]
  -- the two checks of what the opposite side holds
  have hcheck : ∀ p : Prop, ∀ _ : Decidable p, (if p then .ok (decide ((b.market q).canFill c))
      else .ok true : Except Fault Bool) = .ok (decide (¬ (p ∧ ¬ (b.market q).canFill c))) := by
    intro p _
    by_cases hp : p <;> simp [hp]
  simp only [hcheck]
  by_cases hfok : c.orderType = .fillOrKill ∧ ¬ (b.market q).canFill c
  · simp only [hfok, not_true_eq_false, decide_false, if_true, not_false_eq_true, and_self]
    rfl
  have hcap : (b.freeNodes = [] ∧ c.orderType = .limit) ∧ ¬ (b.market q).canFill c ↔
      (b.market q).size = (b.market q).config.maximumOrders.toNat ∧ c.orderType = .limit ∧
        ¬ (b.market q).canFill c := by
    rw [and_assoc, h.freeNodes_eq_nil]
    rfl
  simp only [hfok, not_false_eq_true, decide_true, Bool.true_eq_false, if_false, hcap]
  by_cases hfull : (b.market q).size = (b.market q).config.maximumOrders.toNat ∧
      c.orderType = .limit ∧ ¬ (b.market q).canFill c
  · simp only [hfull, not_true_eq_false, decide_false, if_true, not_false_eq_true, and_self]
    rfl
  simp only [hfull, not_false_eq_true, decide_true, Bool.true_eq_false, if_false]
  obtain ⟨b', q', hex, hinv, hdepth, htr⟩ := h.execute c events false
    (fun hlim => by
      by_contra hbad
      exact hv ⟨by rw [hlim]; simp, by simpa using hbad⟩) hno
    (fun hlim hfree => by
      by_contra hcan
      exact hfull (hcap.mp ⟨⟨hfree, hlim⟩, hcan⟩))
  refine ⟨b', q', ?_, hinv, hdepth, ?_⟩
  · rw [hex]
    simp [emit]
  · rw [← List.singleton_append, tradeCount_append, tradeCount_single (by simp [eventOf]),
      Nat.zero_add]
    exact htr

theorem Inv.removeNode (h : Inv b q) (hn : n ∈ q s i) :
    ∃ b' q', b.removeNode n = .ok b' ∧ Inv b' q' ∧ Traded b b' 0 ∧ b'.freeNodes ≠ [] ∧
      b'.depth q' = withdraw (b.depth q) (b.order n).orderId := by
  obtain ⟨b', hrem, hcore, hconf, hfree, hstats, -, hframe⟩ := h.toCore.removeNode hn
  exact ⟨b', _, hrem, h.of_pull hn hcore hframe, ⟨hconf, by rw [hstats]; simp⟩,
    by rw [hfree]; simp, h.depth_pull hn hcore hconf hframe⟩

theorem Core.absent_of_withdraw {q' : Queues} (h' : Core b' q') {d : Depth} {id : OrderId}
    (hd : b'.depth q' = withdraw d id) : ∀ n, ¬ b'.orderIndex.Has id n := by
  intro n hn
  obtain ⟨s, o, ho, he⟩ := (h'.has_iff id).mp ⟨n, hn⟩
  rw [hd, withdraw, List.mem_filter] at ho
  simp [he] at ho

theorem Inv.cancel (h : Inv b q) (c : Command) (events : List Event) :
    Follows b c events ((b.market q).cancel c) (b.cancel c events false) := by
  rw [Market.cancel, OrderBook.cancel]
  rcases h.find_isSome c.orderId with ⟨o, n, s, i, hfind, hidx, hn, rfl, hid⟩ | ⟨hfind, hidx, -⟩
  · obtain ⟨b', q', hrem, hinv, htr, -, hdepth⟩ := h.removeNode hn
    have hg := h.getNode hn
    simp only [hidx, hfind, bind, Except.bind, hg, hrem, Bool.false_eq_true, if_false]
    refine ⟨b', q', rfl, hinv, by rw [hdepth, hid]; rfl, ?_⟩
    rw [tradeCount_single (by simp [eventOf])]
    exact htr
  · simp only [hidx, hfind, bind, Except.bind]
    rfl

theorem Traded.market {k : ℕ} (h : Traded b b' k) (q q' : Queues) :
    b'.market q' = { b.market q with depth := b'.depth q' } := by
  rw [OrderBook.market, h.1, h.2]
  rfl

/-- A replacement is not checked again: there is room for it. -/
theorem submit_replacement {c : Command} (hfree : b.freeNodes ≠ []) (hlim : c.orderType = .limit)
    (hq : c.quantity ≠ 0) (hv : b.config.validPrice c.price = true) (events : List Event) :
    b.submit c events true = b.execute c events true := by
  simp [OrderBook.submit, hq, hlim, hv, hfree, bind, Except.bind]

theorem Inv.replace (h : Inv b q) (c : Command) (events : List Event) :
    Follows b c events ((b.market q).replace c) (b.replace c events) := by
  rw [Market.replace, OrderBook.replace]
  rcases h.find_isSome c.orderId with ⟨o, n, s, i, hfind, hidx, hn, rfl, hid⟩ | ⟨hfind, hidx, -⟩
  · simp only [hidx, hfind, bind, Except.bind]
    by_cases hq : c.quantity = 0
    · simp only [hq, true_or, if_true]
      rfl
    by_cases hv : b.config.validPrice c.price = false
    · have hv' : (b.market q).config.validPrice c.price = false := hv
      simp only [hq, hv, hv', or_true, if_true, if_false]
      rfl
    have hv' : (b.market q).config.validPrice c.price ≠ false := hv
    have hg := h.getNode hn
    obtain ⟨b₁, q₁, hrem, hinv, htr, hfree, hdepth⟩ := h.removeNode hn
    rw [hid] at hdepth
    have hcancel : b.cancel c events true = .ok (b₁, events) := by
      simp only [OrderBook.cancel, hidx, bind, Except.bind, hg, hrem, if_true]
    have hvalid : b.config.validPrice c.price = true := by simpa using hv
    simp only [hq, hv, hv', if_false, hg, hcancel]
    have hmarket : b₁.market q₁ = { b.market q with depth := withdraw (b.market q).depth c.orderId } := by
      rw [htr.market q q₁, hdepth]
      rfl
    obtain ⟨b₂, q₂, hex, hinv₂, hdepth₂, htr₂⟩ := hinv.execute
      (Market.replacement c (b.order n)) (emit events .replaced (Market.replacement c (b.order n)) 0
        c.price c.quantity .none) true (fun _ => by rw [htr.1]; exact hvalid)
      (Core.absent_of_withdraw hinv.toCore hdepth) (fun _ hnil => absurd hnil hfree)
    rw [hmarket] at hex hdepth₂ htr₂
    refine ⟨b₂, q₂, ?_, hinv₂, hdepth₂, ?_⟩
    · refine (submit_replacement (c := Market.replacement c (b.order n)) hfree rfl hq
        (by rw [htr.1]; exact hvalid) _).trans ?_
      refine hex.trans ?_
      simp [emit, Market.replacement]
    · rw [← List.singleton_append, tradeCount_append, tradeCount_single (by simp [eventOf])]
      exact htr.trans htr₂
  · simp only [hidx, hfind, bind, Except.bind]
    rfl

/-! ## Whole commands -/

/-- The book after the sequence check of `process`. -/
def OrderBook.counted (b : OrderBook) (c : Command) : OrderBook :=
  { b with stats := { b.stats with
    lastSequence := c.sequence
    commands := b.stats.commands + 1 } }

theorem Inv.counted (h : Inv b q) (c : Command) : Inv (b.counted c) q := h.withStats rfl

theorem Inv.reject (h : Inv b q) (events : List Event) (c : Command) (reason : RejectReason) :
    Inv (b.reject events c reason).1 q := h.withStats rfl

theorem perform_counted (q : Queues) (c : Command) :
    ((b.counted c).market q).perform c = (b.market q).perform c := rfl

/-- **Everything `process` can do.** -/
theorem Inv.process_cases (h : Inv b q) (c : Command) (events : List Event) :
    (c.sequence ≠ b.stats.lastSequence + 1 ∧
        b.process c events = .ok (b.reject events c .sequenceGap)) ∨
      c.sequence = b.stats.lastSequence + 1 ∧
        Follows (b.counted c) c events ((b.market q).perform c) (b.process c events) := by
  rw [OrderBook.process]
  by_cases hseq : c.sequence = b.stats.lastSequence + 1
  · refine Or.inr ⟨hseq, ?_⟩
    rw [if_neg (not_not.mpr hseq), ← perform_counted, Market.perform]
    cases c.type with
    | new => exact (h.counted c).submit c events
    | cancel => exact (h.counted c).cancel c events
    | replace => exact (h.counted c).replace c events
  · exact Or.inl ⟨hseq, if_pos hseq⟩

/-- The number of rejections in a list of events. -/
def rejectCount (events : List Event) : ℕ := events.countP fun e => e.type = .rejected

theorem rejectCount_append (es es' : List Event) :
    rejectCount (es ++ es') = rejectCount es + rejectCount es' := List.countP_append

theorem Market.rejectCount_perform {m : Market} {c : Command} {d : Depth} {evs : List Event}
    (h : m.perform c = .ok (d, evs)) : rejectCount evs = 0 := by
  rw [rejectCount, List.countP_eq_zero]
  exact fun e he => by simpa using (perform_event h he).1

/-- **The book follows the market over one command.** -/
theorem Inv.process (h : Inv b q) (c : Command) (events : List Event) :
    ∃ b' q', b.process c events = .ok (b', events ++ ((b.market q).process c).2) ∧ Inv b' q' ∧
      b'.market q' = ((b.market q).process c).1 ∧
      b'.stats.trades = b.stats.trades +
        UInt64.ofNat (tradeCount ((b.market q).process c).2) ∧
      b'.stats.rejected = b.stats.rejected +
        UInt64.ofNat (rejectCount ((b.market q).process c).2) := by
  have hgap : ∀ r, tradeCount [Market.rejection c r] = 0 ∧ rejectCount [Market.rejection c r] = 1 :=
    fun _ => ⟨rfl, rfl⟩
  rw [Market.process]
  rcases h.process_cases c events with ⟨hseq, hp⟩ | ⟨hseq, hf⟩
  · rw [if_pos (show c.sequence ≠ (b.market q).lastSequence + 1 from hseq), (hgap _).1, (hgap _).2]
    exact ⟨_, q, hp, h.reject events c .sequenceGap, rfl, by simp, by simp⟩
  · rw [if_neg (not_not.mpr (show c.sequence = (b.market q).lastSequence + 1 from hseq))]
    cases hperf : (b.market q).perform c with
    | error r =>
      rw [hperf] at hf
      simp only [(hgap _).1, (hgap _).2]
      exact ⟨_, q, hf, (h.counted c).reject events c r, rfl, by simp [OrderBook.counted],
        by simp [OrderBook.counted]⟩
    | ok r =>
      rw [hperf] at hf
      obtain ⟨b', q', hp, hinv, hdepth, htr⟩ := hf
      refine ⟨b', q', hp, hinv, ?_, ?_, ?_⟩
      · rw [htr.market q q', hdepth]
        rfl
      · rw [htr.2]
        rfl
      · rw [htr.2, Market.rejectCount_perform hperf]
        simp [OrderBook.counted]

/-- **The book follows the market over a list of commands.** -/
theorem Inv.run (h : Inv b q) (cs : List Command) :
    ∃ b' q', b.run cs = .ok (b', ((b.market q).run cs).2) ∧ Inv b' q' ∧
      b'.market q' = ((b.market q).run cs).1 ∧
      b'.stats.trades = b.stats.trades +
        UInt64.ofNat (tradeCount ((b.market q).run cs).2.flatten) ∧
      b'.stats.rejected = b.stats.rejected +
        UInt64.ofNat (rejectCount ((b.market q).run cs).2.flatten) := by
  induction cs generalizing b q with
  | nil => exact ⟨b, q, rfl, h, rfl, by simp [Market.run, tradeCount], by simp [Market.run, rejectCount]⟩
  | cons c cs ih =>
    obtain ⟨b₁, q₁, hp, hinv, hm, ht, hr⟩ := h.process c []
    obtain ⟨b₂, q₂, hrun, hinv₂, hm₂, ht₂, hr₂⟩ := ih hinv
    rw [hm] at hrun hm₂ ht₂ hr₂
    refine ⟨b₂, q₂, ?_, hinv₂, hm₂, ?_, ?_⟩
    · simp only [OrderBook.run, hp, bind, Except.bind, hrun, List.nil_append]
      rfl
    · rw [ht₂, ht, Market.run, List.flatten_cons, tradeCount_append, UInt64.ofNat_add,
        UInt64.add_assoc]
    · rw [hr₂, hr, Market.run, List.flatten_cons, rejectCount_append, UInt64.ofNat_add,
        UInt64.add_assoc]

theorem Inv.process_commands (h : Inv b q) {c : Command} {events events' : List Event} {b' : OrderBook}
    (hp : b.process c events = .ok (b', events')) :
    b'.stats.commands + b.stats.lastSequence = b.stats.commands + b'.stats.lastSequence := by
  rcases h.process_cases c events with ⟨-, hgap⟩ | ⟨hseq, hf⟩
  · cases hp.symm.trans hgap
    rfl
  have hcounted : (b.counted c).stats.commands + b.stats.lastSequence =
      b.stats.commands + (b.counted c).stats.lastSequence := by
    change b.stats.commands + 1 + b.stats.lastSequence = b.stats.commands + c.sequence
    rw [hseq, UInt64.add_assoc, UInt64.add_comm 1]
  cases hperf : (b.market q).perform c with
  | error r =>
    rw [hperf] at hf
    cases hp.symm.trans hf
    exact hcounted
  | ok r =>
    rw [hperf] at hf
    obtain ⟨b₁, q₁, hp₁, -, -, htr⟩ := hf
    cases hp.symm.trans hp₁
    rw [htr.2]
    exact hcounted

/-- **The sequence counts the commands.** -/
theorem Inv.run_commands (h : Inv b q) {cs : List Command} {evs : List (List Event)} {b' : OrderBook}
    (hrun : b.run cs = .ok (b', evs)) :
    b'.stats.commands + b.stats.lastSequence = b.stats.commands + b'.stats.lastSequence := by
  induction cs generalizing b q evs with
  | nil =>
    cases hrun
    rfl
  | cons c cs ih =>
    obtain ⟨b₁, q₁, hp, hinv, -⟩ := h.process c []
    obtain ⟨⟨b₂, events⟩, hp₂, hrun⟩ := bind_eq_ok.mp hrun
    cases hp.symm.trans hp₂
    obtain ⟨⟨b₃, evs₃⟩, hrest, hrun⟩ := bind_eq_ok.mp hrun
    cases hrun
    have hone := h.process_commands hp
    have hall := ih hinv hrest
    -- the sequence of the book in between cancels
    refine UInt64.add_right_inj b₁.stats.lastSequence |>.mp ?_
    calc b₁.stats.lastSequence + (b'.stats.commands + b.stats.lastSequence)
        = b'.stats.commands + b₁.stats.lastSequence + b.stats.lastSequence := by ac_rfl
      _ = b₁.stats.commands + b.stats.lastSequence + b'.stats.lastSequence := by rw [hall]; ac_rfl
      _ = b₁.stats.lastSequence + (b.stats.commands + b'.stats.lastSequence) := by rw [hone]; ac_rfl

theorem new_run_commands {config : BookConfig} (hnew : OrderBook.new config = .ok b) {cs : List Command}
    {evs : List (List Event)} {b' : OrderBook} (hrun : b.run cs = .ok (b', evs)) :
    b'.stats.commands = b'.stats.lastSequence := by
  obtain ⟨hinv, -, hstats⟩ := Inv.new hnew
  have hcount := hinv.run_commands hrun
  rw [hstats] at hcount
  simpa using hcount

end Dme
