import MatchingEngine.Safety

/-!
# The arithmetic of the ladder

* `Strict`: the functions of `order_book.cpp` on prices, with no value where a signed operation of
  theirs overflows or divides by zero.
* `PriceIndexCall`, `IndexPriceCall`: the arguments that reach `price_index` and `index_price`.
  `PriceIndexCall.valid`, `IndexPriceCall.lt`: they are prices and levels of the ladder.
* **`price_ladder_exact`**.
-/

set_option autoImplicit false

namespace Dme

/-! ## The functions without wrapping -/

namespace Strict

/-- The overflow check; its sum is formed for a negative minimum only. -/
def rangeOverflows (config : BookConfig) : Option Bool :=
  if config.minimumPrice < 0 then do
    let bound ← Signed.add Int64.maxValue config.minimumPrice
    some (decide (config.maximumPrice > bound))
  else some false

/-- `checked_price_count`, with no value where an operation overflows. -/
def checkedPriceCount (config : BookConfig) : Option (Except Fault ℕ) :=
  if config.tickSize ≤ 0 ∨ config.maximumPrice < config.minimumPrice ∨
      config.maximumOrders = 0 ∨ config.maximumOrders.toNat > uint32Max then
    some (.error (.invalidArgument "invalid order-book configuration"))
  else do
    let overflows ← rangeOverflows config
    if overflows then some (.error (.invalidArgument "price range overflows"))
    else
      let span ← Signed.sub config.maximumPrice config.minimumPrice
      let rest ← Signed.rem span config.tickSize
      if rest ≠ 0 then some (.error (.invalidArgument "price range is not tick aligned"))
      else
        let ticks ← Signed.div span config.tickSize
        let count := ticks.toUInt64 + 1
        if count.toNat > sizeMax then some (.error (.invalidArgument "price ladder is too large"))
        else some (.ok count.toNat)

/-- `valid_price`; the difference is formed for prices in range only. -/
def validPrice (c : BookConfig) (price : Price) : Option Bool :=
  if price ≥ c.minimumPrice ∧ price ≤ c.maximumPrice then do
    let offset ← Signed.sub price c.minimumPrice
    let rest ← Signed.rem offset c.tickSize
    some (decide (rest = 0))
  else some false

/-- `price_index`, with no value where an operation overflows. -/
def priceIndex (c : BookConfig) (price : Price) : Option ℕ := do
  let offset ← Signed.sub price c.minimumPrice
  let ticks ← Signed.div offset c.tickSize
  some ticks.toUInt64.toNat

/-- `index_price`, with no value where an operation overflows. -/
def indexPrice (c : BookConfig) (index : ℕ) : Option Price := do
  let ticks ← Signed.mul (Int64.ofNat index) c.tickSize
  Signed.add c.minimumPrice ticks

theorem rangeOverflows_eq (c : BookConfig) : rangeOverflows c = some (decide
    (c.minimumPrice < 0 ∧ c.maximumPrice > Int64.maxValue + c.minimumPrice)) := by
  rw [rangeOverflows]
  by_cases hneg : c.minimumPrice < 0
  · have hneg' : c.minimumPrice.toInt < 0 := by
      rwa [Int64.lt_iff_toInt_lt, Int64.toInt_zero] at hneg
    rw [if_pos hneg, Signed.add_eq_some (toInt_maxValue_add hneg').1]
    simp [hneg]
  · simp [hneg]

/-- The check of a configuration forms no value out of range, whatever the configuration. -/
theorem checkedPriceCount_eq (c : BookConfig) :
    checkedPriceCount c = some (Dme.checkedPriceCount c) := by
  rw [checkedPriceCount, Dme.checkedPriceCount, rangeOverflows_eq]
  by_cases h1 : c.tickSize ≤ 0 ∨ c.maximumPrice < c.minimumPrice ∨
      c.maximumOrders = 0 ∨ c.maximumOrders.toNat > uint32Max
  · rw [if_pos h1, if_pos h1]
  rw [if_neg h1, if_neg h1]
  simp only [not_or, not_le, not_lt, Int64.lt_iff_toInt_lt, Int64.toInt_zero,
    Int64.le_iff_toInt_le] at h1
  by_cases h2 : c.minimumPrice < 0 ∧ c.maximumPrice > Int64.maxValue + c.minimumPrice
  · simp [h2]
  · have hfits : Signed.Fits (c.maximumPrice.toInt - c.minimumPrice.toInt) :=
      ⟨by omega, span_lt_of_check h2⟩
    have h0 : 0 ≤ (c.maximumPrice - c.minimumPrice).toInt := by
      rw [Signed.toInt_sub hfits]
      omega
    simp only [Option.bind_eq_bind, Option.bind_some, decide_eq_true_eq, if_neg h2,
      Signed.sub_eq_some hfits, Signed.rem_eq_some h0 h1.1, Signed.div_eq_some h0 h1.1]
    split_ifs <;> rfl

variable {c : BookConfig} {n : ℕ} (hl : Ladder c n)

include hl

theorem validPrice_eq (p : Price) : validPrice c p = some (c.validPrice p) := by
  rw [validPrice, BookConfig.validPrice]
  by_cases hp : p ≥ c.minimumPrice ∧ p ≤ c.maximumPrice
  · obtain ⟨h1, h2⟩ := hp
    have hfits := hl.fits_offset (Int64.le_iff_toInt_le.mp h1) (Int64.le_iff_toInt_le.mp h2)
    have h0 : 0 ≤ (p - c.minimumPrice).toInt := by
      rw [Signed.toInt_sub hfits]
      have := Int64.le_iff_toInt_le.mp h1
      omega
    rw [if_pos ⟨h1, h2⟩, Signed.sub_eq_some hfits]
    simp only [Option.bind_eq_bind, Option.bind_some, Signed.rem_eq_some h0 hl.tick_pos, h1, h2,
      decide_true, Bool.true_and]
  · rw [if_neg hp, ← Bool.decide_and, decide_eq_false hp, Bool.false_and]

theorem priceIndex_eq {p : Price} (hp : c.validPrice p = true) :
    priceIndex c p = some (c.priceIndex p) := by
  obtain ⟨h1, h2, -⟩ := (hl.validPrice_iff p).mp hp
  have hfits := hl.fits_offset h1 h2
  have h0 : 0 ≤ (p - c.minimumPrice).toInt := by
    rw [Signed.toInt_sub hfits]
    omega
  rw [priceIndex, Signed.sub_eq_some hfits]
  simp only [Option.bind_eq_bind, Option.bind_some, Signed.div_eq_some h0 hl.tick_pos,
    BookConfig.priceIndex]

theorem indexPrice_eq {i : ℕ} (hi : i < n) : indexPrice c i = some (c.indexPrice i) := by
  rw [indexPrice, Signed.mul_eq_some (hl.fits_ticks hi), Option.bind_eq_bind, Option.bind_some,
    Signed.add_eq_some (hl.fits_price hi), BookConfig.indexPrice]

end Strict

/-! ## The arguments -/

variable {b : OrderBook} {q : Queues} {side : Side} {i : ℕ} {p : Price}

/-- The levels where the loop of `can_fully_fill` stands. -/
inductive Filling (b : OrderBook) : Side → ℕ → Prop
  | best {side : Side} {i : ℕ} (h : b.bestIndex side.opposite = .ok i) : Filling b side i
  | up {i j : ℕ} (h : Filling b .buy i) (hi : i ≠ noPrice)
    (hskip : b.skipUp (b.levels .sell) (b.priceCount + 1) (i + 1) = .ok j) (hj : j < b.priceCount) :
    Filling b .buy j
  | down {i j : ℕ} (h : Filling b .sell (i + 1)) (hi : i + 1 ≠ noPrice)
    (hskip : OrderBook.skipDown (b.levels .buy) i = .ok (some j)) : Filling b .sell j

/-- **The prices that reach `price_index`** in calls on `b`: through `quantity_at`, through
`add_resting` behind the checks of `submit` and of `restore`, and through `remove_node` for an order
that is cancelled or replaced, or used up by an aggressor. -/
inductive PriceIndexCall (b : OrderBook) : Price → Prop
  | quantityAt {price : Price} (hvalid : b.config.validPrice price = true) : PriceIndexCall b price
  | submit {c c' : Command} {x : OrderBook.Matching} (hx : Looping b c c' x)
    (hvalid : ¬ (c'.orderType ≠ .market ∧ b.config.validPrice c'.price = false))
    (hlimit : c'.orderType = .limit) : PriceIndexCall b c'.price
  | restore {last : Sequence} {orders : List RestingOrder} {order : RestingOrder} {b' : OrderBook}
    (hempty : b.stats.restingOrders = 0) (hroom : orders.length ≤ b.config.maximumOrders.toNat)
    (hloop : OrderBook.restoreLoop last b orders = (b', .ok ()))
    (hvalid : ¬ (b'.config.validPrice order.price = false ∨ order.quantity = 0 ∨
      order.priority > last)) : PriceIndexCall b order.price
  | cancel {id : OrderId} {index : UInt32} {node : OrderNode}
    (hfind : b.orderIndex.find id = .ok (some index))
    (hnode : vecGet b.nodes index.toNat = .ok node) : PriceIndexCall b node.price
  | trade {c c' : Command} {x : OrderBook.Matching} {i : ℕ} {level : PriceLevel} {node : OrderNode}
    (hx : Looping b c c' x) (hbest : x.book.bestIndex c'.side.opposite = .ok i)
    (hcrosses : x.book.crosses c'.side (b.effectiveLimit c') i = true)
    (hlevel : vecGet (x.book.levels c'.side.opposite) i = .ok level)
    (hnode : vecGet x.book.nodes level.head.toNat = .ok node) : PriceIndexCall b node.price

/-- **The levels that reach `index_price`** in calls on `b`: through `best_bid` and `best_ask`, and
through `crosses` in the matching loop and in `can_fully_fill`. -/
inductive IndexPriceCall (b : OrderBook) : ℕ → Prop
  | best {side : Side} {i : ℕ} (hbest : b.bestIndex side = .ok i) (hi : i ≠ noPrice) :
    IndexPriceCall b i
  | matching {c c' : Command} {x : OrderBook.Matching} {i : ℕ} (hx : Looping b c c' x)
    (hbest : x.book.bestIndex c'.side.opposite = .ok i) (hi : i ≠ noPrice) : IndexPriceCall b i
  | filling {c c' : Command} {x : OrderBook.Matching} {i : ℕ} (hx : Looping b c c' x)
    (hfill : Filling x.book c'.side i) (hi : i ≠ noPrice) : IndexPriceCall b i

theorem Core.best_lt (h : Core b q) (hbest : b.bestIndex side = .ok i) (hi : i ≠ noPrice) :
    i < b.priceCount := by
  obtain ⟨j, hj, ⟨hno, -⟩ | ⟨hlt, -⟩⟩ := h.bestIndex side
  · cases hbest.symm.trans hj
    exact absurd hno hi
  · cases hbest.symm.trans hj
    exact hlt

theorem Filling.lt (h : Core b q) (hf : Filling b side i) (hi : i ≠ noPrice) : i < b.priceCount := by
  induction hf with
  | best hbest => exact h.best_lt hbest hi
  | up _ _ _ hj _ => exact hj
  | @down k j _ hk hskip ih =>
    have hlt := ih hk
    obtain ⟨o, ho, -, hsome⟩ := h.skipDown k (by omega)
    cases hskip.symm.trans ho
    have := (hsome j rfl).1
    omega

theorem Core.validPrice_node (h : Core b q) {n : UInt32} (hn : n ∈ q side i) :
    b.config.validPrice (b.node n).price = true := by
  rw [h.node_price hn]
  exact h.ladder.validPrice_indexPrice (h.lt_of_mem hn)

theorem PriceIndexCall.valid (h : Inv b q) (hp : PriceIndexCall b p) :
    b.config.validPrice p = true := by
  cases hp with
  | quantityAt hvalid => exact hvalid
  | @submit c c' x hx hvalid hlimit => simpa [hlimit] using hvalid
  | restore hempty hroom hloop hvalid =>
    rw [← h.empty_room hempty] at hroom
    obtain ⟨-, -, htr, -⟩ := h.restoreLoop_ok hroom hloop
    rw [← htr.1]
    simpa using (not_or.mp hvalid).1
  | @cancel id index node hfind hnode =>
    rcases h.find_isSome id with ⟨o, n, s, i, -, hidx, hn, -⟩ | ⟨-, hidx, -⟩
    · cases hfind.symm.trans hidx
      cases hnode.symm.trans (h.getNode hn)
      exact h.validPrice_node hn
    · cases hfind.symm.trans hidx
  | @trade c c' x i level node hx hbest hcrosses hlevel hnode =>
    obtain ⟨⟨q', hinv⟩, hconfig⟩ := hx.inv h
    obtain ⟨hlt, hmem⟩ := hinv.best_mem hbest hcrosses
    cases hlevel.symm.trans (hinv.getLevel _ hlt)
    cases hnode.symm.trans (hinv.getNode hmem)
    rw [← hconfig]
    exact hinv.validPrice_node hmem

theorem IndexPriceCall.lt (h : Inv b q) (hi : IndexPriceCall b i) : i < b.priceCount := by
  cases hi with
  | best hbest hi => exact h.best_lt hbest hi
  | matching hx hbest hi =>
    obtain ⟨⟨q', hinv⟩, hconfig⟩ := hx.inv h
    rw [← h.priceCount_eq hinv.toCore hconfig]
    exact hinv.best_lt hbest hi
  | filling hx hfill hi =>
    obtain ⟨⟨q', hinv⟩, hconfig⟩ := hx.inv h
    rw [← h.priceCount_eq hinv.toCore hconfig]
    exact hfill.lt hinv.toCore hi

/-! ## The ladder -/

theorem checkedPriceCount_throws {c : BookConfig} {e : Fault} (h : checkedPriceCount c = .error e) :
    ∃ text, e = .invalidArgument text := by
  rw [checkedPriceCount] at h
  simp only at h
  split_ifs at h <;> exact ⟨_, (Except.error.inj h).symm⟩

theorem Ladder.invOn {c : BookConfig} {n : ℕ} (hl : Ladder c n) :
    Set.InvOn c.indexPrice c.priceIndex {p | c.validPrice p = true} (Set.Iio n) :=
  ⟨fun _ hp => hl.indexPrice_priceIndex hp, fun _ hi => hl.priceIndex_indexPrice hi⟩

/-- **The arithmetic of the ladder is exact.** Whatever the configuration, its check overflows
nowhere, and throws or returns a count. Then neither `valid_price` overflows on any price, nor the
other two functions on what reaches them; they are inverse, increasing bijections between the valid
prices and the levels. Both ends are valid prices, and no node is `invalid_node`. -/
theorem price_ladder_exact (c : BookConfig) :
    Strict.checkedPriceCount c = some (checkedPriceCount c) ∧
    ((∃ text, checkedPriceCount c = .error (.invalidArgument text)) ∨
      ∃ n, checkedPriceCount c = .ok n ∧
        (∀ p, Strict.validPrice c p = some (c.validPrice p)) ∧
        (∀ p, c.validPrice p = true → Strict.priceIndex c p = some (c.priceIndex p)) ∧
        (∀ i < n, Strict.indexPrice c i = some (c.indexPrice i)) ∧
        (∀ b, Reachable b → b.config = c →
          (∀ p, PriceIndexCall b p → c.validPrice p = true) ∧ ∀ i, IndexPriceCall b i → i < n) ∧
        Set.BijOn c.priceIndex {p | c.validPrice p = true} (Set.Iio n) ∧
        Set.BijOn c.indexPrice (Set.Iio n) {p | c.validPrice p = true} ∧
        Set.InvOn c.indexPrice c.priceIndex {p | c.validPrice p = true} (Set.Iio n) ∧
        (∀ p p', c.validPrice p = true → c.validPrice p' = true →
          (c.priceIndex p < c.priceIndex p' ↔ p < p')) ∧
        (∀ i < n, ∀ j < n, c.indexPrice i < c.indexPrice j ↔ i < j) ∧
        c.validPrice c.minimumPrice = true ∧ c.validPrice c.maximumPrice = true ∧
        ∀ node < c.maximumOrders.toNat,
          (UInt32.ofNat node).toNat = node ∧ UInt32.ofNat node ≠ invalidNode) := by
  refine ⟨Strict.checkedPriceCount_eq c, ?_⟩
  cases hcheck : checkedPriceCount c with
  | error e =>
    obtain ⟨text, rfl⟩ := checkedPriceCount_throws hcheck
    exact Or.inl ⟨text, rfl⟩
  | ok n =>
    have hl := ladder_of_checked hcheck
    have hprices : Set.MapsTo c.priceIndex {p | c.validPrice p = true} (Set.Iio n) :=
      fun _ hp => hl.priceIndex_lt hp
    have hlevels : Set.MapsTo c.indexPrice (Set.Iio n) {p | c.validPrice p = true} :=
      fun _ hi => hl.validPrice_indexPrice hi
    refine Or.inr ⟨n, rfl, Strict.validPrice_eq hl, fun p => Strict.priceIndex_eq hl,
      fun i => Strict.indexPrice_eq hl, ?_, hl.invOn.bijOn hprices hlevels,
      hl.invOn.symm.bijOn hlevels hprices, hl.invOn, fun p p' => hl.priceIndex_lt_iff,
      fun i hi j => hl.indexPrice_lt_iff hi, hl.validPrice_minimum, hl.validPrice_maximum,
      fun node hnode => ⟨hl.toNat_node hnode, ne_invalidNode_of_lt hl.orders_le ?_⟩⟩
    · rintro b hb rfl
      obtain ⟨q, hinv⟩ := hb.inv
      have hn : n = b.priceCount := Except.ok.inj (hcheck.symm.trans hinv.checked)
      exact ⟨fun p hp => hp.valid hinv, fun i hi => hn ▸ hi.lt hinv⟩
    · rw [hl.toNat_node hnode]
      exact hnode

-- the widest span from the least price, and one tick more
example : checkedPriceCount ⟨Int64.minValue, -1, 1, 5⟩ = .ok (2 ^ 63) := by decide +kernel
example : checkedPriceCount ⟨Int64.minValue, 0, 1, 5⟩ =
    .error (.invalidArgument "price range overflows") := by decide +kernel

end Dme
