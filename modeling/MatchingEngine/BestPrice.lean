import MatchingEngine.Restore

/-!
# The search for the best price

* `ActivityCall`: a call of `set_active` or `clear_active`; `OrderBook.activity`: calls one after
  another. `Active calls s i`: the last call for level `i` of side `s` sets it.
* `activity_spec`: the bits that calls leave set are those of the active levels.
* `Core.top_spec`: the price on top of a side.
* **`best_price_exact`**.
-/

set_option autoImplicit false

namespace Dme

/-- A call of `set_active` or of `clear_active`. -/
inductive ActivityCall
  | setActive (side : Side) (index : ℕ)
  | clearActive (side : Side) (index : ℕ)
deriving DecidableEq, Repr

namespace ActivityCall

/-- The side whose bitmap a call changes. -/
def side : ActivityCall → Side
  | setActive side _ => side
  | clearActive side _ => side

/-- The level a call is about. -/
def index : ActivityCall → ℕ
  | setActive _ index => index
  | clearActive _ index => index

/-- The call, made on a book. -/
def on (b : OrderBook) : ActivityCall → Except Fault OrderBook
  | setActive side index => b.setActive side index
  | clearActive side index => b.clearActive side index

end ActivityCall

/-- The calls of a list, made one after another. -/
def OrderBook.activity (b : OrderBook) (calls : List ActivityCall) : Except Fault OrderBook :=
  calls.foldlM ActivityCall.on b

/-- The last call for a level of a side. -/
def lastCall (calls : List ActivityCall) (s : Side) (i : ℕ) : Option ActivityCall :=
  calls.reverse.find? fun c => c.side = s ∧ c.index = i

/-- **The level is active**: the last call for it sets it. -/
def Active (calls : List ActivityCall) (s : Side) (i : ℕ) : Prop :=
  lastCall calls s i = some (.setActive s i)

instance (calls : List ActivityCall) (s : Side) (i : ℕ) : Decidable (Active calls s i) :=
  inferInstanceAs (Decidable (_ = _))

variable {b b₀ : OrderBook} {q : Queues} {s : Side} {calls : List ActivityCall} {call : ActivityCall}

theorem active_append (calls : List ActivityCall) (call : ActivityCall) (s : Side) (i : ℕ) :
    Active (calls ++ [call]) s i ↔
      if call.side = s ∧ call.index = i then call = .setActive s i else Active calls s i := by
  rw [Active, lastCall, List.reverse_append, List.reverse_singleton, List.singleton_append,
    List.find?_cons]
  by_cases hcall : call.side = s ∧ call.index = i
  · simp [hcall]
  · simp [hcall, Active, lastCall]

theorem OrderBook.setBits_spec {ws : Array UInt64} {i : ℕ} {p : Prop} [Decidable p]
    (hsize : ws.size = (b.bits s).size)
    (hws : ∀ j, Bitmap.IsSet ws j ↔ if i = j then p else Bitmap.IsSet (b.bits s) j) :
    (∀ t, ((b.setBits s ws).bits t).size = (b.bits t).size) ∧
      ∀ t j, Bitmap.IsSet ((b.setBits s ws).bits t) j ↔
        if s = t ∧ i = j then p else Bitmap.IsSet (b.bits t) j := by
  refine ⟨fun t => ?_, fun t j => ?_⟩
  · rw [setBits_bits]
    split_ifs with ht
    · rw [ht, hsize]
    · rfl
  · rw [setBits_bits]
    by_cases ht : t = s
    · subst ht
      rw [if_pos rfl, hws]
      simp
    · simp [ht, Ne.symm ht]

theorem ActivityCall.on_spec (h : call.index / 64 < (b.bits call.side).size) :
    ∃ b', call.on b = .ok b' ∧ (∀ s, (b'.bits s).size = (b.bits s).size) ∧
      ∀ s i, Bitmap.IsSet (b'.bits s) i ↔ if call.side = s ∧ call.index = i
        then call = .setActive s i else Bitmap.IsSet (b.bits s) i := by
  cases call with
  | setActive side index =>
    replace h : index / 64 < (b.bits side).size := h
    have hset : ∀ j, Bitmap.IsSet (Bitmap.setBit (b.bits side) index) j ↔
        if index = j then True else Bitmap.IsSet (b.bits side) j := by
      intro j
      rw [Bitmap.isSet_setBit h]
      split_ifs with hj <;> simp [hj, eq_comm]
    obtain ⟨hsize, hbits⟩ := OrderBook.setBits_spec (by simp [Bitmap.setBit]) hset
    refine ⟨_, OrderBook.setActive_spec h, hsize, fun s i => (hbits s i).trans ?_⟩
    simp only [ActivityCall.side, ActivityCall.index, ActivityCall.setActive.injEq]
    split_ifs with hc <;> simp [hc]
  | clearActive side index =>
    replace h : index / 64 < (b.bits side).size := h
    have hclear : ∀ j, Bitmap.IsSet (Bitmap.clearBit (b.bits side) index) j ↔
        if index = j then False else Bitmap.IsSet (b.bits side) j := by
      intro j
      rw [Bitmap.isSet_clearBit h]
      split_ifs with hj <;> simp [hj, eq_comm]
    obtain ⟨hsize, hbits⟩ := OrderBook.setBits_spec (by simp [Bitmap.clearBit]) hclear
    refine ⟨_, OrderBook.clearActive_spec h, hsize, fun s i => (hbits s i).trans ?_⟩
    simp only [ActivityCall.side, ActivityCall.index, reduceCtorEq]

/-- **The bits after any calls**, on a book with none set. -/
theorem activity_spec (hempty : ∀ s i, ¬ Bitmap.IsSet (b₀.bits s) i) (calls : List ActivityCall)
    (hin : ∀ c ∈ calls, c.index / 64 < (b₀.bits c.side).size) :
    ∃ b, b₀.activity calls = .ok b ∧ (∀ s, (b.bits s).size = (b₀.bits s).size) ∧
      ∀ s i, Bitmap.IsSet (b.bits s) i ↔ Active calls s i := by
  -- the last call decides, so the induction is on the list from its end
  induction calls using List.reverseRecOn with
  | nil => exact ⟨b₀, rfl, fun _ => rfl, fun s i => by simp [hempty, Active, lastCall]⟩
  | append_singleton calls call ih =>
    obtain ⟨b, hrun, hsize, hbits⟩ := ih fun c hc => hin c (List.mem_append_left _ hc)
    have hcall := hin call (List.mem_append_right _ (List.mem_singleton_self _))
    rw [← hsize] at hcall
    obtain ⟨b', hb', hsize', hbits'⟩ := ActivityCall.on_spec hcall
    refine ⟨b', ?_, fun s => (hsize' s).trans (hsize s), fun s i => ?_⟩
    · rw [OrderBook.activity, List.foldlM_append]
      exact bind_eq_ok.mpr ⟨b, hrun, bind_eq_ok.mpr ⟨b', hb', rfl⟩⟩
    · rw [hbits', hbits, active_append]

theorem Active.exists_call {i : ℕ} (h : Active calls s i) : ∃ c ∈ calls, c.index = i := by
  have hfound := List.find?_some h
  have hmem := List.mem_reverse.mp (List.mem_of_find?_eq_some h)
  simp only [decide_eq_true_eq] at hfound
  exact ⟨_, hmem, hfound.2⟩

theorem bestIndex_eq_iff {n : ℕ} (hn : n ≤ noPrice)
    (hlt : ∀ i, Bitmap.IsSet (b.bits s) i → i < n) :
    (b.bestIndex s = .ok noPrice ↔ ∀ i, ¬ Bitmap.IsSet (b.bits s) i) ∧
      ∀ i ≠ noPrice, b.bestIndex s = .ok i ↔
        Bitmap.IsSet (b.bits s) i ∧ ∀ j, s.Ahead j i → ¬ Bitmap.IsSet (b.bits s) j := by
  obtain ⟨r, hr, ⟨rfl, hno⟩ | ⟨hset, hahead⟩⟩ := bestIndex_spec b s
  · refine ⟨iff_of_true hr hno, fun i hi => iff_of_false ?_ fun h => hno i h.1⟩
    rw [hr]
    exact fun h => hi (Except.ok.inj h).symm
  · have hne : r ≠ noPrice := (lt_of_lt_of_le (hlt r hset) hn).ne
    refine ⟨iff_of_false ?_ fun h => h r hset, fun i _ => ?_⟩
    · rw [hr]
      exact fun h => hne (Except.ok.inj h)
    · rw [hr]
      constructor
      · intro h
        cases h
        exact ⟨hset, hahead⟩
      · rintro ⟨hset', hahead'⟩
        -- neither level is ahead of the other
        have h₁ : ¬ s.Ahead r i := fun h => hahead' r h hset
        have h₂ : ¬ s.Ahead i r := fun h => hahead i h hset'
        have : r = i := by cases s <;> simp only [Side.Ahead] at h₁ h₂ <;> omega
        rw [this]

theorem Core.top_spec (h : Core b q) {x : RestingOrder} (hx : x ∈ b.depth q s) :
    (∃ o ∈ b.depth q s, o.price = (b.market q).top s) ∧
      better s x.price ((b.market q).top s) = false := by
  have hsorted := h.depth_bestFirst s
  cases hd : b.depth q s with
  | nil =>
    rw [hd] at hx
    cases hx
  | cons o os =>
    rw [hd] at hx hsorted
    rw [Market.top_cons (show (b.market q).depth s = o :: os from hd)]
    refine ⟨⟨o, List.mem_cons_self, rfl⟩, ?_⟩
    rcases List.mem_cons.mp hx with rfl | hx
    · cases s <;> simp [better]
    · exact (List.pairwise_cons.mp hsorted).1 x hx

theorem activity_best {config : BookConfig} (hnew : OrderBook.new config = .ok b₀)
    (hin : ∀ c ∈ calls, c.index < b₀.priceCount) :
    ∃ b, b₀.activity calls = .ok b ∧ ∀ s, (b.bestIndex s = .ok noPrice ↔ ∀ i, ¬ Active calls s i) ∧
      ∀ i ≠ noPrice, b.bestIndex s = .ok i ↔
        Active calls s i ∧ ∀ j, s.Ahead j i → ¬ Active calls s j := by
  obtain ⟨hinv, -⟩ := Inv.new hnew
  obtain ⟨b, hrun, -, hbits⟩ := activity_spec (fun s i => by simp [hinv.active]) calls
    fun c hc => hinv.word_lt c.side (hin c hc)
  have hcount : b₀.priceCount ≤ noPrice := by
    have := hinv.ladder.count_lt
    unfold noPrice sizeMax
    omega
  have hlt : ∀ s i, Bitmap.IsSet (b.bits s) i → i < b₀.priceCount := by
    intro s i hset
    obtain ⟨c, hc, rfl⟩ := ((hbits s i).mp hset).exists_call
    exact hin c hc
  refine ⟨b, hrun, fun s => ?_⟩
  simpa only [hbits] using bestIndex_eq_iff hcount (hlt s)

theorem Core.bestAsk_isLeast (h : Core b q) {x : RestingOrder} (hx : x ∈ b.depth q .sell) :
    ∃ price, b.bestAsk = .ok price ∧ IsLeast {p | ∃ o ∈ b.depth q .sell, o.price = p} price := by
  refine ⟨_, h.bestAsk, (h.top_spec hx).1, ?_⟩
  rintro p ⟨o, ho, rfl⟩
  simpa [better, Int64.not_lt] using (h.top_spec ho).2

theorem Core.bestBid_isGreatest (h : Core b q) {x : RestingOrder} (hx : x ∈ b.depth q .buy) :
    ∃ price, b.bestBid = .ok price ∧ IsGreatest {p | ∃ o ∈ b.depth q .buy, o.price = p} price := by
  refine ⟨_, h.bestBid, (h.top_spec hx).1, ?_⟩
  rintro p ⟨o, ho, rfl⟩
  simpa [better, Int64.not_lt] using (h.top_spec ho).2

theorem ahead_sell_iff {p : ℕ → Prop} {i : ℕ} :
    (p i ∧ ∀ j, Side.sell.Ahead j i → ¬ p j) ↔ IsLeast {j | p j} i :=
  and_congr_right fun _ => ⟨fun h j hj => not_lt.mp fun hji => h j hji hj,
    fun h _ hji hj => not_lt.mpr (h hj) hji⟩

theorem ahead_buy_iff {p : ℕ → Prop} {i : ℕ} :
    (p i ∧ ∀ j, Side.buy.Ahead j i → ¬ p j) ↔ IsGreatest {j | p j} i :=
  and_congr_right fun _ => ⟨fun h j hj => not_lt.mp fun hji => h j hji hj,
    fun h _ hji hj => not_lt.mpr (h hj) hji⟩

/-- **The search for the best price is exact.** After any calls of `set_active` and `clear_active` on a
new book, `best_index` returns the least active level of the asks and the greatest of the bids, or
`no_price` when there is none. In every reachable book `best_ask` and `best_bid` are the least and the
greatest price that rests on their side, if one does. -/
theorem best_price_exact :
    (∀ config b₀ calls, OrderBook.new config = .ok b₀ → (∀ c ∈ calls, c.index < b₀.priceCount) →
      ∃ b, b₀.activity calls = .ok b ∧
        (∀ s, b.bestIndex s = .ok noPrice ↔ ∀ i, ¬ Active calls s i) ∧
        (∀ i ≠ noPrice, b.bestIndex .sell = .ok i ↔ IsLeast {j | Active calls .sell j} i) ∧
        ∀ i ≠ noPrice, b.bestIndex .buy = .ok i ↔ IsGreatest {j | Active calls .buy j} i) ∧
    ∀ b, Reachable b → ∃ orders, b.restingOrders = .ok orders ∧
      ((∃ o ∈ orders, o.side = .sell) → ∃ price, b.bestAsk = .ok price ∧
        IsLeast {p | ∃ o ∈ orders, o.side = .sell ∧ o.price = p} price) ∧
      ((∃ o ∈ orders, o.side = .buy) → ∃ price, b.bestBid = .ok price ∧
        IsGreatest {p | ∃ o ∈ orders, o.side = .buy ∧ o.price = p} price) := by
  refine ⟨fun config b₀ calls hnew hin => ?_, fun b hb => ?_⟩
  · obtain ⟨b, hrun, hbest⟩ := activity_best hnew hin
    exact ⟨b, hrun, fun s => (hbest s).1, fun i hi => ((hbest .sell).2 i hi).trans ahead_sell_iff,
      fun i hi => ((hbest .buy).2 i hi).trans ahead_buy_iff⟩
  · obtain ⟨q, hinv⟩ := hb.inv
    refine ⟨_, hinv.restingOrders, ?_, ?_⟩
    · rintro ⟨x, hx⟩
      simp only [← and_assoc, hinv.mem_orders_side]
      exact hinv.bestAsk_isLeast (hinv.mem_orders_side.mp hx)
    · rintro ⟨x, hx⟩
      simp only [← and_assoc, hinv.mem_orders_side]
      exact hinv.bestBid_isGreatest (hinv.mem_orders_side.mp hx)

/-- Of two levels that were set, the lower one has been cleared. -/
theorem best_price_exact_after_clear : ∃ b₀ b, OrderBook.new ⟨1, 4, 1, 2⟩ = .ok b₀ ∧
    b₀.activity [.setActive .sell 1, .setActive .sell 2, .clearActive .sell 1] = .ok b ∧
    b.bestIndex .sell = .ok 2 := by
  have hcheck : checkedPriceCount ⟨1, 4, 1, 2⟩ = .ok 4 := by decide
  obtain ⟨b₀, hnew⟩ := OrderBook.new_isOk hcheck (by decide)
  obtain ⟨hinv, hconfig, -⟩ := Inv.new hnew
  have hcount := hinv.checked
  rw [hconfig, hcheck] at hcount
  obtain ⟨b, hrun, -, hleast, -⟩ := best_price_exact.1 _ _
    [.setActive .sell 1, .setActive .sell 2, .clearActive .sell 1] hnew
    (by rw [← Except.ok.inj hcount]; decide)
  refine ⟨b₀, b, hnew, hrun, (hleast 2 (by decide)).mpr ⟨by decide, fun j hj => ?_⟩⟩
  by_contra hlt
  interval_cases j <;> exact absurd hj (by decide)

end Dme
