import MatchingEngine.Differential
import MatchingEngine.Widening

/-!
# The two sides of the book

Bids and asks are kept apart in ladders that are scanned in opposite directions. Turned upside down, a book
is a book: if every price is reflected in the middle of the range and the sides are exchanged, the events
are the same, reflected.

* `BookConfig.reflect`, `Ladder.reflect_lt`: an involution of the ladder that reverses the order of prices.
* `sweep_reflect`, `available_reflect`, `enqueue_reflect`, `withdraw_reflect`: the operations on orders.
* `Market.Fits.perform_reflect`, **`Inv.run_reflect`**: a command and a run of the market.
* **`book_sides_symmetric`**.
-/

set_option autoImplicit false

namespace Dme

/-! ## Reflected prices -/

/-- The price as far from one end of the range as `p` is from the other; a price off the ladder stays. -/
def BookConfig.reflect (config : BookConfig) (p : Price) : Price :=
  if config.validPrice p then config.minimumPrice + (config.maximumPrice - p) else p

section Prices

variable {config : BookConfig} {n : ℕ} (hl : Ladder config n)

include hl

theorem Ladder.toInt_reflect {p : Price} (hp : config.validPrice p = true) :
    (config.reflect p).toInt =
      config.minimumPrice.toInt + config.maximumPrice.toInt - p.toInt := by
  obtain ⟨hmin, hmax, -⟩ := (hl.validPrice_iff p).mp hp
  have hspan := hl.span_lt
  have hfits := Signed.fits_toInt config.maximumPrice
  have hsub := Signed.toInt_sub (a := config.maximumPrice) (b := p) ⟨by omega, by omega⟩
  have hadd := Signed.toInt_add (a := config.minimumPrice) (b := config.maximumPrice - p)
    ⟨by have := (Signed.fits_toInt config.minimumPrice).1; omega, by have := hfits.2; omega⟩
  rw [BookConfig.reflect, if_pos hp, hadd, hsub]
  omega

theorem Ladder.validPrice_reflect (p : Price) :
    config.validPrice (config.reflect p) = config.validPrice p := by
  by_cases hp : config.validPrice p = true
  · rw [hp, hl.validPrice_iff, hl.toInt_reflect hp]
    obtain ⟨hmin, hmax, htick⟩ := (hl.validPrice_iff p).mp hp
    refine ⟨by omega, by omega, Int.emod_eq_zero_of_dvd ?_⟩
    -- The distance from the other end is the span less the distance from this one.
    have hspan : config.tickSize.toInt ∣ config.maximumPrice.toInt - config.minimumPrice.toInt :=
      ⟨(n - 1 : ℕ), by rw [hl.span, mul_comm]; omega⟩
    have hdvd := dvd_sub hspan (Int.dvd_of_emod_eq_zero htick)
    have heq : config.minimumPrice.toInt + config.maximumPrice.toInt - p.toInt -
        config.minimumPrice.toInt = config.maximumPrice.toInt - config.minimumPrice.toInt -
          (p.toInt - config.minimumPrice.toInt) := by omega
    rwa [heq]
  · rw [BookConfig.reflect, if_neg hp]

theorem Ladder.reflect_reflect (p : Price) : config.reflect (config.reflect p) = p := by
  by_cases hp : config.validPrice p = true
  · rw [← Int64.toInt_inj, hl.toInt_reflect ((hl.validPrice_reflect p).trans hp), hl.toInt_reflect hp]
    omega
  · rw [BookConfig.reflect, hl.validPrice_reflect, if_neg hp, BookConfig.reflect, if_neg hp]

/-- **The order of prices is reversed.** -/
theorem Ladder.reflect_lt {p p' : Price} (hp : config.validPrice p = true)
    (hp' : config.validPrice p' = true) : config.reflect p < config.reflect p' ↔ p' < p := by
  rw [Int64.lt_iff_toInt_lt, Int64.lt_iff_toInt_lt, hl.toInt_reflect hp, hl.toInt_reflect hp']
  omega

theorem Ladder.reflect_le {p p' : Price} (hp : config.validPrice p = true)
    (hp' : config.validPrice p' = true) : config.reflect p ≤ config.reflect p' ↔ p' ≤ p := by
  rw [← Int64.not_lt, hl.reflect_lt hp' hp, Int64.not_lt]

theorem Ladder.reflect_maximum : config.reflect config.maximumPrice = config.minimumPrice := by
  rw [← Int64.toInt_inj, hl.toInt_reflect hl.validPrice_maximum]
  omega

theorem Ladder.reflect_minimum : config.reflect config.minimumPrice = config.maximumPrice := by
  rw [← Int64.toInt_inj, hl.toInt_reflect hl.validPrice_minimum]
  omega

theorem Ladder.reflect_inj {p p' : Price} (h : config.reflect p = config.reflect p') : p = p' := by
  rw [← hl.reflect_reflect p, h, hl.reflect_reflect]

theorem Ladder.crossesPrice_reflect (s : Side) {limit p : Price} (hlimit : config.validPrice limit = true)
    (hp : config.validPrice p = true) :
    crossesPrice s.opposite (config.reflect limit) (config.reflect p) = crossesPrice s limit p := by
  cases s with
  | buy => exact decide_eq_decide.mpr (hl.reflect_le hlimit hp)
  | sell => exact decide_eq_decide.mpr (hl.reflect_le hp hlimit)

theorem Ladder.better_reflect (s : Side) {p p' : Price} (hp : config.validPrice p = true)
    (hp' : config.validPrice p' = true) :
    better s.opposite (config.reflect p) (config.reflect p') = better s p p' := by
  cases s with
  | buy => exact decide_eq_decide.mpr (hl.reflect_lt hp hp')
  | sell => exact decide_eq_decide.mpr (hl.reflect_lt hp' hp)

end Prices

/-! ## Reflected orders -/

theorem Side.opposite_opposite (s : Side) : s.opposite.opposite = s := by
  cases s <;> rfl

/-- An order on the other side, at the reflected price. -/
def RestingOrder.reflect (config : BookConfig) (o : RestingOrder) : RestingOrder :=
  { o with side := o.side.opposite, price := config.reflect o.price }

/-- A command for the other side, with its price reflected. -/
def Command.reflect (config : BookConfig) (c : Command) : Command :=
  { c with side := c.side.opposite, price := config.reflect c.price }

/-- An event with its side and its price reflected; acceptances and rejections have no price. -/
def Event.reflect (config : BookConfig) (e : Event) : Event :=
  { e with
    aggressorSide := e.aggressorSide.opposite
    price := if e.type = .accepted ∨ e.type = .rejected then e.price else config.reflect e.price }

/-- The two sides exchanged and reflected. -/
def Depth.reflect (config : BookConfig) (d : Depth) : Depth :=
  fun s => (d s.opposite).map (RestingOrder.reflect config)

/-- A trade at the reflected price. -/
def Fill.reflect (config : BookConfig) (f : Fill) : Fill := { f with price := config.reflect f.price }

theorem reflect_update (config : BookConfig) (d : Depth) (s : Side) (os : List RestingOrder) :
    Function.update (d.reflect config) s.opposite (os.map (RestingOrder.reflect config)) =
      Depth.reflect config (Function.update d s os) := by
  funext t
  unfold Depth.reflect
  by_cases ht : t = s.opposite
  · subst ht
    rw [Function.update_self, Side.opposite_opposite, Function.update_self]
  · have ht' : t.opposite ≠ s := fun h => ht (by rw [← h, Side.opposite_opposite])
    rw [Function.update_of_ne ht, Function.update_of_ne ht']

theorem withdraw_reflect (config : BookConfig) (d : Depth) (id : OrderId) :
    withdraw (d.reflect config) id = (withdraw d id).reflect config := by
  funext s
  rw [withdraw, Depth.reflect, Depth.reflect, withdraw, List.filter_map]
  rfl

section Orders

variable {config : BookConfig} {n : ℕ} (hl : Ladder config n)

include hl

theorem sweep_reflect (s : Side) {limit : Price} (hlimit : config.validPrice limit = true)
    {os : List RestingOrder} (hos : ∀ o ∈ os, config.validPrice o.price = true) (quantity : Quantity) :
    sweep s.opposite (config.reflect limit) quantity (os.map (RestingOrder.reflect config)) =
      ⟨(sweep s limit quantity os).fills.map (Fill.reflect config),
        (sweep s limit quantity os).remaining,
        (sweep s limit quantity os).rest.map (RestingOrder.reflect config)⟩ := by
  induction os generalizing quantity with
  | nil => rfl
  | cons o os ih =>
    have hcross := hl.crossesPrice_reflect s hlimit (hos o List.mem_cons_self)
    rw [List.map_cons, sweep, sweep, show (o.reflect config).price = config.reflect o.price from rfl,
      hcross, ih (fun x hx => hos x (List.mem_cons_of_mem _ hx))]
    change (if _ then _ else if quantity < o.quantity then _ else _) = _
    split_ifs
    · rfl
    · rfl
    · rfl

theorem atPrice_reflect (os : List RestingOrder) (p : Price) :
    atPrice (os.map (RestingOrder.reflect config)) (config.reflect p) =
      (atPrice os p).map (RestingOrder.reflect config) := by
  rw [atPrice, atPrice, List.filter_map]
  congr 1
  refine List.filter_congr fun o _ => decide_eq_decide.mpr ?_
  exact ⟨fun h => hl.reflect_inj h, fun h => congrArg config.reflect h⟩

theorem levelTotal_reflect (os : List RestingOrder) (p : Price) :
    levelTotal (os.map (RestingOrder.reflect config)) (config.reflect p) = levelTotal os p := by
  rw [levelTotal, levelTotal, atPrice_reflect hl, List.map_map]
  rfl

theorem available_reflect (s : Side) {limit : Price} (hlimit : config.validPrice limit = true)
    {os : List RestingOrder} (hos : ∀ o ∈ os, config.validPrice o.price = true) :
    available s.opposite (config.reflect limit) (os.map (RestingOrder.reflect config)) =
      available s limit os := by
  unfold available
  refine (Finset.sum_nbij' config.reflect config.reflect (fun p hp => ?_) (fun p hp => ?_)
    (fun p _ => hl.reflect_reflect p) (fun p _ => hl.reflect_reflect p)
    (fun p _ => by rw [levelTotal_reflect hl])).symm
  · rw [Finset.mem_filter, List.mem_toFinset] at hp ⊢
    obtain ⟨hmem, hcross⟩ := hp
    obtain ⟨o, ho, rfl⟩ := List.mem_map.mp hmem
    rw [hl.crossesPrice_reflect s hlimit (hos o ho)]
    exact ⟨List.mem_map.mpr ⟨_, List.mem_map_of_mem ho, rfl⟩, hcross⟩
  · rw [Finset.mem_filter, List.mem_toFinset] at hp ⊢
    obtain ⟨hmem, hcross⟩ := hp
    obtain ⟨_, hx, rfl⟩ := List.mem_map.mp hmem
    obtain ⟨o, ho, rfl⟩ := List.mem_map.mp hx
    rw [show (o.reflect config).price = config.reflect o.price from rfl] at hcross ⊢
    rw [hl.crossesPrice_reflect s hlimit (hos o ho)] at hcross
    rw [hl.reflect_reflect]
    exact ⟨List.mem_map_of_mem ho, hcross⟩

theorem enqueue_reflect {d : Depth} {o : RestingOrder}
    (hd : ∀ x ∈ d o.side, config.validPrice x.price = true) (ho : config.validPrice o.price = true) :
    enqueue (d.reflect config) (o.reflect config) = (enqueue d o).reflect config := by
  have hinsert : ((d o.side).map (RestingOrder.reflect config)).orderedInsert
      (fun x y => better o.side.opposite x.price y.price) (o.reflect config) =
      ((d o.side).orderedInsert (fun x y => better o.side x.price y.price) o).map
        (RestingOrder.reflect config) := by
    refine (List.map_orderedInsert _ _ _ _ _ (fun x hx => ?_) fun x hx => ?_).symm
    · rw [← hl.better_reflect o.side (hd x hx) ho]
      rfl
    · rw [← hl.better_reflect o.side ho (hd x hx)]
      rfl
  rw [enqueue, enqueue, ← reflect_update, ← hinsert]
  change Function.update (d.reflect config) o.side.opposite
    (((d o.side.opposite.opposite).map (RestingOrder.reflect config)).orderedInsert _ _) = _
  rw [Side.opposite_opposite]
  rfl

end Orders

/-! ## The reflected market -/

namespace Market

variable {m : Market} {n : ℕ} {c : Command}

/-- A market upside down. -/
def reflect (m : Market) : Market := { m with depth := m.depth.reflect m.config }

/-- What a command does, reflected. -/
def reflectDone (config : BookConfig) (done : Depth × List Event) : Depth × List Event :=
  (done.1.reflect config, done.2.map (Event.reflect config))

theorem size_reflect (m : Market) : m.reflect.size = m.size := by
  change (m.depth.reflect m.config .buy).length + (m.depth.reflect m.config .sell).length = _
  rw [Depth.reflect, Depth.reflect, List.length_map, List.length_map, Nat.add_comm]
  rfl

theorem find_reflect (hids : (m.depth.all.map RestingOrder.orderId).Nodup) (id : OrderId) :
    m.reflect.find id = (m.find id).map (RestingOrder.reflect m.config) := by
  change ((m.depth .sell).map _ ++ (m.depth .buy).map _).find? _ = _
  rw [← List.map_append, List.find?_map]
  congr 1
  exact find_perm List.perm_append_comm hids id

theorem limit_reflect (hl : Ladder m.config n) (c : Command) :
    m.reflect.limit (c.reflect m.config) = m.config.reflect (m.limit c) := by
  unfold limit reflect Command.reflect
  dsimp only
  by_cases hmarket : c.orderType = .market
  · rw [if_pos hmarket, if_pos hmarket]
    cases c.side with
    | buy => exact hl.reflect_maximum.symm
    | sell => exact hl.reflect_minimum.symm
  · rw [if_neg hmarket, if_neg hmarket]

theorem limit_valid (hl : Ladder m.config n)
    (hprice : c.orderType ≠ .market → m.config.validPrice c.price = true) :
    m.config.validPrice (m.limit c) = true := by
  unfold limit
  by_cases hmarket : c.orderType = .market
  · rw [if_pos hmarket]
    split_ifs
    · exact hl.validPrice_maximum
    · exact hl.validPrice_minimum
  · rw [if_neg hmarket]
    exact hprice hmarket

theorem depth_reflect (m : Market) (c : Command) :
    m.reflect.depth (c.reflect m.config).side.opposite =
      (m.depth c.side.opposite).map (RestingOrder.reflect m.config) := by
  change (m.depth c.side.opposite.opposite.opposite).map _ = _
  rw [Side.opposite_opposite]

theorem tradesOf_reflect (config : BookConfig) (c : Command) (fills : List Fill) :
    tradesOf (c.reflect config) (fills.map (Fill.reflect config)) =
      (tradesOf c fills).map (Event.reflect config) := by
  rw [tradesOf, tradesOf, List.map_map, List.map_map]
  rfl

theorem Fits.execute_reflect (h : m.Fits) (hl : Ladder m.config n)
    (hprice : c.orderType ≠ .market → m.config.validPrice c.price = true) :
    m.reflect.execute (c.reflect m.config) = reflectDone m.config (m.execute c) := by
  have hsweep := sweep_reflect hl c.side (limit_valid hl hprice) (h.prices c.side.opposite) c.quantity
  have hdepth := reflect_update m.config m.depth c.side.opposite
    (sweep c.side (m.limit c) c.quantity (m.depth c.side.opposite)).rest
  simp only [Market.execute, limit_reflect hl, depth_reflect]
  rw [show (c.reflect m.config).side = c.side.opposite from rfl,
    show (c.reflect m.config).quantity = c.quantity from rfl, hsweep]
  generalize sweep c.side (m.limit c) c.quantity (m.depth c.side.opposite) = swept at hdepth ⊢
  dsimp only
  rw [tradesOf_reflect, show m.reflect.depth = m.depth.reflect m.config from rfl, hdepth]
  by_cases hdone : swept.remaining = 0
  · rw [if_pos hdone, if_pos hdone]
    rfl
  rw [if_neg hdone, if_neg hdone]
  by_cases hlimit : c.orderType = .limit
  · rw [if_pos hlimit, if_pos (show (c.reflect m.config).orderType = .limit from hlimit)]
    have hvalid : m.config.validPrice c.price = true := hprice (by rw [hlimit]; decide)
    unfold reflectDone
    rw [List.map_append]
    refine congrArg (fun d => (d, _)) ?_
    refine enqueue_reflect hl (d := Function.update m.depth c.side.opposite swept.rest)
      (o := ⟨c.orderId, c.side, c.price, swept.remaining, c.sequence⟩) (fun x hx => ?_) hvalid
    rw [Function.update_of_ne c.side.opposite_ne.symm] at hx
    exact h.prices c.side x hx
  · rw [if_neg hlimit, if_neg (show ¬ (c.reflect m.config).orderType = .limit from hlimit)]
    unfold reflectDone
    rw [List.map_append]
    rfl

theorem Fits.canFill_reflect (h : m.Fits) (hl : Ladder m.config n)
    (hprice : c.orderType ≠ .market → m.config.validPrice c.price = true) :
    m.reflect.canFill (c.reflect m.config) ↔ m.canFill c := by
  have havailable := available_reflect hl c.side (limit_valid hl hprice) (h.prices c.side.opposite)
  unfold Market.canFill
  rw [limit_reflect hl, depth_reflect]
  change c.quantity.toNat ≤ available c.side.opposite _ _ ↔ _
  rw [havailable]

theorem Fits.submit_reflect (h : m.Fits) (hl : Ladder m.config n)
    (hids : (m.depth.all.map RestingOrder.orderId).Nodup) (c : Command) :
    m.reflect.submit (c.reflect m.config) = (m.submit c).map (reflectDone m.config) := by
  unfold Market.submit
  rw [find_reflect hids, size_reflect, Option.isSome_map]
  change (if c.quantity = 0 then _ else if c.orderType ≠ .market ∧
    m.config.validPrice (m.config.reflect c.price) = false then _ else _) = _
  rw [hl.validPrice_reflect]
  by_cases hquantity : c.quantity = 0
  · rw [if_pos hquantity, if_pos hquantity]
    rfl
  rw [if_neg hquantity, if_neg hquantity]
  by_cases hoff : c.orderType ≠ .market ∧ m.config.validPrice c.price = false
  · rw [if_pos hoff, if_pos hoff]
    rfl
  rw [if_neg hoff, if_neg hoff]
  have hprice : c.orderType ≠ .market → m.config.validPrice c.price = true := by
    intro hmarket
    simpa using fun hfalse => hoff ⟨hmarket, hfalse⟩
  have hfill := h.canFill_reflect hl hprice
  rw [h.execute_reflect hl hprice]
  simp only [hfill]
  change (if (m.find c.orderId).isSome then _
    else if c.orderType = .fillOrKill ∧ ¬ m.canFill c then _
    else if m.size = m.config.maximumOrders.toNat ∧ c.orderType = .limit ∧ ¬ m.canFill c then _
    else _) = _
  split_ifs
  · rfl
  · rfl
  · rfl
  · rfl

theorem cancel_reflect (hids : (m.depth.all.map RestingOrder.orderId).Nodup) (c : Command) :
    m.reflect.cancel (c.reflect m.config) = (m.cancel c).map (reflectDone m.config) := by
  unfold cancel
  rw [show (c.reflect m.config).orderId = c.orderId from rfl, find_reflect hids]
  cases m.find c.orderId with
  | none => rfl
  | some o =>
    change Except.ok (Dme.withdraw (m.depth.reflect m.config) c.orderId, _) = _
    rw [withdraw_reflect]
    rfl

theorem Fits.replace_reflect (h : m.Fits) (hl : Ladder m.config n)
    (hids : (m.depth.all.map RestingOrder.orderId).Nodup) (c : Command) :
    m.reflect.replace (c.reflect m.config) = (m.replace c).map (reflectDone m.config) := by
  unfold Market.replace
  rw [show (c.reflect m.config).orderId = c.orderId from rfl, find_reflect hids,
    show (c.reflect m.config).quantity = c.quantity from rfl,
    show (c.reflect m.config).price = m.config.reflect c.price from rfl,
    show m.reflect.config = m.config from rfl, hl.validPrice_reflect]
  cases m.find c.orderId with
  | none => rfl
  | some o =>
    dsimp only [Option.map]
    by_cases hquantity : c.quantity = 0
    · rw [if_pos hquantity, if_pos hquantity]
      rfl
    rw [if_neg hquantity, if_neg hquantity]
    by_cases hoff : m.config.validPrice c.price = false
    · rw [if_pos hoff, if_pos hoff]
      rfl
    rw [if_neg hoff, if_neg hoff]
    have hwithdraw : { m.reflect with depth := Dme.withdraw m.reflect.depth c.orderId } =
        Market.reflect { m with depth := Dme.withdraw m.depth c.orderId } :=
      congrArg (fun d => { m with depth := d }) (withdraw_reflect m.config m.depth c.orderId)
    have hvalid : m.config.validPrice c.price = true := by simpa using hoff
    have hexecute := (h.withdraw c.orderId).execute_reflect hl (c := replacement c o) fun _ => hvalid
    change Except.ok (({ m.reflect with depth := Dme.withdraw m.reflect.depth c.orderId }.execute
        ((replacement c o).reflect m.config)).1, _ :: ({ m.reflect with
          depth := Dme.withdraw m.reflect.depth c.orderId }.execute
            ((replacement c o).reflect m.config)).2) = _
    rw [hwithdraw, hexecute]
    rfl

theorem Fits.perform_reflect (h : m.Fits) (hl : Ladder m.config n)
    (hids : (m.depth.all.map RestingOrder.orderId).Nodup) (c : Command) :
    m.reflect.perform (c.reflect m.config) = (m.perform c).map (reflectDone m.config) := by
  unfold Market.perform
  rw [show (c.reflect m.config).type = c.type from rfl]
  cases c.type with
  | new => exact h.submit_reflect hl hids c
  | cancel => exact cancel_reflect hids c
  | replace => exact h.replace_reflect hl hids c

theorem Fits.process_reflect (h : m.Fits) (hl : Ladder m.config n)
    (hids : (m.depth.all.map RestingOrder.orderId).Nodup) (c : Command) :
    m.reflect.process (c.reflect m.config) =
      ((m.process c).1.reflect, (m.process c).2.map (Event.reflect m.config)) := by
  unfold Market.process
  rw [show (c.reflect m.config).sequence = c.sequence from rfl,
    show m.reflect.lastSequence = m.lastSequence from rfl, h.perform_reflect hl hids]
  split_ifs
  · rfl
  · cases m.perform c with
    | error reason => rfl
    | ok done => rfl

end Market

/-! ## Reflected books -/

variable {b b' : OrderBook} {q q' : Queues} {config : BookConfig}

/-- **A run of the reflected market.** -/
theorem Inv.run_reflect (h : Inv b q) (cs : List Command) :
    (b.market q).reflect.run (cs.map (Command.reflect b.config)) =
      (((b.market q).run cs).1.reflect,
        ((b.market q).run cs).2.map (List.map (Event.reflect b.config))) := by
  induction cs generalizing b q with
  | nil => rfl
  | cons c cs ih =>
    have hids : ((b.market q).depth.all.map RestingOrder.orderId).Nodup :=
      (h.orders_perm.map _).nodup_iff.mp h.ids_nodup
    have hone := h.fits.process_reflect h.ladder hids c
    obtain ⟨b₁, q₁, -, hinv, hm, -⟩ := h.process c []
    have hconfig : b₁.config = b.config := (congrArg Market.config hm).trans (Market.process_config _ _)
    have hrest := ih hinv
    rw [hm, hconfig] at hrest
    rw [List.map_cons, Market.run, Market.run]
    rw [show (b.market q).config = b.config from rfl] at hone
    rw [hone, hrest]
    rfl

/-- **The two sides of the book are alike.** With the sides exchanged and the prices reflected in the
middle of the range, any list of commands has the same events, reflected; at each price the same orders
rest in the same order, at the reflected price of the other side; and all counters are the same. -/
theorem book_sides_symmetric (hb : OrderBook.new config = .ok b) (cs : List Command) :
    ∃ b₁ b₁' evs, b.run cs = .ok (b₁, evs) ∧
      b.run (cs.map (Command.reflect config)) =
        .ok (b₁', evs.map (List.map (Event.reflect config))) ∧
      (∀ s p, config.validPrice p = true → ∃ l,
        b₁.queueAt s (config.priceIndex p) = .ok l ∧
          b₁'.queueAt s.opposite (config.priceIndex (config.reflect p)) =
            .ok (l.map (RestingOrder.reflect config))) ∧
      (∀ s p, b₁'.quantityAt s.opposite (config.reflect p) = b₁.quantityAt s p) ∧
      b₁'.stats.lastSequence = b₁.stats.lastSequence ∧ b₁'.stats.commands = b₁.stats.commands ∧
      b₁'.stats.trades = b₁.stats.trades ∧ b₁'.stats.rejected = b₁.stats.rejected ∧
      b₁'.stats.restingOrders = b₁.stats.restingOrders := by
  obtain ⟨hinv, hconfig, hstats⟩ := Inv.new hb
  have hempty := hinv.empty_depth (by rw [hstats])
  obtain ⟨b₁, q₁, hrun, hinv₁, hm₁, htrades, hrejected⟩ := hinv.run cs
  obtain ⟨b₁', q₁', hrun', hinv₁', hm₁', htrades', hrejected'⟩ :=
    hinv.run (cs.map (Command.reflect config))
  have hstart : (b.market fun _ _ => []).reflect = b.market fun _ _ => [] := by
    rw [Market.reflect, show (b.market fun _ _ => []).depth = _ from hempty]
    unfold OrderBook.market
    rw [hempty]
    rfl
  have hreflect := hinv.run_reflect cs
  rw [hstart, hconfig] at hreflect
  rw [hreflect] at hrun' hm₁' htrades' hrejected'
  have hconfig₁ : b₁.config = config :=
    ((congrArg Market.config hm₁).trans (Market.run_config _ _)).trans hconfig
  have hmarket : b₁'.market q₁' = (b₁.market q₁).reflect := by rw [hm₁', hm₁]
  have hconfig₁' : b₁'.config = config := (congrArg Market.config hmarket).trans hconfig₁
  have hlevel : ∀ s p, (b₁'.market q₁').level s.opposite (config.reflect p) =
      ((b₁.market q₁).level s p).map (RestingOrder.reflect config) := by
    intro s p
    have hl : Ladder config b₁.priceCount := hconfig₁ ▸ hinv₁.ladder
    rw [hmarket, Market.level, Market.level, ← atPrice_reflect hl]
    change atPrice (((b₁.market q₁).depth s.opposite.opposite).map
      (RestingOrder.reflect b₁.config)) _ = _
    rw [Side.opposite_opposite, hconfig₁]
  have hlast : b₁'.stats.lastSequence = b₁.stats.lastSequence := congrArg Market.lastSequence hmarket
  refine ⟨b₁, b₁', _, hrun, hrun', fun s p hp => ?_, fun s p => ?_, hlast, ?_, ?_, ?_, ?_⟩
  · have hl : Ladder config b₁.priceCount := hconfig₁ ▸ hinv₁.ladder
    have hl' : Ladder config b₁'.priceCount := hconfig₁' ▸ hinv₁'.ladder
    have hp' := (hl'.validPrice_reflect p).trans hp
    refine ⟨_, hinv₁.queueAt s (hl.priceIndex_lt hp), ?_⟩
    rw [hinv₁'.queueAt s.opposite (hl'.priceIndex_lt hp'), hconfig₁, hconfig₁',
      hl.indexPrice_priceIndex hp, hl'.indexPrice_priceIndex hp', hlevel]
  · rw [hinv₁.quantityAt, hinv₁'.quantityAt]
    refine congrArg Except.ok ?_
    have hsums := congrArg (fun l => (l.map RestingOrder.quantity).sum) (hlevel s p)
    rw [List.map_map] at hsums
    exact hsums
  · rw [new_run_commands hb hrun, new_run_commands hb hrun', hlast]
  · rw [htrades, htrades', ← List.map_flatten, tradeCount, tradeCount, List.countP_map]
    rfl
  · rw [hrejected, hrejected', ← List.map_flatten, rejectCount, rejectCount, List.countP_map]
    rfl
  · rw [hinv₁.restingOrders_eq, hinv₁'.restingOrders_eq, hmarket, Market.size_reflect]

/-- An order rests as a bid at 2, or as an ask at 3, of a book with prices from 1 to 4. -/
theorem book_sides_symmetric_one_order : ∃ b b₁ b₁' evs, OrderBook.new ⟨1, 4, 1, 2⟩ = .ok b ∧
    b.run [⟨1, .new, .buy, .limit, 0, 7, 2, 5⟩] = .ok (b₁, evs) ∧
    b.run [⟨1, .new, .sell, .limit, 0, 7, 3, 5⟩] =
      .ok (b₁', evs.map (List.map (Event.reflect ⟨1, 4, 1, 2⟩))) ∧
    b₁'.quantityAt .sell 3 = b₁.quantityAt .buy 2 := by
  obtain ⟨b, hb⟩ := OrderBook.new_isOk (by decide : checkedPriceCount ⟨1, 4, 1, 2⟩ = .ok 4) (by decide)
  obtain ⟨b₁, b₁', evs, hrun, hrun', -, htotal, -⟩ :=
    book_sides_symmetric hb [⟨1, .new, .buy, .limit, 0, 7, 2, 5⟩]
  exact ⟨b, b₁, b₁', evs, hb, hrun, hrun', htotal .buy 2⟩

end Dme
