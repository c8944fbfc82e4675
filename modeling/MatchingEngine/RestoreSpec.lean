import MatchingEngine.Restore

/-!
# What a restore does

* `filter_insertionSort`: choosing some elements of a list commutes with a stable sort.
* `enqueueAll_perm`: joining orders loses none and adds none.
* `Inv.restore_isOk_iff`: when `restore` returns, told from its arguments only.
* **`restore_spec`**.
* `Inv.restoreLoop_resting`, `Inv.restoreLoop_first`: what the loop has added stays, also when it throws.
* **`restore_all_or_nothing_iff`**, and `restore_throws_halfway`: a book that is left half restored.
-/

set_option autoImplicit false

namespace Dme

/-! ## Stable sorting -/

section StableSort

variable {α : Type} (r : α → α → Prop) [DecidableRel r] [IsTrans α r]

theorem filter_orderedInsert (p : α → Bool) (a : α) (l : List α) (hl : l.Pairwise r) :
    (l.orderedInsert r a).filter p =
      if p a = true then (l.filter p).orderedInsert r a else l.filter p := by
  induction l with
  | nil => simp [List.filter_cons]
  | cons b l ih =>
    rw [List.pairwise_cons] at hl
    by_cases hab : r a b
    · -- `a` comes first, before everything that is kept
      have hfirst : ∀ x ∈ (b :: l).filter p, r a x := by
        intro x hx
        rcases List.mem_cons.mp (List.mem_filter.mp hx).1 with rfl | hx
        · exact hab
        · exact IsTrans.trans a b x hab (hl.1 x hx)
      rw [List.orderedInsert_cons_of_le r l hab, List.filter_cons]
      split_ifs with ha
      · cases hf : (b :: l).filter p with
        | nil => rfl
        | cons x xs =>
          rw [List.orderedInsert_cons_of_le r xs (hfirst x (by rw [hf]; exact List.mem_cons_self))]
      · rfl
    · rw [List.orderedInsert_of_not_le r l hab, List.filter_cons, ih hl.2, List.filter_cons]
      by_cases hb : p b = true
      · rw [if_pos hb, if_pos hb, List.orderedInsert_of_not_le r _ hab]
        split_ifs <;> rfl
      · rw [if_neg hb, if_neg hb]

theorem filter_insertionSort [Std.Total r] (p : α → Bool) (l : List α) :
    (l.insertionSort r).filter p = (l.filter p).insertionSort r := by
  induction l with
  | nil => rfl
  | cons a l ih =>
    rw [List.insertionSort_cons, filter_orderedInsert r p a _ (List.pairwise_insertionSort r l), ih,
      List.filter_cons]
    split_ifs <;> rfl

end StableSort

/-! ## The orders of a restored book -/

variable {b b' : OrderBook} {q : Queues} {last : Sequence} {orders orders' : List RestingOrder}

theorem filter_byPriority (orders : List RestingOrder) (s : Side) (p : Price) :
    (byPriority orders).filter (fun o => o.side = s ∧ o.price = p) =
      byPriority (orders.filter fun o => o.side = s ∧ o.price = p) :=
  filter_insertionSort _ _ orders

theorem byPriority_eq_of_perm (h : orders'.Perm orders)
    (hp : (orders.map RestingOrder.priority).Nodup) : byPriority orders' = byPriority orders := by
  have hperm := (byPriority_perm orders').trans (h.trans (byPriority_perm orders).symm)
  refine hperm.eq_of_pairwise (fun x y hx hy hxy hyx => ?_) (byPriority_sorted _)
    (byPriority_sorted _)
  exact List.inj_on_of_nodup_map hp (h.mem_iff.mp (mem_byPriority.mp hx)) (mem_byPriority.mp hy)
    (UInt64.le_antisymm hxy hyx)

theorem enqueueAll_perm (d : Depth) (orders : List RestingOrder) :
    (enqueueAll d orders).all.Perm (orders ++ d.all) := by
  induction orders generalizing d with
  | nil => exact List.Perm.refl _
  | cons o orders ih =>
    rw [enqueueAll, List.foldl_cons, ← enqueueAll]
    calc (enqueueAll (enqueue d o) orders).all
      _ |>.Perm (orders ++ (enqueue d o).all) := ih _
      _ |>.Perm (orders ++ o :: d.all) := (all_enqueue d o).append_left _
      _ |>.Perm (o :: orders ++ d.all) := List.perm_middle

/-- **When a restore returns**, on a book that is empty. -/
theorem Inv.restore_isOk_iff (h : Inv b q) (h0 : b.stats.restingOrders = 0)
    (hseq : b.stats.lastSequence = 0) :
    (∃ b', b.restore last orders = (b', .ok ())) ↔
      orders.length ≤ b.config.maximumOrders.toNat ∧
      (∀ o ∈ orders, Restorable b.config last o) ∧ (orders.map RestingOrder.orderId).Nodup := by
  constructor
  · rintro ⟨b', hr⟩
    obtain ⟨q', hinv, hc, hdepth, -, -, hall⟩ := h.restore_ok hr
    -- the book lists the orders it was given
    have hperm : ((b'.market q').orders b'.priceCount).Perm orders := by
      refine hinv.orders_perm.trans ?_
      rw [hdepth]
      refine (enqueueAll_perm (fun _ => []) _).trans ?_
      rw [Depth.all, List.append_nil, List.append_nil]
      exact byPriority_perm orders
    have hlen := hinv.orders_length_le
    rw [hperm.length_eq, hc] at hlen
    exact ⟨hlen, hall, (hperm.map _).nodup_iff.mp hinv.ids_nodup⟩
  · rintro ⟨hlen, hall, hnodup⟩
    exact h.restore_isOk h0 hseq hlen hall hnodup

theorem Inv.restore_queueAt (h : Inv b q) (hr : b.restore last orders = (b', .ok ())) (s : Side)
    {i : ℕ} (hi : i < b.priceCount) : b'.queueAt s i =
      .ok (byPriority (orders.filter fun o => o.side = s ∧ o.price = b.config.indexPrice i)) := by
  obtain ⟨q', hinv, hc, hdepth, -⟩ := h.restore_ok hr
  rw [hinv.queueAt s (h.priceCount_eq hinv.toCore hc ▸ hi), Market.level, ← filter_byPriority, hc]
  change Except.ok (atPrice (b'.depth q' s) _) = _
  rw [hdepth, atPrice_enqueueAll fun _ => List.Pairwise.nil]
  rfl

theorem restore_eq_of_perm (h : orders'.Perm orders)
    (hp : (orders.map RestingOrder.priority).Nodup) :
    b.restore last orders' = b.restore last orders := by
  have hsort := byPriority_eq_of_perm h hp
  rw [byPriority, byPriority] at hsort
  rw [OrderBook.restore, OrderBook.restore, h.length_eq, hsort]

/-- **What a restore does** to a new book. It returns just when the orders are no more than the book
may hold, each has a price of the ladder, a quantity and a priority up to the last sequence, and no
two have one id. Then the queue of each side and price is that of the orders of that side and price,
sorted by priority with ties in the order of the list, and the last sequence is the given one. Where
priorities are distinct, the order of the list makes no difference. -/
theorem restore_spec {config : BookConfig} (hnew : OrderBook.new config = .ok b) (last : Sequence)
    (orders : List RestingOrder) :
    ((∃ b', b.restore last orders = (b', .ok ())) ↔
      orders.length ≤ config.maximumOrders.toNat ∧
      (∀ o ∈ orders, config.validPrice o.price = true ∧ o.quantity ≠ 0 ∧ o.priority ≤ last) ∧
      (orders.map RestingOrder.orderId).Nodup) ∧
    (∀ b', b.restore last orders = (b', .ok ()) →
      (∀ s i, i < b.priceCount → b'.queueAt s i =
        .ok (byPriority (orders.filter fun o => o.side = s ∧ o.price = config.indexPrice i))) ∧
      b'.stats.lastSequence = last) ∧
    ∀ orders', orders'.Perm orders → (orders.map RestingOrder.priority).Nodup →
      b.restore last orders' = b.restore last orders := by
  obtain ⟨hinv, rfl, hstats⟩ := Inv.new hnew
  refine ⟨hinv.restore_isOk_iff (by rw [hstats]) (by rw [hstats]), fun b' hr => ⟨fun s i hi => ?_, ?_⟩,
    fun orders' hperm hp => restore_eq_of_perm hperm hp⟩
  · exact hinv.restore_queueAt hr s hi
  · obtain ⟨q', -, -, -, hstats', -⟩ := hinv.restore_ok hr
    rw [hstats']

/-- Two orders of one level, restored oldest first. -/
theorem restore_spec_two_orders : ∃ b b', OrderBook.new ⟨1, 4, 1, 2⟩ = .ok b ∧
    b.restore 9 [⟨5, .buy, 2, 1, 8⟩, ⟨6, .buy, 2, 3, 4⟩] = (b', .ok ()) ∧
    b'.queueAt .buy 1 = .ok [⟨6, .buy, 2, 3, 4⟩, ⟨5, .buy, 2, 1, 8⟩] ∧
    b'.stats.lastSequence = 9 := by
  obtain ⟨b, hnew⟩ := OrderBook.new_isOk (by decide : checkedPriceCount ⟨1, 4, 1, 2⟩ = .ok 4) (by decide)
  obtain ⟨hiff, hqueues, -⟩ := restore_spec hnew 9 [⟨5, .buy, 2, 1, 8⟩, ⟨6, .buy, 2, 3, 4⟩]
  obtain ⟨b', hr⟩ := hiff.mpr (by decide)
  obtain ⟨hqueue, hlast⟩ := hqueues b' hr
  obtain ⟨hinv, hc, -⟩ := Inv.new hnew
  have hcount : b.priceCount = 4 := Except.ok.inj ((hc ▸ hinv.checked).symm.trans (by decide))
  exact ⟨b, b', hnew, hr, (hqueue .buy 1 (by rw [hcount]; decide)).trans (by decide), hlast⟩

/-! ## What a restore that throws leaves behind -/

theorem Inv.resting_succ {q' : Queues} (h : Inv b q) (h' : Inv b' q') (hc : b'.config = b.config)
    (hfree : b.freeNodes ≠ []) (htail : b'.freeNodes = b.freeNodes.tail) :
    b'.stats.restingOrders = b.stats.restingOrders + 1 := by
  have hpos := List.length_pos_iff.mpr hfree
  have hresting := h.resting
  have hresting' := h'.resting
  rw [h.nodes_size] at hresting
  rw [h'.nodes_size, hc, htail, List.length_tail] at hresting'
  omega

theorem Inv.restoreLoop_resting (h : Inv b q) (last : Sequence)
    (hlen : orders.length ≤ b.freeNodes.length) :
    b.stats.restingOrders ≤ (OrderBook.restoreLoop last b orders).1.stats.restingOrders := by
  induction orders generalizing b q with
  | nil => exact Nat.le_refl _
  | cons o orders ih =>
    have hfree : b.freeNodes ≠ [] := List.ne_nil_of_length_pos (by rw [List.length_cons] at hlen; omega)
    rcases h.restoreLoop_cons last hlen with
      ⟨-, hthrow⟩ | ⟨-, b₁, q₁, hinv, htr, htail, -, hlen₁, hloop⟩
    · rw [hthrow]
    · have hsucc := h.resting_succ hinv htr.1 hfree htail
      have hle := ih hinv hlen₁
      rw [hloop]
      omega

theorem Inv.restoreLoop_first (h : Inv b q) (h0 : b.stats.restingOrders = 0) {o : RestingOrder}
    (hlen : (o :: orders).length ≤ b.freeNodes.length) (ho : Restorable b.config last o) :
    (OrderBook.restoreLoop last b (o :: orders)).1.stats.restingOrders ≠ 0 := by
  have hnew : o.orderId ∉ (b.depth q).ids := by
    rintro ⟨s, x, hx, -⟩
    rw [h.empty_depth h0] at hx
    cases hx
  have hfree : b.freeNodes ≠ [] := List.ne_nil_of_length_pos (by rw [List.length_cons] at hlen; omega)
  rcases h.restoreLoop_cons last hlen with
    ⟨hbad, -⟩ | ⟨-, b₁, q₁, hinv, htr, htail, -, hlen₁, hloop⟩
  · exact absurd ⟨ho, hnew⟩ hbad
  · have hsucc := h.resting_succ hinv htr.1 hfree htail
    have hle := hinv.restoreLoop_resting last hlen₁
    rw [hloop]
    omega

theorem Inv.restoreLoop_error (h : Inv b q) (last : Sequence)
    (hlen : orders.length ≤ b.freeNodes.length) {b' : OrderBook} {e : Fault}
    (hr : OrderBook.restoreLoop last b orders = (b', .error e)) :
    e = .runtimeError "invalid resting order in snapshot" := by
  induction orders generalizing b q with
  | nil => cases hr
  | cons o orders ih =>
    rcases h.restoreLoop_cons last hlen with
      ⟨-, hthrow⟩ | ⟨-, b₁, q₁, hinv, -, -, -, hlen₁, hloop⟩
    · rw [hthrow] at hr
      cases hr
      rfl
    · rw [hloop] at hr
      exact ih hinv hlen₁ hr

/-- **A restore that throws changes nothing**, and a book that was empty can be restored after it. -/
def AllOrNothing (b : OrderBook) (last : Sequence) (orders : List RestingOrder) : Prop :=
  ∀ b' e, b.restore last orders = (b', .error e) → b' = b ∧
    (b.stats.restingOrders = 0 → b.stats.lastSequence = 0 → ∀ last' orders',
      orders'.length ≤ b.config.maximumOrders.toNat →
      (∀ o ∈ orders', Restorable b.config last' o) → (orders'.map RestingOrder.orderId).Nodup →
      ∃ b'', b'.restore last' orders' = (b'', .ok ()))

/-- The check before the loop. -/
def RestoreRefused (b : OrderBook) (orders : List RestingOrder) : Prop :=
  b.stats.restingOrders ≠ 0 ∨ b.stats.lastSequence ≠ 0 ∨
    orders.length > b.config.maximumOrders.toNat

theorem Inv.allOrNothing (h : Inv b q)
    (hsame : ∀ b' e, b.restore last orders = (b', .error e) → b' = b) : AllOrNothing b last orders := by
  intro b' e hr
  obtain rfl := hsame b' e hr
  exact ⟨rfl, fun h0 hseq last' orders' hlen hall hnodup => h.restore_isOk h0 hseq hlen hall hnodup⟩

theorem restore_of_refused (hgo : RestoreRefused b orders) : b.restore last orders =
    (b, .error (.logicError "restore requires an empty book with sufficient capacity")) := by
  rw [OrderBook.restore]
  exact if_pos hgo

theorem restore_of_not_refused (last : Sequence) (hgo : ¬ RestoreRefused b orders) :
    b.restore last orders = match OrderBook.restoreLoop last b (byPriority orders) with
      | (b', .ok ()) => (b'.withSequence last, .ok ())
      | (b', .error e) => (b', .error e) := by
  rw [OrderBook.restore]
  exact if_neg hgo

/-- An order that passes the checks comes first, and a later one makes the loop throw: the first one is
left in the book. -/
theorem Inv.restore_halfway (h : Inv b q) (hgo : ¬ RestoreRefused b orders) {o : RestingOrder}
    {rest : List RestingOrder} (hsort : byPriority orders = o :: rest)
    (ho : Restorable b.config last o) (hthrow : ¬ ∃ b', b.restore last orders = (b', .ok ())) :
    ∃ b' e, b.restore last orders = (b', .error e) ∧ b'.stats.restingOrders ≠ 0 := by
  obtain ⟨h0, -, hlen⟩ := not_or.mp hgo |>.imp_right not_or.mp
  rw [not_not] at h0
  rw [gt_iff_lt, not_lt] at hlen
  have hroom : (o :: rest).length ≤ b.freeNodes.length := by
    rw [← hsort, (byPriority_perm orders).length_eq, h.empty_room h0]
    exact hlen
  have hne := h.restoreLoop_first h0 hroom ho
  have hr := restore_of_not_refused last hgo
  rw [← hsort] at hne
  rcases hloop : OrderBook.restoreLoop last b (byPriority orders) with ⟨b', e | ⟨⟨⟩⟩⟩
  · rw [hloop] at hr hne
    exact ⟨b', e, hr, hne⟩
  · rw [hloop] at hr
    exact absurd ⟨_, hr⟩ hthrow

theorem restore_of_first_refused (hgo : ¬ RestoreRefused b orders) {o : RestingOrder}
    (ho : o ∈ (byPriority orders).head?) (hbad : ¬ Restorable b.config last o) :
    b.restore last orders = (b, .error (.runtimeError "invalid resting order in snapshot")) := by
  obtain ⟨rest, hsort⟩ : ∃ rest, byPriority orders = o :: rest :=
    List.head?_eq_some_iff.mp ho
  have hrefused : b.config.validPrice o.price = false ∨ o.quantity = 0 ∨ o.priority > last := by
    by_contra hnot
    obtain ⟨hv, hq, hp⟩ := not_or.mp hnot |>.imp_right not_or.mp
    exact hbad ⟨by simpa using hv, hq, by simpa using hp⟩
  rw [restore_of_not_refused last hgo, hsort, OrderBook.restoreLoop, if_pos hrefused]

/-- **When a restore is all or nothing**: the call is refused before the loop, or every order is
restored, or the order that comes first by priority is refused. -/
theorem restore_all_or_nothing_iff (h : Reachable b) (last : Sequence) (orders : List RestingOrder) :
    AllOrNothing b last orders ↔ RestoreRefused b orders ∨
      ((∀ o ∈ orders, Restorable b.config last o) ∧ (orders.map RestingOrder.orderId).Nodup) ∨
      ∃ o ∈ (byPriority orders).head?, ¬ Restorable b.config last o := by
  obtain ⟨q, hinv⟩ := h.inv
  by_cases hgo : RestoreRefused b orders
  · refine iff_of_true (hinv.allOrNothing fun b' e hr => ?_) (Or.inl hgo)
    rw [restore_of_refused hgo] at hr
    exact (Prod.mk.inj hr).1.symm
  obtain ⟨h0, hseq, hlen⟩ := not_or.mp hgo |>.imp_right not_or.mp
  rw [not_not] at h0 hseq
  rw [gt_iff_lt, not_lt] at hlen
  have hiff : (∃ b', b.restore last orders = (b', .ok ())) ↔ _ := hinv.restore_isOk_iff h0 hseq
  constructor
  · -- the order that comes first would be restored, and one after it makes the loop throw
    intro hall
    by_contra hnot
    obtain ⟨-, hbad, hfirst⟩ := not_or.mp hnot |>.imp_right not_or.mp
    cases hsort : byPriority orders with
    | nil =>
      have hnil : orders = [] := List.Perm.nil_eq (hsort ▸ byPriority_perm orders) |>.symm
      exact hbad ⟨by simp [hnil], by simp [hnil]⟩
    | cons o rest =>
      have ho : Restorable b.config last o := by
        by_contra ho
        exact hfirst ⟨o, by rw [hsort]; rfl, ho⟩
      obtain ⟨b', e, hr, hne⟩ := hinv.restore_halfway hgo hsort ho fun hr => hbad (hiff.mp hr).2
      rw [(hall b' e hr).1] at hne
      exact hne h0
  · rintro (hgo' | ⟨hall, hnodup⟩ | ⟨o, ho, hbad⟩)
    · exact absurd hgo' hgo
    · obtain ⟨b₁, hok⟩ := hiff.mpr ⟨hlen, hall, hnodup⟩
      refine hinv.allOrNothing fun b' e hr => ?_
      rw [hok] at hr
      cases hr
    · refine hinv.allOrNothing fun b' e hr => ?_
      rw [restore_of_first_refused hgo ho hbad] at hr
      exact (Prod.mk.inj hr).1.symm

/-- The first order has no quantity. -/
theorem restore_all_or_nothing_iff_first_refused : ∃ b, Reachable b ∧
    OrderBook.new ⟨1, 4, 1, 2⟩ = .ok b ∧
    AllOrNothing b 9 [⟨6, .buy, 2, 3, 4⟩, ⟨5, .buy, 2, 0, 1⟩] := by
  obtain ⟨b, hnew⟩ := OrderBook.new_isOk (by decide : checkedPriceCount ⟨1, 4, 1, 2⟩ = .ok 4) (by decide)
  have hb := Reachable.new hnew
  refine ⟨b, hb, hnew, (restore_all_or_nothing_iff hb 9 _).mpr (Or.inr (Or.inr ?_))⟩
  exact ⟨⟨5, .buy, 2, 0, 1⟩, by decide, fun ho => ho.2.1 rfl⟩

/-- **A book that is left half restored.** The second order has a price outside the ladder; the first
one rests in the book when `restore` throws, and the book cannot be restored again. -/
theorem restore_throws_halfway : (do
    let b ← OrderBook.new ⟨1, 4, 1, 2⟩
    let (b', result) := b.restore 9 [⟨5, .buy, 2, 1, 1⟩, ⟨6, .buy, 7, 3, 4⟩]
    let orders ← b'.restingOrders
    .ok (b.stats.restingOrders, result, orders, (b'.restore 9 [⟨5, .buy, 2, 1, 1⟩]).2)) =
    (.ok (0, .error (.runtimeError "invalid resting order in snapshot"), [⟨5, .buy, 2, 1, 1⟩],
      .error (.logicError "restore requires an empty book with sufficient capacity")) :
        Except Fault _) := by
  decide +kernel

end Dme
