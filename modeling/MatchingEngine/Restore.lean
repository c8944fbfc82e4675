import MatchingEngine.Readout
import MatchingEngine.Levels

/-!
# Restoring a book

* **`Inv.restore_ok`**: a restore that returns leaves a book whose sides are those of the orders,
  joined in the order of their priorities.
* **`Inv.restore_isOk`**: when it returns; `Inv.restore_inv`: what holds when it throws, too.
* `Reachable`: the books of the source's callers, and `Reachable.inv`.
-/

set_option autoImplicit false

namespace Dme

variable {b b' : OrderBook} {q : Queues} {last : Sequence} {orders : List RestingOrder}

/-- Orders that join one after another. -/
def enqueueAll (d : Depth) (orders : List RestingOrder) : Depth := orders.foldl enqueue d

theorem mem_enqueueAll {d : Depth} {s : Side} {x : RestingOrder} :
    x ∈ enqueueAll d orders s ↔ (x ∈ orders ∧ s = x.side) ∨ x ∈ d s := by
  induction orders generalizing d with
  | nil => simp [enqueueAll]
  | cons o orders ih =>
    rw [enqueueAll, List.foldl_cons, ← enqueueAll, ih, mem_enqueue, List.mem_cons]
    constructor
    · rintro (⟨hx, hs⟩ | ⟨rfl, hs⟩ | hx)
      · exact Or.inl ⟨Or.inr hx, hs⟩
      · exact Or.inl ⟨Or.inl rfl, hs⟩
      · exact Or.inr hx
    · rintro (⟨rfl | hx, hs⟩ | hx)
      · exact Or.inr (Or.inl ⟨rfl, hs⟩)
      · exact Or.inl ⟨hx, hs⟩
      · exact Or.inr (Or.inr hx)

theorem atPrice_enqueueAll {d : Depth} (hs : ∀ s, BestFirst s (d s)) (orders : List RestingOrder)
    (s : Side) (p : Price) : atPrice (enqueueAll d orders s) p =
      atPrice (d s) p ++ orders.filter fun o => o.side = s ∧ o.price = p := by
  induction orders generalizing d with
  | nil => simp [enqueueAll]
  | cons o orders ih =>
    rw [enqueueAll, List.foldl_cons, ← enqueueAll, ih (BestFirst.enqueue hs o),
      atPrice_enqueue (hs o.side)]
    by_cases ho : s = o.side ∧ p = o.price
    · rw [if_pos ho, List.filter_cons_of_pos (by simp [ho]), List.append_assoc]
      rfl
    · rw [if_neg ho, List.filter_cons_of_neg]
      simpa using fun h₁ h₂ => ho ⟨h₁.symm, h₂.symm⟩

/-- What `restore` asks of an order. -/
def Restorable (config : BookConfig) (last : Sequence) (o : RestingOrder) : Prop :=
  config.validPrice o.price = true ∧ o.quantity ≠ 0 ∧ o.priority ≤ last

/-- The ids of the resting orders. -/
def Depth.ids (d : Depth) : Set OrderId := {id | ∃ s, ∃ o ∈ d s, o.orderId = id}

/-- **One order of a restore**: it is refused and the loop throws, or it joins the book. -/
theorem Inv.restoreLoop_cons (h : Inv b q) {o : RestingOrder} (last : Sequence)
    (hlen : (o :: orders).length ≤ b.freeNodes.length) :
    (¬ (Restorable b.config last o ∧ o.orderId ∉ (b.depth q).ids) ∧
      OrderBook.restoreLoop last b (o :: orders) =
        (b, .error (.runtimeError "invalid resting order in snapshot"))) ∨
    (Restorable b.config last o ∧ o.orderId ∉ (b.depth q).ids) ∧ ∃ b₁ q₁, Inv b₁ q₁ ∧
      Traded b b₁ 0 ∧ b₁.freeNodes = b.freeNodes.tail ∧ b₁.depth q₁ = enqueue (b.depth q) o ∧
      orders.length ≤ b₁.freeNodes.length ∧
      OrderBook.restoreLoop last b (o :: orders) = OrderBook.restoreLoop last b₁ orders := by
  rw [OrderBook.restoreLoop]
  by_cases hbad : b.config.validPrice o.price = false ∨ o.quantity = 0 ∨ o.priority > last
  · refine Or.inl ⟨?_, if_pos hbad⟩
    rintro ⟨⟨hv, hq, hp⟩, -⟩
    rcases hbad with hbad | hbad | hbad
    · rw [hv] at hbad
      cases hbad
    · exact hq hbad
    · exact absurd hp (UInt64.not_le.mpr hbad)
  rw [if_neg hbad]
  have hok : Restorable b.config last o := by
    obtain ⟨hv, hq, hp⟩ := not_or.mp hbad |>.imp_right not_or.mp
    exact ⟨by simpa using hv, hq, by simpa using hp⟩
  rcases h.find_isSome o.orderId with ⟨x, n, s, i, -, hidx, hm, hx, hid⟩ | ⟨-, hidx, hno⟩
  · exact Or.inl ⟨fun hnew => hnew.2 ⟨s, x, h.mem_depth.mpr ⟨i, n, hm, hx⟩, hid⟩, by rw [hidx]⟩
  · have hnew : o.orderId ∉ (b.depth q).ids := by
      intro hid
      obtain ⟨n, hn⟩ := (h.has_iff o.orderId).mpr hid
      exact hno n hn
    have hfree : b.freeNodes ≠ [] := List.ne_nil_of_length_pos (by rw [List.length_cons] at hlen; omega)
    obtain ⟨b₁, q₁, hadd, hinv, htr, htail, hdepth⟩ := h.addResting [] hok.1 hno hfree hok.2.1
    refine Or.inr ⟨⟨hok, hnew⟩, b₁, q₁, hinv, htr, htail, hdepth, ?_, by simp only [hidx, hadd]⟩
    rw [htail, List.length_tail]
    rw [List.length_cons] at hlen
    omega

theorem Inv.restoreLoop_ok (h : Inv b q) (hlen : orders.length ≤ b.freeNodes.length)
    (hr : OrderBook.restoreLoop last b orders = (b', .ok ())) :
    ∃ q', Inv b' q' ∧ Traded b b' 0 ∧ b'.depth q' = enqueueAll (b.depth q) orders ∧
      ∀ o ∈ orders, Restorable b.config last o := by
  induction orders generalizing b q with
  | nil =>
    cases hr
    exact ⟨q, h, Traded.refl _, rfl, by simp⟩
  | cons o orders ih =>
    rcases h.restoreLoop_cons last hlen with
      ⟨-, hthrow⟩ | ⟨⟨hok, -⟩, b₁, q₁, hinv, htr, -, hdepth, hlen₁, hloop⟩
    · rw [hthrow] at hr
      cases hr
    rw [hloop] at hr
    obtain ⟨q', hinv', htr', hdepth', hall⟩ := ih hinv hlen₁ hr
    refine ⟨q', hinv', htr.trans htr', by rw [hdepth', hdepth]; rfl, ?_⟩
    rw [htr.1] at hall
    exact List.forall_mem_cons.mpr ⟨hok, hall⟩

theorem Inv.restoreLoop_inv (h : Inv b q) (hlen : orders.length ≤ b.freeNodes.length) :
    ∃ q', Inv (OrderBook.restoreLoop last b orders).1 q' := by
  induction orders generalizing b q with
  | nil => exact ⟨q, h⟩
  | cons o orders ih =>
    rcases h.restoreLoop_cons last hlen with
      ⟨-, hthrow⟩ | ⟨-, b₁, q₁, hinv, -, -, -, hlen₁, hloop⟩
    · rw [hthrow]
      exact ⟨q, h⟩
    · rw [hloop]
      exact ih hinv hlen₁

theorem Inv.restoreLoop_isOk (h : Inv b q) (orders : List RestingOrder)
    (hlen : orders.length ≤ b.freeNodes.length)
    (hall : ∀ o ∈ orders, Restorable b.config last o) (hnodup : (orders.map RestingOrder.orderId).Nodup)
    (hnew : ∀ o ∈ orders, o.orderId ∉ (b.depth q).ids) :
    ∃ b', OrderBook.restoreLoop last b orders = (b', .ok ()) := by
  induction orders generalizing b q with
  | nil => exact ⟨b, rfl⟩
  | cons o orders ih =>
    rw [List.map_cons, List.nodup_cons] at hnodup
    rcases h.restoreLoop_cons last hlen with
      ⟨hbad, -⟩ | ⟨-, b₁, q₁, hinv, htr, -, hdepth, hlen₁, hloop⟩
    · exact absurd ⟨hall o List.mem_cons_self, hnew o List.mem_cons_self⟩ hbad
    rw [hloop]
    refine ih hinv hlen₁ (fun x hx => ?_) hnodup.2 fun x hx => ?_
    · rw [htr.1]
      exact hall x (List.mem_cons_of_mem _ hx)
    · rw [hdepth]
      rintro ⟨s, y, hy, hyx⟩
      rcases mem_enqueue.mp hy with ⟨rfl, -⟩ | hy
      · exact hnodup.1 (hyx ▸ List.mem_map_of_mem hx)
      · exact hnew x (List.mem_cons_of_mem _ hx) ⟨s, y, hy, hyx⟩

/-- The orders, oldest first; equal priorities keep their order. -/
def byPriority (orders : List RestingOrder) : List RestingOrder :=
  orders.insertionSort fun left right => left.priority ≤ right.priority

instance : Std.Total fun x y : RestingOrder => x.priority ≤ y.priority :=
  ⟨fun x y => UInt64.le_total x.priority y.priority⟩

instance : IsTrans RestingOrder fun x y => x.priority ≤ y.priority := ⟨fun _ _ _ => UInt64.le_trans⟩

theorem byPriority_sorted (orders : List RestingOrder) :
    (byPriority orders).Pairwise fun x y => x.priority ≤ y.priority :=
  List.pairwise_insertionSort _ _

theorem byPriority_perm (orders : List RestingOrder) : (byPriority orders).Perm orders :=
  List.perm_insertionSort _ _

theorem mem_byPriority {o : RestingOrder} : o ∈ byPriority orders ↔ o ∈ orders :=
  (byPriority_perm orders).mem_iff

/-- The book with another last sequence. -/
def OrderBook.withSequence (b : OrderBook) (last : Sequence) : OrderBook :=
  { b with stats := { b.stats with lastSequence := last } }

theorem Inv.withSequence (h : Inv b q) (last : Sequence) : Inv (b.withSequence last) q :=
  h.withStats rfl

theorem Core.empty_room (h : Core b q) (h0 : b.stats.restingOrders = 0) :
    b.freeNodes.length = b.config.maximumOrders.toNat := by
  have := h.resting
  rw [h0, h.nodes_size] at this
  omega

theorem Core.empty_depth (h : Core b q) (h0 : b.stats.restingOrders = 0) : b.depth q = fun _ => [] := by
  rw [h.restingOrders_eq, Market.size, Nat.add_eq_zero_iff, List.length_eq_zero_iff,
    List.length_eq_zero_iff] at h0
  funext s
  cases s with
  | buy => exact h0.1
  | sell => exact h0.2

/-- **What a restore that returns has done.** -/
theorem Inv.restore_ok (h : Inv b q) (hr : b.restore last orders = (b', .ok ())) :
    ∃ q', Inv b' q' ∧ b'.config = b.config ∧ b'.depth q' = enqueueAll (fun _ => []) (byPriority orders) ∧
      b'.stats = { b.stats with lastSequence := last, restingOrders := b'.stats.restingOrders } ∧
      b.stats.lastSequence = 0 ∧ ∀ o ∈ orders, Restorable b.config last o := by
  rw [OrderBook.restore] at hr
  split_ifs at hr with hbad
  · cases hr
  obtain ⟨h0, hseq, hlen⟩ := not_or.mp hbad |>.imp_right not_or.mp
  rw [not_not] at h0 hseq
  rw [gt_iff_lt, not_lt, ← h.empty_room h0] at hlen
  rcases hloop : OrderBook.restoreLoop last b (byPriority orders) with ⟨b₁, _ | ⟨⟨⟩⟩⟩
  all_goals
    have hloop' := hloop
    rw [byPriority] at hloop'
    simp only [hloop', Prod.mk.injEq, and_true, reduceCtorEq, and_false] at hr
  · have hperm := byPriority_perm orders
    obtain ⟨q', hinv, htr, hdepth, hall⟩ := h.restoreLoop_ok (by rw [hperm.length_eq]; exact hlen) hloop
    subst hr
    refine ⟨q', hinv.withSequence last, htr.1, ?_, ?_, hseq, fun o ho => hall o (hperm.mem_iff.mpr ho)⟩
    · rw [← h.empty_depth h0]
      exact hdepth
    · show { b₁.stats with lastSequence := last } =
        { b.stats with lastSequence := last, restingOrders := b₁.stats.restingOrders }
      rw [htr.2]
      simp

/-- **When a restore returns.** -/
theorem Inv.restore_isOk (h : Inv b q) (h0 : b.stats.restingOrders = 0)
    (hseq : b.stats.lastSequence = 0) (hlen : orders.length ≤ b.config.maximumOrders.toNat)
    (hall : ∀ o ∈ orders, Restorable b.config last o)
    (hnodup : (orders.map RestingOrder.orderId).Nodup) :
    ∃ b', b.restore last orders = (b', .ok ()) := by
  have hperm := byPriority_perm orders
  obtain ⟨b', hloop⟩ := h.restoreLoop_isOk (byPriority orders)
    (by rw [hperm.length_eq, h.empty_room h0]; exact hlen)
    (fun o ho => hall o (hperm.mem_iff.mp ho)) ((hperm.map _).nodup_iff.mpr hnodup)
    (fun o _ => by rw [h.empty_depth h0]; rintro ⟨s, x, hx, _⟩; cases hx)
  refine ⟨b'.withSequence last, ?_⟩
  rw [byPriority] at hloop
  rw [OrderBook.restore, if_neg, hloop]
  · rfl
  · simp only [h0, hseq, ne_eq, not_true_eq_false, false_or, gt_iff_lt, not_lt]
    exact hlen

theorem Inv.restore_inv (h : Inv b q) (last : Sequence) (orders : List RestingOrder) :
    ∃ q', Inv (b.restore last orders).1 q' := by
  rw [OrderBook.restore]
  split_ifs with hbad
  · exact ⟨q, h⟩
  obtain ⟨h0, -, hlen⟩ := not_or.mp hbad |>.imp_right not_or.mp
  rw [not_not] at h0
  rw [gt_iff_lt, not_lt, ← h.empty_room h0, ← (byPriority_perm orders).length_eq] at hlen
  obtain ⟨q', hinv⟩ := @Inv.restoreLoop_inv _ _ last _ h hlen
  rw [byPriority] at hinv
  rcases hloop : OrderBook.restoreLoop last b
    (orders.insertionSort fun left right => left.priority ≤ right.priority) with ⟨b₁, _ | ⟨⟨⟩⟩⟩
  · rw [hloop] at hinv
    exact ⟨q', hinv⟩
  · rw [hloop] at hinv
    exact ⟨q', hinv.withSequence last⟩

/-! ## Reachable books -/

/-- The books that callers can hold: new ones, and those that `process` leads to, and `restore`,
whether it returns or throws. -/
inductive Reachable : OrderBook → Prop
  | new {config : BookConfig} {b : OrderBook} (h : OrderBook.new config = .ok b) : Reachable b
  | process {b b' : OrderBook} {c : Command} {events events' : List Event} (hb : Reachable b)
    (h : b.process c events = .ok (b', events')) : Reachable b'
  | restore {b b' : OrderBook} {last : Sequence} {orders : List RestingOrder}
    {result : Except Fault Unit} (hb : Reachable b) (h : b.restore last orders = (b', result)) :
    Reachable b'

/-- **The representation invariant holds in every reachable book.** -/
theorem Reachable.inv (h : Reachable b) : ∃ q, Inv b q := by
  induction h with
  | new h => exact ⟨_, (Inv.new h).1⟩
  | process _ h ih =>
    obtain ⟨q, hinv⟩ := ih
    obtain ⟨b₁, q₁, hp, hinv₁, -⟩ := hinv.process _ _
    rw [h] at hp
    cases hp
    exact ⟨q₁, hinv₁⟩
  | @restore b b' last orders result _ h ih =>
    obtain ⟨q, hinv⟩ := ih
    obtain ⟨q', hinv'⟩ := hinv.restore_inv last orders
    rw [h] at hinv'
    exact ⟨q', hinv'⟩

end Dme
