import MatchingEngine.Priority
import MatchingEngine.ReferenceScan

/-!
# The book against the reference book

* `Market.Orderly`: what the reference needs of a market; `Inv.orderly` says when a book's has it.
* `Mirrors r m`: the reference and the market hold the same orders.
* `Mirrors.submit`, `Mirrors.cancel`, `Mirrors.replace`: each function of the reference answers as
  the market does.
* **`Mirrors.process`**, **`Mirrors.run`**, **`book_refines_reference`**.
-/

set_option autoImplicit false

namespace Dme

/-! ## Markets whose orders are told apart -/

/-- **What the reference needs of a market**: its lists are in order of price and of priority, ids
are distinct, and what rests on a side can be added up in 64 bits. -/
structure Market.Orderly (m : Market) : Prop where
  bestFirst : ∀ s, BestFirst s (m.depth s)
  side : ∀ s, ∀ x ∈ m.depth s, x.side = s
  ids : (m.depth.all.map RestingOrder.orderId).Nodup
  ranked : Ranked (· < ·) m.depth
  total : ∀ s, ((m.depth s).map fun o => o.quantity.toNat).sum < 2 ^ 64

theorem Market.Orderly.withdraw {m : Market} (h : m.Orderly) (id : OrderId) :
    Market.Orderly { m with depth := Dme.withdraw m.depth id } where
  bestFirst := (shrinks_withdraw m.depth id).bestFirst h.bestFirst
  side s x hx := h.side s x (List.mem_filter.mp hx).1
  ids := by
    change ((Dme.withdraw m.depth id).all.map _).Nodup
    rw [all_withdraw]
    exact h.ids.sublist (List.filter_sublist.map _)
  ranked := (shrinks_withdraw m.depth id).ranked h.ranked
  total s := lt_of_le_of_lt
    (List.Sublist.sum_le_sum (List.filter_sublist.map _) fun _ _ => Nat.zero_le _) (h.total s)

theorem find_perm {l l' : List RestingOrder} (hp : l.Perm l')
    (hd : (l'.map RestingOrder.orderId).Nodup) (id : OrderId) :
    l.find? (fun o => o.orderId = id) = l'.find? fun o => o.orderId = id := by
  cases h : l'.find? fun o => o.orderId = id with
  | none =>
    rw [List.find?_eq_none] at h ⊢
    exact fun x hx => h x (hp.mem_iff.mp hx)
  | some o =>
    have ho := List.mem_of_find?_eq_some h
    have hid := List.find?_some h
    cases h' : l.find? fun o => o.orderId = id with
    | none =>
      rw [List.find?_eq_none] at h'
      exact absurd hid (h' o (hp.mem_iff.mpr ho))
    | some x =>
      have hx := hp.mem_iff.mp (List.mem_of_find?_eq_some h')
      have hxid := List.find?_some h'
      simp only [decide_eq_true_eq] at hid hxid
      rw [List.inj_on_of_nodup_map hd hx ho (hxid.trans hid.symm)]

theorem eraseP_eq_filter {l : List RestingOrder} (hd : (l.map RestingOrder.orderId).Nodup)
    (id : OrderId) : l.eraseP (fun o => o.orderId = id) = l.filter fun o => o.orderId ≠ id := by
  induction l with
  | nil => rfl
  | cons o l ih =>
    rw [List.map_cons, List.nodup_cons] at hd
    by_cases ho : o.orderId = id
    · rw [List.eraseP_cons_of_pos (by simpa using ho), List.filter_cons_of_neg (by simpa using ho)]
      refine (List.filter_eq_self.mpr fun x hx => ?_).symm
      simp only [ne_eq, decide_eq_true_eq]
      rintro rfl
      exact hd.1 (ho ▸ List.mem_map_of_mem hx)
    · rw [List.eraseP_cons_of_neg (by simpa using ho), List.filter_cons_of_pos (by simpa using ho),
        ih hd.2]

/-! ## The reference follows the market -/

/-- **The reference and the market hold the same orders.** -/
structure Mirrors (r : ReferenceBook) (m : Market) : Prop where
  config : r.config = m.config
  lastSequence : r.lastSequence = m.lastSequence
  orders : r.orders.Perm m.depth.all

variable {r : ReferenceBook} {m : Market} {c : Command} {events : List Event}

theorem Mirrors.validPrice (h : Mirrors r m) (p : Price) :
    r.validPrice p = m.config.validPrice p := by
  rw [ReferenceBook.validPrice, h.config]
  rfl

theorem Mirrors.limit (h : Mirrors r m) (c : Command) : r.limitOf c = m.limit c := by
  rw [ReferenceBook.limitOf, h.config]
  rfl

theorem Mirrors.find (h : Mirrors r m) (ho : m.Orderly) (id : OrderId) : r.find id = m.find id :=
  find_perm h.orders ho.ids id

theorem Mirrors.size (h : Mirrors r m) : r.orders.length = m.size := by
  rw [h.orders.length_eq, Depth.all, List.length_append]
  rfl

theorem Mirrors.facing (h : Mirrors r m) (ho : m.Orderly) (s : Side) :
    ReferenceBook.Facing s r.orders (m.depth s.opposite) (m.depth s) where
  perm := h.orders.trans (m.depth.all_perm s)
  opposite x hx := by
    rw [ho.side _ x hx]
    exact s.opposite_ne
  own x hx := ho.side s x hx
  ordered := ReferenceBook.pairwise_beats (ho.bestFirst s.opposite) (ho.ranked s.opposite)

/-- **The reference agrees with the market on what can be filled.** -/
theorem Mirrors.canFill (h : Mirrors r m) (ho : m.Orderly) (hq : c.quantity ≠ 0) :
    r.canFill c.side (r.limitOf c) c.quantity = false ↔ ¬ m.canFill c := by
  have hiff := @ReferenceBook.canFillFrom_iff c.side (m.limit c) r.orders _ 0
    (UInt64.pos_iff_ne_zero.mpr hq)
  rw [(h.facing ho c.side).reach_eq, ← available_eq_crossing c.side (m.limit c) (ho.total _)] at hiff
  rw [← Bool.not_eq_true, not_iff_not, ReferenceBook.canFill, h.limit, hiff, Market.canFill]
  simp

/-- What the reference answers, when the market answers `result`. -/
def Answers (r : ReferenceBook) (m : Market) (c : Command) (events : List Event)
    (result : Except RejectReason (Depth × List Event))
    (answer : Except Fault (ReferenceBook × List Event)) : Prop :=
  match result with
  | .error reason => answer = .ok (r, events ++ [Market.rejection c reason])
  | .ok (depth, evs) =>
    ∃ r', answer = .ok (r', events ++ evs) ∧ Mirrors r' { m with depth }

theorem Mirrors.withdraw (h : Mirrors r m) (ho : m.Orderly) (id : OrderId) :
    Mirrors { r with orders := r.orders.eraseP fun o => o.orderId = id }
      { m with depth := Dme.withdraw m.depth id } := by
  refine ⟨h.config, h.lastSequence, ?_⟩
  have hids := (h.orders.map RestingOrder.orderId).nodup_iff.mpr ho.ids
  change (r.orders.eraseP fun o => o.orderId = id).Perm (Dme.withdraw m.depth id).all
  rw [eraseP_eq_filter hids, all_withdraw]
  exact h.orders.filter _

theorem Mirrors.execute (h : Mirrors r m) (ho : m.Orderly) (c : Command) (events : List Event)
    (replacement : Bool) :
    ∃ r', r.execute c events replacement =
        .ok (r', (if replacement then events else emit events .accepted c 0 0 0 .none) ++
          (m.execute c).2) ∧ Mirrors r' { m with depth := (m.execute c).1 } := by
  have hlen : (m.depth c.side.opposite).length + 1 < r.orders.length + 2 := by
    have := (h.facing ho c.side).perm.length_eq
    rw [List.length_append] at this
    omega
  simp only [ReferenceBook.execute, Market.execute, h.limit]
  generalize (if replacement = true then events else emit events .accepted c 0 0 0 .none) = events₀
  obtain ⟨orders, hloop, hperm⟩ := @ReferenceBook.matchLoop_sweep (m.limit c) r.orders _ _ c
    (h.facing ho c.side) c.quantity events₀ (r.orders.length + 2) hlen
  generalize sweep c.side (m.limit c) c.quantity (m.depth c.side.opposite) = swept at hloop hperm ⊢
  have hrest : orders.Perm (Depth.all (Function.update m.depth c.side.opposite swept.rest)) := by
    refine hperm.trans ((Depth.all_perm _ c.side).trans (List.Perm.of_eq ?_)).symm
    rw [Function.update_self, Function.update_of_ne c.side.opposite_ne.symm]
  simp only [hloop, bind, Except.bind]
  split_ifs
  · exact ⟨_, rfl, h.config, h.lastSequence, hrest⟩
  · refine ⟨{ r with orders := orders ++
      [⟨c.orderId, c.side, c.price, swept.remaining, c.sequence⟩] }, ?_, h.config, h.lastSequence, ?_⟩
    · simp only [emit, List.append_assoc]
    · refine List.Perm.trans ?_ (all_enqueue _ _).symm
      exact (List.perm_append_singleton _ _).trans (hrest.cons _)
  · refine ⟨{ r with orders }, ?_, h.config, h.lastSequence, hrest⟩
    simp only [emit, List.append_assoc]

theorem Mirrors.submit (h : Mirrors r m) (ho : m.Orderly) (c : Command) (events : List Event) :
    Answers r m c events (m.submit c) (r.submit c events false) := by
  rw [Market.submit, ReferenceBook.submit]
  by_cases hq : c.quantity = 0
  · rw [if_pos hq, if_pos hq]
    rfl
  have hcan := h.canFill ho hq
  rw [if_neg hq, if_neg hq, h.validPrice, h.find ho, h.size, h.config]
  simp only [hcan, true_and, Option.isSome_iff_ne_none]
  split_ifs
  · rfl
  · rfl
  · rfl
  · rfl
  · obtain ⟨r', hr, hm⟩ := h.execute ho c events false
    exact ⟨r', by rw [hr]; simp [emit], hm⟩

theorem Mirrors.cancel (h : Mirrors r m) (ho : m.Orderly) (c : Command) (events : List Event) :
    Answers r m c events (m.cancel c) (r.cancel c events false) := by
  rw [Market.cancel, ReferenceBook.cancel, h.find ho]
  cases m.find c.orderId with
  | none => rfl
  | some o => exact ⟨_, rfl, h.withdraw ho c.orderId⟩

theorem ReferenceBook.submit_replacement {o : RestingOrder} (hq : c.quantity ≠ 0)
    (hv : r.validPrice c.price = true) :
    r.submit (Market.replacement c o) events true =
      r.execute (Market.replacement c o) events true := by
  simp [ReferenceBook.submit, Market.replacement, hq, hv]

theorem Mirrors.replace (h : Mirrors r m) (ho : m.Orderly) (c : Command) (events : List Event) :
    Answers r m c events (m.replace c) (r.replace c events) := by
  rw [Market.replace, ReferenceBook.replace, h.find ho]
  cases hf : m.find c.orderId with
  | none => rfl
  | some o =>
    simp only
    by_cases hq : c.quantity = 0
    · rw [if_pos (Or.inl hq), if_pos hq, if_pos hq]
      rfl
    by_cases hv : m.config.validPrice c.price = false
    · rw [if_pos (Or.inr ((h.validPrice _).trans hv)), if_neg hq, if_neg hq, if_pos hv]
      rfl
    have hv' : ¬ r.validPrice c.price = false := by rwa [h.validPrice]
    rw [if_neg (not_or.mpr ⟨hq, hv'⟩), if_neg hq, if_neg hv]
    obtain ⟨r', hr, hm⟩ := (h.withdraw ho c.orderId).execute (ho.withdraw c.orderId)
      (Market.replacement c o) (emit events .replaced (Market.replacement c o) 0 c.price c.quantity
        .none) true
    refine ⟨r', ?_, hm⟩
    simp only [ReferenceBook.cancel, h.find ho, hf, bind, Except.bind, if_true]
    refine (ReferenceBook.submit_replacement (o := o) hq ?_).trans (hr.trans ?_)
    · change r.validPrice c.price = true
      simpa using hv'
    · simp [emit, Market.replacement]

/-- **One command**: the reference emits what the market emits. -/
theorem Mirrors.process (h : Mirrors r m) (ho : m.Orderly) (c : Command) :
    ∃ r', r.process c [] = .ok (r', (m.process c).2) ∧ Mirrors r' (m.process c).1 := by
  by_cases hseq : c.sequence = m.lastSequence + 1
  · have hnext : Mirrors { r with lastSequence := c.sequence }
        { m with lastSequence := c.sequence } := ⟨h.config, rfl, h.orders⟩
    have ho' : Market.Orderly { m with lastSequence := c.sequence } :=
      ⟨ho.bestFirst, ho.side, ho.ids, ho.ranked, ho.total⟩
    have hans : Answers { r with lastSequence := c.sequence }
        { m with lastSequence := c.sequence } c [] (m.perform c) (r.process c []) := by
      rw [ReferenceBook.process, h.lastSequence, if_neg (not_not.mpr hseq), Market.perform]
      cases c.type with
      | new => exact hnext.submit ho' c []
      | cancel => exact hnext.cancel ho' c []
      | replace => exact hnext.replace ho' c []
    rw [Market.process, if_neg (not_not.mpr hseq)]
    cases hp : m.perform c with
    | error reason =>
      rw [hp] at hans
      exact ⟨_, hans, hnext⟩
    | ok result =>
      rw [hp] at hans
      exact hans
  · rw [ReferenceBook.process, Market.process, h.lastSequence, if_pos hseq, if_pos hseq]
    exact ⟨r, rfl, h⟩

/-! ## Runs -/

/-- No order is larger than `Q`. -/
def Market.Bounded (Q : ℕ) (m : Market) : Prop := ∀ s, ∀ x ∈ m.depth s, x.quantity.toNat ≤ Q

theorem Market.Bounded.process {Q : ℕ} (h : m.Bounded Q) (hs : ∀ s, BestFirst s (m.depth s))
    (hc : c.quantity.toNat ≤ Q) : (m.process c).1.Bounded Q := by
  have hshr : ∀ d, Shrinks m.depth d → ∀ s, ∀ x ∈ d s, x.quantity.toNat ≤ Q := by
    intro d hd s x hx
    obtain ⟨y, hy, -, hle⟩ := hd.quantity s x hx
    exact (UInt64.le_iff_toNat_le.mp hle).trans (h s y hy)
  rw [Market.process]
  split_ifs with hseq
  · exact h
  · cases hp : m.perform c with
    | error reason => exact h
    | ok result =>
      obtain ⟨d', evs⟩ := result
      obtain ⟨d, hd, rfl | ⟨o, rfl, hj⟩⟩ := perform_shape hs hp
      · exact hshr _ hd
      · intro s x hx
        rcases mem_enqueue.mp hx with ⟨rfl, -⟩ | hx
        · exact (UInt64.le_iff_toNat_le.mp hj.quantity.2).trans hc
        · exact hshr d hd s x hx

variable {b b₀ : OrderBook} {q : Queues} {Q : ℕ}

theorem Inv.orderly (h : Inv b q) (ha : (b.market q).Aged (· < ·)) (hb : (b.market q).Bounded Q)
    (hfit : Q * b.config.maximumOrders.toNat < 2 ^ 64) : (b.market q).Orderly where
  bestFirst := h.depth_bestFirst
  side _ _ hx := h.depth_side hx
  ids := (h.orders_perm.map _).nodup_iff.mp h.ids_nodup
  ranked := ha.ranked
  total s := by
    have hlen := h.length_depth_le s
    have hsum := List.sum_le_card_nsmul ((b.depth q s).map fun o => o.quantity.toNat) Q (by
      intro x hx
      obtain ⟨o, ho, rfl⟩ := List.mem_map.mp hx
      exact hb s o ho)
    rw [List.length_map, smul_eq_mul] at hsum
    calc _ ≤ (b.depth q s).length * Q := hsum
      _ ≤ b.nodes.size * Q := Nat.mul_le_mul_right Q hlen
      _ = Q * b.config.maximumOrders.toNat := by rw [h.nodes_size, Nat.mul_comm]
      _ < 2 ^ 64 := hfit

/-- **A run**: the reference emits what the market emits, command by command. -/
theorem Mirrors.run (h : Inv b q) (hr : Mirrors r (b.market q)) (ha : (b.market q).Aged (· < ·))
    (hb : (b.market q).Bounded Q) (hfit : Q * b.config.maximumOrders.toNat < 2 ^ 64)
    {n : ℕ} (hn : (b.market q).lastSequence = UInt64.ofNat n) (cs : List Command)
    (hlt : inSequence n cs < 2 ^ 64) (hcs : ∀ c ∈ cs, c.quantity.toNat ≤ Q) :
    ∃ r', r.run cs = .ok (r', ((b.market q).run cs).2) ∧ Mirrors r' ((b.market q).run cs).1 := by
  induction cs generalizing b q r n with
  | nil => exact ⟨r, rfl, hr⟩
  | cons c cs ih =>
    obtain ⟨r₁, hr₁, hm₁⟩ := hr.process (h.orderly ha hb hfit) c
    obtain ⟨b₁, q₁, -, hinv₁, hm, -⟩ := h.process c []
    have hle := Market.process_le hn c ((le_inSequence _ cs).trans_lt hlt)
    have ha₁ := ha.process (fun _ _ hlt => hlt) h.depth_bestFirst c hle
    have hn₁ := Market.process_inSequence hn c
    have hb₁ := hb.process h.depth_bestFirst (hcs c List.mem_cons_self)
    have hc₁ : b₁.config = b.config := (congrArg Market.config hm).trans (Market.process_config _ _)
    rw [← hm] at hm₁ ha₁ hb₁ hn₁
    obtain ⟨r', hrun, hm'⟩ := ih hinv₁ hm₁ ha₁ hb₁ (by rw [hc₁]; exact hfit) hn₁ hlt
      fun x hx => hcs x (List.mem_cons_of_mem _ hx)
    rw [hm] at hrun hm'
    refine ⟨r', ?_, hm'⟩
    simp only [ReferenceBook.run, hr₁, bind, Except.bind, hrun]
    rfl

/-- **The book refines the reference book.** On a new book, every list of fewer than `2 ^ 64`
commands of quantities at most `Q` gets the reference's events, command by command, and leaves the
reference's orders resting. A prefix of such a list is one, so this holds after each command. -/
theorem book_refines_reference {config : BookConfig} (hnew : OrderBook.new config = .ok b₀)
    (hfit : Q * config.maximumOrders.toNat < 2 ^ 64) (cs : List Command)
    (hlen : cs.length < 2 ^ 64) (hcs : ∀ c ∈ cs, c.quantity.toNat ≤ Q) :
    ∃ b r evs orders, b₀.run cs = .ok (b, evs) ∧
      ReferenceBook.run { config } cs = .ok (r, evs) ∧
      b.restingOrders = .ok orders ∧ orders.Perm r.orders := by
  obtain ⟨hinv, hc, hstats⟩ := Inv.new hnew
  have hempty := hinv.empty_depth (by rw [hstats])
  have hmirrors : Mirrors { config } (b₀.market fun _ _ => []) := by
    refine ⟨hc.symm, ?_, ?_⟩
    · change (0 : Sequence) = b₀.stats.lastSequence
      rw [hstats]
    · change List.Perm [] (b₀.depth _).all
      rw [hempty]
      exact List.Perm.refl _
  have hlt : inSequence 0 cs < 2 ^ 64 := (inSequence_le 0 cs).trans_lt (by rwa [Nat.zero_add])
  obtain ⟨b, q, hrun, hb, -, hm⟩ := new_run hnew cs hlt
  obtain ⟨r, hr, hm'⟩ := Mirrors.run (Q := Q) hinv hmirrors (Market.aged_of_empty hempty)
    (fun s x hx => by rw [show (b₀.market _).depth = _ from hempty] at hx; cases hx)
    (by rw [hc]; exact hfit) (n := 0) (by
      change b₀.stats.lastSequence = 0
      rw [hstats]) cs hlt hcs
  rw [← hm] at hm'
  exact ⟨b, r, _, _, hrun, hr, hb.restingOrders, hb.orders_perm.trans hm'.orders.symm⟩

/-- A crossing pair of orders. -/
theorem book_refines_reference_two_orders : ∃ b₀ b r evs orders,
    OrderBook.new ⟨1, 4, 1, 2⟩ = .ok b₀ ∧
    b₀.run [⟨1, .new, .buy, .limit, 0, 7, 2, 5⟩, ⟨2, .new, .sell, .limit, 0, 8, 2, 9⟩] =
      .ok (b, evs) ∧
    ReferenceBook.run { config := ⟨1, 4, 1, 2⟩ }
      [⟨1, .new, .buy, .limit, 0, 7, 2, 5⟩, ⟨2, .new, .sell, .limit, 0, 8, 2, 9⟩] = .ok (r, evs) ∧
    b.restingOrders = .ok orders ∧ orders.Perm r.orders := by
  obtain ⟨b₀, hnew⟩ := OrderBook.new_isOk (by decide : checkedPriceCount ⟨1, 4, 1, 2⟩ = .ok 4) (by decide)
  obtain ⟨b, r, evs, orders, h⟩ := book_refines_reference (Q := 9) hnew (by decide)
    [⟨1, .new, .buy, .limit, 0, 7, 2, 5⟩, ⟨2, .new, .sell, .limit, 0, 8, 2, 9⟩] (by decide)
    (by decide)
  exact ⟨b₀, b, r, evs, orders, hnew, h⟩

end Dme
