import MatchingEngine.Commands
import MatchingEngine.Sweep

/-!
# The sides of a market under its commands

* `orderedInsert_split`: where an order joins a side.
* `atPrice_enqueue`: it joins the end of the queue of its price.
* `Shrinks d d'`: orders have left, or lost quantity; none has moved.
* **`Market.perform_shape`**: a command that is carried out makes the depth shrink, and then one order
  may join, which crosses nothing.
-/

set_option autoImplicit false

namespace Dme

variable {s : Side} {o : RestingOrder} {os : List RestingOrder} {d d' : Depth}

section Better

variable {p p' p'' : Price}

theorem better_irrefl (s : Side) (p : Price) : better s p p = false := by
  cases s <;> simp [better, Int64.lt_irrefl]

theorem better_asymm (h : better s p p' = true) : better s p' p = false := by
  cases s <;> simp only [better, decide_eq_true_eq, decide_eq_false_iff_not] at h ⊢ <;>
    exact Int64.lt_asymm h

theorem better_trans (h : better s p p' = true) (h' : better s p'' p' = false) :
    better s p p'' = true := by
  cases s <;>
    simp only [better, decide_eq_true_eq, decide_eq_false_iff_not, Int64.not_lt] at h h' ⊢
  · exact Int64.lt_of_le_of_lt h' h
  · exact Int64.lt_of_lt_of_le h h'

end Better

theorem orderedInsert_split (hs : BestFirst s os) (o : RestingOrder) :
    ∃ A B, os = A ++ B ∧
      os.orderedInsert (fun x y => better s x.price y.price) o = A ++ o :: B ∧
      (∀ x ∈ A, better s o.price x.price = false) ∧ ∀ x ∈ B, better s o.price x.price = true := by
  induction os with
  | nil => exact ⟨[], [], rfl, rfl, by simp, by simp⟩
  | cons x os ih =>
    obtain ⟨hx, htail⟩ := List.pairwise_cons.mp hs
    by_cases hb : better s o.price x.price = true
    · refine ⟨[], x :: os, rfl, by rw [List.orderedInsert_cons, if_pos hb]; rfl, by simp, ?_⟩
      intro y hy
      rcases List.mem_cons.mp hy with rfl | hy
      · exact hb
      · exact better_trans hb (hx y hy)
    · obtain ⟨A, B, rfl, hins, hA, hB⟩ := ih htail
      refine ⟨x :: A, B, rfl, by rw [List.orderedInsert_cons, if_neg hb, hins]; rfl, ?_, hB⟩
      intro y hy
      rcases List.mem_cons.mp hy with rfl | hy
      · simpa using hb
      · exact hA y hy

theorem mem_enqueue {x : RestingOrder} : x ∈ enqueue d o s ↔ (x = o ∧ s = o.side) ∨ x ∈ d s := by
  rw [enqueue]
  by_cases hs : s = o.side
  · subst hs
    rw [Function.update_self, List.mem_orderedInsert]
    simp
  · rw [Function.update_of_ne hs]
    simp [hs]

/-- The orders of both sides. -/
def Depth.all (d : Depth) : List RestingOrder := d .buy ++ d .sell

theorem Depth.all_perm (d : Depth) (s : Side) : d.all.Perm (d s.opposite ++ d s) := by
  cases s with
  | buy => exact List.perm_append_comm
  | sell => exact List.Perm.refl _

theorem all_enqueue (d : Depth) (o : RestingOrder) : (enqueue d o).all.Perm (o :: d.all) := by
  have hown : (enqueue d o o.side).Perm (o :: d o.side) := by
    rw [enqueue, Function.update_self]
    exact List.perm_orderedInsert _ _ _
  have hother : enqueue d o o.side.opposite = d o.side.opposite := by
    rw [enqueue, Function.update_of_ne o.side.opposite_ne]
  refine (Depth.all_perm _ o.side).trans ?_
  rw [hother]
  exact (hown.append_left _).trans (List.perm_middle.trans ((d.all_perm o.side).symm.cons o))

theorem all_withdraw (d : Depth) (id : OrderId) :
    (withdraw d id).all = d.all.filter fun o => o.orderId ≠ id := (List.filter_append ..).symm

/-- **An order joins the end of the queue of its price.** -/
theorem atPrice_enqueue (hs : BestFirst o.side (d o.side)) (s : Side) (p : Price) :
    atPrice (enqueue d o s) p =
      if s = o.side ∧ p = o.price then atPrice (d s) p ++ [o] else atPrice (d s) p := by
  rw [enqueue]
  by_cases hside : s = o.side
  · subst hside
    obtain ⟨A, B, hAB, hins, hA, hB⟩ := orderedInsert_split hs o
    rw [Function.update_self, hins, hAB]
    simp only [atPrice, List.filter_append, true_and]
    by_cases hp : p = o.price
    · have hnil : B.filter (fun x => x.price = p) = [] := by
        rw [List.filter_eq_nil_iff]
        intro x hx
        rw [decide_eq_true_eq]
        intro he
        have := hB x hx
        rw [he, hp, better_irrefl] at this
        cases this
      rw [if_pos hp, List.filter_cons_of_pos (by simp [hp]), hnil]
      simp
    · rw [if_neg hp, List.filter_cons_of_neg (by simpa using Ne.symm hp)]
  · rw [Function.update_of_ne hside, if_neg fun hc => hside hc.1]

theorem BestFirst.enqueue (h : ∀ s, BestFirst s (d s)) (o : RestingOrder) (s : Side) :
    BestFirst s (enqueue d o s) := by
  rw [Dme.enqueue]
  by_cases hside : s = o.side
  · subst hside
    have hs := h o.side
    obtain ⟨A, B, hAB, hins, hA, hB⟩ := orderedInsert_split hs o
    rw [Function.update_self, hins]
    rw [hAB, BestFirst, List.pairwise_append] at hs
    rw [BestFirst, List.pairwise_append, List.pairwise_cons]
    refine ⟨hs.1, ⟨fun x hx => better_asymm (hB x hx), hs.2.1⟩, fun x hx y hy => ?_⟩
    rcases List.mem_cons.mp hy with rfl | hy
    · exact hA x hx
    · exact hs.2.2 x hx y hy
  · rw [Function.update_of_ne hside]
    exact h s

/-! ## Orders that leave -/

/-- An order without its quantity. -/
def key (o : RestingOrder) : OrderId × Side × Price × Sequence :=
  (o.orderId, o.side, o.price, o.priority)

/-- Orders have left, or lost quantity; none has moved. -/
structure Shrinks (d d' : Depth) : Prop where
  keys : ∀ s, ((d' s).map key).Sublist ((d s).map key)
  quantity : ∀ s, ∀ x ∈ d' s, ∃ y ∈ d s, key y = key x ∧ x.quantity ≤ y.quantity

theorem Shrinks.refl (d : Depth) : Shrinks d d :=
  ⟨fun _ => List.Sublist.refl _, fun _ x hx => ⟨x, hx, rfl, UInt64.le_refl _⟩⟩

theorem Shrinks.trans {d'' : Depth} (h : Shrinks d d') (h' : Shrinks d' d'') : Shrinks d d'' := by
  refine ⟨fun s => (h'.keys s).trans (h.keys s), fun s x hx => ?_⟩
  obtain ⟨y, hy, hyx, hle⟩ := h'.quantity s x hx
  obtain ⟨z, hz, hzy, hle'⟩ := h.quantity s y hy
  exact ⟨z, hz, hzy.trans hyx, UInt64.le_trans hle hle'⟩

theorem shrinks_withdraw (d : Depth) (id : OrderId) : Shrinks d (withdraw d id) :=
  ⟨fun _ => List.filter_sublist.map _,
    fun _ x hx => ⟨x, (List.mem_filter.mp hx).1, rfl, UInt64.le_refl _⟩⟩

theorem Shrinks.update {s : Side} {os : List RestingOrder}
    (hk : (os.map key).Sublist ((d s).map key))
    (hq : ∀ x ∈ os, ∃ y ∈ d s, key y = key x ∧ x.quantity ≤ y.quantity) :
    Shrinks d (Function.update d s os) := by
  constructor <;> intro t <;> by_cases ht : t = s
  · subst ht
    rw [Function.update_self]
    exact hk
  · rw [Function.update_of_ne ht]
  · subst ht
    rw [Function.update_self]
    exact hq
  · rw [Function.update_of_ne ht]
    exact fun x hx => ⟨x, hx, rfl, UInt64.le_refl _⟩

theorem shrinks_sweep (d : Depth) (a : Side) (limit : Price) (quantity : Quantity) :
    Shrinks d (Function.update d a.opposite (sweep a limit quantity (d a.opposite)).rest) := by
  refine Shrinks.update (sweep_suffix key (fun _ _ => rfl) quantity _).sublist fun x hx => ?_
  obtain ⟨y, hy, hid, hs, hp, hr, hle⟩ := sweep_mem hx
  exact ⟨y, hy, by simp [key, hid, hs, hp, hr], hle⟩

theorem Shrinks.pairwise (h : Shrinks d d') {R : RestingOrder → RestingOrder → Prop}
    (hR : ∀ x y x' y', key x = key x' → key y = key y' → R x y → R x' y') (s : Side)
    (hp : (d s).Pairwise R) : (d' s).Pairwise R := by
  have hkeys : ((d s).map key).Pairwise fun k k' => ∀ x y, key x = k → key y = k' → R x y := by
    rw [List.pairwise_map]
    exact hp.imp fun {x y} hxy x' y' hx hy => hR x y x' y' hx.symm hy.symm hxy
  have := hkeys.sublist (h.keys s)
  rw [List.pairwise_map] at this
  exact this.imp fun hxy => hxy _ _ rfl rfl

theorem Shrinks.mem (h : Shrinks d d') {x : RestingOrder} (hx : x ∈ d' s) :
    ∃ y ∈ d s, key y = key x := by
  obtain ⟨y, hy, he, -⟩ := h.quantity s x hx
  exact ⟨y, hy, he⟩

theorem Shrinks.bestFirst (h : Shrinks d d') (hs : ∀ s, BestFirst s (d s)) (s : Side) :
    BestFirst s (d' s) := by
  refine h.pairwise (fun x y x' y' hx hy hxy => ?_) s (hs s)
  rw [show x'.price = x.price from (congrArg (fun k => k.2.2.1) hx).symm,
    show y'.price = y.price from (congrArg (fun k => k.2.2.1) hy).symm]
  exact hxy

/-! ## What a command does to the depth -/

namespace Market

variable {m : Market} {c : Command}

theorem find_eq_none {id : OrderId} : m.find id = none ↔ ∀ s, ∀ x ∈ m.depth s, x.orderId ≠ id := by
  rw [find, List.find?_eq_none]
  simp only [decide_eq_true_eq, List.mem_append]
  constructor
  · intro h s x hx
    cases s with
    | buy => exact h x (Or.inl hx)
    | sell => exact h x (Or.inr hx)
  · rintro h x (hx | hx)
    · exact h .buy x hx
    · exact h .sell x hx

/-- An order that joins the depth `d`: it is the command's, it is new, and it crosses nothing. -/
structure Joins (m : Market) (c : Command) (d : Depth) (o : RestingOrder) : Prop where
  priority : o.priority = c.sequence
  orderId : o.orderId = c.orderId
  price : m.config.validPrice o.price = true
  quantity : o.quantity ≠ 0 ∧ o.quantity ≤ c.quantity
  fresh : ∀ s, ∀ x ∈ d s, x.orderId ≠ o.orderId
  uncrossed : ∀ y ∈ d o.side.opposite, crossesPrice o.side o.price y.price = false

theorem sweep_uncrossed {a : Side} {limit : Price} {quantity : Quantity} {os : List RestingOrder}
    (hs : BestFirst a.opposite (sweep a limit quantity os).rest)
    (h : (sweep a limit quantity os).remaining ≠ 0) :
    ∀ y ∈ (sweep a limit quantity os).rest, crossesPrice a limit y.price = false := by
  cases hrest : (sweep a limit quantity os).rest with
  | nil => simp
  | cons x rest =>
    have hx := sweep_stops quantity os h hrest
    rw [hrest, BestFirst, List.pairwise_cons] at hs
    intro y hy
    rcases List.mem_cons.mp hy with rfl | hy
    · exact hx
    · by_contra hc
      rw [crosses_of_better (hs.1 y hy) (by simpa using hc)] at hx
      cases hx

theorem execute_shape (hs : ∀ s, BestFirst s (m.depth s))
    (hid : ∀ s, ∀ x ∈ m.depth s, x.orderId ≠ c.orderId)
    (hv : c.orderType = .limit → m.config.validPrice c.price = true) :
    ∃ d, Shrinks m.depth d ∧
      ((m.execute c).1 = d ∨ ∃ o, (m.execute c).1 = enqueue d o ∧ m.Joins c d o) := by
  have hshr := shrinks_sweep m.depth c.side (m.limit c) c.quantity
  refine ⟨_, hshr, ?_⟩
  simp only [execute]
  split_ifs with h0 hlim
  · exact Or.inl rfl
  · refine Or.inr ⟨_, rfl, rfl, rfl, hv hlim, ⟨h0, ?_⟩, fun s x hx => ?_, ?_⟩
    · have := @sweep_conserves c.side (m.limit c) c.quantity (m.depth c.side.opposite)
      rw [UInt64.le_iff_toNat_le]
      simp only
      omega
    · obtain ⟨y, hy, he⟩ := hshr.mem hx
      rw [← show y.orderId = x.orderId from congrArg (fun k => k.1) he]
      exact hid s y hy
    · have hbf := hshr.bestFirst hs c.side.opposite
      rw [Function.update_self] at hbf ⊢
      have hprice : m.limit c = c.price := by simp [limit, hlim]
      intro y hy
      have := sweep_uncrossed hbf h0 y hy
      rwa [hprice] at this
  · exact Or.inl rfl

/-- **A command that is carried out**: orders leave, and one may join. -/
theorem perform_shape {evs : List Event} (hs : ∀ s, BestFirst s (m.depth s))
    (h : m.perform c = .ok (d', evs)) :
    ∃ d, Shrinks m.depth d ∧ (d' = d ∨ ∃ o, d' = enqueue d o ∧ m.Joins c d o) := by
  cases performed h with
  | new hc hq hp hf =>
    exact execute_shape hs (find_eq_none.mp hf) fun hlim => hp (by rw [hlim]; simp)
  | cancel hc hf => exact ⟨_, shrinks_withdraw m.depth c.orderId, Or.inl rfl⟩
  | @replace hc o hf hq hp =>
    have hshr := shrinks_withdraw m.depth c.orderId
    obtain ⟨d, hd, hcase⟩ := execute_shape (c := replacement c o)
      (m := { m with depth := withdraw m.depth c.orderId }) (hshr.bestFirst hs)
      (fun s x hx => by simpa [replacement] using (List.mem_filter.mp hx).2) (fun _ => hp)
    refine ⟨d, hshr.trans hd, hcase.imp_right ?_⟩
    rintro ⟨x, hx, hj⟩
    exact ⟨x, hx, hj.priority, hj.orderId, hj.price, hj.quantity, hj.fresh, hj.uncrossed⟩

theorem perform_bestFirst {evs : List Event} (hs : ∀ s, BestFirst s (m.depth s))
    (h : m.perform c = .ok (d', evs)) (s : Side) : BestFirst s (d' s) := by
  obtain ⟨d, hd, rfl | ⟨o, rfl, -⟩⟩ := perform_shape hs h
  · exact hd.bestFirst hs s
  · exact BestFirst.enqueue (hd.bestFirst hs) o s

theorem process_bestFirst (hs : ∀ s, BestFirst s (m.depth s)) (c : Command) (s : Side) :
    BestFirst s ((m.process c).1.depth s) := by
  rw [process]
  split_ifs with hseq
  · exact hs s
  · cases hp : m.perform c with
    | error r => exact hs s
    | ok r => exact perform_bestFirst hs hp s

end Market

end Dme
