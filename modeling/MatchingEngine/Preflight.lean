import MatchingEngine.Best

/-!
# The preflight walk

`can_fully_fill` finds its first level with the bitmap and the others by their counters.

* `Visit`, `OrderBook.fillVisits`: the rounds of the loop, each with the level it reads and what was
  found before. `fillWalk_eq`: the loop is theirs.
* `walkLevels`: the same over a list of levels; `Walked`, **`walkLevels_walked`**: what it visits and
  what it adds up to.
* **`Core.fillVisits`**: the loop walks the levels with orders, best first. `Core.canFullyFill`.
* **`preflight_exact`**.
-/

set_option autoImplicit false

namespace Dme

/-- A round of the loop of `can_fully_fill`: the level that is read, and what was found before it. -/
structure Visit where
  index : ℕ
  available : Quantity
deriving DecidableEq, Repr

/-- `fillWalk`, with the rounds in which a level is read. -/
def OrderBook.fillVisits (b : OrderBook) (side : Side) (limit : Price) (quantity : Quantity)
    (levels : Array PriceLevel) : ℕ → ℕ → Quantity → Except Fault (List Visit × Bool)
  | 0, _, _ => .error .endless
  | fuel + 1, index, available =>
    if index ≠ noPrice ∧ b.crosses side limit index then do
      let level ← vecGet levels index
      let atLevel := level.totalQuantity
      let visit : Visit := ⟨index, available⟩
      if atLevel ≥ quantity - available then .ok ([visit], true)
      else
        let available := available + atLevel
        match side with
        | .buy =>
          if index + 1 ≥ b.priceCount then .ok ([visit], false)
          else do
            let index ← b.skipUp levels (b.priceCount + 1) (index + 1)
            if index ≥ b.priceCount then .ok ([visit], false)
            else do
              let (visits, answer) ← fillVisits b side limit quantity levels fuel index available
              .ok (visit :: visits, answer)
        | .sell =>
          match index with
          | 0 => .ok ([visit], false)
          | index + 1 => do
            match ← OrderBook.skipDown levels index with
            | none => .ok ([visit], false)
            | some index =>
              let (visits, answer) ← fillVisits b side limit quantity levels fuel index available
              .ok (visit :: visits, answer)
    else .ok ([], false)

/-- **The loop of `can_fully_fill` is the one that keeps track of its rounds.** -/
theorem fillWalk_eq (b : OrderBook) (side : Side) (limit : Price) (quantity : Quantity)
    (levels : Array PriceLevel) (fuel index : ℕ) (available : Quantity) :
    b.fillWalk side limit quantity levels fuel index available =
      (b.fillVisits side limit quantity levels fuel index available).map Prod.snd := by
  induction fuel generalizing index available with
  | zero => rfl
  | succ fuel ih =>
    have hmap : ∀ (visit : Visit) (r : Except Fault (List Visit × Bool)),
        (r.bind fun r => .ok (visit :: r.1, r.2)).map Prod.snd = r.map Prod.snd := by
      intro visit r
      cases r <;> rfl
    rw [OrderBook.fillWalk, OrderBook.fillVisits]
    by_cases hgo : index ≠ noPrice ∧ b.crosses side limit index
    · rw [if_pos hgo, if_pos hgo]
      cases vecGet levels index with
      | error e => rfl
      | ok level =>
        simp only [bind, Except.bind]
        by_cases henough : level.totalQuantity ≥ quantity - available
        · rw [if_pos henough, if_pos henough]
          rfl
        rw [if_neg henough, if_neg henough]
        cases side with
        | buy =>
          dsimp only
          by_cases hend : index + 1 ≥ b.priceCount
          · rw [if_pos hend, if_pos hend]
            rfl
          rw [if_neg hend, if_neg hend]
          cases b.skipUp levels (b.priceCount + 1) (index + 1) with
          | error e => rfl
          | ok r =>
            dsimp only
            by_cases hr : r ≥ b.priceCount
            · rw [if_pos hr, if_pos hr]
              rfl
            rw [if_neg hr, if_neg hr, ih]
            exact (hmap _ _).symm
        | sell =>
          cases index with
          | zero => rfl
          | succ index =>
            dsimp only
            cases OrderBook.skipDown levels index with
            | error e => rfl
            | ok o =>
              cases o with
              | none => rfl
              | some r =>
                dsimp only
                rw [ih]
                exact (hmap _ _).symm
    · rw [if_neg hgo, if_neg hgo]
      rfl

/-! ## Walking a list of levels -/

/-- Walking the levels of a list until one does not cross, or the quantity is found. -/
def walkLevels (total : ℕ → Quantity) (crosses : ℕ → Bool) (quantity : Quantity) :
    List ℕ → Quantity → List Visit × Bool
  | [], _ => ([], false)
  | i :: l, available =>
    if crosses i then
      if total i ≥ quantity - available then ([⟨i, available⟩], true)
      else (⟨i, available⟩ :: (walkLevels total crosses quantity l (available + total i)).1,
        (walkLevels total crosses quantity l (available + total i)).2)
    else ([], false)

/-- **What a walk over the levels `l` does**, with `found` found before it: the levels are read in
order and without a gap, and are found to suffice just when they do; each round begins with the exact
sum of what was read, which is less than the quantity, and stays less when the walk goes on. -/
structure Walked (total : ℕ → Quantity) (quantity : Quantity) (l : List ℕ) (found : ℕ)
    (visits : List Visit) (answer : Bool) : Prop where
  decides : answer = true ↔ quantity.toNat ≤ found + (l.map fun i => (total i).toNat).sum
  order : visits.map Visit.index <+: l
  all : answer = false → visits.map Visit.index = l
  sums : ∀ before v after, visits = before ++ v :: after →
    v.available.toNat = found + (before.map fun v => (total v.index).toNat).sum ∧
    v.available < quantity ∧
    (after ≠ [] ∨ answer = false → v.available.toNat + (total v.index).toNat < quantity.toNat)

section Walk

variable {total : ℕ → Quantity} {crosses : ℕ → Bool} {quantity : Quantity}

theorem Walked.enough {available : Quantity} (hav : available.toNat < quantity.toNat) {i : ℕ}
    (h : quantity.toNat ≤ available.toNat + (total i).toNat) (l : List ℕ) :
    Walked total quantity (i :: l) available.toNat [⟨i, available⟩] true where
  decides := by
    rw [List.map_cons, List.sum_cons]
    exact iff_of_true rfl (by omega)
  order := ⟨l, rfl⟩
  all hfalse := by cases hfalse
  sums before v after heq := by
    cases before with
    | nil =>
      cases heq
      exact ⟨by simp, UInt64.lt_iff_toNat_lt.mpr hav, by simp⟩
    | cons x before => simp at heq

theorem Walked.cons {available : Quantity} {i : ℕ} {l : List ℕ} {visits : List Visit} {answer : Bool}
    (h : available.toNat + (total i).toNat < quantity.toNat)
    (hw : Walked total quantity l (available.toNat + (total i).toNat) visits answer) :
    Walked total quantity (i :: l) available.toNat (⟨i, available⟩ :: visits) answer where
  decides := by
    rw [hw.decides, List.map_cons, List.sum_cons, Nat.add_assoc]
  order := by
    rw [List.map_cons]
    exact (List.prefix_cons_inj i).mpr hw.order
  all hfalse := by rw [List.map_cons, hw.all hfalse]
  sums before v after heq := by
    cases before with
    | nil =>
      cases heq
      exact ⟨by simp, UInt64.lt_iff_toNat_lt.mpr (by dsimp only; omega), fun _ => h⟩
    | cons x before =>
      obtain ⟨rfl, htail⟩ := List.cons.inj heq
      obtain ⟨hsum, hrest⟩ := hw.sums before v after htail
      exact ⟨by rw [hsum, List.map_cons, List.sum_cons, Nat.add_assoc], hrest⟩

/-- **Walking levels of which those that cross come first.** -/
theorem walkLevels_walked {l : List ℕ} (hl : l.Pairwise fun i j => crosses j = true → crosses i = true)
    {available : Quantity} (hav : available < quantity) :
    Walked total quantity (l.filter crosses) available.toNat
      (walkLevels total crosses quantity l available).1
      (walkLevels total crosses quantity l available).2 := by
  have hnone : ∀ available : Quantity, available < quantity →
      Walked total quantity [] available.toNat [] false := by
    intro available hav
    rw [UInt64.lt_iff_toNat_lt] at hav
    exact ⟨by simp; omega, List.prefix_rfl, fun _ => rfl, by simp⟩
  induction l generalizing available with
  | nil => exact hnone available hav
  | cons i l ih =>
    obtain ⟨hfirst, hl⟩ := List.pairwise_cons.mp hl
    rw [walkLevels]
    by_cases hc : crosses i = true
    · have hlt := UInt64.lt_iff_toNat_lt.mp hav
      have hsub : (quantity - available).toNat = quantity.toNat - available.toNat :=
        UInt64.toNat_sub_of_le _ _ (UInt64.le_of_lt hav)
      rw [if_pos hc, List.filter_cons_of_pos hc]
      by_cases henough : total i ≥ quantity - available
      · rw [if_pos henough]
        rw [ge_iff_le, UInt64.le_iff_toNat_le, hsub] at henough
        exact Walked.enough hlt (by omega) _
      · rw [if_neg henough]
        rw [ge_iff_le, UInt64.le_iff_toNat_le, hsub] at henough
        have hless : available.toNat + (total i).toNat < quantity.toNat := by omega
        have hadd : (available + total i).toNat = available.toNat + (total i).toNat := by
          have := quantity.toNat_lt
          rw [UInt64.toNat_add, Nat.mod_eq_of_lt (by omega)]
        have hav' : available + total i < quantity := UInt64.lt_iff_toNat_lt.mpr (hadd ▸ hless)
        have hrest := ih hl hav'
        rw [hadd] at hrest
        exact hrest.cons hless
    · -- no later level crosses either
      have hempty : (i :: l).filter crosses = [] := by
        rw [List.filter_eq_nil_iff]
        intro j hj hcj
        rcases List.mem_cons.mp hj with rfl | hj
        · exact hc hcj
        · exact hc (hfirst j hj hcj)
      rw [if_neg hc, hempty]
      exact hnone available hav

end Walk

/-! ## The levels with orders -/

variable {b : OrderBook} {q : Queues} {s a : Side} {i : ℕ} {limit : Price}

/-- The levels from `i` on that have orders, best first. -/
def occupiedFrom (b : OrderBook) (s : Side) (i : ℕ) : List ℕ :=
  (levelsFrom s b.priceCount i).filter fun j => (b.level s j).count ≠ 0

/-- The levels behind level `i` that have orders, best first. -/
def occupiedAfter (b : OrderBook) (s : Side) (i : ℕ) : List ℕ :=
  (levelsAfter s b.priceCount i).filter fun j => (b.level s j).count ≠ 0

theorem occupiedFrom_of_empty (hi : i < b.priceCount) (h : (b.level s i).count = 0) :
    occupiedFrom b s i = occupiedAfter b s i := by
  rw [occupiedFrom, levelsFrom_eq hi, List.filter_cons_of_neg (by simp [h])]
  rfl

theorem occupiedFrom_of_ne (hi : i < b.priceCount) (h : (b.level s i).count ≠ 0) :
    occupiedFrom b s i = i :: occupiedAfter b s i := by
  rw [occupiedFrom, levelsFrom_eq hi, List.filter_cons_of_pos (by simp [h])]
  rfl

theorem Core.skipUp (h : Core b q) (fuel index : ℕ) (hf : b.priceCount < fuel + index)
    (hle : index ≤ b.priceCount) :
    ∃ r, b.skipUp (b.levels .sell) fuel index = .ok r ∧ index ≤ r ∧
      occupiedFrom b .sell index = occupiedFrom b .sell r ∧
      (r < b.priceCount → (b.level .sell r).count ≠ 0) := by
  induction fuel generalizing index with
  | zero => omega
  | succ fuel ih =>
    rw [OrderBook.skipUp]
    by_cases hi : index < b.priceCount
    · simp only [hi, if_true, h.getLevel .sell hi, bind, Except.bind]
      by_cases hc : (b.level .sell index).count = 0
      · obtain ⟨r, hr, hir, heq, hne⟩ := ih (index + 1) (by omega) (by omega)
        refine ⟨r, by rw [if_pos hc, hr], by omega, ?_, hne⟩
        rw [occupiedFrom_of_empty hi hc, ← heq]
        rfl
      · exact ⟨index, if_neg hc, le_rfl, rfl, fun _ => hc⟩
    · exact ⟨index, if_neg hi, le_rfl, rfl, fun hlt => absurd hlt hi⟩

theorem Core.skipDown (h : Core b q) (index : ℕ) (hi : index < b.priceCount) :
    ∃ o, OrderBook.skipDown (b.levels .buy) index = .ok o ∧
      (o = none → occupiedFrom b .buy index = []) ∧
      ∀ r, o = some r → r ≤ index ∧ occupiedFrom b .buy index = occupiedFrom b .buy r ∧
        (b.level .buy r).count ≠ 0 := by
  induction index with
  | zero =>
    simp only [OrderBook.skipDown, h.getLevel .buy hi, bind, Except.bind]
    by_cases hc : (b.level .buy 0).count = 0
    · exact ⟨none, if_pos hc, fun _ => by rw [occupiedFrom_of_empty hi hc]; rfl, by simp⟩
    · refine ⟨some 0, if_neg hc, by simp, fun r hr => ?_⟩
      cases hr
      exact ⟨le_rfl, rfl, hc⟩
  | succ index ih =>
    simp only [OrderBook.skipDown, h.getLevel .buy hi, bind, Except.bind]
    by_cases hc : (b.level .buy (index + 1)).count = 0
    · obtain ⟨o, ho, hnone, hsome⟩ := ih (by omega)
      have hstep : occupiedFrom b .buy (index + 1) = occupiedFrom b .buy index :=
        occupiedFrom_of_empty hi hc
      rw [hstep]
      refine ⟨o, by rw [if_pos hc, ho], hnone, fun r hr => ?_⟩
      obtain ⟨hle, hrest⟩ := hsome r hr
      exact ⟨by omega, hrest⟩
    · refine ⟨some (index + 1), if_neg hc, by simp, fun r hr => ?_⟩
      cases hr
      exact ⟨le_rfl, rfl, hc⟩

theorem Core.crosses_eq (h : Core b q) (hi : i < b.priceCount) :
    b.crosses a limit i = crossesPrice a limit (b.config.indexPrice i) := by
  rw [OrderBook.crosses, if_neg (h.ladder.index_ne_noPrice hi)]

/-- The walk over levels of the side that `a` meets. -/
abbrev OrderBook.walk (b : OrderBook) (a : Side) (limit : Price) (quantity : Quantity) (l : List ℕ)
    (available : Quantity) : List Visit × Bool :=
  walkLevels (fun i => (b.level a.opposite i).totalQuantity)
    (fun i => crossesPrice a limit (b.config.indexPrice i)) quantity l available

/-- A level that crosses and does not suffice is added to what is available; then the loop ends, or
it goes on at the next level with orders. -/
theorem Core.fillVisits_next (h : Core b q) {quantity available : Quantity} (fuel : ℕ) {index : ℕ}
    (hi : index < b.priceCount) (hc : crossesPrice a limit (b.config.indexPrice index) = true)
    (hless : ¬ (b.level a.opposite index).totalQuantity ≥ quantity - available) :
    (b.fillVisits a limit quantity (b.levels a.opposite) (fuel + 1) index available =
        .ok ([⟨index, available⟩], false) ∧ occupiedAfter b a.opposite index = []) ∨
    ∃ r < b.priceCount, (b.level a.opposite r).count ≠ 0 ∧
      b.fillVisits a limit quantity (b.levels a.opposite) (fuel + 1) index available =
        ((b.fillVisits a limit quantity (b.levels a.opposite) fuel r
          (available + (b.level a.opposite index).totalQuantity)).bind fun p =>
            .ok (⟨index, available⟩ :: p.1, p.2)) ∧
      occupiedAfter b a.opposite index = occupiedFrom b a.opposite r ∧
      (levelsFrom a.opposite b.priceCount r).length ≤
        (levelsAfter a.opposite b.priceCount index).length := by
  rw [OrderBook.fillVisits, h.crosses_eq hi, if_pos ⟨h.ladder.index_ne_noPrice hi, hc⟩]
  simp only [h.getLevel a.opposite hi, bind, Except.bind, if_neg hless]
  cases a with
  | buy =>
    simp only [Side.opposite]
    by_cases hend : index + 1 ≥ b.priceCount
    · refine Or.inl ⟨if_pos hend, ?_⟩
      rw [occupiedAfter, levelsAfter, Nat.sub_eq_zero_of_le hend]
      rfl
    · obtain ⟨r, hr, hle, heq, hne⟩ := h.skipUp (b.priceCount + 1) (index + 1) (by omega)
        (by omega)
      rw [if_neg hend, hr]
      by_cases hrn : r ≥ b.priceCount
      · refine Or.inl ⟨if_pos hrn, heq.trans ?_⟩
        rw [occupiedFrom, levelsFrom, Nat.sub_eq_zero_of_le hrn]
        rfl
      · refine Or.inr ⟨r, by omega, hne (by omega), if_neg hrn, heq, ?_⟩
        simp only [levelsFrom, levelsAfter, List.length_range']
        omega
  | sell =>
    simp only [Side.opposite]
    cases index with
    | zero => exact Or.inl ⟨rfl, rfl⟩
    | succ index =>
      obtain ⟨o, ho, hnone, hsome⟩ := h.skipDown index (by omega)
      simp only [ho]
      cases o with
      | none => exact Or.inl ⟨rfl, hnone rfl⟩
      | some r =>
        obtain ⟨hle, heq, hne⟩ := hsome r rfl
        refine Or.inr ⟨r, by omega, hne, rfl, heq, ?_⟩
        simp only [levelsFrom, levelsAfter, List.length_reverse, List.length_range]
        omega

/-- **The loop walks the levels with orders**, best first, and every level it looks at is there. -/
theorem Core.fillVisits (h : Core b q) {quantity : Quantity} (fuel index : ℕ) (available : Quantity)
    (hi : index < b.priceCount) (hne : (b.level a.opposite index).count ≠ 0)
    (hf : (levelsFrom a.opposite b.priceCount index).length ≤ fuel) :
    b.fillVisits a limit quantity (b.levels a.opposite) fuel index available =
      .ok (b.walk a limit quantity (occupiedFrom b a.opposite index) available) := by
  induction fuel generalizing index available with
  | zero =>
    rw [levelsFrom_eq hi] at hf
    cases hf
  | succ fuel ih =>
    rw [occupiedFrom_of_ne hi hne, OrderBook.walk, walkLevels]
    by_cases hc : crossesPrice a limit (b.config.indexPrice index) = true
    · rw [levelsFrom_eq hi, List.length_cons] at hf
      rw [if_pos hc]
      by_cases henough : (b.level a.opposite index).totalQuantity ≥ quantity - available
      · rw [OrderBook.fillVisits, h.crosses_eq hi, if_pos ⟨h.ladder.index_ne_noPrice hi, hc⟩,
          if_pos henough]
        simp only [h.getLevel a.opposite hi, bind, Except.bind, if_pos henough]
      · rw [if_neg henough]
        rcases h.fillVisits_next fuel hi hc henough with ⟨hstop, hnil⟩ | ⟨r, hr, hrne, hgo, heq, hlen⟩
        · rw [hstop, hnil]
          rfl
        · rw [hgo, ih r _ hr hrne (by omega), heq]
          rfl
    · rw [OrderBook.fillVisits, h.crosses_eq hi, if_neg fun hh => hc hh.2, if_neg hc]

/-- The levels of the side that `a` meets which have orders and cross, best first. -/
def crossingLevels (b : OrderBook) (a : Side) (limit : Price) : List ℕ :=
  (bestFirst a.opposite b.priceCount).filter fun i =>
    (b.level a.opposite i).count ≠ 0 ∧ crossesPrice a limit (b.config.indexPrice i) = true

theorem bestFirst_sorted (s : Side) (n : ℕ) : (bestFirst s n).Pairwise s.Ahead := by
  cases s with
  | sell => exact List.pairwise_lt_range
  | buy => exact List.pairwise_reverse.mpr List.pairwise_lt_range

/-- **What `can_fully_fill` does**: it reads crossing levels and finds whether they suffice. -/
theorem Core.preflight (h : Core b q) (a : Side) (limit : Price) {quantity : Quantity}
    (hq : 0 < quantity) : ∃ index visits answer, b.bestIndex a.opposite = .ok index ∧
      b.fillVisits a limit quantity (b.levels a.opposite) (b.priceCount + 1) index 0 =
        .ok (visits, answer) ∧
      Walked (fun i => (b.level a.opposite i).totalQuantity) quantity (crossingLevels b a limit) 0
        visits answer := by
  obtain ⟨i, hi, hcase⟩ := h.bestIndex a.opposite
  have hpos := UInt64.lt_iff_toNat_lt.mp hq
  have hzero : (0 : UInt64).toNat = 0 := rfl
  rcases hcase with ⟨rfl, hempty⟩ | ⟨hin, hne, hahead⟩
  · have hnil : crossingLevels b a limit = [] := by
      rw [crossingLevels, List.filter_eq_nil_iff]
      intro j hj
      simp [(h.count_eq_zero (mem_bestFirst.mp hj)).mpr (hempty j)]
    refine ⟨noPrice, [], false, hi, ?_, ?_⟩
    · rw [OrderBook.fillVisits, if_neg fun hc => hc.1 rfl]
    · rw [hnil]
      exact ⟨by simp; omega, List.prefix_rfl, fun _ => rfl, by simp⟩
  · have hcount : (b.level a.opposite i).count ≠ 0 := fun hc => hne ((h.count_eq_zero hin).mp hc)
    have hlen : (levelsFrom a.opposite b.priceCount i).length ≤ b.priceCount + 1 := by
      cases a <;> simp [levelsFrom, Side.opposite] <;> omega
    refine ⟨i, _, _, hi, h.fillVisits _ i 0 hin hcount hlen, ?_⟩
    -- the levels ahead of the best one have no orders
    obtain ⟨l, hl, hbefore⟩ := bestFirst_split (s := a.opposite) hin
    have hsorted := bestFirst_sorted a.opposite b.priceCount
    have hlevels : crossingLevels b a limit =
        (occupiedFrom b a.opposite i).filter fun j =>
          crossesPrice a limit (b.config.indexPrice j) := by
      have hnil : l.filter (fun i => (b.level a.opposite i).count ≠ 0 ∧
          crossesPrice a limit (b.config.indexPrice i) = true) = [] := by
        rw [List.filter_eq_nil_iff]
        intro j hj
        have hjn : j < b.priceCount := mem_bestFirst.mp (hl ▸ List.mem_append_left _ hj)
        simp [(h.count_eq_zero hjn).mpr (hahead j (hbefore j hj))]
      rw [crossingLevels, hl, List.filter_append, hnil, List.nil_append, occupiedFrom,
        List.filter_filter]
      refine List.filter_congr fun j _ => ?_
      simp [and_comm]
    rw [hlevels, ← hzero]
    refine walkLevels_walked (List.Pairwise.filter _ ?_) hq
    rw [hl] at hsorted
    refine (List.pairwise_append.mp hsorted).2.1.imp_of_mem fun {j k} hj hk hjk hck => ?_
    obtain ⟨hjn, -⟩ := mem_levelsFrom hin hj
    obtain ⟨hkn, -⟩ := mem_levelsFrom hin hk
    by_contra hcj
    rw [h.not_crosses_behind hjn hkn hjk (by simpa using hcj)] at hck
    cases hck

theorem Core.sum_crossingLevels (h : Core b q) (a : Side) (limit : Price) :
    ((crossingLevels b a limit).map fun i => (b.level a.opposite i).totalQuantity.toNat).sum =
      crossTotal b a limit (bestFirst a.opposite b.priceCount) := by
  have hsum : ∀ l : List ℕ, (∀ i ∈ l, i < b.priceCount) →
      ((l.filter fun i => (b.level a.opposite i).count ≠ 0 ∧
        crossesPrice a limit (b.config.indexPrice i) = true).map fun i =>
          (b.level a.opposite i).totalQuantity.toNat).sum = crossTotal b a limit l := by
    intro l hl
    induction l with
    | nil => rfl
    | cons i l ih =>
      have hrest := ih fun j hj => hl j (List.mem_cons_of_mem _ hj)
      have hi := hl i List.mem_cons_self
      by_cases hcount : (b.level a.opposite i).count = 0
      · -- a level without orders holds nothing
        have htotal : (b.level a.opposite i).totalQuantity = 0 := by
          rw [h.total_eq hi, (h.count_eq_zero hi).mp hcount]
          rfl
        rw [List.filter_cons_of_neg (by simp [hcount]), hrest]
        simp [crossTotal, htotal]
      · by_cases hc : crossesPrice a limit (b.config.indexPrice i) = true
        · rw [List.filter_cons_of_pos (by simp [hcount, hc]), List.map_cons, List.sum_cons, hrest]
          simp [crossTotal, hc]
        · rw [List.filter_cons_of_neg (by simp [hc]), hrest]
          simp [crossTotal, hc]
  exact hsum _ fun i hi => mem_bestFirst.mp hi

theorem canFullyFill_of_visits {quantity : Quantity} {index : ℕ} {visits : List Visit} {answer : Bool}
    (hbest : b.bestIndex a.opposite = .ok index)
    (hvisits : b.fillVisits a limit quantity (b.levels a.opposite) (b.priceCount + 1) index 0 =
      .ok (visits, answer)) : b.canFullyFill a limit quantity = .ok answer := by
  simp only [OrderBook.canFullyFill, hbest, bind, Except.bind, fillWalk_eq, hvisits, Except.map]

theorem Core.canFullyFill (h : Core b q) (a : Side) (limit : Price) {quantity : Quantity}
    (hq : quantity ≠ 0) : b.canFullyFill a limit quantity =
      .ok (decide (quantity.toNat ≤ crossTotal b a limit (bestFirst a.opposite b.priceCount))) := by
  obtain ⟨index, visits, answer, hbest, hvisits, hw⟩ :=
    h.preflight a limit (UInt64.pos_iff_ne_zero.mpr hq)
  have hdec := hw.decides
  rw [h.sum_crossingLevels, Nat.zero_add] at hdec
  rw [canFullyFill_of_visits hbest hvisits, Except.ok.injEq, Bool.eq_iff_iff, hdec, decide_eq_true_iff]

/-- **The preflight is exact.** In every well-formed book, for every side, limit and positive quantity:
`can_fully_fill` returns, with every index it reads in the ladder, and answers `true` just when the
totals of the crossing levels with orders sum to the quantity or more. Its rounds read these levels best
first and without a gap, all of them if the answer is `false`. Each round begins with the exact sum of
the totals read before it, which is less than the quantity, so that the subtraction does not underflow;
where the round does not end with `true` the next sum is less than the quantity too, so that the
addition does not wrap. -/
theorem preflight_exact (h : Core b q) (a : Side) (limit : Price) (quantity : Quantity)
    (hq : 0 < quantity) : ∃ index visits answer,
    b.canFullyFill a limit quantity = .ok answer ∧
    b.bestIndex a.opposite = .ok index ∧
    b.fillVisits a limit quantity (b.levels a.opposite) (b.priceCount + 1) index 0 =
      .ok (visits, answer) ∧
    (answer = true ↔ quantity.toNat ≤ ((crossingLevels b a limit).map fun i =>
      (b.level a.opposite i).totalQuantity.toNat).sum) ∧
    visits.map Visit.index <+: crossingLevels b a limit ∧
    (answer = false → visits.map Visit.index = crossingLevels b a limit) ∧
    ∀ before v after, visits = before ++ v :: after →
      v.index < b.priceCount ∧
      v.available.toNat =
        (before.map fun v => (b.level a.opposite v.index).totalQuantity.toNat).sum ∧
      v.available < quantity ∧
      (after ≠ [] ∨ answer = false → v.available.toNat +
        (b.level a.opposite v.index).totalQuantity.toNat < quantity.toNat) := by
  obtain ⟨index, visits, answer, hbest, hvisits, hw⟩ := h.preflight a limit hq
  have hdec := hw.decides
  rw [Nat.zero_add] at hdec
  refine ⟨index, visits, answer, canFullyFill_of_visits hbest hvisits, hbest, hvisits, hdec, hw.order,
    hw.all, fun before v after heq => ?_⟩
  have hsums := hw.sums before v after heq
  rw [Nat.zero_add] at hsums
  refine ⟨?_, hsums⟩
  have hmem : v.index ∈ crossingLevels b a limit :=
    hw.order.subset (List.mem_map_of_mem (by rw [heq]; simp))
  exact mem_bestFirst.mp (List.mem_filter.mp hmem).1

theorem Core.of_addResting (h : Core b q) {b' : OrderBook} {id : OrderId} {s : Side} {price : Price}
    {quantity : Quantity} {priority : Sequence} {events events' : List Event}
    (hv : b.config.validPrice price = true) (hid : ∀ t i, ∀ n ∈ q t i, (b.node n).id ≠ id)
    (hadd : b.addResting id s price quantity priority events = .ok (b', events')) :
    ∃ q', Core b' q' ∧ b'.config = b.config ∧ ∀ t i, ∀ n ∈ q' t i,
      (b'.node n).id = id ∨ ∃ t i, n ∈ q t i ∧ (b'.node n).id = (b.node n).id := by
  have hno : ∀ m, ¬ b.orderIndex.Has id m := by
    intro m hm
    obtain ⟨t, i, hmem, heq⟩ := (h.index id m).mp hm
    exact hid t i m hmem heq
  cases hfree : b.freeNodes with
  | nil =>
    rw [OrderBook.addResting, hfree] at hadd
    cases hadd
  | cons n rest =>
    obtain ⟨b₁, hadd₁, hcore, hconfig, -, -, -, hnew, hother⟩ :=
      h.addResting (s := s) quantity priority events hv hno hfree
    cases hadd.symm.trans hadd₁
    refine ⟨_, hcore, hconfig, fun t i m hm => ?_⟩
    by_cases hmn : m = n
    · rw [hmn]
      exact Or.inl (congrArg RestingOrder.orderId hnew)
    · refine Or.inr ⟨t, i, ?_, congrArg RestingOrder.orderId (hother m hmn)⟩
      by_cases hlevel : t = s ∧ i = b.config.priceIndex price
      · obtain ⟨rfl, rfl⟩ := hlevel
        rw [setQueue_self] at hm
        simpa [hmn] using hm
      · rwa [setQueue_of_ne _ _ hlevel] at hm

/-- A buy order for five walks from an order of three to an order of four at the next price. -/
theorem preflight_exact_two_levels : ∃ b q, Core b q ∧ b.canFullyFill .buy 3 5 = .ok true ∧
    b.fillVisits .buy 3 5 (b.levels .sell) (b.priceCount + 1) 1 0 = .ok ([⟨1, 0⟩, ⟨2, 3⟩], true) ∧
    [1, 2] <+: crossingLevels b .buy 3 ∧ (b.level .sell 1).totalQuantity.toNat = 3 ∧
    5 ≤ ((crossingLevels b .buy 3).map fun i => (b.level .sell i).totalQuantity.toNat).sum := by
  have hrun : (do
      let b₀ ← OrderBook.new ⟨1, 4, 1, 2⟩
      let r₁ ← b₀.addResting 7 .sell 2 3 1 []
      let r₂ ← r₁.1.addResting 8 .sell 3 4 2 []
      let index ← r₂.1.bestIndex .sell
      let r ← r₂.1.fillVisits .buy 3 5 (r₂.1.levels .sell) (r₂.1.priceCount + 1) index 0
      .ok (index, r)) = .ok (1, [⟨1, 0⟩, ⟨2, 3⟩], true) := by decide +kernel
  obtain ⟨b₀, hnew, hrun⟩ := bind_eq_ok.mp hrun
  obtain ⟨⟨b₁, evs₁⟩, hadd₁, hrun⟩ := bind_eq_ok.mp hrun
  obtain ⟨⟨b, evs⟩, hadd, hrun⟩ := bind_eq_ok.mp hrun
  obtain ⟨index, hindex, hrun⟩ := bind_eq_ok.mp hrun
  obtain ⟨r, hvisits, hrun⟩ := bind_eq_ok.mp hrun
  obtain ⟨rfl, rfl⟩ := Prod.mk.inj (Except.ok.inj hrun)
  obtain ⟨hinv, hconfig, -⟩ := Inv.new hnew
  obtain ⟨q₁, hcore₁, hconfig₁, hids⟩ := hinv.toCore.of_addResting (by rw [hconfig]; decide)
    (fun t i n hn => by cases hn) hadd₁
  obtain ⟨q, hcore, -⟩ := hcore₁.of_addResting (by rw [hconfig₁, hconfig]; decide) (fun t i n hn => by
    rcases hids t i n hn with hseven | ⟨t, i, hmem, -⟩
    · rw [hseven]
      decide
    · cases hmem) hadd
  obtain ⟨index, visits, answer, hfill, hindex', hvisits', hsum, horder, -, hrounds⟩ :=
    preflight_exact hcore .buy 3 5 (by decide)
  cases hindex.symm.trans hindex'
  cases hvisits.symm.trans hvisits'
  have hsecond := (hrounds [⟨1, 0⟩] ⟨2, 3⟩ [] rfl).2.1
  rw [List.map_singleton, List.sum_singleton] at hsecond
  exact ⟨b, q, hcore, hfill, hvisits, horder, hsecond.symm, hsum.mp rfl⟩

end Dme
