import MatchingEngine.Restore

/-!
# Priorities along a level

* `Market.Aged R m`: along each price of a market the priorities are related by `R`, and none is past the
  last sequence. `R` is `≤` after a restore and `<` from a new book on.
* `Market.Aged.process`, **`Market.Aged.run`**: commands keep it while the sequence does not wrap.
* `ranked_restored`, `ranked_lt_restored`: what a restore leaves.
-/

set_option autoImplicit false

namespace Dme

variable {R : Sequence → Sequence → Prop} {d d' : Depth} {o : RestingOrder} {s : Side}

/-- Along each price, the priorities are related by `R`. -/
def Ranked (R : Sequence → Sequence → Prop) (d : Depth) : Prop :=
  ∀ s, (d s).Pairwise fun x y => x.price = y.price → R x.priority y.priority

theorem Shrinks.ranked (h : Shrinks d d') (hd : Ranked R d) : Ranked R d' := by
  intro s
  refine h.pairwise (fun x y x' y' hx hy hxy => ?_) s (hd s)
  obtain ⟨-, -, hpx, hrx⟩ : _ ∧ _ ∧ x.price = x'.price ∧ x.priority = x'.priority := by
    simpa [key] using hx
  obtain ⟨-, -, hpy, hry⟩ : _ ∧ _ ∧ y.price = y'.price ∧ y.priority = y'.priority := by
    simpa [key] using hy
  rw [← hpx, ← hpy, ← hrx, ← hry]
  exact hxy

theorem Ranked.enqueue (hd : Ranked R d) (hs : ∀ s, BestFirst s (d s))
    (ho : ∀ x ∈ d o.side, x.price = o.price → R x.priority o.priority) :
    Ranked R (enqueue d o) := by
  intro s
  rw [Dme.enqueue]
  by_cases hside : s = o.side
  · subst hside
    obtain ⟨A, B, hAB, hins, -, hB⟩ := orderedInsert_split (hs o.side) o
    have hall := hd o.side
    rw [hAB, List.pairwise_append] at hall
    rw [Function.update_self, hins, List.pairwise_append, List.pairwise_cons]
    refine ⟨hall.1, ⟨fun y hy hp => ?_, hall.2.1⟩, fun x hx y hy => ?_⟩
    · have := hB y hy
      rw [hp, better_irrefl] at this
      cases this
    · rcases List.mem_cons.mp hy with rfl | hy
      · exact ho x (by rw [hAB]; exact List.mem_append_left _ hx)
      · exact hall.2.2 x hx y hy
  · rw [Function.update_of_ne hside]
    exact hd s

theorem Ranked.enqueueAll {orders : List RestingOrder} (hd : Ranked R d)
    (hs : ∀ s, BestFirst s (d s))
    (ho : ∀ o ∈ orders, ∀ x ∈ d o.side, x.price = o.price → R x.priority o.priority)
    (hr : orders.Pairwise fun x y => x.side = y.side → x.price = y.price →
      R x.priority y.priority) : Ranked R (enqueueAll d orders) := by
  induction orders generalizing d with
  | nil => exact hd
  | cons o orders ih =>
    obtain ⟨hfirst, hrest⟩ := List.pairwise_cons.mp hr
    refine ih (hd.enqueue hs (ho o List.mem_cons_self)) (BestFirst.enqueue hs o) ?_ hrest
    intro y hy x hx hp
    rcases mem_enqueue.mp hx with ⟨rfl, hside⟩ | hx
    · exact hfirst y hy hside.symm hp
    · exact ho y (List.mem_cons_of_mem _ hy) x hx hp

/-! ## Markets -/

namespace Market

variable {m : Market}

/-- **The priorities of a market**: ranked by `R` along each price, and none past the last
sequence. -/
structure Aged (R : Sequence → Sequence → Prop) (m : Market) : Prop where
  ranked : Ranked R m.depth
  past : ∀ s, ∀ x ∈ m.depth s, x.priority ≤ m.lastSequence

/-- **One command keeps the priorities in order**, unless the sequence wraps. -/
theorem Aged.process (h : m.Aged R) (hR : ∀ a b, a < b → R a b)
    (hs : ∀ s, BestFirst s (m.depth s)) (c : Command)
    (hwrap : m.lastSequence ≤ (m.process c).1.lastSequence) : (m.process c).1.Aged R := by
  have hlast := m.process_lastSequence c
  by_cases hseq : c.sequence = m.lastSequence + 1
  · rw [if_pos hseq] at hlast
    have hlt : m.lastSequence < c.sequence := by grind
    have hpast : ∀ d, Shrinks m.depth d → ∀ s, ∀ x ∈ d s, x.priority ≤ m.lastSequence := by
      intro d hd s x hx
      obtain ⟨y, hy, he⟩ := hd.mem hx
      rw [← show y.priority = x.priority from congrArg (fun k => k.2.2.2) he]
      exact h.past s y hy
    rw [Market.process, if_neg (not_not.mpr hseq)]
    cases hp : m.perform c with
    | error r => exact ⟨h.ranked, fun s x hx => UInt64.le_trans (h.past s x hx) (UInt64.le_of_lt hlt)⟩
    | ok r =>
      obtain ⟨d', evs⟩ := r
      obtain ⟨d, hd, rfl | ⟨o, rfl, hj⟩⟩ := perform_shape hs hp
      · exact ⟨hd.ranked h.ranked,
          fun s x hx => UInt64.le_trans (hpast _ hd s x hx) (UInt64.le_of_lt hlt)⟩
      · refine ⟨(hd.ranked h.ranked).enqueue (hd.bestFirst hs) fun x hx _ => ?_, fun s x hx => ?_⟩
        · rw [hj.priority]
          exact hR _ _ (UInt64.lt_of_le_of_lt (hpast d hd _ x hx) hlt)
        · rcases mem_enqueue.mp hx with ⟨rfl, -⟩ | hx
          · exact hj.priority ▸ UInt64.le_refl _
          · exact UInt64.le_trans (hpast d hd s x hx) (UInt64.le_of_lt hlt)
  · rw [Market.process, if_pos hseq]
    exact h

/-- **A run in which the sequence does not wrap keeps the priorities in order.** -/
theorem Aged.run {n : ℕ} (h : m.Aged R) (hR : ∀ a b, a < b → R a b)
    (hs : ∀ s, BestFirst s (m.depth s)) (hn : m.lastSequence = UInt64.ofNat n) (cs : List Command)
    (hlt : inSequence n cs < 2 ^ 64) : (m.run cs).1.Aged R := by
  induction cs generalizing m n with
  | nil => exact h
  | cons c cs ih =>
    have hle := m.process_le hn c ((le_inSequence _ cs).trans_lt hlt)
    exact ih (h.process hR hs c hle) (process_bestFirst hs c) (process_inSequence hn c) hlt

theorem aged_of_empty (h : m.depth = fun _ => []) : m.Aged R := by
  refine ⟨fun s => ?_, fun s x hx => ?_⟩
  · rw [h]
    exact List.Pairwise.nil
  · rw [h] at hx
    cases hx

end Market

/-- **A run on a new book in which the sequence does not wrap**: priorities increase along each
level. -/
theorem new_run {config : BookConfig} {b₀ : OrderBook} (hnew : OrderBook.new config = .ok b₀)
    (cs : List Command) (hlt : inSequence 0 cs < 2 ^ 64) :
    ∃ b q, b₀.run cs = .ok (b, ((b₀.market fun _ _ => []).run cs).2) ∧ Inv b q ∧
      (b.market q).Aged (· < ·) ∧ b.market q = ((b₀.market fun _ _ => []).run cs).1 := by
  obtain ⟨hinv, -, hstats⟩ := Inv.new hnew
  obtain ⟨b, q, hrun, hb, hm, -⟩ := hinv.run cs
  refine ⟨b, q, hrun, hb, ?_, hm⟩
  rw [hm]
  refine (Market.aged_of_empty (hinv.empty_depth (by rw [hstats]))).run (fun _ _ h => h)
    hinv.depth_bestFirst (n := 0) ?_ cs hlt
  change b₀.stats.lastSequence = 0
  rw [hstats]

/-! ## After a restore -/

theorem ranked_restored (orders : List RestingOrder)
    (hr : (byPriority orders).Pairwise fun x y => x.side = y.side → x.price = y.price →
      R x.priority y.priority) :
    Ranked R (enqueueAll (fun _ => []) (byPriority orders)) :=
  Ranked.enqueueAll (fun _ => List.Pairwise.nil) (fun _ => List.Pairwise.nil)
    (fun _ _ _ hx => by cases hx) hr

theorem ranked_le_restored (orders : List RestingOrder) :
    Ranked (· ≤ ·) (enqueueAll (fun _ => []) (byPriority orders)) :=
  ranked_restored orders ((byPriority_sorted orders).imp fun hle _ _ => hle)

/-- Priorities that are distinct along each level. -/
def DistinctPriorities (orders : List RestingOrder) : Prop :=
  orders.Pairwise fun x y => x.side = y.side → x.price = y.price → x.priority ≠ y.priority

theorem ranked_lt_restored {orders : List RestingOrder} (h : DistinctPriorities orders) :
    Ranked (· < ·) (enqueueAll (fun _ => []) (byPriority orders)) := by
  have hne := ((byPriority_perm orders).pairwise_iff
    fun {x y} hxy hs hp => (hxy hs.symm hp.symm).symm).mpr h
  refine ranked_restored orders (((byPriority_sorted orders).and hne).imp fun hxy hs hp => ?_)
  exact UInt64.lt_of_le_of_ne hxy.1 (hxy.2 hs hp)

end Dme
