import MatchingEngine.Journal
import MatchingEngine.Priority

/-!
# Snapshots

`write_snapshot` and `read_snapshot` of `journal.cpp`. A snapshot file is taken record by record, as
it is read back; `bytes` is the object representation of a resting order.

* `OrderBook.writeSnapshot`, `readSnapshot`.
* `Alike b b'`: two books that no caller can tell apart.
* **`Inv.reload`**: the orders of a book, restored into a new one, give the same market.
* **`snapshot_round_trip`**.
-/

set_option autoImplicit false

namespace Dme

/-- What the files of the engine begin with. -/
structure FileHeader where
  magic : String
  version : UInt32 := 1
  recordSize : UInt32
deriving DecidableEq, Repr

/-- The header of a snapshot; the checksum is that of the orders after it. -/
structure SnapshotHeader where
  file : FileHeader
  config : BookConfig
  lastSequence : Sequence
  orderCount : UInt64
  checksum : UInt64
deriving DecidableEq, Repr

/-- A snapshot file: its header and the records after it. -/
structure SnapshotFile where
  header : SnapshotHeader
  records : List RestingOrder
deriving DecidableEq, Repr

/-- `{'D','M','E','S','N','P','1','\0'}` -/
def snapshotMagic : String := "DMESNP1\x00"

/-- `sizeof(RestingOrder)`. -/
def restingOrderSize : UInt32 := 40

/-- The representation of a resting order on a little-endian machine, with zeros for padding. -/
def RestingOrder.bytes (o : RestingOrder) : List UInt8 :=
  littleEndian o.orderId ++ [o.side.code, 0, 0, 0, 0, 0, 0, 0] ++ littleEndian o.price.toUInt64 ++
    littleEndian o.quantity ++ littleEndian o.priority

section Files

variable (bytes : RestingOrder → List UInt8)

/-- `write_snapshot`, with the file as header and records. -/
def OrderBook.writeSnapshot (book : OrderBook) : Except Fault SnapshotFile := do
  let orders ← book.restingOrders
  .ok {
    header := {
      file := { magic := snapshotMagic, version := 1, recordSize := restingOrderSize }
      config := book.config
      lastSequence := book.stats.lastSequence
      orderCount := UInt64.ofNat orders.length
      checksum := checksumBytes (orders.flatMap bytes) }
    records := orders }

/-- `read_snapshot`, with the file as header and records. -/
def readSnapshot (file : SnapshotFile) : Except Fault OrderBook :=
  let header := file.header
  if header.file.magic ≠ snapshotMagic ∨ header.file.version ≠ 1 ∨
      header.file.recordSize ≠ restingOrderSize ∨
      header.orderCount > header.config.maximumOrders then
    .error (.runtimeError "invalid snapshot header")
  else if header.orderCount.toNat > maxSize 40 then
    .error (.lengthError "cannot create std::vector larger than max_size()")
  else
    let orders := file.records.take header.orderCount.toNat
    -- a short read leaves the stream in a failed state
    if file.records.length < header.orderCount.toNat ∨
        header.checksum ≠ checksumBytes (orders.flatMap bytes) then
      .error (.runtimeError "corrupt snapshot")
    else do
      let book ← OrderBook.new header.config
      match book.restore header.lastSequence orders with
      | (book, .ok ()) => .ok book
      | (_, .error e) => .error e

end Files

/-! ## Books that cannot be told apart -/

/-- **Two books that read the same and answer every list of commands with the same events.** -/
structure Alike (b b' : OrderBook) : Prop where
  config : b'.config = b.config
  lastSequence : b'.stats.lastSequence = b.stats.lastSequence
  queueAt : ∀ s i, b'.queueAt s i = b.queueAt s i
  restingOrders : b'.restingOrders = b.restingOrders
  bestBid : b'.bestBid = b.bestBid
  bestAsk : b'.bestAsk = b.bestAsk
  quantityAt : ∀ s p, b'.quantityAt s p = b.quantityAt s p
  events : ∀ cs, ∃ b₁ b₁' evs, b.run cs = .ok (b₁, evs) ∧ b'.run cs = .ok (b₁', evs)

variable {b b' : OrderBook} {q q' : Queues}

theorem Core.queueAt_outside (h : Core b q) (s : Side) {i : ℕ} (hi : ¬ i < b.priceCount) :
    b.queueAt s i = .error .outOfRange := by
  have hnone : (b.levels s)[i]? = none := by
    rw [Array.getElem?_eq_none_iff, h.levels_size]
    omega
  simp [OrderBook.queueAt, vecGet, hnone, bind, Except.bind]

theorem Inv.alike (h : Inv b q) (h' : Inv b' q') (hm : b'.market q' = b.market q) : Alike b b' := by
  have hc : b'.config = b.config := congrArg Market.config hm
  have hcount := h.priceCount_eq h'.toCore hc
  refine ⟨hc, congrArg Market.lastSequence hm, fun s i => ?_, ?_, ?_, ?_, fun s p => ?_, fun cs => ?_⟩
  · by_cases hi : i < b.priceCount
    · rw [h.queueAt s hi, h'.queueAt s (hcount ▸ hi), hm, hc]
    · rw [h.queueAt_outside s hi, h'.queueAt_outside s (hcount ▸ hi)]
  · rw [h.restingOrders, h'.restingOrders, hm, hcount]
  · rw [h.bestBid, h'.bestBid, hm]
  · rw [h.bestAsk, h'.bestAsk, hm]
  · rw [h.quantityAt, h'.quantityAt, hm]
  · obtain ⟨b₁, q₁, hrun, -⟩ := h.run cs
    obtain ⟨b₁', q₁', hrun', -⟩ := h'.run cs
    exact ⟨b₁, b₁', _, hrun, hm ▸ hrun'⟩

/-! ## The round trip -/

theorem Core.filter_orders (h : Core b q) (s : Side) (p : Price) :
    (((b.market q).orders b.priceCount).filter fun o => o.side = s ∧ o.price = p).Perm
      (atPrice (b.depth q s) p) := by
  have := h.filter_side s fun o => o.price = p
  simpa [atPrice] using this

/-- **The levels of a book from its orders**: sorted by priority, those of a level are the level. -/
theorem Core.level_of_orders (h : Core b q) (hr : Ranked (· < ·) (b.depth q)) (s : Side) (p : Price) :
    (byPriority ((b.market q).orders b.priceCount)).filter (fun o => o.side = s ∧ o.price = p) =
      atPrice (b.depth q s) p := by
  have hlevel : (atPrice (b.depth q s) p).Pairwise fun x y => x.priority < y.priority := by
    refine ((hr s).filter _).imp_of_mem fun {x y} hx hy hxy => hxy ?_
    rw [of_decide_eq_true (List.mem_filter.mp hx).2, of_decide_eq_true (List.mem_filter.mp hy).2]
  have hperm := ((byPriority_perm _).filter fun o => decide (o.side = s ∧ o.price = p)).trans
    (h.filter_orders s p)
  -- the two lists have the same elements, and priorities order both strictly
  have hne : (atPrice (b.depth q s) p).Pairwise fun x y => x.priority ≠ y.priority :=
    hlevel.imp fun hlt => UInt64.ne_of_lt hlt
  have hsorted := ((byPriority_sorted _).filter _).and
    ((hperm.pairwise_iff fun {x y} hxy => Ne.symm hxy).mpr hne)
  refine hperm.eq_of_pairwise (fun x y _ _ hxy hyx => ?_)
    (hsorted.imp fun hxy => UInt64.lt_of_le_of_ne hxy.1 hxy.2) hlevel
  exact absurd hyx (UInt64.lt_asymm hxy)

/-- **The orders of a book, restored into a new one.** -/
theorem Inv.reload (h : Inv b q) (ha : (b.market q).Aged (· < ·)) :
    ∃ b₀ b' q', OrderBook.new b.config = .ok b₀ ∧
      b₀.restore b.stats.lastSequence ((b.market q).orders b.priceCount) = (b', .ok ()) ∧
      Inv b' q' ∧ b'.market q' = b.market q := by
  obtain ⟨b₀, hnew⟩ := OrderBook.new_isOk h.checked h.allocated
  obtain ⟨hinv₀, hc₀, hstats₀⟩ := Inv.new hnew
  have hlen : ((b.market q).orders b.priceCount).length ≤ b₀.config.maximumOrders.toNat := by
    rw [hc₀]
    exact h.orders_length_le
  have hall : ∀ o ∈ (b.market q).orders b.priceCount,
      Restorable b₀.config b.stats.lastSequence o := by
    intro o ho
    have hd := h.mem_orders.mp ho
    obtain ⟨i, n, hn, rfl⟩ := h.mem_depth.mp hd
    refine ⟨?_, h.positive _ i n hn, ha.past _ _ hd⟩
    rw [hc₀, h.order_price hn]
    exact h.ladder.validPrice_indexPrice (h.lt_of_mem hn)
  obtain ⟨b', hrestore⟩ := hinv₀.restore_isOk (by rw [hstats₀]) (by rw [hstats₀]) hlen hall h.ids_nodup
  obtain ⟨q', hinv, hc, hdepth, hstats, -⟩ := hinv₀.restore_ok hrestore
  refine ⟨b₀, b', q', hnew, hrestore, hinv, ?_⟩
  have hd : b'.depth q' = b.depth q := h.depth_ext hinv.toCore (hc.trans hc₀) fun s p => by
    rw [hdepth, atPrice_enqueueAll fun _ => List.Pairwise.nil]
    exact h.level_of_orders ha.ranked s p
  rw [OrderBook.market, OrderBook.market, hd, hc, hc₀, hstats]

theorem Inv.readSnapshot (h : Inv b q) (ha : (b.market q).Aged (· < ·))
    (bytes : RestingOrder → List UInt8) :
    ∃ file b' q', b.writeSnapshot bytes = .ok file ∧ Dme.readSnapshot bytes file = .ok b' ∧
      Inv b' q' ∧ b'.market q' = b.market q := by
  obtain ⟨b₀, b', q', hnew, hrestore, hinv, hm⟩ := h.reload ha
  refine ⟨_, b', q', by rw [OrderBook.writeSnapshot, h.restingOrders]; rfl, ?_, hinv, hm⟩
  have hlen := h.orders_length_le
  have hcount : (UInt64.ofNat ((b.market q).orders b.priceCount).length).toNat =
      ((b.market q).orders b.priceCount).length :=
    UInt64.toNat_ofNat_of_lt' (hlen.trans_lt b.config.maximumOrders.toNat_lt)
  have hroom : ¬ UInt64.ofNat ((b.market q).orders b.priceCount).length > b.config.maximumOrders := by
    rw [gt_iff_lt, UInt64.lt_iff_toNat_lt, hcount]
    omega
  have hsmall : ¬ ((b.market q).orders b.priceCount).length > maxSize 40 := by
    have hle := h.ladder.orders_le
    norm_num [maxSize, uint32Max] at hle ⊢
    omega
  simp only [Dme.readSnapshot, ne_eq, not_true_eq_false, hroom, or_self, if_false, hcount, hsmall,
    List.take_length, lt_irrefl, hnew, hrestore, bind, Except.bind]

/-- **A snapshot round trip** of a book reached by fewer than `2 ^ 64` commands returns a book that
cannot be told from the original. -/
theorem snapshot_round_trip {config : BookConfig} {b₀ : OrderBook}
    (hnew : OrderBook.new config = .ok b₀) (bytes : RestingOrder → List UInt8)
    (cs : List Command) (hlen : cs.length < 2 ^ 64) :
    ∃ b evs file b', b₀.run cs = .ok (b, evs) ∧ b.writeSnapshot bytes = .ok file ∧
      readSnapshot bytes file = .ok b' ∧ Alike b b' := by
  have hlt : inSequence 0 cs < 2 ^ 64 := (inSequence_le 0 cs).trans_lt (by rwa [Nat.zero_add])
  obtain ⟨b, q, hrun, hinv, ha, -⟩ := new_run hnew cs hlt
  obtain ⟨file, b', q', hwrite, hread, hinv', hm⟩ := hinv.readSnapshot ha bytes
  exact ⟨b, _, file, b', hrun, hwrite, hread, hinv.alike hinv' hm⟩

/-- The snapshot of a book with one order. -/
theorem snapshot_round_trip_one_order : ∃ b₀ b evs file b', OrderBook.new ⟨1, 4, 1, 2⟩ = .ok b₀ ∧
    b₀.run [⟨1, .new, .buy, .limit, 0, 7, 2, 5⟩] = .ok (b, evs) ∧
    b.writeSnapshot RestingOrder.bytes = .ok file ∧
    readSnapshot RestingOrder.bytes file = .ok b' ∧ Alike b b' := by
  obtain ⟨b₀, hnew⟩ := OrderBook.new_isOk (by decide : checkedPriceCount ⟨1, 4, 1, 2⟩ = .ok 4) (by decide)
  obtain ⟨b, evs, file, b', h⟩ := snapshot_round_trip hnew RestingOrder.bytes
    [⟨1, .new, .buy, .limit, 0, 7, 2, 5⟩] (by decide)
  exact ⟨b₀, b, evs, file, b', hnew, h⟩

end Dme
