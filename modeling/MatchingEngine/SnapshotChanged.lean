import MatchingEngine.SnapshotBytes

/-!
# A snapshot with a byte changed

The checksum of a snapshot covers the orders only. A byte of the configuration, of the last sequence or of
the number of orders can be changed, and the snapshot is still restored, if the new value suits the rest.

* `BookConfig.Takes`: a configuration under which orders can rest, and for each of its members the values
  that keep it one: `MinimumFits`, `MaximumFits`, `TickFits`, `CapacityFits`.
* `withByte`, **`snapshotHeaderAt_set`**: the header of a file with a byte changed.
* `Unnoticed`: the changes that `read_snapshot` does not see, member by member.
* **`snapshot_corruption_detected_iff`**: it sees all others.
-/

set_option autoImplicit false

namespace Dme

open Protocol (word)
open Layout (slice)

/-! ## Configurations that take the orders of a book -/

/-- **When a book can be built**, as integers. -/
theorem BookConfig.buildable_iff {c : BookConfig} : c.Buildable ↔
    (0 < c.tickSize.toInt ∧ c.minimumPrice.toInt ≤ c.maximumPrice.toInt ∧
      c.maximumPrice.toInt - c.minimumPrice.toInt < 2 ^ 63 ∧
      c.tickSize.toInt ∣ c.maximumPrice.toInt - c.minimumPrice.toInt ∧
      (c.maximumPrice.toInt - c.minimumPrice.toInt) / c.tickSize.toInt < maxSize 24) ∧
    0 < c.maximumOrders.toNat ∧ c.maximumOrders.toNat ≤ uint32Max := by
  have hcount : ∀ n, Ladder c n →
      (c.maximumPrice.toInt - c.minimumPrice.toInt) / c.tickSize.toInt = (n - 1 : ℕ) := by
    intro n hl
    rw [hl.span, add_sub_cancel_left, Int.mul_ediv_cancel _ hl.tick_pos.ne']
  constructor
  · rintro ⟨n, hn, hle⟩
    have hl := ladder_of_checked hn
    have hspan := hl.span
    have hpos := hl.count_pos
    have hticks : 0 ≤ ((n - 1 : ℕ) : ℤ) * c.tickSize.toInt :=
      Int.mul_nonneg (Int.natCast_nonneg _) hl.tick_pos.le
    refine ⟨⟨hl.tick_pos, by omega, hl.span_lt, ?_, ?_⟩, hl.orders_pos, hl.orders_le⟩
    · rw [hspan, add_sub_cancel_left]
      exact Int.dvd_mul_left _ _
    · rw [hcount n hl]
      omega
  · rintro ⟨⟨htick, hle, hlt, hdvd, hsmall⟩, hpos, hmax⟩
    obtain ⟨n, hn⟩ := checkedPriceCount_isOk htick hle hlt hdvd hpos hmax
    rw [hcount n (ladder_of_checked hn)] at hsmall
    exact ⟨n, hn, by omega⟩

/-- A configuration under which all of `orders` can rest. -/
structure BookConfig.Takes (config : BookConfig) (orders : List RestingOrder) : Prop where
  buildable : config.Buildable
  room : orders.length ≤ config.maximumOrders.toNat
  valid : ∀ o ∈ orders, config.validPrice o.price = true

theorem BookConfig.Buildable.validPrice_iff {c : BookConfig} (h : c.Buildable) (p : Price) :
    c.validPrice p = true ↔ c.minimumPrice.toInt ≤ p.toInt ∧ p.toInt ≤ c.maximumPrice.toInt ∧
      c.tickSize.toInt ∣ p.toInt - c.minimumPrice.toInt := by
  obtain ⟨n, hn, -⟩ := h
  rw [(ladder_of_checked hn).validPrice_iff, Int.dvd_iff_emod_eq_zero]

section Fields

variable {c : BookConfig} {orders : List RestingOrder}

/-- A minimum price that suits the rest of a configuration and the orders. -/
def MinimumFits (c : BookConfig) (orders : List RestingOrder) (low : ℤ) : Prop :=
  low ≤ c.maximumPrice.toInt ∧ c.maximumPrice.toInt - low < 2 ^ 63 ∧
    c.tickSize.toInt ∣ low - c.minimumPrice.toInt ∧
    (c.maximumPrice.toInt - low) / c.tickSize.toInt < maxSize 24 ∧ ∀ o ∈ orders, low ≤ o.price.toInt

/-- A maximum price that does. -/
def MaximumFits (c : BookConfig) (orders : List RestingOrder) (high : ℤ) : Prop :=
  c.minimumPrice.toInt ≤ high ∧ high - c.minimumPrice.toInt < 2 ^ 63 ∧
    c.tickSize.toInt ∣ high - c.minimumPrice.toInt ∧
    (high - c.minimumPrice.toInt) / c.tickSize.toInt < maxSize 24 ∧ ∀ o ∈ orders, o.price.toInt ≤ high

/-- A tick size that does. -/
def TickFits (c : BookConfig) (orders : List RestingOrder) (tick : ℤ) : Prop :=
  0 < tick ∧ tick ∣ c.maximumPrice.toInt - c.minimumPrice.toInt ∧
    (c.maximumPrice.toInt - c.minimumPrice.toInt) / tick < maxSize 24 ∧
    ∀ o ∈ orders, tick ∣ o.price.toInt - c.minimumPrice.toInt

/-- A number of orders that does. -/
def CapacityFits (orders : List RestingOrder) (capacity : ℕ) : Prop :=
  0 < capacity ∧ orders.length ≤ capacity ∧ capacity ≤ uint32Max

theorem BookConfig.Takes.minimum_iff (h : c.Takes orders) (low : Price) :
    { c with minimumPrice := low }.Takes orders ↔ MinimumFits c orders low.toInt := by
  obtain ⟨⟨htick, -, -, hdvd, -⟩, hcapacity⟩ := BookConfig.buildable_iff.mp h.buildable
  have hlow : c.tickSize.toInt ∣ c.maximumPrice.toInt - low.toInt ↔
      c.tickSize.toInt ∣ low.toInt - c.minimumPrice.toInt := by
    rw [← Int.dvd_iff_dvd_of_dvd_add (a := c.tickSize.toInt)]
    rwa [add_comm, sub_add_sub_cancel]
  constructor
  · intro h'
    obtain ⟨⟨-, hle, hlt, hdvd', hsmall⟩, -⟩ := BookConfig.buildable_iff.mp h'.buildable
    exact ⟨hle, hlt, hlow.mp hdvd', hsmall,
      fun o ho => ((h'.buildable.validPrice_iff o.price).mp (h'.valid o ho)).1⟩
  · rintro ⟨hle, hlt, hdvd', hsmall, horders⟩
    have hbuild : { c with minimumPrice := low }.Buildable :=
      BookConfig.buildable_iff.mpr ⟨⟨htick, hle, hlt, hlow.mpr hdvd', hsmall⟩, hcapacity⟩
    refine ⟨hbuild, h.room, fun o ho => (hbuild.validPrice_iff o.price).mpr ?_⟩
    obtain ⟨-, hhigh, halign⟩ := (h.buildable.validPrice_iff o.price).mp (h.valid o ho)
    refine ⟨horders o ho, hhigh, ?_⟩
    have hdiff := Int.dvd_sub halign hdvd'
    rwa [sub_sub_sub_cancel_right] at hdiff

theorem BookConfig.Takes.maximum_iff (h : c.Takes orders) (high : Price) :
    { c with maximumPrice := high }.Takes orders ↔ MaximumFits c orders high.toInt := by
  obtain ⟨⟨htick, -⟩, hcapacity⟩ := BookConfig.buildable_iff.mp h.buildable
  constructor
  · intro h'
    obtain ⟨⟨-, hle, hlt, hdvd', hsmall⟩, -⟩ := BookConfig.buildable_iff.mp h'.buildable
    exact ⟨hle, hlt, hdvd', hsmall,
      fun o ho => ((h'.buildable.validPrice_iff o.price).mp (h'.valid o ho)).2.1⟩
  · rintro ⟨hle, hlt, hdvd', hsmall, horders⟩
    have hbuild : { c with maximumPrice := high }.Buildable :=
      BookConfig.buildable_iff.mpr ⟨⟨htick, hle, hlt, hdvd', hsmall⟩, hcapacity⟩
    refine ⟨hbuild, h.room, fun o ho => (hbuild.validPrice_iff o.price).mpr ?_⟩
    obtain ⟨hlow, -, halign⟩ := (h.buildable.validPrice_iff o.price).mp (h.valid o ho)
    exact ⟨hlow, horders o ho, halign⟩

theorem BookConfig.Takes.tick_iff (h : c.Takes orders) (tick : Price) :
    { c with tickSize := tick }.Takes orders ↔ TickFits c orders tick.toInt := by
  obtain ⟨⟨-, hle, hlt, -, -⟩, hcapacity⟩ := BookConfig.buildable_iff.mp h.buildable
  constructor
  · intro h'
    obtain ⟨⟨htick, -, -, hdvd', hsmall⟩, -⟩ := BookConfig.buildable_iff.mp h'.buildable
    exact ⟨htick, hdvd', hsmall,
      fun o ho => ((h'.buildable.validPrice_iff o.price).mp (h'.valid o ho)).2.2⟩
  · rintro ⟨htick, hdvd', hsmall, horders⟩
    have hbuild : { c with tickSize := tick }.Buildable :=
      BookConfig.buildable_iff.mpr ⟨⟨htick, hle, hlt, hdvd', hsmall⟩, hcapacity⟩
    refine ⟨hbuild, h.room, fun o ho => (hbuild.validPrice_iff o.price).mpr ?_⟩
    obtain ⟨hlow, hhigh, -⟩ := (h.buildable.validPrice_iff o.price).mp (h.valid o ho)
    exact ⟨hlow, hhigh, horders o ho⟩

theorem BookConfig.Takes.capacity_iff (h : c.Takes orders) (capacity : UInt64) :
    { c with maximumOrders := capacity }.Takes orders ↔ CapacityFits orders capacity.toNat := by
  obtain ⟨hladder, -⟩ := BookConfig.buildable_iff.mp h.buildable
  constructor
  · intro h'
    obtain ⟨-, hpos, hmax⟩ := BookConfig.buildable_iff.mp h'.buildable
    exact ⟨hpos, h'.room, hmax⟩
  · rintro ⟨hpos, hroom, hmax⟩
    have hbuild : { c with maximumOrders := capacity }.Buildable :=
      BookConfig.buildable_iff.mpr ⟨hladder, hpos, hmax⟩
    refine ⟨hbuild, hroom, fun o ho => (hbuild.validPrice_iff o.price).mpr ?_⟩
    exact (h.buildable.validPrice_iff o.price).mp (h.valid o ho)

end Fields

/-! ## One byte changed -/

/-- A member of eight bytes with its byte `k` replaced. -/
def withByte (value : UInt64) (k : ℕ) (byte : UInt8) : UInt64 :=
  UInt64.ofNat (Endian.setByte value.toNat k byte)

/-- The member at an offset, after byte `i` of the file is replaced. -/
def memberWith (i : ℕ) (byte : UInt8) (offset : ℕ) (value : UInt64) : UInt64 :=
  if offset ≤ i ∧ i < offset + 8 then withByte value (i - offset) byte else value

/-- The header with byte `i` of the file replaced, from the configuration on. -/
def SnapshotHeader.withByte (header : SnapshotHeader) (i : ℕ) (byte : UInt8) : SnapshotHeader where
  file := header.file
  config := {
    minimumPrice := (memberWith i byte 16 header.config.minimumPrice.toUInt64).toInt64
    maximumPrice := (memberWith i byte 24 header.config.maximumPrice.toUInt64).toInt64
    tickSize := (memberWith i byte 32 header.config.tickSize.toUInt64).toInt64
    maximumOrders := memberWith i byte 40 header.config.maximumOrders }
  lastSequence := memberWith i byte 48 header.lastSequence
  orderCount := memberWith i byte 56 header.orderCount
  checksum := memberWith i byte 64 header.checksum

section Changed

variable {l : List UInt8} {i offset size : ℕ} {byte : UInt8}

theorem memberWith_of_lt {value : UInt64} (h : i < offset) : memberWith i byte offset value = value :=
  if_neg (by omega)

theorem memberWith_of_le {value : UInt64} (h : offset + 8 ≤ i) :
    memberWith i byte offset value = value := if_neg (by omega)

theorem memberWith_of_mem {value : UInt64} (hle : offset ≤ i) (hlt : i < offset + 8) :
    memberWith i byte offset value = withByte value (i - offset) byte := if_pos ⟨hle, hlt⟩

theorem slice_set_of_disjoint (h : i < offset ∨ offset + size ≤ i) :
    slice (l.set i byte) offset size = slice l offset size := by
  rw [slice, slice, List.drop_set]
  rcases h with h | h
  · rw [if_pos h]
  · rw [if_neg (by omega), List.take_set, List.set_eq_of_length_le]
    rw [List.length_take]
    omega

theorem slice_set (h : offset ≤ i) :
    slice (l.set i byte) offset size = (slice l offset size).set (i - offset) byte := by
  rw [slice, slice, List.drop_set, if_neg (by omega), List.take_set]

theorem slice_set_ne (hlen : offset + size ≤ l.length) (hle : offset ≤ i) (hlt : i < offset + size)
    (hne : l[i]? ≠ some byte) : slice (l.set i byte) offset size ≠ slice l offset size := by
  rw [slice_set hle]
  refine set_ne_self (by rw [Layout.length_slice hlen]; omega) ?_
  rwa [slice, List.getElem?_take_of_lt (by omega), List.getElem?_drop, Nat.add_sub_cancel' hle]

theorem word_set_ne (hlen : offset + size ≤ l.length) (hle : offset ≤ i) (hlt : i < offset + size)
    (hne : l[i]? ≠ some byte) : word (l.set i byte) offset size ≠ word l offset size := by
  intro hword
  refine slice_set_ne hlen hle hlt hne (Endian.load_inj ?_ hword)
  rw [Layout.length_slice hlen, Layout.length_slice (by rwa [List.length_set])]

theorem word_set (hlen : offset + 8 ≤ l.length) : UInt64.ofNat (word (l.set i byte) offset 8) =
    memberWith i byte offset (UInt64.ofNat (word l offset 8)) := by
  by_cases hin : offset ≤ i ∧ i < offset + 8
  · have hload : word (l.set i byte) offset 8 = Endian.setByte (word l offset 8) (i - offset) byte := by
      refine (congrArg Endian.load (slice_set hin.1)).trans (Endian.load_set ?_ byte)
      rw [Layout.length_slice hlen]
      omega
    rw [memberWith_of_mem hin.1 hin.2, withByte, Protocol.toNat_word64, hload]
  · have hword : word (l.set i byte) offset 8 = word l offset 8 :=
      congrArg Endian.load (slice_set_of_disjoint (by omega))
    rw [memberWith, if_neg hin, hword]

/-- **The header of a file with a byte changed.** -/
theorem snapshotHeaderAt_set (hlen : snapshotHeaderSize ≤ l.length) (h : 16 ≤ i) :
    snapshotHeaderAt (l.set i byte) = (snapshotHeaderAt l).withByte i byte := by
  rw [snapshotHeaderSize] at hlen
  have htake : slice (l.set i byte) 0 8 = slice l 0 8 := slice_set_of_disjoint (Or.inr (by omega))
  have hversion : word (l.set i byte) 8 4 = word l 8 4 :=
    congrArg Endian.load (slice_set_of_disjoint (Or.inr (by omega)))
  have hrecord : word (l.set i byte) 12 4 = word l 12 4 :=
    congrArg Endian.load (slice_set_of_disjoint (Or.inr (by omega)))
  rw [slice, slice, List.drop_zero, List.drop_zero] at htake
  simp only [snapshotHeaderAt, SnapshotHeader.withByte, htake, hversion, hrecord,
    word_set (show 16 + 8 ≤ l.length by omega), word_set (show 24 + 8 ≤ l.length by omega),
    word_set (show 32 + 8 ≤ l.length by omega), word_set (show 40 + 8 ≤ l.length by omega),
    word_set (show 48 + 8 ≤ l.length by omega), word_set (show 56 + 8 ≤ l.length by omega),
    word_set (show 64 + 8 ≤ l.length by omega), UInt64.toUInt64_toInt64]

theorem file_ne_of_set (hlen : 16 ≤ l.length) (hi : i < 16) (hne : l[i]? ≠ some byte) :
    (snapshotHeaderAt (l.set i byte)).file ≠ (snapshotHeaderAt l).file := by
  intro heq
  obtain ⟨hmagic, hversion, hsize⟩ := FileHeader.mk.inj heq
  rw [← UInt32.toNat_inj, Protocol.toNat_word32, Protocol.toNat_word32] at hversion hsize
  by_cases h8 : i < 8
  · have hbytes := congrArg magicBytes hmagic
    rw [magicBytes_magicString, magicBytes_magicString] at hbytes
    have hslice : slice (l.set i byte) 0 8 ≠ slice l 0 8 :=
      slice_set_ne (by omega) (Nat.zero_le i) (by omega) hne
    exact hslice hbytes
  by_cases h12 : i < 12
  · exact word_set_ne (by omega) (by omega) (by omega) hne hversion
  · exact word_set_ne (by omega) (by omega) (by omega) hne hsize

end Changed

/-! ## The snapshot of a book -/

/-- **The changes of byte `i` to `byte` that go unnoticed** in a snapshot of a book, given by its
configuration, its last sequence and its resting orders. The changed member is read as another value,
which suits the members that are left. -/
inductive Unnoticed (config : BookConfig) (last : Sequence) (orders : List RestingOrder)
    (bytes : RestingOrder → List UInt8) (i : ℕ) (byte : UInt8) : Prop
  | minimumPrice (hle : 16 ≤ i) (hlt : i < 24) (hpast : ∀ o ∈ orders, o.priority ≤ last)
    (hfits : MinimumFits config orders
      (withByte config.minimumPrice.toUInt64 (i - 16) byte).toInt64.toInt)
  | maximumPrice (hle : 24 ≤ i) (hlt : i < 32) (hpast : ∀ o ∈ orders, o.priority ≤ last)
    (hfits : MaximumFits config orders
      (withByte config.maximumPrice.toUInt64 (i - 24) byte).toInt64.toInt)
  | tickSize (hle : 32 ≤ i) (hlt : i < 40) (hpast : ∀ o ∈ orders, o.priority ≤ last)
    (hfits : TickFits config orders (withByte config.tickSize.toUInt64 (i - 32) byte).toInt64.toInt)
  | maximumOrders (hle : 40 ≤ i) (hlt : i < 48) (hpast : ∀ o ∈ orders, o.priority ≤ last)
    (hfits : CapacityFits orders (withByte config.maximumOrders (i - 40) byte).toNat)
  | lastSequence (hle : 48 ≤ i) (hlt : i < 56)
    (hpast : ∀ o ∈ orders, o.priority ≤ withByte last (i - 48) byte)
  | orderCount (count : ℕ) (hle : 56 ≤ i) (hlt : i < 64)
    (hcount : count = (withByte (UInt64.ofNat orders.length) (i - 56) byte).toNat)
    (hfewer : count < orders.length) (hpast : ∀ o ∈ orders.take count, o.priority ≤ last)
    (hsum : checksumBytes ((orders.take count).flatMap bytes) = checksumBytes (orders.flatMap bytes))

theorem Unnoticed.range {config : BookConfig} {last : Sequence} {orders : List RestingOrder}
    {bytes : RestingOrder → List UInt8} {i : ℕ} {byte : UInt8}
    (h : Unnoticed config last orders bytes i byte) : 16 ≤ i ∧ i < 64 := by
  cases h <;> omega

/-- The header of the snapshot of a book. -/
def snapshotHeader (bytes : RestingOrder → List UInt8) (config : BookConfig) (last : Sequence)
    (orders : List RestingOrder) : SnapshotHeader :=
  ⟨snapshotFileHeader, config, last, UInt64.ofNat orders.length, checksumBytes (orders.flatMap bytes)⟩

/-- The bytes of a snapshot of `orders`, which a book can hold. -/
structure Written (R : OrderObjects) (config : BookConfig) (last : Sequence)
    (orders : List RestingOrder) (file : List UInt8) : Prop where
  size : snapshotHeaderSize ≤ file.length
  tail : file.drop snapshotHeaderSize = orders.flatMap R.bytes
  header : snapshotHeaderAt file = snapshotHeader R.bytes config last orders
  takes : config.Takes orders
  positive : ∀ o ∈ orders, o.quantity ≠ 0
  ids : (orders.map RestingOrder.orderId).Nodup

theorem Inv.written {b : OrderBook} {q : Queues} (h : Inv b q) (R : OrderObjects) :
    ∃ orders file, b.restingOrders = .ok orders ∧ b.writeSnapshotFile R = .ok file ∧
      Written R b.config b.stats.lastSequence orders file := by
  have hmagic : (snapshotHeader R.bytes b.config b.stats.lastSequence
      ((b.market q).orders b.priceCount)).file.magic = snapshotMagic := rfl
  have hsize := SnapshotHeader.length_bytes hmagic
  refine ⟨_, _, h.restingOrders, ?_, ?_, List.drop_left' hsize, snapshotHeaderAt_bytes hmagic _,
    ⟨⟨_, h.checked, h.allocated⟩, h.orders_length_le, ?_⟩, ?_, h.ids_nodup⟩
  · rw [OrderBook.writeSnapshotFile, OrderBook.writeSnapshot, h.restingOrders]
    rfl
  · rw [List.length_append]
    omega
  all_goals
    intro o ho
    obtain ⟨i, n, hn, rfl⟩ := h.mem_depth.mp (h.mem_orders.mp ho)
  · rw [h.order_price hn]
    exact h.ladder.validPrice_indexPrice (h.lt_of_mem hn)
  · exact h.positive _ i n hn

section Corruption

variable {R : OrderObjects} {config : BookConfig} {last : Sequence} {orders : List RestingOrder}
  {file : List UInt8} {i : ℕ} {byte : UInt8} (h : Written R config last orders file)

include h

theorem Written.count : (UInt64.ofNat orders.length).toNat = orders.length :=
  UInt64.toNat_ofNat_of_lt' (h.takes.room.trans_lt config.maximumOrders.toNat_lt)

theorem Written.throws_records (hle : snapshotHeaderSize ≤ i) (hi : i < file.length)
    (hne : file[i]? ≠ some byte) : Throws (readSnapshotFile (some (file.set i byte))) := by
  have hheader : snapshotHeaderAt (file.set i byte) = snapshotHeader R.bytes config last orders := by
    rw [snapshotHeaderSize] at hle
    rw [snapshotHeaderAt_set h.size (by omega), h.header]
    simp (disch := omega) only [SnapshotHeader.withByte, memberWith_of_le, Int64.toInt64_toUInt64]
  have hdata : ((file.set i byte).drop snapshotHeaderSize).take (40 * orders.length) =
        (orders.flatMap R.bytes).set (i - snapshotHeaderSize) byte := by
    rw [List.drop_set, if_neg (Nat.not_lt.mpr hle), h.tail, List.take_of_length_le]
    rw [List.length_set, length_records]
  have hchanged : checksumBytes ((orders.flatMap R.bytes).set (i - snapshotHeaderSize) byte) ≠
      checksumBytes (orders.flatMap R.bytes) := by
    rw [← h.tail]
    refine checksumBytes_set_ne (by rw [List.length_drop]; omega) ?_
    rwa [List.getElem?_drop, Nat.add_sub_cancel' hle]
  simp only [readSnapshotFile, hheader, snapshotHeader, h.count, hdata]
  split_ifs with hinvalid hlarge hcorrupt
  · exact throws_error rfl
  · exact throws_error rfl
  · exact throws_error rfl
  · exact absurd (Or.inr hchanged.symm) hcorrupt

theorem Written.read_changed (hi : i < snapshotHeaderSize) :
    readSnapshotFile (some (file.set i byte)) =
      readSnapshot R.bytes ⟨snapshotHeaderAt (file.set i byte), orders⟩ := by
  refine readSnapshotFile_eq R ?_ ?_
  · rw [List.length_set]
    exact h.size
  · rw [List.drop_set, if_pos hi, h.tail]

theorem Written.throws_file (hi : i < 16) (hne : file[i]? ≠ some byte) :
    Throws (readSnapshotFile (some (file.set i byte))) := by
  have hsize := h.size
  rw [snapshotHeaderSize] at hsize
  have hfile := file_ne_of_set (by omega) hi hne
  rw [h.header] at hfile
  rw [h.read_changed (Nat.lt_trans hi (by decide)), readSnapshot]
  dsimp only
  rw [if_pos]
  · exact throws_error rfl
  · by_contra hgood
    simp only [not_or, not_not] at hgood
    obtain ⟨hmagic, hversion, hrecord, -⟩ := hgood
    apply hfile
    rw [snapshotHeader, snapshotFileHeader, ← hmagic, ← hversion, ← hrecord]

theorem Written.throws_header_iff (hle : 16 ≤ i) (hi : i < snapshotHeaderSize) :
    Throws (readSnapshotFile (some (file.set i byte))) ↔
      ¬ Admitted R.bytes ⟨(snapshotHeader R.bytes config last orders).withByte i byte, orders⟩ := by
  rw [h.read_changed hi, snapshotHeaderAt_set h.size hle, h.header]
  exact readSnapshot_throws_iff rfl

theorem Written.member_ne {offset : ℕ} {value : UInt64} (hle : offset ≤ i) (hlt : i < offset + 8)
    (hoffset : offset + 8 ≤ snapshotHeaderSize) (hvalue : UInt64.ofNat (word file offset 8) = value)
    (hne : file[i]? ≠ some byte) : withByte value (i - offset) byte ≠ value := by
  have hlen := hoffset.trans h.size
  rw [← hvalue, ← memberWith_of_mem hle hlt, ← word_set hlen, Ne, ← UInt64.toNat_inj,
    Protocol.toNat_word64, Protocol.toNat_word64]
  exact word_set_ne hlen hle hlt hne

theorem Written.admitted_iff {config' : BookConfig} {last' : Sequence} :
    Admitted R.bytes ⟨snapshotHeader R.bytes config' last' orders, orders⟩ ↔
      config'.Takes orders ∧ ∀ o ∈ orders, o.priority ≤ last' := by
  have hcount : (UInt64.ofNat orders.length).toNat = orders.length := h.count
  constructor
  · rintro ⟨hcapacity, -, -, hbuild, horders, -⟩
    simp only [snapshotHeader, hcount, List.take_length, UInt64.le_iff_toNat_le] at hcapacity horders
    exact ⟨⟨hbuild, hcapacity, fun o ho => (horders o ho).1⟩, fun o ho => (horders o ho).2.2⟩
  · rintro ⟨htakes, hpast⟩
    refine ⟨?_, ?_, ?_, htakes.buildable, ?_, ?_⟩
    all_goals simp only [snapshotHeader, hcount, List.take_length, UInt64.le_iff_toNat_le, le_refl]
    · exact htakes.room
    · exact fun o ho => ⟨htakes.valid o ho, h.positive o ho, hpast o ho⟩
    · exact h.ids

theorem Written.admitted_count_iff {count : UInt64} (hne : count ≠ UInt64.ofNat orders.length) :
    Admitted R.bytes ⟨⟨snapshotFileHeader, config, last, count,
        checksumBytes (orders.flatMap R.bytes)⟩, orders⟩ ↔
      count.toNat < orders.length ∧ (∀ o ∈ orders.take count.toNat, o.priority ≤ last) ∧
        checksumBytes ((orders.take count.toNat).flatMap R.bytes) =
          checksumBytes (orders.flatMap R.bytes) := by
  rw [Ne, ← UInt64.toNat_inj, h.count] at hne
  constructor
  · rintro ⟨-, hle, hsum, -, horders, -⟩
    exact ⟨lt_of_le_of_ne hle hne, fun o ho => (horders o ho).2.2, hsum.symm⟩
  · rintro ⟨hlt, hpast, hsum⟩
    refine ⟨?_, hlt.le, hsum.symm, h.takes.buildable, ?_, ?_⟩
    · exact UInt64.le_iff_toNat_le.mpr (hlt.le.trans h.takes.room)
    · intro o ho
      have hmem := List.mem_of_mem_take ho
      exact ⟨h.takes.valid o hmem, h.positive o hmem, hpast o ho⟩
    · exact h.ids.sublist ((List.take_sublist _ _).map _)

/-- The header with byte `i` changed passes every check. -/
def HeaderPasses (R : OrderObjects) (config : BookConfig) (last : Sequence) (orders : List RestingOrder)
    (i : ℕ) (byte : UInt8) : Prop :=
  Admitted R.bytes ⟨(snapshotHeader R.bytes config last orders).withByte i byte, orders⟩

theorem Written.minimum_changed (hle : 16 ≤ i) (hlt : i < 24) :
    HeaderPasses R config last orders i byte ↔ Unnoticed config last orders R.bytes i byte := by
  have hheader : (snapshotHeader R.bytes config last orders).withByte i byte = snapshotHeader R.bytes
      { config with
        minimumPrice := (withByte config.minimumPrice.toUInt64 (i - 16) byte).toInt64 } last orders := by
    simp (disch := omega) only [SnapshotHeader.withByte, snapshotHeader, memberWith_of_lt,
      memberWith_of_mem, Int64.toInt64_toUInt64]
  rw [HeaderPasses, hheader, h.admitted_iff, h.takes.minimum_iff]
  constructor
  · rintro ⟨hfits, hpast⟩
    exact .minimumPrice hle hlt hpast hfits
  · intro hunnoticed
    cases hunnoticed with
    | minimumPrice _ _ hpast hfits => exact ⟨hfits, hpast⟩
    | _ => omega

theorem Written.maximum_changed (hle : 24 ≤ i) (hlt : i < 32) :
    HeaderPasses R config last orders i byte ↔ Unnoticed config last orders R.bytes i byte := by
  have hheader : (snapshotHeader R.bytes config last orders).withByte i byte = snapshotHeader R.bytes
      { config with
        maximumPrice := (withByte config.maximumPrice.toUInt64 (i - 24) byte).toInt64 } last orders := by
    simp (disch := omega) only [SnapshotHeader.withByte, snapshotHeader, memberWith_of_lt,
      memberWith_of_le, memberWith_of_mem, Int64.toInt64_toUInt64]
  rw [HeaderPasses, hheader, h.admitted_iff, h.takes.maximum_iff]
  constructor
  · rintro ⟨hfits, hpast⟩
    exact .maximumPrice hle hlt hpast hfits
  · intro hunnoticed
    cases hunnoticed with
    | maximumPrice _ _ hpast hfits => exact ⟨hfits, hpast⟩
    | _ => omega

theorem Written.tick_changed (hle : 32 ≤ i) (hlt : i < 40) :
    HeaderPasses R config last orders i byte ↔ Unnoticed config last orders R.bytes i byte := by
  have hheader : (snapshotHeader R.bytes config last orders).withByte i byte = snapshotHeader R.bytes
      { config with
        tickSize := (withByte config.tickSize.toUInt64 (i - 32) byte).toInt64 } last orders := by
    simp (disch := omega) only [SnapshotHeader.withByte, snapshotHeader, memberWith_of_lt,
      memberWith_of_le, memberWith_of_mem, Int64.toInt64_toUInt64]
  rw [HeaderPasses, hheader, h.admitted_iff, h.takes.tick_iff]
  constructor
  · rintro ⟨hfits, hpast⟩
    exact .tickSize hle hlt hpast hfits
  · intro hunnoticed
    cases hunnoticed with
    | tickSize _ _ hpast hfits => exact ⟨hfits, hpast⟩
    | _ => omega

theorem Written.capacity_changed (hle : 40 ≤ i) (hlt : i < 48) :
    HeaderPasses R config last orders i byte ↔ Unnoticed config last orders R.bytes i byte := by
  have hheader : (snapshotHeader R.bytes config last orders).withByte i byte = snapshotHeader R.bytes
      { config with maximumOrders := withByte config.maximumOrders (i - 40) byte } last orders := by
    simp (disch := omega) only [SnapshotHeader.withByte, snapshotHeader, memberWith_of_lt,
      memberWith_of_le, memberWith_of_mem, Int64.toInt64_toUInt64]
  rw [HeaderPasses, hheader, h.admitted_iff, h.takes.capacity_iff]
  constructor
  · rintro ⟨hfits, hpast⟩
    exact .maximumOrders hle hlt hpast hfits
  · intro hunnoticed
    cases hunnoticed with
    | maximumOrders _ _ hpast hfits => exact ⟨hfits, hpast⟩
    | _ => omega

theorem Written.sequence_changed (hle : 48 ≤ i) (hlt : i < 56) :
    HeaderPasses R config last orders i byte ↔ Unnoticed config last orders R.bytes i byte := by
  have hheader : (snapshotHeader R.bytes config last orders).withByte i byte =
      snapshotHeader R.bytes config (withByte last (i - 48) byte) orders := by
    simp (disch := omega) only [SnapshotHeader.withByte, snapshotHeader, memberWith_of_lt,
      memberWith_of_le, memberWith_of_mem, Int64.toInt64_toUInt64]
  rw [HeaderPasses, hheader, h.admitted_iff]
  constructor
  · rintro ⟨-, hpast⟩
    exact .lastSequence hle hlt hpast
  · intro hunnoticed
    cases hunnoticed with
    | lastSequence _ _ hpast => exact ⟨h.takes, hpast⟩
    | _ => omega

theorem Written.count_changed (hle : 56 ≤ i) (hlt : i < 64) (hne : file[i]? ≠ some byte) :
    HeaderPasses R config last orders i byte ↔ Unnoticed config last orders R.bytes i byte := by
  have hheader : (snapshotHeader R.bytes config last orders).withByte i byte =
      ⟨snapshotFileHeader, config, last, withByte (UInt64.ofNat orders.length) (i - 56) byte,
        checksumBytes (orders.flatMap R.bytes)⟩ := by
    simp (disch := omega) only [SnapshotHeader.withByte, snapshotHeader, memberWith_of_lt,
      memberWith_of_le, memberWith_of_mem, Int64.toInt64_toUInt64]
  have hother : withByte (UInt64.ofNat orders.length) (i - 56) byte ≠ UInt64.ofNat orders.length :=
    h.member_ne hle hlt (by decide) (congrArg SnapshotHeader.orderCount h.header) hne
  rw [HeaderPasses, hheader, h.admitted_count_iff hother]
  constructor
  · rintro ⟨hfewer, hpast, hsum⟩
    exact .orderCount _ hle hlt rfl hfewer hpast hsum
  · intro hunnoticed
    cases hunnoticed with
    | orderCount count _ _ hcount hfewer hpast hsum =>
      subst hcount
      exact ⟨hfewer, hpast, hsum⟩
    | _ => omega

theorem Written.checksum_changed (hle : 64 ≤ i) (hlt : i < snapshotHeaderSize)
    (hne : file[i]? ≠ some byte) : ¬ HeaderPasses R config last orders i byte := by
  rw [snapshotHeaderSize] at hlt
  rintro ⟨-, -, hsum, -⟩
  have hother := h.member_ne hle hlt (by decide) (congrArg SnapshotHeader.checksum h.header) hne
  simp (disch := omega) only [SnapshotHeader.withByte, snapshotHeader, memberWith_of_le,
    memberWith_of_mem, h.count, List.take_length] at hsum
  exact hother hsum

/-- **Which changes of the header pass every check.** -/
theorem Written.passes_iff (hle : 16 ≤ i) (hlt : i < snapshotHeaderSize) (hne : file[i]? ≠ some byte) :
    HeaderPasses R config last orders i byte ↔ Unnoticed config last orders R.bytes i byte := by
  by_cases h24 : i < 24
  · exact h.minimum_changed hle h24
  by_cases h32 : i < 32
  · exact h.maximum_changed (by omega) h32
  by_cases h40 : i < 40
  · exact h.tick_changed (by omega) h40
  by_cases h48 : i < 48
  · exact h.capacity_changed (by omega) h48
  by_cases h56 : i < 56
  · exact h.sequence_changed (by omega) h56
  by_cases h64 : i < 64
  · exact h.count_changed (by omega) h64 hne
  · refine iff_of_false (h.checksum_changed (by omega) hlt hne) fun hunnoticed => h64 ?_
    exact hunnoticed.range.2

end Corruption

/-- **Which changes of a byte of a snapshot are detected**: all but those of `Unnoticed`. -/
theorem snapshot_corruption_detected_iff {b : OrderBook} (h : Reachable b) (R : OrderObjects) :
    ∃ orders file, b.restingOrders = .ok orders ∧ b.writeSnapshotFile R = .ok file ∧
      ∀ i byte, i < file.length → file[i]? ≠ some byte →
        (Throws (readSnapshotFile (some (file.set i byte))) ↔
          ¬ Unnoticed b.config b.stats.lastSequence orders R.bytes i byte) := by
  obtain ⟨q, hinv⟩ := h.inv
  obtain ⟨orders, file, hresting, hwrite, hfile⟩ := hinv.written R
  refine ⟨orders, file, hresting, hwrite, fun i byte hi hne => ?_⟩
  by_cases hrecords : snapshotHeaderSize ≤ i
  · refine iff_of_true (hfile.throws_records hrecords hi hne) fun hunnoticed => ?_
    exact absurd hunnoticed.range.2 (Nat.not_lt.mpr (Nat.le_trans (by decide) hrecords))
  by_cases h16 : i < 16
  · refine iff_of_true (hfile.throws_file h16 hne) fun hunnoticed => ?_
    exact absurd hunnoticed.range.1 (Nat.not_le.mpr h16)
  · rw [hfile.throws_header_iff (Nat.not_lt.mp h16) (Nat.not_le.mp hrecords)]
    exact not_congr (hfile.passes_iff (Nat.not_lt.mp h16) (Nat.not_le.mp hrecords) hne)

/-- The book with one order: its id is changed; the maximum price, of which byte 7 is changed, has a
ladder for which there can be vectors, or one for which there cannot. -/
theorem snapshot_corruption_detected_iff_one_order : ∃ b file, Reachable b ∧
    b.writeSnapshotFile littleEndianOrders = .ok file ∧ file[72]? = some 7 ∧ file[31]? = some 0 ∧
    Throws (readSnapshotFile (some (file.set 72 8))) ∧
    ¬ Throws (readSnapshotFile (some (file.set 31 5))) ∧
    Throws (readSnapshotFile (some (file.set 31 6))) := by
  have hrun : ((do
      let b ← OrderBook.new ⟨1, 4, 1, 2⟩
      let r ← b.process ⟨1, .new, .buy, .limit, 0, 7, 2, 5⟩ []
      let orders ← r.1.restingOrders
      let file ← r.1.writeSnapshotFile littleEndianOrders
      .ok (r.1.config, r.1.stats.lastSequence, orders, [file[31]?, file[72]?])) : Except Fault _) =
      .ok (⟨1, 4, 1, 2⟩, 1, [⟨7, .buy, 2, 5, 1⟩], [some 0, some 7]) := by
    decide +kernel
  obtain ⟨b₀, hnew, hrun⟩ := bind_eq_ok.mp hrun
  obtain ⟨⟨b, events⟩, hprocess, hrun⟩ := bind_eq_ok.mp hrun
  obtain ⟨orders, hresting, hrun⟩ := bind_eq_ok.mp hrun
  obtain ⟨file, hwrite, hrun⟩ := bind_eq_ok.mp hrun
  simp only [Except.ok.injEq, Prod.mk.injEq, List.cons.injEq, and_true] at hrun
  obtain ⟨hconfig, hlast, rfl, hbyte, hid⟩ := hrun
  obtain ⟨hlen, -⟩ := List.getElem?_eq_some_iff.mp hid
  have hb : Reachable b := (Reachable.new hnew).process hprocess
  obtain ⟨orders', file', hresting', hwrite', hiff⟩ :=
    snapshot_corruption_detected_iff hb littleEndianOrders
  obtain rfl := Except.ok.inj (hresting.symm.trans hresting')
  obtain rfl := Except.ok.inj (hwrite.symm.trans hwrite')
  rw [hconfig, hlast] at hiff
  refine ⟨b, file, hb, hwrite, hid, hbyte, ?_, ?_, ?_⟩
  · refine (hiff 72 8 (by omega) (by rw [hid]; decide)).mpr fun hunnoticed => ?_
    exact absurd hunnoticed.range.2 (by decide)
  · refine (not_congr (hiff 31 5 (by omega) (by rw [hbyte]; decide))).mpr (not_not.mpr ?_)
    refine .maximumPrice (by decide) (by decide) (by decide) ?_
    exact ⟨by decide, by decide, by decide, by decide, by decide⟩
  · refine (hiff 31 6 (by omega) (by rw [hbyte]; decide)).mpr fun hunnoticed => ?_
    cases hunnoticed with
    | maximumPrice _ _ _ hfits => exact absurd hfits.2.2.2.1 (by decide)
    | _ => omega

/-- **A change that goes unnoticed.** The last sequence of a book is 1; with its lowest byte changed to 2
the snapshot is restored, and the command with sequence 2 that comes next is rejected. -/
theorem snapshot_last_sequence_changed : (do
    let b ← OrderBook.new ⟨1, 4, 1, 2⟩
    let (b, _) ← b.process ⟨1, .new, .buy, .limit, 0, 7, 2, 5⟩ []
    let file ← b.writeSnapshotFile littleEndianOrders
    let b' ← readSnapshotFile (some (file.set 48 2))
    let (_, events) ← b.process ⟨2, .cancel, .buy, .limit, 0, 7, 0, 0⟩ []
    let (_, events') ← b'.process ⟨2, .cancel, .buy, .limit, 0, 7, 0, 0⟩ []
    .ok (file[48]?, b.stats.lastSequence, b'.stats.lastSequence, events.map Event.type,
      events'.map Event.reason)) =
    (.ok (some 1, 1, 2, [.cancelled], [.sequenceGap]) : Except Fault _) := by
  decide +kernel

end Dme
