import MatchingEngine.Corruption
import MatchingEngine.RequestCodec
import MatchingEngine.RestoreSpec
import MatchingEngine.Snapshot

/-!
# The bytes of a snapshot

`write_snapshot` and `read_snapshot` of `journal.cpp`, byte by byte. Memory is taken to suffice for the
vectors that can be made.

* `OrderObjects`: the object representation of resting orders: 40 bytes, padding included.
* `SnapshotHeader.bytes`, `snapshotHeaderAt`; `OrderBook.writeSnapshotFile`, `readSnapshotFile`.
* **`readSnapshotFile_eq`**: reading a file whose records are whole is `readSnapshot`.
* `littleEndianOrders`: the representation with zeros for padding.
* `BookConfig.Buildable`, **`new_cases`**: when a book is built.
* `Throws`, `Admitted`, **`readSnapshot_throws_iff`**: when a snapshot is restored.
-/

set_option autoImplicit false

namespace Dme

open Protocol (word)

/-! ## Headers -/

/-- The text that eight bytes of a file are. -/
def magicString (bytes : List UInt8) : String :=
  String.ofList (bytes.map fun byte => Char.ofNat byte.toNat)

/-- The bytes of the magic text. -/
def magicBytes (magic : String) : List UInt8 :=
  magic.toList.map fun char => UInt8.ofNat char.toNat

/-- The object representation of a header, which has no padding. -/
def SnapshotHeader.fields (header : SnapshotHeader) : List (ℕ × List UInt8) :=
  [(0, magicBytes header.file.magic), (8, Endian.store 4 header.file.version.toNat),
    (12, Endian.store 4 header.file.recordSize.toNat),
    (16, Endian.store 8 header.config.minimumPrice.toUInt64.toNat),
    (24, Endian.store 8 header.config.maximumPrice.toUInt64.toNat),
    (32, Endian.store 8 header.config.tickSize.toUInt64.toNat),
    (40, Endian.store 8 header.config.maximumOrders.toNat),
    (48, Endian.store 8 header.lastSequence.toNat), (56, Endian.store 8 header.orderCount.toNat),
    (64, Endian.store 8 header.checksum.toNat)]

/-- The bytes of a header in a file. -/
def SnapshotHeader.bytes (header : SnapshotHeader) : List UInt8 := Layout.image header.fields

/-- `sizeof(SnapshotHeader)`. -/
def snapshotHeaderSize : ℕ := 72

/-- The header at the front of a stream. -/
def snapshotHeaderAt (stream : List UInt8) : SnapshotHeader where
  file := {
    magic := magicString (stream.take 8)
    version := UInt32.ofNat (word stream 8 4)
    recordSize := UInt32.ofNat (word stream 12 4) }
  config := {
    minimumPrice := (UInt64.ofNat (word stream 16 8)).toInt64
    maximumPrice := (UInt64.ofNat (word stream 24 8)).toInt64
    tickSize := (UInt64.ofNat (word stream 32 8)).toInt64
    maximumOrders := UInt64.ofNat (word stream 40 8) }
  lastSequence := UInt64.ofNat (word stream 48 8)
  orderCount := UInt64.ofNat (word stream 56 8)
  checksum := UInt64.ofNat (word stream 64 8)

/-! ## Orders -/

/-- A resting order from its object representation; a side other than `0` is taken for a sell. -/
def orderAt (data : List UInt8) : RestingOrder where
  orderId := UInt64.ofNat (word data 0 8)
  side := if word data 8 1 = 0 then .buy else .sell
  price := (UInt64.ofNat (word data 16 8)).toInt64
  quantity := UInt64.ofNat (word data 24 8)
  priority := UInt64.ofNat (word data 32 8)

/-- The first orders of a vector, from its bytes. -/
def orderRecordsAt (data : List UInt8) : ℕ → List RestingOrder
  | 0 => []
  | count + 1 => orderAt (data.take 40) :: orderRecordsAt (data.drop 40) count

/-- **The object representation of resting orders**; what the padding holds is up to the compiler. -/
structure OrderObjects where
  bytes : RestingOrder → List UInt8
  size : ∀ o, (bytes o).length = 40
  read : ∀ o, orderAt (bytes o) = o

/-! ## Files -/

/-- The bytes of a file. -/
def SnapshotFile.bytes (R : OrderObjects) (file : SnapshotFile) : List UInt8 :=
  file.header.bytes ++ file.records.flatMap R.bytes

/-- `write_snapshot`: the bytes that are written. -/
def OrderBook.writeSnapshotFile (R : OrderObjects) (book : OrderBook) : Except Fault (List UInt8) := do
  let file ← book.writeSnapshot R.bytes
  .ok (file.bytes R)

/-- `read_snapshot` on the bytes of a file, if there is one at the path. -/
def readSnapshotFile (path : Option (List UInt8)) : Except Fault OrderBook :=
  match path with
  | none => .error (.runtimeError "unable to open snapshot")
  | some stream =>
    let header := snapshotHeaderAt stream
    if stream.length < snapshotHeaderSize ∨ header.file.magic ≠ snapshotMagic ∨
        header.file.version ≠ 1 ∨ header.file.recordSize ≠ restingOrderSize ∨
        header.orderCount > header.config.maximumOrders then
      .error (.runtimeError "invalid snapshot header")
    else if header.orderCount.toNat > maxSize 40 then
      .error (.lengthError "cannot create std::vector larger than max_size()")
    else
      let size := 40 * header.orderCount.toNat
      let data := (stream.drop snapshotHeaderSize).take size
      -- a short read leaves the stream in a failed state
      if data.length < size ∨ header.checksum ≠ checksumBytes data then
        .error (.runtimeError "corrupt snapshot")
      else do
        let book ← OrderBook.new header.config
        match book.restore header.lastSequence (orderRecordsAt data header.orderCount.toNat) with
        | (book, .ok ()) => .ok book
        | (_, .error e) => .error e

/-! ## Reading what was written -/

theorem magicBytes_magicString (bytes : List UInt8) : magicBytes (magicString bytes) = bytes := by
  have hchar : ∀ byte : UInt8, UInt8.ofNat (Char.ofNat byte.toNat).toNat = byte := by
    intro byte
    have hlt := byte.toNat_lt
    rw [Char.toNat_ofNat, if_pos (Or.inl (by omega)), UInt8.ofNat_toNat]
  rw [magicBytes, magicString, String.toList_ofList, List.map_map]
  simp [Function.comp_def, hchar]

theorem length_magicBytes : (magicBytes snapshotMagic).length = 8 := by decide

theorem SnapshotHeader.fields_consecutive {header : SnapshotHeader}
    (hmagic : header.file.magic = snapshotMagic) : Layout.Consecutive 0 header.fields := by
  simp [SnapshotHeader.fields, Layout.Consecutive, hmagic, length_magicBytes]

theorem SnapshotHeader.length_bytes {header : SnapshotHeader}
    (hmagic : header.file.magic = snapshotMagic) : header.bytes.length = snapshotHeaderSize := by
  simp [SnapshotHeader.bytes, SnapshotHeader.fields, hmagic, length_magicBytes, snapshotHeaderSize]

/-- **A header is read as it was written.** -/
theorem snapshotHeaderAt_bytes {header : SnapshotHeader} (hmagic : header.file.magic = snapshotMagic)
    (rest : List UInt8) : snapshotHeaderAt (header.bytes ++ rest) = header := by
  have hcons := SnapshotHeader.fields_consecutive hmagic
  have hword : ∀ offset (value : UInt64), (offset, Endian.store 8 value.toNat) ∈ header.fields →
      word (header.bytes ++ rest) offset 8 = value.toNat :=
    fun _ value hmem => Protocol.word_store hcons hmem value.toNat_lt rest
  have hhalf : ∀ offset (value : UInt32), (offset, Endian.store 4 value.toNat) ∈ header.fields →
      word (header.bytes ++ rest) offset 4 = value.toNat :=
    fun _ value hmem => Protocol.word_store hcons hmem value.toNat_lt rest
  have htake : (header.bytes ++ rest).take 8 = magicBytes snapshotMagic := by
    rw [SnapshotHeader.bytes, SnapshotHeader.fields, Layout.image_cons, hmagic, List.append_assoc,
      List.take_left' length_magicBytes]
  have hstring : magicString (magicBytes snapshotMagic) = snapshotMagic := by decide
  rw [snapshotHeaderAt, htake, hstring, ← hmagic,
    hhalf 8 header.file.version (by simp [SnapshotHeader.fields]),
    hhalf 12 header.file.recordSize (by simp [SnapshotHeader.fields]),
    hword 16 header.config.minimumPrice.toUInt64 (by simp [SnapshotHeader.fields]),
    hword 24 header.config.maximumPrice.toUInt64 (by simp [SnapshotHeader.fields]),
    hword 32 header.config.tickSize.toUInt64 (by simp [SnapshotHeader.fields]),
    hword 40 header.config.maximumOrders (by simp [SnapshotHeader.fields]),
    hword 48 header.lastSequence (by simp [SnapshotHeader.fields]),
    hword 56 header.orderCount (by simp [SnapshotHeader.fields]),
    hword 64 header.checksum (by simp [SnapshotHeader.fields])]
  simp

theorem length_records (R : OrderObjects) (records : List RestingOrder) :
    (records.flatMap R.bytes).length = 40 * records.length := by
  induction records with
  | nil => rfl
  | cons o records ih =>
    rw [List.flatMap_cons, List.length_append, R.size, ih, List.length_cons]
    omega

theorem take_records (R : OrderObjects) {records : List RestingOrder} {count : ℕ}
    (h : count ≤ records.length) : (records.flatMap R.bytes).take (40 * count) =
      (records.take count).flatMap R.bytes := by
  have hlen : ((records.take count).flatMap R.bytes).length = 40 * count := by
    rw [length_records, List.length_take, Nat.min_eq_left h]
  conv_lhs => rw [← List.take_append_drop count records, List.flatMap_append]
  exact List.take_left' hlen

/-- **Orders are read as they were written.** -/
theorem orderRecordsAt_records (R : OrderObjects) (records : List RestingOrder) :
    orderRecordsAt (records.flatMap R.bytes) records.length = records := by
  induction records with
  | nil => rfl
  | cons o records ih =>
    rw [List.flatMap_cons, List.length_cons, orderRecordsAt, List.take_left' (R.size o),
      List.drop_left' (R.size o), R.read, ih]

/-- **Reading a file whose records are whole** is reading it record by record. -/
theorem readSnapshotFile_eq (R : OrderObjects) {stream : List UInt8} {records : List RestingOrder}
    (hlen : snapshotHeaderSize ≤ stream.length)
    (htail : stream.drop snapshotHeaderSize = records.flatMap R.bytes) :
    readSnapshotFile (some stream) = readSnapshot R.bytes ⟨snapshotHeaderAt stream, records⟩ := by
  simp only [readSnapshotFile, readSnapshot, Nat.not_lt.mpr hlen, false_or, htail]
  by_cases hheader : (snapshotHeaderAt stream).file.magic ≠ snapshotMagic ∨
      (snapshotHeaderAt stream).file.version ≠ 1 ∨
      (snapshotHeaderAt stream).file.recordSize ≠ restingOrderSize ∨
      (snapshotHeaderAt stream).orderCount > (snapshotHeaderAt stream).config.maximumOrders
  · rw [if_pos hheader, if_pos hheader]
  rw [if_neg hheader, if_neg hheader]
  by_cases hshort : records.length < (snapshotHeaderAt stream).orderCount.toNat
  · rw [if_pos (Or.inl ?_), if_pos (Or.inl hshort)]
    rw [List.length_take, length_records]
    omega
  · have hcount := Nat.not_lt.mp hshort
    have hdata := take_records R hcount
    have horders : orderRecordsAt
        ((records.take (snapshotHeaderAt stream).orderCount.toNat).flatMap R.bytes)
        (snapshotHeaderAt stream).orderCount.toNat =
          records.take (snapshotHeaderAt stream).orderCount.toNat := by
      have hread := orderRecordsAt_records R (records.take (snapshotHeaderAt stream).orderCount.toNat)
      rwa [List.length_take, Nat.min_eq_left hcount] at hread
    have hwhole : ¬ ((records.take (snapshotHeaderAt stream).orderCount.toNat).flatMap R.bytes).length <
        40 * (snapshotHeaderAt stream).orderCount.toNat := by
      rw [length_records, List.length_take, Nat.min_eq_left hcount]
      omega
    rw [hdata, horders]
    exact if_congr Iff.rfl rfl (if_congr (by simp only [hwhole, hshort]) rfl rfl)

/-! ## A little-endian machine -/

/-- The members of a resting order at their offsets, and the padding after its side. -/
def RestingOrder.fields (o : RestingOrder) : List (ℕ × List UInt8) :=
  [(0, Endian.store 8 o.orderId.toNat), (8, [o.side.code]), (9, List.replicate 7 0),
    (16, Endian.store 8 o.price.toUInt64.toNat), (24, Endian.store 8 o.quantity.toNat),
    (32, Endian.store 8 o.priority.toNat)]

theorem RestingOrder.bytes_eq_image (o : RestingOrder) : o.bytes = Layout.image o.fields := by
  simp [RestingOrder.bytes, RestingOrder.fields, littleEndian_eq_store]

theorem RestingOrder.orderAt_bytes (o : RestingOrder) : orderAt o.bytes = o := by
  have hcons : Layout.Consecutive 0 o.fields := by simp [RestingOrder.fields, Layout.Consecutive]
  have hword : ∀ offset (value : UInt64), (offset, Endian.store 8 value.toNat) ∈ o.fields →
      word o.bytes offset 8 = value.toNat := by
    intro offset value hmem
    have hread := Protocol.word_store hcons hmem value.toNat_lt []
    rwa [List.append_nil, ← RestingOrder.bytes_eq_image] at hread
  have hside : word o.bytes 8 1 = o.side.code.toNat := by
    have hmem : (8, [o.side.code]) ∈ o.fields := by simp [RestingOrder.fields]
    have hread := Protocol.word_byte hcons hmem []
    rwa [List.append_nil, ← RestingOrder.bytes_eq_image] at hread
  rw [orderAt, hside, hword 0 o.orderId (by simp [RestingOrder.fields]),
    hword 16 o.price.toUInt64 (by simp [RestingOrder.fields]),
    hword 24 o.quantity (by simp [RestingOrder.fields]),
    hword 32 o.priority (by simp [RestingOrder.fields])]
  obtain ⟨orderId, side, price, quantity, priority⟩ := o
  cases side <;> simp [Side.code]

/-- Resting orders on a little-endian machine, with zeros for padding. -/
def littleEndianOrders : OrderObjects where
  bytes := RestingOrder.bytes
  size o := by simp [RestingOrder.bytes, length_littleEndian]
  read := RestingOrder.orderAt_bytes

/-! ## When a snapshot is restored -/

/-- The faults that are exceptions. -/
def Fault.thrown : Fault → Bool
  | .invalidArgument _ => true
  | .logicError _ => true
  | .runtimeError _ => true
  | .lengthError _ => true
  | _ => false

/-- The call ends with an exception. -/
def Throws {α : Type} (r : Except Fault α) : Prop := ∃ e, r = .error e ∧ e.thrown = true

theorem throws_error {α : Type} {e : Fault} (h : e.thrown = true) :
    Throws (.error e : Except Fault α) := ⟨e, rfl, h⟩

theorem checkedPriceCount_thrown {config : BookConfig} {e : Fault}
    (h : checkedPriceCount config = .error e) : e.thrown = true := by
  simp only [checkedPriceCount] at h
  split_ifs at h <;> cases h <;> rfl

/-- A configuration with a ladder for which there can be vectors. -/
def BookConfig.Buildable (config : BookConfig) : Prop :=
  ∃ n, checkedPriceCount config = .ok n ∧ n ≤ maxSize 24

/-- **A book is built, or the constructor throws.** -/
theorem new_cases (config : BookConfig) :
    (config.Buildable ∧ ∃ b, OrderBook.new config = .ok b) ∨
      ¬ config.Buildable ∧ Throws (OrderBook.new config) := by
  cases hcount : checkedPriceCount config with
  | error e =>
    refine .inr ⟨?_, ?_⟩
    · rintro ⟨n, hn, -⟩
      cases hcount.symm.trans hn
    · rw [OrderBook.new, hcount]
      exact throws_error (checkedPriceCount_thrown hcount)
  | ok n =>
    by_cases hn : n ≤ maxSize 24
    · exact .inl ⟨⟨n, hcount, hn⟩, OrderBook.new_isOk hcount hn⟩
    · refine .inr ⟨?_, ?_⟩
      · rintro ⟨m, hm, hle⟩
        cases hcount.symm.trans hm
        exact hn hle
      · rw [OrderBook.new, hcount]
        simp only [vecNew, gt_iff_lt, Nat.not_le.mp hn, if_true, bind, Except.bind]
        exact throws_error rfl

theorem Inv.restore_thrown {b b' : OrderBook} {q : Queues} (h : Inv b q) {last : Sequence}
    {orders : List RestingOrder} {e : Fault} (hr : b.restore last orders = (b', .error e)) :
    e.thrown = true := by
  by_cases hgo : RestoreRefused b orders
  · rw [restore_of_refused hgo] at hr
    cases hr
    rfl
  · obtain ⟨h0, -, hlen⟩ := not_or.mp hgo |>.imp_right not_or.mp
    have hroom : (byPriority orders).length ≤ b.freeNodes.length := by
      rw [(byPriority_perm orders).length_eq, h.empty_room (not_not.mp h0)]
      omega
    rw [restore_of_not_refused last hgo] at hr
    rcases hloop : OrderBook.restoreLoop last b (byPriority orders) with ⟨b₁, e' | ⟨⟨⟩⟩⟩
    · rw [hloop] at hr
      cases hr
      rw [h.restoreLoop_error last hroom hloop]
      rfl
    · rw [hloop] at hr
      cases hr

/-- What is checked of a snapshot that has the header of one. -/
structure Admitted (bytes : RestingOrder → List UInt8) (file : SnapshotFile) : Prop where
  capacity : file.header.orderCount ≤ file.header.config.maximumOrders
  count : file.header.orderCount.toNat ≤ file.records.length
  checksum : file.header.checksum =
    checksumBytes ((file.records.take file.header.orderCount.toNat).flatMap bytes)
  config : file.header.config.Buildable
  orders : ∀ o ∈ file.records.take file.header.orderCount.toNat,
    Restorable file.header.config file.header.lastSequence o
  ids : ((file.records.take file.header.orderCount.toNat).map RestingOrder.orderId).Nodup

theorem Admitted.small {bytes : RestingOrder → List UInt8} {file : SnapshotFile}
    (h : Admitted bytes file) : ¬ file.header.orderCount.toNat > maxSize 40 := by
  obtain ⟨n, hn, -⟩ := h.config
  have hle := (ladder_of_checked hn).orders_le
  have hcapacity := UInt64.le_iff_toNat_le.mp h.capacity
  norm_num [maxSize, uint32Max] at hle ⊢
  omega

/-- The header that `write_snapshot` puts in front of every file. -/
def snapshotFileHeader : FileHeader :=
  { magic := snapshotMagic, version := 1, recordSize := restingOrderSize }

theorem readSnapshot_of_header {bytes : RestingOrder → List UInt8} {file : SnapshotFile}
    (hfile : file.header.file = snapshotFileHeader)
    (hcapacity : ¬ file.header.orderCount > file.header.config.maximumOrders)
    (hsmall : ¬ file.header.orderCount.toNat > maxSize 40) :
    readSnapshot bytes file =
      if file.records.length < file.header.orderCount.toNat ∨ file.header.checksum ≠
        checksumBytes ((file.records.take file.header.orderCount.toNat).flatMap bytes) then
        .error (.runtimeError "corrupt snapshot")
      else (do
        let book ← OrderBook.new file.header.config
        match book.restore file.header.lastSequence
          (file.records.take file.header.orderCount.toNat) with
        | (book, .ok ()) => .ok book
        | (_, .error e) => .error e) := by
  rw [readSnapshot]
  exact (if_neg (by simp [hfile, snapshotFileHeader, hcapacity])).trans (if_neg hsmall)

/-- **A snapshot is restored or refused.** -/
theorem readSnapshot_throws_iff {bytes : RestingOrder → List UInt8} {file : SnapshotFile}
    (hfile : file.header.file = snapshotFileHeader) :
    Throws (readSnapshot bytes file) ↔ ¬ Admitted bytes file := by
  by_cases hcapacity : file.header.orderCount > file.header.config.maximumOrders
  · refine iff_of_true ?_ fun h => UInt64.not_le.mpr hcapacity h.capacity
    rw [readSnapshot]
    dsimp only
    rw [if_pos (Or.inr (Or.inr (Or.inr hcapacity)))]
    exact throws_error rfl
  by_cases hsmall : file.header.orderCount.toNat > maxSize 40
  · refine iff_of_true ?_ fun h => h.small hsmall
    rw [readSnapshot]
    dsimp only
    rw [if_neg (by simp [hfile, snapshotFileHeader, hcapacity]), if_pos hsmall]
    exact throws_error rfl
  rw [readSnapshot_of_header hfile hcapacity hsmall]
  by_cases hbad : file.records.length < file.header.orderCount.toNat ∨ file.header.checksum ≠
      checksumBytes ((file.records.take file.header.orderCount.toNat).flatMap bytes)
  · refine iff_of_true ?_ fun h => hbad.elim (Nat.not_lt.mpr h.count) (absurd h.checksum)
    rw [if_pos hbad]
    exact throws_error rfl
  rw [if_neg hbad]
  have hgood := hbad
  simp only [not_or, not_not, Nat.not_lt] at hgood
  rcases new_cases file.header.config with ⟨hbuild, b, hnew⟩ | ⟨hnot, e, hnew, hthrown⟩
  · obtain ⟨hinv, hc, hstats⟩ := Inv.new hnew
    have hcount : (file.records.take file.header.orderCount.toNat).length =
        file.header.orderCount.toNat := by
      rw [List.length_take, Nat.min_eq_left hgood.1]
    have hiff : (∃ b', b.restore file.header.lastSequence
        (file.records.take file.header.orderCount.toNat) = (b', .ok ())) ↔ Admitted bytes file := by
      rw [hinv.restore_isOk_iff (by rw [hstats]) (by rw [hstats]), hc, hcount]
      constructor
      · rintro ⟨hlen, horders, hids⟩
        exact ⟨UInt64.le_iff_toNat_le.mpr hlen, hgood.1, hgood.2, hbuild, horders, hids⟩
      · intro h
        exact ⟨UInt64.le_iff_toNat_le.mp h.capacity, h.orders, h.ids⟩
    rw [← hiff, hnew]
    simp only [bind, Except.bind]
    rcases hr : b.restore file.header.lastSequence
      (file.records.take file.header.orderCount.toNat) with ⟨b', e | ⟨⟨⟩⟩⟩
    · exact iff_of_true (throws_error (hinv.restore_thrown hr)) (by simp)
    · refine iff_of_false ?_ (by simp)
      rintro ⟨e, he, -⟩
      cases he
  · refine iff_of_true ?_ fun h => hnot h.config
    rw [hnew]
    exact throws_error hthrown

end Dme
