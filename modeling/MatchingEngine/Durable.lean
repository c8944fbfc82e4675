import MatchingEngine.JournalFile
import MatchingEngine.Lib.Checkpoint
import MatchingEngine.Recovery
import MatchingEngine.SnapshotBytes

/-!
# An engine that crashes and recovers

`GatewayEngineRunner` with a `JournalWriter`, snapshots by `write_snapshot`, crashes, and the recovery
procedure of the design document, over any number of lives of the process. The journal's stream holds back
bytes; a snapshot is written beside the last one and then renamed. Crashes fall between the steps, and
inside of the writing of a snapshot: a request with its `append` and flush is one step, and so is a
restart.

* `Disk`, `LiveEngine`, `DurableEngine`: the files, a process, and both with the commands journaled.
* `CommandObjects`, `littleEndianCommands`: the object representation of commands.
* `spill`, `append`, `handle`, `restart`: what the source does; **`Step`**: any order of requests, flushes,
  snapshots, crashes and restarts.
* `restart_torn_header`: a journal that has lost a part of its header is refused.
* **`Recoverable`**: the last snapshot and the journal make up the history (`Checkpoint.Backed`);
  `Recoverable.handle`, `Recoverable.snapshotted`, **`Recoverable.restart`**, `Recoverable.step`.
* **`durable_engine_recovers`**, **`synchronous_journal_keeps_all`**.
-/

set_option autoImplicit false

namespace Dme

open Checkpoint (Backed)
open Protocol (word)

/-- **The object representation of commands**; what the padding holds is up to the compiler. -/
structure CommandObjects where
  object : Command → CommandObject
  read : CommandObject → Command
  read_object : ∀ c, read (object c) = c

/-- The members of a command at their offsets, and the padding after the first bytes. -/
def Command.fields (c : Command) : List (ℕ × List UInt8) :=
  [(0, Endian.store 8 c.sequence.toNat), (8, [c.type.code]), (9, [c.side.code]),
    (10, [c.orderType.code]), (11, [c.reserved]), (12, List.replicate 4 0),
    (16, Endian.store 8 c.orderId.toNat), (24, Endian.store 8 c.price.toUInt64.toNat),
    (32, Endian.store 8 c.quantity.toNat)]

theorem Command.bytes_eq_image (c : Command) : c.bytes = Layout.image c.fields := by
  simp [Command.bytes, Command.fields, littleEndian_eq_store]

/-- A command from its object representation. -/
def commandObjectAt (data : List UInt8) : Command where
  sequence := UInt64.ofNat (word data 0 8)
  type := if word data 8 1 = 0 then .new else if word data 8 1 = 1 then .cancel else .replace
  side := if word data 9 1 = 0 then .buy else .sell
  orderType := if word data 10 1 = 0 then .limit else if word data 10 1 = 1 then .market
    else if word data 10 1 = 2 then .immediateOrCancel else .fillOrKill
  reserved := UInt8.ofNat (word data 11 1)
  orderId := UInt64.ofNat (word data 16 8)
  price := (UInt64.ofNat (word data 24 8)).toInt64
  quantity := UInt64.ofNat (word data 32 8)

theorem commandObjectAt_bytes (c : Command) : commandObjectAt c.bytes = c := by
  have hcons : Layout.Consecutive 0 c.fields := by simp [Command.fields, Layout.Consecutive]
  have hword : ∀ offset (value : UInt64), (offset, Endian.store 8 value.toNat) ∈ c.fields →
      word c.bytes offset 8 = value.toNat := by
    intro offset value hmem
    have hread := Protocol.word_store hcons hmem value.toNat_lt []
    rwa [List.append_nil, ← Command.bytes_eq_image] at hread
  have hbyte : ∀ offset (byte : UInt8), (offset, [byte]) ∈ c.fields →
      word c.bytes offset 1 = byte.toNat := by
    intro offset byte hmem
    have hread := Protocol.word_byte hcons hmem []
    rwa [List.append_nil, ← Command.bytes_eq_image] at hread
  rw [commandObjectAt, hword 0 c.sequence (by simp [Command.fields]),
    hbyte 8 c.type.code (by simp [Command.fields]), hbyte 9 c.side.code (by simp [Command.fields]),
    hbyte 10 c.orderType.code (by simp [Command.fields]),
    hbyte 11 c.reserved (by simp [Command.fields]),
    hword 16 c.orderId (by simp [Command.fields]),
    hword 24 c.price.toUInt64 (by simp [Command.fields]),
    hword 32 c.quantity (by simp [Command.fields])]
  obtain ⟨sequence, type, side, orderType, reserved, orderId, price, quantity⟩ := c
  cases type <;> cases side <;> cases orderType <;>
    simp [CommandType.code, Side.code, OrderType.code]

/-- Commands on a little-endian machine, with zeros for padding. -/
def littleEndianCommands : CommandObjects where
  object := Command.object
  read command := commandObjectAt command.bytes
  read_object := commandObjectAt_bytes

/-- The files of an engine: its journal, the last snapshot and the file a snapshot is written to. -/
structure Disk where
  journal : JournalFile
  snapshot : Option (List UInt8) := none
  temporary : Option (List UInt8) := none

/-- A process: its book, the sequence of the next command, and the bytes that the stream of the journal
holds back. -/
structure LiveEngine where
  book : OrderBook
  nextEngineSequence : Sequence
  buffered : List UInt8 := []

/-- The files, the process if it runs, and the commands that were journaled. -/
structure DurableEngine where
  disk : Disk
  live : Option LiveEngine
  history : List Command

namespace DurableEngine

section Functions

variable (R : CommandObjects) (O : OrderObjects) (config : BookConfig) (synchronous powerLoss : Bool)

/-- The stream writes the first `n` of the bytes it holds back; with all of them, it is flushed. -/
def spill (disk : Disk) (e : LiveEngine) (n : ℕ) : Except Fault (Disk × LiveEngine) := do
  let journal ← disk.journal.writeExact (e.buffered.take n)
  .ok ({ disk with journal }, { e with buffered := e.buffered.drop n })

/-- `JournalWriter::append`. -/
def append (disk : Disk) (e : LiveEngine) (command : Command) : Except Fault (Disk × LiveEngine) :=
  let e := { e with buffered := e.buffered ++ (R.object command).record }
  if synchronous then spill disk e e.buffered.length else .ok (disk, e)

/-- The command of a request with its engine sequence. -/
def LiveEngine.number (e : LiveEngine) (command : Command) : Command :=
  { command with sequence := e.nextEngineSequence }

/-- A request that the runner pops: numbered, journaled, and then given to the book. -/
def handle (disk : Disk) (e : LiveEngine) (command : Command) :
    Except Fault (Disk × LiveEngine) := do
  let (disk, e') ← append R synchronous disk e (LiveEngine.number e command)
  let (book, _) ← e'.book.process (LiveEngine.number e command) []
  .ok (disk, { e' with book, nextEngineSequence := e'.nextEngineSequence + 1 })

/-- The latest snapshot, or a new book. -/
def load (disk : Disk) : Except Fault OrderBook :=
  match disk.snapshot with
  | none => OrderBook.new config
  | some bytes => readSnapshotFile (some bytes)

/-- **The recovery procedure**: the snapshot is loaded, later records are replayed, the journal is cut to
its valid bytes and opened again, and the runner resumes after the book's last sequence. -/
def restart (disk : Disk) : Except Fault (Disk × LiveEngine) := do
  let book ← load config disk
  let (book, result) ← JournalFile.replayJournal
    (fun book' command => feedLater book.stats.lastSequence book' (R.read command))
    (some disk.journal) book
  let journal ← JournalWriter.new (some (disk.journal.cut result.validBytes.toNat))
  .ok ({ disk with journal }, { book, nextEngineSequence := book.stats.lastSequence + 1 })

/-- **What can happen.** Fewer than `2 ^ 64` commands are journaled; a loss of power, if it is possible,
cuts the journal anywhere after its header. -/
inductive Step : DurableEngine → DurableEngine → Prop
  | handle {s : DurableEngine} {e e' : LiveEngine} {disk : Disk} (command : Command)
    (hlive : s.live = some e) (hlen : s.history.length + 1 < 2 ^ 64)
    (h : handle R synchronous s.disk e command = .ok (disk, e')) :
    Step s ⟨disk, some e', s.history ++ [LiveEngine.number e command]⟩
  | spill {s : DurableEngine} {e e' : LiveEngine} {disk : Disk} (n : ℕ) (hlive : s.live = some e)
    (h : spill s.disk e n = .ok (disk, e')) : Step s ⟨disk, some e', s.history⟩
  | snapshot {s : DurableEngine} {e : LiveEngine} {bytes : List UInt8} (hlive : s.live = some e)
    (h : e.book.writeSnapshotFile O = .ok bytes) :
    Step s { s with disk := { s.disk with snapshot := some bytes, temporary := none } }
  | snapshotCrash {s : DurableEngine} {e : LiveEngine} {bytes : List UInt8} (n : ℕ)
    (hlive : s.live = some e) (h : e.book.writeSnapshotFile O = .ok bytes) :
    Step s ⟨{ s.disk with temporary := some (bytes.take n) }, none, s.history⟩
  | crash {s : DurableEngine} : Step s { s with live := none }
  | powerLoss {s : DurableEngine} (n : ℕ) (hpower : powerLoss = true) (h16 : 16 ≤ n) :
    Step s ⟨{ s.disk with journal := s.disk.journal.cut n }, none, s.history⟩
  | restart {s : DurableEngine} {e : LiveEngine} {disk : Disk} (hdown : s.live = none)
    (h : restart R config s.disk = .ok (disk, e)) :
    Step s ⟨disk, some e, s.history.take e.book.stats.lastSequence.toNat⟩

end Functions

/-- The header is flushed and not synced when the journal is made: if a loss of power has cut it, there is
no recovery. -/
theorem restart_torn_header (R : CommandObjects) {config : BookConfig} {disk : Disk} {book : OrderBook}
    (hload : load config disk = .ok book) (h : disk.journal.bytes.length < 16) :
    restart R config disk = .error (.runtimeError "invalid journal header") := by
  have hcomp : compatible disk.journal.bytes = false := by
    rw [← Bool.not_eq_true]
    exact fun hcomp => absurd (length_of_compatible hcomp) (by omega)
  simp [restart, hload, JournalFile.replayJournal, hcomp, bind, Except.bind]

/-- An engine that starts with a new book and a new journal. -/
def start (book : OrderBook) (journal : JournalFile) : DurableEngine where
  disk := { journal }
  live := some { book, nextEngineSequence := book.stats.lastSequence + 1 }
  history := []

end DurableEngine

/-! ## Numbered commands -/

/-- The number of a command. -/
def Command.number (c : Command) : ℕ := c.sequence.toNat

section Numbered

variable {history log : List Command} {k : ℕ}

theorem inSequence_numbered (h : ∀ i c, history[i]? = some c → c.number = i + 1) :
    inSequence 0 history = history.length := by
  induction history using List.reverseRecOn with
  | nil => rfl
  | append_singleton history c ih =>
    have hc := h history.length c (by simp)
    have hrest := ih fun i d hd => h i d (by
      rw [List.getElem?_append_left (List.getElem?_eq_some_iff.mp hd).1, hd])
    have hseq : c.sequence = UInt64.ofNat (history.length + 1) := by
      rw [← hc, Command.number, UInt64.ofNat_toNat]
    rw [inSequence_append, hrest, inSequence, inSequence, if_pos hseq]
    simp

theorem market_later (hk : k < 2 ^ 64) :
    Market.later (UInt64.ofNat k) log = Checkpoint.later Command.number k log := by
  refine List.filter_congr fun c _ => decide_eq_decide.mpr ?_
  rw [UInt64.lt_iff_toNat_lt, UInt64.toNat_ofNat_of_lt' hk]
  rfl

variable {m₀ : Market} (h0 : m₀.lastSequence = 0)

include h0 in
theorem history_lastSequence (h : ∀ i c, history[i]? = some c → c.number = i + 1) :
    (m₀.run history).1.lastSequence = UInt64.ofNat history.length := by
  rw [m₀.run_inSequence (n := 0) h0, inSequence_numbered h]

theorem history_run (h : Backed Command.number history log k) :
    ((m₀.run (history.take k)).1.run (Checkpoint.later Command.number k log)).1 =
      (m₀.run history).1 := by
  rw [h.later, ← Market.run_append, List.take_append_drop]

end Numbered

theorem Inv.feedLater {b : OrderBook} {q : Queues} (h : Inv b q) (last : Sequence)
    (cs : List Command) : ∃ b' q', cs.foldlM (Dme.feedLater last) b = .ok b' ∧ Inv b' q' ∧
      b'.market q' = ((b.market q).run (Market.later last cs)).1 := by
  induction cs generalizing b q with
  | nil => exact ⟨b, q, rfl, h, rfl⟩
  | cons c cs ih =>
    by_cases hc : last < c.sequence
    · obtain ⟨b₁, q₁, hp, hinv, hm, -⟩ := h.process c []
      obtain ⟨b', q', hfold, hinv', hm'⟩ := ih hinv
      refine ⟨b', q', ?_, hinv', ?_⟩
      · simp only [List.foldlM_cons, Dme.feedLater, gt_iff_lt, hc, if_true, hp, bind, Except.bind]
        exact hfold
      · rw [hm', hm, Market.later_cons_of_lt hc]
        rfl
    · obtain ⟨b', q', hfold, hinv', hm'⟩ := ih h
      refine ⟨b', q', ?_, hinv', ?_⟩
      · simp only [List.foldlM_cons, Dme.feedLater, gt_iff_lt, hc, if_false, bind, Except.bind]
        exact hfold
      · rw [hm', Market.later_cons_of_not_lt hc]

theorem Inv.readSnapshotFile {b : OrderBook} {q : Queues} (h : Inv b q)
    (ha : (b.market q).Aged (· < ·)) (O : OrderObjects) {bytes : List UInt8}
    (hwrite : b.writeSnapshotFile O = .ok bytes) : ∃ b' q',
      Dme.readSnapshotFile (some bytes) = .ok b' ∧ Inv b' q' ∧ b'.market q' = b.market q := by
  obtain ⟨file, b', q', hfile, hread, hinv, hm⟩ := h.readSnapshot ha O.bytes
  obtain ⟨file', hfile', hbytes⟩ := bind_eq_ok.mp hwrite
  cases hfile.symm.trans hfile'
  cases hbytes
  have hmagic : file.header.file.magic = snapshotMagic := by
    obtain ⟨orders, -, heq⟩ := bind_eq_ok.mp hfile
    cases heq
    rfl
  have hsize := SnapshotHeader.length_bytes hmagic
  have hat := snapshotHeaderAt_bytes hmagic (file.records.flatMap O.bytes)
  refine ⟨b', q', ?_, hinv, hm⟩
  rw [SnapshotFile.bytes, readSnapshotFile_eq O (by rw [List.length_append]; omega)
    (List.drop_left' hsize), hat]
  exact hread

/-! ## The journal's stream -/

namespace DurableEngine

/-- The bytes of a journal of commands. -/
def stream (R : CommandObjects) (log : List Command) : List UInt8 :=
  journalHeader.bytes ++ (log.map R.object).flatMap CommandObject.record

section Stream

variable {R : CommandObjects} {log : List Command} {file : JournalFile}

theorem length_header : journalHeader.bytes.length = 16 := by decide

theorem stream_append (log' : List Command) :
    stream R (log ++ log') = stream R log ++ (log'.map R.object).flatMap CommandObject.record := by
  simp [stream]

theorem stream_take (n : ℕ) : stream R (log.take n) <+: stream R log := by
  conv_rhs => rw [← List.take_append_drop n log, stream_append]
  exact List.prefix_append ..

theorem length_stream (R : CommandObjects) (log : List Command) :
    (stream R log).length = 16 + 48 * log.length := by
  induction log using List.reverseRecOn with
  | nil => exact length_header
  | append_singleton log c ih =>
    rw [stream_append, List.length_append, ih, List.length_append]
    simp [length_record, Nat.mul_succ, Nat.add_assoc]

/-- **A file with the beginning of the stream** holds the commands whose records are whole. -/
theorem holds_of_prefix (h : file.bytes <+: stream R log) (h16 : 16 ≤ file.bytes.length) :
    ∃ n clean, Holds file ((log.take n).map R.object) clean ∧
      file.bytes.take (16 + 48 * ((log.take n).map R.object).length) = stream R (log.take n) ∧
      (file.bytes = stream R log → log.take n = log) := by
  have hfile : file.bytes = (stream R log).take file.bytes.length := List.prefix_iff_eq_take.mp h
  have hcomp : compatible file.bytes = true := by
    rw [← compatible_take, hfile, List.take_take, Nat.min_eq_left h16, compatible_take, stream,
      ← compatible_take, List.take_left' length_header]
    decide
  have hdrop : file.bytes.drop 16 =
      ((log.map R.object).flatMap CommandObject.record).take (file.bytes.length - 16) := by
    conv_lhs => rw [hfile]
    rw [List.drop_take, stream, List.drop_left' length_header]
  have hreads := Records.reads_flatMap length_record readRecord_record (log.map R.object)
  have hle := h.length_le
  rw [length_stream] at hle
  have hcut := hreads.cut (by decide) (n := file.bytes.length - 16) (by
    have hlen := length_stream R log
    rw [stream, List.length_append, length_header] at hlen
    omega)
  rw [← hdrop, ← List.map_take] at hcut
  have hholds : Holds file ((log.take ((file.bytes.length - 16) / 48)).map R.object) _ :=
    ⟨hcomp, hcut⟩
  refine ⟨_, _, hholds, ?_, fun heq => ?_⟩
  · have hwhole := length_stream R (log.take ((file.bytes.length - 16) / 48))
    rw [List.length_map, ← hwhole, eq_comm]
    refine List.prefix_iff_eq_take.mp (List.prefix_of_prefix_length_le (stream_take _) h ?_)
    have := hholds.length_le
    rwa [List.length_map, ← hwhole] at this
  · have hsame := congrArg List.length heq
    rw [length_stream] at hsame
    rw [hsame, Nat.add_sub_cancel_left, Nat.mul_div_cancel_left _ (by decide), List.take_length]

end Stream

/-! ## The invariant -/

/-- **The snapshot of `k` commands and the journal of `log` make up the history**; a running process has
its book where the history ends, and the stream of its journal where the log ends. -/
structure Recoverable (R : CommandObjects) (m₀ : Market) (s : DurableEngine) (k : ℕ)
    (log : List Command) : Prop where
  backed : Backed Command.number s.history log k
  length_lt : s.history.length < 2 ^ 64
  file : s.disk.journal.bytes <+: stream R log
  header : 16 ≤ s.disk.journal.bytes.length
  fresh : s.disk.snapshot = none → k = 0
  snapshot : ∀ bytes, s.disk.snapshot = some bytes → ∃ b q,
    readSnapshotFile (some bytes) = .ok b ∧ Inv b q ∧ b.market q = (m₀.run (s.history.take k)).1
  stream : ∀ e, s.live = some e → s.disk.journal.bytes ++ e.buffered = stream R log
  book : ∀ e, s.live = some e → e.nextEngineSequence = e.book.stats.lastSequence + 1 ∧
    ∃ q, Inv e.book q ∧ e.book.market q = (m₀.run s.history).1

section Steps

variable {R : CommandObjects} {O : OrderObjects} {config : BookConfig} {m₀ : Market}
  {s : DurableEngine} {k : ℕ} {log : List Command} {e e' : LiveEngine} {disk disk' : Disk}

theorem Recoverable.down (h : Recoverable R m₀ s k log) {disk : Disk}
    (hfile : disk.journal.bytes <+: s.disk.journal.bytes) (h16 : 16 ≤ disk.journal.bytes.length)
    (hsnap : disk.snapshot = s.disk.snapshot) : Recoverable R m₀ ⟨disk, none, s.history⟩ k log where
  backed := h.backed
  length_lt := h.length_lt
  file := hfile.trans h.file
  header := h16
  fresh hnone := h.fresh (hsnap ▸ hnone)
  snapshot bytes hbytes := h.snapshot bytes (hsnap ▸ hbytes)
  stream e he := by cases he
  book e he := by cases he

theorem Recoverable.spill (h : Recoverable R m₀ s k log) (hlive : s.live = some e) {n : ℕ}
    (hs : spill s.disk e n = .ok (disk, e')) :
    Recoverable R m₀ ⟨disk, some e', s.history⟩ k log := by
  obtain ⟨journal, hw, heq⟩ := bind_eq_ok.mp hs
  rw [JournalFile.writeExact] at hw
  split_ifs at hw with hlt
  cases hw
  cases heq
  have hstream := h.stream e hlive
  have hsplit : (s.disk.journal.bytes ++ e.buffered.take n) ++ e.buffered.drop n =
      DurableEngine.stream R log := by
    rw [List.append_assoc, List.take_append_drop, hstream]
  refine ⟨h.backed, h.length_lt, ⟨_, hsplit⟩, ?_, h.fresh, h.snapshot, ?_, ?_⟩
  · have := h.header
    rw [List.length_append]
    omega
  · rintro _ ⟨⟩
    exact hsplit
  · rintro _ ⟨⟩
    exact h.book e hlive

theorem append_spec {synchronous : Bool} {c : Command}
    (h : append R synchronous disk e c = .ok (disk', e')) :
    e'.book = e.book ∧ e'.nextEngineSequence = e.nextEngineSequence ∧
      disk'.snapshot = disk.snapshot ∧ disk.journal.bytes.length ≤ disk'.journal.bytes.length ∧
      disk'.journal.bytes ++ e'.buffered =
        disk.journal.bytes ++ e.buffered ++ (R.object c).record ∧
      (synchronous = true → e'.buffered = []) := by
  rw [append] at h
  dsimp only at h
  cases synchronous with
  | false =>
    rw [if_neg Bool.false_ne_true] at h
    cases h
    exact ⟨rfl, rfl, rfl, le_rfl, (List.append_assoc ..).symm, fun h => by cases h⟩
  | true =>
    rw [if_pos rfl] at h
    obtain ⟨journal, hw, heq⟩ := bind_eq_ok.mp h
    rw [JournalFile.writeExact] at hw
    split_ifs at hw
    cases hw
    cases heq
    refine ⟨rfl, rfl, rfl, by simp, ?_, fun _ => List.drop_length⟩
    dsimp only
    rw [List.take_length, List.drop_length, List.append_nil, List.append_assoc]

variable (h0 : m₀.lastSequence = 0) (hempty : m₀.depth = fun _ => [])

include h0 in
theorem Recoverable.number (h : Recoverable R m₀ s k log) (hlive : s.live = some e)
    (hlen : s.history.length + 1 < 2 ^ 64) (command : Command) :
    (LiveEngine.number e command).number = s.history.length + 1 := by
  obtain ⟨hnext, q, hinv, hm⟩ := h.book e hlive
  have hlast : e.book.stats.lastSequence = UInt64.ofNat s.history.length :=
    (congrArg Market.lastSequence hm).trans (history_lastSequence h0 h.backed.numbered)
  change e.nextEngineSequence.toNat = _
  rw [hnext, hlast, show (1 : UInt64) = UInt64.ofNat 1 from rfl, ← UInt64.ofNat_add,
    UInt64.toNat_ofNat_of_lt' hlen]

include h0 in
theorem Recoverable.handle {synchronous : Bool} {command : Command} (h : Recoverable R m₀ s k log)
    (hlive : s.live = some e) (hlen : s.history.length + 1 < 2 ^ 64)
    (hh : handle R synchronous s.disk e command = .ok (disk, e')) :
    Recoverable R m₀ ⟨disk, some e', s.history ++ [LiveEngine.number e command]⟩ k
      (log ++ [LiveEngine.number e command]) := by
  have hnumber := h.number h0 hlive hlen command
  obtain ⟨⟨disk₁, e₁⟩, happend, hh⟩ := bind_eq_ok.mp hh
  obtain ⟨⟨book, events⟩, hprocess, hh⟩ := bind_eq_ok.mp hh
  cases hh
  obtain ⟨hbook, hnext', hsnap, hgrow, hstream, -⟩ := append_spec happend
  obtain ⟨hnext, q, hinv, hm⟩ := h.book e hlive
  obtain ⟨book', q', hp, hinv', hm', -⟩ := hinv.process (LiveEngine.number e command) []
  rw [hbook, hp] at hprocess
  cases hprocess
  have hall : disk.journal.bytes ++ e₁.buffered =
      DurableEngine.stream R (log ++ [LiveEngine.number e command]) := by
    rw [hstream, h.stream e hlive, stream_append]
    simp
  have hmarket : (m₀.run (s.history ++ [LiveEngine.number e command])).1 =
      ((m₀.run s.history).1.process (LiveEngine.number e command)).1 := by
    rw [Market.run_append]
    rfl
  have hle := h.backed.le
  refine ⟨h.backed.concat hnumber, ?_, ⟨_, hall⟩, h.header.trans hgrow, fun hnone =>
    h.fresh (hsnap ▸ hnone), fun bytes hbytes => ?_, ?_, ?_⟩
  · rw [List.length_append]
    exact hlen
  · obtain ⟨b, q, hread, hinvb, hmb⟩ := h.snapshot bytes (hsnap ▸ hbytes)
    exact ⟨b, q, hread, hinvb, by rw [List.take_append_of_le_length hle]; exact hmb⟩
  · rintro _ ⟨⟩
    exact hall
  · rintro _ ⟨⟩
    refine ⟨?_, q', hinv', ?_⟩
    · have hlast : book.stats.lastSequence = e.nextEngineSequence := by
        refine (congrArg Market.lastSequence hm').trans ?_
        rw [Market.process_lastSequence]
        exact (if_pos hnext).trans hnext.symm
      dsimp only
      rw [hlast, hnext']
    · rw [hm', hm, hmarket]

include h0 hempty in
theorem Recoverable.snapshotted (h : Recoverable R m₀ s k log) (hlive : s.live = some e)
    {bytes : List UInt8} (hw : e.book.writeSnapshotFile O = .ok bytes) :
    Recoverable R m₀ { s with disk := { s.disk with snapshot := some bytes, temporary := none } }
      s.history.length log := by
  obtain ⟨hnext, q, hinv, hm⟩ := h.book e hlive
  have ha : (e.book.market q).Aged (· < ·) := by
    rw [hm]
    refine (Market.aged_of_empty hempty).run (fun _ _ h => h) (fun s => ?_) (n := 0) h0 _ ?_
    · rw [hempty]
      exact List.Pairwise.nil
    · rw [inSequence_numbered h.backed.numbered]
      exact h.length_lt
  obtain ⟨b', q', hread, hinv', hm'⟩ := hinv.readSnapshotFile ha O hw
  refine ⟨h.backed.checkpoint, h.length_lt, h.file, h.header, fun hnone => ?_, ?_, h.stream, h.book⟩
  · cases hnone
  · rintro _ ⟨⟩
    exact ⟨b', q', hread, hinv', by rw [hm', hm, List.take_length]⟩

include h0 in
theorem Recoverable.load (h : Recoverable R m₀ s k log) {b₀ : OrderBook} {q₀ : Queues}
    (hnew : OrderBook.new config = .ok b₀) (hinv₀ : Inv b₀ q₀) (hm₀ : b₀.market q₀ = m₀) :
    ∃ b q, load config s.disk = .ok b ∧ Inv b q ∧ b.market q = (m₀.run (s.history.take k)).1 ∧
      b.stats.lastSequence = UInt64.ofNat k := by
  have hlast : (m₀.run (s.history.take k)).1.lastSequence = UInt64.ofNat k := by
    rw [history_lastSequence h0 fun i c hc => ?_, List.length_take, Nat.min_eq_left h.backed.le]
    rw [List.getElem?_take] at hc
    split_ifs at hc
    exact h.backed.numbered i c hc
  cases hs : s.disk.snapshot with
  | none =>
    have hk := h.fresh hs
    subst hk
    exact ⟨b₀, q₀, by rw [DurableEngine.load, hs]; exact hnew, hinv₀, hm₀,
      (congrArg Market.lastSequence hm₀).trans h0⟩
  | some bytes =>
    obtain ⟨b, q, hread, hinv, hm⟩ := h.snapshot bytes hs
    exact ⟨b, q, by rw [DurableEngine.load, hs]; exact hread, hinv, hm,
      (congrArg Market.lastSequence hm).trans hlast⟩

include h0 in
/-- **Recovery succeeds**, and loses at most commands that neither the snapshot nor the file has; if the
file has all of the log, it loses nothing. -/
theorem Recoverable.restart (h : Recoverable R m₀ s k log) {b₀ : OrderBook} {q₀ : Queues}
    (hnew : OrderBook.new config = .ok b₀) (hinv₀ : Inv b₀ q₀) (hm₀ : b₀.market q₀ = m₀) :
    ∃ disk e log' clean, restart R config s.disk = .ok (disk, e) ∧
      Holds s.disk.journal (log'.map R.object) clean ∧
      Recoverable R m₀ ⟨disk, some e, s.history.take e.book.stats.lastSequence.toNat⟩ k log' ∧
      e.buffered = [] ∧ e.book.stats.lastSequence.toNat ≤ s.history.length ∧
      (s.disk.journal.bytes = DurableEngine.stream R log →
        e.book.stats.lastSequence.toNat = s.history.length) := by
  obtain ⟨j, clean, hholds, hkeep, hwhole⟩ := holds_of_prefix h.file h.header
  obtain ⟨n, hkn, hback⟩ := h.backed.cut j
  obtain ⟨b₁, q₁, hload, hinv₁, hm₁, hlast₁⟩ := h.load h0 hnew hinv₀ hm₀
  obtain ⟨b₂, q₂, hfeed, hinv₂, hm₂⟩ := hinv₁.feedLater b₁.stats.lastSequence (log.take j)
  have hk : k < 2 ^ 64 := h.backed.le.trans_lt h.length_lt
  -- the book that is recovered is where the commands that are kept lead
  have hkept : b₂.market q₂ = (m₀.run (s.history.take n)).1 := by
    rw [hm₂, hm₁, hlast₁, market_later hk, ← history_run hback, List.take_take,
      Nat.min_eq_left hkn]
  have hlen : (s.history.take n).length ≤ s.history.length := by
    rw [List.length_take]
    omega
  have hlast : b₂.stats.lastSequence.toNat = (s.history.take n).length := by
    have : b₂.stats.lastSequence = UInt64.ofNat (s.history.take n).length :=
      (congrArg Market.lastSequence hkept).trans (history_lastSequence h0 hback.numbered)
    rw [this, UInt64.toNat_ofNat_of_lt' (hlen.trans_lt h.length_lt)]
  have htake : s.history.take b₂.stats.lastSequence.toNat = s.history.take n := by
    rw [hlast]
    exact (List.prefix_iff_eq_take.mp (List.take_prefix n s.history)).symm
  have hcut : ((s.disk.journal.cut (16 + 48 * ((log.take j).map R.object).length)).bytes) =
      DurableEngine.stream R (log.take j) := hkeep
  refine ⟨{ s.disk with
      journal := s.disk.journal.cut (16 + 48 * ((log.take j).map R.object).length) },
    { book := b₂, nextEngineSequence := b₂.stats.lastSequence + 1 }, log.take j, clean, ?_, hholds, ?_,
    rfl, hlast.trans_le hlen, fun heq => ?_⟩
  · have hreplay : JournalFile.replayJournal
        (fun book command => feedLater b₁.stats.lastSequence book (R.read command))
        (some s.disk.journal) b₁ =
          .ok (b₂, replayed ((log.take j).map R.object).length clean) := by
      rw [hholds.delivers, List.foldlM_map]
      simp only [R.read_object]
      rw [hfeed]
      rfl
    refine bind_eq_ok.mpr ⟨b₁, hload, bind_eq_ok.mpr ⟨_, hreplay, ?_⟩⟩
    dsimp only
    rw [hholds.replayed_toNat.2, hholds.keep.reopen]
    rfl
  · dsimp only
    rw [htake]
    refine ⟨hback, hlen.trans_lt h.length_lt, by rw [hcut], ?_, h.fresh, fun bytes hbytes => ?_, ?_, ?_⟩
    · rw [hcut, length_stream]
      omega
    · obtain ⟨b, q, hread, hinv, hm⟩ := h.snapshot bytes hbytes
      exact ⟨b, q, hread, hinv, by rw [List.take_take, Nat.min_eq_left hkn]; exact hm⟩
    · rintro _ ⟨⟩
      exact (List.append_nil _).trans hcut
    · rintro _ ⟨⟩
      exact ⟨rfl, q₂, hinv₂, hkept⟩
  · dsimp only
    rw [hlast]
    rw [hwhole heq] at hback
    have hdrop := hback.later.symm.trans h.backed.later
    have hsame := congrArg List.length hdrop
    have hle := h.backed.le
    have hle' := hback.le
    simp only [List.length_drop] at hsame
    omega

theorem stream_new {path : Option JournalFile} (h : IsNew path) {file : JournalFile}
    (hfile : JournalWriter.new path = .ok file) : file.bytes = stream R [] := by
  obtain ⟨_, hnew⟩ := h.writes_header
  cases hfile.symm.trans hnew
  rfl

theorem Recoverable.start {b₀ : OrderBook} {q₀ : Queues} (hinv₀ : Inv b₀ q₀) {file : JournalFile}
    (hbytes : file.bytes = DurableEngine.stream R []) :
    Recoverable R (b₀.market q₀) (DurableEngine.start b₀ file) 0 [] where
  backed := .nil
  length_lt := by simp [DurableEngine.start]
  file := hbytes ▸ List.prefix_rfl
  header := (congrArg List.length hbytes).trans (length_stream R []) |>.ge
  fresh _ := rfl
  snapshot _ hnone := by cases hnone
  stream := by
    rintro _ ⟨⟩
    exact (List.append_nil _).trans hbytes
  book := by
    rintro _ ⟨⟩
    exact ⟨rfl, q₀, hinv₀, rfl⟩

/-- The file has all that was ever given to the stream. -/
def Flushed (R : CommandObjects) (s : DurableEngine) (log : List Command) : Prop :=
  s.disk.journal.bytes = DurableEngine.stream R log

theorem Recoverable.buffered_nil (h : Recoverable R m₀ s k log) (hflushed : Flushed R s log)
    (hlive : s.live = some e) : e.buffered = [] := by
  have hstream := h.stream e hlive
  rw [← hflushed] at hstream
  exact List.append_right_eq_self.mp hstream

include h0 hempty in
/-- **Every step keeps the history recoverable**; with a synchronous journal and no loss of power, the
file has all of it. -/
theorem Recoverable.step {synchronous powerLoss : Bool} {s' : DurableEngine}
    (h : Recoverable R m₀ s k log) {b₀ : OrderBook} {q₀ : Queues}
    (hnew : OrderBook.new config = .ok b₀) (hinv₀ : Inv b₀ q₀) (hm₀ : b₀.market q₀ = m₀)
    (hstep : Step R O config synchronous powerLoss s s') :
    ∃ k' log', Recoverable R m₀ s' k' log' ∧
      (synchronous = true → powerLoss = false → Flushed R s log → Flushed R s' log') := by
  cases hstep with
  | handle command hlive hlen hh =>
    have h' := h.handle h0 hlive hlen hh
    refine ⟨_, _, h', fun hsync _ _ => ?_⟩
    obtain ⟨⟨disk₁, e₁⟩, happend, hh⟩ := bind_eq_ok.mp hh
    obtain ⟨⟨book, events⟩, -, hh⟩ := bind_eq_ok.mp hh
    cases hh
    obtain ⟨-, -, -, -, -, hnil⟩ := append_spec happend
    have hstream := h'.stream _ rfl
    rw [hnil hsync, List.append_nil] at hstream
    exact hstream
  | spill n hlive hs =>
    have h' := h.spill hlive hs
    refine ⟨_, _, h', fun _ _ hflushed => ?_⟩
    have hnil := h.buffered_nil hflushed hlive
    obtain ⟨journal, -, heq⟩ := bind_eq_ok.mp hs
    cases heq
    have hstream := h'.stream _ rfl
    dsimp only at hstream
    rw [hnil, List.drop_nil, List.append_nil] at hstream
    exact hstream
  | snapshot hlive hw => exact ⟨_, _, h.snapshotted h0 hempty hlive hw, fun _ _ hflushed => hflushed⟩
  | snapshotCrash n hlive hw =>
    exact ⟨_, _, h.down List.prefix_rfl h.header rfl, fun _ _ hflushed => hflushed⟩
  | crash => exact ⟨_, _, h.down List.prefix_rfl h.header rfl, fun _ _ hflushed => hflushed⟩
  | powerLoss n hpower h16 =>
    refine ⟨_, _, h.down (List.take_prefix ..) ?_ rfl, fun _ hno => ?_⟩
    · have := h.header
      simp only [JournalFile.cut, List.length_take]
      omega
    · rw [hpower] at hno
      cases hno
  | restart hdown hr =>
    obtain ⟨disk, e, log', clean, hr', -, h', hnil, -, -⟩ := h.restart h0 hnew hinv₀ hm₀
    cases hr.symm.trans hr'
    refine ⟨_, _, h', fun _ _ _ => ?_⟩
    have hstream := h'.stream _ rfl
    rw [hnil, List.append_nil] at hstream
    exact hstream

end Steps

/-! ## Whole runs -/

section Runs

variable {R : CommandObjects} {O : OrderObjects} {config : BookConfig} {b₀ : OrderBook}
  {synchronous powerLoss : Bool} {path : Option JournalFile} {file : JournalFile} {s : DurableEngine}

/-- **In every run** the history stays recoverable. -/
theorem recoverable_run (hnew : OrderBook.new config = .ok b₀) (hpath : IsNew path)
    (hfile : JournalWriter.new path = .ok file)
    (h : Relation.ReflTransGen (Step R O config synchronous powerLoss) (start b₀ file) s) :
    (b₀.market fun _ _ => []).lastSequence = 0 ∧ ∃ k log,
      Recoverable R (b₀.market fun _ _ => []) s k log ∧
      (synchronous = true → powerLoss = false → Flushed R s log) := by
  obtain ⟨hinv₀, -, hstats⟩ := Inv.new hnew
  have h0 : (b₀.market fun _ _ => []).lastSequence = 0 := by
    change b₀.stats.lastSequence = 0
    rw [hstats]
  have hempty : (b₀.market fun _ _ => []).depth = fun _ => [] := hinv₀.empty_depth (by rw [hstats])
  refine ⟨h0, ?_⟩
  induction h with
  | refl =>
    have hbytes : file.bytes = stream R [] := stream_new hpath hfile
    exact ⟨0, [], Recoverable.start hinv₀ hbytes, fun _ _ => hbytes⟩
  | tail _ hstep ih =>
    obtain ⟨k, log, hrec, hflushed⟩ := ih
    obtain ⟨k', log', hrec', hflushed'⟩ := hrec.step h0 hempty hnew hinv₀ rfl hstep
    exact ⟨k', log', hrec', fun hs hp => hflushed' hs hp (hflushed hs hp)⟩

/-- **The engine recovers from every crash** while fewer than `2 ^ 64` commands are journaled. Whatever
requests, flushes, snapshots, crashes (also while a snapshot is written), losses of power that cut the
journal after its header, and restarts there have been, in whatever order: the book of a running engine is
alike to one that has processed the history from the start; and from the files alone, as they are now, the
procedure recovers a book alike to one that has processed the beginning of the history, which includes all
commands of the last snapshot and all commands with whole records in the journal. -/
theorem durable_engine_recovers (hnew : OrderBook.new config = .ok b₀) (hpath : IsNew path)
    (hfile : JournalWriter.new path = .ok file)
    (h : Relation.ReflTransGen (Step R O config synchronous powerLoss) (start b₀ file) s) :
    (∀ e, s.live = some e → ∃ b evs, b₀.run s.history = .ok (b, evs) ∧ Alike b e.book) ∧
      ∃ disk e, restart R config s.disk = .ok (disk, e) ∧
        (∃ b evs, b₀.run (s.history.take e.book.stats.lastSequence.toNat) = .ok (b, evs) ∧
          Alike b e.book) ∧
        e.book.stats.lastSequence.toNat ≤ s.history.length ∧
        (∀ b, load config s.disk = .ok b →
          b.stats.lastSequence ≤ e.book.stats.lastSequence) ∧
        ∀ xs result, Delivers (some s.disk.journal) xs result →
          ∀ x ∈ xs, (R.read x).sequence ≤ e.book.stats.lastSequence := by
  obtain ⟨hinv₀, -, -⟩ := Inv.new hnew
  obtain ⟨h0, k, log, hrec, -⟩ := recoverable_run hnew hpath hfile h
  have halike : ∀ (history : List Command) (b : OrderBook) (q : Queues), Inv b q →
      b.market q = ((b₀.market fun _ _ => []).run history).1 →
      ∃ b' evs, b₀.run history = .ok (b', evs) ∧ Alike b' b := by
    intro history b q hinv hm
    obtain ⟨b', q', hrun, hinv', hm', -⟩ := hinv₀.run history
    exact ⟨b', _, hrun, hinv'.alike hinv (hm.trans hm'.symm)⟩
  refine ⟨fun e he => ?_, ?_⟩
  · obtain ⟨-, q, hinv, hm⟩ := hrec.book e he
    exact halike _ _ q hinv hm
  · obtain ⟨disk, e, log', clean, hr, hholds, hrec', -, hle, -⟩ := hrec.restart h0 hnew hinv₀ rfl
    obtain ⟨-, q, hinv, hm⟩ := hrec'.book e rfl
    have hlength : (s.history.take e.book.stats.lastSequence.toNat).length =
        e.book.stats.lastSequence.toNat := by
      rw [List.length_take, Nat.min_eq_left hle]
    refine ⟨disk, e, hr, halike _ _ q hinv hm, hle, fun b hb => ?_, fun xs result hxs x hx => ?_⟩
    · obtain ⟨b', q', hload, -, -, hlast⟩ := hrec.load h0 hnew hinv₀ rfl
      cases hb.symm.trans hload
      have hk := hrec'.backed.le
      rw [hlength] at hk
      rw [hlast, UInt64.le_iff_toNat_le, UInt64.toNat_ofNat_of_lt'
        (hrec.backed.le.trans_lt hrec.length_lt)]
      exact hk
    · obtain ⟨rfl, -⟩ := hxs.unique hholds.delivers
      obtain ⟨c, hc, rfl⟩ := List.mem_map.mp hx
      rw [R.read_object, UInt64.le_iff_toNat_le]
      have hnumber := hrec'.backed.number_le hc
      rw [hlength] at hnumber
      exact hnumber

/-- A snapshot after the first of two commands, and a crash with the record of the second one torn: the
book of the first command is recovered. -/
theorem durable_engine_recovers_torn : ∃ b₀ file s disk e b evs,
    OrderBook.new ⟨1, 4, 1, 2⟩ = .ok b₀ ∧ JournalWriter.new none = .ok file ∧
      Relation.ReflTransGen (Step littleEndianCommands littleEndianOrders ⟨1, 4, 1, 2⟩ false true)
        (start b₀ file) s ∧ s.history.length = 2 ∧
      restart littleEndianCommands ⟨1, 4, 1, 2⟩ s.disk = .ok (disk, e) ∧
      e.book.stats.lastSequence = 1 ∧ b₀.run (s.history.take 1) = .ok (b, evs) ∧ Alike b e.book := by
  have hrun : ((do
      let b₀ ← OrderBook.new ⟨1, 4, 1, 2⟩
      let file ← JournalWriter.new none
      let s₁ ← handle littleEndianCommands false { journal := file }
        { book := b₀, nextEngineSequence := b₀.stats.lastSequence + 1 } ⟨0, .new, .buy, .limit, 0, 7, 2, 5⟩
      let bytes ← s₁.2.book.writeSnapshotFile littleEndianOrders
      let s₂ ← handle littleEndianCommands false { s₁.1 with snapshot := some bytes, temporary := none }
        s₁.2 ⟨0, .new, .sell, .limit, 0, 8, 2, 3⟩
      let s₃ ← spill s₂.1 s₂.2 60
      let s₄ ← restart littleEndianCommands ⟨1, 4, 1, 2⟩ s₃.1
      .ok s₄.2.book.stats.lastSequence) : Except Fault Sequence) = .ok 1 := by decide +kernel
  obtain ⟨b₀, hnew, hrun⟩ := bind_eq_ok.mp hrun
  obtain ⟨file, hfile, hrun⟩ := bind_eq_ok.mp hrun
  obtain ⟨⟨disk₁, e₁⟩, h₁, hrun⟩ := bind_eq_ok.mp hrun
  obtain ⟨bytes, hbytes, hrun⟩ := bind_eq_ok.mp hrun
  obtain ⟨⟨disk₂, e₂⟩, h₂, hrun⟩ := bind_eq_ok.mp hrun
  obtain ⟨⟨disk₃, e₃⟩, h₃, hrun⟩ := bind_eq_ok.mp hrun
  obtain ⟨⟨disk₄, e₄⟩, h₄, hrun⟩ := bind_eq_ok.mp hrun
  have hlast := Except.ok.inj hrun
  have hsteps : Relation.ReflTransGen
      (Step littleEndianCommands littleEndianOrders ⟨1, 4, 1, 2⟩ false true) (start b₀ file) _ :=
    ((((Relation.ReflTransGen.single (.handle _ rfl (by simp [start]) h₁)).tail
      (.snapshot rfl hbytes)).tail (.handle _ rfl (by simp [start]) h₂)).tail (.spill 60 rfl h₃)).tail
      .crash
  obtain ⟨-, disk, e, hr, ⟨b, evs, hb, halike⟩, -⟩ :=
    durable_engine_recovers hnew (by rintro _ ⟨⟩) hfile hsteps
  cases hr.symm.trans h₄
  dsimp only at hlast
  rw [hlast] at hb
  exact ⟨b₀, file, _, _, _, b, evs, hnew, hfile, hsteps, rfl, h₄, hlast, hb, halike⟩

/-- **A synchronous journal loses nothing** as long as the power stays on and fewer than `2 ^ 64` commands
are journaled: whatever else has happened, from the files alone a book is recovered that is alike to one
that has processed all commands ever journaled. -/
theorem synchronous_journal_keeps_all (hnew : OrderBook.new config = .ok b₀) (hpath : IsNew path)
    (hfile : JournalWriter.new path = .ok file)
    (h : Relation.ReflTransGen (Step R O config true false) (start b₀ file) s) :
    ∃ disk e b evs, restart R config s.disk = .ok (disk, e) ∧ b₀.run s.history = .ok (b, evs) ∧
      Alike b e.book ∧ s.history.take e.book.stats.lastSequence.toNat = s.history := by
  obtain ⟨hinv₀, -, -⟩ := Inv.new hnew
  obtain ⟨h0, k, log, hrec, hflushed⟩ := recoverable_run hnew hpath hfile h
  obtain ⟨disk, e, log', clean, hr, -, hrec', -, -, hall⟩ := hrec.restart h0 hnew hinv₀ rfl
  have htake : s.history.take e.book.stats.lastSequence.toNat = s.history := by
    rw [hall (hflushed rfl rfl), List.take_length]
  obtain ⟨-, q, hinv, hm⟩ := hrec'.book e rfl
  dsimp only at hm
  rw [htake] at hm
  obtain ⟨b, q', hrun, hinv', hm', -⟩ := hinv₀.run s.history
  exact ⟨disk, e, b, _, hr, hrun, hinv'.alike hinv (hm.trans hm'.symm), htake⟩

/-- Two commands and a crash. -/
theorem synchronous_journal_keeps_all_two : ∃ b₀ file s disk e b evs,
    OrderBook.new ⟨1, 4, 1, 2⟩ = .ok b₀ ∧ JournalWriter.new none = .ok file ∧
      Relation.ReflTransGen (Step littleEndianCommands littleEndianOrders ⟨1, 4, 1, 2⟩ true false)
        (start b₀ file) s ∧ s.history.length = 2 ∧ s.live.isNone ∧
      restart littleEndianCommands ⟨1, 4, 1, 2⟩ s.disk = .ok (disk, e) ∧
      b₀.run s.history = .ok (b, evs) ∧ Alike b e.book := by
  have hrun : ((do
      let b₀ ← OrderBook.new ⟨1, 4, 1, 2⟩
      let file ← JournalWriter.new none
      let s₁ ← handle littleEndianCommands true { journal := file }
        { book := b₀, nextEngineSequence := b₀.stats.lastSequence + 1 } ⟨0, .new, .buy, .limit, 0, 7, 2, 5⟩
      let s₂ ← handle littleEndianCommands true s₁.1 s₁.2 ⟨0, .new, .sell, .limit, 0, 8, 2, 3⟩
      .ok s₂.1.journal.bytes.length) : Except Fault ℕ) = .ok 112 := by decide +kernel
  obtain ⟨b₀, hnew, hrun⟩ := bind_eq_ok.mp hrun
  obtain ⟨file, hfile, hrun⟩ := bind_eq_ok.mp hrun
  obtain ⟨⟨disk₁, e₁⟩, h₁, hrun⟩ := bind_eq_ok.mp hrun
  obtain ⟨⟨disk₂, e₂⟩, h₂, -⟩ := bind_eq_ok.mp hrun
  have hsteps : Relation.ReflTransGen
      (Step littleEndianCommands littleEndianOrders ⟨1, 4, 1, 2⟩ true false) (start b₀ file) _ :=
    ((Relation.ReflTransGen.single (.handle _ rfl (by simp [start]) h₁)).tail
      (.handle _ rfl (by simp [start]) h₂)).tail .crash
  obtain ⟨disk, e, b, evs, hr, hb, halike, -⟩ :=
    synchronous_journal_keeps_all hnew (by rintro _ ⟨⟩) hfile hsteps
  exact ⟨b₀, file, _, disk, e, b, evs, hnew, hfile, hsteps, rfl, rfl, hr, hb, halike⟩

end Runs

end DurableEngine

end Dme
