import MatchingEngine.Types

/-!
# The journal

`JournalWriter::append` and `replay_journal` of `journal.cpp`. The journal is taken record by
record, without its header; `bytes` is the object representation of a command, which is up to the
compiler.

* `checksumBytes`; `Command.bytes`: the representation on a little-endian machine.
* `appendRecord`, `replayJournal`; `recordsOf`: the intact records of commands.
-/

set_option autoImplicit false

namespace Dme

/-! ## Checksums -/

/-- `checksum_bytes`, in the manner of FNV-1a. -/
def checksumBytes (bytes : List UInt8) : UInt64 :=
  bytes.foldl (fun hash byte => (hash ^^^ byte.toUInt64) * 1099511628211) 1469598103934665603

/-- The bytes of a word, the least significant one first. -/
def littleEndian (word : UInt64) : List UInt8 :=
  ([0, 8, 16, 24, 32, 40, 48, 56] : List UInt64).map fun shift => (word >>> shift).toUInt8

/-- The value of a side in memory and on the wire. -/
def Side.code : Side → UInt8
  | .buy => 0
  | .sell => 1

/-- The value of an order type in memory and on the wire. -/
def OrderType.code : OrderType → UInt8
  | .limit => 0
  | .market => 1
  | .immediateOrCancel => 2
  | .fillOrKill => 3

/-- The value of a command type in memory. -/
def CommandType.code : CommandType → UInt8
  | .new => 0
  | .cancel => 1
  | .replace => 2

/-- The representation of a command on a little-endian machine, with zeros for padding. -/
def Command.bytes (c : Command) : List UInt8 :=
  littleEndian c.sequence ++ [c.type.code, c.side.code, c.orderType.code, c.reserved, 0, 0, 0, 0] ++
    littleEndian c.orderId ++ littleEndian c.price.toUInt64 ++ littleEndian c.quantity

/-! ## Records -/

/-- A record of the journal: a command, and the checksum of its bytes. -/
structure JournalRecord where
  command : Command
  checksum : UInt64
deriving DecidableEq, Repr

/-- What `replay_journal` reports. -/
structure ReplayResult where
  records : UInt64 := 0
  validBytes : UInt64 := 0
  cleanEnd : Bool := true
deriving DecidableEq, Repr

/-- `sizeof(FileHeader)`. -/
def fileHeaderSize : UInt64 := 16

/-- `sizeof(JournalRecord)`. -/
def journalRecordSize : UInt64 := 48

variable (bytes : Command → List UInt8)

/-- `JournalWriter::append`. -/
def appendRecord (journal : List JournalRecord) (command : Command) : List JournalRecord :=
  journal ++ [⟨command, checksumBytes (bytes command)⟩]

/-- The loop of `replay_journal`; `consumer` changes the state of its caller. -/
def replayLoop {σ : Type} (consumer : σ → Command → Except Fault σ) :
    List JournalRecord → σ → ReplayResult → Except Fault (σ × ReplayResult)
  | [], state, result => .ok (state, result)
  | record :: journal, state, result =>
    if record.checksum ≠ checksumBytes (bytes record.command) then
      .ok (state, { result with cleanEnd := false })
    else do
      let state ← consumer state record.command
      replayLoop consumer journal state { result with
        records := result.records + 1
        validBytes := result.validBytes + journalRecordSize }

/-- `replay_journal`, after the header has been checked. -/
def replayJournal {σ : Type} (consumer : σ → Command → Except Fault σ)
    (journal : List JournalRecord) (state : σ) : Except Fault (σ × ReplayResult) :=
  replayLoop bytes consumer journal state ⟨0, fileHeaderSize, true⟩

/-- The records of commands. -/
def recordsOf (cs : List Command) : List JournalRecord :=
  cs.map fun c => ⟨c, checksumBytes (bytes c)⟩

end Dme
