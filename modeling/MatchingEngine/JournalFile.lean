import MatchingEngine.Journal
import MatchingEngine.Lib.Endian
import MatchingEngine.Lib.Records

/-!
# The journal file

`JournalWriter` and `replay_journal` of `journal.cpp`, byte by byte. Commands are their object
representations: 40 bytes, padding included.

* `CommandObject`, `JournalFile`: a file is smaller than `2 ^ 64` bytes, the range of
  `std::uintmax_t`; a write that would make it larger fails.
* `JournalWriter.new`, `JournalWriter.append`, `JournalFile.replayJournal`.
* `Delivers path xs result`: replaying gives the consumer the commands `xs` in order, and then returns
  `result`.
* `Holds`, **`Holds.delivers`**: the loop reads a log of records. **`IsNew.sessions`**: writers write one.
* **`journal_crash_recovery`**.
-/

set_option autoImplicit false

namespace Dme

/-! ## Files -/

/-- The object representation of a command. -/
structure CommandObject where
  bytes : List UInt8
  size : bytes.length = 40
deriving DecidableEq, Repr

theorem length_littleEndian (word : UInt64) : (littleEndian word).length = 8 := rfl

/-- The representation of a command on a little-endian machine, with zeros for padding. -/
def Command.object (c : Command) : CommandObject :=
  ⟨c.bytes, by simp [Command.bytes, length_littleEndian]⟩

/-- The contents of a file. -/
structure JournalFile where
  bytes : List UInt8
  size_lt : bytes.length < 2 ^ 64
deriving DecidableEq, Repr

/-- What `write_exact` throws. -/
def writeFailed : Fault := .runtimeError "persistence write failed"

/-- `write_exact` on a stream opened to append. -/
def JournalFile.writeExact (file : JournalFile) (data : List UInt8) : Except Fault JournalFile :=
  if h : (file.bytes ++ data).length < 2 ^ 64 then .ok ⟨file.bytes ++ data, h⟩
  else .error writeFailed

/-- The file cut to its first `n` bytes. -/
def JournalFile.cut (file : JournalFile) (n : ℕ) : JournalFile :=
  ⟨file.bytes.take n, by
    have := file.size_lt
    rw [List.length_take]
    omega⟩

/-! ## Headers -/

/-- The header of a file. -/
structure JournalHeader where
  magic : List UInt8
  version : UInt32
  recordSize : UInt32
deriving DecidableEq, Repr

/-- `{'D','M','E','J','N','L','1','\0'}` -/
def journalMagic : List UInt8 := [68, 77, 69, 74, 78, 76, 49, 0]

/-- The object representation of a header. -/
def JournalHeader.bytes (header : JournalHeader) : List UInt8 :=
  header.magic ++ Endian.store 4 header.version.toNat ++ Endian.store 4 header.recordSize.toNat

/-- Reading a header; `none` if the stream is too short. -/
def readHeader (stream : List UInt8) : Option JournalHeader :=
  if stream.length < 16 then none
  else some {
    magic := stream.take 8
    version := UInt32.ofNat (Endian.load ((stream.drop 8).take 4))
    recordSize := UInt32.ofNat (Endian.load ((stream.drop 12).take 4)) }

/-- The check that the writer and the reader make. -/
def compatible (stream : List UInt8) : Bool :=
  match readHeader stream with
  | none => false
  | some header => header.magic = journalMagic ∧ header.version = 1 ∧ header.recordSize = 48

/-- The header that a new journal is given. -/
def journalHeader : JournalHeader := ⟨journalMagic, 1, 48⟩

/-! ## Writing -/

/-- The constructor; there may be no file at the path. -/
def JournalWriter.new (path : Option JournalFile) : Except Fault JournalFile :=
  match path with
  | none => JournalFile.writeExact ⟨[], by decide⟩ journalHeader.bytes
  | some file =>
    if file.bytes.length = 0 then file.writeExact journalHeader.bytes
    else if compatible file.bytes then .ok file
    else .error (.runtimeError "refusing to append to an incompatible journal")

/-- The bytes of the record of a command. -/
def CommandObject.record (command : CommandObject) : List UInt8 :=
  command.bytes ++ littleEndian (checksumBytes command.bytes)

/-- `JournalWriter::append`. -/
def JournalWriter.append (file : JournalFile) (command : CommandObject) :
    Except Fault JournalFile := file.writeExact command.record

/-- A writer is opened, appends commands and is closed. -/
def journalSession (path : Option JournalFile) (commands : List CommandObject) :
    Except Fault JournalFile := do
  let file ← JournalWriter.new path
  commands.foldlM JournalWriter.append file

/-- A session, and then the file is opened again for each of `reopenings`. -/
def journalSessions (path : Option JournalFile) (commands : List CommandObject)
    (reopenings : List (List CommandObject)) : Except Fault JournalFile := do
  let file ← journalSession path commands
  reopenings.foldlM (fun file commands => journalSession (some file) commands) file

/-! ## Replaying -/

/-- A record of full length with the right checksum. -/
def readRecord (data : List UInt8) : Option CommandObject :=
  if h : data.length = 48 ∧
      UInt64.ofNat (Endian.load (data.drop 40)) = checksumBytes (data.take 40) then
    some ⟨data.take 40, by rw [List.length_take, h.1]; rfl⟩
  else none

namespace JournalFile

variable {σ : Type}

/-- The loop of `replay_journal`, over the rest of the stream. -/
def replayLoop (consumer : σ → CommandObject → Except Fault σ) :
    ℕ → List UInt8 → σ → ReplayResult → Except Fault (σ × ReplayResult)
  | 0, _, _, _ => .error .endless
  | fuel + 1, stream, state, result =>
    if (stream.take 48).length = 0 then .ok (state, result)
    else match readRecord (stream.take 48) with
      | none => .ok (state, { result with cleanEnd := false })
      | some command => do
        let state ← consumer state command
        replayLoop consumer fuel (stream.drop 48) state { result with
          records := result.records + 1
          validBytes := result.validBytes + journalRecordSize }

/-- `replay_journal` on the file at a path, if there is one. -/
def replayJournal (consumer : σ → CommandObject → Except Fault σ) (path : Option JournalFile)
    (state : σ) : Except Fault (σ × ReplayResult) :=
  match path with
  | none => .error (.runtimeError "unable to open journal for replay")
  | some file =>
    if compatible file.bytes then
      replayLoop consumer (file.bytes.length + 1) (file.bytes.drop 16) state ⟨0, fileHeaderSize, true⟩
    else .error (.runtimeError "invalid journal header")

end JournalFile

/-- **Replaying the file at `path` delivers the commands `xs`**, in order, to any consumer, and
returns `result` if the consumer throws nothing. -/
def Delivers (path : Option JournalFile) (xs : List CommandObject) (result : ReplayResult) : Prop :=
  ∀ (σ : Type) (consumer : σ → CommandObject → Except Fault σ) (state : σ),
    JournalFile.replayJournal consumer path state =
      (xs.foldlM consumer state).map fun state => (state, result)

theorem Delivers.unique {path : Option JournalFile} {xs ys : List CommandObject}
    {result result' : ReplayResult} (h : Delivers path xs result) (h' : Delivers path ys result') :
    xs = ys ∧ result = result' := by
  have hcollect : ∀ zs state : List CommandObject,
      zs.foldlM (fun state c => (.ok (state ++ [c]) : Except Fault _)) state = .ok (state ++ zs) := by
    intro zs
    induction zs with
    | nil => exact fun state => by simp [pure, Except.pure]
    | cons z zs ih => exact fun state => (ih (state ++ [z])).trans (by simp)
  have heq := (h _ (fun state c => .ok (state ++ [c])) []).symm.trans (h' _ _ [])
  rw [hcollect, hcollect] at heq
  simpa [Except.map] using heq

/-! ## Headers and records -/

theorem length_record (command : CommandObject) : command.record.length = 48 := by
  rw [CommandObject.record, List.length_append, command.size, length_littleEndian]

theorem littleEndian_eq_store (word : UInt64) : littleEndian word = Endian.store 8 word.toNat := by
  have hbyte : ∀ shift : UInt64, (word >>> shift).toUInt8 =
      UInt8.ofNat (word.toNat / 2 ^ (shift.toNat % 64)) := by
    intro shift
    apply UInt8.toNat.inj
    rw [UInt64.toNat_toUInt8, UInt64.toNat_shiftRight, Nat.shiftRight_eq_div_pow, UInt8.toNat_ofNat']
  simp [littleEndian, hbyte, Endian.store, Nat.div_div_eq_div_mul]

theorem load_littleEndian (word : UInt64) : Endian.load (littleEndian word) = word.toNat := by
  rw [littleEndian_eq_store, Endian.load_store word.toNat_lt]

theorem readRecord_record (command : CommandObject) : readRecord command.record = some command := by
  have htake : command.record.take 40 = command.bytes := List.take_left' command.size
  have hdrop : command.record.drop 40 = littleEndian (checksumBytes command.bytes) :=
    List.drop_left' command.size
  rw [readRecord, dif_pos]
  · congr
  · rw [htake, hdrop, load_littleEndian]
    exact ⟨length_record command, UInt64.ofNat_toNat⟩

theorem readRecord_short {data : List UInt8} (h : data.length < 48) : readRecord data = none := by
  rw [readRecord, dif_neg]
  omega

theorem compatible_take (stream : List UInt8) : compatible (stream.take 16) = compatible stream := by
  have hread : readHeader (stream.take 16) = readHeader stream := by
    simp [readHeader, List.take_take, List.drop_take]
  rw [compatible, compatible, hread]

theorem length_of_compatible {stream : List UInt8} (h : compatible stream = true) :
    16 ≤ stream.length := by
  by_contra hlt
  rw [compatible, readHeader, if_pos (by omega)] at h
  cases h

/-! ## Files as logs -/

/-- A journal that holds the commands `xs`: the bytes after its header are a log of them. -/
structure Holds (file : JournalFile) (xs : List CommandObject) (clean : Bool) : Prop where
  header : compatible file.bytes = true
  reads : Records.Reads 48 readRecord (file.bytes.drop 16) xs clean

/-- What replaying `n` records reports. -/
def replayed (n : ℕ) (clean : Bool) : ReplayResult :=
  ⟨UInt64.ofNat n, fileHeaderSize + journalRecordSize * UInt64.ofNat n, clean⟩

variable {file : JournalFile} {xs : List CommandObject} {clean : Bool}

theorem replayed_succ (r v : UInt64) (n : ℕ) (clean : Bool) :
    (⟨r + 1 + UInt64.ofNat n, v + journalRecordSize + journalRecordSize * UInt64.ofNat n, clean⟩ :
      ReplayResult) =
    ⟨r + UInt64.ofNat (n + 1), v + journalRecordSize * UInt64.ofNat (n + 1), clean⟩ := by
  rw [Nat.add_comm n 1, UInt64.ofNat_add, UInt64.mul_add, UInt64.add_assoc, UInt64.add_assoc]
  rfl

theorem replayLoop_of_reads {σ : Type} (consumer : σ → CommandObject → Except Fault σ)
    {stream : List UInt8} (h : Records.Reads 48 readRecord stream xs clean) {fuel : ℕ}
    (hfuel : xs.length < fuel) (state : σ) (r v : UInt64) :
    JournalFile.replayLoop consumer fuel stream state ⟨r, v, true⟩ =
      (xs.foldlM consumer state).map fun state =>
        (state, ⟨r + UInt64.ofNat xs.length, v + journalRecordSize * UInt64.ofNat xs.length, clean⟩) := by
  induction h generalizing fuel state r v with
  | done =>
    obtain ⟨fuel, rfl⟩ := Nat.exists_eq_succ_of_ne_zero (Nat.ne_zero_of_lt hfuel)
    simp [JournalFile.replayLoop, pure, Except.pure, Except.map]
  | @stop l hne hbad =>
    obtain ⟨fuel, rfl⟩ := Nat.exists_eq_succ_of_ne_zero (Nat.ne_zero_of_lt hfuel)
    have hnone : readRecord (l.take 48) = none := by
      rcases hbad with hlt | hnone
      · exact readRecord_short (by rw [List.length_take]; omega)
      · exact hnone
    simp [JournalFile.replayLoop, hnone, hne, pure, Except.pure, Except.map]
  | @next l a as clean hlen ha hrest ih =>
    obtain ⟨fuel, rfl⟩ := Nat.exists_eq_succ_of_ne_zero (Nat.ne_zero_of_lt hfuel)
    have hpos : (l.take 48).length ≠ 0 := by
      rw [List.length_take]
      omega
    rw [JournalFile.replayLoop, if_neg hpos, ha, List.foldlM_cons]
    dsimp only
    cases consumer state a with
    | error e => rfl
    | ok state' =>
      rw [List.length_cons, ← replayed_succ]
      exact ih (by simpa using hfuel) state' (r + 1) (v + journalRecordSize)

/-- **Replaying a journal delivers what it holds.** -/
theorem Holds.delivers (h : Holds file xs clean) :
    Delivers (some file) xs (replayed xs.length clean) := by
  intro σ consumer state
  have hlen := h.reads.length_le
  rw [List.length_drop] at hlen
  rw [JournalFile.replayJournal, if_pos h.header,
    replayLoop_of_reads consumer h.reads (by omega), UInt64.zero_add]
  rfl

theorem Holds.length_le (h : Holds file xs clean) : 16 + 48 * xs.length ≤ file.bytes.length := by
  have hheader := length_of_compatible h.header
  have hlen := h.reads.length_le
  rw [List.length_drop] at hlen
  omega

theorem Holds.replayed_toNat (h : Holds file xs clean) :
    (replayed xs.length clean).records.toNat = xs.length ∧
      (replayed xs.length clean).validBytes.toNat = 16 + 48 * xs.length := by
  have hle := h.length_le
  have hlt := file.size_lt
  have hn : (UInt64.ofNat xs.length).toNat = xs.length :=
    UInt64.toNat_ofNat_of_lt' (show xs.length < 2 ^ 64 by omega)
  refine ⟨hn, ?_⟩
  rw [replayed, UInt64.toNat_add, UInt64.toNat_mul, hn]
  simp only [fileHeaderSize, journalRecordSize, UInt64.reduceToNat]
  omega

/-! ## Cutting and writing -/

theorem Holds.cut (h : Holds file xs true) {n : ℕ} (h16 : 16 ≤ n) (hn : n ≤ file.bytes.length) :
    Holds (file.cut n) (xs.take ((n - 16) / 48)) (decide ((n - 16) % 48 = 0)) where
  header := by
    rw [← compatible_take, JournalFile.cut, List.take_take, Nat.min_eq_left h16, compatible_take]
    exact h.header
  reads := by
    rw [JournalFile.cut, List.drop_take]
    exact h.reads.cut (by decide) (by rw [List.length_drop]; omega)

/-- **What has been replayed is a clean journal.** -/
theorem Holds.keep (h : Holds file xs clean) : Holds (file.cut (16 + 48 * xs.length)) xs true where
  header := by
    rw [← compatible_take, JournalFile.cut, List.take_take, Nat.min_eq_left (by omega),
      compatible_take]
    exact h.header
  reads := by
    rw [JournalFile.cut, List.drop_take, Nat.add_sub_cancel_left]
    exact h.reads.keep

/-- A write ends in a file with the property `P`, or fails because files are smaller than `size`. -/
def Writes (r : Except Fault JournalFile) (size : ℕ) (P : JournalFile → Prop) : Prop :=
  (2 ^ 64 ≤ size ∧ r = .error writeFailed) ∨ ∃ file, r = .ok file ∧ P file

/-- A clean journal with nothing after its last record. -/
def CleanJournal (xs : List CommandObject) (file : JournalFile) : Prop :=
  Holds file xs true ∧ file.bytes.length = 16 + 48 * xs.length

theorem Writes.bind {r : Except Fault JournalFile} {k : JournalFile → Except Fault JournalFile}
    {size size' : ℕ} {P P' : JournalFile → Prop} (h : Writes r size P) (hsize : size ≤ size')
    (hk : ∀ file, P file → Writes (k file) size' P') : Writes (r >>= k) size' P' := by
  rcases h with ⟨hlarge, rfl⟩ | ⟨file, rfl, hP⟩
  · exact Or.inl ⟨by omega, rfl⟩
  · exact hk file hP

theorem CleanJournal.append (h : CleanJournal xs file) (c : CommandObject) :
    Writes (JournalWriter.append file c) (16 + 48 * (xs.length + 1)) (CleanJournal (xs ++ [c])) := by
  obtain ⟨hholds, hlen⟩ := h
  have hsum : (file.bytes ++ c.record).length = 16 + 48 * (xs.length + 1) := by
    rw [List.length_append, length_record, hlen]
    omega
  rw [JournalWriter.append, JournalFile.writeExact]
  by_cases hlt : (file.bytes ++ c.record).length < 2 ^ 64
  · rw [dif_pos hlt]
    refine Or.inr ⟨_, rfl, ⟨?_, ?_⟩, by simpa using hsum⟩
    · rw [← compatible_take, List.take_append_of_le_length (by omega), compatible_take]
      exact hholds.header
    · rw [List.drop_append_of_le_length (by omega)]
      refine hholds.reads.append ?_
      simpa using Records.reads_flatMap length_record readRecord_record [c]
  · rw [dif_neg hlt]
    exact Or.inl ⟨by omega, rfl⟩

theorem CleanJournal.appendAll (h : CleanJournal xs file) (ds : List CommandObject) :
    Writes (ds.foldlM JournalWriter.append file) (16 + 48 * (xs ++ ds).length)
      (CleanJournal (xs ++ ds)) := by
  induction ds generalizing file xs with
  | nil => exact Or.inr ⟨file, rfl, by simpa using h⟩
  | cons d ds ih =>
    rw [List.foldlM_cons]
    refine (h.append d).bind (by simp) fun file' h' => ?_
    simpa using ih h'

theorem Holds.reopen (h : Holds file xs clean) : JournalWriter.new (some file) = .ok file := by
  have := h.length_le
  simp only [JournalWriter.new]
  rw [if_neg (by omega), if_pos h.header]

theorem CleanJournal.session (h : CleanJournal xs file) (ds : List CommandObject) :
    Writes (journalSession (some file) ds) (16 + 48 * (xs ++ ds).length) (CleanJournal (xs ++ ds)) := by
  rw [journalSession, h.1.reopen]
  exact h.appendAll ds

/-- There is no file at the path, or an empty one. -/
def IsNew (path : Option JournalFile) : Prop := ∀ file ∈ path, file.bytes = []

theorem cleanJournal_header (h : journalHeader.bytes.length < 2 ^ 64) :
    CleanJournal [] ⟨journalHeader.bytes, h⟩ := by
  have hcomp : compatible journalHeader.bytes = true := by decide
  have hdrop : journalHeader.bytes.drop 16 = [] := by decide
  exact ⟨⟨hcomp, by rw [hdrop]; exact .done⟩, rfl⟩

theorem IsNew.writes_header {path : Option JournalFile} (h : IsNew path) :
    ∃ hlt, JournalWriter.new path = .ok ⟨journalHeader.bytes, hlt⟩ := by
  have hlt : journalHeader.bytes.length < 2 ^ 64 := by decide
  refine ⟨hlt, ?_⟩
  cases path with
  | none => rfl
  | some file =>
    have hnil : file.bytes = [] := h file rfl
    simp only [JournalWriter.new, JournalFile.writeExact, hnil, List.length_nil, if_true,
      List.nil_append]
    exact dif_pos hlt

theorem IsNew.opens {path : Option JournalFile} (h : IsNew path) :
    ∃ file, JournalWriter.new path = .ok file ∧ CleanJournal [] file := by
  obtain ⟨hlt, hnew⟩ := h.writes_header
  exact ⟨_, hnew, cleanJournal_header hlt⟩

/-- **Every number of sessions writes one clean journal.** -/
theorem IsNew.sessions {path : Option JournalFile} (h : IsNew path) (cs : List CommandObject)
    (reopenings : List (List CommandObject)) :
    Writes (journalSessions path cs reopenings) (16 + 48 * (cs ++ reopenings.flatten).length)
      (CleanJournal (cs ++ reopenings.flatten)) := by
  obtain ⟨file, hnew, hclean⟩ := h.opens
  rw [journalSessions, journalSession, hnew]
  refine Writes.bind (hclean.appendAll cs) (by simp) fun file hfile => ?_
  rw [List.nil_append] at hfile
  -- each reopening finds the clean journal that the one before it has left
  induction reopenings generalizing file cs with
  | nil => exact Or.inr ⟨file, rfl, by simpa using hfile⟩
  | cons ds reopenings ih =>
    rw [List.foldlM_cons]
    refine (hfile.session ds).bind (by simp) fun file' hfile' => ?_
    have := ih (cs ++ ds) file' hfile'
    rwa [List.append_assoc, ← List.flatten_cons] at this

/-- The journal taken record by record is the file: replaying the records of commands is replaying a
file that holds their representations. -/
theorem CleanJournal.replay_records {cs : List Command}
    (h : CleanJournal (cs.map Command.object) file) {σ : Type}
    {consumer : σ → Command → Except Fault σ} {consumer' : σ → CommandObject → Except Fault σ}
    (hc : ∀ state c, consumer' state c.object = consumer state c) (state : σ) :
    JournalFile.replayJournal consumer' (some file) state =
      replayJournal Command.bytes consumer (recordsOf Command.bytes cs) state := by
  have hloop : ∀ (cs : List Command) (state : σ) (r v : UInt64),
      replayLoop Command.bytes consumer (recordsOf Command.bytes cs) state ⟨r, v, true⟩ =
        (cs.foldlM consumer state).map fun state =>
          (state, ⟨r + UInt64.ofNat cs.length, v + journalRecordSize * UInt64.ofNat cs.length, true⟩) := by
    intro cs
    induction cs with
    | nil => simp [replayLoop, recordsOf, pure, Except.pure, Except.map]
    | cons c cs ih =>
      intro state r v
      rw [recordsOf, List.map_cons, replayLoop, if_neg (not_not.mpr rfl), List.foldlM_cons,
        List.length_cons, ← replayed_succ]
      cases consumer state c with
      | error e => rfl
      | ok state' => exact ih state' (r + 1) (v + journalRecordSize)
  have hfold : ∀ state, (cs.map Command.object).foldlM consumer' state = cs.foldlM consumer state := by
    intro state
    rw [List.foldlM_map]
    simp only [hc]
  rw [h.1.delivers, hfold, replayJournal, hloop, List.length_map, UInt64.zero_add]
  rfl

/-- **Journal crash recovery.** Commands are appended to a new journal over any number of sessions and
the file is cut anywhere after its header: replaying delivers the commands whose records are whole, and
reports their number, the end of the last one and whether the cut fell between two records. Any file
with a valid header can be replayed; cut to the reported number of bytes and opened again to append
more commands, it replays to the end and delivers the old commands and then the new ones. -/
theorem journal_crash_recovery :
    (∀ (path : Option JournalFile) (cs : List CommandObject) (reopenings : List (List CommandObject)),
      IsNew path → Writes (journalSessions path cs reopenings)
        (16 + 48 * (cs ++ reopenings.flatten).length) fun file =>
          ∀ n, 16 ≤ n → n ≤ file.bytes.length → ∃ result,
            Delivers (some (file.cut n)) ((cs ++ reopenings.flatten).take ((n - 16) / 48)) result ∧
            result.records.toNat = (n - 16) / 48 ∧
            result.validBytes.toNat = 16 + 48 * ((n - 16) / 48) ∧
            (result.cleanEnd = true ↔ (n - 16) % 48 = 0)) ∧
    ∀ file : JournalFile, compatible file.bytes = true → ∃ xs result,
      Delivers (some file) xs result ∧ ∀ ds : List CommandObject,
        Writes (journalSession (some (file.cut result.validBytes.toNat)) ds)
          (16 + 48 * (xs ++ ds).length) fun file' =>
            ∃ result', Delivers (some file') (xs ++ ds) result' ∧ result'.cleanEnd = true := by
  constructor
  · intro path cs reopenings hnew
    rcases hnew.sessions cs reopenings with hfull | ⟨file, hfile, hholds, hlen⟩
    · exact Or.inl hfull
    refine Or.inr ⟨file, hfile, fun n h16 hn => ?_⟩
    have hcut := hholds.cut h16 hn
    have hcount : ((cs ++ reopenings.flatten).take ((n - 16) / 48)).length = (n - 16) / 48 := by
      rw [List.length_take]
      omega
    obtain ⟨hrecords, hbytes⟩ := hcut.replayed_toNat
    rw [hcount] at hrecords hbytes
    exact ⟨_, hcut.delivers, by rw [hcount]; exact hrecords, by rw [hcount]; exact hbytes,
      decide_eq_true_iff⟩
  · intro file hcomp
    obtain ⟨xs, clean, hreads⟩ : ∃ xs clean,
        Records.Reads 48 readRecord (file.bytes.drop 16) xs clean :=
      Records.exists_reads (by decide) _
    have hholds : Holds file xs clean := ⟨hcomp, hreads⟩
    refine ⟨xs, _, hholds.delivers, fun ds => ?_⟩
    rw [hholds.replayed_toNat.2]
    have hclean : CleanJournal xs (file.cut (16 + 48 * xs.length)) := by
      refine ⟨hholds.keep, ?_⟩
      rw [JournalFile.cut, List.length_take, Nat.min_eq_left hholds.length_le]
    rcases hclean.session ds with hfull | ⟨file', hfile, hholds', -⟩
    · exact Or.inl hfull
    · exact Or.inr ⟨file', hfile, _, hholds'.delivers, rfl⟩

/-- Two commands written in two sessions; the file is cut in the second record, and a third command
is appended to what is left. -/
theorem journal_crash_recovery_torn_tail : ∃ c₁ c₂ c₃ : CommandObject, ∃ file file' : JournalFile,
    journalSessions none [c₁] [[c₂]] = .ok file ∧ file.bytes.length = 112 ∧
    (∃ result, Delivers (some (file.cut 100)) [c₁] result ∧ result.validBytes.toNat = 64 ∧
      ¬ result.cleanEnd = true) ∧
    journalSession (some ((file.cut 100).cut 64)) [c₃] = .ok file' ∧
    ∃ result, Delivers (some file') [c₁, c₃] result ∧ result.cleanEnd = true := by
  obtain ⟨c₁, hc₁⟩ : ∃ c, c = Command.object ⟨1, .new, .buy, .limit, 0, 7, 2, 5⟩ := ⟨_, rfl⟩
  obtain ⟨c₂, hc₂⟩ : ∃ c, c = Command.object ⟨2, .cancel, .buy, .limit, 0, 7, 0, 0⟩ := ⟨_, rfl⟩
  have hrun : (journalSessions none [c₁] [[c₂]]).map (fun file =>
      (file.bytes.length, compatible (file.cut 100).bytes)) = .ok (112, true) := by
    rw [hc₁, hc₂]
    decide +kernel
  obtain ⟨hcut, hrecover⟩ := journal_crash_recovery
  rcases hcut none [c₁] [[c₂]] (by simp [IsNew]) with ⟨hlarge, -⟩ | ⟨file, hfile, hfile'⟩
  · simp at hlarge
  rw [hfile] at hrun
  obtain ⟨hlen, hcomp⟩ : file.bytes.length = 112 ∧ compatible (file.cut 100).bytes = true := by
    simpa only [Except.map, Except.ok.injEq, Prod.mk.injEq] using hrun
  obtain ⟨r, hdel, -, hbytes, hclean⟩ := hfile' 100 (by decide) (by omega)
  obtain ⟨xs, r', hdel', hmore⟩ := hrecover _ hcomp
  obtain ⟨rfl, rfl⟩ := hdel.unique hdel'
  rcases hmore [c₁] with ⟨hlarge, -⟩ | ⟨file', happend, r'', hdel'', hclean''⟩
  · simp at hlarge
  rw [hbytes] at happend
  exact ⟨c₁, c₂, c₁, file, file', hfile, hlen, ⟨r, hdel, hbytes, by rw [hclean]; decide⟩, happend,
    r'', hdel'', hclean''⟩

end Dme
