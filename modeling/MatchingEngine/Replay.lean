import MatchingEngine.Durable
import MatchingEngine.Widening

/-!
# The replay tool

`dme_replay` replays a journal into a book of its own, with a wide range of prices, whatever the
configuration of the book that was journaled.

* `replayMain`: the tool, with its exit status and the line it prints.
* `replayConfig_covers`, `foldlM_process`: its book is wider, and is fed as in a run.
* **`replay_tool_reports_live`**.
-/

set_option autoImplicit false

namespace Dme

/-! ## The tool -/

/-- The configuration of the tool's book. -/
def replayConfig : BookConfig := ⟨1, 1000000, 1, 1000000⟩

/-- What the tool prints. -/
structure ReplayReport where
  records : UInt64
  validBytes : UInt64
  cleanEnd : Bool
  restingOrders : ℕ
  trades : UInt64
  rejected : UInt64
deriving DecidableEq, Repr

variable (R : CommandObjects)

/-- The body of the `try` block: the journal is replayed into a new book. -/
def replayInto (path : Option JournalFile) : Except Fault (OrderBook × ReplayResult) := do
  let book ← OrderBook.new replayConfig
  JournalFile.replayJournal (fun book command => do
    let (book, _) ← book.process (R.read command) []
    .ok book) path book

/-- **`main`**, with what is at the paths it is given: the exit status and the line it prints. -/
def replayMain : List (Option JournalFile) → ℕ × Option ReplayReport
  | [path] =>
    match replayInto R path with
    | .error _ => (1, none)
    | .ok (book, result) =>
      (if result.cleanEnd && book.stats.rejected = 0 then 0 else 1, some {
        records := result.records
        validBytes := result.validBytes
        cleanEnd := result.cleanEnd
        restingOrders := book.stats.restingOrders
        trades := book.stats.trades
        rejected := book.stats.rejected })
  | _ => (2, none)

theorem replayConfig_covers {config : BookConfig}
    (hlow : 1 ≤ config.minimumPrice.toInt) (hhigh : config.maximumPrice.toInt ≤ 1000000)
    (horders : config.maximumOrders.toNat ≤ 1000000) : replayConfig.Covers config where
  prices p hp := by
    have hladder : Ladder replayConfig 1000000 := ladder_of_checked (by decide)
    obtain ⟨hmin, hmax⟩ := validPrice_range hp
    rw [hladder.validPrice_iff]
    rw [Int64.le_iff_toInt_le] at hmin hmax
    have hone : replayConfig.minimumPrice.toInt = 1 := by decide
    have htick : replayConfig.tickSize.toInt = 1 := by decide
    have hmaximum : replayConfig.maximumPrice.toInt = 1000000 := by decide
    rw [hone, htick, hmaximum]
    omega
  orders := horders

theorem foldlM_process {b b' : OrderBook} {cs : List Command} {evs : List (List Event)}
    (h : b.run cs = .ok (b', evs)) :
    (cs.foldlM (fun book command => do
      let (book, _) ← book.process command []
      .ok book) b : Except Fault OrderBook) = .ok b' := by
  induction cs generalizing b evs with
  | nil =>
    cases h
    rfl
  | cons c cs ih =>
    obtain ⟨⟨b₁, events⟩, hp, h⟩ := bind_eq_ok.mp h
    obtain ⟨⟨b₂, evs'⟩, hrest, h⟩ := bind_eq_ok.mp h
    cases h
    rw [List.foldlM_cons]
    exact bind_eq_ok.mpr ⟨b₁, bind_eq_ok.mpr ⟨_, hp, rfl⟩, ih hrest⟩

/-- **The replay tool reports the live book.** A book with any configuration within the tool's has been
journaled, and the journal may end in a torn record. If the book rejected no whole record for its price or
for its capacity, the tool prints how many whole records there are and the counters of the live book after
them, and its status is `0` exactly if nothing is torn and nothing was rejected. -/
theorem replay_tool_reports_live {config : BookConfig} {b live : OrderBook} {cs : List Command}
    {evs : List (List Event)} {file : JournalFile} {clean : Bool}
    (hlow : 1 ≤ config.minimumPrice.toInt) (hhigh : config.maximumPrice.toInt ≤ 1000000)
    (horders : config.maximumOrders.toNat ≤ 1000000)
    (hb : OrderBook.new config = .ok b) (hrun : b.run cs = .ok (live, evs))
    (hlocal : ∀ e ∈ evs.flatten, e.reason ≠ .invalidPrice ∧ e.reason ≠ .bookCapacity)
    (hfile : Holds file (cs.map R.object) clean) :
    ∃ status report, replayMain R [some file] = (status, some report) ∧
      (status = 0 ↔ clean = true ∧ live.stats.rejected = 0) ∧
      report.records.toNat = cs.length ∧ report.validBytes.toNat = 16 + 48 * cs.length ∧
      report.cleanEnd = clean ∧ report.restingOrders = live.stats.restingOrders ∧
      report.trades = live.stats.trades ∧ report.rejected = live.stats.rejected := by
  obtain ⟨b', hb'⟩ :=
    OrderBook.new_isOk (by decide : checkedPriceCount replayConfig = .ok 1000000) (by decide)
  obtain ⟨b₁, evs₁, hrun₁, hagrees⟩ :=
    wider_book_agrees hb hb' (replayConfig_covers hlow hhigh horders) cs
  cases hrun.symm.trans hrun₁
  obtain ⟨book, hrun', hsame⟩ := hagrees hlocal
  have hinto : replayInto R (some file) = .ok (book, replayed (cs.map R.object).length clean) := by
    refine bind_eq_ok.mpr ⟨b', hb', ?_⟩
    rw [hfile.delivers, List.foldlM_map]
    simp only [R.read_object]
    rw [foldlM_process hrun']
    rfl
  have hcounters := hfile.replayed_toNat
  rw [List.length_map] at hinto hcounters
  have hmain : replayMain R [some file] =
      (if clean && live.stats.rejected = 0 then 0 else 1, some {
        records := (replayed cs.length clean).records
        validBytes := (replayed cs.length clean).validBytes
        cleanEnd := clean
        restingOrders := live.stats.restingOrders
        trades := live.stats.trades
        rejected := live.stats.rejected }) := by
    rw [replayMain, hinto, ← hsame.rejected, ← hsame.count, ← hsame.trades]
    rfl
  refine ⟨_, _, hmain, ?_, hcounters.1, hcounters.2, rfl, rfl, rfl, rfl⟩
  simp

/-- An order rests, a second one is journaled, and the file is cut in its record. -/
theorem replay_tool_reports_live_torn : ∃ b live evs file whole status report,
    OrderBook.new ⟨1, 4, 1, 2⟩ = .ok b ∧
    b.run [⟨1, .new, .buy, .limit, 0, 7, 2, 5⟩] = .ok (live, evs) ∧
    journalSession none ([⟨1, .new, .buy, .limit, 0, 7, 2, 5⟩, ⟨2, .new, .sell, .limit, 0, 8, 2, 3⟩].map
      littleEndianCommands.object) = .ok whole ∧
    file = whole.cut 70 ∧ replayMain littleEndianCommands [some file] = (status, some report) ∧
    status ≠ 0 ∧ report.records.toNat = 1 ∧ report.restingOrders = 1 := by
  obtain ⟨b, live, evs, hb, hrun, hresting, hlocal⟩ := exists_resting
  obtain ⟨file, hopen, hheader⟩ := IsNew.opens fun (_ : JournalFile) (hnone : _ ∈ none) => by cases hnone
  rcases hheader.appendAll ([⟨1, .new, .buy, .limit, 0, 7, 2, 5⟩,
      ⟨2, .new, .sell, .limit, 0, 8, 2, 3⟩].map littleEndianCommands.object) with
    ⟨hlarge, -⟩ | ⟨whole, hwhole, hholds, hlength⟩
  · simp at hlarge
  have hcut : Holds (whole.cut 70) ([⟨1, .new, .buy, .limit, 0, 7, 2, 5⟩].map
      littleEndianCommands.object) false := hholds.cut (by decide) (by rw [hlength]; decide)
  obtain ⟨status, report, hmain, hstatus, hrecords, -, -, hcount, -⟩ := replay_tool_reports_live
    littleEndianCommands (by decide) (by decide) (by decide) hb hrun hlocal hcut
  refine ⟨b, live, evs, _, whole, status, report, hb, hrun, bind_eq_ok.mpr ⟨file, hopen, hwhole⟩, rfl,
    hmain, fun hzero => ?_, hrecords, hcount.trans hresting⟩
  cases (hstatus.mp hzero).1

end Dme
