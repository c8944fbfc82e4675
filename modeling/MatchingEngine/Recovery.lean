import MatchingEngine.Journal
import MatchingEngine.Snapshot

/-!
# Recovery

`EngineRunner` of `engine_runner.hpp` and the recovery procedure of the design document.

* `EngineRunner.consume`: a command is journaled, and then given to the book.
* `recover`: a snapshot is loaded, and the records with later sequences are fed.
* `Market.run_skip`, `Market.run_early`: what feeding only these records changes.
* **`recovery_exact_iff`**: the procedure is exact unless a command that came too early waits in the
  journal for the snapshot's next sequence.
-/

set_option autoImplicit false

namespace Dme

section Runner

variable (bytes : Command → List UInt8)

/-- The runner's book, its journal if there is one, and the events it has published. -/
structure EngineRunner where
  book : OrderBook
  journal : Option (List JournalRecord)
  output : List Event
deriving DecidableEq, Repr

/-- One iteration of `EngineRunner::run` that pops a command. -/
def EngineRunner.consume (r : EngineRunner) (command : Command) : Except Fault EngineRunner := do
  let journal := r.journal.map fun journal => appendRecord bytes journal command
  let (book, events) ← r.book.process command []
  .ok { book, journal, output := r.output ++ events }

/-- The iterations that pop the commands of a list. -/
def EngineRunner.consumeAll (r : EngineRunner) (commands : List Command) :
    Except Fault EngineRunner := commands.foldlM (EngineRunner.consume bytes) r

/-- Feeding a record to a book that recovers from a snapshot with last sequence `last`. -/
def feedLater (last : Sequence) (book : OrderBook) (command : Command) : Except Fault OrderBook :=
  if command.sequence > last then do
    let (book, _) ← book.process command []
    .ok book
  else .ok book

/-- **The recovery procedure**: load the snapshot, then replay the records whose sequence is greater
than the snapshot's. -/
def recover (orderBytes : RestingOrder → List UInt8) (file : SnapshotFile)
    (journal : List JournalRecord) : Except Fault OrderBook := do
  let book ← readSnapshot orderBytes file
  let (book, _) ← replayJournal bytes (feedLater book.stats.lastSequence) journal book
  .ok book

end Runner

/-! ## The market behind a recovery -/

namespace Market

variable {m : Market} {last : Sequence}

/-- The records that a recovery feeds. -/
def later (last : Sequence) (cs : List Command) : List Command :=
  cs.filter fun c => last < c.sequence

theorem later_cons_of_lt {c : Command} (h : last < c.sequence) (cs : List Command) :
    later last (c :: cs) = c :: later last cs := List.filter_cons_of_pos (by simpa using h)

theorem later_cons_of_not_lt {c : Command} (h : ¬ last < c.sequence) (cs : List Command) :
    later last (c :: cs) = later last cs := List.filter_cons_of_neg (by simpa using h)

theorem later_append (last : Sequence) (cs cs' : List Command) :
    later last (cs ++ cs') = later last cs ++ later last cs' := List.filter_append ..

/-- **Commands that are not later than `last` do nothing** to a market that is past it. -/
theorem run_skip {n : ℕ} (hn : m.lastSequence = UInt64.ofNat n) (cs : List Command)
    (hlast : last ≤ m.lastSequence) (hlt : inSequence n cs < 2 ^ 64) :
    (m.run (later last cs)).1 = (m.run cs).1 := by
  induction cs generalizing m n with
  | nil => rfl
  | cons c cs ih =>
    have hc₁ : inSequence n [c] < 2 ^ 64 := (le_inSequence _ cs).trans_lt hlt
    have hle := process_le hn c hc₁
    have hrest := ih (process_inSequence hn c) (UInt64.le_trans hlast hle) hlt
    by_cases hc : last < c.sequence
    · rw [later_cons_of_lt hc, run, run]
      exact hrest
    · have hgap : c.sequence ≠ m.lastSequence + 1 := by
        intro he
        -- in sequence, the command would be past `last`
        rw [process_lastSequence, if_pos he, ← he] at hle
        have hne : c.sequence ≠ m.lastSequence := by
          rw [he]
          grind
        exact hc (UInt64.lt_of_le_of_lt hlast (UInt64.lt_of_le_of_ne hle hne.symm))
      rw [process_gap hgap] at hrest
      rw [later_cons_of_not_lt hc, run, process_gap hgap]
      exact hrest

theorem next_of_later {c : Command} (hc : m.lastSequence < c.sequence)
    (hne : c.sequence.toNat ≠ m.lastSequence.toNat + 1) : c.sequence ≠ m.lastSequence + 1 := by
  intro he
  rw [UInt64.lt_iff_toNat_lt] at hc
  have hmod := congrArg UInt64.toNat he
  rw [UInt64.toNat_add, UInt64.toNat_one] at hmod
  have := m.lastSequence.toNat_lt
  omega

theorem run_early (cs : List Command)
    (hne : ∀ c ∈ cs, c.sequence.toNat ≠ m.lastSequence.toNat + 1) :
    (m.run (later m.lastSequence cs)).1 = m := by
  induction cs with
  | nil => rfl
  | cons c cs ih =>
    have hrest := ih fun x hx => hne x (List.mem_cons_of_mem _ hx)
    by_cases hc : m.lastSequence < c.sequence
    · rw [later_cons_of_lt hc, run,
        process_gap (next_of_later hc (hne c List.mem_cons_self))]
      exact hrest
    · rw [later_cons_of_not_lt hc]
      exact hrest

theorem run_later_past (cs : List Command) (hlast : last < m.lastSequence) :
    last < (m.run (later last cs)).1.lastSequence := by
  induction cs generalizing m with
  | nil => exact hlast
  | cons c cs ih =>
    by_cases hc : last < c.sequence
    · rw [later_cons_of_lt hc, run]
      refine ih ?_
      rw [process_lastSequence]
      split_ifs with hseq
      · rwa [← hseq]
      · exact hlast
    · rw [later_cons_of_not_lt hc]
      exact ih hlast

/-- **An early command that is the next one is carried out**, and the market is past where it
was. -/
theorem run_late {cs : List Command} {c : Command} (hc : c ∈ cs)
    (hnext : c.sequence.toNat = m.lastSequence.toNat + 1) :
    m.lastSequence < (m.run (later m.lastSequence cs)).1.lastSequence := by
  induction cs with
  | nil => cases hc
  | cons x cs ih =>
    by_cases hx : m.lastSequence < x.sequence
    · rw [later_cons_of_lt hx, run]
      by_cases hseq : x.sequence = m.lastSequence + 1
      · refine run_later_past cs ?_
        rw [process_lastSequence, if_pos hseq, ← hseq]
        exact hx
      · rw [process_gap hseq]
        refine ih ((List.mem_cons.mp hc).resolve_left ?_)
        rintro rfl
        refine hseq (UInt64.toNat_inj.mp ?_)
        rw [UInt64.toNat_add, UInt64.toNat_one, ← hnext,
          Nat.mod_eq_of_lt c.sequence.toNat_lt]
    · rw [later_cons_of_not_lt hx]
      refine ih ((List.mem_cons.mp hc).resolve_left ?_)
      rintro rfl
      rw [UInt64.lt_iff_toNat_lt] at hx
      omega

end Market

/-! ## The book -/

variable {b : OrderBook} {q : Queues}

theorem Inv.consumeAll (h : Inv b q) (bytes : Command → List UInt8) (journal : List JournalRecord)
    (output : List Event) (cs : List Command) :
    ∃ r q', EngineRunner.consumeAll bytes ⟨b, some journal, output⟩ cs = .ok r ∧
      r.journal = some (journal ++ recordsOf bytes cs) ∧ Inv r.book q' ∧
      r.book.market q' = ((b.market q).run cs).1 := by
  induction cs generalizing b q journal output with
  | nil => exact ⟨_, q, rfl, by simp [recordsOf], h, rfl⟩
  | cons c cs ih =>
    obtain ⟨b₁, q₁, hp, hinv, hm, -⟩ := h.process c []
    obtain ⟨r, q', hall, hj, hinv', hm'⟩ := ih hinv (appendRecord bytes journal c)
      (output ++ ((b.market q).process c).2)
    refine ⟨r, q', ?_, ?_, hinv', ?_⟩
    · simp only [EngineRunner.consumeAll, List.foldlM_cons, EngineRunner.consume, hp, bind,
        Except.bind, List.nil_append, Option.map_some]
      exact hall
    · rw [hj]
      simp [appendRecord, recordsOf]
    · rw [hm', hm]
      rfl

theorem Inv.replayLoop (h : Inv b q) (bytes : Command → List UInt8) (last : Sequence)
    (cs : List Command) (result : ReplayResult) :
    ∃ b' q' result', Dme.replayLoop bytes (feedLater last) (recordsOf bytes cs) b result =
        .ok (b', result') ∧ Inv b' q' ∧
      b'.market q' = ((b.market q).run (Market.later last cs)).1 := by
  induction cs generalizing b q result with
  | nil => exact ⟨b, q, result, rfl, h, rfl⟩
  | cons c cs ih =>
    simp only [recordsOf, List.map_cons, Dme.replayLoop, ne_eq, not_true_eq_false, if_false]
    by_cases hc : last < c.sequence
    · obtain ⟨b₁, q₁, hp, hinv, hm, -⟩ := h.process c []
      obtain ⟨b', q', result', hr, hinv', hm'⟩ := ih hinv { result with
        records := result.records + 1
        validBytes := result.validBytes + journalRecordSize }
      refine ⟨b', q', result', ?_, hinv', ?_⟩
      · simp only [feedLater, gt_iff_lt, hc, if_true, hp, bind, Except.bind]
        exact hr
      · rw [hm', hm, Market.later_cons_of_lt hc]
        rfl
    · obtain ⟨b', q', result', hr, hinv', hm'⟩ := ih h { result with
        records := result.records + 1
        validBytes := result.validBytes + journalRecordSize }
      refine ⟨b', q', result', ?_, hinv', ?_⟩
      · simp only [feedLater, gt_iff_lt, hc, if_false, bind, Except.bind]
        exact hr
      · rw [hm', Market.later_cons_of_not_lt hc]

theorem Inv.recover (h : Inv b q) (ha : (b.market q).Aged (· < ·)) (bytes : Command → List UInt8)
    (orderBytes : RestingOrder → List UInt8) (cs : List Command) :
    ∃ file b' q', b.writeSnapshot orderBytes = .ok file ∧
      Dme.recover bytes orderBytes file (recordsOf bytes cs) = .ok b' ∧ Inv b' q' ∧
      b'.market q' = ((b.market q).run (Market.later b.stats.lastSequence cs)).1 := by
  obtain ⟨file, b₁, q₁, hwrite, hread, hinv, hm⟩ := h.readSnapshot ha orderBytes
  have hlast : b₁.stats.lastSequence = b.stats.lastSequence := congrArg Market.lastSequence hm
  obtain ⟨b', q', result, hr, hinv', hm'⟩ := hinv.replayLoop bytes b₁.stats.lastSequence cs
    ⟨0, fileHeaderSize, true⟩
  refine ⟨file, b', q', hwrite, ?_, hinv', by rw [hm', hm, hlast]⟩
  simp only [Dme.recover, hread, bind, Except.bind, replayJournal, hr]

/-- **What the recovery procedure promises**: the runner consumes `pre`, a snapshot is taken, the
runner consumes `post`; from the snapshot and the journal a book is recovered with the live book's
last sequence and its resting orders, level by level. -/
def Recovers (bytes : Command → List UInt8) (orderBytes : RestingOrder → List UInt8)
    (b₀ : OrderBook) (pre post : List Command) : Prop :=
  ∃ mid live file journal b, EngineRunner.consumeAll bytes ⟨b₀, some [], []⟩ pre = .ok mid ∧
    mid.book.writeSnapshot orderBytes = .ok file ∧
    EngineRunner.consumeAll bytes mid post = .ok live ∧ live.journal = some journal ∧
    recover bytes orderBytes file journal = .ok b ∧
    b.stats.lastSequence = live.book.stats.lastSequence ∧
    b.restingOrders = live.book.restingOrders ∧ ∀ s i, b.queueAt s i = live.book.queueAt s i

section Exact

variable {config : BookConfig} {b₀ : OrderBook} (bytes : Command → List UInt8)
  (orderBytes : RestingOrder → List UInt8) {pre post : List Command}

theorem recovery_run (hnew : OrderBook.new config = .ok b₀) (hpre : inSequence 0 pre < 2 ^ 64)
    (post : List Command) :
    ∃ mid q₁ file live q₂ b q₃,
      EngineRunner.consumeAll bytes ⟨b₀, some [], []⟩ pre = .ok mid ∧
      (mid.book.market q₁).lastSequence = UInt64.ofNat (inSequence 0 pre) ∧
      mid.book.writeSnapshot orderBytes = .ok file ∧
      EngineRunner.consumeAll bytes mid post = .ok live ∧
      live.journal = some (recordsOf bytes (pre ++ post)) ∧ Inv live.book q₂ ∧
      live.book.market q₂ = ((mid.book.market q₁).run post).1 ∧
      recover bytes orderBytes file (recordsOf bytes (pre ++ post)) = .ok b ∧ Inv b q₃ ∧
      b.market q₃ =
        ((mid.book.market q₁).run (Market.later mid.book.stats.lastSequence (pre ++ post))).1 := by
  obtain ⟨hinv₀, -, hstats⟩ := Inv.new hnew
  have hzero : (b₀.market fun _ _ => []).lastSequence = UInt64.ofNat 0 := by
    change b₀.stats.lastSequence = 0
    rw [hstats]
  obtain ⟨mid, q₁, hmid, hj, hinv, hm⟩ := hinv₀.consumeAll bytes [] [] pre
  obtain ⟨book, journal, output⟩ := mid
  obtain rfl : journal = _ := hj
  have ha : (book.market q₁).Aged (· < ·) := by
    rw [hm]
    exact (Market.aged_of_empty (hinv₀.empty_depth (by rw [hstats]))).run (fun _ _ h => h)
      hinv₀.depth_bestFirst hzero pre hpre
  obtain ⟨live, q₂, hlive, hj₂, hinv₂, hm₂⟩ := hinv.consumeAll bytes _ output post
  obtain ⟨file, b, q₃, hwrite, hrec, hinv₃, hm₃⟩ := hinv.recover ha bytes orderBytes (pre ++ post)
  refine ⟨_, q₁, file, live, q₂, b, q₃, hmid, ?_, hwrite, hlive, ?_, hinv₂, hm₂, hrec, hinv₃, hm₃⟩
  · rw [hm]
    exact Market.run_inSequence hzero pre
  · rw [hj₂]
    simp [recordsOf]

theorem recovers_of_market (hnew : OrderBook.new config = .ok b₀) (hpre : inSequence 0 pre < 2 ^ 64)
    (h : ∀ m : Market, m.lastSequence = UInt64.ofNat (inSequence 0 pre) →
      (m.run (Market.later m.lastSequence (pre ++ post))).1 = (m.run post).1) :
    Recovers bytes orderBytes b₀ pre post := by
  obtain ⟨mid, q₁, file, live, q₂, b, q₃, hmid, hlast, hwrite, hlive, hj, hinv₂, hm₂, hrec, hinv₃,
    hm₃⟩ := recovery_run bytes orderBytes hnew hpre post
  have halike := hinv₂.alike hinv₃ (hm₃.trans ((h _ hlast).trans hm₂.symm))
  exact ⟨mid, live, file, _, b, hmid, hwrite, hlive, hj, hrec, halike.lastSequence,
    halike.restingOrders, halike.queueAt⟩

theorem Recovers.market (h : Recovers bytes orderBytes b₀ pre post)
    (hnew : OrderBook.new config = .ok b₀) (hpre : inSequence 0 pre < 2 ^ 64) :
    ∃ m : Market, m.lastSequence = UInt64.ofNat (inSequence 0 pre) ∧
      (m.run (Market.later m.lastSequence (pre ++ post))).1.lastSequence =
        (m.run post).1.lastSequence := by
  obtain ⟨mid', live', file', journal', b', hmid', hwrite', hlive', hj', hrec', hsame, -⟩ := h
  obtain ⟨mid, q₁, file, live, q₂, b, q₃, hmid, hlast, hwrite, hlive, hj, -, hm₂, hrec, -, hm₃⟩ :=
    recovery_run bytes orderBytes hnew hpre post
  -- the two runs are one
  cases hmid.symm.trans hmid'
  cases hwrite.symm.trans hwrite'
  cases hlive.symm.trans hlive'
  cases hj.symm.trans hj'
  cases hrec.symm.trans hrec'
  refine ⟨_, hlast, ?_⟩
  rw [← hm₂]
  exact (congrArg Market.lastSequence hm₃).symm.trans hsame

/-- **When the recovery procedure is exact.** As long as the sequence does not wrap, the recovered
book is the live one, whatever follows the snapshot, if and only if no command journaled before the
snapshot has the sequence that comes next after it. -/
theorem recovery_exact_iff (hnew : OrderBook.new config = .ok b₀) (pre : List Command) :
    (∀ post, inSequence 0 (pre ++ post) < 2 ^ 64 → Recovers bytes orderBytes b₀ pre post) ↔
      ∀ c ∈ pre, c.sequence.toNat ≠ inSequence 0 pre + 1 := by
  constructor
  · intro hall c hc hnext
    -- with nothing after the snapshot, the live book stays where the snapshot was taken
    have hpre : inSequence 0 pre < 2 ^ 64 := by
      have := c.sequence.toNat_lt
      omega
    obtain ⟨m, hlast, hsame⟩ :=
      (hall [] (by rwa [List.append_nil])).market bytes orderBytes hnew hpre
    rw [List.append_nil] at hsame
    have hlate := Market.run_late (m := m) hc (by rwa [hlast, UInt64.toNat_ofNat_of_lt' hpre])
    exact absurd hsame.symm (UInt64.ne_of_lt hlate)
  · intro hne post hlt
    rw [inSequence_append] at hlt
    have hpre : inSequence 0 pre < 2 ^ 64 := (le_inSequence _ post).trans_lt hlt
    refine recovers_of_market bytes orderBytes hnew hpre fun m hlast => ?_
    have hearly := Market.run_early (m := m) pre (by rwa [hlast, UInt64.toNat_ofNat_of_lt' hpre])
    rw [Market.later_append, Market.run_append, hearly]
    exact Market.run_skip hlast post (UInt64.le_refl _) hlt

end Exact

/-- A snapshot after one order in sequence. -/
theorem recovery_exact_iff_one_order : ∃ b₀, OrderBook.new ⟨1, 4, 1, 2⟩ = .ok b₀ ∧
    Recovers Command.bytes RestingOrder.bytes b₀ [⟨1, .new, .buy, .limit, 0, 7, 2, 5⟩]
      [⟨2, .new, .sell, .limit, 0, 8, 2, 9⟩] := by
  obtain ⟨b₀, hnew⟩ := OrderBook.new_isOk (by decide : checkedPriceCount ⟨1, 4, 1, 2⟩ = .ok 4) (by decide)
  have hiff := recovery_exact_iff Command.bytes RestingOrder.bytes hnew
    [⟨1, .new, .buy, .limit, 0, 7, 2, 5⟩]
  exact ⟨b₀, hnew, hiff.mpr (by decide) _ (by decide)⟩

/-- **A command that came too early comes back.** Sequence `2` arrives before sequence `1` and is
rejected; the snapshot is taken after sequence `1`. The live book is empty at sequence `1`, and the
recovered one has carried the rejected order out. -/
theorem recovery_carries_out_a_rejected_order : (do
    let b₀ ← OrderBook.new ⟨1, 4, 1, 2⟩
    let live ← EngineRunner.consumeAll Command.bytes ⟨b₀, some [], []⟩
      [⟨2, .new, .buy, .limit, 0, 7, 2, 5⟩, ⟨1, .cancel, .buy, .limit, 0, 9, 0, 0⟩]
    let file ← live.book.writeSnapshot RestingOrder.bytes
    let recovered ← recover Command.bytes RestingOrder.bytes file (live.journal.getD [])
    let liveOrders ← live.book.restingOrders
    let recoveredOrders ← recovered.restingOrders
    .ok ((live.book.stats.lastSequence, liveOrders),
      (recovered.stats.lastSequence, recoveredOrders))) =
    (.ok ((1, []), (2, [⟨7, .buy, 2, 5, 2⟩])) : Except Fault _) := by
  decide +kernel

end Dme
