import MatchingEngine.JournalFile
import MatchingEngine.Lib.Checksum

/-!
# A journal with a byte changed

* `checksumStep_injective`: the step of `checksum_bytes` can be undone, since its factor is odd;
  **`checksumBytes_set_ne`**: a change of one byte changes the checksum.
* `compatible_iff`: a header is accepted byte for byte. `readRecord_set`: a record with a byte changed
  is refused.
* **`journal_corruption_detected`**.
-/

set_option autoImplicit false

namespace Dme

/-! ## The checksum -/

theorem mul_checksumFactor_injective :
    Function.Injective fun hash : UInt64 => hash * 1099511628211 := by
  intro a b h
  have hinv : ∀ hash : UInt64, hash * 1099511628211 * 14886173955864302971 = hash := by
    intro hash
    rw [UInt64.mul_assoc, show (1099511628211 * 14886173955864302971 : UInt64) = 1 by decide,
      UInt64.mul_one]
  rw [← hinv a, ← hinv b]
  exact congrArg (· * 14886173955864302971) h

theorem checksumStep_injective (byte : UInt8) :
    Function.Injective fun hash : UInt64 => (hash ^^^ byte.toUInt64) * 1099511628211 := by
  intro a b h
  exact (UInt64.xor_left_inj _).mp (mul_checksumFactor_injective h)

theorem checksumStep_byte_injective (hash : UInt64) :
    Function.Injective fun byte : UInt8 => (hash ^^^ byte.toUInt64) * 1099511628211 := by
  intro a b h
  exact UInt8.toUInt64_inj.mp ((UInt64.xor_right_inj _).mp (mul_checksumFactor_injective h))

/-- **A change of one byte changes the checksum.** -/
theorem checksumBytes_set_ne {bytes : List UInt8} {i : ℕ} {byte : UInt8} (hi : i < bytes.length)
    (hne : bytes[i]? ≠ some byte) : checksumBytes (bytes.set i byte) ≠ checksumBytes bytes :=
  Checksum.foldl_set_ne checksumStep_injective checksumStep_byte_injective hi hne _

theorem set_ne_self {bytes : List UInt8} {i : ℕ} {byte : UInt8} (hi : i < bytes.length)
    (hne : bytes[i]? ≠ some byte) : bytes.set i byte ≠ bytes := by
  intro h
  apply hne
  rw [← h, List.getElem?_set_self hi]

/-! ## Headers and records -/

theorem compatible_iff {stream : List UInt8} :
    compatible stream = true ↔ stream.take 16 = journalHeader.bytes := by
  constructor
  · intro h
    have hlen := length_of_compatible h
    rw [compatible, readHeader, if_neg (by omega)] at h
    simp only [decide_eq_true_eq] at h
    obtain ⟨hmagic, hversion, hsize⟩ := h
    have hword : ∀ offset (value : UInt32), offset + 4 ≤ stream.length →
        UInt32.ofNat (Endian.load ((stream.drop offset).take 4)) = value →
        (stream.drop offset).take 4 = Endian.store 4 value.toNat := by
      intro offset value hoffset hvalue
      have hfour : ((stream.drop offset).take 4).length = 4 := by
        rw [List.length_take, List.length_drop]
        omega
      have hlt := Endian.load_lt ((stream.drop offset).take 4)
      rw [hfour] at hlt
      have hstore := Endian.store_load ((stream.drop offset).take 4)
      rw [hfour] at hstore
      rw [← hvalue, UInt32.toNat_ofNat_of_lt' hlt, hstore]
    have hsplit : stream.take 16 =
        stream.take 8 ++ (stream.drop 8).take 4 ++ (stream.drop 12).take 4 := by
      rw [show (16 : ℕ) = 8 + 4 + 4 from rfl, List.take_add, List.take_add]
    rw [hsplit, hmagic, hword 8 1 (by omega) hversion, hword 12 48 (by omega) hsize]
    rfl
  · intro h
    rw [← compatible_take, h]
    decide

/-- **A record with a byte changed is refused**, be it a byte of the command or of the checksum. -/
theorem readRecord_set {data : List UInt8} {command : CommandObject} {j : ℕ} {byte : UInt8}
    (hlen : data.length = 48) (h : readRecord data = some command) (hj : j < 48)
    (hne : data[j]? ≠ some byte) : readRecord (data.set j byte) = none := by
  obtain ⟨-, hsum⟩ : data.length = 48 ∧
      UInt64.ofNat (Endian.load (data.drop 40)) = checksumBytes (data.take 40) := by
    by_contra hnot
    rw [readRecord, dif_neg hnot] at h
    cases h
  have hload : ∀ tail : List UInt8, tail.length = 8 →
      (UInt64.ofNat (Endian.load tail)).toNat = Endian.load tail := by
    intro tail htail
    have hlt := Endian.load_lt tail
    rw [htail] at hlt
    exact UInt64.toNat_ofNat_of_lt' hlt
  rw [readRecord, dif_neg]
  rintro ⟨-, hsum'⟩
  by_cases hcommand : j < 40
  · -- the checksum of the command is another one
    have hdrop : (data.set j byte).drop 40 = data.drop 40 := by
      rw [List.drop_set, if_pos hcommand]
    have htake : (data.set j byte).take 40 = (data.take 40).set j byte := List.take_set
    rw [hdrop, htake, hsum] at hsum'
    refine checksumBytes_set_ne (by rw [List.length_take]; omega) ?_ hsum'.symm
    rwa [List.getElem?_take_of_lt hcommand]
  · -- the stored checksum is another one
    have htake : (data.set j byte).take 40 = data.take 40 := by
      rw [List.take_set, List.set_eq_of_length_le (by rw [List.length_take]; omega)]
    have hdrop : (data.set j byte).drop 40 = (data.drop 40).set (j - 40) byte := by
      rw [List.drop_set, if_neg hcommand]
    have htail : (data.drop 40).length = 8 := by rw [List.length_drop, hlen]
    have htail' : ((data.drop 40).set (j - 40) byte).length = 8 := by rw [List.length_set, htail]
    rw [htake, ← hsum, hdrop, ← UInt64.toNat_inj, hload _ htail', hload _ htail] at hsum'
    refine set_ne_self (by omega) ?_ (Endian.load_inj (htail'.trans htail.symm) hsum')
    rwa [List.getElem?_drop, Nat.add_sub_cancel' (Nat.not_lt.mp hcommand)]

/-! ## Files -/

/-- The file with byte `i` changed. -/
def JournalFile.corrupt (file : JournalFile) (i : ℕ) (byte : UInt8) : JournalFile :=
  ⟨file.bytes.set i byte, by
    rw [List.length_set]
    exact file.size_lt⟩

variable {file : JournalFile} {xs : List CommandObject} {i : ℕ} {byte : UInt8}

theorem corrupt_header (h : compatible file.bytes = true) (hi : i < 16)
    (hne : file.bytes[i]? ≠ some byte) : compatible (file.corrupt i byte).bytes = false := by
  have hlen := length_of_compatible h
  rw [← Bool.not_eq_true, compatible_iff, JournalFile.corrupt, List.take_set]
  rw [compatible_iff] at h
  rw [← h]
  exact set_ne_self (by rw [List.length_take]; omega) (by rwa [List.getElem?_take_of_lt hi])

/-- **What a journal holds with a byte of record `k` changed.** -/
theorem Holds.corrupt (h : Holds file xs true) {k j : ℕ} (hk : k < xs.length) (hj : j < 48)
    (hne : file.bytes[16 + (48 * k + j)]? ≠ some byte) :
    Holds (file.corrupt (16 + (48 * k + j)) byte) (xs.take k) false where
  header := by
    rw [← compatible_take, JournalFile.corrupt, List.take_set,
      List.set_eq_of_length_le (by rw [List.length_take]; omega), compatible_take]
    exact h.header
  reads := by
    rw [JournalFile.corrupt, List.drop_set, if_neg (by omega), Nat.add_sub_cancel_left]
    refine h.reads.corrupt (fun data a j b hlen ha hj hb => readRecord_set hlen ha hj hb) hk hj ?_
    rwa [List.getElem?_drop]

/-- **Every change of a single byte of a journal is detected.** In the header it makes replaying throw;
in record `k` it makes replaying deliver the `k` commands before it, and report their number, the end of
the last of them and that the end is not clean. -/
theorem journal_corruption_detected (h : CleanJournal xs file) (hi : i < file.bytes.length)
    (hne : file.bytes[i]? ≠ some byte) :
    (i < 16 → ∀ (σ : Type) (consumer : σ → CommandObject → Except Fault σ) (state : σ),
      JournalFile.replayJournal consumer (some (file.corrupt i byte)) state =
        .error (.runtimeError "invalid journal header")) ∧
    ∀ k, 16 + 48 * k ≤ i → i < 16 + 48 * (k + 1) → k < xs.length ∧ ∃ result,
      Delivers (some (file.corrupt i byte)) (xs.take k) result ∧ result.records.toNat = k ∧
        result.validBytes.toNat = 16 + 48 * k ∧ result.cleanEnd = false := by
  obtain ⟨hholds, hlen⟩ := h
  refine ⟨fun h16 σ consumer state => ?_, fun k hle hlt => ?_⟩
  · rw [JournalFile.replayJournal, corrupt_header hholds.header h16 hne]
    rfl
  · obtain ⟨j, hj, rfl⟩ : ∃ j < 48, i = 16 + (48 * k + j) := ⟨i - 16 - 48 * k, by omega, by omega⟩
    have hk : k < xs.length := by omega
    have hcorrupt := hholds.corrupt hk hj hne
    have hcount : (xs.take k).length = k := by
      rw [List.length_take]
      omega
    obtain ⟨hrecords, hbytes⟩ := hcorrupt.replayed_toNat
    rw [hcount] at hrecords hbytes
    exact ⟨hk, _, hcorrupt.delivers, by rw [hcount]; exact hrecords, by rw [hcount]; exact hbytes, rfl⟩

/-- Two commands; a byte of the second one is changed. -/
theorem journal_corruption_detected_second : ∃ c₁ c₂ : CommandObject, ∃ file : JournalFile,
    journalSession none [c₁, c₂] = .ok file ∧ file.bytes[64]? = some 2 ∧
    ∃ result, Delivers (some (file.corrupt 64 3)) [c₁] result ∧ result.records.toNat = 1 ∧
      result.validBytes.toNat = 64 ∧ result.cleanEnd = false := by
  obtain ⟨c₁, hc₁⟩ : ∃ c, c = Command.object ⟨1, .new, .buy, .limit, 0, 7, 2, 5⟩ := ⟨_, rfl⟩
  obtain ⟨c₂, hc₂⟩ : ∃ c, c = Command.object ⟨2, .cancel, .buy, .limit, 0, 7, 0, 0⟩ := ⟨_, rfl⟩
  have hrun : (journalSession none [c₁, c₂]).map (fun file => file.bytes[64]?) = .ok (some 2) := by
    rw [hc₁, hc₂]
    decide +kernel
  have hnew : IsNew none := by simp [IsNew]
  rcases hnew.sessions [c₁, c₂] [] with ⟨hlarge, -⟩ | ⟨file, hfile, hclean⟩
  · simp at hlarge
  have hsession : journalSession none [c₁, c₂] = .ok file := by
    rw [← hfile, journalSessions]
    cases journalSession none [c₁, c₂] <;> rfl
  have hbyte : file.bytes[64]? = some 2 := by
    rw [hsession] at hrun
    exact Except.ok.inj hrun
  have hdiff : file.bytes[64]? ≠ some 3 := by
    rw [hbyte]
    decide
  obtain ⟨-, hrecord⟩ := journal_corruption_detected hclean
    (List.getElem?_eq_some_iff.mp hbyte).1 hdiff
  obtain ⟨-, result, hresult⟩ := hrecord 1 (by decide) (by decide)
  exact ⟨c₁, c₂, file, hsession, hbyte, result, hresult⟩

end Dme
