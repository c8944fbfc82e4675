import MatchingEngine.Encoding

/-!
# The codec of requests

Encoder and decoder meet at the words of a frame: the encoder writes them, and the decoder accepts just
the inputs that have them.

* `Header`, `RequestFrame`: the layout of `PROTOCOL.md`, word by word.
* `validateHeader_ok_iff`, `decodeRequest_of_frame`, `decodeRequest_cases`: what is accepted.
* `Agrees`: a field that is written as the input has it, up to the reserved bytes.
* **`request_round_trip`**: what is encoded is decoded, and no part of it is enough.
* **`request_decoder_grammar`**: an input is accepted if and only if it begins with a frame, and encoding
  the request gives that frame.
-/

set_option autoImplicit false

namespace Dme

/-- What is left of a command by the wire: the fields that are not encoded have their defaults. -/
def Command.normalised (command : Command) : Command :=
  match command.type with
  | .new => { command with sequence := 0, reserved := 0 }
  | .cancel =>
    { command with
      side := .buy, orderType := .limit, price := 0, quantity := 0, sequence := 0, reserved := 0 }
  | .replace => { command with side := .buy, orderType := .limit, sequence := 0, reserved := 0 }

namespace Protocol

open Layout (Consecutive image slice blank)

variable {input l : List UInt8} {offset size : ℕ}

/-! ## Words -/

theorem word_lt (l : List UInt8) (offset size : ℕ) : word l offset size < 256 ^ size := by
  have hlt := Endian.load_lt (slice l offset size)
  have hle : (slice l offset size).length ≤ size := List.length_take_le size _
  exact hlt.trans_le (Nat.pow_le_pow_right (by decide) hle)

theorem toNat_word8 (l : List UInt8) (offset : ℕ) :
    (UInt8.ofNat (word l offset 1)).toNat = word l offset 1 :=
  UInt8.toNat_ofNat_of_lt' (word_lt l offset 1)

theorem toNat_word16 (l : List UInt8) (offset : ℕ) :
    (UInt16.ofNat (word l offset 2)).toNat = word l offset 2 :=
  UInt16.toNat_ofNat_of_lt' (word_lt l offset 2)

theorem toNat_word32 (l : List UInt8) (offset : ℕ) :
    (UInt32.ofNat (word l offset 4)).toNat = word l offset 4 :=
  UInt32.toNat_ofNat_of_lt' (word_lt l offset 4)

theorem toNat_word64 (l : List UInt8) (offset : ℕ) :
    (UInt64.ofNat (word l offset 8)).toNat = word l offset 8 :=
  UInt64.toNat_ofNat_of_lt' (word_lt l offset 8)

theorem toNat_wordPrice (l : List UInt8) (offset : ℕ) :
    (UInt64.ofNat (word l offset 8)).toInt64.toUInt64.toNat = word l offset 8 := by
  rw [UInt64.toUInt64_toInt64, toNat_word64]

theorem store_word (h : offset + size ≤ l.length) :
    Endian.store size (word l offset size) = slice l offset size := by
  have hstore := Endian.store_load (slice l offset size)
  rwa [Layout.length_slice h] at hstore

/-- **A field that was written is read back**, whatever comes after the frame. -/
theorem word_field {fields : List (ℕ × List UInt8)} (h : Consecutive 0 fields) {data : List UInt8}
    (hmem : (offset, data) ∈ fields) (suffix : List UInt8) :
    word (image fields ++ suffix) offset data.length = Endian.load data :=
  congrArg Endian.load (Layout.slice_image h hmem List.length_nil suffix)

theorem word_store {fields : List (ℕ × List UInt8)} (h : Consecutive 0 fields) {n : ℕ}
    (hmem : (offset, Endian.store size n) ∈ fields) (hn : n < 256 ^ size) (suffix : List UInt8) :
    word (image fields ++ suffix) offset size = n := by
  have hword := word_field h hmem suffix
  rwa [Endian.length_store, Endian.load_store hn] at hword

theorem word_byte {fields : List (ℕ × List UInt8)} (h : Consecutive 0 fields) {byte : UInt8}
    (hmem : (offset, [byte]) ∈ fields) (suffix : List UInt8) :
    word (image fields ++ suffix) offset 1 = byte.toNat := by
  have hword := word_field h hmem suffix
  rwa [Endian.load_cons] at hword

/-! ## Fields written as they were read -/

/-- The field is what the input has at its place, with the bytes that `mask` selects cleared. -/
def Agrees (mask : ℕ → Bool) (input : List UInt8) (field : ℕ × List UInt8) : Prop :=
  field.2 = blank (fun i => mask (field.1 + i)) 0 (slice input field.1 field.2.length)

section Agrees

variable {mask : ℕ → Bool}

theorem Agrees.word {n : ℕ} (hword : word input offset size = n)
    (hlen : offset + size ≤ input.length) (hmask : ∀ i < size, mask (offset + i) = false) :
    Agrees mask input (offset, Endian.store size n) := by
  rw [Agrees, Endian.length_store, ← hword, store_word hlen, Layout.blank_of_keep]
  rwa [Layout.length_slice hlen]

theorem Agrees.byte {byte : UInt8} (hword : Protocol.word input offset 1 = byte.toNat)
    (hlen : offset + 1 ≤ input.length) (hmask : mask offset = false) :
    Agrees mask input (offset, [byte]) := by
  have hstore : Endian.store 1 byte.toNat = [byte] := by simp [Endian.store]
  rw [← hstore]
  refine Agrees.word hword hlen fun i hi => ?_
  rwa [Nat.lt_one_iff.mp hi]

theorem Agrees.reserved (hlen : offset + size ≤ input.length)
    (hmask : ∀ i < size, mask (offset + i) = true) :
    Agrees mask input (offset, Endian.store size 0) := by
  rw [Agrees, Endian.length_store, Endian.store_zero, Layout.blank_of_clear, Layout.length_slice hlen]
  rwa [Layout.length_slice hlen]

theorem image_eq_of_agrees {fields : List (ℕ × List UInt8)} (h : Consecutive 0 fields)
    (hlen : (image fields).length ≤ input.length) (hfields : ∀ field ∈ fields, Agrees mask input field) :
    image fields = blank mask 0 (input.take (image fields).length) := by
  have himage := Layout.image_eq_blank h (by rwa [Nat.zero_add]) hfields
  simp only [Nat.zero_add] at himage
  exact himage

end Agrees

/-! ## Headers -/

/-- The header of a frame of `n` bytes that is all there. -/
structure Header (code : UInt8) (n : ℕ) (input : List UInt8) : Prop where
  magic : word input 0 4 = 0x31454d44
  version : word input 4 1 = 1
  message : word input 5 1 = code.toNat
  length : word input 6 2 = n
  present : n ≤ input.length
  session : word input 8 4 ≠ 0
  sequence : word input 16 8 ≠ 0

/-- The variables that `validate_header` sets. -/
def headerAt (input : List UInt8) : FrameHeader where
  type := UInt8.ofNat (word input 5 1)
  length := word input 6 2
  session := UInt32.ofNat (word input 8 4)
  sequence := UInt64.ofNat (word input 16 8)

/-- **When a header is valid.** -/
theorem validateHeader_ok_iff {header : FrameHeader} : validateHeader input = .ok (.ok, header) ↔
    word input 0 4 = 0x31454d44 ∧ word input 4 1 = 1 ∧ 24 ≤ word input 6 2 ∧ word input 6 2 ≤ 80 ∧
      word input 6 2 ≤ input.length ∧ header = headerAt input := by
  by_cases hlen : headerSize ≤ input.length
  · have hmagic : UInt32.ofNat (word input 0 4) = magic ↔ word input 0 4 = 0x31454d44 := by
      rw [← UInt32.toNat_inj, toNat_word32]
      rfl
    have hversion : UInt8.ofNat (word input 4 1) = version ↔ word input 4 1 = 1 := by
      rw [← UInt8.toNat_inj, toNat_word8]
      rfl
    rw [validateHeader_eq hlen, announced, headerSize]
    simp only [word_take (show 0 + 4 ≤ 24 by decide), word_take (show 4 + 1 ≤ 24 by decide),
      word_take (show 5 + 1 ≤ 24 by decide), word_take (show 6 + 2 ≤ 24 by decide),
      word_take (show 8 + 4 ≤ 24 by decide), word_take (show 16 + 8 ≤ 24 by decide), toNat_word16,
      ne_eq, hmagic, hversion, maximumFrameSize]
    by_cases hm : word input 0 4 = 0x31454d44
    · by_cases hv : word input 4 1 = 1
      · by_cases hbad : word input 6 2 < 24 ∨ word input 6 2 > 80
        · simp only [hm, hv, hbad]
          simp
          omega
        · by_cases hshort : input.length < word input 6 2
          · simp [hm, hv, hbad, hshort]
          · have hgood : 24 ≤ word input 6 2 ∧ word input 6 2 ≤ 80 ∧
                word input 6 2 ≤ input.length := by omega
            simp [hm, hv, hbad, hshort, hgood, headerAt, eq_comm]
      · simp [hm, hv]
    · simp [hm]
  · rw [validateHeader, if_pos (Nat.not_le.mp hlen)]
    rw [headerSize] at hlen
    constructor
    · intro h
      cases h
    · intro h
      omega

theorem validateHeader_isOk (input : List UInt8) :
    ∃ status header, validateHeader input = .ok (status, header) := by
  by_cases hlen : headerSize ≤ input.length
  · rw [validateHeader_eq hlen]
    exact ⟨_, _, rfl⟩
  · rw [validateHeader, if_pos (Nat.not_le.mp hlen)]
    exact ⟨_, _, rfl⟩

theorem Header.validate {code : UInt8} {n : ℕ} (h : Header code n input) (hmin : 24 ≤ n)
    (hmax : n ≤ 80) : validateHeader input = .ok (.ok, headerAt input) := by
  have hlength := h.length
  have hpresent := h.present
  exact validateHeader_ok_iff.mpr
    ⟨h.magic, h.version, by omega, by omega, by omega, rfl⟩

theorem Header.at_eq {code : UInt8} {n : ℕ} (h : Header code n input) :
    (headerAt input).type = code ∧ (headerAt input).length = n ∧ (headerAt input).session ≠ 0 ∧
      (headerAt input).sequence ≠ 0 := by
  refine ⟨?_, h.length, ?_, ?_⟩
  · rw [← UInt8.toNat_inj]
    exact (toNat_word8 input 5).trans h.message
  · rw [ne_eq, ← UInt32.toNat_inj]
    exact fun hzero => h.session ((toNat_word32 input 8).symm.trans hzero)
  · rw [ne_eq, ← UInt64.toNat_inj]
    exact fun hzero => h.sequence ((toNat_word64 input 16).symm.trans hzero)

theorem header_of_validate {header : FrameHeader} (hv : validateHeader input = .ok (.ok, header))
    (hsession : header.session ≠ 0) (hsequence : header.sequence ≠ 0) :
    Header header.type header.length input ∧ header = headerAt input := by
  obtain ⟨hmagic, hversion, -, -, hpresent, rfl⟩ := validateHeader_ok_iff.mp hv
  refine ⟨⟨hmagic, hversion, (toNat_word8 input 5).symm, rfl, hpresent, ?_, ?_⟩, rfl⟩
  · intro hzero
    exact hsession (by rw [headerAt, hzero]; rfl)
  · intro hzero
    exact hsequence (by rw [headerAt, hzero]; rfl)

/-- **No part of a frame is enough.** -/
theorem Header.validate_take {code : UInt8} {n k : ℕ} (h : Header code n input) (hmin : 24 ≤ n)
    (hmax : n ≤ 80) (hk : k < n) :
    ∃ header, validateHeader (input.take k) = .ok (.needMoreData, header) := by
  have hpresent := h.present
  have hlen : (input.take k).length = k := by
    rw [List.length_take]
    omega
  by_cases hshort : k < headerSize
  · exact ⟨{}, by rw [validateHeader, if_pos (by rw [hlen]; exact hshort)]⟩
  · -- the header is all there, and announces what is not
    have hwhole := h.validate hmin hmax
    rw [validateHeader_eq (by rw [headerSize]; omega)] at hwhole
    have hann : announced (input.take headerSize) = (.ok, headerAt input) := by
      split_ifs at hwhole with hmore
      · cases hwhole
      · exact Except.ok.inj hwhole
    have hfront : (input.take k).take headerSize = input.take headerSize := by
      rw [List.take_take, Nat.min_eq_left (Nat.not_lt.mp hshort)]
    rw [validateHeader_eq (by rw [hlen]; exact Nat.not_lt.mp hshort), hfront, hann, hlen,
      if_pos ⟨rfl, h.at_eq.2.1 ▸ hk⟩]
    exact ⟨_, rfl⟩

theorem headerFields_append_consecutive (type : MessageType) (n : ℕ) (session : UInt32)
    (sequence : UInt64) {payload : List (ℕ × List UInt8)} (hpayload : Consecutive 24 payload) :
    Consecutive 0 (headerFields type n session sequence ++ payload) := by
  refine (headerFields_consecutive type n session sequence).append ?_
  rw [image_headerFields, length_encodeHeader]
  exact hpayload

theorem header_of_fields (type : MessageType) {n : ℕ} {session : UInt32} {sequence : UInt64}
    {payload : List (ℕ × List UInt8)} (hpayload : Consecutive 24 payload)
    (hlen : 24 + (image payload).length = n) (hmax : n ≤ 80) (hsession : session ≠ 0)
    (hsequence : sequence ≠ 0) (suffix : List UInt8) :
    Consecutive 0 (headerFields type n session sequence ++ payload) ∧
    Header type.code n (image (headerFields type n session sequence ++ payload) ++ suffix) ∧
    word (image (headerFields type n session sequence ++ payload) ++ suffix) 8 4 = session.toNat ∧
    word (image (headerFields type n session sequence ++ payload) ++ suffix) 16 8 =
      sequence.toNat := by
  have hheader := image_headerFields type n session sequence
  have hcons := headerFields_append_consecutive type n session sequence hpayload
  have hmem : ∀ field ∈ headerFields type n session sequence,
      field ∈ headerFields type n session sequence ++ payload :=
    fun _ => List.mem_append_left payload
  have h8 := word_store hcons (hmem (8, Endian.store 4 session.toNat) (by simp [headerFields]))
    session.toNat_lt suffix
  have h16 := word_store hcons (hmem (16, Endian.store 8 sequence.toNat) (by simp [headerFields]))
    sequence.toNat_lt suffix
  refine ⟨hcons, ⟨?_, ?_, ?_, ?_, ?_, ?_, ?_⟩, h8, h16⟩
  · exact word_store hcons (hmem (0, Endian.store 4 magic.toNat) (by simp [headerFields]))
      (by decide) suffix
  · exact word_byte hcons (hmem (4, [version]) (by simp [headerFields])) suffix
  · exact word_byte hcons (hmem (5, [type.code]) (by simp [headerFields])) suffix
  · exact word_store hcons (hmem (6, Endian.store 2 n) (by simp [headerFields])) (by omega) suffix
  · rw [List.length_append, Layout.image_append, List.length_append, hheader, length_encodeHeader]
    omega
  · rw [h8]
    exact fun hzero => hsession (UInt32.toNat_inj.mp hzero)
  · rw [h16]
    exact fun hzero => hsequence (UInt64.toNat_inj.mp hzero)

theorem Header.agrees {mask : ℕ → Bool} {type : MessageType} {n : ℕ} (h : Header type.code n input)
    (hmin : 24 ≤ n)
    (hmask : ∀ i < 24, mask i = decide (12 ≤ i ∧ i < 16)) :
    ∀ field ∈ headerFields type n (headerAt input).session (headerAt input).sequence,
      Agrees mask input field := by
  have hpresent := h.present
  have hkeep : ∀ offset size, offset + size ≤ 12 ∨ 16 ≤ offset ∧ offset + size ≤ 24 →
      ∀ i < size, mask (offset + i) = false := by
    intro offset size hplace i hi
    rw [hmask _ (by omega), decide_eq_false_iff_not]
    omega
  have hclear : ∀ i < 4, mask (12 + i) = true := by
    intro i hi
    rw [hmask _ (by omega), decide_eq_true_eq]
    omega
  simp only [headerFields, List.forall_mem_cons]
  refine ⟨.word h.magic (by omega) (hkeep 0 4 (by omega)),
    .byte h.version (by omega) (hkeep 4 1 (by omega) 0 (by omega)),
    .byte h.message (by omega) (hkeep 5 1 (by omega) 0 (by omega)),
    .word h.length (by omega) (hkeep 6 2 (by omega)),
    .word (toNat_word32 input 8).symm (by omega) (hkeep 8 4 (by omega)),
    .reserved (by omega) hclear,
    .word (toNat_word64 input 16).symm (by omega) (hkeep 16 8 (by omega)), by simp⟩

/-! ## Enumerations -/

/-- The bytes up to `last` are the codes of the values of `α`, and `parse` reads them. -/
structure Coded {α : Type} (code : α → UInt8) (parse : UInt8 → Option α) (last : ℕ) : Prop where
  parse_code : ∀ a, parse (code a) = some a
  code_parse : ∀ n < 256,
    (parse (UInt8.ofNat n)).map code = if n ≤ last then some (UInt8.ofNat n) else none

section Coded

variable {α : Type} {code : α → UInt8} {parse : UInt8 → Option α} {last : ℕ}

theorem Coded.map_parse (h : Coded code parse last) (value : UInt8) :
    (parse value).map code = if value.toNat ≤ last then some value else none := by
  have hmap := h.code_parse value.toNat value.toNat_lt
  rwa [UInt8.ofNat_toNat] at hmap

theorem Coded.code_eq (h : Coded code parse last) {value : UInt8} {a : α}
    (hparse : parse value = some a) : code a = value := by
  have hmap := h.map_parse value
  rw [hparse, Option.map_some] at hmap
  split_ifs at hmap
  exact Option.some.inj hmap

theorem Coded.isSome_iff (h : Coded code parse last) (value : UInt8) :
    (∃ a, parse value = some a) ↔ value.toNat ≤ last := by
  have hmap := h.map_parse value
  cases hparse : parse value with
  | none =>
    rw [hparse, Option.map_none] at hmap
    split_ifs at hmap with hle
    simp [hle]
  | some a =>
    rw [hparse, Option.map_some] at hmap
    split_ifs at hmap with hle
    simp [hle]

end Coded

theorem sideOf_coded : Coded Side.code sideOf 1 :=
  ⟨fun side => by cases side <;> rfl, by decide +kernel⟩

theorem orderTypeOf_coded : Coded OrderType.code orderTypeOf 3 :=
  ⟨fun orderType => by cases orderType <;> rfl, by decide +kernel⟩

/-! ## Requests on the wire -/

/-- The message type and the frame length of a request, and where its order id is. -/
def layout : CommandType → UInt8 × ℕ × ℕ
  | .new => (1, 52, 28)
  | .cancel => (2, 32, 24)
  | .replace => (3, 48, 24)

/-- **A request of the documented layout** at the front of an input. -/
structure RequestFrame (type : CommandType) (input : List UInt8) : Prop extends
    Header (layout type).1 (layout type).2.1 input where
  orderId : word input (layout type).2.2 8 ≠ 0
  side : type = .new → word input 24 1 ≤ 1
  orderType : type = .new → word input 25 1 ≤ 3

/-- The bytes that are written as zero and not looked at. -/
def reserved : CommandType → ℕ → Bool
  | .new, i => i ∈ [12, 13, 14, 15, 26, 27]
  | _, i => i ∈ [12, 13, 14, 15]

theorem layout_spec (type : CommandType) : (wireType type).code = (layout type).1 ∧
    requestFrameSize type = (layout type).2.1 ∧ commandType (layout type).1 = some type ∧
    24 ≤ (layout type).2.1 ∧ (layout type).2.1 ≤ 80 := by
  cases type <;> decide

theorem layout_of_commandType {code : UInt8} {type : CommandType} (h : commandType code = some type) :
    code = (layout type).1 := by
  rw [commandType] at h
  split_ifs at h with h₁ h₂ h₃ <;> cases h
  · exact h₁
  · exact h₂
  · exact h₃

theorem commandAt_isSome_iff {type : CommandType} : (∃ command, commandAt type input = some command) ↔
    (type = .new → word input 24 1 ≤ 1 ∧ word input 25 1 ≤ 3) := by
  cases type with
  | new =>
    have hside := sideOf_coded.isSome_iff (UInt8.ofNat (word input 24 1))
    have htype := orderTypeOf_coded.isSome_iff (UInt8.ofNat (word input 25 1))
    rw [toNat_word8] at hside htype
    rw [← hside, ← htype]
    rw [commandAt]
    cases sideOf (UInt8.ofNat (word input 24 1)) with
    | none => simp
    | some side =>
      cases orderTypeOf (UInt8.ofNat (word input 25 1)) with
      | none => simp
      | some orderType => simp
  | cancel => simp [commandAt]
  | replace => simp [commandAt]

/-- **What a command read from an input has**: the type asked for, the order id at its place, and
fields that are written as they were read. -/
theorem commandAt_spec {type : CommandType} {command : Command} (hlen : (layout type).2.1 ≤ input.length)
    (h : commandAt type input = some command) :
    command.type = type ∧ command.orderId = UInt64.ofNat (word input (layout type).2.2 8) ∧
      ∀ field ∈ commandFields command, Agrees (reserved type) input field := by
  cases type with
  | new =>
    rw [commandAt] at h
    cases hside : sideOf (UInt8.ofNat (word input 24 1)) with
    | none => simp [hside] at h
    | some side =>
      cases htype : orderTypeOf (UInt8.ofNat (word input 25 1)) with
      | none => simp [hside, htype] at h
      | some orderType =>
        simp only [hside, htype, Option.some.injEq] at h
        subst h
        have hsideCode := congrArg UInt8.toNat (sideOf_coded.code_eq hside)
        have htypeCode := congrArg UInt8.toNat (orderTypeOf_coded.code_eq htype)
        rw [toNat_word8] at hsideCode htypeCode
        change 52 ≤ input.length at hlen
        refine ⟨rfl, rfl, ?_⟩
        simp only [commandFields, List.forall_mem_cons]
        exact ⟨.byte hsideCode.symm (by omega) (by decide), .byte htypeCode.symm (by omega) (by decide),
          .reserved (by omega) (by decide), .word (toNat_word64 input 28).symm (by omega) (by decide),
          .word (toNat_wordPrice input 36).symm (by omega) (by decide),
          .word (toNat_word64 input 44).symm (by omega) (by decide), by simp⟩
  | cancel =>
    rw [commandAt, Option.some.injEq] at h
    subst h
    change 32 ≤ input.length at hlen
    refine ⟨rfl, rfl, ?_⟩
    simp only [commandFields, List.forall_mem_cons]
    exact ⟨.word (toNat_word64 input 24).symm (by omega) (by decide), by simp⟩
  | replace =>
    rw [commandAt, Option.some.injEq] at h
    subst h
    change 48 ≤ input.length at hlen
    refine ⟨rfl, rfl, ?_⟩
    simp only [commandFields, List.forall_mem_cons]
    exact ⟨.word (toNat_word64 input 24).symm (by omega) (by decide),
      .word (toNat_wordPrice input 32).symm (by omega) (by decide),
      .word (toNat_word64 input 40).symm (by omega) (by decide), by simp⟩

/-! ## The decoder and the layout -/

theorem Header.requestFrame {type : CommandType} {command : Command}
    (h : Header (layout type).1 (layout type).2.1 input) (hat : commandAt type input = some command)
    (hid : command.orderId ≠ 0) : RequestFrame type input := by
  have hfields := commandAt_isSome_iff.mp ⟨command, hat⟩
  refine ⟨h, fun hword => hid ?_, fun hnew => (hfields hnew).1, fun hnew => (hfields hnew).2⟩
  rw [(commandAt_spec h.present hat).2.1, hword]
  rfl

/-- **A frame is accepted.** -/
theorem decodeRequest_of_frame {type : CommandType} (h : RequestFrame type input) :
    ∃ command, commandAt type input = some command ∧ command.orderId ≠ 0 ∧ decodeRequest input = .ok {
      status := .ok
      bytesConsumed := (layout type).2.1
      request := ⟨(headerAt input).session, (headerAt input).sequence, command⟩ } := by
  obtain ⟨-, hsize, hcommand, hmin, hmax⟩ := layout_spec type
  obtain ⟨htype, hlength, hsession, hsequence⟩ := h.at_eq
  obtain ⟨command, hat⟩ := commandAt_isSome_iff.mpr fun hnew => ⟨h.side hnew, h.orderType hnew⟩
  obtain ⟨-, hid, -⟩ := commandAt_spec h.present hat
  have hne : command.orderId ≠ 0 := by
    rw [hid, ne_eq, ← UInt64.toNat_inj, toNat_word64]
    exact h.orderId
  refine ⟨command, hat, hne, ?_⟩
  simp [decodeRequest, h.validate hmin hmax, bind, Except.bind, decodeFrame, htype, hcommand, hlength,
    hsize, hsession, hsequence, decodePayload_eq (hsize ▸ h.present), hat, frameResult, hne]

/-- **Only a frame is accepted**, and nothing is consumed of another input. -/
theorem decodeRequest_cases {r : RequestDecodeResult} (h : decodeRequest input = .ok r) :
    (r.status ≠ .ok ∧ r.bytesConsumed = 0) ∨ ∃ type, RequestFrame type input := by
  obtain ⟨⟨status, header⟩, hv, h⟩ := bind_eq_ok.mp h
  dsimp only at h
  split_ifs at h with hstatus
  · cases h
    exact Or.inl ⟨hstatus, rfl⟩
  rw [not_not] at hstatus
  subst hstatus
  rw [decodeFrame] at h
  cases hcommand : commandType header.type with
  | none =>
    rw [hcommand] at h
    cases h
    exact Or.inl ⟨by simp, rfl⟩
  | some type =>
    simp only [hcommand] at h
    split_ifs at h with hbad
    · cases h
      exact Or.inl ⟨by simp, rfl⟩
    simp only [not_or, not_not] at hbad
    obtain ⟨hsize, hsession, hsequence⟩ := hbad
    obtain ⟨hheader, hat⟩ := header_of_validate hv hsession hsequence
    rw [hsize, (layout_spec type).2.1, layout_of_commandType hcommand] at hheader
    rw [decodePayload_eq ((layout_spec type).2.1 ▸ hheader.present)] at h
    cases hpayload : commandAt type input with
    | none =>
      rw [hpayload] at h
      cases h
      exact Or.inl ⟨by simp [frameResult], rfl⟩
    | some command =>
      by_cases hzero : command.orderId = 0
      · rw [hpayload] at h
        cases h
        exact Or.inl ⟨by simp [frameResult, hzero], by simp [frameResult, hzero]⟩
      · exact Or.inr ⟨type, hheader.requestFrame hpayload hzero⟩

theorem RequestFrame.decodeResponse {type : CommandType} (h : RequestFrame type input) :
    decodeResponse input = .ok { status := .unknownMessageType } := by
  obtain ⟨-, -, -, hmin, hmax⟩ := layout_spec type
  have htype : (headerAt input).type ≠ MessageType.executionEvent.code := by
    rw [h.at_eq.1]
    cases type <;> decide
  simp [Protocol.decodeResponse, h.validate hmin hmax, bind, Except.bind, htype]

/-! ## Encoding and decoding -/

theorem requestFrame_eq_image (request : Request) : requestFrame request =
    image (headerFields (wireType request.command.type) (requestFrameSize request.command.type)
      request.sessionId request.clientSequence ++ commandFields request.command) := by
  rw [requestFrame, Layout.image_append, image_headerFields]

theorem commandAt_of_fields {command : Command} {fields : List (ℕ × List UInt8)}
    (hcons : Consecutive 0 fields) (hmem : ∀ field ∈ commandFields command, field ∈ fields)
    (suffix : List UInt8) :
    commandAt command.type (image fields ++ suffix) = some command.normalised := by
  have hbyte : ∀ offset byte, (offset, [byte]) ∈ commandFields command →
      word (image fields ++ suffix) offset 1 = byte.toNat :=
    fun _ _ h => word_byte hcons (hmem _ h) suffix
  have hword : ∀ offset (value : UInt64),
      (offset, Endian.store 8 value.toNat) ∈ commandFields command →
      word (image fields ++ suffix) offset 8 = value.toNat :=
    fun _ value h => word_store hcons (hmem _ h) value.toNat_lt suffix
  rw [Command.normalised]
  cases htype : command.type with
  | new =>
    rw [commandAt, hbyte 24 command.side.code (by simp [commandFields, htype]),
      hbyte 25 command.orderType.code (by simp [commandFields, htype]),
      hword 28 command.orderId (by simp [commandFields, htype]),
      hword 36 command.price.toUInt64 (by simp [commandFields, htype]),
      hword 44 command.quantity (by simp [commandFields, htype])]
    simp [sideOf_coded.parse_code, orderTypeOf_coded.parse_code]
  | cancel =>
    rw [commandAt, hword 24 command.orderId (by simp [commandFields, htype])]
    simp
  | replace =>
    rw [commandAt, hword 24 command.orderId (by simp [commandFields, htype]),
      hword 32 command.price.toUInt64 (by simp [commandFields, htype]),
      hword 40 command.quantity (by simp [commandFields, htype])]
    simp

theorem normalised_orderId (command : Command) : command.normalised.orderId = command.orderId := by
  rw [Command.normalised]
  cases command.type <;> rfl

/-- **An encoded request begins with a frame**, and its words are those of the request. -/
theorem requestFrame_spec {request : Request} (hsession : request.sessionId ≠ 0)
    (hsequence : request.clientSequence ≠ 0) (hid : request.command.orderId ≠ 0)
    (suffix : List UInt8) :
    RequestFrame request.command.type (requestFrame request ++ suffix) ∧
    commandAt request.command.type (requestFrame request ++ suffix) =
      some request.command.normalised ∧
    (headerAt (requestFrame request ++ suffix)).session = request.sessionId ∧
    (headerAt (requestFrame request ++ suffix)).sequence = request.clientSequence := by
  obtain ⟨hcode, hsize, -, -, hmax⟩ := layout_spec request.command.type
  obtain ⟨hcons, hheader, h8, h16⟩ := header_of_fields (wireType request.command.type)
    (commandFields_consecutive request.command) (length_commandFields request.command) (hsize ▸ hmax)
    hsession hsequence suffix
  have hat := commandAt_of_fields hcons (fun _ => List.mem_append_right _) suffix
  rw [← requestFrame_eq_image] at hheader h8 h16 hat
  rw [hcode, hsize] at hheader
  refine ⟨hheader.requestFrame hat (by rwa [normalised_orderId]), hat, ?_, ?_⟩
  · rw [headerAt, h8, UInt32.ofNat_toNat]
  · rw [headerAt, h16, UInt64.ofNat_toNat]

/-- **A request that was decoded is encoded again** as it was, up to the reserved bytes. -/
theorem RequestFrame.encodeRequest {type : CommandType} {command : Command} (h : RequestFrame type input)
    (hat : commandAt type input = some command) :
    requestFrame ⟨(headerAt input).session, (headerAt input).sequence, command⟩ =
      blank (reserved type) 0 (input.take (layout type).2.1) := by
  obtain ⟨rfl, -, hfields⟩ := commandAt_spec h.present hat
  obtain ⟨hcode, hsize, -, hmin, -⟩ := layout_spec command.type
  have hheader : Header (wireType command.type).code (requestFrameSize command.type) input := by
    rw [hcode, hsize]
    exact h.toHeader
  have hmask : ∀ i < 24, reserved command.type i = decide (12 ≤ i ∧ i < 16) := by
    cases command.type <;> decide
  have hagrees : ∀ field ∈ headerFields (wireType command.type) (requestFrameSize command.type)
      (headerAt input).session (headerAt input).sequence ++ commandFields command,
      Agrees (reserved command.type) input field := by
    intro field hfield
    rcases List.mem_append.mp hfield with hfield | hfield
    · exact hheader.agrees (hsize ▸ hmin) hmask field hfield
    · exact hfields field hfield
  have hlen := length_requestFrame ⟨(headerAt input).session, (headerAt input).sequence, command⟩
  rw [requestFrame_eq_image] at hlen ⊢
  have himage := image_eq_of_agrees (headerFields_append_consecutive _ _ _ _
    (commandFields_consecutive command)) (hlen.trans_le (hsize.trans_le h.present)) hagrees
  rw [hlen] at himage
  rw [← hsize]
  exact himage

/-- **A request that is encoded is decoded**, with the fields that the wire does not carry at their
defaults, whatever comes after it; of a part of its bytes the decoder asks for more. -/
theorem request_round_trip (request : Request) (destination : List UInt8)
    (hsession : request.sessionId ≠ 0) (hsequence : request.clientSequence ≠ 0)
    (hid : request.command.orderId ≠ 0)
    (hroom : requestFrameSize request.command.type ≤ destination.length) :
    ∃ frame, frame.length = requestFrameSize request.command.type ∧
      encodeRequestInto request destination =
        .ok (true, frame ++ destination.drop frame.length, frame.length) ∧
      (∀ suffix, decodeRequest (frame ++ suffix) = .ok {
        status := .ok
        bytesConsumed := frame.length
        request := { request with command := request.command.normalised } }) ∧
      ∀ k < frame.length, decodeRequest (frame.take k) = .ok { status := .needMoreData } := by
  obtain ⟨-, hsize, -, hmin, hmax⟩ := layout_spec request.command.type
  refine ⟨requestFrame request, length_requestFrame request, ?_, fun suffix => ?_, fun k hk => ?_⟩
  · rw [encodeRequestInto_eq, encodeRequest_frame hroom hsession hsequence hid]
  · obtain ⟨hframe, hat, h8, h16⟩ := requestFrame_spec hsession hsequence hid suffix
    obtain ⟨command, hcommand, -, hdecode⟩ := decodeRequest_of_frame hframe
    rw [hat, Option.some.injEq] at hcommand
    rw [hdecode, h8, h16, ← hcommand, length_requestFrame, hsize]
  · obtain ⟨hframe, -⟩ := requestFrame_spec hsession hsequence hid []
    rw [List.append_nil] at hframe
    rw [length_requestFrame, hsize] at hk
    obtain ⟨header, hv⟩ := hframe.validate_take hmin hmax hk
    simp [decodeRequest, hv, bind, Except.bind]

/-- A sell order at a negative price. -/
theorem request_round_trip_new_order : ∃ frame, frame.length = 52 ∧
    encodeRequestInto ⟨7, 1, { side := .sell, orderId := 42, price := -5, quantity := 3 }⟩
      (List.replicate 60 9) = .ok (true, frame ++ List.replicate 8 9, 52) ∧
    decodeRequest (frame ++ [1, 2, 3]) = .ok {
      status := .ok
      bytesConsumed := 52
      request := ⟨7, 1, { side := .sell, orderId := 42, price := -5, quantity := 3 }⟩ } ∧
    decodeRequest (frame.take 51) = .ok { status := .needMoreData } := by
  obtain ⟨frame, hlen, hencode, hdecode, hshort⟩ := request_round_trip
    ⟨7, 1, { side := .sell, orderId := 42, price := -5, quantity := 3 }⟩ (List.replicate 60 9)
    (by decide) (by decide) (by decide) (by decide)
  change frame.length = 52 at hlen
  rw [hlen] at hencode hdecode hshort
  exact ⟨frame, hlen, hencode, hdecode [1, 2, 3], hshort 51 (by decide)⟩

/-- **The decoder accepts just the documented layout.** It never reads outside its input; an input is
accepted if and only if it begins with a frame, and encoding the request gives the bytes of that frame
with the reserved ones cleared; nothing is consumed of any other input; and what is accepted is refused
by the decoder of responses. -/
theorem request_decoder_grammar (input : List UInt8) : ∃ r, decodeRequest input = .ok r ∧
    (r.status = .ok ↔ ∃ type, RequestFrame type input) ∧
    (r.status = .ok → RequestFrame r.request.command.type input ∧
      r.bytesConsumed = requestFrameSize r.request.command.type ∧
      ∀ destination, r.bytesConsumed ≤ destination.length →
        encodeRequestInto r.request destination = .ok (true,
          blank (reserved r.request.command.type) 0 (input.take r.bytesConsumed) ++
            destination.drop r.bytesConsumed, r.bytesConsumed)) ∧
    (r.status ≠ .ok → r.bytesConsumed = 0) ∧
    (r.status = .ok → decodeResponse input = .ok { status := .unknownMessageType }) := by
  obtain ⟨r, hr, -⟩ := decodeRequest_spec input
  refine ⟨r, hr, ?_⟩
  by_cases hframe : ∃ type, RequestFrame type input
  · obtain ⟨type, hframe⟩ := hframe
    obtain ⟨command, hat, hid, hdecode⟩ := decodeRequest_of_frame hframe
    obtain rfl := Except.ok.inj (hr.symm.trans hdecode)
    obtain rfl := (commandAt_spec hframe.present hat).1
    obtain ⟨-, hsize, -⟩ := layout_spec command.type
    refine ⟨iff_of_true rfl ⟨_, hframe⟩, fun _ => ⟨hframe, hsize.symm, fun destination hroom => ?_⟩,
      fun hbad => absurd rfl hbad, fun _ => hframe.decodeResponse⟩
    have hencode := hframe.encodeRequest hat
    dsimp only at hroom ⊢
    rw [encodeRequestInto_eq, encodeRequest_frame (hsize.trans_le hroom) hframe.at_eq.2.2.1
      hframe.at_eq.2.2.2 hid, hencode]
    simp [Layout.length_blank, hframe.present]
  · have hbad : r.status ≠ .ok ∧ r.bytesConsumed = 0 := (decodeRequest_cases hr).resolve_right hframe
    exact ⟨iff_of_false hbad.1 hframe, fun hok => absurd hok hbad.1, fun _ => hbad.2,
      fun hok => absurd hok hbad.1⟩

end Protocol

end Dme
