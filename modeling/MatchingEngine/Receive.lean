import MatchingEngine.Handling

/-!
# Receiving in pieces

* `Fits`, `received`: what `recv` may return in one call of `read_requests`, and the bytes of it.
* `Fed p handed buffered`: the calls so far have kept the connection; `recv` has returned the bytes `p`,
  the requests `handed` were given to the validator and `buffered` is left.
* **`readRequests_handled`**: what one call does with the frames in the buffer. `readRequests_frames`: it
  cuts the buffer into frames; `Fed.frames`: and so do all the calls together with the whole of `p`.
* **`receive_fragmentation_invariant`**.
-/

set_option autoImplicit false

namespace Dme

namespace TcpGateway

open Framing (Decoded Frames)
open Protocol (Request requestOutcome requestOutcome_stable)

variable {g : TcpGateway} {c : Connection}

/-! ## The buffer -/

/-- The calls of `recv` with room for `room` bytes: each returns some bytes and no more than there is
room for, or is interrupted. -/
def Fits (room : ℕ) : List RecvResult → Prop
  | [] => True
  | .data bytes :: results => bytes ≠ [] ∧ bytes.length ≤ room ∧ Fits (room - bytes.length) results
  | .interrupted :: results => 0 < room ∧ Fits room results
  | .failed :: _ => False

/-- The bytes that calls of `recv` have returned. -/
def received : List RecvResult → List UInt8
  | [] => []
  | .data bytes :: results => bytes ++ received results
  | _ :: results => received results

theorem receiveLoop_append {receive : List UInt8} {results : List RecvResult} (next : List RecvResult)
    (hle : receive.length ≤ receiveCapacity)
    (h : Fits (receiveCapacity - receive.length) results) :
    receiveLoop receive (results ++ next) = receiveLoop (receive ++ received results) next := by
  induction results generalizing receive with
  | nil => rw [List.nil_append, received, List.append_nil]
  | cons result results ih =>
    cases result with
    | data bytes =>
      obtain ⟨hne, hroom, h⟩ := h
      obtain ⟨byte, rest, rfl⟩ := List.exists_cons_of_ne_nil hne
      have hlt : receive.length < receiveCapacity := by
        rw [List.length_cons] at hroom
        omega
      rw [List.cons_append, receiveLoop, if_pos hlt, received, ← List.append_assoc]
      · refine ih (by rw [List.length_append]; omega) ?_
        rwa [List.length_append, ← Nat.sub_sub]
      · exact hne
    | interrupted =>
      obtain ⟨hroom, h⟩ := h
      rw [List.cons_append, receiveLoop, if_pos (by omega)]
      exact ih hle h
    | failed => exact h.elim

theorem receiveLoop_fits {receive : List UInt8} {results : List RecvResult}
    (hle : receive.length ≤ receiveCapacity)
    (h : Fits (receiveCapacity - receive.length) results) :
    receiveLoop receive results = (.keep, receive ++ received results) := by
  have happend := receiveLoop_append [] hle h
  rw [List.append_nil] at happend
  exact happend

/-! ## One call -/

theorem frames_decode {p rest : List UInt8} {as : List Request} {bad : Bool}
    (h : Frames requestOutcome p as bad rest) : ∃ pieces, p = List.flatten pieces ++ rest ∧
      List.Forall₂ (fun piece request =>
        Protocol.decodeRequest piece = .ok ⟨.ok, piece.length, request⟩) pieces as ∧
      ∃ r, Protocol.decodeRequest rest = .ok r ∧ r.status ≠ .ok ∧
        (bad = true ↔ r.status ≠ .needMoreData) := by
  obtain ⟨pieces, heq, hall⟩ := h.pieces requestOutcome_stable
  refine ⟨pieces, heq, hall.imp fun piece request hpiece => ?_, ?_⟩
  · obtain ⟨⟨status, n, request'⟩, hr, -⟩ := Protocol.decodeRequest_spec piece
    rw [Protocol.requestOutcome_eq hr, Protocol.outcome_eq_frame] at hpiece
    obtain ⟨hok, hreq, hn⟩ := hpiece
    dsimp only at hok hreq hn
    rw [hr, hok, hreq, hn]
  · obtain ⟨r, hr, -⟩ := Protocol.decodeRequest_spec rest
    have hrest := h.rest_eq
    rw [Protocol.requestOutcome_eq hr] at hrest
    refine ⟨r, hr, ?_⟩
    cases bad with
    | true =>
      obtain ⟨hok, hmore⟩ := Protocol.outcome_eq_bad.mp hrest
      exact ⟨hok, by simp [hmore]⟩
    | false =>
      have hmore := Protocol.outcome_eq_more.mp hrest
      simp [hmore]

theorem length_of_more {l : List UInt8} (h : requestOutcome l = .more) : l.length < 80 := by
  obtain ⟨r, hr, hmore, -⟩ := Protocol.decodeRequest_spec l
  rw [Protocol.requestOutcome_eq hr] at h
  exact hmore (Protocol.outcome_eq_more.mp h)

/-- **What one call does** with the buffer and with what has come. -/
theorem readRequests_handled {results : List RecvResult} {turns : List ℕ} {verdict : ReadVerdict}
    {x : Reading} (hle : c.receive.length ≤ receiveCapacity)
    (hfits : Fits (receiveCapacity - c.receive.length) results)
    (h : g.readRequests c results turns = .ok (verdict, x)) : ∃ fates rest left,
      Decoded requestOutcome (c.receive ++ received results) (fates.map Prod.fst) rest ∧
      Reading.Stop rest x.gateway x.connection verdict left ∧
      Handled (g.reading c results) x fates left ∧
      (verdict = .keep → x.connection.receive = rest) := by
  have hrecv := receiveLoop_fits hle hfits
  rcases readRequests_cases h with ⟨hne, -⟩ | ⟨-, v, y, hloop, h⟩
  · exact absurd (by rw [hrecv]) hne
  have hstart : (g.reading c results).rest = c.receive ++ received results := by
    simp [reading, Reading.rest, hrecv]
  obtain ⟨fates, left, hdecoded, hstop, hhandled⟩ := Reading.decodeLoop_handled hloop
  rw [hstart] at hdecoded
  rcases h with ⟨hne, rfl, rfl⟩ | ⟨rfl, rfl, rfl⟩
  · exact ⟨fates, _, left, hdecoded, hstop, hhandled, fun hkeep => absurd hkeep hne⟩
  · cases hstop with
    | more hmore =>
      -- less than a frame is left, and so the buffer is not full
      have hlen : y.compact.connection.receive.length < 80 := length_of_more hmore
      have hcap : (80 : ℕ) < receiveCapacity := by decide
      rw [if_neg (by omega)]
      exact ⟨fates, _, [], hdecoded, .more hmore,
        ⟨hhandled.handed, hhandled.sent, hhandled.transmit⟩, fun _ => rfl⟩

theorem readRequests_frames {results : List RecvResult} {turns : List ℕ} {verdict : ReadVerdict}
    {x : Reading} (hle : c.receive.length ≤ receiveCapacity)
    (hfits : Fits (receiveCapacity - c.receive.length) results)
    (h : g.readRequests c results turns = .ok (verdict, x)) :
    (verdict = .keep ∧
        Frames requestOutcome (c.receive ++ received results) x.handed false x.connection.receive) ∨
      (verdict = .malformed ∧
        ∃ rest, Frames requestOutcome (c.receive ++ received results) x.handed true rest) ∨
      verdict = .sessionInUse ∨ verdict = .rejectionNotQueued := by
  obtain ⟨fates, rest, left, hdecoded, hstop, hhandled, hrest⟩ := readRequests_handled hle hfits h
  have hhanded : x.handed = fates.map Prod.fst ++ left := hhandled.handed
  cases hstop with
  | more hmore =>
    rw [List.append_nil] at hhanded
    rw [hhanded, hrest rfl]
    exact Or.inl ⟨rfl, Framing.frames_iff.mpr ⟨hdecoded, hmore⟩⟩
  | malformed hbad =>
    rw [List.append_nil] at hhanded
    rw [hhanded]
    exact Or.inr (Or.inl ⟨rfl, rest, Framing.frames_iff.mpr ⟨hdecoded, hbad⟩⟩)
  | sessionInUse => exact Or.inr (Or.inr (Or.inl rfl))
  | notQueued => exact Or.inr (Or.inr (Or.inr rfl))

/-! ## A connection over time -/

/-- **The life of a connection so far.** Between two calls anything may happen to it and to the gateway,
but the receive buffer stays as it was left. -/
inductive Fed : List UInt8 → List Request → List UInt8 → Prop
  | start : Fed [] [] []
  | call {p buffered : List UInt8} {handed : List Request} {g : TcpGateway} {c : Connection}
    {results : List RecvResult} {turns : List ℕ} {x : Reading} (h : Fed p handed buffered)
    (hc : c.receive = buffered) (hfits : Fits (receiveCapacity - buffered.length) results)
    (hread : g.readRequests c results turns = .ok (.keep, x)) :
    Fed (p ++ received results) (handed ++ x.handed) x.connection.receive

theorem Fed.frames {p buffered : List UInt8} {handed : List Request} (h : Fed p handed buffered) :
    Frames requestOutcome p handed false buffered := by
  induction h with
  | start => exact .more rfl
  | @call p buffered handed g c results turns x _ hc hfits hread ih =>
    subst hc
    have hlen := length_of_more ih.rest_eq
    have hcap : (80 : ℕ) < receiveCapacity := by decide
    rcases readRequests_frames (by omega) hfits hread with ⟨-, hframes⟩ | ⟨hv, -⟩ | hv | hv
    · exact ih.append requestOutcome_stable hframes
    · cases hv
    · cases hv
    · cases hv

/-- **Fragmentation does not matter.** What has been handed to the validator, and whether the connection
is closed for a malformed frame, is a function `parse` of the bytes that `recv` has returned: the frames
at their front, each once and in order, up to a malformed or an incomplete one. A connection that is
kept has less than 80 bytes in its buffer, and the buffer is never full. -/
theorem receive_fragmentation_invariant : ∃ parse : List UInt8 → List Request × Bool,
    (∀ p, ∃ pieces rest, p = List.flatten pieces ++ rest ∧
      List.Forall₂ (fun piece request =>
        Protocol.decodeRequest piece = .ok ⟨.ok, piece.length, request⟩) pieces (parse p).1 ∧
      ∃ r, Protocol.decodeRequest rest = .ok r ∧ r.status ≠ .ok ∧
        ((parse p).2 = true ↔ r.status ≠ .needMoreData)) ∧
    ∀ p handed buffered, Fed p handed buffered →
      parse p = (handed, false) ∧ buffered.length < 80 ∧
      (∀ g c results turns verdict x, c.receive = buffered →
        Fits (receiveCapacity - buffered.length) results →
        readRequests g c results turns = .ok (verdict, x) →
        (verdict = .keep ∧ parse (p ++ received results) = (handed ++ x.handed, false) ∧
            x.connection.receive.length < 80) ∨
          (verdict = .malformed ∧ parse (p ++ received results) = (handed ++ x.handed, true)) ∨
          verdict = .sessionInUse ∨ verdict = .rejectionNotQueued) ∧
      ∀ g c results turns, Reaches (fun _ _ => True) g →
        ∃ verdict x, readRequests g c results turns = .ok (verdict, x) := by
  choose as bad rest hparse using fun p => Framing.exists_frames requestOutcome_stable p
  have hunique : ∀ {p as' bad' rest'}, Frames requestOutcome p as' bad' rest' →
      (as p, bad p) = (as', bad') := by
    intro p as' bad' rest' h
    obtain ⟨h₁, h₂, -⟩ := h.unique (hparse p)
    rw [h₁, h₂]
  refine ⟨fun p => (as p, bad p), fun p => ?_, fun p handed buffered h =>
    ⟨hunique h.frames, length_of_more h.frames.rest_eq, ?_, ?_⟩⟩
  · obtain ⟨pieces, hpieces⟩ := frames_decode (hparse p)
    exact ⟨pieces, rest p, hpieces⟩
  · intro g c results turns verdict x hc hfits hread
    subst hc
    have hlen := length_of_more h.frames.rest_eq
    have hcap : (80 : ℕ) < receiveCapacity := by decide
    rcases readRequests_frames (by omega) hfits hread with ⟨hv, hframes⟩ | ⟨hv, rest', hframes⟩ | hv
    · exact Or.inl ⟨hv, hunique (h.frames.append requestOutcome_stable hframes),
        length_of_more hframes.rest_eq⟩
    · exact Or.inr (Or.inl ⟨hv, hunique (h.frames.append requestOutcome_stable hframes)⟩)
    · exact Or.inr (Or.inr hv)
  · intro g c results turns hg
    obtain ⟨-, b₀, hexact⟩ := hg.sound
    exact readRequests_isOk hexact c results turns

/-- A request that arrives in two pieces. -/
theorem receive_fragmentation_invariant_two_pieces : ∃ g x₁ x₂,
    readRequests g { fd := 5, serial := 0 } [.data ((cancelFrame 1 1 7).take 10)] [] =
      .ok (.keep, x₁) ∧
    readRequests g x₁.connection [.interrupted, .data ((cancelFrame 1 1 7).drop 10)] [] =
      .ok (.keep, x₂) ∧
    x₁.handed = [] ∧ x₂.handed = [⟨1, 1, { type := .cancel, orderId := 7 }⟩] ∧
    Fed (cancelFrame 1 1 7) x₂.handed [] ∧
    ∃ pieces rest, cancelFrame 1 1 7 = List.flatten pieces ++ rest ∧
      List.Forall₂ (fun piece request =>
        Protocol.decodeRequest piece = .ok ⟨.ok, piece.length, request⟩) pieces x₂.handed := by
  obtain ⟨g, book, hstart⟩ := exists_starts
  have hfirst : readRequests g { fd := 5, serial := 0 } [.data ((cancelFrame 1 1 7).take 10)] [] =
      .ok (.keep, {
        gateway := g
        connection := { fd := 5, serial := 0, receive := (cancelFrame 1 1 7).take 10 } }) := rfl
  obtain ⟨hwf, hempty, hsize⟩ := hstart.input
  have hvalid : SessionValidator.validateAndAdvance { sessionId := 1 }
      ⟨1, 1, { type := .cancel, orderId := 7 }⟩ = (.none, ⟨1, 2, {}⟩) := by decide
  obtain ⟨g', -, -, hhandle⟩ := Reading.handle_first_room
    (x := { gateway := g, connection := { fd := 5, serial := 0, receive := cancelFrame 1 1 7 } })
    rfl (by rw [hstart.sessionToFd]) hvalid hwf (by simp only [hempty, List.length_nil]; omega)
  have hreceive : receiveLoop ((cancelFrame 1 1 7).take 10)
      [.interrupted, .data ((cancelFrame 1 1 7).drop 10)] = (.keep, cancelFrame 1 1 7) := by decide
  have hsecond := (readRequests_one
    (c := { fd := 5, serial := 0, receive := (cancelFrame 1 1 7).take 10 }) hreceive
    decode_cancelFrame_seven hhandle).2 rfl rfl rfl
  have hfits₁ : Fits (receiveCapacity - 0) [.data ((cancelFrame 1 1 7).take 10)] :=
    ⟨by decide, by decide, trivial⟩
  have hfits₂ : Fits (receiveCapacity - 10) [.interrupted, .data ((cancelFrame 1 1 7).drop 10)] :=
    ⟨by decide, by decide, by decide, trivial⟩
  have hfed : Fed (cancelFrame 1 1 7) [⟨1, 1, { type := .cancel, orderId := 7 }⟩] [] :=
    (Fed.start.call rfl hfits₁ hfirst).call rfl hfits₂ hsecond
  obtain ⟨parse, hspec, hall⟩ := receive_fragmentation_invariant
  obtain ⟨pieces, rest, heq, hpieces, -⟩ := hspec (cancelFrame 1 1 7)
  rw [(hall _ _ _ hfed).1] at hpieces
  exact ⟨g, _, _, hfirst, hsecond, rfl, rfl, hfed, pieces, rest, heq, hpieces⟩

end TcpGateway

end Dme
