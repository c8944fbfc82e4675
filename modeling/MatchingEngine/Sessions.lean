import MatchingEngine.TcpGateway

/-!
# Sessions and risk

What one `SessionValidator` answers to the requests it is given, one after the other.

* `RiskLimits.Permits`: the limits, in unbounded integers.
* `SessionValidator.ReachesProduct`: the last line of `violates_risk` is reached;
  **`product_exact`**: the product there does not wrap.
* **`violatesRisk_iff`**, `consumes_iff`, `validateAndAdvance_cases`: one request.
* `run`, `consumed`, `admitted`: a list of requests; `run_eq`, `admitted_sorted`.
* **`session_validation_exact`**.
-/

set_option autoImplicit false

namespace Dme

open Protocol (Request)

/-- A command within the limits. -/
def RiskLimits.Permits (limits : RiskLimits) (c : Command) : Prop :=
  c.type = .cancel ∨
    (1 ≤ c.quantity.toNat ∧ c.quantity.toNat ≤ limits.maximumQuantity.toNat ∧
      ((c.type = .new ∧ c.orderType = .market) ∨
        (0 < c.price.toInt ∧ c.price.toInt ≤ limits.maximumPrice.toInt ∧
          c.price.toInt * c.quantity.toNat ≤ limits.maximumNotional.toNat)))

instance (limits : RiskLimits) (c : Command) : Decidable (limits.Permits c) := by
  unfold RiskLimits.Permits
  infer_instance

namespace SessionValidator

/-! ## One request -/

/-- The request uses up a client sequence. -/
def Consumes (v : SessionValidator) (r : Request) : Prop :=
  (v.validateAndAdvance r).2.nextSequence ≠ v.nextSequence

instance (v : SessionValidator) (r : Request) : Decidable (v.Consumes r) := by
  unfold Consumes
  infer_instance

/-- No check of `violates_risk` returns before its last line. -/
structure ReachesProduct (v : SessionValidator) (c : Command) : Prop where
  type : c.type ≠ .cancel
  quantity : ¬ (c.quantity = 0 ∨ c.quantity > v.limits.maximumQuantity)
  limited : ¬ (c.orderType = .market ∧ c.type = .new)
  price : ¬ (c.price ≤ 0 ∨ c.price > v.limits.maximumPrice)
  notional : ¬ (c.price.toUInt64 ≠ 0 ∧
    c.quantity > v.limits.maximumNotional / c.price.toUInt64)

theorem ReachesProduct.violatesRisk {v : SessionValidator} {c : Command} (h : v.ReachesProduct c) :
    v.violatesRisk c = decide (c.price.toUInt64 * c.quantity > v.limits.maximumNotional) := by
  rw [SessionValidator.violatesRisk, if_neg h.type, if_neg h.quantity, if_neg h.limited,
    if_neg h.price]
  exact if_neg h.notional

variable {v : SessionValidator} {r : Request} {c : Command}

theorem toNat_price {p : Price} (h : 0 < p) : (p.toUInt64.toNat : ℤ) = p.toInt := by
  have hpos : 0 ≤ p.toInt := (Int64.lt_iff_toInt_lt.mp h).le
  rw [Int64.toNat_toUInt64_of_le (Int64.le_of_lt h), Int64.toNatClampNeg, Int.toNat_of_nonneg hpos]

/-- The guard before the product compares it with the limit. -/
theorem guard_iff {p quantity limit : UInt64} (hp : p ≠ 0) :
    quantity > limit / p ↔ limit.toNat < p.toNat * quantity.toNat := by
  have hpos : 0 < p.toNat := Nat.pos_of_ne_zero fun h0 => hp (UInt64.toNat_inj.mp h0)
  rw [gt_iff_lt, UInt64.lt_iff_toNat_lt, UInt64.toNat_div, Nat.div_lt_iff_lt_mul hpos, Nat.mul_comm]

theorem price_ne_zero {p : Price} (h : 0 < p) : p.toUInt64 ≠ 0 := by
  intro h0
  have hsame := toNat_price h
  have hpos := Int64.lt_iff_toInt_lt.mp h
  rw [h0] at hsame
  simp at hsame hpos
  omega

/-- **The product does not wrap**, for any price, quantity and limits. -/
theorem product_exact (h : v.ReachesProduct c) :
    ((c.price.toUInt64 * c.quantity).toNat : ℤ) = c.price.toInt * c.quantity.toNat := by
  have hprice : 0 < c.price := by simpa using fun hle => h.price (Or.inl hle)
  have hp := price_ne_zero hprice
  have hle : c.price.toUInt64.toNat * c.quantity.toNat ≤ v.limits.maximumNotional.toNat := by
    by_contra hlt
    exact h.notional ⟨hp, (guard_iff hp).mpr (by omega)⟩
  have hlt := v.limits.maximumNotional.toNat_lt
  rw [UInt64.toNat_mul, Nat.mod_eq_of_lt (by omega), ← toNat_price hprice, Nat.cast_mul]

theorem quantity_refused_iff {quantity maximum : UInt64} :
    (quantity = 0 ∨ quantity > maximum) ↔
      ¬ (1 ≤ quantity.toNat ∧ quantity.toNat ≤ maximum.toNat) := by
  rw [gt_iff_lt, UInt64.lt_iff_toNat_lt, ← UInt64.toNat_inj, UInt64.toNat_zero]
  omega

theorem price_refused_iff {price maximum : Price} :
    (price ≤ 0 ∨ price > maximum) ↔ ¬ (0 < price.toInt ∧ price.toInt ≤ maximum.toInt) := by
  rw [gt_iff_lt, Int64.lt_iff_toInt_lt, Int64.le_iff_toInt_le, Int64.toInt_zero]
  omega

theorem notional_refused_iff (htype : c.type ≠ .cancel)
    (hquantity : ¬ (c.quantity = 0 ∨ c.quantity > v.limits.maximumQuantity))
    (hmarket : ¬ (c.orderType = .market ∧ c.type = .new))
    (hprice : ¬ (c.price ≤ 0 ∨ c.price > v.limits.maximumPrice)) :
    (if c.price.toUInt64 ≠ 0 ∧ c.quantity > v.limits.maximumNotional / c.price.toUInt64 then true
      else decide (c.price.toUInt64 * c.quantity > v.limits.maximumNotional)) = true ↔
      ¬ c.price.toInt * c.quantity.toNat ≤ v.limits.maximumNotional.toNat := by
  have hlow : 0 < c.price := by simpa using fun hle => hprice (Or.inl hle)
  have hsame := toNat_price hlow
  by_cases hguard : c.price.toUInt64 ≠ 0 ∧ c.quantity > v.limits.maximumNotional / c.price.toUInt64
  · have hgt := (guard_iff hguard.1).mp hguard.2
    rw [if_pos hguard, ← hsame]
    exact iff_of_true rfl (by exact_mod_cast Nat.not_le.mpr hgt)
  · have hproduct := product_exact (v := v) ⟨htype, hquantity, hmarket, hprice, hguard⟩
    rw [if_neg hguard, decide_eq_true_eq, gt_iff_lt, UInt64.lt_iff_toNat_lt, ← hproduct, Nat.cast_le,
      Nat.not_le]

/-- **What violates the limits**, in unbounded integers. -/
theorem violatesRisk_iff (v : SessionValidator) (c : Command) :
    v.violatesRisk c = true ↔ ¬ v.limits.Permits c := by
  rw [RiskLimits.Permits]
  by_cases htype : c.type = .cancel
  · simp [SessionValidator.violatesRisk, htype]
  rw [SessionValidator.violatesRisk, if_neg htype]
  by_cases hquantity : c.quantity = 0 ∨ c.quantity > v.limits.maximumQuantity
  · rw [if_pos hquantity]
    have hrange := quantity_refused_iff.mp hquantity
    exact iff_of_true rfl fun h => hrange ((h.resolve_left htype).imp_right And.left)
  obtain ⟨hpos, hle⟩ := not_not.mp (mt quantity_refused_iff.mpr hquantity)
  rw [if_neg hquantity]
  by_cases hmarket : c.orderType = .market ∧ c.type = .new
  · rw [if_pos hmarket]
    simp [hpos, hle, hmarket]
  rw [if_neg hmarket]
  have hmarket' : ¬ (c.type = .new ∧ c.orderType = .market) := fun h => hmarket h.symm
  simp only [htype, hpos, hle, hmarket', true_and, false_or]
  by_cases hprice : c.price ≤ 0 ∨ c.price > v.limits.maximumPrice
  · rw [if_pos hprice]
    have hrange := price_refused_iff.mp hprice
    exact iff_of_true rfl fun h => hrange ⟨h.1, h.2.1⟩
  obtain ⟨hlow, hhigh⟩ := not_not.mp (mt price_refused_iff.mpr hprice)
  rw [if_neg hprice, notional_refused_iff htype hquantity hmarket hprice]
  simp only [hlow, hhigh, true_and]

theorem succ_ne (n : UInt64) : n + 1 ≠ n := by
  intro h
  have := congrArg UInt64.toNat h
  have hlt := n.toNat_lt
  rw [UInt64.toNat_add, UInt64.toNat_one] at this
  omega

/-- **One request**: it is refused and nothing changes, or its sequence is used up and the limits
decide. -/
theorem validateAndAdvance_cases (v : SessionValidator) (r : Request) :
    (¬ (r.sessionId = v.sessionId ∧ r.clientSequence = v.nextSequence) ∧
      v.validateAndAdvance r = (.invalidSessionSequence, v)) ∨
    (r.sessionId = v.sessionId ∧ r.clientSequence = v.nextSequence) ∧
      v.validateAndAdvance r = (if v.limits.Permits r.command then .none else .riskLimit,
        { v with nextSequence := v.nextSequence + 1 }) := by
  rw [SessionValidator.validateAndAdvance]
  by_cases hbad : r.sessionId ≠ v.sessionId ∨ r.clientSequence ≠ v.nextSequence
  · rw [if_pos hbad]
    refine Or.inl ⟨?_, rfl⟩
    rintro ⟨hs, hn⟩
    exact hbad.elim (fun h => h hs) fun h => h hn
  · rw [if_neg hbad]
    have hrisk := violatesRisk_iff { v with nextSequence := v.nextSequence + 1 } r.command
    refine Or.inr ⟨by simpa [not_or] using hbad, ?_⟩
    dsimp only
    rw [Prod.mk.injEq]
    refine ⟨?_, rfl⟩
    by_cases hp : v.limits.Permits r.command
    · rw [if_pos hp, if_neg fun h => hrisk.mp h hp]
    · rw [if_neg hp, if_pos (hrisk.mpr hp)]

theorem consumes_iff (v : SessionValidator) (r : Request) :
    v.Consumes r ↔ r.sessionId = v.sessionId ∧ r.clientSequence = v.nextSequence := by
  rw [Consumes]
  rcases v.validateAndAdvance_cases r with ⟨hno, heq⟩ | ⟨hyes, heq⟩
  · rw [heq]
    exact iff_of_false (not_not.mpr rfl) hno
  · rw [heq]
    exact iff_of_true (succ_ne _) hyes

/-! ## Lists of requests -/

/-- The answers to a list of requests, and the validator after it. -/
def run (v : SessionValidator) : List Request → List RejectReason × SessionValidator
  | [] => ([], v)
  | r :: rs =>
    let (reason, v') := v.validateAndAdvance r
    let (reasons, v'') := run v' rs
    (reason :: reasons, v'')

/-- How many requests of a list use up a client sequence. -/
def consumed (v : SessionValidator) : List Request → ℕ
  | [] => 0
  | r :: rs => (if v.Consumes r then 1 else 0) + consumed (v.validateAndAdvance r).2 rs

/-- The requests of a list that are admitted to the engine. -/
def admitted (v : SessionValidator) : List Request → List Request
  | [] => []
  | r :: rs =>
    if (v.validateAndAdvance r).1 = .none then r :: admitted (v.validateAndAdvance r).2 rs
    else admitted (v.validateAndAdvance r).2 rs

theorem consumed_le (v : SessionValidator) (rs : List Request) : v.consumed rs ≤ rs.length := by
  induction rs generalizing v with
  | nil => exact Nat.le_refl 0
  | cons r rs ih =>
    have := ih (v.validateAndAdvance r).2
    rw [consumed, List.length_cons]
    split_ifs <;> omega

/-- **A run counts what it consumes.** -/
theorem run_eq (v : SessionValidator) (rs : List Request) :
    (v.run rs).2 = { v with nextSequence := v.nextSequence + UInt64.ofNat (v.consumed rs) } := by
  induction rs generalizing v with
  | nil => simp [run, consumed]
  | cons r rs ih =>
    change ((v.validateAndAdvance r).2.run rs).2 = _
    rw [ih, consumed]
    have hiff := v.consumes_iff r
    rcases v.validateAndAdvance_cases r with ⟨hno, heq⟩ | ⟨hyes, heq⟩
    · rw [if_neg (mt hiff.mp hno), heq, Nat.zero_add]
    · rw [if_pos (hiff.mpr hyes), heq, UInt64.ofNat_add, ← UInt64.add_assoc]
      rfl

theorem admitted_sorted (v : SessionValidator) (rs : List Request)
    (h : v.nextSequence.toNat + rs.length ≤ 2 ^ 64) :
    (∀ r ∈ v.admitted rs, v.nextSequence ≤ r.clientSequence) ∧
      (v.admitted rs).Pairwise fun r r' => r.clientSequence < r'.clientSequence := by
  induction rs generalizing v with
  | nil => exact ⟨by simp [admitted], List.Pairwise.nil⟩
  | cons r rs ih =>
    rw [List.length_cons] at h
    rw [admitted]
    rcases v.validateAndAdvance_cases r with ⟨-, heq⟩ | ⟨⟨-, hseq⟩, heq⟩
    · rw [heq, if_neg (by simp)]
      exact ih v (by omega)
    · cases rs with
      | nil =>
        by_cases hp : v.limits.Permits r.command
        · simp [heq, hp, admitted, hseq]
        · simp [heq, hp, admitted]
      | cons r' rs =>
        rw [List.length_cons] at h
        have hnext : (v.nextSequence + 1).toNat = v.nextSequence.toNat + 1 := by
          rw [UInt64.toNat_add, UInt64.toNat_one, Nat.mod_eq_of_lt (by omega)]
        obtain ⟨hfirst, hrest⟩ := ih { v with nextSequence := v.nextSequence + 1 }
          (by rw [List.length_cons]; dsimp only; omega)
        have hlater : ∀ x ∈ admitted { v with nextSequence := v.nextSequence + 1 } (r' :: rs),
            v.nextSequence < x.clientSequence := by
          intro x hx
          have hle := UInt64.le_iff_toNat_le.mp (hfirst x hx)
          rw [UInt64.lt_iff_toNat_lt]
          dsimp only at hle
          omega
        rw [heq]
        dsimp only
        by_cases hp : v.limits.Permits r.command
        · rw [if_pos hp, if_pos rfl]
          refine ⟨fun x hx => ?_, List.pairwise_cons.mpr ⟨fun x hx => ?_, hrest⟩⟩
          · rcases List.mem_cons.mp hx with rfl | hx
            · exact UInt64.le_of_eq hseq.symm
            · exact UInt64.le_of_lt (hlater x hx)
          · rw [hseq]
            exact hlater x hx
        · rw [if_neg hp, if_neg (by decide)]
          exact ⟨fun x hx => UInt64.le_of_lt (hlater x hx), hrest⟩

end SessionValidator

open SessionValidator

/-- **Session validation is exact.** Among fewer than `2 ^ 64` requests given to a new validator, one
uses up a client sequence just when it has the validator's session and the sequence one above the
number of those used up before; otherwise the answer is `InvalidSessionSequence` and nothing changes.
A request that uses one up is answered `None` if the limits permit its command, and `RiskLimit`
otherwise. The client sequences admitted to the engine increase strictly, and the product of a price and
a quantity is computed only where it does not wrap. -/
theorem session_validation_exact (session : UInt32) (limits : RiskLimits) (rs : List Request)
    (hlen : rs.length < 2 ^ 64) :
    (∀ before r after, rs = before ++ r :: after →
      let start : SessionValidator := { sessionId := session, limits }
      let v := (start.run before).2
      (v.Consumes r ↔
        r.sessionId = session ∧ r.clientSequence.toNat = 1 + start.consumed before) ∧
      (¬ v.Consumes r → v.validateAndAdvance r = (.invalidSessionSequence, v)) ∧
      (v.Consumes r → ((v.validateAndAdvance r).1 = .none ↔ limits.Permits r.command) ∧
        (¬ limits.Permits r.command → (v.validateAndAdvance r).1 = .riskLimit))) ∧
    (admitted { sessionId := session, limits } rs).Pairwise
      (fun r r' => r.clientSequence < r'.clientSequence) ∧
    ∀ (v : SessionValidator) (c : Command), v.ReachesProduct c →
      ((c.price.toUInt64 * c.quantity).toNat : ℤ) = c.price.toInt * c.quantity.toNat := by
  refine ⟨fun before r after heq => ?_, ?_, fun v c => product_exact⟩
  · intro start v
    have hv : v = { start with nextSequence := 1 + UInt64.ofNat (start.consumed before) } :=
      start.run_eq before
    have hle := start.consumed_le before
    have hshort : before.length + 1 ≤ rs.length := by
      rw [heq, List.length_append, List.length_cons]
      omega
    have hlt : start.consumed before < 2 ^ 64 := by omega
    have hnext : v.nextSequence.toNat = 1 + start.consumed before := by
      rw [hv]
      dsimp only
      rw [UInt64.toNat_add, UInt64.toNat_one, UInt64.toNat_ofNat_of_lt' hlt,
        Nat.mod_eq_of_lt (by omega)]
    have hsession : v.sessionId = session := by rw [hv]
    have hlimits : v.limits = limits := by rw [hv]
    have hiff := v.consumes_iff r
    rw [hsession] at hiff
    refine ⟨hiff.trans (and_congr_right fun _ => ?_), fun hno => ?_, fun hyes => ?_⟩
    · rw [← UInt64.toNat_inj, hnext]
    · rcases v.validateAndAdvance_cases r with ⟨-, hans⟩ | ⟨hyes, -⟩
      · exact hans
      · exact absurd ((v.consumes_iff r).mpr hyes) hno
    · rcases v.validateAndAdvance_cases r with ⟨hno, -⟩ | ⟨-, hans⟩
      · exact absurd ((v.consumes_iff r).mp hyes) hno
      · rw [hans, hlimits]
        by_cases hp : limits.Permits r.command
        · simp [hp]
        · simp [hp]
  · refine (admitted_sorted { sessionId := session, limits } rs ?_).2
    change (1 : UInt64).toNat + rs.length ≤ 2 ^ 64
    rw [UInt64.toNat_one]
    omega

/-- A request with a wrong sequence, and then one that is over the limit of quantity. -/
theorem session_validation_exact_two_requests :
    let start : SessionValidator := { sessionId := 7 }
    let first : Request := ⟨7, 2, { type := .cancel, orderId := 1 }⟩
    let second : Request := ⟨7, 1, { orderId := 1, price := 5, quantity := 2000000 }⟩
    start.validateAndAdvance first = (.invalidSessionSequence, start) ∧
      (start.run [first]).2.Consumes second ∧
      ((start.run [first]).2.validateAndAdvance second).1 = .riskLimit := by
  intro start first second
  obtain ⟨hall, -⟩ := session_validation_exact 7 {} [first, second] (by simp)
  obtain ⟨-, hno, -⟩ := hall [] first [second] rfl
  obtain ⟨hiff, -, hyes⟩ := hall [first] second [] rfl
  have hconsumes := hiff.mpr ⟨rfl, by decide⟩
  exact ⟨hno (by decide), hconsumes, (hyes hconsumes).2 (by decide)⟩

end Dme
