import Mathlib

/-!
# Ledgers

Balances of accounts and the entries that change them; a debit that is not covered fails.

* `Entry`, `post`, `postAll`; `post_debit`.
* `credited`, `debited`; **`postAll_balance`**: what came in has gone out or is there.
-/

set_option autoImplicit false

namespace Ledger

/-- An entry of a ledger. -/
inductive Entry (A : Type)
  | credit (account : A) (amount : ℕ)
  | debit (account : A) (amount : ℕ)
  | close (account : A)
deriving DecidableEq, Repr

variable {A : Type} [DecidableEq A] {balance balance' : A → ℕ} {a : A} {n : ℕ}

/-- One entry; a debit has to be covered. -/
def post (balance : A → ℕ) : Entry A → Option (A → ℕ)
  | .credit a n => some (balance + Pi.single a n)
  | .debit a n => if n ≤ balance a then some (Function.update balance a (balance a - n)) else none
  | .close a => some (Function.update balance a 0)

/-- The entries of a list, one after another. -/
def postAll (balance : A → ℕ) (entries : List (Entry A)) : Option (A → ℕ) :=
  entries.foldlM post balance

@[simp] theorem postAll_nil (balance : A → ℕ) : postAll balance [] = some balance := rfl

@[simp] theorem postAll_cons (balance : A → ℕ) (e : Entry A) (entries : List (Entry A)) :
    postAll balance (e :: entries) = (post balance e).bind fun balance' => postAll balance' entries :=
  rfl

theorem postAll_append (balance : A → ℕ) (entries entries' : List (Entry A)) :
    postAll balance (entries ++ entries') =
      (postAll balance entries).bind fun balance' => postAll balance' entries' := List.foldlM_append

theorem post_debit (balance : A → ℕ) (a : A) (n : ℕ) :
    post (balance + Pi.single a n) (.debit a n) = some balance := by
  rw [post, if_pos (by simp)]
  congr 1
  funext b
  by_cases hb : b = a
  · subst hb
    simp
  · simp [Function.update_of_ne hb, Pi.single_eq_of_ne hb]

/-! ## What an account has received and spent -/

/-- What an entry brings an account. -/
def Entry.credited (a : A) : Entry A → ℕ
  | .credit b n => if b = a then n else 0
  | _ => 0

/-- What an entry takes from an account. -/
def Entry.debited (a : A) : Entry A → ℕ
  | .debit b n => if b = a then n else 0
  | _ => 0

/-- What entries bring an account. -/
def credited (a : A) (entries : List (Entry A)) : ℕ := (entries.map (Entry.credited a)).sum

/-- What entries take from an account. -/
def debited (a : A) (entries : List (Entry A)) : ℕ := (entries.map (Entry.debited a)).sum

theorem post_balance {e : Entry A} (h : post balance e = some balance') (hclose : e ≠ .close a) :
    balance a + e.credited a = e.debited a + balance' a := by
  cases e with
  | credit b n =>
    cases h
    by_cases hb : b = a
    · subst hb
      simp [Entry.credited, Entry.debited]
    · simp [Entry.credited, Entry.debited, hb]
  | debit b n =>
    rw [post] at h
    split_ifs at h with hle
    cases h
    by_cases hb : b = a
    · subst hb
      simp only [Entry.credited, Entry.debited, if_true, Function.update_self]
      omega
    · simp [Entry.credited, Entry.debited, hb, Function.update_of_ne (Ne.symm hb)]
  | close b =>
    cases h
    have hb : b ≠ a := fun hb => hclose (by rw [hb])
    simp [Entry.credited, Entry.debited, Function.update_of_ne hb.symm]

/-- **What an account has received was spent or is there**, if the account was not closed. -/
theorem postAll_balance {entries : List (Entry A)} (h : postAll balance entries = some balance')
    (hclose : .close a ∉ entries) :
    balance a + credited a entries = debited a entries + balance' a := by
  induction entries generalizing balance with
  | nil =>
    cases h
    simp [credited, debited]
  | cons e entries ih =>
    rw [postAll_cons, Option.bind_eq_some_iff] at h
    obtain ⟨balance₁, hpost, h⟩ := h
    have hone := post_balance hpost fun he => hclose (he ▸ List.mem_cons_self)
    have hrest := ih h fun hmem => hclose (List.mem_cons_of_mem _ hmem)
    simp only [credited, debited, List.map_cons, List.sum_cons] at hrest ⊢
    omega

end Ledger
