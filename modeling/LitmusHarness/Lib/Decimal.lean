import Mathlib.Algebra.Order.Field.Rat
import Mathlib.Tactic.FieldSimp
import Mathlib.Tactic.Linarith
import Mathlib.Tactic.NormNum

/-!
# Decimal numerals

`value` is the number that a list of digits is written for, and `Denotes` the rational number of digits with a point
between them: what is after the point counts by its place, so that `7.5` and `7.05` are different numbers.
-/

namespace Decimal

/-- A decimal digit. -/
def IsDigit (c : Char) : Prop := '0' ≤ c ∧ c ≤ '9'

instance (c : Char) : Decidable (IsDigit c) := inferInstanceAs (Decidable (_ ∧ _))

/-- The number of a digit. -/
def digit (c : Char) : Nat := c.toNat - '0'.toNat

/-- The digit of a number below 10. -/
def digitChar (n : Nat) : Char := Char.ofNat (n + 48)

/-- One digit more. -/
def step (x : Nat) (c : Char) : Nat := x * 10 + digit c

/-- The number that digits are written for, the highest digit first. -/
def value (s : List Char) : Nat := s.foldl step 0

/-- Digits with a point between them, and the number that they are written for. -/
def Denotes (s : List Char) (q : ℚ) : Prop :=
  ∃ a b, s = a ++ '.' :: b ∧ (a ≠ [] ∧ ∀ c ∈ a, IsDigit c) ∧ (b ≠ [] ∧ ∀ c ∈ b, IsDigit c) ∧
    q = value a + value b / 10 ^ b.length

variable {s a b : List Char} {c : Char} {q : ℚ}

theorem isDigit_digitChar {n : Nat} (h : n < 10) : IsDigit (digitChar n) ∧ digit (digitChar n) = n := by
  have hall : ∀ n < 10, IsDigit (digitChar n) ∧ digit (digitChar n) = n := by decide
  exact hall n h

theorem not_isDigit_point : ¬IsDigit '.' := by decide

@[simp] theorem value_nil : value [] = 0 := rfl

/-- The last digit counts once, what is before it ten times. -/
@[simp] theorem value_concat (s : List Char) (c : Char) : value (s ++ [c]) = value s * 10 + digit c := by
  rw [value, List.foldl_append]
  rfl

/-- Splitting at the point is unique. -/
theorem point_unique {a' b' : List Char} (ha : ∀ c ∈ a, IsDigit c) (hdigits : ∀ c ∈ a', IsDigit c)
    (h : a ++ '.' :: b = a' ++ '.' :: b') : a = a' ∧ b = b' := by
  induction a generalizing a' with
  | nil =>
    cases a' with
    | nil => exact ⟨rfl, (List.cons.inj h).2⟩
    | cons c a' =>
      obtain rfl : '.' = c := (List.cons.inj h).1
      exact absurd (hdigits '.' List.mem_cons_self) not_isDigit_point
  | cons c a ih =>
    cases a' with
    | nil =>
      obtain rfl : c = '.' := (List.cons.inj h).1
      exact absurd (ha '.' List.mem_cons_self) not_isDigit_point
    | cons c' a' =>
      obtain ⟨rfl, htail⟩ := List.cons.inj h
      obtain ⟨rfl, rfl⟩ := ih (fun d hd => ha d (List.mem_cons_of_mem c hd))
        (fun d hd => hdigits d (List.mem_cons_of_mem c hd)) htail
      exact ⟨rfl, rfl⟩

/-- **What digits with a point denote.** -/
theorem denotes_iff (ha : a ≠ [] ∧ ∀ c ∈ a, IsDigit c) (hb : b ≠ [] ∧ ∀ c ∈ b, IsDigit c) :
    Denotes (a ++ '.' :: b) q ↔ q = value a + value b / 10 ^ b.length := by
  constructor
  · rintro ⟨a', b', heq, hdigits, -, hq⟩
    obtain ⟨rfl, rfl⟩ := point_unique ha.2 hdigits.2 heq
    exact hq
  · exact fun hq => ⟨a, b, rfl, ha, hb, hq⟩

/-- With up to three digits after the point, in thousandths. -/
theorem denotes_thousandths_iff (ha : a ≠ [] ∧ ∀ c ∈ a, IsDigit c) (hb : b ≠ [] ∧ ∀ c ∈ b, IsDigit c)
    (hlen : b.length ≤ 3) {t : Nat} :
    Denotes (a ++ '.' :: b) (t / 1000) ↔ t = value a * 1000 + value b * 10 ^ (3 - b.length) := by
  have hpow : (10 : ℚ) ^ (3 - b.length) * 10 ^ b.length = 1000 := by
    rw [← pow_add, Nat.sub_add_cancel hlen]
    norm_num
  have hsplit : (value b / 10 ^ b.length : ℚ) = value b * 10 ^ (3 - b.length) / 1000 := by
    rw [← hpow]
    field_simp
  rw [denotes_iff ha hb, hsplit, ← @Nat.cast_inj ℚ]
  push_cast
  constructor
  · intro h
    field_simp at h
    linarith
  · intro h
    rw [h]
    field_simp

end Decimal
