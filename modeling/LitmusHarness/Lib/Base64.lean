import Mathlib.Algebra.Group.Nat.Defs
import Mathlib.Data.List.Basic

/-!
# Base 64

The padded encoding of RFC 4648: three bytes are a number of 24 bits, which is written as four digits to the base 64.
The last group may have one or two bytes only; the missing ones count as 0, and their digits are `=`.
-/

namespace Base64

/-- The digits. -/
def alphabet : List Char := "ABCDEFGHIJKLMNOPQRSTUVWXYZabcdefghijklmnopqrstuvwxyz0123456789+/".toList

/-- The digit for a number below 64. -/
def char (v : Nat) : Char := alphabet.getD v '='

/-- The number of a group of three bytes. -/
def group (a b c : BitVec 8) : Nat := a.toNat * 65536 + b.toNat * 256 + c.toNat

/-- The digit of a group at a place, the highest first. -/
def sextet (v i : Nat) : Nat := v / 64 ^ (3 - i) % 64

/-- The encoding of a byte string, with its padding. -/
def encode : List (BitVec 8) → List Char
  | [] => []
  | [a] => [char (sextet (group a 0 0) 0), char (sextet (group a 0 0) 1), '=', '=']
  | [a, b] =>
    [char (sextet (group a b 0) 0), char (sextet (group a b 0) 1), char (sextet (group a b 0) 2), '=']
  | a :: b :: c :: s =>
    char (sextet (group a b c) 0) :: char (sextet (group a b c) 1) :: char (sextet (group a b c) 2) ::
      char (sextet (group a b c) 3) :: encode s

variable {a b c : BitVec 8}

theorem sextet_lt (v i : Nat) : sextet v i < 64 := Nat.mod_lt _ (by decide)

theorem char_ne_pad {v : Nat} (h : v < 64) : char v ≠ '=' := by
  have hall : ∀ v < 64, char v ≠ '=' := by decide +kernel
  exact hall v h

theorem length_encode (s : List (BitVec 8)) : (encode s).length = 4 * ((s.length + 2) / 3) := by
  induction s using encode.induct with
  | case1 => rfl
  | case2 a => simp [encode]
  | case3 a b => simp [encode]
  | case4 a b c s ih =>
    rw [encode]
    simp only [List.length_cons, ih]
    omega

/-- The digits of a group, from its bytes. -/
theorem sextet_group (a b c : BitVec 8) : sextet (group a b c) 0 = a.toNat / 4 ∧
    sextet (group a b c) 1 = a.toNat % 4 * 16 + b.toNat / 16 ∧
    sextet (group a b c) 2 = b.toNat % 16 * 4 + c.toNat / 64 ∧ sextet (group a b c) 3 = c.toNat % 64 := by
  have ha := a.isLt
  have hb := b.isLt
  have hc := c.isLt
  unfold sextet group
  refine ⟨?_, ?_, ?_, ?_⟩
  · rw [show 64 ^ (3 - 0) = 262144 from rfl]
    omega
  · rw [show 64 ^ (3 - 1) = 4096 from rfl]
    omega
  · rw [show 64 ^ (3 - 2) = 64 from rfl]
    omega
  · rw [show 64 ^ (3 - 3) = 1 from rfl]
    omega

end Base64
