import Mathlib.Data.Nat.Bitwise
import Mathlib.Algebra.Order.Ring.Nat
import Mathlib.Tactic.Ring

/-!
# Strings of bits and bytes

A string of bits is read with the most significant bit first, and a string of bytes is the string of their bits
(`ofBytes`). `ofNat w n` is the number `n` in `w` bits, and `toNat` takes it back (`toNat_ofNat`). The bytes of a word
in big-endian order are `beBytes`; they are the word as a string of bits (`ofBytes_beBytes`).
-/

namespace BitString

/-- The low `w` bits of a number. -/
def ofNat : Nat → Nat → List Bool
  | 0, _ => []
  | w + 1, n => n.testBit w :: ofNat w n

/-- The number that a string of bits stands for. -/
def toNat (l : List Bool) : Nat := l.foldl (fun n b => 2 * n + b.toNat) 0

/-! ## Numbers -/

@[simp] theorem length_ofNat (n : Nat) : ∀ w, (ofNat w n).length = w
  | 0 => rfl
  | w + 1 => congrArg (· + 1) (length_ofNat n w)

theorem ofNat_congr {n m : Nat} {w : Nat} (h : ∀ i < w, n.testBit i = m.testBit i) : ofNat w n = ofNat w m := by
  induction w with
  | zero => rfl
  | succ w ih => rw [ofNat, ofNat, h w w.lt_succ_self, ih fun i hi => h i (by omega)]

/-- The higher and the lower bits of a number. -/
theorem ofNat_add (n b a : Nat) : ofNat (a + b) n = ofNat a (n / 2 ^ b) ++ ofNat b n := by
  induction a with
  | zero => simp [ofNat]
  | succ a ih =>
    rw [show a + 1 + b = a + b + 1 by omega, ofNat, ofNat, ih, Nat.testBit_div_two_pow, List.cons_append]

theorem ofNat_mod (w n : Nat) : ofNat w (n % 2 ^ w) = ofNat w n :=
  ofNat_congr fun i hi => by simp [Nat.testBit_mod_two_pow, hi]

theorem foldl_eq (l : List Bool) : ∀ n, l.foldl (fun n b => 2 * n + b.toNat) n = n * 2 ^ l.length + toNat l := by
  induction l with
  | nil => simp [toNat]
  | cons b l ih =>
    intro n
    have hb : toNat (b :: l) = (2 * 0 + b.toNat) * 2 ^ l.length + toNat l := ih _
    rw [List.foldl_cons, ih, hb, List.length_cons, pow_succ]
    ring

theorem toNat_append (l l' : List Bool) : toNat (l ++ l') = toNat l * 2 ^ l'.length + toNat l' := by
  rw [toNat, List.foldl_append, foldl_eq]
  rfl

theorem toNat_ofNat (n w : Nat) : toNat (ofNat w n) = n % 2 ^ w := by
  induction w with
  | zero => simp [ofNat, toNat, Nat.mod_one]
  | succ w ih =>
    have hb : toNat [n.testBit w] = n / 2 ^ w % 2 := by
      rw [← Nat.toNat_testBit]
      simp [toNat]
    rw [ofNat, ← List.singleton_append, toNat_append, ih, length_ofNat, hb, Nat.mod_pow_succ]
    ring

/-! ## Bytes -/

/-- The bits of a string of bytes. -/
def ofBytes (l : List (BitVec 8)) : List Bool := l.flatMap fun b => ofNat 8 b.toNat

@[simp] theorem ofBytes_nil : ofBytes [] = [] := rfl

@[simp] theorem ofBytes_cons (b : BitVec 8) (l : List (BitVec 8)) : ofBytes (b :: l) = ofNat 8 b.toNat ++ ofBytes l := rfl

@[simp] theorem ofBytes_append (l l' : List (BitVec 8)) : ofBytes (l ++ l') = ofBytes l ++ ofBytes l' :=
  List.flatMap_append

@[simp] theorem length_ofBytes : ∀ l : List (BitVec 8), (ofBytes l).length = 8 * l.length
  | [] => rfl
  | b :: l => by
    rw [ofBytes_cons, List.length_append, length_ofNat, length_ofBytes l, List.length_cons]
    omega

theorem ofBytes_replicate_zero (n : Nat) : ofBytes (List.replicate n 0) = List.replicate (8 * n) false := by
  induction n with
  | zero => rfl
  | succ n ih =>
    rw [List.replicate_succ, ofBytes_cons, ih, Nat.mul_succ, Nat.add_comm (8 * n),
      ← List.replicate_append_replicate]
    rfl

theorem drop_ofBytes (n : Nat) (l : List (BitVec 8)) : (ofBytes l).drop (8 * n) = ofBytes (l.drop n) := by
  induction n generalizing l with
  | zero => rfl
  | succ n ih =>
    cases l with
    | nil => simp
    | cons b l =>
      rw [Nat.mul_succ, Nat.add_comm, ← List.drop_drop, ofBytes_cons, List.drop_left' (length_ofNat _ 8), ih,
        List.drop_succ_cons]

theorem take_ofBytes (n : Nat) (l : List (BitVec 8)) : (ofBytes l).take (8 * n) = ofBytes (l.take n) := by
  induction n generalizing l with
  | zero => rfl
  | succ n ih =>
    cases l with
    | nil => simp
    | cons b l =>
      rw [Nat.mul_succ, Nat.add_comm, List.take_add, ofBytes_cons, List.take_left' (length_ofNat _ 8),
        List.drop_left' (length_ofNat _ 8), ih, List.take_succ_cons, ofBytes_cons]

/-! ## Words in big-endian order -/

/-- The low `n` bytes of a number, the most significant one first. -/
def beBytes : Nat → Nat → List (BitVec 8)
  | 0, _ => []
  | n + 1, v => BitVec.ofNat 8 (v / 2 ^ (8 * n)) :: beBytes n v

@[simp] theorem length_beBytes (v : Nat) : ∀ n, (beBytes n v).length = n
  | 0 => rfl
  | n + 1 => congrArg (· + 1) (length_beBytes v n)

theorem ofBytes_beBytes (v n : Nat) : ofBytes (beBytes n v) = ofNat (8 * n) v := by
  induction n with
  | zero => rfl
  | succ n ih =>
    rw [beBytes, ofBytes_cons, ih, BitVec.toNat_ofNat, ofNat_mod, Nat.mul_succ, Nat.add_comm (8 * n),
      ofNat_add]

/-- A byte of a number in big-endian order. -/
theorem getElem_beBytes (v : Nat) : ∀ {n i : Nat} (h : i < (beBytes n v).length),
    (beBytes n v)[i] = BitVec.ofNat 8 (v / 2 ^ (8 * (n - 1 - i)))
  | n + 1, 0, _ => rfl
  | n + 1, i + 1, h => by
    have hi : i < n := by simpa using h
    simp only [beBytes, List.getElem_cons_succ]
    rw [getElem_beBytes v (by simpa using hi), show n + 1 - 1 - (i + 1) = n - 1 - i by omega]

end BitString
