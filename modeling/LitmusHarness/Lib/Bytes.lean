import Mathlib.Algebra.Group.Nat.Defs

/-!
# Byte memory

A memory of bytes with little-endian loads and stores of 32 and 64 bits, at any address, and the filling of a range. A
load depends on its bytes only (`load64_congr`); what is stored is loaded again (`load64_store64`, `load32_store32`), and
a store or a filling elsewhere does not matter (`load64_store64_of_disjoint`, `load64_fill_of_disjoint`).

`Holds m a l` says that the bytes of `l` are in memory from `a` on, and `IsStr m a s` that the string `s` is, with the
zero byte that ends it. `copy` is the copy of bytes one after the other.
-/

namespace Bytes

/-- A byte for every address. -/
abbrev Mem := Nat → BitVec 8

/-- The 64-bit word at `a`, lowest byte first. -/
def load64 (m : Mem) (a : Nat) : BitVec 64 :=
  m (a + 7) ++ m (a + 6) ++ m (a + 5) ++ m (a + 4) ++ m (a + 3) ++ m (a + 2) ++ m (a + 1) ++ m a

/-- The memory with the 64-bit word `v` at `a`. -/
def store64 (m : Mem) (a : Nat) (v : BitVec 64) : Mem := fun x =>
  if a ≤ x ∧ x < a + 8 then v.extractLsb' (8 * (x - a)) 8 else m x

/-- The 32-bit word at `a`, lowest byte first. -/
def load32 (m : Mem) (a : Nat) : BitVec 32 := m (a + 3) ++ m (a + 2) ++ m (a + 1) ++ m a

/-- The memory with the 32-bit word `v` at `a`. -/
def store32 (m : Mem) (a : Nat) (v : BitVec 32) : Mem := fun x =>
  if a ≤ x ∧ x < a + 4 then v.extractLsb' (8 * (x - a)) 8 else m x

/-- The memory with the byte `v` at the `n` addresses from `a` on. -/
def fill (m : Mem) (a n : Nat) (v : BitVec 8) : Mem := fun x => if a ≤ x ∧ x < a + n then v else m x

/-- The memory after `n` bytes are copied one after the other, byte `i` from `src i` to `dst i`. -/
def copy (m : Mem) (dst src : Nat → Nat) : Nat → Mem
  | 0 => m
  | n + 1 => fun x => if x = dst n then copy m dst src n (src n) else copy m dst src n x

variable {m m' : Mem} {a b n : Nat} {v : BitVec 64}

/-- The same bytes elsewhere. -/
theorem load64_eq (h : ∀ i, i < 8 → m' (a + i) = m (b + i)) : load64 m' a = load64 m b := by
  have h0 := h 0 (by decide)
  rw [Nat.add_zero, Nat.add_zero] at h0
  simp only [load64, h0, h 1 (by decide), h 2 (by decide), h 3 (by decide), h 4 (by decide), h 5 (by decide),
    h 6 (by decide), h 7 (by decide)]

theorem load64_congr (h : ∀ i, i < 8 → m' (a + i) = m (a + i)) : load64 m' a = load64 m a := load64_eq h

/-- The same bytes elsewhere. -/
theorem load32_eq (h : ∀ i, i < 4 → m' (a + i) = m (b + i)) : load32 m' a = load32 m b := by
  have h0 := h 0 (by decide)
  rw [Nat.add_zero, Nat.add_zero] at h0
  simp only [load32, h0, h 1 (by decide), h 2 (by decide), h 3 (by decide)]

theorem load64_store64 : load64 (store64 m a v) a = v := by
  have hbyte : ∀ i, i < 8 → store64 m a v (a + i) = v.extractLsb' (8 * i) 8 := by
    intro i hi
    rw [store64, if_pos ⟨Nat.le_add_right a i, by omega⟩, Nat.add_sub_cancel_left]
  have h0 := hbyte 0 (by decide)
  rw [Nat.add_zero] at h0
  rw [load64, h0, hbyte 1 (by decide), hbyte 2 (by decide), hbyte 3 (by decide), hbyte 4 (by decide),
    hbyte 5 (by decide), hbyte 6 (by decide), hbyte 7 (by decide)]
  have hjoin : ∀ s k, v.extractLsb' (s + 8) k ++ v.extractLsb' s 8 = v.extractLsb' s (k + 8) := fun _ _ =>
    BitVec.extractLsb'_append_extractLsb'_eq_extractLsb' rfl
  rw [hjoin 48 8, hjoin 40 16, hjoin 32 24, hjoin 24 32, hjoin 16 40, hjoin 8 48, hjoin 0 56]
  exact BitVec.extractLsb'_eq_self

theorem load32_store32 {v : BitVec 32} : load32 (store32 m a v) a = v := by
  have hbyte : ∀ i, i < 4 → store32 m a v (a + i) = v.extractLsb' (8 * i) 8 := by
    intro i hi
    rw [store32, if_pos ⟨Nat.le_add_right a i, by omega⟩, Nat.add_sub_cancel_left]
  have h0 := hbyte 0 (by decide)
  rw [Nat.add_zero] at h0
  rw [load32, h0, hbyte 1 (by decide), hbyte 2 (by decide), hbyte 3 (by decide)]
  have hjoin : ∀ s k, v.extractLsb' (s + 8) k ++ v.extractLsb' s 8 = v.extractLsb' s (k + 8) := fun _ _ =>
    BitVec.extractLsb'_append_extractLsb'_eq_extractLsb' rfl
  rw [hjoin 16 8, hjoin 8 16, hjoin 0 24]
  exact BitVec.extractLsb'_eq_self

/-- A store elsewhere. -/
theorem load64_store64_of_disjoint (h : a + 8 ≤ b ∨ b + 8 ≤ a) : load64 (store64 m b v) a = load64 m a :=
  load64_congr fun i hi => if_neg (by omega)

theorem load32_store32_of_disjoint {v : BitVec 32} (h : a + 4 ≤ b ∨ b + 4 ≤ a) :
    load32 (store32 m b v) a = load32 m a :=
  load32_eq fun i hi => if_neg (by omega)

theorem store64_of_not_mem {x : Nat} (h : ¬(a ≤ x ∧ x < a + 8)) : store64 m a v x = m x := if_neg h

theorem store32_of_not_mem {x : Nat} {v : BitVec 32} (h : ¬(a ≤ x ∧ x < a + 4)) : store32 m a v x = m x := if_neg h

theorem fill_of_not_mem {x : Nat} {y : BitVec 8} (h : ¬(a ≤ x ∧ x < a + n)) : fill m a n y x = m x := if_neg h

theorem fill_of_mem {x : Nat} {y : BitVec 8} (h : a ≤ x ∧ x < a + n) : fill m a n y x = y := if_pos h

/-! ## Copies -/

theorem copy_of_not_mem {dst src : Nat → Nat} {x : Nat} {n : Nat} (h : ∀ i, i < n → x ≠ dst i) :
    copy m dst src n x = m x := by
  induction n with
  | zero => rfl
  | succ n ih =>
    refine (if_neg (h n (Nat.lt_succ_self n))).trans ?_
    exact ih fun i hi => h i (Nat.lt_succ_of_lt hi)

/-- A byte is copied, if no later byte goes to the same place and no earlier one to where it is. -/
theorem copy_of_mem {dst src : Nat → Nat} {i : Nat} {n : Nat} (hi : i < n)
    (hdst : ∀ j, i < j → j < n → dst i ≠ dst j) (hsrc : ∀ j, j < i → src i ≠ dst j) :
    copy m dst src n (dst i) = m (src i) := by
  induction n with
  | zero => exact absurd hi (Nat.not_lt_zero i)
  | succ n ih =>
    rcases Nat.lt_succ_iff_lt_or_eq.mp hi with hlt | rfl
    · refine (if_neg (hdst n hlt (Nat.lt_succ_self n))).trans ?_
      exact ih hlt fun j h1 h2 => hdst j h1 (Nat.lt_succ_of_lt h2)
    · exact (if_pos rfl).trans (copy_of_not_mem hsrc)

/-! ## Bytes and strings in memory -/

/-- The bytes `l` are in memory from `a` on. -/
def Holds (m : Mem) : Nat → List (BitVec 8) → Prop
  | _, [] => True
  | a, b :: l => m a = b ∧ Holds m (a + 1) l

instance (m : Mem) : ∀ (a : Nat) (l : List (BitVec 8)), Decidable (Holds m a l)
  | _, [] => .isTrue trivial
  | a, b :: l =>
    have := instDecidableHolds m (a + 1) l
    inferInstanceAs (Decidable (m a = b ∧ Holds m (a + 1) l))

@[simp] theorem holds_nil : Holds m a [] := trivial

@[simp] theorem holds_cons {b : BitVec 8} {l : List (BitVec 8)} : Holds m a (b :: l) ↔ m a = b ∧ Holds m (a + 1) l :=
  Iff.rfl

theorem holds_append {l l' : List (BitVec 8)} {a : Nat} :
    Holds m a (l ++ l') ↔ Holds m a l ∧ Holds m (a + l.length) l' := by
  induction l generalizing a with
  | nil => simp
  | cons b l ih =>
    rw [List.cons_append, holds_cons, holds_cons, ih, List.length_cons, and_assoc,
      show a + (l.length + 1) = a + 1 + l.length by omega]

/-- A string: bytes that are not zero. -/
abbrev Str := { s : List (BitVec 8) // 0#8 ∉ s }

/-- The string `s`, with its end, is in memory from `a` on, below the end of the address space. -/
def IsStr (m : Mem) (a : Nat) (s : Str) : Prop := Holds m a (s.1 ++ [0#8]) ∧ a + s.1.length < 2 ^ 64

end Bytes
