import Mathlib.Data.Nat.Bitwise
import Mathlib.Data.Nat.ModEq
import Mathlib.Tactic.IntervalCases
import Mathlib.Tactic.Ring

/-!
# Masks and shifts of bit vectors

The mask of the low `n` bits of a word is `(1 <<< n) - 1`. Taking it (`x &&& mask`) is `% 2 ^ n` and clearing it
(`x &&& ~~~mask`) rounds down to a multiple of `2 ^ n`; both are given bit by bit (`getLsbD_*`) and as numbers
(`toNat_*`). An `|||` of words with no common bit is their sum (`or_eq_add_of_disjoint`).
-/

namespace Mask

variable {w : Nat}

/-! ## The mask of the low bits -/

theorem toNat_one_shiftLeft {n : Nat} (h : n < w) : ((1#w) <<< n).toNat = 2 ^ n := by
  have h1 : 1 < 2 ^ w := Nat.one_lt_two_pow (by omega)
  have h2 : 2 ^ n < 2 ^ w := Nat.pow_lt_pow_right (by decide) h
  rw [BitVec.toNat_shiftLeft, BitVec.toNat_ofNat, Nat.mod_eq_of_lt h1, Nat.shiftLeft_eq, one_mul, Nat.mod_eq_of_lt h2]

theorem toNat_mask {n : Nat} (h : n < w) : ((1#w) <<< n - 1#w).toNat = 2 ^ n - 1 := by
  have h1 : 1 < 2 ^ w := Nat.one_lt_two_pow (by omega)
  have h2 : 2 ^ n < 2 ^ w := Nat.pow_lt_pow_right (by decide) h
  have h3 : 0 < 2 ^ n := Nat.two_pow_pos n
  rw [BitVec.toNat_sub, toNat_one_shiftLeft h, BitVec.toNat_ofNat, Nat.mod_eq_of_lt h1,
    show 2 ^ w - 1 + 2 ^ n = (2 ^ n - 1) + 2 ^ w by omega, Nat.add_mod_right, Nat.mod_eq_of_lt (by omega)]

theorem getLsbD_mask {n : Nat} (h : n < w) (i : Nat) : ((1#w) <<< n - 1#w).getLsbD i = decide (i < n) := by
  rw [← BitVec.testBit_toNat, toNat_mask h, Nat.testBit_two_pow_sub_one]

theorem toNat_and_mask (x : BitVec w) {n : Nat} (h : n < w) :
    (x &&& ((1#w) <<< n - 1#w)).toNat = x.toNat % 2 ^ n := by
  rw [BitVec.toNat_and, toNat_mask h, Nat.and_two_pow_sub_one_eq_mod]

theorem getLsbD_and_mask (x : BitVec w) {n : Nat} (h : n < w) (i : Nat) :
    (x &&& ((1#w) <<< n - 1#w)).getLsbD i = (x.getLsbD i && decide (i < n)) := by
  rw [BitVec.getLsbD_and, getLsbD_mask h]

/-! ## Rounding down -/

theorem getLsbD_and_not_mask (x : BitVec w) {n : Nat} (h : n < w) (i : Nat) :
    (x &&& ~~~((1#w) <<< n - 1#w)).getLsbD i = (x.getLsbD i && decide (n ≤ i)) := by
  rw [BitVec.getLsbD_and, BitVec.getLsbD_not, getLsbD_mask h]
  by_cases hi : i < w
  · by_cases hn : i < n
    · simp [hn, not_le.mpr hn]
    · simp [hi, hn, not_lt.mp hn]
  · simp [BitVec.getLsbD_of_ge x i (by omega)]

/-- Clearing the low bits rounds down to a multiple of `2 ^ n`. -/
theorem toNat_and_not_mask (x : BitVec w) {n : Nat} (h : n < w) :
    (x &&& ~~~((1#w) <<< n - 1#w)).toNat = x.toNat / 2 ^ n * 2 ^ n := by
  apply Nat.eq_of_testBit_eq
  intro i
  rw [BitVec.testBit_toNat, getLsbD_and_not_mask x h, mul_comm, Nat.testBit_two_pow_mul, Nat.testBit_div_two_pow]
  by_cases hi : n ≤ i
  · simp [hi, BitVec.getLsbD]
  · simp [hi]

/-! ## Fields -/

/-- The bits of a `k`-bit field placed at bit `s`. -/
theorem getLsbD_field {k : Nat} (x : BitVec k) (s i : Nat) :
    ((x.setWidth w) <<< s).getLsbD i = (decide (i < w) && decide (s ≤ i) && x.getLsbD (i - s)) := by
  rw [BitVec.getLsbD_shiftLeft, BitVec.getLsbD_setWidth]
  by_cases hw : i < w <;> by_cases hs : s ≤ i
  · simp [hw, hs, show i - s < w by omega, show ¬i < s by omega]
  · simp [hs, show i < s by omega]
  · simp [hw]
  · simp [hw]

/-- A slice shifted down to bit `0` and back is the word restricted to the slice. -/
theorem getLsbD_slice_shiftLeft (x : BitVec w) (y : BitVec w) (s n i : Nat)
    (hy : ∀ j, y.getLsbD j = (x.getLsbD (s + j) && decide (j < n))) :
    (y <<< s).getLsbD i = (x.getLsbD i && decide (s ≤ i) && decide (i < s + n)) := by
  rw [BitVec.getLsbD_shiftLeft, hy]
  by_cases hs : s ≤ i
  · have h1 : s + (i - s) = i := by omega
    by_cases hw : i < w
    · simp [hw, h1, show ¬i < s by omega, hs, show i - s < n ↔ i < s + n by omega]
    · simp [hw, BitVec.getLsbD_of_ge x i (by omega)]
  · simp [hs, show i < s by omega]

/-! ## Sums without carries -/

/-- Words with no common bit add up to their `|||`. -/
theorem or_eq_add_of_disjoint (x y : BitVec w) (h : ∀ i, ¬(x.getLsbD i = true ∧ y.getLsbD i = true)) :
    x ||| y = x + y := by
  refine (BitVec.add_eq_or_of_and_eq_zero x y ?_).symm
  apply BitVec.eq_of_getLsbD_eq
  intro i _
  have := h i
  simp only [BitVec.getLsbD_and, BitVec.getLsbD_zero]
  cases hx : x.getLsbD i <;> cases hy : y.getLsbD i <;> simp_all

/-- A multiple of `2 ^ n` has no bit below `n`. -/
theorem getLsbD_of_dvd {x : BitVec w} {n i : Nat} (h : x.toNat % 2 ^ n = 0) (hi : i < n) : x.getLsbD i = false := by
  have := Nat.testBit_mod_two_pow x.toNat n i
  rw [h] at this
  simpa [hi, BitVec.getLsbD] using this.symm

/-- A number below `2 ^ n` has no bit from `n` on. -/
theorem getLsbD_of_lt {x : BitVec w} {n i : Nat} (h : x.toNat < 2 ^ n) (hi : n ≤ i) : x.getLsbD i = false :=
  Nat.testBit_lt_two_pow (lt_of_lt_of_le h (Nat.pow_le_pow_right (by decide) hi))

/-- Conversely, a word without bits from `n` on is below `2 ^ n`. -/
theorem lt_of_getLsbD {x : BitVec w} {n : Nat} (h : ∀ i, n ≤ i → x.getLsbD i = false) : x.toNat < 2 ^ n :=
  Nat.lt_pow_two_of_testBit _ h

/-- The low bits of a word replaced by those of another. -/
theorem toNat_splice (x y : BitVec w) {n : Nat} (h : n < w) :
    ((x &&& ~~~((1#w) <<< n - 1#w)) ||| (y &&& ((1#w) <<< n - 1#w))).toNat =
      x.toNat / 2 ^ n * 2 ^ n + y.toNat % 2 ^ n := by
  have hmod : y.toNat % 2 ^ n < 2 ^ n := Nat.mod_lt _ (Nat.two_pow_pos n)
  have hlt : x.toNat / 2 ^ n * 2 ^ n + 2 ^ n ≤ 2 ^ w := by
    have hdvd : 2 ^ w / 2 ^ n * 2 ^ n = 2 ^ w := Nat.div_mul_cancel (Nat.pow_dvd_pow 2 h.le)
    have hdiv : x.toNat / 2 ^ n < 2 ^ w / 2 ^ n :=
      (Nat.div_lt_iff_lt_mul (Nat.two_pow_pos n)).mpr (hdvd.symm ▸ x.isLt)
    rw [← hdvd, ← Nat.succ_mul]
    exact Nat.mul_le_mul_right _ hdiv
  rw [or_eq_add_of_disjoint, BitVec.toNat_add, toNat_and_not_mask x h, toNat_and_mask y h, Nat.mod_eq_of_lt (by omega)]
  intro i
  rw [getLsbD_and_not_mask x h, getLsbD_and_mask y h]
  simp only [Bool.and_eq_true, decide_eq_true_eq]
  omega

/-- Rounding down to two grains: the coarser decides. -/
theorem div_eq_of_div_eq {a b m n : Nat} (hmn : m ≤ n) (h : a / 2 ^ m = b / 2 ^ m) : a / 2 ^ n = b / 2 ^ n := by
  obtain ⟨k, rfl⟩ := Nat.exists_eq_add_of_le hmn
  rw [pow_add, ← Nat.div_div_eq_div_mul, ← Nat.div_div_eq_div_mul, h]

/-- Slots of `2 ^ k` from `b` on: two numbers round down to the same multiple of a grain in the slots exactly when they
are in one slot and their offsets there do. -/
theorem slot_div_eq_iff {b k n i j x y : Nat} (hn : n ≤ k) (hb : 2 ^ n ∣ b) (hx : x < 2 ^ k) (hy : y < 2 ^ k) :
    (b + i * 2 ^ k + x) / 2 ^ n = (b + j * 2 ^ k + y) / 2 ^ n ↔ i = j ∧ x / 2 ^ n = y / 2 ^ n := by
  have hdvd : ∀ i, 2 ^ n ∣ i * 2 ^ k := fun i => Dvd.dvd.mul_left (Nat.pow_dvd_pow 2 hn) i
  have hslot : ∀ i {x : Nat}, x < 2 ^ k → (i * 2 ^ k + x) / 2 ^ k = i := by
    intro i x hx
    rw [mul_comm, Nat.mul_add_div (Nat.two_pow_pos k), Nat.div_eq_of_lt hx, Nat.add_zero]
  rw [Nat.add_assoc, Nat.add_assoc, Nat.add_div_of_dvd_right hb, Nat.add_div_of_dvd_right hb, Nat.add_left_cancel_iff]
  constructor
  · intro heq
    have hij := div_eq_of_div_eq hn heq
    rw [hslot i hx, hslot j hy] at hij
    rw [Nat.add_div_of_dvd_right (hdvd i), Nat.add_div_of_dvd_right (hdvd j), hij] at heq
    exact ⟨hij, Nat.add_left_cancel heq⟩
  · rintro ⟨rfl, heq⟩
    rw [Nat.add_div_of_dvd_right (hdvd i), Nat.add_div_of_dvd_right (hdvd i), heq]

end Mask
