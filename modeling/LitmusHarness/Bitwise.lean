import LitmusHarness.Lib.Mask

/-!
# `bitwise.h`: slices and alignment of 64-bit words

The macros on `u64`, with the source's parameters: `BIT_SLICE(x, top, bot)` takes the bits `top` down to `bot`
(both ends included), `ALIGN_TO`/`ALIGN_UP` take a number of bits and `ALIGN_UP_TO` the alignment itself. Beside each
one its bits or its value; later modules use these and do not unfold the macros.
-/

namespace LitmusHarness

/-- `u64`. -/
abbrev U64 := BitVec 64

def KiB : U64 := 1024
def MiB : U64 := 1024 * 1024
def GiB : U64 := 1024 * 1024 * 1024

/-- `BITMASK(n)`. -/
def bitmask (n : Nat) : U64 := 1#64 <<< n - 1#64

/-- `BIT(x, i)`. -/
def bit (x : U64) (i : Nat) : U64 := (x >>> i) &&& 1#64

/-- `BIT_SLICE(x, top, bot)`. -/
def bitSlice (x : U64) (top bot : Nat) : U64 := (x >>> bot) &&& (1#64 <<< (1 + top - bot) - 1#64)

/-- `IS_ALIGNED(v, bits)`. -/
def isAligned (v : U64) (bits : Nat) : Bool := (v &&& (1#64 <<< bits - 1#64)) == 0

/-- `ALIGN_POW2(v, to)`. -/
def alignPow2 (v align : U64) : U64 := v &&& ~~~(align - 1)

/-- `ALIGN_TO(v, bits)`. -/
def alignTo (v : U64) (bits : Nat) : U64 := v &&& ~~~(1#64 <<< bits - 1#64)

/-- `ALIGN_UP(v, bits)`. -/
def alignUp (v : U64) (bits : Nat) : U64 := (v + (1#64 <<< bits - 1#64)) &&& ~~~(1#64 <<< bits - 1#64)

/-- `ALIGN_UP_TO(v, to)`. The remainder of `-v` is taken on `u64`, so it is not negative. -/
def alignUpTo (v align : U64) : U64 := if v % align = 0 then v else v + (-v) % align + align

/-! ## Bits -/

/-- The low bit of a shifted word. -/
theorem getLsbD_bit (x : U64) (i k : Nat) : (bit x i).getLsbD k = (x.getLsbD i && decide (k = 0)) := by
  rw [bit, BitVec.getLsbD_and, BitVec.getLsbD_ushiftRight]
  cases k with
  | zero => simp
  | succ k => simp [BitVec.getLsbD_one]

theorem bit_eq (x : U64) (i : Nat) : bit x i = if x.getLsbD i then 1 else 0 := by
  apply BitVec.eq_of_getLsbD_eq
  intro k _
  rw [getLsbD_bit]
  cases x.getLsbD i <;> simp [BitVec.getLsbD_one]

theorem bit_eq_zero {x : U64} {i : Nat} : bit x i = 0 ↔ x.getLsbD i = false := by
  rw [bit_eq]
  cases x.getLsbD i <;> decide

theorem getLsbD_bitSlice (x : U64) {top bot : Nat} (h : 1 + top - bot < 64) (i : Nat) :
    (bitSlice x top bot).getLsbD i = (x.getLsbD (bot + i) && decide (i < 1 + top - bot)) := by
  rw [bitSlice, Mask.getLsbD_and_mask _ h, BitVec.getLsbD_ushiftRight]

theorem toNat_bitSlice (x : U64) {top bot : Nat} (h : 1 + top - bot < 64) :
    (bitSlice x top bot).toNat = x.toNat / 2 ^ bot % 2 ^ (1 + top - bot) := by
  rw [bitSlice, Mask.toNat_and_mask _ h, BitVec.toNat_ushiftRight, Nat.shiftRight_eq_div_pow]

theorem getLsbD_bitmask {n : Nat} (h : n < 64) (i : Nat) : (bitmask n).getLsbD i = decide (i < n) :=
  Mask.getLsbD_mask h i

theorem toNat_and_bitmask (x : U64) {n : Nat} (h : n < 64) : (x &&& bitmask n).toNat = x.toNat % 2 ^ n :=
  Mask.toNat_and_mask x h

theorem toNat_and_not_bitmask (x : U64) {n : Nat} (h : n < 64) :
    (x &&& ~~~bitmask n).toNat = x.toNat / 2 ^ n * 2 ^ n :=
  Mask.toNat_and_not_mask x h

/-! ## Alignment -/

theorem isAligned_iff (v : U64) {bits : Nat} (h : bits < 64) : isAligned v bits = true ↔ v.toNat % 2 ^ bits = 0 := by
  rw [isAligned, beq_iff_eq, ← BitVec.toNat_inj, Mask.toNat_and_mask v h]
  simp

theorem toNat_alignTo (v : U64) {bits : Nat} (h : bits < 64) :
    (alignTo v bits).toNat = v.toNat / 2 ^ bits * 2 ^ bits :=
  Mask.toNat_and_not_mask v h

/-- `ALIGN_UP` wraps around in the last block. -/
theorem toNat_alignUp_mod (v : U64) {bits : Nat} (h : bits < 64) :
    (alignUp v bits).toNat = (v.toNat + (2 ^ bits - 1)) % 2 ^ 64 / 2 ^ bits * 2 ^ bits := by
  rw [alignUp, Mask.toNat_and_not_mask _ h, BitVec.toNat_add, Mask.toNat_mask h]

theorem toNat_alignUp (v : U64) {bits : Nat} (h : bits < 64) (hv : v.toNat + (2 ^ bits - 1) < 2 ^ 64) :
    (alignUp v bits).toNat = (v.toNat + (2 ^ bits - 1)) / 2 ^ bits * 2 ^ bits := by
  rw [toNat_alignUp_mod v h, Nat.mod_eq_of_lt hv]

/-- `ALIGN_POW2` by a power of two is `ALIGN_TO` by its exponent. -/
theorem alignPow2_two_pow (v : U64) (bits : Nat) : alignPow2 v (1#64 <<< bits) = alignTo v bits := rfl

theorem alignUpTo_of_dvd {v align : U64} (h : v.toNat % align.toNat = 0) : alignUpTo v align = v := by
  have hm : v % align = 0 := by rw [← BitVec.toNat_inj, BitVec.toNat_umod, h]; rfl
  simp [alignUpTo, hm]

end LitmusHarness
