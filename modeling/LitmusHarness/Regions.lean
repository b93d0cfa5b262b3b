import LitmusHarness.Bitwise

/-!
# Test data addresses: `litmus_regions.h` and `vmm_regions.h`

The variables of a test live in 16 regions of 8 MiB. Physically they are contiguous, from `BOT_OF_TESTDATA` up; the
virtual address space has one window for each, 4 GiB apart from 128 GiB on. `virtToPhys` takes a window address to its
physical address (`virtToPhys_window`), and an identity-mapped variable is at its physical address itself.
-/

namespace LitmusHarness

/-- `region_names_t`, which indexes `LEVEL_SIZES` and `LEVEL_SHIFTS`. The members of `own_level_t`, `pin_level_t` and
`rel_offset_t` are these levels, in this order. -/
inductive Region
  | var
  | cacheLine
  | page
  | pmd
  | pud
  | pgd
  deriving DecidableEq, Repr

/-- `own_level_t`. -/
abbrev OwnLevel := Region

/-- `pin_level_t`. -/
abbrev PinLevel := Region

/-- `rel_offset_t`. -/
abbrev RelOffset := Region

/-- What `device.c` reads from the machine: `CTR_EL0.DminLine`, and where the memory and in it the test data start. -/
structure Machine where
  dminline : BitVec 4
  botOfMem : U64
  botOfTestdata : U64

/-- A machine whose test data starts on a 2 MiB boundary, and ends below the windows. -/
structure Platform extends Machine where
  aligned : botOfTestdata.toNat % 2 ^ 21 = 0
  fits : botOfTestdata.toNat + 2 ^ 27 ≤ 2 ^ 37

instance : Coe Platform Machine := ⟨Platform.toMachine⟩

/-- A test data area at `0x48000000`. -/
def exampleTestdata : Platform where
  dminline := 4
  botOfMem := 0x40000000
  botOfTestdata := 0x48000000
  aligned := by decide
  fits := by decide

/-- `LEVEL_SHIFTS`. -/
def levelShift (p : Platform) : Region → Nat
  | .var => 1
  | .cacheLine => 2 + p.dminline.toNat
  | .page => 12
  | .pmd => 21
  | .pud => 30
  | .pgd => 39

/-- `LEVEL_SIZES`. -/
def levelSize (p : Platform) : Region → U64
  | .var => 1
  | .cacheLine => 4 * (1#64 <<< p.dminline.toNat)
  | .page => 1#64 <<< 12
  | .pmd => 1#64 <<< 21
  | .pud => 1#64 <<< 30
  | .pgd => 1#64 <<< 39

theorem levelShift_pos (p : Platform) (lvl : Region) : 0 < levelShift p lvl := by
  cases lvl <;> simp only [levelShift] <;> omega

theorem levelShift_le (p : Platform) (lvl : Region) : levelShift p lvl ≤ 39 := by
  have := p.dminline.isLt
  cases lvl <;> simp only [levelShift] <;> omega

/-- The sizes are the powers of the shifts, except for a variable's. -/
theorem toNat_levelSize (p : Platform) {lvl : Region} (h : lvl ≠ .var) :
    (levelSize p lvl).toNat = 2 ^ levelShift p lvl := by
  have hd := p.dminline.isLt
  cases lvl with
  | var => exact absurd rfl h
  | cacheLine =>
    rw [levelSize, levelShift, BitVec.toNat_mul, Mask.toNat_one_shiftLeft (by omega), pow_add]
    apply Nat.mod_eq_of_lt
    have : 2 ^ p.dminline.toNat ≤ 2 ^ 15 := Nat.pow_le_pow_right (by decide) (by omega)
    exact lt_of_le_of_lt (Nat.mul_le_mul_left _ this) (by decide)
  | page => rfl
  | pmd => rfl
  | pud => rfl
  | pgd => rfl

theorem toNat_levelSize_le (p : Platform) (lvl : Region) : (levelSize p lvl).toNat ≤ 2 ^ 39 := by
  by_cases hvar : lvl = .var
  · rw [hvar]
    exact (by decide : (1#64).toNat ≤ 2 ^ 39)
  · rw [toNat_levelSize p hvar]
    exact Nat.pow_le_pow_right (by decide) (levelShift_le p lvl)

/-! ## The windows -/

/-- `NR_REGIONS`. -/
def nrRegions : Nat := 16

/-- `REGION_SHIFT`: a region has 8 MiB. -/
def regionShift : Nat := 23

/-- `NR_DIRS_PER_REGION * DIR_SIZE`. -/
def regionSize : U64 := 4 * (512 * 4096)

/-- `TESTDATA_MMAP_BASE`. -/
def testdataMmapBase : U64 := 128 * GiB

/-- `TESTDATA_MMAP_SIZE`. -/
def testdataMmapSize : U64 := 64 * GiB

/-- `__TESTDATA_MMAP_GAP_SHIFT`: the distance of the windows is 4 GiB. -/
def testdataMmapGapShift : Nat := 32

/-- `TESTDATA_MMAP_8M_VA_FROM_INDEX`. -/
def testdataMmap8MVaFromIndex (idx : U64) : U64 := testdataMmapBase + idx * (1#64 <<< testdataMmapGapShift)

/-- `TESTDATA_MMAP_8M_PA_FROM_INDEX`. -/
def testdataMmap8MPaFromIndex (m : Machine) (idx : U64) : U64 := m.botOfTestdata + idx * (1#64 <<< regionShift)

/-- `TESTDATA_MMAP_VIRT_TO_PHYS`. -/
def virtToPhys (m : Machine) (v : U64) : U64 :=
  testdataMmap8MPaFromIndex m ((v - testdataMmapBase) >>> testdataMmapGapShift)
    + ((v - testdataMmapBase) &&& bitmask regionShift)

/-- `IN_TESTDATA_RANGE`. -/
def inTestdataRange (va : U64) : Bool := testdataMmapBase ≤ va && va < testdataMmapBase + testdataMmapSize

/-- `SAFE_TESTDATA_PA`. -/
def safeTestdataPa (m : Machine) (va : U64) : U64 := if !inTestdataRange va then va else virtToPhys m va

/-- `HARNESS_MMAP_BASE`. -/
def harnessMmapBase : U64 := 64 * GiB

/-- `HARNESS_MMAP_PHYS_TO_VIRT`. -/
def harnessMmapPhysToVirt (m : Machine) (p : U64) : U64 := harnessMmapBase + (p - m.botOfMem)

/-- `SAFE_TESTDATA_VA`. -/
def safeTestdataVa (m : Machine) (va : U64) : U64 :=
  if !inTestdataRange va then harnessMmapPhysToVirt m va else harnessMmapPhysToVirt m (virtToPhys m va)

/-- The address at offset `o` of window `i`. -/
def InWindow (va : U64) (i o : Nat) : Prop := i < 16 ∧ o < 2 ^ 23 ∧ va.toNat = 2 ^ 37 + i * 2 ^ 32 + o

/-- The physical address at offset `o` of region `i`. -/
def InPhys (m : Machine) (pa : U64) (i o : Nat) : Prop :=
  i < 16 ∧ o < 2 ^ 23 ∧ pa.toNat = m.botOfTestdata.toNat + i * 2 ^ 23 + o

theorem testdataMmapBase_toNat : testdataMmapBase.toNat = 2 ^ 37 := rfl

theorem inTestdataRange_iff (va : U64) : inTestdataRange va = true ↔ 2 ^ 37 ≤ va.toNat ∧ va.toNat < 2 ^ 37 + 2 ^ 36 := by
  simp only [inTestdataRange, Bool.and_eq_true, decide_eq_true_eq, BitVec.le_def, BitVec.lt_def]
  rfl

theorem InWindow.inTestdataRange {va : U64} {i o : Nat} (h : InWindow va i o) : inTestdataRange va = true := by
  obtain ⟨hi, ho, hva⟩ := h
  rw [inTestdataRange_iff]
  omega

theorem InPhys.not_inTestdataRange {p : Platform} {pa : U64} {i o : Nat} (h : InPhys p pa i o) :
    LitmusHarness.inTestdataRange pa = false := by
  obtain ⟨hi, ho, hpa⟩ := h
  have := p.fits
  rw [← Bool.not_eq_true, inTestdataRange_iff]
  omega

/-- What `TESTDATA_MMAP_VIRT_TO_PHYS` computes, as a number. -/
theorem toNat_virtToPhys (m : Machine) (v : U64) : (virtToPhys m v).toNat =
    (m.botOfTestdata.toNat + (v - testdataMmapBase).toNat / 2 ^ 32 * 2 ^ 23 + (v - testdataMmapBase).toNat % 2 ^ 23)
      % 2 ^ 64 := by
  rw [virtToPhys, testdataMmap8MPaFromIndex, testdataMmapGapShift, regionShift, BitVec.toNat_add,
    toNat_and_bitmask _ (by decide), BitVec.toNat_add, BitVec.toNat_mul, BitVec.toNat_ushiftRight,
    Nat.shiftRight_eq_div_pow, show (1#64 <<< 23).toNat = 2 ^ 23 from rfl]
  omega

/-- A window address translates to the same offset of its region, wherever the test data is. -/
theorem InWindow.virtToPhys {m : Machine} (hfit : m.botOfTestdata.toNat + 2 ^ 27 ≤ 2 ^ 64) {va : U64} {i o : Nat}
    (h : InWindow va i o) : InPhys m (virtToPhys m va) i o := by
  obtain ⟨hi, ho, hva⟩ := h
  refine ⟨hi, ho, ?_⟩
  have hoff : (va - testdataMmapBase).toNat = i * 2 ^ 32 + o := by
    rw [BitVec.toNat_sub, testdataMmapBase_toNat, hva]
    omega
  rw [toNat_virtToPhys, hoff]
  omega

/-- **A window address translates to the same offset of its region.** -/
theorem virtToPhys_window (p : Platform) {va : U64} {i o : Nat} (h : InWindow va i o) :
    InPhys p (virtToPhys p va) i o := by
  have hfit := p.fits
  exact h.virtToPhys (by omega)

theorem safeTestdataPa_window (p : Platform) {va : U64} {i o : Nat} (h : InWindow va i o) :
    InPhys p (safeTestdataPa p va) i o := by
  rw [safeTestdataPa, h.inTestdataRange]
  exact virtToPhys_window p h

theorem safeTestdataPa_phys {p : Platform} {pa : U64} {i o : Nat} (h : InPhys p pa i o) : safeTestdataPa p pa = pa := by
  rw [safeTestdataPa, h.not_inTestdataRange]
  rfl

/-- The harness' own address of a variable is its mapping of `SAFE_TESTDATA_PA`. -/
theorem safeTestdataVa_eq (m : Machine) (va : U64) :
    safeTestdataVa m va = harnessMmapPhysToVirt m (safeTestdataPa m va) := by
  unfold safeTestdataVa safeTestdataPa
  split <;> rfl

/-- `SAFE_TESTDATA_PA` keeps the offset in a page. -/
theorem safeTestdataPa_page {m : Machine} (hal : m.botOfTestdata.toNat % 2 ^ 21 = 0)
    (hfit : m.botOfTestdata.toNat + 2 ^ 27 ≤ 2 ^ 48) {va : U64} (hva : va.toNat < 2 ^ 48) :
    (safeTestdataPa m va).toNat < 2 ^ 48 ∧ (safeTestdataPa m va).toNat % 2 ^ 12 = va.toNat % 2 ^ 12 := by
  unfold safeTestdataPa
  split
  · exact ⟨hva, rfl⟩
  · rename_i hr
    rw [Bool.not_eq_true', Bool.not_eq_false, inTestdataRange_iff] at hr
    have hoff : (va - testdataMmapBase).toNat = va.toNat - 2 ^ 37 := by
      rw [BitVec.toNat_sub, testdataMmapBase_toNat]
      omega
    rw [toNat_virtToPhys, hoff, Nat.mod_eq_of_lt (by omega)]
    omega

end LitmusHarness
