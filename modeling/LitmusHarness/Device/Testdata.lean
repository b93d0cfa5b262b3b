import Mathlib.Data.Set.Function
import LitmusHarness.Regions

/-!
# The two maps of the test data: `vmm_regions.h`

`TESTDATA_MMAP_PHYS_TO_VIRT` takes the 128 MiB from `BOT_OF_TESTDATA` up apart into the 16 windows, and
`TESTDATA_MMAP_VIRT_TO_PHYS` puts them together again. Both keep the region and the offset in it (`physToVirt_phys`,
`virtToPhys_inWindow`), so they are inverse to each other (`testdata_maps_inverse`). Physical addresses are numbers of
64 bits, so that test data at the very top would go on at address 0; below that they are an interval
(`mem_testdataPhys_iff`).
-/

namespace LitmusHarness

/-- `TESTDATA_MMAP_PHYS_TO_VIRT`. -/
def physToVirt (m : Machine) (p : U64) : U64 :=
  testdataMmap8MVaFromIndex ((p - m.botOfTestdata) >>> regionShift) + ((p - m.botOfTestdata) &&& bitmask regionShift)

/-- The 128 MiB from `BOT_OF_TESTDATA` up. -/
def testdataPhys (m : Machine) : Set U64 := {p | (p - m.botOfTestdata).toNat < 2 ^ 27}

/-- The 16 windows of 8 MiB, 4 GiB apart from `TESTDATA_MMAP_BASE` on. -/
def testdataWindows : Set U64 := {v | ∃ i o, InWindow v i o}

/-- Test data that does not reach the end of the address space is an interval. -/
theorem mem_testdataPhys_iff {m : Machine} (hfit : m.botOfTestdata.toNat + 2 ^ 27 ≤ 2 ^ 64) (p : U64) :
    p ∈ testdataPhys m ↔ m.botOfTestdata.toNat ≤ p.toNat ∧ p.toNat < m.botOfTestdata.toNat + 2 ^ 27 := by
  have hp := p.isLt
  rw [testdataPhys, Set.mem_ofPred_eq, BitVec.toNat_sub]
  omega

/-- The offset of a physical address is its region and the offset in it. -/
theorem mem_testdataPhys {m : Machine} {p : U64} :
    p ∈ testdataPhys m ↔ ∃ i o, i < 16 ∧ o < 2 ^ 23 ∧ (p - m.botOfTestdata).toNat = i * 2 ^ 23 + o := by
  rw [testdataPhys, Set.mem_ofPred_eq]
  constructor
  · intro h
    refine ⟨(p - m.botOfTestdata).toNat / 2 ^ 23, (p - m.botOfTestdata).toNat % 2 ^ 23, ?_, ?_, ?_⟩ <;> omega
  · rintro ⟨i, o, hi, ho, h⟩
    omega

/-- What `TESTDATA_MMAP_PHYS_TO_VIRT` computes, as a number. -/
theorem toNat_physToVirt (m : Machine) (p : U64) : (physToVirt m p).toNat =
    (2 ^ 37 + (p - m.botOfTestdata).toNat / 2 ^ 23 * 2 ^ 32 + (p - m.botOfTestdata).toNat % 2 ^ 23) % 2 ^ 64 := by
  rw [physToVirt, testdataMmap8MVaFromIndex, testdataMmapGapShift, regionShift, BitVec.toNat_add,
    toNat_and_bitmask _ (by decide), BitVec.toNat_add, BitVec.toNat_mul, BitVec.toNat_ushiftRight,
    Nat.shiftRight_eq_div_pow, testdataMmapBase_toNat, show (1#64 <<< 32).toNat = 2 ^ 32 from rfl]
  omega

/-- A physical address goes to the same offset of the window of its region. -/
theorem physToVirt_phys {m : Machine} {p : U64} {i o : Nat} (hi : i < 16) (ho : o < 2 ^ 23)
    (hp : (p - m.botOfTestdata).toNat = i * 2 ^ 23 + o) : InWindow (physToVirt m p) i o := by
  refine ⟨hi, ho, ?_⟩
  rw [toNat_physToVirt, hp]
  omega

/-- A window address goes to the same offset of its region, also when the test data wraps around. -/
theorem virtToPhys_inWindow (m : Machine) {v : U64} {i o : Nat} (h : InWindow v i o) :
    (virtToPhys m v - m.botOfTestdata).toNat = i * 2 ^ 23 + o := by
  obtain ⟨hi, ho, hv⟩ := h
  have hoff : (v - testdataMmapBase).toNat = i * 2 ^ 32 + o := by
    rw [BitVec.toNat_sub, testdataMmapBase_toNat, hv]
    omega
  rw [BitVec.toNat_sub, toNat_virtToPhys, hoff]
  have hbot := m.botOfTestdata.isLt
  omega

theorem mapsTo_physToVirt (m : Machine) : Set.MapsTo (physToVirt m) (testdataPhys m) testdataWindows := by
  intro p hp
  obtain ⟨i, o, hi, ho, hp⟩ := mem_testdataPhys.mp hp
  exact ⟨i, o, physToVirt_phys hi ho hp⟩

theorem mapsTo_virtToPhys (m : Machine) : Set.MapsTo (virtToPhys m) testdataWindows (testdataPhys m) := by
  rintro v ⟨i, o, hv⟩
  exact mem_testdataPhys.mpr ⟨i, o, hv.1, hv.2.1, virtToPhys_inWindow m hv⟩

theorem virtToPhys_physToVirt {m : Machine} {p : U64} (hp : p ∈ testdataPhys m) :
    virtToPhys m (physToVirt m p) = p := by
  obtain ⟨i, o, hi, ho, hp⟩ := mem_testdataPhys.mp hp
  have hback := virtToPhys_inWindow m (physToVirt_phys hi ho hp)
  have hsub : virtToPhys m (physToVirt m p) - m.botOfTestdata = p - m.botOfTestdata :=
    BitVec.eq_of_toNat_eq (hback.trans hp.symm)
  calc virtToPhys m (physToVirt m p)
      = virtToPhys m (physToVirt m p) - m.botOfTestdata + m.botOfTestdata := (BitVec.sub_add_cancel _ _).symm
    _ = p := by rw [hsub, BitVec.sub_add_cancel]

theorem physToVirt_virtToPhys {m : Machine} {v : U64} (hv : v ∈ testdataWindows) :
    physToVirt m (virtToPhys m v) = v := by
  obtain ⟨i, o, hv⟩ := hv
  obtain ⟨-, -, hto⟩ := physToVirt_phys hv.1 hv.2.1 (virtToPhys_inWindow m hv)
  exact BitVec.eq_of_toNat_eq (hto.trans hv.2.2.symm)

theorem invOn_testdata (m : Machine) : Set.InvOn (virtToPhys m) (physToVirt m) (testdataPhys m) testdataWindows :=
  ⟨fun _ hp => virtToPhys_physToVirt hp, fun _ hv => physToVirt_virtToPhys hv⟩

/-- The base of the test data is aligned to 2 MiB, and so is each region and each window. -/
theorem physToVirt_low {m : Machine} (hal : m.botOfTestdata.toNat % 2 ^ 21 = 0) {p : U64} (hp : p ∈ testdataPhys m) :
    (physToVirt m p).toNat % 2 ^ 21 = p.toNat % 2 ^ 21 := by
  obtain ⟨i, o, hi, ho, hp⟩ := mem_testdataPhys.mp hp
  obtain ⟨-, -, hto⟩ := physToVirt_phys hi ho hp
  rw [BitVec.toNat_sub] at hp
  have hlt := p.isLt
  have hbot := m.botOfTestdata.isLt
  omega

theorem virtToPhys_low {m : Machine} (hal : m.botOfTestdata.toNat % 2 ^ 21 = 0) {v : U64} (hv : v ∈ testdataWindows) :
    (virtToPhys m v).toNat % 2 ^ 21 = v.toNat % 2 ^ 21 := by
  have hlow := physToVirt_low hal (mapsTo_virtToPhys m hv)
  rw [physToVirt_virtToPhys hv] at hlow
  exact hlow.symm

/-- **The maps of the test data are inverse bijections between its physical addresses and the windows, and keep the
offset in a 2 MiB block.** -/
theorem testdata_maps_inverse (m : Machine) (hal : m.botOfTestdata.toNat % 2 ^ 21 = 0) :
    (m.botOfTestdata.toNat + 2 ^ 27 ≤ 2 ^ 64 → testdataPhys m =
      {p | m.botOfTestdata.toNat ≤ p.toNat ∧ p.toNat < m.botOfTestdata.toNat + 2 ^ 27}) ∧
    Set.InvOn (virtToPhys m) (physToVirt m) (testdataPhys m) testdataWindows ∧
    Set.BijOn (physToVirt m) (testdataPhys m) testdataWindows ∧
    Set.BijOn (virtToPhys m) testdataWindows (testdataPhys m) ∧
    (∀ p ∈ testdataPhys m, (physToVirt m p).toNat % 2 ^ 21 = p.toNat % 2 ^ 21) ∧
    ∀ v ∈ testdataWindows, (virtToPhys m v).toNat % 2 ^ 21 = v.toNat % 2 ^ 21 :=
  ⟨fun hfit => Set.ext (mem_testdataPhys_iff hfit), invOn_testdata m,
    (invOn_testdata m).bijOn (mapsTo_physToVirt m) (mapsTo_virtToPhys m),
    (invOn_testdata m).symm.bijOn (mapsTo_virtToPhys m) (mapsTo_physToVirt m),
    fun _ hp => physToVirt_low hal hp, fun _ hv => virtToPhys_low hal hv⟩

/-- The maps at the usual place of the test data. -/
theorem testdata_maps_inverse_at : Set.BijOn (physToVirt exampleTestdata) (testdataPhys exampleTestdata)
    testdataWindows :=
  (testdata_maps_inverse exampleTestdata (by decide)).2.2.1

end LitmusHarness
