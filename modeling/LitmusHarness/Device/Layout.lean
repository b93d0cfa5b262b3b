import LitmusHarness.Regions
import LitmusHarness.Lib.Bump

/-!
# The layout of the memory: `init_device`

The stack, the heap, the page tables and the test data come one after the other behind the loaded sections, each with a
size that is rounded up, and the test data is what is left. Nothing checks that something is left: the 16 regions of
`initialize_regions` need 128 MiB. The layout is what it should be if and only if they fit (`initDevice_ok_iff`).
-/

namespace LitmusHarness

open Bump (roundUp)

/-- `dtb_mem_t`, as `dtb_read_memory` fills it. -/
structure DtbMem where
  base : U64
  size : U64
  top : U64
  top_eq : top = base + size

/-- The variables of `device.h` for the parts of the memory. -/
structure MemLayout extends Machine where
  topOfMem : U64
  botOfStackPa : U64
  topOfStackPa : U64
  totalHeap : U64
  botOfHeap : U64
  topOfHeap : U64
  totalTableSpace : U64
  botOfPtables : U64
  topOfPtables : U64
  topOfTestdata : U64

/-- `NO_CPUS`, as `init_device` sets it. -/
def noCpus : U64 := 4

/-- `STACK_SIZE`. -/
def stackSize : U64 := 2 * MiB

/-- `MIN(a, b)`. -/
def minU64 (a b : U64) : U64 := if a < b then a else b

/-- `init_device`, from the memory, the end of the loaded sections and `CTR_EL0.DminLine`. -/
def initDevice (memRegion : DtbMem) (endOfLoadedSections : U64) (dminline : BitVec 4) : MemLayout :=
  let topOfMem := memRegion.top
  let botOfMem := memRegion.base
  let botOfStackPa := alignUp endOfLoadedSections 21
  let topOfStackPa := botOfStackPa + 2 * 4 * stackSize
  let totalHeap := minU64 (64 * MiB) ((topOfMem - botOfMem) / 8)
  let botOfHeap := topOfStackPa
  let topOfHeap := botOfHeap + alignUp totalHeap 12
  let totalTableSpace := minU64 (32 * MiB) ((topOfMem - botOfMem) / 8)
  let botOfPtables := topOfHeap
  let topOfPtables := botOfPtables + alignUp totalTableSpace 12
  let botOfTestdata := alignUp topOfPtables 21
  let topOfTestdata := topOfMem
  { dminline, botOfMem, botOfTestdata, topOfMem, botOfStackPa, topOfStackPa, totalHeap, botOfHeap, topOfHeap,
    totalTableSpace, botOfPtables, topOfPtables, topOfTestdata }

/-- Stack, heap, page tables and test data follow each other in the memory. -/
structure MemLayout.Ordered (l : MemLayout) : Prop where
  mem_stack : l.botOfMem.toNat ≤ l.botOfStackPa.toNat
  stack : l.botOfStackPa.toNat ≤ l.topOfStackPa.toNat
  stack_heap : l.topOfStackPa.toNat ≤ l.botOfHeap.toNat
  heap : l.botOfHeap.toNat ≤ l.topOfHeap.toNat
  heap_ptables : l.topOfHeap.toNat ≤ l.botOfPtables.toNat
  ptables : l.botOfPtables.toNat ≤ l.topOfPtables.toNat
  ptables_testdata : l.topOfPtables.toNat ≤ l.botOfTestdata.toNat
  testdata : l.botOfTestdata.toNat ≤ l.topOfTestdata.toNat
  testdata_mem : l.topOfTestdata.toNat ≤ l.topOfMem.toNat

/-- The 16 regions of 8 MiB of `initialize_regions` are in the test data. -/
def MemLayout.RegionsFit (l : MemLayout) : Prop := ∀ i < nrRegions,
  l.botOfTestdata.toNat ≤ (testdataMmap8MPaFromIndex l.toMachine (BitVec.ofNat 64 i)).toNat ∧
    (testdataMmap8MPaFromIndex l.toMachine (BitVec.ofNat 64 i)).toNat + 2 ^ regionShift ≤ l.topOfTestdata.toNat

/-! ## Sizes -/

/-- The space for the heap and the page tables, in a memory of a size. -/
def harnessSpace (size : Nat) : Nat := roundUp (min (2 ^ 26) (size / 8)) 12 + roundUp (min (2 ^ 25) (size / 8)) 12

/-- Where the test data starts, in a memory of a size. -/
def testdataStart (endOfLoadedSections size : Nat) : Nat :=
  roundUp (roundUp endOfLoadedSections 21 + 2 ^ 24 + harnessSpace size) 21

theorem toNat_minU64 (a b : U64) : (minU64 a b).toNat = min a.toNat b.toNat := by
  unfold minU64
  split
  · rename_i h
    rw [BitVec.lt_def] at h
    omega
  · rename_i h
    rw [BitVec.lt_def] at h
    omega

/-- A part of the memory for the harness: an eighth of the memory up to a limit, in pages. -/
theorem toNat_harnessPart (memRegion : DtbMem) {limit : U64} (h : limit.toNat ≤ 2 ^ 26) :
    (alignUp (minU64 limit ((memRegion.top - memRegion.base) / 8)) 12).toNat =
      roundUp (min limit.toNat (memRegion.size.toNat / 8)) 12 := by
  have hsize : memRegion.top - memRegion.base = memRegion.size := by
    rw [memRegion.top_eq, BitVec.add_comm, BitVec.add_sub_cancel]
  have hpart : (minU64 limit ((memRegion.top - memRegion.base) / 8)).toNat =
      min limit.toNat (memRegion.size.toNat / 8) := by
    rw [hsize, toNat_minU64, BitVec.toNat_udiv]
    rfl
  rw [toNat_alignUp _ (by decide) (by rw [hpart]; omega), hpart]
  rfl

/-- The regions follow each other, so that they fit if the last one does. -/
theorem MemLayout.regionsFit_iff (l : MemLayout) :
    l.RegionsFit ↔ l.botOfTestdata.toNat + 2 ^ 27 ≤ l.topOfTestdata.toNat := by
  have hpa : ∀ i < 16, (testdataMmap8MPaFromIndex l.toMachine (BitVec.ofNat 64 i)).toNat =
      (l.botOfTestdata.toNat + i * 2 ^ 23) % 2 ^ 64 := by
    intro i hi
    rw [testdataMmap8MPaFromIndex, regionShift, BitVec.toNat_add, BitVec.toNat_mul, BitVec.toNat_ofNat,
      show (1#64 <<< 23).toNat = 2 ^ 23 from rfl]
    omega
  have htop := l.topOfTestdata.isLt
  unfold MemLayout.RegionsFit nrRegions regionShift
  constructor
  · intro h
    have h15 := h 15 (by decide)
    rw [hpa 15 (by decide)] at h15
    omega
  · intro h i hi
    rw [hpa i hi]
    omega

/-! ## The layout -/

section Layout

variable (memRegion : DtbMem) (endOfLoadedSections : U64) (dminline : BitVec 4)

/-- The parts of the layout, each from the one before it. -/
theorem initDevice_toNat : ∃ heap ptables : Nat, heap ≤ 2 ^ 26 ∧ ptables ≤ 2 ^ 25 ∧
    harnessSpace memRegion.size.toNat = heap + ptables ∧
    (initDevice memRegion endOfLoadedSections dminline).botOfStackPa.toNat =
      (endOfLoadedSections.toNat + (2 ^ 21 - 1)) % 2 ^ 64 / 2 ^ 21 * 2 ^ 21 ∧
    (initDevice memRegion endOfLoadedSections dminline).topOfStackPa.toNat =
      ((initDevice memRegion endOfLoadedSections dminline).botOfStackPa.toNat + 2 ^ 24) % 2 ^ 64 ∧
    (initDevice memRegion endOfLoadedSections dminline).topOfHeap.toNat =
      ((initDevice memRegion endOfLoadedSections dminline).topOfStackPa.toNat + heap) % 2 ^ 64 ∧
    (initDevice memRegion endOfLoadedSections dminline).topOfPtables.toNat =
      ((initDevice memRegion endOfLoadedSections dminline).topOfHeap.toNat + ptables) % 2 ^ 64 ∧
    (initDevice memRegion endOfLoadedSections dminline).botOfTestdata.toNat =
      ((initDevice memRegion endOfLoadedSections dminline).topOfPtables.toNat + (2 ^ 21 - 1)) % 2 ^ 64 / 2 ^ 21 * 2 ^ 21 ∧
    (initDevice memRegion endOfLoadedSections dminline).topOfMem.toNat =
      (memRegion.base.toNat + memRegion.size.toNat) % 2 ^ 64 := by
  refine ⟨_, _, Bump.roundUp_mono 12 (Nat.min_le_left _ _), Bump.roundUp_mono 12 (Nat.min_le_left _ _), rfl,
    toNat_alignUp_mod _ (by decide), ?_, ?_, ?_, toNat_alignUp_mod _ (by decide), ?_⟩
  · exact BitVec.toNat_add _ _
  · exact (BitVec.toNat_add _ _).trans (by rw [toNat_harnessPart memRegion (by decide)]; rfl)
  · exact (BitVec.toNat_add _ _).trans (by rw [toNat_harnessPart memRegion (by decide)]; rfl)
  · exact (congrArg BitVec.toNat memRegion.top_eq).trans (BitVec.toNat_add _ _)

/-- The order of the parts, as numbers. -/
theorem MemLayout.ordered_iff :
    (initDevice memRegion endOfLoadedSections dminline).Ordered ↔
      memRegion.base.toNat ≤ (initDevice memRegion endOfLoadedSections dminline).botOfStackPa.toNat ∧
      (initDevice memRegion endOfLoadedSections dminline).botOfStackPa.toNat ≤
        (initDevice memRegion endOfLoadedSections dminline).topOfStackPa.toNat ∧
      (initDevice memRegion endOfLoadedSections dminline).topOfStackPa.toNat ≤
        (initDevice memRegion endOfLoadedSections dminline).topOfHeap.toNat ∧
      (initDevice memRegion endOfLoadedSections dminline).topOfHeap.toNat ≤
        (initDevice memRegion endOfLoadedSections dminline).topOfPtables.toNat ∧
      (initDevice memRegion endOfLoadedSections dminline).topOfPtables.toNat ≤
        (initDevice memRegion endOfLoadedSections dminline).botOfTestdata.toNat ∧
      (initDevice memRegion endOfLoadedSections dminline).botOfTestdata.toNat ≤
        (initDevice memRegion endOfLoadedSections dminline).topOfMem.toNat :=
  ⟨fun h => ⟨h.mem_stack, h.stack, h.heap, h.ptables, h.ptables_testdata, h.testdata⟩,
    fun ⟨h₁, h₂, h₃, h₄, h₅, h₆⟩ => ⟨h₁, h₂, Nat.le_refl _, h₃, Nat.le_refl _, h₄, h₅, h₆, Nat.le_refl _⟩⟩

end Layout

/-- Parts that follow each other modulo the size of the address space are in order, with 128 MiB left, if and only if none
of them wraps around, or all of them do with the first one. -/
theorem layout_arith {base size sections heap ptables stack topStack topHeap topPtables testdata top : Nat}
    (hbase : base < 2 ^ 64) (hsize : size < 2 ^ 64) (hsections : sections < 2 ^ 64) (hheap : heap ≤ 2 ^ 26)
    (hptables : ptables ≤ 2 ^ 25) (hinside : (2 ^ 64 - base + sections) % 2 ^ 64 ≤ size)
    (hstack : stack = (sections + (2 ^ 21 - 1)) % 2 ^ 64 / 2 ^ 21 * 2 ^ 21)
    (htopStack : topStack = (stack + 2 ^ 24) % 2 ^ 64) (htopHeap : topHeap = (topStack + heap) % 2 ^ 64)
    (htopPtables : topPtables = (topHeap + ptables) % 2 ^ 64)
    (htestdata : testdata = (topPtables + (2 ^ 21 - 1)) % 2 ^ 64 / 2 ^ 21 * 2 ^ 21)
    (htop : top = (base + size) % 2 ^ 64) :
    ((base ≤ stack ∧ stack ≤ topStack ∧ topStack ≤ topHeap ∧ topHeap ≤ topPtables ∧ topPtables ≤ testdata ∧
      testdata ≤ top) ∧ testdata + 2 ^ 27 ≤ top) ↔
    base + size < 2 ^ 64 ∧
      if sections ≤ 2 ^ 64 - 2 ^ 21 then
        ((sections + (2 ^ 21 - 1)) / 2 ^ 21 * 2 ^ 21 + 2 ^ 24 + (heap + ptables) + (2 ^ 21 - 1)) / 2 ^ 21 * 2 ^ 21 +
          2 ^ 27 ≤ base + size
      else base = 0 := by
  split
  · constructor
    · intro h
      omega
    · intro h
      omega
  · constructor
    · intro h
      omega
    · intro h
      omega

/-- **The memory is laid out as it should be** if and only if it ends below the end of the address space, and 128 MiB
are left behind the page tables. (If the sections end in the last 2 MiB of the address space, the layout starts again at
address 0, which is in a memory from there on only.) -/
theorem initDevice_ok_iff (memRegion : DtbMem) (endOfLoadedSections : U64) (dminline : BitVec 4)
    (hinside : (endOfLoadedSections - memRegion.base).toNat ≤ memRegion.size.toNat) :
    ((initDevice memRegion endOfLoadedSections dminline).Ordered ∧
      (initDevice memRegion endOfLoadedSections dminline).RegionsFit) ↔
    memRegion.base.toNat + memRegion.size.toNat < 2 ^ 64 ∧
      if endOfLoadedSections.toNat ≤ 2 ^ 64 - 2 ^ 21 then
        testdataStart endOfLoadedSections.toNat memRegion.size.toNat + 2 ^ 27 ≤
          memRegion.base.toNat + memRegion.size.toNat
      else memRegion.base.toNat = 0 := by
  obtain ⟨heap, ptables, hheap, hptables, hspace, hstack, htopStack, htopHeap, htopPtables, htestdata, htop⟩ :=
    initDevice_toNat memRegion endOfLoadedSections dminline
  rw [BitVec.toNat_sub] at hinside
  rw [MemLayout.ordered_iff, MemLayout.regionsFit_iff, testdataStart, hspace, roundUp, roundUp]
  exact layout_arith memRegion.base.isLt memRegion.size.isLt endOfLoadedSections.isLt hheap hptables hinside hstack
    htopStack htopHeap htopPtables htestdata htop

/-- A memory at 1 GiB, as QEMU has it. -/
def ramAt1G (size : U64) : DtbMem := ⟨1024 * MiB, size, 1024 * MiB + size, rfl⟩

theorem initDevice_ok_1G : (ramAt1G (1024 * MiB)).base.toNat + (ramAt1G (1024 * MiB)).size.toNat < 2 ^ 64 ∧
    (initDevice (ramAt1G (1024 * MiB)) (1025 * MiB) 4).RegionsFit :=
  ⟨by decide, ((initDevice_ok_iff (ramAt1G (1024 * MiB)) (1025 * MiB) 4 (by decide)).2 (by decide)).2⟩

/-- 128 MiB of memory leave no 128 MiB for the regions. -/
theorem initDevice_regions_128M : ((1025 * MiB : U64) - (ramAt1G (128 * MiB)).base).toNat ≤
      (ramAt1G (128 * MiB)).size.toNat ∧
    ¬ (initDevice (ramAt1G (128 * MiB)) (1025 * MiB) 4).RegionsFit := by
  refine ⟨by decide, fun h => ?_⟩
  rw [MemLayout.regionsFit_iff] at h
  revert h
  decide

end LitmusHarness
