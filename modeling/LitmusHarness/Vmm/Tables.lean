import LitmusHarness.Exceptions.Stack
import LitmusHarness.Vmm.AddressSpace
import Mathlib.Tactic.IntervalCases

/-!
# The translation tables of the harness

`vmm_alloc_new_4k_pgtable` makes a table for a CPU and `vmm_alloc_new_test_pgtable` one for the threads of a test. Both
have the physical memory at its own addresses and from 64 GiB on, and the stacks and the vector tables from 16 GiB on:
the CPU's own ones, or all of them. On a `Board` the regions have no address in common, so each new table translates every
address as its regions say (`vmmAllocTable_built`).
-/

namespace LitmusHarness

open Bump (roundUp)

/-! ## The device -/

/-- What `init_device` reads: the memory and the device registers of the tree, and the sections of the linker, with the
vector tables of the four CPUs in the text. The memory ends at 16 GiB or below and has room for the harness, and the
device registers are below the text or behind the memory. -/
structure Board where
  memRegion : DtbMem
  ioRegion : DtbMem
  beginText : U64
  endText : U64
  beginData : U64
  endData : U64
  endSections : U64
  vectorTable : U64
  dminline : BitVec 4
  mem_base : memRegion.base.toNat % 4096 = 0
  mem_size : memRegion.size.toNat % 4096 = 0
  mem_top : memRegion.base.toNat + memRegion.size.toNat ≤ 2 ^ 34
  mem_sections : memRegion.base.toNat ≤ endSections.toNat
  mem_room : testdataStart endSections.toNat memRegion.size.toNat ≤ memRegion.base.toNat + memRegion.size.toNat
  text_start : beginText.toNat % 4096 = 0
  text_end : endText.toNat % 4096 = 0
  text_data : endText.toNat ≤ beginData.toNat
  data_start : beginData.toNat % 4096 = 0
  data_end : endData.toNat % 4096 = 0
  data_le : beginData.toNat ≤ endData.toNat
  data_sections : endData.toNat ≤ endSections.toNat
  vector_aligned : vectorTable.toNat % 4096 = 0
  vector_start : beginText.toNat < vectorTable.toNat
  vector_end : vectorTable.toNat + 4 * 4096 ≤ endText.toNat
  io_le : ioRegion.base.toNat ≤ ioRegion.top.toNat
  io_apart : ioRegion.top.toNat ≤ beginText.toNat ∨
    memRegion.base.toNat + memRegion.size.toNat ≤ ioRegion.base.toNat ∧ ioRegion.top.toNat ≤ 2 ^ 34

namespace Board

variable (b : Board)

/-- The variables that `init_device` sets. -/
def layout : MemLayout := initDevice b.memRegion b.endSections b.dminline

/-- `TOTAL_MEM`. -/
def totalMem : U64 := b.memRegion.size

/-- `BOT_OF_IO`. -/
def botOfIo : U64 := alignTo b.ioRegion.base 12

/-- `TOP_OF_IO`. -/
def topOfIo : U64 := alignUp b.ioRegion.top 12

/-- The parts of the memory, as numbers: none of them wraps around. -/
theorem layout_toNat : ∃ heap ptables : Nat, heap % 4096 = 0 ∧ ptables % 4096 = 0 ∧ heap ≤ 2 ^ 26 ∧ ptables ≤ 2 ^ 25 ∧
    b.endSections.toNat ≤ b.layout.botOfStackPa.toNat ∧ b.layout.botOfStackPa.toNat % 2 ^ 21 = 0 ∧
    b.layout.topOfStackPa.toNat = b.layout.botOfStackPa.toNat + 2 ^ 24 ∧
    b.layout.botOfHeap.toNat = b.layout.topOfStackPa.toNat ∧
    b.layout.topOfHeap.toNat = b.layout.botOfHeap.toNat + heap ∧
    b.layout.botOfPtables.toNat = b.layout.topOfHeap.toNat ∧
    b.layout.topOfPtables.toNat = b.layout.botOfPtables.toNat + ptables ∧
    b.layout.topOfPtables.toNat ≤ b.layout.botOfTestdata.toNat ∧ b.layout.botOfTestdata.toNat % 2 ^ 21 = 0 ∧
    b.layout.botOfTestdata.toNat ≤ b.layout.topOfTestdata.toNat ∧
    b.layout.topOfTestdata.toNat = b.memRegion.base.toNat + b.memRegion.size.toNat ∧
    b.layout.botOfMem = b.memRegion.base := by
  have htop := b.mem_top
  have hroom := b.mem_room
  have hstack := Bump.le_roundUp b.endSections.toNat 21
  have hdata := Bump.le_roundUp (roundUp b.endSections.toNat 21 + 2 ^ 24 + harnessSpace b.memRegion.size.toNat) 21
  have hspace : harnessSpace b.memRegion.size.toNat = roundUp (min (2 ^ 26) (b.memRegion.size.toNat / 8)) 12 +
    roundUp (min (2 ^ 25) (b.memRegion.size.toNat / 8)) 12 := rfl
  have hheap : roundUp (min (2 ^ 26) (b.memRegion.size.toNat / 8)) 12 ≤ 2 ^ 26 :=
    Bump.roundUp_mono 12 (Nat.min_le_left _ _)
  have hptables : roundUp (min (2 ^ 25) (b.memRegion.size.toNat / 8)) 12 ≤ 2 ^ 25 :=
    Bump.roundUp_mono 12 (Nat.min_le_left _ _)
  have hheap12 := Nat.mod_eq_zero_of_dvd (Bump.dvd_roundUp (min (2 ^ 26) (b.memRegion.size.toNat / 8)) 12)
  have hptables12 := Nat.mod_eq_zero_of_dvd (Bump.dvd_roundUp (min (2 ^ 25) (b.memRegion.size.toNat / 8)) 12)
  have hstack21 := Nat.mod_eq_zero_of_dvd (Bump.dvd_roundUp b.endSections.toNat 21)
  have hdata21 := Nat.mod_eq_zero_of_dvd (Bump.dvd_roundUp
    (roundUp b.endSections.toNat 21 + 2 ^ 24 + harnessSpace b.memRegion.size.toNat) 21)
  unfold testdataStart at hroom
  have h₁ : b.layout.botOfStackPa.toNat = roundUp b.endSections.toNat 21 := toNat_alignUp _ (by decide) (by omega)
  have h₂ : b.layout.topOfStackPa.toNat = b.layout.botOfStackPa.toNat + 2 ^ 24 := by
    have hdef : b.layout.topOfStackPa = b.layout.botOfStackPa + 2 * 4 * stackSize := rfl
    rw [hdef, BitVec.toNat_add, show (2 * 4 * stackSize).toNat = 2 ^ 24 from rfl]
    omega
  have h₃ : b.layout.topOfHeap.toNat = b.layout.topOfStackPa.toNat +
      roundUp (min (2 ^ 26) (b.memRegion.size.toNat / 8)) 12 := by
    have hdef : b.layout.topOfHeap = b.layout.topOfStackPa +
      alignUp (minU64 (64 * MiB) ((b.memRegion.top - b.memRegion.base) / 8)) 12 := rfl
    rw [hdef, BitVec.toNat_add, toNat_harnessPart b.memRegion (by decide),
      show (64 * MiB : U64).toNat = 2 ^ 26 from rfl]
    omega
  have h₄ : b.layout.topOfPtables.toNat = b.layout.topOfHeap.toNat +
      roundUp (min (2 ^ 25) (b.memRegion.size.toNat / 8)) 12 := by
    have hdef : b.layout.topOfPtables = b.layout.topOfHeap +
      alignUp (minU64 (32 * MiB) ((b.memRegion.top - b.memRegion.base) / 8)) 12 := rfl
    rw [hdef, BitVec.toNat_add, toNat_harnessPart b.memRegion (by decide),
      show (32 * MiB : U64).toNat = 2 ^ 25 from rfl]
    omega
  have h₅ : b.layout.botOfTestdata.toNat =
      roundUp (roundUp b.endSections.toNat 21 + 2 ^ 24 + harnessSpace b.memRegion.size.toNat) 21 := by
    have hdef : b.layout.botOfTestdata = alignUp b.layout.topOfPtables 21 := rfl
    have hsum : b.layout.topOfPtables.toNat =
        roundUp b.endSections.toNat 21 + 2 ^ 24 + harnessSpace b.memRegion.size.toNat := by omega
    rw [hdef, toNat_alignUp _ (by decide) (by omega), hsum]
    rfl
  have h₆ : b.layout.topOfTestdata.toNat = b.memRegion.base.toNat + b.memRegion.size.toNat := by
    have hdef : b.layout.topOfTestdata = b.memRegion.base + b.memRegion.size := b.memRegion.top_eq
    rw [hdef, BitVec.toNat_add]
    omega
  exact ⟨_, _, hheap12, hptables12, hheap, hptables, by omega, by omega, h₂, rfl, h₃, rfl, h₄, by omega, by omega,
    by omega, h₆, rfl⟩

/-- The stacks are behind the loaded sections, and all of the memory is below 16 GiB. -/
theorem stack_low : b.endText.toNat ≤ b.layout.botOfStackPa.toNat ∧ b.layout.botOfStackPa.toNat % 2 ^ 21 = 0 ∧
    b.layout.botOfStackPa.toNat + 2 ^ 24 ≤ 2 ^ 34 := by
  obtain ⟨_, _, h⟩ := b.layout_toNat
  have h₁ := b.mem_top
  have h₂ := b.text_data
  have h₃ := b.data_le
  have h₄ := b.data_sections
  omega

/-! ## The regions -/

/-- `PROT_RX_RX`. -/
def protRxRx : U64 := writeAttrs { ap := 3 }

/-- `PROT_RW_RWX`. -/
def protRwRwx : U64 := writeAttrs { ap := 1 }

/-- `PROT_RW_RW`. -/
def protRwRw : U64 := writeAttrs { xn := 1, ap := 1 }

/-- `PROT_RW_U`. -/
def protRwU : U64 := writeAttrs { xn := 1, pxn := 1, ap := 0 }

/-- `PROT_MEMTYPE_DEVICE`. -/
def protMemtypeDevice : U64 := writeAttrs { attr := 0 }

/-- `PROT_MEMTYPE_NORMAL`. -/
def protMemtypeNormal : U64 := writeAttrs { attr := 3 }

/-- `STACK_MMAP_THREAD_TOP_EL0`. -/
def stackMmapThreadTopEl0 (cpu : Nat) : U64 :=
  stackMmapBase + BitVec.ofNat 64 (1 + cpu) * 2 * stackSize - stackSize

/-- `STACK_MMAP_THREAD_TOP_EL1`. -/
def stackMmapThreadTopEl1 (cpu : Nat) : U64 := stackMmapBase + BitVec.ofNat 64 (1 + cpu) * 2 * stackSize

/-- `STACK_MMAP_THREAD_BOT_EL0`. -/
def stackMmapThreadBotEl0 (cpu : Nat) : U64 := stackMmapThreadTopEl0 cpu - stackSize

/-- `STACK_MMAP_THREAD_BOT_EL1`. -/
def stackMmapThreadBotEl1 (cpu : Nat) : U64 := stackMmapThreadTopEl1 cpu - stackSize

/-- `VTABLE_MMAP_BASE`. -/
def vtableMmapBase : U64 := 17 * GiB

/-- `THR_VTABLE_PA`. `vector_base_pa` is the address of the first vector table. -/
def thrVtablePa (cpu : Nat) : U64 := b.vectorTable + 4096 * BitVec.ofNat 64 cpu

/-- `THR_VTABLE_VA`, with page tables. -/
def thrVtableVa (cpu : Nat) : U64 := vtableMmapBase + 4096 * BitVec.ofNat 64 cpu

/-- The stacks of the memory. -/
def stackArea : StackArea where
  botOfStackPa := b.layout.botOfStackPa
  fits := by
    have := b.stack_low
    omega

/-- A slot that is not set. -/
def unset : VMRegionSlot := { valid := 0, region := { vaStart := 0, vaEnd := 0, memattr := 0, prot := 0 } }

/-- The map of `__vm_alloc_shared_2g_region`. -/
def sharedMap : VMRegions
  | .mmapIo => ⟨1, { vaStart := b.botOfIo, vaEnd := b.topOfIo, memattr := protMemtypeDevice, prot := protRwRw }⟩
  | .text => ⟨1, { vaStart := b.beginText, vaEnd := b.endText, memattr := protMemtypeNormal, prot := protRxRx }⟩
  | .data => ⟨1, { vaStart := b.beginData, vaEnd := b.endData, memattr := protMemtypeNormal, prot := protRwRwx }⟩
  | .stack => ⟨1, {
      vaStart := b.layout.botOfStackPa, vaEnd := b.layout.topOfStackPa, memattr := protMemtypeNormal,
      prot := protRwRwx }⟩
  | .heap => ⟨1, {
      vaStart := b.layout.botOfHeap, vaEnd := b.layout.topOfHeap, memattr := protMemtypeNormal, prot := protRwRwx }⟩
  | .ptables => ⟨1, {
      vaStart := b.layout.botOfPtables, vaEnd := b.layout.topOfPtables, memattr := protMemtypeNormal,
      prot := protRwRwx }⟩
  | _ => unset

/-- The map of `__vm_alloc_base_map`. -/
def extraUniversal : VMRegions
  | .testdata => ⟨1, {
      vaStart := b.layout.botOfTestdata, vaEnd := b.layout.topOfTestdata, memattr := protMemtypeNormal,
      prot := protRwRwx }⟩
  | _ => unset

/-- The map of `__vmm_alloc_table` for a test. -/
def testMap : VMRegions
  | .mmapStackEl0 => ⟨1, {
      vaStart := stackMmapBase, vaEnd := stackMmapBase + 1 * GiB, memattr := protMemtypeNormal, prot := protRwRw,
      paStart := b.layout.botOfStackPa }⟩
  | .mmapVtable => ⟨1, {
      vaStart := vtableMmapBase, vaEnd := vtableMmapBase + 4 * noCpus * 1024, memattr := protMemtypeNormal,
      prot := protRwRw, paStart := b.vectorTable }⟩
  | _ => unset

/-- The map of `__vmm_alloc_table` for a CPU. -/
def perThreadData (cpu : Nat) : VMRegions
  | .mmapStackEl0 => ⟨1, {
      vaStart := stackMmapThreadBotEl0 cpu, vaEnd := stackMmapThreadTopEl0 cpu, memattr := protMemtypeNormal,
      prot := protRwRw, paStart := b.stackArea.threadBot cpu 0 }⟩
  | .mmapStackEl1 => ⟨1, {
      vaStart := stackMmapThreadBotEl1 cpu, vaEnd := stackMmapThreadTopEl1 cpu, memattr := protMemtypeNormal,
      prot := protRwU, paStart := b.stackArea.threadBot cpu 1 }⟩
  | .mmapVtable => ⟨1, {
      vaStart := thrVtableVa cpu, vaEnd := thrVtableVa cpu + 4096, memattr := protMemtypeNormal, prot := protRwRw,
      paStart := b.thrVtablePa cpu }⟩
  | _ => unset

/-- The map of all of the memory, from 64 GiB on. -/
def harnessMap : VMRegions
  | .mmapHarness => ⟨1, {
      vaStart := harnessMmapBase, vaEnd := harnessMmapBase + b.totalMem, memattr := protMemtypeNormal,
      prot := protRwRwx, paStart := b.layout.botOfMem }⟩
  | _ => unset

/-! ## Making a table -/

/-- `__vm_alloc_base_map`, with `__vm_alloc_shared_2g_region`. -/
def vmAllocBaseMap (s : VmmState) : Except String (U64 × VmmState) := do
  let (root, s) ← zallocPtable b.layout.topOfPtables s
  let s ← (updateTableFromVmregionMap b.layout.topOfPtables root b.sharedMap s).2
  let s ← (updateTableFromVmregionMap b.layout.topOfPtables root b.extraUniversal s).2
  return (root, s)

/-- `__vmm_alloc_table`. -/
def vmmAllocTable (isTest : Bool) (cpu : Nat) (s : VmmState) : Except String (U64 × VmmState) := do
  let (root, s) ← b.vmAllocBaseMap s
  let map := if isTest then b.testMap else b.perThreadData cpu
  let s ← (updateTableFromVmregionMap b.layout.topOfPtables root map s).2
  let s ← (updateTableFromVmregionMap b.layout.topOfPtables root b.harnessMap s).2
  return (root, s)

/-- `vmm_alloc_new_4k_pgtable`. -/
def vmmAllocNew4kPgtable (cpu : Nat) (s : VmmState) : Except String (U64 × VmmState) := b.vmmAllocTable false cpu s

/-- `vmm_alloc_new_test_pgtable`. -/
def vmmAllocNewTestPgtable (cpu : Nat) (s : VmmState) : Except String (U64 × VmmState) := b.vmmAllocTable true cpu s

/-! ## The regions of a table -/

/-- The regions that every table has. -/
def baseRegions : List VMRegion :=
  (b.sharedMap.valid.map fun i => (b.sharedMap i).region) ++
    b.extraUniversal.valid.map fun i => (b.extraUniversal i).region

/-- The regions of a table. -/
def regions (isTest : Bool) (cpu : Nat) : List VMRegion :=
  let map := if isTest then b.testMap else b.perThreadData cpu
  b.baseRegions ++ (map.valid.map fun i => (map i).region) ++ b.harnessMap.valid.map fun i => (b.harnessMap i).region

example : b.sharedMap.valid = [.mmapIo, .text, .data, .stack, .heap, .ptables] := rfl
example : b.extraUniversal.valid = [.testdata] := rfl
example : b.testMap.valid = [.mmapStackEl0, .mmapVtable] := rfl
example (cpu : Nat) : (b.perThreadData cpu).valid = [.mmapStackEl0, .mmapStackEl1, .mmapVtable] := rfl

/-! ## The regions are side by side -/

section Apart

variable {cpu : Nat} (hcpu : cpu < 4)

include hcpu in
/-- The windows of a CPU, as numbers. -/
theorem window_toNat : (stackMmapThreadBotEl0 cpu).toNat = 2 ^ 34 + cpu * 2 ^ 22 ∧
    (stackMmapThreadTopEl0 cpu).toNat = 2 ^ 34 + cpu * 2 ^ 22 + 2 ^ 21 ∧
    (stackMmapThreadBotEl1 cpu).toNat = 2 ^ 34 + cpu * 2 ^ 22 + 2 ^ 21 ∧
    (stackMmapThreadTopEl1 cpu).toNat = 2 ^ 34 + cpu * 2 ^ 22 + 2 ^ 22 ∧
    (thrVtableVa cpu).toNat = 17 * 2 ^ 30 + cpu * 4096 := by
  interval_cases cpu <;> decide

include hcpu in
theorem thrVtablePa_toNat : (b.thrVtablePa cpu).toNat = b.vectorTable.toNat + cpu * 4096 := by
  have h₁ := b.vector_end
  have h₂ := b.stack_low
  have hmul : (4096 * BitVec.ofNat 64 cpu).toNat = cpu * 4096 := by
    rw [BitVec.toNat_mul, BitVec.toNat_ofNat, show (4096 : U64).toNat = 4096 from rfl]
    omega
  rw [thrVtablePa, BitVec.toNat_add, hmul]
  omega

/-- The device registers, as numbers. -/
theorem io_toNat : b.botOfIo.toNat = b.ioRegion.base.toNat / 4096 * 4096 ∧
    b.topOfIo.toNat = (b.ioRegion.top.toNat + 4095) / 4096 * 4096 := by
  have h₁ := b.stack_low
  have h₂ := b.io_apart
  have h₃ := b.vector_start
  have h₄ := b.vector_end
  exact ⟨toNat_alignTo _ (by decide), toNat_alignUp _ (by decide) (by omega)⟩

theorem io_low : b.topOfIo.toNat ≤ 2 ^ 34 := by
  have h₁ := b.stack_low
  have h₂ := b.io_apart
  have h₃ := b.vector_start
  have h₄ := b.vector_end
  have h₅ := b.io_toNat
  omega

/-- The region of the device registers. -/
def ioRegionOf : VMRegion := (b.sharedMap .mmapIo).region

/-- The other regions of a table. -/
def memRegions (isTest : Bool) (cpu : Nat) : List VMRegion := (b.regions isTest cpu).tail

theorem regions_eq (isTest : Bool) (cpu : Nat) : b.regions isTest cpu = b.ioRegionOf :: b.memRegions isTest cpu := by
  cases isTest <;> rfl

include hcpu in
/-- Behind the device registers the regions are in order. -/
theorem memRegions_chain (isTest : Bool) : (b.memRegions isTest cpu).IsChain VMRegion.Before := by
  obtain ⟨heap, ptables, hheap, hptables, -, -, hstack, -, htopStack, hbotHeap, htopHeap, hbotPtables, htopPtables,
    hbotData, -, htopData, htop, -⟩ := b.layout_toNat
  obtain ⟨hw₀, hw₁, hw₂, hw₃, hw₄⟩ := window_toNat hcpu
  have h₁ := b.mem_top
  have h₂ := b.vector_start
  have h₃ := b.vector_end
  have h₄ := b.text_data
  have h₅ := b.data_le
  have h₆ := b.data_sections
  have hharness : (harnessMmapBase + b.totalMem).toNat = 2 ^ 36 + b.memRegion.size.toNat := by
    rw [BitVec.toNat_add, show harnessMmapBase.toNat = 2 ^ 36 from rfl, totalMem]
    omega
  have hbase : stackMmapBase.toNat = 2 ^ 34 := rfl
  cases isTest with
  | false =>
    show List.IsChain VMRegion.Before [(b.sharedMap .text).region, (b.sharedMap .data).region,
      (b.sharedMap .stack).region, (b.sharedMap .heap).region, (b.sharedMap .ptables).region,
      (b.extraUniversal .testdata).region, (b.perThreadData cpu .mmapStackEl0).region,
      (b.perThreadData cpu .mmapStackEl1).region, (b.perThreadData cpu .mmapVtable).region,
      (b.harnessMap .mmapHarness).region]
    have hvtable : (thrVtableVa cpu + 4096).toNat = 17 * 2 ^ 30 + cpu * 4096 + 4096 := by
      rw [BitVec.toNat_add, hw₄, show (4096 : U64).toNat = 4096 from rfl]
      omega
    simp only [List.isChain_cons_cons, List.isChain_singleton, and_true, VMRegion.Before, sharedMap, extraUniversal,
      perThreadData, harnessMap, hharness, hvtable, hw₀, hw₁, hw₂, hw₃, hw₄,
      show harnessMmapBase.toNat = 2 ^ 36 from rfl]
    omega
  | true =>
    show List.IsChain VMRegion.Before [(b.sharedMap .text).region, (b.sharedMap .data).region,
      (b.sharedMap .stack).region, (b.sharedMap .heap).region, (b.sharedMap .ptables).region,
      (b.extraUniversal .testdata).region, (b.testMap .mmapStackEl0).region, (b.testMap .mmapVtable).region,
      (b.harnessMap .mmapHarness).region]
    simp only [List.isChain_cons_cons, List.isChain_singleton, and_true, VMRegion.Before, sharedMap, extraUniversal,
      testMap, harnessMap, hharness, hbase, show harnessMmapBase.toNat = 2 ^ 36 from rfl,
      show (stackMmapBase + 1 * GiB).toNat = 17 * 2 ^ 30 from rfl, show vtableMmapBase.toNat = 17 * 2 ^ 30 from rfl,
      show (vtableMmapBase + 4 * noCpus * 1024).toNat = 17 * 2 ^ 30 + 2 ^ 14 from rfl]
    omega

include hcpu in
/-- The regions behind the device registers are in the memory from the text on, or from 16 GiB on. -/
theorem memRegions_low (isTest : Bool) : ∀ reg ∈ b.memRegions isTest cpu, b.beginText.toNat ≤ reg.vaStart.toNat ∧
    (reg.vaEnd.toNat ≤ b.memRegion.base.toNat + b.memRegion.size.toNat ∨ 2 ^ 34 ≤ reg.vaStart.toNat) := by
  obtain ⟨heap, ptables, -, -, -, -, hstack, -, htopStack, hbotHeap, htopHeap, hbotPtables, htopPtables, hbotData, -,
    htopData, htop, -⟩ := b.layout_toNat
  obtain ⟨hw₀, -, hw₂, -, hw₄⟩ := window_toNat hcpu
  have h₁ := b.mem_top
  have h₂ := b.vector_start
  have h₃ := b.vector_end
  have h₄ := b.text_data
  have h₅ := b.data_le
  have h₆ := b.data_sections
  have hbase : stackMmapBase.toNat = 2 ^ 34 := rfl
  have hvtable : vtableMmapBase.toNat = 17 * 2 ^ 30 := rfl
  have hharness : harnessMmapBase.toNat = 2 ^ 36 := rfl
  cases isTest with
  | false =>
    show ∀ reg ∈ [(b.sharedMap .text).region, (b.sharedMap .data).region, (b.sharedMap .stack).region,
      (b.sharedMap .heap).region, (b.sharedMap .ptables).region, (b.extraUniversal .testdata).region,
      (b.perThreadData cpu .mmapStackEl0).region, (b.perThreadData cpu .mmapStackEl1).region,
      (b.perThreadData cpu .mmapVtable).region, (b.harnessMap .mmapHarness).region], _
    simp only [List.forall_mem_cons, List.not_mem_nil, false_implies, implies_true, and_true, sharedMap, extraUniversal,
      perThreadData, harnessMap]
    omega
  | true =>
    show ∀ reg ∈ [(b.sharedMap .text).region, (b.sharedMap .data).region, (b.sharedMap .stack).region,
      (b.sharedMap .heap).region, (b.sharedMap .ptables).region, (b.extraUniversal .testdata).region,
      (b.testMap .mmapStackEl0).region, (b.testMap .mmapVtable).region, (b.harnessMap .mmapHarness).region], _
    simp only [List.forall_mem_cons, List.not_mem_nil, false_implies, implies_true, and_true, sharedMap, extraUniversal,
      testMap, harnessMap]
    omega

include hcpu in
/-- **The regions of a table have no address in common.** -/
theorem regions_apart (isTest : Bool) : (b.regions isTest cpu).Pairwise VMRegion.Apart := by
  have hchain := b.memRegions_chain hcpu isTest
  rw [b.regions_eq, List.pairwise_cons]
  refine ⟨fun reg hreg x hx hx' => ?_, apart_of_chain hchain⟩
  obtain ⟨hbot, htop⟩ := b.io_toNat
  obtain ⟨_, _, hl⟩ := b.layout_toNat
  have hx : b.botOfIo.toNat ≤ x ∧ x < b.topOfIo.toNat := hx
  have hlow := b.memRegions_low hcpu isTest reg hreg
  have h₁ := b.text_start
  have h₂ := b.mem_base
  have h₃ := b.mem_size
  have h₄ := hx'.1
  have h₅ := hx'.2
  rcases b.io_apart with hbelow | ⟨habove, hle⟩
  · omega
  · omega

end Apart

/-! ## The regions can be mapped -/

/-- A region of pages with low addresses. -/
theorem regionFits_of_low {vaStart vaEnd memattr prot paStart : U64} (hle : vaStart.toNat ≤ vaEnd.toNat)
    (hstart : vaStart.toNat % 4096 = 0) (hlast : vaEnd.toNat % 4096 = 0) (hpa : paStart.toNat % 4096 = 0)
    (hvirt : vaEnd.toNat < 2 ^ 47) (hphys : paStart.toNat ≤ 2 ^ 47) (hnT : (memattr ||| prot).getLsbD 16 = false) :
    RegionFits ⟨vaStart, vaEnd, memattr, prot, paStart⟩ := by
  have hpa' : (VMRegion.mk vaStart vaEnd memattr prot paStart).pa.toNat ≤ 2 ^ 47 := by
    unfold VMRegion.pa
    split
    · exact hphys
    · exact hle.trans hvirt.le
  exact ⟨⟨hle, by dsimp only; omega, hstart, hlast, hpa⟩, by dsimp only; omega, by dsimp only; omega, hnT⟩

theorem unset_fits : RegionFits unset.region :=
  regionFits_of_low (Nat.le_refl _) rfl rfl rfl (by decide) (by decide) (by decide)

theorem sharedMap_fits (i : VMRegionTag) : RegionFits (b.sharedMap i).region := by
  obtain ⟨_, _, hheap, hptables, hheap', hptables', hstack, hstack', htopStack, hbotHeap, htopHeap, hbotPtables,
    htopPtables, hbotData, -, htopData, htop, -⟩ := b.layout_toNat
  obtain ⟨hbot, htop'⟩ := b.io_toNat
  have h₁ := b.mem_top
  have h₂ := b.vector_start
  have h₃ := b.vector_end
  have h₄ := b.text_data
  have h₅ := b.data_le
  have h₆ := b.data_sections
  have h₇ := b.io_le
  have h₈ := b.io_apart
  cases i with
  | mmapIo => exact regionFits_of_low (by omega) (by omega) (by omega) rfl (by omega) (Nat.zero_le _) (by decide)
  | text => exact regionFits_of_low (by omega) b.text_start b.text_end rfl (by omega) (Nat.zero_le _) (by decide)
  | data => exact regionFits_of_low b.data_le b.data_start b.data_end rfl (by omega) (Nat.zero_le _) (by decide)
  | stack => exact regionFits_of_low (by omega) (by omega) (by omega) rfl (by omega) (Nat.zero_le _) (by decide)
  | heap => exact regionFits_of_low (by omega) (by omega) (by omega) rfl (by omega) (Nat.zero_le _) (by decide)
  | ptables => exact regionFits_of_low (by omega) (by omega) (by omega) rfl (by omega) (Nat.zero_le _) (by decide)
  | _ => exact unset_fits

theorem extraUniversal_fits (i : VMRegionTag) : RegionFits (b.extraUniversal i).region := by
  obtain ⟨_, _, -, -, -, -, -, -, -, -, -, -, -, -, hbotData, hle, htopData, -⟩ := b.layout_toNat
  have h₁ := b.mem_top
  have h₂ := b.mem_base
  have h₃ := b.mem_size
  cases i with
  | testdata => exact regionFits_of_low hle (by omega) (by omega) rfl (by omega) (Nat.zero_le _) (by decide)
  | _ => exact unset_fits

theorem testMap_fits (i : VMRegionTag) : RegionFits (b.testMap i).region := by
  have h₁ := b.vector_end
  have h₂ := b.stack_low
  cases i with
  | mmapStackEl0 => exact regionFits_of_low (by decide) rfl rfl (by omega) (by decide) (by omega) (by decide)
  | mmapVtable => exact regionFits_of_low (by decide) rfl rfl b.vector_aligned (by decide) (by omega) (by decide)
  | _ => exact unset_fits

theorem harnessMap_fits (i : VMRegionTag) : RegionFits (b.harnessMap i).region := by
  have h₁ := b.mem_top
  have h₂ := b.mem_base
  have h₃ := b.mem_size
  have hbase : harnessMmapBase.toNat = 2 ^ 36 := rfl
  have hbot : b.layout.botOfMem.toNat = b.memRegion.base.toNat := rfl
  have htop : (harnessMmapBase + b.totalMem).toNat = 2 ^ 36 + b.memRegion.size.toNat := by
    rw [BitVec.toNat_add, hbase, totalMem]
    omega
  cases i with
  | mmapHarness => exact regionFits_of_low (by omega) rfl (by omega) h₂ (by omega) (by omega) (by decide)
  | _ => exact unset_fits

theorem perThreadData_fits {cpu : Nat} (hcpu : cpu < 4) (i : VMRegionTag) :
    RegionFits (b.perThreadData cpu i).region := by
  obtain ⟨hw₀, hw₁, hw₂, hw₃, hw₄⟩ := window_toNat hcpu
  have hcpu' : cpu < noCpus.toNat := hcpu
  have h₁ := b.vector_end
  have h₂ := b.stack_low
  have h₃ : b.stackArea.botOfStackPa.toNat = b.layout.botOfStackPa.toNat := rfl
  have h₄ := b.vector_aligned
  have hpa := b.thrVtablePa_toNat hcpu
  have hbot₀ := b.stackArea.toNat_threadBot hcpu' (show 0 < 2 by decide)
  have hbot₁ := b.stackArea.toNat_threadBot hcpu' (show 1 < 2 by decide)
  have hvtable : (thrVtableVa cpu + 4096).toNat = 17 * 2 ^ 30 + cpu * 4096 + 4096 := by
    rw [BitVec.toNat_add, hw₄, show (4096 : U64).toNat = 4096 from rfl]
    omega
  cases i with
  | mmapStackEl0 =>
    exact regionFits_of_low (by omega) (by omega) (by omega) (by omega) (by omega) (by omega) (by decide)
  | mmapStackEl1 =>
    exact regionFits_of_low (by omega) (by omega) (by omega) (by omega) (by omega) (by omega) (by decide)
  | mmapVtable =>
    exact regionFits_of_low (by omega) (by omega) (by omega) (by omega) (by omega) (by omega) (by decide)
  | _ => exact unset_fits

theorem map_fits {cpu : Nat} (hcpu : cpu < 4) (isTest : Bool) (i : VMRegionTag) :
    RegionFits ((if isTest then b.testMap else b.perThreadData cpu) i).region := by
  cases isTest with
  | false => exact b.perThreadData_fits hcpu i
  | true => exact b.testMap_fits i

/-! ## The new table -/

section New

/-- The result satisfies `P`, or there are no more pages for tables. -/
def OkOrFull {α : Type} (P : α → Prop) (x : Except String α) : Prop :=
  (∀ a, x = .ok a → P a) ∧ ∀ e, x = .error e → e = outOfPtables

theorem OkOrFull.bind {α β : Type} {P : α → Prop} {Q : β → Prop} {x : Except String α} {f : α → Except String β}
    (h : OkOrFull P x) (hf : ∀ a, P a → OkOrFull Q (f a)) : OkOrFull Q (x >>= f) := by
  refine ⟨fun b hb => ?_, fun e he => ?_⟩
  · obtain ⟨a, ha, hb⟩ := Loop.bind_ok hb
    exact (hf a (h.1 a ha)).1 b hb
  · rcases Loop.bind_error he with he | ⟨a, ha, he⟩
    · exact h.2 e he
    · exact (hf a (h.1 a ha)).2 e he

theorem OkOrFull.pure {α : Type} {P : α → Prop} {a : α} (h : P a) : OkOrFull P (.ok a) :=
  ⟨fun _ ha => by cases ha; exact h, fun _ he => by cases he⟩

variable {lo cpu : Nat} {top root : U64} {map : VMRegions} {regs : List VMRegion} {s s₀ : VmmState} {isTest : Bool}

/-- A call of `update_table_from_vmregion_map` beside what is mapped. -/
theorem update_built (hB : Built lo top root regs s₀ s) (hfits : ∀ i, RegionFits (map i).region)
    (hapart : (regs ++ map.valid.map fun i => (map i).region).Pairwise VMRegion.Apart) :
    OkOrFull (Built lo top root (regs ++ map.valid.map fun i => (map i).region) s₀)
      (updateTableFromVmregionMap top root map s).2 := by
  rw [updateTableFromVmregionMap_eq]
  exact mapRegions_built hB (fun i _ => hfits i) hapart

theorem zallocPtable_built (hbot : s.ptableBot.toNat % 4096 = 0) (htop : top.toNat % 4096 = 0)
    (h48 : top.toNat ≤ 2 ^ 48) :
    OkOrFull (fun r => r.1 = s.ptableBot ∧ Built r.1.toNat top r.1 [] s r.2) (zallocPtable top s) := by
  refine ⟨fun r h => zallocPtable_new hbot htop h48 h, fun e h => ?_⟩
  unfold zallocPtable at h
  dsimp only at h
  split at h
  · cases h
    rfl
  · cases h

theorem vmAllocBaseMap_built (hbot : s.ptableBot.toNat % 4096 = 0) (hapart : b.baseRegions.Pairwise VMRegion.Apart) :
    OkOrFull (fun r => r.1 = s.ptableBot ∧ Built r.1.toNat b.layout.topOfPtables r.1 b.baseRegions s r.2)
      (b.vmAllocBaseMap s) := by
  obtain ⟨_, _, hheap, hptables, -, -, -, hstack, htopStack, hbotHeap, htopHeap, hbotPtables, htopPtables, hbotData, -,
    htopData, htop, -⟩ := b.layout_toNat
  have hmem := b.mem_top
  refine (zallocPtable_built hbot (by omega) (by omega)).bind fun r hr => ?_
  refine (update_built hr.2 b.sharedMap_fits (hapart.sublist (List.sublist_append_left _ _))).bind fun s₁ h₁ => ?_
  exact (update_built h₁ b.extraUniversal_fits hapart).bind fun s₂ h₂ => .pure ⟨hr.1, h₂⟩

/-- **The new table has the regions of its kind, in new pages of its own.** -/
theorem vmmAllocTable_built (hbot : s.ptableBot.toNat % 4096 = 0) (hcpu : cpu < 4) :
    OkOrFull (fun r => r.1 = s.ptableBot ∧
      Built r.1.toNat b.layout.topOfPtables r.1 (b.regions isTest cpu) s r.2) (b.vmmAllocTable isTest cpu s) := by
  have hapart := b.regions_apart hcpu isTest
  have hmap := hapart.sublist (List.sublist_append_left _ _)
  refine (b.vmAllocBaseMap_built hbot (hmap.sublist (List.sublist_append_left _ _))).bind fun r hr => ?_
  refine (update_built hr.2 (b.map_fits hcpu isTest) hmap).bind fun s₁ h₁ => ?_
  exact (update_built h₁ b.harnessMap_fits hapart).bind fun s₂ h₂ => .pure ⟨hr.1, h₂⟩

end New

end Board

/-- A gigabyte of memory from 1 GiB on, with the device registers below. -/
def exampleBoard : Board where
  memRegion := ramAt1G (1024 * MiB)
  ioRegion := ⟨0x8000000, 0x8000000, 0x10000000, rfl⟩
  beginText := 0x40080000
  endText := 0x400a0000
  beginData := 0x400a0000
  endData := 0x400c0000
  endSections := 0x400c0000
  vectorTable := 0x40090000
  dminline := 4
  mem_base := by decide
  mem_size := by decide
  mem_top := by decide
  mem_sections := by decide
  mem_room := by decide
  text_start := by decide
  text_end := by decide
  text_data := by decide
  data_start := by decide
  data_end := by decide
  data_le := by decide
  data_sections := by decide
  vector_aligned := by decide
  vector_start := by decide
  vector_end := by decide
  io_le := by decide
  io_apart := by decide

end LitmusHarness
