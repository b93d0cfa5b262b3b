import LitmusHarness.Concretization.VarInfo
import LitmusHarness.Runner.LutBounds
import LitmusHarness.Runner.Options
import LitmusHarness.Valloc.Wraps

/-!
# The blocks of a test context: `init_test_ctx`, `free_test_ctx`

`init_test_ctx` allocates ten blocks for the fields of the context, an array of values for each variable and for each
register, and the histogram with a table of its results. The pointers to the arrays are kept in the blocks themselves, and
`free_test_ctx` reads them there again. What else is written to the blocks does not matter and is left out; the statement
is about any such writes.

For a number of runs and a size of the batches that are not negative, the requests are far from 2^64. A negative size is
an array of nearly 2^64 bytes, which is allocated where the sum in `find_best` wraps, and which no `free` ever finds.
-/

namespace LitmusHarness

open Mempool
open Bytes (Mem)

/-! ## The functions of the source -/

/-- What the two functions read of a `litmus_test_t`. The arrays with the names are in memory, with 8 bytes for each. -/
structure CtxTest extends LitmusTest where
  requires : BitVec 32
  noRegs : Nat
  varNames_fit : 8 * heapVarNames.length ≤ 2 ^ 48
  regNames_fit : 8 * noRegs ≤ 2 ^ 48

/-- The fields of `test_ctx_t` for which `init_test_ctx` allocates one block. -/
inductive CtxBlock
  | heapVars
  | outRegs
  | systemState
  | genericCpuBarrier
  | genericVcpuBarrier
  | startBarriers
  | shuffledIxs
  | shuffledIxsInverse
  | affinity
  | ptables
  deriving DecidableEq, Repr

/-- The size of an element. -/
def CtxBlock.elemSize : CtxBlock → U64
  | .heapVars => 120
  | .systemState => 16
  | .genericCpuBarrier | .genericVcpuBarrier | .startBarriers => 24
  | .affinity => 4
  | .outRegs | .shuffledIxs | .shuffledIxsInverse | .ptables => 8

/-- The number of elements. -/
def CtxBlock.count (cfg : CtxTest) (noRuns runsInBatch : BitVec 32) : CtxBlock → U64
  | .heapVars => BitVec.ofNat 64 cfg.heapVarNames.length
  | .outRegs => BitVec.ofNat 64 cfg.noRegs
  | .systemState | .genericCpuBarrier | .genericVcpuBarrier => 1
  | .startBarriers => intToU64 runsInBatch
  | .shuffledIxs | .shuffledIxsInverse => intToU64 noRuns
  | .affinity => noCpus
  | .ptables => noPtables runsInBatch

/-- The order in which `init_test_ctx` allocates them. -/
def CtxBlock.allocOrder : List CtxBlock :=
  [.heapVars, .outRegs, .systemState, .genericCpuBarrier, .genericVcpuBarrier, .startBarriers, .shuffledIxs,
    .shuffledIxsInverse, .affinity, .ptables]

/-- The order in which `free_test_ctx` frees them. -/
def CtxBlock.freeOrder : List CtxBlock :=
  [.affinity, .shuffledIxsInverse, .shuffledIxs, .startBarriers, .genericCpuBarrier, .genericVcpuBarrier, .ptables,
    .outRegs, .systemState, .heapVars]

/-- The pointers of `test_ctx_t`. -/
structure CtxPtrs where
  block : CtxBlock → U64
  hist : U64

/-- The address of `heap_vars[0].values`; the next one is `sizeof(var_info_t)` bytes away. -/
def CtxPtrs.valuesAt (block : CtxBlock → U64) : Nat := (block .heapVars).toNat + 112

/-- The address of `hist->limit`. -/
def limitAt (hist : U64) : Nat := hist.toNat + 8

/-- The address of `hist->lut`. -/
def lutAt (hist : U64) : Nat := hist.toNat + 16

/-- The address of `hist->results[0]`, behind the `sizeof(test_hist_t)` bytes in front. -/
def resultsAt (hist : U64) : Nat := hist.toNat + 24

/-- How `init_test_ctx` stops. -/
inductive CtxFault
  /-- `fail` or `abort` -/
  | rejected (msg : String)
  /-- a name of the initial state that no variable has -/
  | outOfBounds
  /-- the loops that fill the arrays of all runs, for more runs than the address space has -/
  | leavesMemory
  /-- a loop of the allocator that goes on -/
  | loop
  deriving DecidableEq, Repr

/-- A call of the allocator that may fail. -/
def orFail {α : Type} : VallocResult α → Except CtxFault α
  | .ok a => .ok a
  | .error (.loop, _) => .error .loop
  | .error (e, _) => .error (.rejected e.msg)

/-- `ALLOC_MANY(ty, count)`, for a type of `elemSize` bytes. -/
def allocMany (area : HeapArea) (elemSize count : U64) (m : Mempool) : VallocResult (Mempool × U64) :=
  m.allocWithAlignment area (elemSize * count) elemSize

section Init

variable (area : HeapArea) (cfg : CtxTest) (noRuns runsInBatch : BitVec 32)

/-- The allocations for the fields. -/
def allocBlocks (l : List CtxBlock) (s : Mempool × (CtxBlock → U64)) : VallocResult (Mempool × (CtxBlock → U64)) :=
  l.foldlM (fun s b => do
    let (m, p) ← allocMany area b.elemSize (b.count cfg noRuns runsInBatch) s.1
    return (m, Function.update s.2 b p)) s

/-- `ALLOC_MANY(u64, no_runs)`, for a variable or a register. -/
def allocRuns (m : Mempool) : VallocResult (Mempool × U64) := allocMany area 8 (intToU64 noRuns) m

/-- `sanity_check_test`. -/
def checkTest : Except CtxFault Unit :=
  match sanityCheckTest cfg.requires noRuns runsInBatch with
  | .error msg => .error (.rejected msg)
  | .ok () => .ok ()

/-- The result of `read_var_infos`, for the check only. -/
def checkVarInfos : Except CtxFault Unit :=
  match readVarInfos cfg.toLitmusTest {} with
  | .error (.fail msg) => .error (.rejected msg)
  | .error .outOfBounds => .error .outOfBounds
  | .ok _ => .ok ()

/-- The loops that fill the arrays write an entry of 8 bytes for each run, up to the number of runs as a `u64`. -/
def checkRuns : Except CtxFault Unit :=
  if 2 ^ 64 ≤ (intToU64 noRuns).toNat * 8 then .error .leavesMemory else .ok ()

/-- The histogram: `hist`, `hist->limit`, `hist->lut`, and a block for each of `hist->results`. -/
def allocHist (m : Mempool) : VallocResult (Mempool × U64) := do
  let (m, hist) ← m.alloc area (24 + 16 * BitVec.ofNat 64 histLimit)
  let m := m.store (limitAt hist) (BitVec.ofNat 64 histLimit)
  let (m, lut) ← allocMany area 8 (Bytes.load64 m.heap (limitAt hist)) m
  let m := m.store (lutAt hist) lut
  let m ← m.allocTable (alloc area · (16 + 8 * BitVec.ofNat 64 cfg.noRegs)) (resultsAt hist) 8
    (Bytes.load64 m.heap (limitAt hist)).toNat
  return (m, hist)

/-- `init_test_ctx`. -/
def initTestCtx (m : Mempool) : Except CtxFault (Mempool × CtxPtrs) := do
  checkTest cfg noRuns runsInBatch
  let (m, block) ← orFail (allocBlocks area cfg noRuns runsInBatch CtxBlock.allocOrder (m, fun _ => 0))
  let m ← orFail (m.allocTable (allocRuns area noRuns) (CtxPtrs.valuesAt block) 120 cfg.heapVarNames.length)
  checkVarInfos cfg
  let m ← orFail (m.allocTable (allocRuns area noRuns) (block .outRegs).toNat 8 cfg.noRegs)
  checkRuns noRuns
  let (m, hist) ← orFail (allocHist area cfg m)
  return (m, ⟨block, hist⟩)

end Init

/-- `free_test_ctx`, with the addresses that are freed. -/
def freeTestCtx (area : HeapArea) (cfg : CtxTest) (ctx : CtxPtrs) (m : Mempool) : VallocResult (Mempool × List U64) := do
  let s ← freeTable area (resultsAt ctx.hist) 8 (Bytes.load64 m.heap (limitAt ctx.hist)).toNat (m, [])
  let s ← freeBlock area (Bytes.load64 s.1.heap (lutAt ctx.hist)) s
  let s ← freeBlock area ctx.hist s
  let s ← freeTable area (ctx.block .outRegs).toNat 8 cfg.noRegs s
  let s ← freeTable area (CtxPtrs.valuesAt ctx.block) 120 cfg.heapVarNames.length s
  (CtxBlock.freeOrder.map ctx.block).foldlM (fun s p => freeBlock area p s) s

/-! ## What should hold -/

/-- The words in which the blocks keep pointers, and `hist->limit`. -/
def CtxPtrs.words (cfg : CtxTest) (ctx : CtxPtrs) : List Nat :=
  limitAt ctx.hist :: lutAt ctx.hist :: (List.range histLimit).map (resultsAt ctx.hist + · * 8) ++
    (List.range cfg.noRegs).map ((ctx.block .outRegs).toNat + · * 8) ++
    (List.range cfg.heapVarNames.length).map (CtxPtrs.valuesAt ctx.block + · * 120)

/-- Something is written to the blocks, but not to these words. -/
def DataWrite (m : Mempool) (words : List Nat) (heap : Mem) : Prop :=
  ∀ x, heap x ≠ m.heap x → (∃ start size, m.Live start size ∧ start.toNat ≤ x ∧ x < start.toNat + size.toNat) ∧
    ∀ a ∈ words, ¬(a ≤ x ∧ x < a + 8)

section Leak

variable (area : HeapArea) (m : Mempool) (cfg : CtxTest) (noRuns runsInBatch : BitVec 32)

/-- The initial state of the test can be read, and neither a check nor an allocation fails. -/
def CtxAccepted : Prop :=
  checkVarInfos cfg = .ok () ∧ ∀ msg, initTestCtx area cfg noRuns runsInBatch m ≠ .error (.rejected msg)

/-- Whatever is written to the blocks of a context, when they are freed, the heap has the blocks that it had before, and
each of the others was freed once. -/
def NoLeak : Prop :=
  ∃ m₁ ctx, initTestCtx area cfg noRuns runsInBatch m = .ok (m₁, ctx) ∧ ∀ heap, DataWrite m₁ (ctx.words cfg) heap →
    ∃ m₂ freed, freeTestCtx area cfg ctx { m₁ with heap := heap } = .ok (m₂, freed) ∧
      (∀ start size, m₂.Live start size ↔ m.Live start size) ∧
      freed.Nodup ∧ ∀ p, p ∈ freed ↔ ∃ size, m₁.Live p size ∧ ¬m.Live p size

end Leak

/-! ## Requests -/

variable {area : HeapArea} {cfg : CtxTest} {noRuns runsInBatch : BitVec 32}

theorem alignmentRequest_bounds (size alignment : U64) : size.toNat ≤ (alignmentRequest size alignment).1.toNat ∧
    (alignmentRequest size alignment).1.toNat ≤ size.toNat + 32 ∧ 0 < (alignmentRequest size alignment).2.toNat ∧
    (alignmentRequest size alignment).2.toNat ≤ alignment.toNat + 64 := by
  have h32 : (32#64).toNat = 32 := rfl
  have h64 : (nextLargestPow2 sizeofAllocChunk).toNat = 64 := by decide
  have halign : ∀ a : U64, 0 < (if a < sizeofAllocChunk then nextLargestPow2 sizeofAllocChunk else a).toNat ∧
      (if a < sizeofAllocChunk then nextLargestPow2 sizeofAllocChunk else a).toNat ≤ a.toNat + 64 := by
    intro a
    split
    · omega
    · rename_i hlt
      rw [BitVec.lt_def, show sizeofAllocChunk.toNat = 32 from rfl] at hlt
      omega
  unfold alignmentRequest
  rw [nextLargestPow2_sizeofFreeChunk]
  by_cases hlt : size < sizeofFreeChunk
  · simp only [hlt, if_true]
    rw [lt_sizeofFreeChunk] at hlt
    exact ⟨by omega, by omega, (halign 8).1, h64.le.trans (Nat.le_add_left _ _)⟩
  · simp only [hlt, if_false]
    exact ⟨Nat.le_refl _, Nat.le_add_right _ _, halign alignment⟩

/-- `ALLOC_MANY` of less than 2^64 bytes by some distance. -/
theorem allocMany_allocates {e n : U64} (he : e.toNat ≤ 120) (h : (e * n).toNat < 2 ^ 64 - 512) :
    Allocates area (e * n).toNat (allocMany area e n) := by
  obtain ⟨h1, h2, h3, h4⟩ := alignmentRequest_bounds (e * n) e
  exact (allocZeroed_allocates (alignmentRequest_size _ _) fun m => fits_of_lt h3 (by omega)).mono h1

/-- `ALLOC_SIZED`, as long as the size can be rounded. -/
theorem alloc_allocates {size : U64} (h : size.toNat < 2 ^ 62) : Allocates area size.toNat (alloc area · size) := by
  obtain ⟨h1, h2⟩ := nextLargestPow2_bounds (show size.toNat < 2 ^ 63 by omega)
  obtain ⟨s, hs, h3, h4⟩ : ∃ s : U64, (if isPow2 size then size else nextLargestPow2 size) = s ∧
      size.toNat ≤ s.toNat ∧ s.toNat ≤ 2 ^ 63 := by
    refine ⟨_, rfl, ?_⟩
    split <;> omega
  have hmin : (32#64).toNat = 32 := rfl
  have h8 : (8#64).toNat = 8 := rfl
  have hreq : size.toNat ≤ (allocRequest size).1.toNat ∧ (allocRequest size).1.toNat ≤ 2 ^ 63 ∧
      (allocRequest size).2 = 8#64 := by
    rw [allocRequest_eq hs]
    split
    · exact ⟨by dsimp only; omega, by dsimp only; omega, rfl⟩
    · exact ⟨h3, h4, rfl⟩
  refine (allocZeroed_allocates (allocRequest_size size) fun m => fits_of_lt ?_ ?_).mono hreq.1
  · rw [hreq.2.2]
    decide
  · rw [hreq.2.2, h8]
    omega

/-- A product of small numbers. -/
theorem toNat_mul_ofNat {e : U64} {n : Nat} (h : 8 * n ≤ 2 ^ 48) (he : e.toNat ≤ 120) :
    (e * BitVec.ofNat 64 n).toNat = e.toNat * n ∧ e.toNat * n ≤ 2 ^ 52 := by
  have hle : e.toNat * n ≤ 120 * n := Nat.mul_le_mul_right n he
  rw [BitVec.toNat_mul, BitVec.toNat_ofNat, Nat.mod_eq_of_lt (by omega : n < 2 ^ 64), Nat.mod_eq_of_lt (by omega)]
  exact ⟨rfl, by omega⟩

theorem intToU64_mul_lt {e : U64} (he : e.toNat ≤ 120) {n : BitVec 32} (hn : 0 ≤ n.toInt) :
    (e * intToU64 n).toNat < 2 ^ 64 - 512 := by
  obtain ⟨hlt, -⟩ := intToU64_nonneg hn
  have hle : e.toNat * (intToU64 n).toNat ≤ 120 * 2 ^ 31 := Nat.mul_le_mul he (Nat.le_of_lt hlt)
  rw [BitVec.toNat_mul, Nat.mod_eq_of_lt (by omega)]
  omega

/-- One entry more than runs in a batch: at most 2^31 as an `int`. -/
theorem noPtables_mul_lt {n : BitVec 32} (hn : 0 ≤ n.toInt) : (8 * noPtables n).toNat < 2 ^ 64 - 512 := by
  rw [noPtables]
  by_cases hneg : (1 + n).toInt < 0
  · -- the sum wraps, and eight times the number does again
    have hlt := (1 + n).isLt
    have hval : (1 + n).toNat = 2 ^ 31 := by
      have h1 := BitVec.toInt_eq_toNat_cond n
      have h2 := BitVec.toInt_eq_toNat_cond (1 + n)
      have h3 : (1 + n).toNat = (1 + n.toNat) % 2 ^ 32 := BitVec.toNat_add ..
      have := n.isLt
      split at h1 <;> split at h2 <;> omega
    rw [BitVec.toNat_mul, toNat_intToU64, if_pos hneg, hval]
    decide
  · exact intToU64_mul_lt (by decide) (Int.not_lt.mp hneg)

/-- The fields are of moderate sizes, if the numbers are not negative. -/
theorem CtxBlock.size_lt (b : CtxBlock) (hruns : b = .shuffledIxs ∨ b = .shuffledIxsInverse → 0 ≤ noRuns.toInt)
    (hbatch : b = .startBarriers ∨ b = .ptables → 0 ≤ runsInBatch.toInt) :
    (b.elemSize * b.count cfg noRuns runsInBatch).toNat < 2 ^ 64 - 512 := by
  cases b with
  | heapVars =>
    obtain ⟨h1, h2⟩ := @toNat_mul_ofNat 120 _ cfg.varNames_fit (by decide)
    rw [elemSize, count, h1]
    omega
  | outRegs =>
    obtain ⟨h1, h2⟩ := @toNat_mul_ofNat 8 _ cfg.regNames_fit (by decide)
    rw [elemSize, count, h1]
    omega
  | systemState => exact (by decide : (16#64 * 1#64).toNat < 2 ^ 64 - 512)
  | genericCpuBarrier => exact (by decide : (24#64 * 1#64).toNat < 2 ^ 64 - 512)
  | genericVcpuBarrier => exact (by decide : (24#64 * 1#64).toNat < 2 ^ 64 - 512)
  | affinity => exact (by decide : (4#64 * noCpus).toNat < 2 ^ 64 - 512)
  | startBarriers => exact intToU64_mul_lt (by decide) (hbatch (.inl rfl))
  | ptables => exact noPtables_mul_lt (hbatch (.inr rfl))
  | shuffledIxs => exact intToU64_mul_lt (by decide) (hruns (.inl rfl))
  | shuffledIxsInverse => exact intToU64_mul_lt (by decide) (hruns (.inr rfl))

theorem CtxBlock.mem_allocOrder (b : CtxBlock) : b ∈ CtxBlock.allocOrder := by
  cases b <;> decide

theorem CtxBlock.elemSize_le (b : CtxBlock) : b.elemSize.toNat ≤ 120 := by
  cases b <;> decide

end LitmusHarness
