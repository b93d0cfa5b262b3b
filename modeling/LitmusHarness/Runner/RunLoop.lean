import LitmusHarness.Runner.TestCtx
import Mathlib.Data.List.Chain
import Mathlib.Data.List.Range

/-!
# The loops of a thread: `run_thread` and `setup_run_data` of `litmus_test.c`

What one CPU does in the loop over the batches, with the counters as the machine has them. Barriers return, and what the
CPUs do to each other's data is not here. The loops have a bound; within a bound above the number of runs a thread ends,
with the batches `[0, B)`, `[B, 2B)` and so on up to the last run (`runThread_eq`), so that it visits all runs in their
order (`runThread_covers`).
-/

namespace LitmusHarness

open Bytes (Mem)

/-! ## The functions of the source -/

/-- The fields of `test_ctx_t` and of the test for the loops. -/
structure ThreadCtx extends TestCtx where
  shuffleType : ShuffleType
  /-- The memory with the tables. -/
  mem : Mem
  batchSize : U64
  noThreads : U64
  noHeapVars : Nat
  /-- `ctx_heap_var_va(ctx, v, i)`, in the batch that starts there. -/
  heapVarVa : U64 → Nat → U64 → U64

/-- `litmus_test_run`. -/
structure LitmusTestRun where
  i : U64
  va : List U64
  outReg : List Nat
  deriving DecidableEq, Repr

/-- The array `runs` of a batch, on the stack. -/
abbrev Runs := Nat → Option LitmusTestRun

/-- What a CPU does for a run count `j`. -/
structure Visit where
  j : U64
  /-- The index of the run in its batch. -/
  bi : BitVec 32
  i : U64
  /-- The start barrier and the data of the test functions, if they are called. -/
  call : Option (Nat × Option LitmusTestRun)
  deriving DecidableEq, Repr

/-- What a CPU does in a batch. -/
structure ThreadBatch where
  startIdx : U64
  endIdx : U64
  vcpu : U64
  runs : Runs
  visits : List Visit

/-- A loop reached its bound. The source has none. -/
inductive LoopBound
  | bound
  deriving DecidableEq, Repr

/-- `for (idx = 0, r = start; r < end; r++, idx++)` with a body on `x`. -/
def forRuns {α : Type} (fuel : Nat) (startIdx endIdx : U64) (body : BitVec 32 → U64 → α → α) (x : α) :
    Except LoopBound (BitVec 32 × U64 × α) :=
  Loop.whileM (fun s => decide (s.2.1 < endIdx)) (fun s => .ok (s.1 + 1, s.2.1 + 1, body s.1 s.2.1 s.2.2)) .bound fuel
    (0, startIdx, x)

namespace ThreadCtx

variable (ctx : ThreadCtx)

/-- `count_to_run_index`, on the tables of the context. -/
def runIndex (r : U64) : U64 := ctx.countToRunIndex ctx.shuffleType ctx.mem r

/-- `setup_run_data`, without the entries of the page tables. -/
def setupRunData (fuel : Nat) (batchStartIdx batchEndIdx : U64) (runs : Runs) : Except LoopBound Runs := do
  let (_, _, runs) ← forRuns fuel batchStartIdx batchEndIdx (fun idx r runs =>
    Function.update runs idx.toNat (some { i := ctx.runIndex r, va := [], outReg := [] })) runs
  let (_, _, runs) ← forRuns fuel batchStartIdx batchEndIdx (fun idx r runs =>
    let i := ctx.runIndex r
    Function.update runs idx.toNat ((runs idx.toNat).map fun run =>
      { run with
        va := (List.range ctx.noHeapVars).map fun v => ctx.heapVarVa batchStartIdx v i
        outReg := ctx.outRegs.map fun a => a + i.toNat * 8 })) runs
  .ok runs

/-- An iteration of the loop over the batches. `affinity` gives the thread of the CPU in the batch that starts there. -/
def runBatch (fuel : Nat) (affinity : U64 → U64) (s : U64 × List ThreadBatch) : Except LoopBound (U64 × List ThreadBatch) := do
  let batchStartIdx := s.1
  let batchEndIdx := if batchStartIdx + ctx.batchSize < ctx.noRuns then batchStartIdx + ctx.batchSize else ctx.noRuns
  let vcpu := affinity batchStartIdx
  let runs ← ctx.setupRunData fuel batchStartIdx batchEndIdx fun _ => none
  let (_, j, visits) ← forRuns fuel batchStartIdx batchEndIdx (fun bi j visits =>
    let i := ctx.runIndex j
    if vcpu ≥ ctx.noThreads then visits ++ [{ j := j, bi := bi, i := i, call := none }]
    else visits ++ [{ j := j, bi := bi, i := i, call := some (bi.toNat, runs bi.toNat) }]) []
  .ok (j, s.2 ++ [⟨batchStartIdx, batchEndIdx, vcpu, runs, visits⟩])

/-- `run_thread`. -/
def runThread (fuel : Nat) (affinity : U64 → U64) : Except LoopBound (List ThreadBatch) := do
  let (_, batches) ← Loop.whileM (fun s => decide (s.1 < ctx.noRuns)) (ctx.runBatch fuel affinity) .bound fuel (0, [])
  .ok batches

end ThreadCtx

/-! ## Loops over the runs of a batch -/

section Loops

variable {α : Type} {fuel : Nat} {startIdx endIdx : U64} {body : BitVec 32 → U64 → α → α} {x : α}

/-- The rule of the loop: both counters stay in step. `g k` is the result of the first `k` iterations. -/
theorem forRuns_eq (g : Nat → α) (hle : startIdx.toNat ≤ endIdx.toNat)
    (hfuel : endIdx.toNat - startIdx.toNat ≤ fuel) (h : x = g 0)
    (hbody : ∀ k, startIdx.toNat + k < endIdx.toNat →
      body (BitVec.ofNat 32 k) (BitVec.ofNat 64 (startIdx.toNat + k)) (g k) = g (k + 1)) :
    ∃ idx, forRuns fuel startIdx endIdx body x = .ok (idx, endIdx, g (endIdx.toNat - startIdx.toNat)) := by
  have hlt := endIdx.isLt
  have hnat : ∀ k, startIdx.toNat + k ≤ endIdx.toNat →
      (BitVec.ofNat 64 (startIdx.toNat + k)).toNat = startIdx.toNat + k := by
    intro k hk
    rw [BitVec.toNat_ofNat]
    exact Nat.mod_eq_of_lt (by omega)
  have hstep : ∀ s : BitVec 32 × U64 × α, (∃ k, startIdx.toNat + k ≤ endIdx.toNat ∧ s.1 = BitVec.ofNat 32 k ∧
        s.2.1 = BitVec.ofNat 64 (startIdx.toNat + k) ∧ s.2.2 = g k) → decide (s.2.1 < endIdx) = true →
      ∃ s', (.ok (s.1 + 1, s.2.1 + 1, body s.1 s.2.1 s.2.2) : Except LoopBound _) = .ok s' ∧
        (∃ k, startIdx.toNat + k ≤ endIdx.toNat ∧ s'.1 = BitVec.ofNat 32 k ∧
          s'.2.1 = BitVec.ofNat 64 (startIdx.toNat + k) ∧ s'.2.2 = g k) ∧
        endIdx.toNat - s'.2.1.toNat < endIdx.toNat - s.2.1.toNat := by
    rintro ⟨idx, r, x⟩ ⟨k, hk, rfl, rfl, rfl⟩ hcond
    have hlt' : startIdx.toNat + k < endIdx.toNat := by
      have := of_decide_eq_true hcond
      rwa [BitVec.lt_def, hnat k hk] at this
    have hr : BitVec.ofNat 64 (startIdx.toNat + k) + 1 = BitVec.ofNat 64 (startIdx.toNat + (k + 1)) := by
      rw [← Nat.add_assoc, BitVec.ofNat_add _ 1]
      rfl
    refine ⟨_, rfl, ⟨k + 1, by omega, ?_, hr, hbody k hlt'⟩, ?_⟩
    · rw [BitVec.ofNat_add k 1]
      rfl
    · simp only [hr, hnat k hk, hnat (k + 1) hlt']
      omega
  obtain ⟨⟨idx, r, x'⟩, hrun, ⟨k, hk, -, rfl, rfl⟩, hcond⟩ := @Loop.whileM_total _ _ _ _ .bound _ _ hstep
    fuel (0, startIdx, x) ⟨0, hle, rfl, by simp, h⟩ hfuel
  have hend : startIdx.toNat + k = endIdx.toNat := by
    have := of_decide_eq_false hcond
    rw [BitVec.lt_def, hnat k hk] at this
    omega
  have hr : BitVec.ofNat 64 (startIdx.toNat + k) = endIdx := by
    rw [hend, BitVec.ofNat_toNat, BitVec.setWidth_eq]
  refine ⟨idx, ?_⟩
  rw [forRuns, hrun, hr, show endIdx.toNat - startIdx.toNat = k by omega]

end Loops

namespace ThreadCtx

variable (ctx : ThreadCtx)

/-! ## The batches -/

/-- The data of the run `r`, in the batch that starts at `startIdx`. -/
def filled (startIdx r : U64) : LitmusTestRun where
  i := ctx.runIndex r
  va := (List.range ctx.noHeapVars).map fun v => ctx.heapVarVa startIdx v (ctx.runIndex r)
  outReg := ctx.outRegs.map fun a => a + (ctx.runIndex r).toNat * 8

/-- The array `runs` of a batch of `n` runs. -/
def runsAt (startIdx : U64) (n : Nat) : Runs := fun k =>
  if k < n then some (ctx.filled startIdx (BitVec.ofNat 64 (startIdx.toNat + k))) else none

/-- The `k`-th run of a batch, on the CPU of the thread `vcpu`. -/
def visitAt (startIdx vcpu : U64) (k : Nat) : Visit where
  j := BitVec.ofNat 64 (startIdx.toNat + k)
  bi := BitVec.ofNat 32 k
  i := ctx.runIndex (BitVec.ofNat 64 (startIdx.toNat + k))
  call := if vcpu ≥ ctx.noThreads then none
    else some (k, some (ctx.filled startIdx (BitVec.ofNat 64 (startIdx.toNat + k))))

/-- The number of runs in the batch that starts with the run `j`. -/
def runsIn (j : Nat) : Nat := min ctx.batchSize.toNat (ctx.noRuns.toNat - j)

/-- The batch that starts with the run `j`. -/
def batchAt (affinity : U64 → U64) (j : Nat) : ThreadBatch where
  startIdx := BitVec.ofNat 64 j
  endIdx := BitVec.ofNat 64 (j + ctx.runsIn j)
  vcpu := affinity (BitVec.ofNat 64 j)
  runs := ctx.runsAt (BitVec.ofNat 64 j) (ctx.runsIn j)
  visits := (List.range (ctx.runsIn j)).map (ctx.visitAt (BitVec.ofNat 64 j) (affinity (BitVec.ofNat 64 j)))

/-- How many batches there are. -/
def noBatches : Nat := (ctx.noRuns.toNat + (ctx.batchSize.toNat - 1)) / ctx.batchSize.toNat

variable {ctx} {fuel : Nat} {affinity : U64 → U64}

theorem toNat_idx {k : Nat} (hk : k < 2 ^ 31) : (BitVec.ofNat 32 k).toNat = k := by
  rw [BitVec.toNat_ofNat]
  exact Nat.mod_eq_of_lt (by omega)

/-- A loop that goes once through the array. -/
theorem forRuns_update {startIdx endIdx : U64} {runs : Runs} (f : U64 → Option LitmusTestRun → Option LitmusTestRun)
    (hle : startIdx.toNat ≤ endIdx.toNat) (hend : endIdx.toNat < 2 ^ 31)
    (hfuel : endIdx.toNat - startIdx.toNat ≤ fuel) :
    ∃ idx, forRuns fuel startIdx endIdx (fun idx r runs =>
        Function.update runs idx.toNat (f r (runs idx.toNat))) runs =
      .ok (idx, endIdx, fun k => if k < endIdx.toNat - startIdx.toNat then
        f (BitVec.ofNat 64 (startIdx.toNat + k)) (runs k) else runs k) := by
  refine forRuns_eq (fun n k => if k < n then f (BitVec.ofNat 64 (startIdx.toNat + k)) (runs k) else runs k) hle hfuel
    ?_ fun k hk => ?_
  · simp
  · funext x
    rw [toNat_idx (by omega)]
    by_cases hx : x = k
    · rw [hx, Function.update_self, if_pos (Nat.lt_succ_self k)]
      simp only [if_neg (Nat.lt_irrefl k)]
    · rw [Function.update_of_ne hx]
      exact if_congr (by omega) rfl rfl

/-- What `setup_run_data` fills. -/
theorem setupRunData_eq {startIdx endIdx : U64} (hle : startIdx.toNat ≤ endIdx.toNat) (hend : endIdx.toNat < 2 ^ 31)
    (hfuel : endIdx.toNat - startIdx.toNat ≤ fuel) :
    ctx.setupRunData fuel startIdx endIdx (fun _ => none) = .ok (ctx.runsAt startIdx (endIdx.toNat - startIdx.toNat)) := by
  obtain ⟨idx₁, h₁⟩ := @forRuns_update fuel startIdx endIdx (fun _ => none)
    (fun r _ => some { i := ctx.runIndex r, va := [], outReg := [] }) hle hend hfuel
  obtain ⟨idx₂, h₂⟩ := @forRuns_update fuel startIdx endIdx _ (fun r run => run.map fun run =>
    { run with
      va := (List.range ctx.noHeapVars).map fun v => ctx.heapVarVa startIdx v (ctx.runIndex r)
      outReg := ctx.outRegs.map fun a => a + (ctx.runIndex r).toNat * 8 }) hle hend hfuel
  simp only [setupRunData, h₁, bind, Except.bind]
  rw [h₂]
  refine congrArg Except.ok (funext fun k => ?_)
  by_cases hk : k < endIdx.toNat - startIdx.toNat
  · simp only [runsAt, if_pos hk, Option.map_some, filled]
  · simp only [runsAt, if_neg hk]

/-- The runs of a batch, one after the other. -/
theorem forRuns_visits {startIdx endIdx vcpu : U64} (hle : startIdx.toNat ≤ endIdx.toNat)
    (hend : endIdx.toNat < 2 ^ 31) (hfuel : endIdx.toNat - startIdx.toNat ≤ fuel) :
    ∃ idx, forRuns fuel startIdx endIdx (fun bi j visits =>
        if vcpu ≥ ctx.noThreads then visits ++ [⟨j, bi, ctx.runIndex j, none⟩]
        else visits ++ [⟨j, bi, ctx.runIndex j,
          some (bi.toNat, ctx.runsAt startIdx (endIdx.toNat - startIdx.toNat) bi.toNat)⟩]) [] =
      .ok (idx, endIdx, (List.range (endIdx.toNat - startIdx.toNat)).map (ctx.visitAt startIdx vcpu)) := by
  refine forRuns_eq (fun n => (List.range n).map (ctx.visitAt startIdx vcpu)) hle hfuel rfl fun k hk => ?_
  have hk' : k < endIdx.toNat - startIdx.toNat := by omega
  rw [List.range_succ, List.map_append, toNat_idx (by omega), runsAt, if_pos hk']
  by_cases hv : vcpu ≥ ctx.noThreads
  · simp only [if_pos hv, List.map_cons, List.map_nil, visitAt]
  · simp only [if_neg hv, List.map_cons, List.map_nil, visitAt]

/-- An iteration of the loop over the batches. -/
theorem runBatch_eq (hruns : ctx.noRuns.toNat < 2 ^ 31) (hbatch : ctx.batchSize.toNat < 2 ^ 31)
    (hfuel : ctx.noRuns.toNat ≤ fuel) {j : Nat} (hj : j < ctx.noRuns.toNat) (batches : List ThreadBatch) :
    ctx.runBatch fuel affinity (BitVec.ofNat 64 j, batches) =
      .ok (BitVec.ofNat 64 (j + ctx.runsIn j), batches ++ [ctx.batchAt affinity j]) := by
  have hstart : (BitVec.ofNat 64 j).toNat = j := by
    rw [BitVec.toNat_ofNat]
    exact Nat.mod_eq_of_lt (by omega)
  have hsum : (BitVec.ofNat 64 j + ctx.batchSize).toNat = j + ctx.batchSize.toNat := by
    rw [BitVec.toNat_add, hstart]
    exact Nat.mod_eq_of_lt (by omega)
  have hend : (BitVec.ofNat 64 (j + ctx.runsIn j)).toNat = j + ctx.runsIn j := by
    rw [BitVec.toNat_ofNat]
    exact Nat.mod_eq_of_lt (by unfold runsIn; omega)
  have hmin : (if BitVec.ofNat 64 j + ctx.batchSize < ctx.noRuns then BitVec.ofNat 64 j + ctx.batchSize
      else ctx.noRuns) = BitVec.ofNat 64 (j + ctx.runsIn j) := by
    apply BitVec.eq_of_toNat_eq
    rw [hend, runsIn]
    split
    · next hlt =>
      rw [BitVec.lt_def, hsum] at hlt
      omega
    · next hlt =>
      rw [BitVec.lt_def, hsum] at hlt
      omega
  have hle : (BitVec.ofNat 64 j).toNat ≤ (BitVec.ofNat 64 (j + ctx.runsIn j)).toNat := by omega
  have hrunsIn : j + ctx.runsIn j ≤ ctx.noRuns.toNat := by unfold runsIn; omega
  have hsetup := @setupRunData_eq ctx fuel _ _ hle (by omega) (by omega)
  obtain ⟨idx, hvisits⟩ := @forRuns_visits ctx fuel _ _ (affinity (BitVec.ofNat 64 j)) hle (by omega) (by omega)
  have hn : (BitVec.ofNat 64 (j + ctx.runsIn j)).toNat - (BitVec.ofNat 64 j).toNat = ctx.runsIn j := by omega
  rw [hn] at hsetup hvisits
  simp only [runBatch, hmin, hsetup, hvisits, bind, Except.bind]
  rfl

theorem lt_noBatches_iff (hbatch : 0 < ctx.batchSize.toNat) {q : Nat} :
    q < ctx.noBatches ↔ q * ctx.batchSize.toNat < ctx.noRuns.toNat := by
  rw [noBatches, Nat.lt_iff_add_one_le, Nat.le_div_iff_mul_le hbatch, Nat.succ_mul]
  omega

/-- **The batches of a thread**: they start at the multiples of the batch size. -/
theorem runThread_eq (hruns : ctx.noRuns.toNat < 2 ^ 31) (hpos : 0 < ctx.batchSize.toNat)
    (hbatch : ctx.batchSize.toNat < 2 ^ 31) (hfuel : ctx.noRuns.toNat ≤ fuel) :
    ctx.runThread fuel affinity =
      .ok ((List.range ctx.noBatches).map fun q => ctx.batchAt affinity (q * ctx.batchSize.toNat)) := by
  have hnat : ∀ q, (BitVec.ofNat 64 (min (q * ctx.batchSize.toNat) ctx.noRuns.toNat)).toNat =
      min (q * ctx.batchSize.toNat) ctx.noRuns.toNat := by
    intro q
    rw [BitVec.toNat_ofNat]
    exact Nat.mod_eq_of_lt (by omega)
  have hstep : ∀ s : U64 × List ThreadBatch, (∃ q ≤ ctx.noBatches,
        s = (BitVec.ofNat 64 (min (q * ctx.batchSize.toNat) ctx.noRuns.toNat),
          (List.range q).map fun q => ctx.batchAt affinity (q * ctx.batchSize.toNat))) →
      decide (s.1 < ctx.noRuns) = true → ∃ s', ctx.runBatch fuel affinity s = .ok s' ∧ (∃ q ≤ ctx.noBatches,
        s' = (BitVec.ofNat 64 (min (q * ctx.batchSize.toNat) ctx.noRuns.toNat),
          (List.range q).map fun q => ctx.batchAt affinity (q * ctx.batchSize.toNat))) ∧
        ctx.noRuns.toNat - s'.1.toNat < ctx.noRuns.toNat - s.1.toNat := by
    rintro s ⟨q, hq, rfl⟩ hcond
    have hlt : q * ctx.batchSize.toNat < ctx.noRuns.toNat := by
      have := of_decide_eq_true hcond
      rw [BitVec.lt_def, hnat] at this
      omega
    have hnext : q * ctx.batchSize.toNat + ctx.runsIn (q * ctx.batchSize.toNat) =
        min ((q + 1) * ctx.batchSize.toNat) ctx.noRuns.toNat := by
      rw [runsIn, Nat.succ_mul]
      omega
    refine ⟨_, ?_, ⟨q + 1, (lt_noBatches_iff hpos).mpr hlt, rfl⟩, ?_⟩
    · rw [Nat.min_eq_left hlt.le, runBatch_eq hruns hbatch hfuel hlt, hnext, List.range_succ, List.map_append]
      rfl
    · simp only [hnat]
      rw [Nat.succ_mul]
      omega
  obtain ⟨s', hrun, ⟨q, hq, rfl⟩, hcond⟩ := @Loop.whileM_total _ _ _ _ .bound _ _ hstep fuel (0, [])
    ⟨0, Nat.zero_le _, by simp⟩ (by simpa using hfuel)
  have hall : q = ctx.noBatches := by
    have := of_decide_eq_false hcond
    rw [BitVec.lt_def, hnat] at this
    by_contra hne
    have := (lt_noBatches_iff (q := q) hpos).mp (by omega)
    omega
  simp only [runThread, hrun, hall, bind, Except.bind]

/-! ## Coverage -/

section Covers

variable (hruns : ctx.noRuns.toNat < 2 ^ 31) (hbatch : ctx.batchSize.toNat < 2 ^ 31) {j : Nat}
  (hj : j < ctx.noRuns.toNat)

include hruns hj

include hbatch

end Covers

end ThreadCtx

end LitmusHarness
