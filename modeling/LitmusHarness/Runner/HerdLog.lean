import LitmusHarness.Runner.Results
import LitmusHarness.Runner.Time

/-!
# The log of the results: `print_results_herd`

What the harness prints of the runs of its tests, without colours and with warnings that are not errors: `logTests` puts
the runs of each test into the histogram and prints it with `print_results_herd`. The printing fails if the line of an
entry does not fit into its buffer, or if the number of a register cannot be read.
-/

namespace LitmusHarness

open TestHash (sputdec sprintf sprintRegPtr extractGprPtr BlitError)
open Fixed (Stream)

/-! ## The functions of the source -/

/-- The categories of `warnings_t` that the results can raise. -/
inductive Warning
  | hashMismatch
  | missingScResults
  | unknownRegister
  deriving DecidableEq, Repr

/-- What is printed of a `litmus_test_t`. `computedHash` is the digest of `litmus_test_hash`, in hexadecimal. -/
structure LogTest where
  name : List Char
  noRegs : Nat
  regNames : Fin noRegs → List Char
  interesting : Interesting noRegs
  hash : Option (List Char)
  computedHash : List Char
  noScResults : U64

/-- A test, the registers of its runs, the readings of the clock, and what was traced of them. -/
structure LoggedTest extends LogTest where
  runs : List (Regs noRegs)
  startClock : U64
  endClock : U64
  /-- the lines of `trace`, `verbose` and `debug`, without the `#` that they begin with -/
  traced : List (List Char)

end LitmusHarness
