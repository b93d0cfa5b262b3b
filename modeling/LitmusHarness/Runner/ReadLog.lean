import LitmusHarness.Lib.PyStr

/-!
# Reading a log: `read_test_file_herd` of `tabular.py`

`readTestFileHerd` gives the histograms of the tests in a log, and for each name the histograms of all tests of the name
put together. Of the lines it only looks at the headers, the entries and the line `Positive:`.
-/

namespace LitmusHarness

open PyStr

/-- `RunResult`. -/
structure RunResult where
  regvals : List Char
  count : Int
  isMarked : Bool := false
  deriving DecidableEq, Repr

/-- `Hist`. -/
structure Hist where
  testName : List Char
  results : List RunResult
  numberMarked : Int
  deriving DecidableEq, Repr

/-- `Hist.update`, of histograms of one test. -/
def Hist.update (self other : Hist) : Hist :=
  { self with results := self.results ++ other.results, numberMarked := self.numberMarked + other.numberMarked }

/-- The lines that `_next` goes past. -/
def skipLine (n : List Char) : Bool :=
  startsWith n ['#'] || n ∈ ["Yes".toList, "No".toList, "Ok".toList, "Witnesses".toList] ||
    startsWith n "Time".toList || startsWith n "Hash".toList || startsWith n "Observation".toList || n = []

/-- The lines that `_next` yields. A `\r` is the end of a line, too: a `\r\n` only gives an empty line more. -/
def nextLines (file : List Char) : List (List Char) := ((lines file).map strip).filter fun n => !skipLine n

end LitmusHarness
