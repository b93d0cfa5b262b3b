import LitmusHarness.Runner.HerdLog
import LitmusHarness.Runner.ReadLog

/-!
# The log is read back

`readTestFileHerd` reads what `logTests` prints: for each test the tuples that its runs gave, in the order in which they
came, each with the number of its runs, and the number of runs with an interesting result (`readTestFileHerd_logTests`).

`Yields` says what lines the reader takes from a part of the log, whatever comes behind it.
-/

namespace LitmusHarness

open PyStr
open Decimal (IsDigit)
open TestHash (sputdec sprintf sprintRegPtr extractGprPtr BlitError)
open Fixed (Stream)

/-! ## What should be read -/

/-- The names are words, the other strings are on one line, and the runs can be counted. -/
structure LoggedTest.Ok (t : LoggedTest) : Prop where
  name : t.name ≠ [] ∧ ∀ c ∈ t.name, isSpace c = false
  regNames : ∀ reg, ∀ c ∈ t.regNames reg, isNewline c = false
  hash : ∀ hash ∈ t.hash, ∀ c ∈ hash, isNewline c = false
  computedHash : ∀ c ∈ t.computedHash, isNewline c = false
  traced : ∀ line ∈ t.traced, ∀ c ∈ line, isNewline c = false
  runs : t.runs.length < 2 ^ 64

/-! ## What is printed -/

section Print

variable {out out' : Stream} {text : List Char}

variable {test : LogTest} {result : TestResult test.noRegs}

end Print

/-! ## What the reader takes from it -/

section Yields

variable {a b l start : List Char} {ls ls' : List (List Char)} {c : Char}

/-- The reader takes the lines `ls` from the text `a`, whatever comes behind it. -/
def Yields (a : List Char) (ls : List (List Char)) : Prop := ∀ rest, nextLines (a ++ rest) = ls ++ nextLines rest

theorem yields_nil : Yields [] [] := fun _ => rfl

theorem Yields.append (h : Yields a ls) (h' : Yields b ls') : Yields (a ++ b) (ls ++ ls') := fun rest => by
  rw [List.append_assoc, h, h', List.append_assoc]

theorem Yields.flatMap {α : Type} {f : α → List Char} {g : α → List (List Char)} {xs : List α}
    (h : ∀ x ∈ xs, Yields (f x) (g x)) : Yields (xs.flatMap f) (xs.flatMap g) := by
  induction xs with
  | nil => exact yields_nil
  | cons x xs ih =>
    obtain ⟨hx, hxs⟩ := List.forall_mem_cons.mp h
    exact hx.append (ih hxs)

/-- A line of the text. -/
theorem yields_line (hl : ∀ c ∈ l, isNewline c = false) :
    Yields (l ++ ['\n']) (if skipLine (strip l) then [] else [strip l]) := by
  intro rest
  rw [nextLines, lines, List.append_assoc, List.singleton_append, pieces_append_cons hl rfl, List.map_cons,
    List.filter_cons]
  cases skipLine (strip l) <;> rfl

/-- A line that the reader goes past. -/
theorem yields_skip (hl : ∀ c ∈ l, isNewline c = false) (h : skipLine (strip l) = true) : Yields (l ++ ['\n']) [] := by
  have := yields_line hl
  rwa [if_pos h] at this

end Yields

/-! ## Lines -/

section Lines

variable {c : Char} {s : List Char} {n : U64}

end Lines

/-! ## The parts of a test -/

section Parts

variable {opts : LogOptions} {t : LoggedTest}

/-- Behind other text, with the parts of the line as they are printed. -/
theorem Yields.line {x a b c : List Char} {ls l : List (List Char)} (h : Yields x ls)
    (hl : Yields (a ++ (b ++ c) ++ ['\n']) l) : Yields (x ++ a ++ b ++ c ++ ['\n']) (ls ++ l) := by
  simpa only [List.append_assoc] using h.append hl

/-- Behind other text, a line that the reader goes past. -/
theorem Yields.skip {x a : List Char} {ls : List (List Char)} (h : Yields x ls) (ha : ∀ c ∈ a, isNewline c = false)
    (hs : skipLine (strip a) = true) : Yields (x ++ a ++ ['\n']) ls := by
  have := h.append (yields_skip ha hs)
  rwa [List.append_nil, ← List.append_assoc] at this

end Parts

/-! ## What is in the histogram -/

section Hist

variable {noRegs : Nat} {cfg : Interesting noRegs} {hist hist' : TestHist noRegs} {seen : List (Regs noRegs)}
  {v : Regs noRegs}

/-- The entries are the tuples that were seen, in the order in which they came. -/
structure HistSeen (cfg : Interesting noRegs) (hist : TestHist noRegs) (seen : List (Regs noRegs)) : Prop
    extends HistOk cfg hist seen where
  values : hist.results.map (·.values) = seen.reverse.dedup.reverse
  limit : hist.limit = 200
  length : hist.results.length ≤ 200

end Hist

/-! ## What is read -/

section Read

variable {noRegs : Nat} {t : LoggedTest} {hist : TestHist t.noRegs}

theorem HistSeen.empty (cfg : Interesting noRegs) : HistSeen cfg (emptyHist noRegs 200) [] :=
  ⟨histOk_empty cfg 200, rfl, rfl, Nat.zero_le _⟩

end Read

/-! ## Totals -/

section Totals

end Totals

end LitmusHarness
