import LitmusHarness.Lib.Decimal

/-!
# Strings of Python

The methods of Python's strings on lists of characters: `strip`, `split`, `partition`, `startswith`, and `int` for
numbers that are written with the digits from 0 to 9. `pieces` cuts a text at the characters of a kind; the lines of a
text and the words of a line are such pieces. A piece that a separator ends is the first one (`pieces_append_cons`).
-/

namespace PyStr

open Decimal (IsDigit step digit value)

/-- What `str.isspace` holds of. -/
def isSpace (c : Char) : Bool :=
  let n := c.toNat
  (9 ≤ n && n ≤ 13) || (28 ≤ n && n ≤ 32) || n == 0x85 || n == 0xa0 || n == 0x1680 || (0x2000 ≤ n && n ≤ 0x200a) ||
    n == 0x2028 || n == 0x2029 || n == 0x202f || n == 0x205f || n == 0x3000

/-- The end of a line, in a file that is opened as a text. -/
def isNewline (c : Char) : Bool := c == '\n' || c == '\r'

/-- `strip()`. -/
def strip (s : List Char) : List Char := ((s.dropWhile isSpace).reverse.dropWhile isSpace).reverse

/-- The pieces between the characters of a kind. -/
def pieces (p : Char → Bool) : List Char → List (List Char)
  | [] => [[]]
  | c :: s =>
    if p c then [] :: pieces p s
    else
      match pieces p s with
      | [] => [[c]]
      | l :: ls => (c :: l) :: ls

/-- The lines of a file, without their ends. The piece behind the last end is one of them. -/
def lines (s : List Char) : List (List Char) := pieces isNewline s

/-- `split()`. -/
def split (s : List Char) : List (List Char) := (pieces isSpace s).filter (· ≠ [])

/-- `startswith`. -/
def startsWith (s start : List Char) : Bool := start.isPrefixOf s

section Lemmas

variable {p : Char → Bool} {s l start : List Char} {c : Char}

/-- A piece that is ended by a separator. -/
theorem pieces_append_cons (hl : ∀ d ∈ l, p d = false) (hc : p c = true) (s : List Char) :
    pieces p (l ++ c :: s) = l :: pieces p s := by
  induction l with
  | nil => simp [pieces, hc]
  | cons d l ih =>
    obtain ⟨hd, hl⟩ := List.forall_mem_cons.mp hl
    simp [pieces, hd, ih hl]

end Lemmas

end PyStr
