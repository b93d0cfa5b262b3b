import LitmusHarness.Bitwise

/-!
# The translator's registers and values: `parse_reg_from_str`, `MovSrc::try_from`

The expressions are those of the parser library, whose symbol table and bit vectors are parameters (`Isla`). A run of
the translator ends with a result, with an error or with a panic (`unwrap`, `panic!`, a string that is split outside
its bounds).
-/

namespace LitmusHarness.Translator

/-- The errors of the integer parsers. -/
inductive ParseIntError
  | empty
  | invalidDigit
  | posOverflow
  deriving DecidableEq, Repr

/-- The text of an error of the integer parsers. -/
def ParseIntError.text : ParseIntError → String
  | .empty => "cannot parse integer from empty string"
  | .invalidDigit => "invalid digit found in string"
  | .posOverflow => "number too large to fit in target type"

/-- `Error`, with the constructors that these functions use. -/
inductive Error
  | parseResetValue (e : String)
  | parseThread (e : String)
  | parseReg (e : String)
  | getFunctionArg (e : String)
  | parseExp (e : String)
  | parseBitsFromString (e : ParseIntError)
  | unimplementedFunction (e : String)
  | unsupported (e : String)
  deriving DecidableEq, Repr

/-- How a run fails. -/
inductive Failure
  | err (e : Error)
  | panic
  deriving DecidableEq, Repr

/-- What a digit stands for in the given base. -/
def toDigit (radix : Nat) (c : Char) : Option Nat :=
  let d := if '0' ≤ c ∧ c ≤ '9' then some (c.toNat - '0'.toNat)
    else if 'a' ≤ c ∧ c ≤ 'z' then some (c.toNat - 'a'.toNat + 10)
    else if 'A' ≤ c ∧ c ≤ 'Z' then some (c.toNat - 'A'.toNat + 10)
    else none
  d.filter (· < radix)

/-- The digits of an unsigned number of `w` bits, the first ones read as `x`. -/
def parseDigits (w radix : Nat) : Nat → List Char → Except ParseIntError (BitVec w)
  | x, [] => .ok (BitVec.ofNat w x)
  | x, c :: s =>
    match toDigit radix c with
    | none => .error .invalidDigit
    | some d => if x * radix + d < 2 ^ w then parseDigits w radix (x * radix + d) s else .error .posOverflow

/-- `from_str_radix` of an unsigned number of `w` bits. -/
def fromStrRadix (w radix : Nat) (s : List Char) : Except ParseIntError (BitVec w) :=
  match s with
  | [] => .error .empty
  | ['+'] => .error .invalidDigit
  | '+' :: s => parseDigits w radix 0 s
  | s => parseDigits w radix 0 s

/-! ## Registers -/

/-- `Reg`. -/
inductive Reg
  | x (idx : BitVec 8)
  | w (idx : BitVec 8)
  | b (idx : BitVec 8)
  | h (idx : BitVec 8)
  | s (idx : BitVec 8)
  | d (idx : BitVec 8)
  | q (idx : BitVec 8)
  | pState (name : String)
  | vBar (name : String)
  | isla (name : String)
  deriving DecidableEq, Repr

/-- Whether a string starts with another one. -/
def startsWith (s t : String) : Bool := t.toList.isPrefixOf s.toList

/-- `parse_reg_from_str`; a string is split after its first byte, which must be a character. -/
def parseRegFromStr (asm : String) : Except Failure Reg :=
  if startsWith asm "PSTATE" then .ok (.pState asm)
  else if startsWith asm "VBAR" then .ok (.vBar asm)
  else if startsWith asm "__isla" then .ok (.isla asm)
  else if startsWith asm "ELR_EL" || startsWith asm "SPSR_EL" || startsWith asm "TTBR" then
    .error (.err (.unsupported
      ("litmus-toml-translator does not support special registers like " ++ asm ++ " in thread resets.")))
  else
    match asm.toList with
    | [] => .error .panic
    | t :: idx =>
      if 128 ≤ t.toNat then .error .panic
      else
        match fromStrRadix 8 10 idx with
        | .error e => .error (.err (.parseReg (e.text ++ " (" ++ asm ++ ")")))
        | .ok idx =>
          if t = 'x' ∨ t = 'X' then .ok (.x idx)
          else if t = 'w' ∨ t = 'W' then .ok (.w idx)
          else if t = 'b' ∨ t = 'B' then .ok (.b idx)
          else if t = 'h' ∨ t = 'H' then .ok (.h idx)
          else if t = 's' ∨ t = 'S' then .ok (.s idx)
          else if t = 'd' ∨ t = 'D' then .ok (.d idx)
          else if t = 'q' ∨ t = 'Q' then .ok (.q idx)
          else if t = 'r' ∨ t = 'R' then .ok (.x idx)
          else .error (.err (.parseReg (String.ofList [t] ++ " (" ++ asm ++ ")")))

/-! ## Expressions and values -/

/-- The locations of the parser library's expressions; the translator reads the registers only. -/
inductive Loc (Name : Type)
  | register (reg : Name) (threadId : Nat)
  | other

/-- `Exp` of the parser library. -/
inductive Exp (Name : Type)
  | eqLoc (loc : Loc Name) (e : Exp Name)
  | loc (a : String)
  | label (l : String)
  | true
  | false
  | bin (s : String)
  | hex (s : String)
  | bits64 (bits : U64) (len : BitVec 32)
  | nat (n : U64)
  | not (e : Exp Name)
  | and (es : List (Exp Name))
  | or (es : List (Exp Name))
  | implies (e₁ e₂ : Exp Name)
  | app (f : String) (args : List (Exp Name)) (kwArgs : List (String × Exp Name))

/-- What the translator uses of the parser library: the names of its symbol table, decoded (`to_str` and
`zencode::decode`), its bit vectors `B64`, and how it prints expressions. An operator on bit vectors that panics has no
result. -/
structure Isla where
  Name : Type
  decode : Name → String
  B64 : Type
  new : U64 → Nat → B64
  fromStr : String → Option B64
  lowerU64 : B64 → U64
  signExtend : B64 → BitVec 32 → Option B64
  and : B64 → B64 → Option B64
  or : B64 → B64 → Option B64
  xor : B64 → B64 → Option B64
  shr : B64 → B64 → Option B64
  shl : B64 → B64 → Option B64
  debug : Exp Name → String
  debugAll : List (Exp Name) → String

/-- `MovSrc`. -/
inductive MovSrc (B64 : Type)
  | nat (bv : B64)
  | bin (bv : B64)
  | hex (bv : B64)
  | reg (r : String)
  | pte (sym : String) (lvl : BitVec 8)
  | desc (sym : String) (lvl : BitVec 8)
  | page (sym : String)
  deriving DecidableEq, Repr

/-- `MovSrc::map`. -/
def MovSrc.map {B64 : Type} (f : B64 → Option B64) : MovSrc B64 → Except Failure (MovSrc B64)
  | .nat bv => ((f bv).map .nat).elim (.error .panic) .ok
  | .bin bv => ((f bv).map .bin).elim (.error .panic) .ok
  | .hex bv => ((f bv).map .hex).elim (.error .panic) .ok
  | .reg _ | .pte _ _ | .desc _ _ | .page _ => .error .panic

section TryFrom

variable (isla : Isla)

/-- `bv_from_exp`. -/
def bvFromExp : Exp isla.Name → Except Failure isla.B64
  | .nat n => .ok (isla.new n 64)
  | .bin s | .hex s =>
    match isla.fromStr s with
    | some bv => .ok bv
    | none => .error (.err (.parseExp ("couldn't create B64 from " ++ s)))
  | .bits64 bits _ => .ok (isla.new bits 64)
  | e => .error (.err (.parseExp ("couldn't create B64 from " ++ isla.debug e)))

/-- `get_arg`. -/
def getArg {Name : Type} (f : String) (args : List (Exp Name)) (idx : Nat) : Except Failure (Exp Name) :=
  match args[idx]? with
  | some e => .ok e
  | none => .error (.err (.getFunctionArg (f ++ ":arg" ++ toString idx)))

/-- `get_kwarg`. -/
def getKwarg {Name : Type} (f : String) (kwArgs : List (String × Exp Name)) (kw : String) :
    Except Failure (Exp Name) :=
  match kwArgs.lookup kw with
  | some e => .ok e
  | none => .error (.err (.getFunctionArg (f ++ ":arg_" ++ kw)))

/-- The function of two bit vectors that an expression applies, the second one from the expression's argument. -/
def mapArg (op : isla.B64 → isla.B64 → Option isla.B64) (f : String) (args : List (Exp isla.Name))
    (movSrc : MovSrc isla.B64) : Except Failure (MovSrc isla.B64) := do
  let bv ← bvFromExp isla (← getArg f args 1)
  movSrc.map fun bv₁ => op bv₁ bv

/-- The level of a table entry, which follows the name in the function's name. -/
def levelOf (name f : String) : Except Failure (BitVec 8) :=
  match fromStrRadix 8 10 (f.toList.drop name.length) with
  | .error _ => .error (.err (.unimplementedFunction f))
  | .ok lvl =>
    if 0 < lvl.toNat ∧ lvl.toNat ≤ 3 then .ok lvl
    else .error (.err (.unimplementedFunction (name ++ " [lvl = " ++ toString lvl.toNat ++ "] function not supported")))

/-- The variable that an argument names. -/
def varOf {Name : Type} (msg : String) : Exp Name → Except Failure String
  | .loc var => .ok var
  | _ => .error (.err (.getFunctionArg (msg ++ " was not parsed correctly")))

/-- `MovSrc::try_from`. -/
def tryFrom : Exp isla.Name → Except Failure (MovSrc isla.B64)
  | .nat n => .ok (.nat (isla.new n 64))
  | .bin s =>
    match fromStrRadix 64 2 s.toList with
    | .ok b64 => .ok (.bin (isla.new b64 64))
    | .error e => .error (.err (.parseBitsFromString e))
  | .hex s =>
    match fromStrRadix 64 16 s.toList with
    | .ok b64 => .ok (.hex (isla.new b64 64))
    | .error e => .error (.err (.parseBitsFromString e))
  | .bits64 bits _ => .ok (.bin (isla.new bits 64))
  | .loc var => .ok (.reg var)
  | .app f args kwArgs => do
    -- the functions that convert their first argument
    if f = "extz" ∨ f = "exts" ∨ f = "bvand" ∨ f = "bvor" ∨ f = "bvxor" ∨ f = "bvlshr" ∨ f = "bvshl" then
      let movSrc ← match args with
        | [] => .error (.err (.getFunctionArg (f ++ ":arg0")))
        | e :: _ => tryFrom e
      if f = "extz" then .ok movSrc
      else if f = "exts" then do
        let extendBy ← bvFromExp isla (← getArg f args 1)
        movSrc.map fun bv => isla.signExtend bv ((isla.lowerU64 extendBy).setWidth 32)
      else if f = "bvand" then mapArg isla isla.and f args movSrc
      else if f = "bvor" then mapArg isla isla.or f args movSrc
      else if f = "bvxor" then mapArg isla isla.xor f args movSrc
      else if f = "bvlshr" then mapArg isla isla.shr f args movSrc
      else mapArg isla isla.shl f args movSrc
    else if f = "page" then
      return .page (← varOf "page:arg0" (← getArg f args 0))
    else if startsWith f "pte" then do
      let lvl ← levelOf "pte" f
      return .pte (← varOf "pte3:arg0" (← getArg f args 0)) lvl
    else if startsWith f "desc" then do
      let lvl ← levelOf "desc" f
      return .desc (← varOf "desc:arg0" (← getArg f args 0)) lvl
    else if startsWith f "mkdesc" then do
      let lvl ← levelOf "mkdesc" f
      return .desc (← varOf "mkdesc:arg_oa" (← getKwarg f kwArgs "oa")) lvl
    else .error (.err (.unimplementedFunction f))
  | e => .error (.err (.parseResetValue ("handling of " ++ isla.debug e ++ " is not implemented")))

end TryFrom

/-! ## What the printed C expressions evaluate to -/

/-- The run-time values of a C program that its expressions read: the address of a variable, the descriptors of its
pages and the values of entries, at a level, and its page. -/
structure Env where
  reg : String → U64
  pte : String → BitVec 8 → U64
  desc : String → BitVec 8 → U64
  page : String → U64

/-- The value of the expression that `MovSrc::as_c_code` prints. -/
def MovSrc.cValue (isla : Isla) (env : Env) : MovSrc isla.B64 → U64
  | .nat bv | .bin bv | .hex bv => isla.lowerU64 bv
  | .reg r => env.reg r
  | .pte sym lvl => env.pte sym lvl
  | .desc sym lvl => env.desc sym lvl
  | .page sym => env.page sym

end LitmusHarness.Translator
