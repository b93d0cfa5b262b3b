import LitmusHarness.Concretization.Fixed
import LitmusHarness.Concretization.VarInfo
import LitmusHarness.Hashlib

/-!
# The hash of a litmus test: `litmus_test_hash.c`

`litmus_test_hash` runs `blit_test` twice: a first run computes the size of the hash vector and a second one fills it;
the vector is hashed. A string is the list of its bytes without the NUL, and a null pointer is `none`.
-/

namespace LitmusHarness

namespace TestHash

/-! ## What is hashed -/

/-- A C string. -/
abbrev CStr := List Byte

/-- The bytes of a string literal. -/
def cstr (s : List Char) : CStr := s.map fun c => BitVec.ofNat 8 c.toNat

/-- `init_type_t`. -/
inductive InitType
  | heap | pte | fix | unmapped | identityMap | alias | attrs | regionOwn | regionPin | regionOffset | mair
  deriving DecidableEq, Repr

/-- The union of `init_varstate_t`, with its tag. -/
inductive InitValue
  | heap (value : U64)
  | pte (value : U64)
  | fix (value : U64)
  | unmapped
  | identityMap
  | alias (aliasname : Option CStr)
  | attrs (protType : ProtType) (attrValue : U64)
  | regionOwn (ownershipLevel : OwnLevel)
  | regionPin (pinnedVarName : Option CStr) (pinnedLevel : PinLevel)
  | regionOffset (offsetVarName : Option CStr) (offsetLevel : RelOffset)
  | mair (value : U64)
  deriving DecidableEq, Repr

/-- The tag of `init_varstate_t`. -/
def InitValue.type : InitValue → InitType
  | .heap _ => .heap
  | .pte _ => .pte
  | .fix _ => .fix
  | .unmapped => .unmapped
  | .identityMap => .identityMap
  | .alias _ => .alias
  | .attrs _ _ => .attrs
  | .regionOwn _ => .regionOwn
  | .regionPin _ _ => .regionPin
  | .regionOffset _ _ => .regionOffset
  | .mair _ => .mair

/-- `init_varstate_t`. -/
structure VarState where
  varname : Option CStr
  value : InitValue
  deriving DecidableEq, Repr

/-- The instructions from a code pointer to the end of the memory, which has 2^64 bytes. -/
structure Instrs where
  words : List U32
  fits : words.length < 2 ^ 62

/-- A pointer to code, or a null pointer. -/
abbrev Code := Option Instrs

/-- The fields of `litmus_test_t` that are hashed; the arrays have their counts as lengths. -/
structure Test where
  name : Option CStr
  initStates : List VarState
  threads : List Code
  threadSyncHandlers : Option (List (Code × Code))
  regNames : List (List Char)
  interestingResult : List U64
  interestingResults : List (List U64)

/-- How a run can fail to have a result. -/
inductive BlitError
  /-- a loop that does not end, or that leaves the memory -/
  | diverges
  /-- `fail` with its text -/
  | fail (msg : String)
  /-- `fail("Hashing test '%s' failed: Thread %d %s had malformed code.\n")` -/
  | malformed (test : Option CStr) (n : Nat) (name : String)
  deriving DecidableEq, Repr

/-! ## Names of enumerations: `litmus_test_def.c` -/

/-- `init_type_to_str`. -/
def initTypeToStr : InitType → String
  | .heap => "TYPE_HEAP"
  | .pte => "TYPE_PTE"
  | .fix => "TYPE_FIX"
  | .unmapped => "TYPE_UNMAPPED"
  | .identityMap => "TYPE_IDENTITY_MAP"
  | .alias => "TYPE_ALIAS"
  | .attrs => "TYPE_ATTRS"
  | .regionOwn => "TYPE_REGION_OWN"
  | .regionPin => "TYPE_REGION_PIN"
  | .regionOffset => "TYPE_REGION_OFFSET"
  | .mair => "TYPE_MAIR"

/-- `pin_level_to_str`. -/
def pinLevelToStr : PinLevel → String
  | .var => "REGION_SAME_VAR"
  | .cacheLine => "REGION_SAME_CACHE_LINE"
  | .page => "REGION_SAME_PAGE"
  | .pmd => "REGION_SAME_PMD"
  | .pud => "REGION_SAME_PUD"
  | .pgd => "REGION_SAME_PGD"

/-- `rel_offset_to_str`. -/
def relOffsetToStr : RelOffset → String
  | .var => "REGION_SAME_VAR_OFFSET"
  | .cacheLine => "REGION_SAME_CACHE_LINE_OFFSET"
  | .page => "REGION_SAME_PAGE_OFFSET"
  | .pmd => "REGION_SAME_PMD_OFFSET"
  | .pud => "REGION_SAME_PUD_OFFSET"
  | .pgd => "REGION_SAME_PGD_OFFSET"

/-- `own_level_to_str`. -/
def ownLevelToStr : OwnLevel → String
  | .var => "REGION_OWN_VAR"
  | .cacheLine => "REGION_OWN_CACHE_LINE"
  | .page => "REGION_OWN_PAGE"
  | .pmd => "REGION_OWN_PMD"
  | .pud => "REGION_OWN_PUD"
  | .pgd => "REGION_OWN_PGD"

/-- `prot_type_to_str`. -/
def protTypeToStr : ProtType → String
  | .ap => "AP"
  | .attridx => "AttrIdx"

/-! ## The rendering of the final condition: `printer.c` -/

section FinalCond

open Fixed (Stream sputc)

/-- `sprintf` of a text. There must be room for the final NUL. -/
def sprintf (out : Stream) (text : List Char) : Except BlitError Stream :=
  match (do
    let out ← text.foldlM sputc out
    let _ ← sputc out '\x00'
    return out) with
  | .ok out => .ok out
  | .error e => .error (.fail e)

/-- The array `digits` of `sputdec`: the lowest digit first. A word has at most 20. -/
def decDigits : Nat → U64 → List Char
  | 0, _ => []
  | k + 1, n => if n > 0 then Char.ofNat ((n % 10).toNat + 48) :: decDigits k (n / 10) else []

/-- `sputdec`. -/
def sputdec (n : U64) : List Char := (if n = 0 then ['0'] else decDigits 20 n).reverse

/-- `extract_gpr`. -/
def extractGpr (regName : List Char) : Except BlitError (Option (U32 × U32)) :=
  if regName.getD 0 '\x00' ≠ 'p' ∨ regName.getD 2 '\x00' ≠ ':' then .ok none
  else
    match atoi (regName.drop 4) with
    | .ok gprid => .ok (some (BitVec.ofNat 32 (ctoi (regName.getD 1 '\x00')), gprid.setWidth 32))
    | .error e => .error (.fail e)

/-- `sprint_reg` with `STYLE_HERDTOOLS`. A `%d` is printed from an `int` that is converted to `u64`. -/
def sprintReg (out : Stream) (regName : List Char) : Except BlitError Stream := do
  match ← extractGpr regName with
  | some (tid, gprid) =>
    sprintf out (sputdec (tid.signExtend 64) ++ [':', 'X'] ++ sputdec (gprid.signExtend 64))
  | none => sprintf out regName

/-- `if (cond) sprintf(out, text)`. -/
def sprintfIf (cond : Bool) (out : Stream) (text : List Char) : Except BlitError Stream :=
  if cond then sprintf out text else .ok out

/-- `SPRINTF_RESULT`. -/
def sprintfResult (regNames : List (List Char)) (result : List U64) (out : Stream) : Except BlitError Stream :=
  regNames.zipIdx.foldlM (fun out (regName, i) => do
    let out ← sprintfIf (i > 0) out [' ', '/', '\\', ' ']
    let out ← sprintReg out regName
    match result[i]? with
    | some v => sprintf out ('=' :: sputdec v)
    | none => .error .diverges) out

/-- The part of `blit_final_cond` that prints. -/
def printFinalCond (test : Test) : Except BlitError Stream :=
  let n := test.interestingResults.length
  if n ≠ 0 then
    test.interestingResults.zipIdx.foldlM (fun out (result, r) => do
      let out ← sprintfIf (r > 0) out [' ', '\\', '/', ' ']
      let out ← sprintfIf (n > 1) out ['(']
      let out ← sprintfResult test.regNames result out
      sprintfIf (n > 1) out [')']) ⟨[], 1024⟩
  else sprintfResult test.regNames test.interestingResult ⟨[], 1024⟩

/-- The string in `final_cond` that `blit_final_cond` blits. Where nothing is printed, the string is the one that the
buffer on the stack held, `garbage`. -/
def finalCond (garbage : CStr) (test : Test) : Except BlitError CStr := do
  let out ← printFinalCond test
  return if out.text = [] then garbage else cstr out.text

end FinalCond

/-! ## The functions of `litmus_test_hash.c` -/

/-- Where `tgt` points in the buffer, and the buffer. -/
abbrev Target := Nat × List Byte

/-- A function that blits: in a dry run, or not. -/
abbrev Blit := Bool → Target → Except BlitError Target

/-- `blit_int`. -/
def blitInt (val : U32) : Blit := fun dry (tgt, buf) => .ok (tgt + 4, if dry then buf else writeBe buf tgt val)

/-- `blit_long`. -/
def blitLong (val : U64) : Blit := fun dry (tgt, buf) => .ok (tgt + 8, if dry then buf else writeBe64 buf tgt val)

/-- `blit`. -/
def blit (src : List Byte) : Blit := fun dry (tgt, buf) =>
  if dry then .ok (tgt + src.length, buf)
  else
    match forUnsigned (BitVec.ofNat 64 src.length)
        (fun i buf => .ok (buf.set (tgt + i.toNat) (src.getD i.toNat 0))) 0 buf with
    | .ok (_, buf) => .ok (tgt + src.length, buf)
    | .error _ => .error .diverges

/-- `blit_str`. -/
def blitStr (s : Option CStr) : Blit := fun dry tgt => do
  let s := s.getD (cstr "<NULL>".toList)
  let len := BitVec.ofNat 32 s.length
  let tgt ← blitInt len dry tgt
  blit (s.take len.toNat) dry tgt

/-- `OPCODE_LITMUS_HINT`. -/
def opcodeLitmusHint : U32 := 0xd5032fff

/-- `OPCODE_RET`. -/
def opcodeRet : U32 := 0xd65f03c0

/-- The bytes of a word in memory, the lowest first. -/
def leBytes (w : U32) : List Byte :=
  [w.setWidth 8, (w >>> 8).setWidth 8, (w >>> 16).setWidth 8, (w >>> 24).setWidth 8]

/-- `__blit_thread_code_hint`. -/
def blitThreadCodeHint (code : List U32) : Blit := fun dry tgt =>
  match code.findIdx? (· = opcodeLitmusHint) with
  | none => .error .diverges
  | some i =>
    let start := code.drop (i + 1)
    match start.findIdx? (· = opcodeLitmusHint) with
    | none => .error .diverges
    | some len => do
      let tgt ← blitInt (BitVec.ofNat 32 len) dry tgt
      blit ((start.take len).flatMap leBytes) dry tgt

/-- `__blit_thread_code_nohint`. -/
def blitThreadCodeNohint (code : List U32) : Blit := fun dry tgt =>
  match code.findIdx? (· = opcodeRet) with
  | none => .error .diverges
  | some i => do
    let tgt ← blitInt (BitVec.ofNat 32 (i + 1)) dry tgt
    blit ((code.take (i + 1)).flatMap leBytes) dry tgt

/-- The loop of `__thread_code_has_hint`: the first hint or return among the first 1024 instructions. -/
def firstMark (code : List U32) : Option U32 :=
  (code.take 1024).find? fun instr => instr = opcodeLitmusHint ∨ instr = opcodeRet

/-- `__thread_code_has_hint`. -/
def threadCodeHasHint (test : Test) (code : Code) (n : Nat) (name : String) : Except BlitError Bool :=
  match code with
  | none => .ok true
  | some code =>
    match firstMark code.words with
    | some instr => .ok (instr = opcodeLitmusHint)
    | none => .error (.malformed test.name n name)

/-- `blit_thread_code`. -/
def blitThreadCode (test : Test) (code : Code) (n : Nat) (name : String) : Blit := fun dry tgt =>
  match code with
  | none => blitInt 0 dry tgt
  | some instrs => do
    if ← threadCodeHasHint test code n name then blitThreadCodeHint instrs.words dry tgt
    else blitThreadCodeNohint instrs.words dry tgt

/-- `blit_thread_handlers`. -/
def blitThreadHandlers (test : Test) (t : Nat) : Blit := fun dry tgt =>
  match test.threadSyncHandlers with
  | none => blitInt 0 dry tgt
  | some handlers =>
    match handlers[t]? with
    | none => .error .diverges
    | some (el0, el1) => do
      let tgt ← blitInt 2 dry tgt
      let tgt ← blitThreadCode test el0 t "EL0 handler" dry tgt
      blitThreadCode test el1 t "EL1 handler" dry tgt

/-- `blit_thread`. -/
def blitThread (test : Test) (thread : Code × Nat) : Blit := fun dry tgt => do
  let tgt ← blitThreadCode test thread.1 thread.2 "code" dry tgt
  blitThreadHandlers test thread.2 dry tgt

/-- The part of `blit_varstate` for the union. -/
def blitValue (value : InitValue) : Blit := fun dry tgt =>
  match value with
  | .unmapped => .ok tgt
  | .heap value | .pte value | .mair value | .fix value => blitLong value dry tgt
  | .alias aliasname => blitStr aliasname dry tgt
  | .attrs protType attrValue => do
    let tgt ← blitStr (some (cstr (protTypeToStr protType).toList)) dry tgt
    blitLong attrValue dry tgt
  | .regionPin pinnedVarName pinnedLevel => do
    let tgt ← blitStr pinnedVarName dry tgt
    blitStr (some (cstr (pinLevelToStr pinnedLevel).toList)) dry tgt
  | .regionOffset offsetVarName offsetLevel => do
    let tgt ← blitStr offsetVarName dry tgt
    blitStr (some (cstr (relOffsetToStr offsetLevel).toList)) dry tgt
  | .regionOwn ownershipLevel => blitStr (some (cstr (ownLevelToStr ownershipLevel).toList)) dry tgt
  | .identityMap => .ok tgt

/-- `blit_varstate`. -/
def blitVarstate (st : VarState) : Blit := fun dry tgt => do
  let tgt ← blitStr st.varname dry tgt
  let tgt ← blitStr (some (cstr (initTypeToStr st.value.type).toList)) dry tgt
  blitValue st.value dry tgt

/-- `blit_init_state`. -/
def blitInitState (test : Test) : Blit := fun dry tgt => do
  let tgt ← blitInt (BitVec.ofNat 32 test.initStates.length) dry tgt
  test.initStates.foldlM (fun tgt st => blitVarstate st dry tgt) tgt

/-- `blit_threads`. -/
def blitThreads (test : Test) : Blit := fun dry tgt => do
  let tgt ← blitInt (BitVec.ofNat 32 test.threads.length) dry tgt
  test.threads.zipIdx.foldlM (fun tgt thread => blitThread test thread dry tgt) tgt

/-- `blit_final_cond`. -/
def blitFinalCond (garbage : CStr) (test : Test) : Blit := fun dry tgt => do
  let s ← finalCond garbage test
  blitStr (some s) dry tgt

/-- `blit_test`. -/
def blitTest (garbage : CStr) (test : Test) : Blit := fun dry tgt => do
  let tgt ← blitStr test.name dry tgt
  let tgt ← blitInitState test dry tgt
  let tgt ← blitThreads test dry tgt
  blitFinalCond garbage test dry tgt

/-- `litmus_test_hash`. The stack is taken to hold the same in both runs. -/
def litmusTestHash (garbage : CStr) (test : Test) : Except BlitError (List Byte) := do
  let (size, _) ← blitTest garbage test true (0, [])
  let (_, buf) ← blitTest garbage test false (0, List.replicate size 0)
  match Hashlib.hashSha1 buf with
  | .ok d => .ok d
  | .error _ => .error .diverges

end TestHash

end LitmusHarness
