import LitmusHarness.Lib.Loop

/-!
# The arguments: `argc.c`, `argparse.c` and `argdef.h`

`init_args` copies the boot arguments and cuts the copy into words, and `argparse_read_args` goes through the words: a
word with a dash is read by the first entry of the tables that accepts it, any other is the name of a test. A flag is
compared with the whole word, while `argdef_try_split` only looks whether the word starts with the name of the option.

The words are those of the first 1020 characters (`initArgs_words`), and an entry that does not accept a word leaves the
state as it is (`argparseCheckArg_none_iff`), so that the first one that does is the one that counts
(`argparseReadArg_eq`).
-/

namespace LitmusHarness.Frontend

/-! ## Arrays -/

/-- The arrays that are written. -/
inductive ArgBuf
  | copy
  | argv
  | collectedTests
  | lhs
  | rhs
  deriving DecidableEq, Repr

/-- How many elements an array has. -/
def ArgBuf.size : ArgBuf → Nat
  | copy => 1024
  | argv => 1024
  | collectedTests => 100
  | lhs => 100
  | rhs => 100

/-- How the reading of the arguments stops: by `fail`, with its format and its strings, in the action of an entry, or
with a write behind the end of an array. -/
inductive ArgStop (ε : Type)
  | fail (fmt : String) (args : List (List Char))
  | action (e : ε)
  | outOfBounds (buf : ArgBuf) (i : Nat)
  deriving DecidableEq, Repr

/-- A string of C, up to its NUL. -/
structure CString where
  chars : List Char
  nul_not_mem : '\x00' ∉ chars

variable {σ ε α : Type}

/-- `*out = c; out++`, where `out` is what has been written to the array. -/
def push (buf : ArgBuf) (out : List α) (c : α) : Except (ArgStop ε) (List α) :=
  if out.length < buf.size then .ok (out ++ [c]) else .error (.outOfBounds buf out.length)

/-- `a[i] = c`. -/
def put (buf : ArgBuf) (a : List α) (i : Nat) (c : α) : Except (ArgStop ε) (List α) :=
  if i < buf.size then .ok (a.set i c) else .error (.outOfBounds buf i)

/-- `valloc_memcpy(a, src, n)`, where `src` is the `n` elements. -/
def memcpy (buf : ArgBuf) (a src : List α) : Except (ArgStop ε) (List α) :=
  if src.length ≤ buf.size then .ok (src ++ a.drop src.length) else .error (.outOfBounds buf buf.size)

/-- A string that is copied to the start of an array, with its NUL. -/
def copyStr (buf : ArgBuf) (s : List Char) : Except (ArgStop ε) (List Char) := do
  let _ ← (s ++ ['\x00']).foldlM (push buf) []
  return s

/-! ## Words -/

/-- The variables of `init_args`: the arrays, and the pointers into the copy. -/
structure ArgcState where
  copy : List Char
  argv : List Nat
  word : Nat
  bootargs : Nat

/-- The string at a pointer into the copy. -/
def stringAt (copy : List Char) (p : Nat) : List Char := (copy.drop p).takeWhile fun c => c ≠ '\x00'

/-- `while (*bootargs && *bootargs != ' ') bootargs++`. -/
def scanWord (s : ArgcState) : Nat :=
  s.bootargs + ((s.copy.drop s.bootargs).takeWhile fun c => c ≠ '\x00' ∧ c ≠ ' ').length

/-- The body of the loop of `init_args`. -/
def initStep (s : ArgcState) : Except (ArgStop ε) ArgcState := do
  let bootargs := scanWord s
  let space : Bool := s.copy[bootargs]? = some ' '
  let copy ← if space then put .copy s.copy bootargs '\x00' else .ok s.copy
  let bootargs := if space then bootargs + 1 else bootargs
  let argv ← push .argv s.argv s.word
  return { copy := copy, argv := argv, word := bootargs, bootargs := bootargs }

/-- The loop of `init_args`. -/
def initLoop : Nat → ArgcState → Except (ArgStop ε) ArgcState
  | 0, s => .ok s
  | n + 1, s => if s.copy[s.bootargs]? = some '\x00' then .ok s else do initLoop n (← initStep s)

/-- The copy that `init_args` makes. -/
def copyArgs (bootargs : CString) : Except (ArgStop ε) (List Char) := do
  let len := min 1020 bootargs.chars.length
  let copy ← memcpy .copy (List.replicate ArgBuf.copy.size '\x00') (bootargs.chars.take len)
  -- if the arguments are longer, the copy has no NUL yet
  put .copy copy len '\x00'

/-- `init_args`: the strings of `__argv`. -/
def initArgs (bootargs : CString) : Except (ArgStop ε) (List (List Char)) := do
  let copy ← copyArgs bootargs
  let s ← initLoop 1024 { copy := copy, argv := [], word := 0, bootargs := 0 }
  return s.argv.map (stringAt s.copy)

/-! ## Tables of arguments -/

/-- The short name `-c`. -/
structure ShortName where
  letter : Char
  letter_ne_dash : letter ≠ '-'
  letter_ne_nul : letter ≠ '\x00'

/-- The long name `--name`. -/
structure LongName where
  name : List Char
  eq_not_mem : '=' ∉ name

/-- The string of a short name. -/
def ShortName.chars (n : ShortName) : List Char := ['-', n.letter]

/-- The string of a long name. -/
def LongName.chars (n : LongName) : List Char := '-' :: '-' :: n.name

/-- The union of `argdef_flag_t`. -/
inductive FlagTarget (σ ε : Type)
  | flag (set : Bool → σ → σ)
  | action (act : σ → Except ε σ)

/-- `argdef_flag_t`, over the state `σ` of the configuration. An action that quits gives an `ε`. -/
structure ArgdefFlag (σ ε : Type) where
  shortName : Option ShortName
  longName : Option LongName
  target : FlagTarget σ ε
  noNegation : Bool

/-- `argdef_option_action_kind_t`. -/
inductive OptArg
  | optional
  | required
  | none
  deriving DecidableEq, Repr

/-- `argdef_option_t`. -/
structure ArgdefOption (σ ε : Type) where
  shortName : Option ShortName
  longName : Option LongName
  action : List Char → σ → Except ε σ
  arg : OptArg

/-- `argdef_enum_t`, where `set o` sets the variable to the value of the name number `o`. -/
structure ArgdefEnum (σ : Type) where
  longName : LongName
  names : List (List Char)
  set : Nat → σ → σ

/-- `argdef_arg_t`. -/
inductive ArgdefArg (σ ε : Type)
  | flag (arg : ArgdefFlag σ ε)
  | option (arg : ArgdefOption σ ε)
  | enumeration (arg : ArgdefEnum σ)

/-! ## Reading -/

/-- The values of `argparse_check_name_exact`. -/
inductive NameMatch
  | no
  | yes
  | flipped
  deriving DecidableEq, Repr

/-- `argparse_check_name_exact`. -/
def argparseCheckNameExact (argv : List Char) (shortName : Option ShortName) (longName : Option LongName) : NameMatch :=
  let flipped := "-no-".toList.isPrefixOf (argv.drop 1)
  let s := if flipped then argv.drop 4 else argv.drop 1
  if shortName.any fun n => s = [n.letter] then .yes
  else if s.head? = some '-' ∧ longName.any fun n => s.tail = n.name then if flipped then .flipped else .yes
  else .no

/-- `strpartition`: whether `s` has a separator, and what is written to both sides. -/
def strpartition (sep : Char) (outL : List Char) : List Char → Except (ArgStop ε) (Bool × List Char × List Char)
  | [] => .ok (false, outL, [])
  | c :: s =>
    if c ≠ sep then do
      let outL ← push .lhs outL c
      strpartition sep outL s
    else do
      let outR ← copyStr .rhs s
      return (true, outL, outR)

/-- `argdef_try_split`: the strings of both sides, if the name is at the start of the argument. -/
def argdefTrySplit (argv : List Char) (shortName : Option ShortName) (longName : Option LongName) (optArg : OptArg) :
    Except (ArgStop ε) (Option (List Char × List Char)) :=
  match argv.drop 1 with
  | [] => .ok none
  | c :: s =>
    if c = '-' then
      if longName.any fun n => n.name.isPrefixOf s then do
        let (split, lhs, rhs) ← strpartition '=' [] argv
        if !split ∧ optArg = .required then
          .error (.fail "argument mismatch: %s expected argument.  See Usage or --help=%s for more info.\n" [lhs, lhs])
        else if split ∧ optArg = .none then
          .error (.fail "argument mismatch: %s expected no argument.  See Usage or --help=%s for more info.\n" [lhs, lhs])
        else return some (lhs, rhs)
      else .ok none
    else if shortName.any fun n => c = n.letter then do
      let lhs ← push .lhs [] c
      let rhs ← copyStr .rhs s
      return some (lhs, rhs)
    else .ok none

/-- The call of an action. -/
def runAction (r : Except ε σ) : Except (ArgStop ε) (Option σ) :=
  match r with
  | .ok st => .ok (some st)
  | .error e => .error (.action e)

/-- `argparse_check_flag_arg`. -/
def argparseCheckFlagArg (argv : List Char) (arg : ArgdefFlag σ ε) (st : σ) : Except (ArgStop ε) (Option σ) :=
  match argparseCheckNameExact argv arg.shortName arg.longName, arg.target with
  | .no, _ => .ok none
  | .yes, .action act => runAction (act st)
  | .yes, .flag set => .ok (some (set true st))
  -- if `--foo` has an action, then `--no-foo` does nothing
  | .flipped, .action _ => .ok (some st)
  | .flipped, .flag set => .ok (some (set false st))

/-- The failures of `argparse_check_option_arg`. -/
def unexpectedArgument (shortName : Option ShortName) (longName : Option LongName) : ArgStop ε :=
  match shortName, longName with
  | some n, some n' => .fail "%s/%s did not expect an argument.\n" [n.chars, n'.chars]
  | some n, none => .fail "%s did not expect an argument.\n" [n.chars]
  | none, n' => .fail "%s did not expect an argument.\n" (n'.map LongName.chars).toList

/-- What `argparse_check_option_arg` does with a value. -/
def optionTakes (arg : ArgdefOption σ ε) (rhs : List Char) (st : σ) : Except (ArgStop ε) (Option σ) :=
  if arg.arg = .none ∧ rhs ≠ [] then .error (unexpectedArgument arg.shortName arg.longName)
  else runAction (arg.action rhs st)

/-- `argparse_check_option_arg`. -/
def argparseCheckOptionArg (argv : List Char) (arg : ArgdefOption σ ε) (st : σ) : Except (ArgStop ε) (Option σ) := do
  match ← argdefTrySplit argv arg.shortName arg.longName arg.arg with
  | none => return none
  | some p => optionTakes arg p.2 st

/-- What `argparse_check_enum_arg` does with a value. -/
def enumTakes (arg : ArgdefEnum σ) (rhs : List Char) (st : σ) : Except (ArgStop ε) (Option σ) :=
  match arg.names.findIdx? fun name => name = rhs with
  | some o => .ok (some (arg.set o st))
  | none => .error (.fail "for option %s, got unexpected value '%s'\n" [arg.longName.chars, rhs])

/-- `argparse_check_enum_arg`. -/
def argparseCheckEnumArg (argv : List Char) (arg : ArgdefEnum σ) (st : σ) : Except (ArgStop ε) (Option σ) := do
  match ← argdefTrySplit argv none (some arg.longName) .required with
  | none => return none
  | some p => enumTakes arg p.2 st

/-- `argparse_check_arg`. -/
def argparseCheckArg (argv : List Char) (arg : ArgdefArg σ ε) (st : σ) : Except (ArgStop ε) (Option σ) :=
  match arg with
  | .flag arg => argparseCheckFlagArg argv arg st
  | .option arg => argparseCheckOptionArg argv arg st
  | .enumeration arg => argparseCheckEnumArg argv arg st

/-- `argparse_read_arg`: the state after the first entry that accepts the argument, if there is one. -/
def argparseReadArg (args : List (ArgdefArg σ ε)) (argv : List Char) (st : σ) : Except (ArgStop ε) (Option σ) :=
  args.findSomeM? fun arg => argparseCheckArg argv arg st

/-- What the arguments set. -/
structure ArgState (σ : Type) where
  cfg : σ
  collectedTests : List (List Char)

/-- The body of the loop of `argparse_read_args`. -/
def readArgsStep (thisArgs commonArgs : List (ArgdefArg σ ε)) (s : ArgState σ) (argv : List Char) :
    Except (ArgStop ε) (ArgState σ) := do
  if argv.head? = some '-' then
    match ← argparseReadArg thisArgs argv s.cfg with
    | some cfg => return { s with cfg := cfg }
    | none =>
      match ← argparseReadArg commonArgs argv s.cfg with
      | some cfg => return { s with cfg := cfg }
      | none => .error (.fail "unknown argument '%s'\n" [argv])
  else
    let collected ← push .collectedTests s.collectedTests argv
    return { s with collectedTests := collected }

/-- `argparse_read_args`. -/
def argparseReadArgs (thisArgs commonArgs : List (ArgdefArg σ ε)) (argv : List (List Char)) (cfg : σ) :
    Except (ArgStop ε) (ArgState σ) :=
  argv.foldlM (readArgsStep thisArgs commonArgs) { cfg := cfg, collectedTests := [] }

/-- The calls of `setup`: `init_args`, then `read_args`. -/
def setupArgs (thisArgs commonArgs : List (ArgdefArg σ ε)) (bootargs : CString) (cfg : σ) :
    Except (ArgStop ε) (ArgState σ) := do
  let argv ← initArgs bootargs
  argparseReadArgs thisArgs commonArgs argv cfg

/-! ## What is written -/

theorem foldlM_push_ok {buf : ArgBuf} {s out : List α} (h : out.length + s.length ≤ buf.size) :
    s.foldlM (push (ε := ε) buf) out = .ok (out ++ s) := by
  induction s generalizing out with
  | nil => rw [List.append_nil]; rfl
  | cons c s ih =>
    rw [List.length_cons] at h
    rw [List.foldlM_cons, push, if_pos (by omega)]
    refine (ih ?_).trans (by rw [List.append_assoc]; rfl)
    rw [List.length_append, List.length_singleton]
    omega

theorem foldlM_push_error {buf : ArgBuf} {s out : List α} (hout : out.length ≤ buf.size)
    (h : buf.size < out.length + s.length) :
    s.foldlM (push (ε := ε) buf) out = .error (.outOfBounds buf buf.size) := by
  induction s generalizing out with
  | nil => exact absurd h (by rw [List.length_nil]; omega)
  | cons c s ih =>
    rw [List.length_cons] at h
    rw [List.foldlM_cons, push]
    split
    · refine ih ?_ ?_ <;> rw [List.length_append, List.length_singleton] <;> omega
    · rw [show out.length = buf.size by omega]
      rfl

theorem copyStr_ok {buf : ArgBuf} {s : List Char} (h : s.length < buf.size) : copyStr (ε := ε) buf s = .ok s := by
  rw [copyStr, foldlM_push_ok (by simp; omega)]
  rfl

theorem copyStr_error {buf : ArgBuf} {s : List Char} (h : buf.size ≤ s.length) :
    copyStr (ε := ε) buf s = .error (.outOfBounds buf buf.size) := by
  rw [copyStr, foldlM_push_error (Nat.zero_le _) (by simp; omega)]
  rfl

theorem strpartition_of_not_mem {sep : Char} {out s : List Char} (h : sep ∉ s) :
    strpartition (ε := ε) sep out s = do
      let outL ← s.foldlM (push .lhs) out
      return (false, outL, []) := by
  induction s generalizing out with
  | nil => rfl
  | cons c s ih =>
    obtain ⟨hc, hs⟩ := List.ne_and_not_mem_of_not_mem_cons h
    rw [strpartition, if_pos hc.symm, List.foldlM_cons, bind_assoc]
    exact congrArg _ (funext fun out => ih hs)

theorem strpartition_append {sep : Char} {out n v : List Char} (h : sep ∉ n) :
    strpartition (ε := ε) sep out (n ++ sep :: v) = do
      let outL ← n.foldlM (push .lhs) out
      let outR ← copyStr .rhs v
      return (true, outL, outR) := by
  induction n generalizing out with
  | nil => rw [List.nil_append, strpartition, if_neg (not_not_intro rfl)]; rfl
  | cons c n ih =>
    obtain ⟨hc, hn⟩ := List.ne_and_not_mem_of_not_mem_cons h
    rw [List.cons_append, strpartition, if_pos hc.symm, List.foldlM_cons, bind_assoc]
    exact congrArg _ (funext fun out => ih hn)

/-! ## The words -/

/-- The words of a text, where `cur` is what has been read of the first one. Between two spaces there is an empty word,
but not behind the last one. -/
def wordsFrom (cur : List Char) : List Char → List (List Char)
  | [] => if cur = [] then [] else [cur]
  | c :: s => if c = ' ' then cur :: wordsFrom [] s else wordsFrom (cur ++ [c]) s

/-- The words of the boot arguments. -/
def argWords (bootargs : CString) : List (List Char) := wordsFrom [] (bootargs.chars.take 1020)

example : wordsFrom [] "-n  a ".toList = ["-n".toList, [], ['a']] := rfl

theorem wordsFrom_append {cur w s : List Char} (h : ' ' ∉ w) :
    wordsFrom cur (w ++ ' ' :: s) = (cur ++ w) :: wordsFrom [] s := by
  induction w generalizing cur with
  | nil => rw [List.nil_append, wordsFrom, if_pos rfl, List.append_nil]
  | cons c w ih =>
    obtain ⟨hc, hw⟩ := List.ne_and_not_mem_of_not_mem_cons h
    rw [List.cons_append, wordsFrom, if_neg hc.symm, ih hw, List.append_assoc]
    rfl

theorem wordsFrom_of_not_mem {cur w : List Char} (h : ' ' ∉ w) (hne : cur ++ w ≠ []) : wordsFrom cur w = [cur ++ w] := by
  induction w generalizing cur with
  | nil => rw [wordsFrom, if_neg (by rwa [List.append_nil] at hne), List.append_nil]
  | cons c w ih =>
    obtain ⟨hc, hw⟩ := List.ne_and_not_mem_of_not_mem_cons h
    rw [wordsFrom, if_neg hc.symm, ih hw (by simp), List.append_assoc]
    rfl

theorem takeWhile_append_cons {p : Char → Bool} {w l : List Char} {c : Char} (hw : ∀ a ∈ w, p a = true)
    (hc : p c = false) : (w ++ c :: l).takeWhile p = w := by
  rw [List.takeWhile_append_of_pos hw, List.takeWhile_cons_of_neg (by simp [hc]), List.append_nil]

/-- A string that ends in `l` does not depend on what is behind. -/
theorem stringAt_append {l l' : List Char} {p : Nat} (h : '\x00' ∈ l.drop p) : stringAt (l ++ l') p = stringAt l p := by
  have hp : p ≤ l.length := by
    refine Nat.le_of_not_lt fun hlt => ?_
    rw [List.drop_of_length_le (Nat.le_of_lt hlt)] at h
    exact List.not_mem_nil h
  obtain ⟨w, post, heq, hw⟩ := List.eq_append_cons_of_mem h
  have hpos : ∀ a ∈ w, (decide (a ≠ '\x00')) = true := fun a ha => decide_eq_true fun he => hw (he ▸ ha)
  rw [stringAt, stringAt, List.drop_append_of_le_length hp, heq, List.append_assoc, List.cons_append,
    takeWhile_append_cons hpos (by simp), takeWhile_append_cons hpos (by simp)]

theorem stringAt_length {pre w l : List Char} (h : '\x00' ∉ w) :
    stringAt (pre ++ (w ++ '\x00' :: l)) pre.length = w := by
  rw [stringAt, List.drop_append_length]
  exact takeWhile_append_cons (fun a ha => decide_eq_true fun he => h (he ▸ ha)) (by simp)

/-- The state at the start of a word: what is before it is cut, and `t` is the text that is left. -/
structure ArgcState.AtWord (s : ArgcState) (pre t post : List Char) : Prop where
  copy_eq : s.copy = pre ++ (t ++ '\x00' :: post)
  copy_length : s.copy.length ≤ ArgBuf.copy.size
  nul_not_mem : '\x00' ∉ t
  word_eq : s.word = pre.length
  bootargs_eq : s.bootargs = pre.length
  argv_room : s.argv.length + t.length ≤ ArgBuf.argv.size
  argv_cut : ∀ p ∈ s.argv, '\x00' ∈ pre.drop p

/-- The strings of the words that are recorded. -/
def ArgcState.words (s : ArgcState) : List (List Char) := s.argv.map (stringAt s.copy)

section Step

variable {s : ArgcState} {pre t post : List Char}

theorem ArgcState.AtWord.getElem? (h : s.AtWord pre t post) {w : List Char} {c : Char} {l : List Char}
    (heq : t ++ '\x00' :: post = w ++ c :: l) : s.copy[pre.length + w.length]? = some c := by
  rw [h.copy_eq, heq, ← List.append_assoc, ← List.length_append, List.getElem?_append_right (Nat.le_refl _),
    Nat.sub_self]
  rfl

theorem ArgcState.AtWord.scanWord_eq (h : s.AtWord pre t post) {w : List Char} {c : Char} {l : List Char}
    (heq : t ++ '\x00' :: post = w ++ c :: l) (hw : '\x00' ∉ w) (hw' : ' ' ∉ w) (hc : c = '\x00' ∨ c = ' ') :
    scanWord s = pre.length + w.length := by
  rw [scanWord, h.copy_eq, h.bootargs_eq, List.drop_append_length, heq, takeWhile_append_cons]
  · exact fun a ha => decide_eq_true ⟨fun he => hw (he ▸ ha), fun he => hw' (he ▸ ha)⟩
  · exact decide_eq_false fun hne => hc.elim hne.1 hne.2

/-- What is recorded stays when the text behind is cut. -/
theorem ArgcState.AtWord.map_stringAt (h : s.AtWord pre t post) (l : List Char) :
    s.argv.map (stringAt (pre ++ l)) = s.words := by
  refine List.map_congr_left fun p hp => ?_
  rw [h.copy_eq, stringAt_append (h.argv_cut p hp), stringAt_append (h.argv_cut p hp)]

/-- A word before a space. -/
theorem initStep_space {w t' : List Char} (h : s.AtWord pre (w ++ ' ' :: t') post) (hw : ' ' ∉ w) :
    ∃ s', initStep (ε := ε) s = .ok s' ∧ s'.AtWord (pre ++ (w ++ ['\x00'])) t' post ∧ s'.words = s.words ++ [w] := by
  have heq : (w ++ ' ' :: t') ++ '\x00' :: post = w ++ ' ' :: (t' ++ '\x00' :: post) := by
    rw [List.append_assoc, List.cons_append]
  have hnul : '\x00' ∉ w := fun hmem => h.nul_not_mem (List.mem_append_left _ hmem)
  have hlen := h.copy_length
  have hroom := h.argv_room
  rw [h.copy_eq] at hlen
  simp only [List.length_append, List.length_cons] at hlen hroom
  have hset : s.copy.set (pre.length + w.length) '\x00' =
      pre ++ (w ++ '\x00' :: (t' ++ '\x00' :: post)) := by
    rw [h.copy_eq, heq, List.set_append_right _ _ (Nat.le_add_right _ _), Nat.add_sub_cancel_left,
      List.set_append_right _ _ (Nat.le_refl _), Nat.sub_self]
    rfl
  refine ⟨⟨pre ++ (w ++ '\x00' :: (t' ++ '\x00' :: post)), s.argv ++ [pre.length], pre.length + w.length + 1,
    pre.length + w.length + 1⟩, ?_, ?_, ?_⟩
  · simp only [initStep, h.scanWord_eq heq hnul hw (.inr rfl), h.getElem? heq, decide_true, if_true, put, push,
      h.word_eq]
    rw [if_pos (by omega), if_pos (by omega), hset]
    rfl
  · constructor
    · simp only [List.append_assoc, List.cons_append, List.nil_append]
    · simp only [List.length_append, List.length_cons]
      omega
    · exact fun hmem => h.nul_not_mem (List.mem_append_right _ (List.mem_cons_of_mem _ hmem))
    · simp only [List.length_append, List.length_cons, List.length_nil]
      omega
    · simp only [List.length_append, List.length_cons, List.length_nil]
      omega
    · simp only [List.length_append, List.length_cons, List.length_nil]
      omega
    · intro p hp
      rcases List.mem_append.mp hp with hp | hp
      · rw [List.drop_append]
        exact List.mem_append_left _ (h.argv_cut p hp)
      · rw [List.mem_singleton.mp hp, List.drop_append_length]
        exact List.mem_append_right _ (List.mem_singleton_self _)
  · rw [ArgcState.words, List.map_append, h.map_stringAt, List.map_singleton, stringAt_length hnul]

/-- The last word, if there is no space behind it. -/
theorem initStep_last (h : s.AtWord pre t post) (ht : ' ' ∉ t) (hne : t ≠ []) :
    ∃ s', initStep (ε := ε) s = .ok s' ∧ s'.copy[s'.bootargs]? = some '\x00' ∧ s'.words = s.words ++ [t] := by
  have hroom := h.argv_room
  have hpos := List.length_pos_iff.mpr hne
  have hnul := h.getElem? (w := t) rfl
  refine ⟨⟨s.copy, s.argv ++ [pre.length], pre.length + t.length, pre.length + t.length⟩, ?_, hnul, ?_⟩
  · have hspace : ¬some '\x00' = some ' ' := by simp
    simp only [initStep, h.scanWord_eq rfl h.nul_not_mem ht (.inl rfl), hnul, hspace, decide_false, push, h.word_eq]
    rw [if_neg Bool.false_ne_true, if_pos (by omega)]
    rfl
  · rw [ArgcState.words, List.map_append, List.map_singleton, h.copy_eq, h.map_stringAt,
      stringAt_length h.nul_not_mem]

theorem initLoop_done {n : Nat} (h : s.copy[s.bootargs]? = some '\x00') : initLoop (ε := ε) n s = .ok s := by
  cases n with
  | zero => rfl
  | succ n => rw [initLoop, if_pos h]

/-- The loop has read all words, if it may go on for as many turns as there are characters. -/
theorem initLoop_words {n : Nat} (h : s.AtWord pre t post) (hn : t.length ≤ n) :
    ∃ s', initLoop (ε := ε) n s = .ok s' ∧ s'.words = s.words ++ wordsFrom [] t := by
  induction n generalizing s pre t with
  | zero =>
    obtain rfl := List.length_eq_zero_iff.mp (Nat.le_zero.mp hn)
    exact ⟨s, rfl, (List.append_nil _).symm⟩
  | succ n ih =>
    by_cases hnil : t = []
    · subst hnil
      have hnul : s.copy[s.bootargs]? = some '\x00' := h.bootargs_eq ▸ h.getElem? (w := []) rfl
      exact ⟨s, initLoop_done hnul, (List.append_nil _).symm⟩
    have hgo : ¬s.copy[s.bootargs]? = some '\x00' := by
      obtain ⟨c, t', rfl⟩ := List.exists_cons_of_ne_nil hnil
      have hc : s.copy[s.bootargs]? = some c := h.bootargs_eq ▸ h.getElem? (w := []) rfl
      rw [hc, Option.some.injEq]
      exact (List.ne_of_not_mem_cons h.nul_not_mem).symm
    rw [initLoop, if_neg hgo]
    by_cases hspace : ' ' ∈ t
    · obtain ⟨w, t', rfl, hw⟩ := List.eq_append_cons_of_mem hspace
      obtain ⟨s₁, h₁, hat, hwords⟩ := initStep_space (ε := ε) h hw
      rw [List.length_append, List.length_cons] at hn
      obtain ⟨s', hs', hwords'⟩ := ih hat (by omega)
      refine ⟨s', ?_, ?_⟩
      · rw [h₁]
        exact hs'
      · rw [hwords', hwords, wordsFrom_append hw, List.append_assoc]
        rfl
    · obtain ⟨s₁, h₁, hend, hwords⟩ := initStep_last (ε := ε) h hspace hnil
      refine ⟨s₁, ?_, ?_⟩
      · rw [h₁]
        exact initLoop_done hend
      · rw [hwords, @wordsFrom_of_not_mem [] t hspace hnil]
        rfl

end Step

theorem copyArgs_eq (bootargs : CString) : copyArgs (ε := ε) bootargs = .ok (bootargs.chars.take 1020 ++
    '\x00' :: List.replicate (1023 - (bootargs.chars.take 1020).length) '\x00') := by
  have hlen : (bootargs.chars.take 1020).length = min 1020 bootargs.chars.length := List.length_take
  have htake : bootargs.chars.take (min 1020 bootargs.chars.length) = bootargs.chars.take 1020 :=
    List.take_eq_take_iff.mpr (by omega)
  have hsize : ArgBuf.copy.size = 1024 := rfl
  have hroom : ArgBuf.copy.size - (bootargs.chars.take 1020).length =
      1023 - (bootargs.chars.take 1020).length + 1 := by omega
  simp only [copyArgs, htake, memcpy, put]
  rw [← hlen, if_pos (by omega)]
  change (if _ then _ else _) = _
  rw [if_pos (by omega), List.set_append_right _ _ (Nat.le_refl _), Nat.sub_self, List.drop_replicate, hroom,
    List.replicate_succ, List.set_cons_zero]

/-- `init_args` stays within its arrays, whatever the boot arguments are. -/
theorem initArgs_words (bootargs : CString) : initArgs (ε := ε) bootargs = .ok (argWords bootargs) := by
  have hle : (bootargs.chars.take 1020).length ≤ 1020 := List.length_take ▸ Nat.min_le_left _ _
  have hat : ArgcState.AtWord ⟨bootargs.chars.take 1020 ++
      '\x00' :: List.replicate (1023 - (bootargs.chars.take 1020).length) '\x00', [], 0, 0⟩ []
      (bootargs.chars.take 1020) (List.replicate (1023 - (bootargs.chars.take 1020).length) '\x00') := by
    constructor
    · rfl
    · rw [List.length_append, List.length_cons, List.length_replicate, ArgBuf.size]
      omega
    · exact fun hmem => bootargs.nul_not_mem (List.mem_of_mem_take hmem)
    · rfl
    · rfl
    · rw [List.length_nil, Nat.zero_add, ArgBuf.size]
      omega
    · exact fun p hp => absurd hp List.not_mem_nil
  obtain ⟨s', hs', hwords⟩ := initLoop_words (ε := ε) (n := 1024) hat (by omega)
  rw [initArgs, copyArgs_eq]
  change (do
    let s ← initLoop 1024 ⟨_, [], 0, 0⟩
    return s.argv.map (stringAt s.copy)) = _
  rw [hs']
  exact congrArg Except.ok hwords

/-! ## The entry that reads a word -/

/-- The arguments that `argdef_try_split` takes. -/
def splitAccepts (argv : List Char) (shortName : Option ShortName) (longName : Option LongName) : Bool :=
  match argv.drop 1 with
  | [] => false
  | c :: s => if c = '-' then longName.any fun n => n.name.isPrefixOf s else shortName.any fun n => c = n.letter

/-- The arguments that an entry takes. -/
def ArgdefArg.accepts (argv : List Char) : ArgdefArg σ ε → Bool
  | flag arg => argparseCheckNameExact argv arg.shortName arg.longName ≠ .no
  | option arg => splitAccepts argv arg.shortName arg.longName
  | enumeration arg => splitAccepts argv none (some arg.longName)

theorem argdefTrySplit_none_iff {argv : List Char} {shortName : Option ShortName} {longName : Option LongName}
    {optArg : OptArg} :
    argdefTrySplit (ε := ε) argv shortName longName optArg = .ok none ↔ splitAccepts argv shortName longName = false := by
  rw [argdefTrySplit, splitAccepts]
  cases argv.drop 1 with
  | nil => exact ⟨fun _ => rfl, fun _ => rfl⟩
  | cons c s =>
    simp only
    split
    · split
      · rename_i hany
        refine ⟨fun h => ?_, fun h => absurd (hany.symm.trans h) (by simp)⟩
        obtain ⟨x, -, h⟩ := Loop.bind_ok h
        split at h
        · cases h
        · split at h <;> cases h
      · rename_i hany
        exact ⟨fun _ => eq_false_of_ne_true hany, fun _ => rfl⟩
    · split
      · rename_i hany
        refine ⟨fun h => ?_, fun h => absurd (hany.symm.trans h) (by simp)⟩
        obtain ⟨x, -, h⟩ := Loop.bind_ok h
        obtain ⟨y, -, h⟩ := Loop.bind_ok h
        cases h
      · rename_i hany
        exact ⟨fun _ => eq_false_of_ne_true hany, fun _ => rfl⟩

theorem runAction_ne_none (r : Except ε σ) : runAction r ≠ .ok none := by
  cases r with
  | error e => exact fun h => by cases h
  | ok st => exact fun h => by cases h

theorem optionTakes_ne_none (arg : ArgdefOption σ ε) (rhs : List Char) (st : σ) : optionTakes arg rhs st ≠ .ok none := by
  rw [optionTakes]
  split
  · exact fun h => by cases h
  · exact runAction_ne_none _

theorem enumTakes_ne_none (arg : ArgdefEnum σ) (rhs : List Char) (st : σ) : enumTakes (ε := ε) arg rhs st ≠ .ok none := by
  rw [enumTakes]
  split
  · exact fun h => by cases h
  · exact fun h => by cases h

/-- A split that succeeds is not taken back. -/
theorem split_bind_none_iff {x : Except (ArgStop ε) (Option (List Char × List Char))}
    {f : List Char × List Char → Except (ArgStop ε) (Option σ)} (hf : ∀ p, f p ≠ .ok none) :
    (do match ← x with
        | none => return none
        | some p => f p) = .ok none ↔ x = .ok none := by
  refine ⟨fun h => ?_, fun h => by rw [h]; rfl⟩
  obtain ⟨r, hx, h⟩ := Loop.bind_ok h
  cases r with
  | none => exact hx
  | some p => exact absurd h (hf p)

theorem argparseCheckArg_none_iff {argv : List Char} {arg : ArgdefArg σ ε} {st : σ} :
    argparseCheckArg argv arg st = .ok none ↔ arg.accepts argv = false := by
  cases arg with
  | flag arg =>
    rw [argparseCheckArg, argparseCheckFlagArg, ArgdefArg.accepts, decide_eq_false_iff_not, Classical.not_not]
    cases argparseCheckNameExact argv arg.shortName arg.longName with
    | no => exact ⟨fun _ => rfl, fun _ => rfl⟩
    | yes =>
      refine ⟨fun h => ?_, fun h => by cases h⟩
      cases htarget : arg.target with
      | action act => exact absurd (htarget ▸ h) (runAction_ne_none _)
      | flag set => exact absurd (htarget ▸ h) (fun h => by cases h)
    | flipped =>
      refine ⟨fun h => ?_, fun h => by cases h⟩
      cases htarget : arg.target with
      | action act => exact absurd (htarget ▸ h) (fun h => by cases h)
      | flag set => exact absurd (htarget ▸ h) (fun h => by cases h)
  | option arg =>
    exact (split_bind_none_iff fun p => optionTakes_ne_none arg p.2 st).trans argdefTrySplit_none_iff
  | enumeration arg =>
    exact (split_bind_none_iff fun p => enumTakes_ne_none arg p.2 st).trans argdefTrySplit_none_iff

/-- The first entry that accepts the argument counts. -/
theorem argparseReadArg_eq (args : List (ArgdefArg σ ε)) (argv : List Char) (st : σ) :
    argparseReadArg args argv st =
      match args.find? fun arg => arg.accepts argv with
      | some arg => argparseCheckArg argv arg st
      | none => .ok none := by
  have hnone : ∀ arg : ArgdefArg σ ε, argparseCheckArg argv arg st = .ok none ↔ arg.accepts argv = false :=
    fun _ => argparseCheckArg_none_iff
  rw [argparseReadArg, Loop.findSomeM?_eq hnone]
  cases args.find? (ArgdefArg.accepts argv) with
  | none => rfl
  | some arg => rfl

/-- A word with a dash is read by the first entry of both tables that accepts it. -/
theorem readArgsStep_dash {thisArgs commonArgs : List (ArgdefArg σ ε)} {s : ArgState σ} {argv : List Char}
    (h : argv.head? = some '-') :
    readArgsStep thisArgs commonArgs s argv =
      match (thisArgs ++ commonArgs).find? fun arg => arg.accepts argv with
      | some arg => (fun cfg => { s with cfg := cfg.getD s.cfg }) <$> argparseCheckArg argv arg s.cfg
      | none => .error (.fail "unknown argument '%s'\n" [argv]) := by
  have hread : ∀ (args : List (ArgdefArg σ ε)) (arg : ArgdefArg σ ε),
      args.find? (fun arg => arg.accepts argv) = some arg → argparseCheckArg argv arg s.cfg ≠ .ok none :=
    fun args arg hfind hnone => Bool.false_ne_true
      ((argparseCheckArg_none_iff.mp hnone).symm.trans (List.find?_some (p := ArgdefArg.accepts argv) hfind))
  rw [readArgsStep, if_pos h, argparseReadArg_eq, argparseReadArg_eq, List.find?_append]
  cases hthis : thisArgs.find? fun arg => arg.accepts argv with
  | some arg =>
    have hne := hread thisArgs arg hthis
    simp only [Option.some_or]
    cases hcheck : argparseCheckArg argv arg s.cfg with
    | error e => rfl
    | ok r =>
      cases r with
      | none => exact absurd hcheck hne
      | some cfg => rfl
  | none =>
    simp only [Option.none_or]
    cases hcommon : commonArgs.find? fun arg => arg.accepts argv with
    | none => rfl
    | some arg =>
      have hne := hread commonArgs arg hcommon
      change (do
        match ← argparseCheckArg argv arg s.cfg with
        | some cfg => return { s with cfg := cfg }
        | none => .error _) = _
      cases hcheck : argparseCheckArg argv arg s.cfg with
      | error e => simp only [hcheck]; rfl
      | ok r =>
        cases r with
        | none => exact absurd hcheck hne
        | some cfg => simp only [hcheck]; rfl

end LitmusHarness.Frontend
