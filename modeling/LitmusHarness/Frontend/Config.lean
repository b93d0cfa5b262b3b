import LitmusHarness.Frontend.Args
import LitmusHarness.Hex
import LitmusHarness.Runner.Asid
import LitmusHarness.Runner.TestCtx

/-!
# The options of the harness: `config.c`

The variables that arguments set, what the options do with them, and the tables `COMMON_ARGS`, `LITMUS_ARGS` and
`UNITTEST_ARGS`. No two entries that are read together have the same long name (`litmusArgs_nodup`).
-/

namespace LitmusHarness.Frontend

/-! ## Variables -/

/-- `output_style_t`. -/
inductive OutputStyle
  | herdtools
  | original
  deriving DecidableEq, Repr

/-- `sync_type_t`. -/
inductive SyncType
  | none
  | all
  | va
  | asid
  deriving DecidableEq, Repr

/-- `warnings_t`. -/
inductive Warning
  | unexpectedException
  | litmusStartAsm
  | hashMismatch
  | missingScResults
  | skipTest
  | unreachable
  | unknownRegister
  | always
  deriving DecidableEq, Repr

/-- The initial `enabled_warnings`. -/
def defaultWarning : Warning → Bool
  | .litmusStartAsm | .hashMismatch | .unknownRegister => false
  | _ => true

/-- The variables of `config.c` that arguments set, and `INITIAL_SEED`, with their initial values. -/
structure Config where
  numberOfRuns : U64 := 10000
  runsInBatch : U64 := 1
  enablePgtable : Bool := true
  enablePerfCounts : Bool := false
  runForever : Bool := false
  enableResultsHist : Bool := true
  enableResultsOutregPrint : Bool := true
  enableResultsMissingScWarning : Bool := true
  verbose : Bool := true
  trace : Bool := false
  debug : Bool := false
  warningsAsErrors : Bool := false
  enabledWarnings : Warning → Bool := defaultWarning
  litmusSyncType : SyncType := .asid
  litmusAffType : AffType := .rand
  litmusShuffleType : ShuffleType := .rand
  litmusConcretizationType : ConcretizeType := .random
  litmusConcretizationCfg : List Char := []
  enableColour : Bool := true
  enableUnittestsConcretizationTestRandom : Bool := true
  enableUnittestsConcretizationTestLinear : Bool := true
  outputFormat : OutputStyle := .herdtools
  initialSeed : U64 := 0

/-- How an option quits. -/
inductive ConfigStop
  | help (opt : List Char)
  | version
  | fullVersion
  | deviceIdent
  | show
  | fail (fmt : String) (args : List (List Char))
  deriving DecidableEq, Repr

/-! ## What the options do -/

namespace Config

/-- `int Xn = atoi(x)`, as a `u64`. -/
def readInt (x : List Char) : Except ConfigStop U64 :=
  match atoi x with
  | .ok v => .ok (intToU64 (v.truncate 32))
  | .error msg => .error (.fail msg [])

/-- `help`. -/
def help (opt : List Char) (_ : Config) : Except ConfigStop Config := .error (.help opt)

/-- `n`. -/
def n (x : List Char) (cfg : Config) : Except ConfigStop Config := do
  let v ← readInt x
  return { cfg with numberOfRuns := v }

/-- `b`. -/
def b (x : List Char) (cfg : Config) : Except ConfigStop Config := do
  let v ← readInt x
  return { cfg with runsInBatch := v }

/-- `s`. -/
def s (x : List Char) (cfg : Config) : Except ConfigStop Config := do
  let v ← readInt x
  return { cfg with initialSeed := v }

/-- `show`. -/
def showTests (_ : List Char) (_ : Config) : Except ConfigStop Config := .error .show

/-- `q`. -/
def q (x : List Char) (cfg : Config) : Except ConfigStop Config :=
  if x ≠ [] then .error (.fail "-q/--quiet did not expect an argument.\n" [])
  else .ok { cfg with verbose := false, debug := false, trace := false }

/-- `_read_warning_name`. -/
def readWarningName (w : List Char) : Option Warning :=
  if w = "unexpected-exception".toList then some .unexpectedException
  else if w = "litmus-start-asm".toList then some .litmusStartAsm
  else if w = "hash-mismatch".toList then some .hashMismatch
  else if w = "missing-sc-results".toList then some .missingScResults
  else if w = "skip-test".toList then some .skipTest
  else if w = "unreachable".toList then some .unreachable
  else if w = "unknown-register".toList then some .unknownRegister
  else none

/-- `_parse_warning_flag`. -/
def parseWarningFlag (cfg : Config) (w : List Char) : Except ConfigStop Config :=
  if w = "all".toList then .ok { cfg with enabledWarnings := fun _ => true }
  else if w = "none".toList then .ok { cfg with enabledWarnings := fun _ => false }
  else
    let set : Bool := !"no-".toList.isPrefixOf w
    let w := if set then w else w.drop 3
    if w = "error".toList then .ok { cfg with warningsAsErrors := set }
    else
      match readWarningName w with
      | none => .error (.fail "Unknown -W flag '%s'.\n" [w])
      | some warn =>
        .ok { cfg with enabledWarnings := fun w' => if w' = warn then set else cfg.enabledWarnings w' }

/-- `w`: the flags between the commas, one after the other. -/
def w (x : List Char) (cfg : Config) : Except ConfigStop Config := (x.splitOn ',').foldlM parseWarningFlag cfg

/-- `conc_cfg`. What was there before is not cut. -/
def concCfg (x : List Char) (cfg : Config) : Except ConfigStop Config :=
  .ok { cfg with litmusConcretizationCfg := x ++ cfg.litmusConcretizationCfg.drop x.length }

end Config

/-! ## The tables -/

/-- A short name. -/
def short (c : Char) (h : c ≠ '-' ∧ c ≠ '\x00' := by decide) : Option ShortName := some ⟨c, h.1, h.2⟩

/-- A long name, without its dashes. -/
def long (name : String) (h : '=' ∉ name.toList := by decide) : Option LongName := some ⟨name.toList, h⟩

variable {σ ε τ : Type}

/-- `OPT`. -/
def opt (shortName : Option ShortName) (longName : Option LongName) (action : List Char → σ → Except ε σ)
    (arg : OptArg) : ArgdefArg σ ε :=
  .option { shortName := shortName, longName := longName, action := action, arg := arg }

/-- `FLAG`. -/
def flag (shortName : Option ShortName) (longName : Option LongName) (set : Bool → σ → σ) : ArgdefArg σ ε :=
  .flag { shortName := shortName, longName := longName, target := .flag set, noNegation := false }

/-- `FLAG_ACTION`, without a negation. -/
def flagAction (shortName : Option ShortName) (longName : Option LongName) (act : σ → Except ε σ) : ArgdefArg σ ε :=
  .flag { shortName := shortName, longName := longName, target := .action act, noNegation := true }

/-- `ENUMERATE`. -/
def enumerate (name : String) (options : List (String × τ)) (set : τ → σ → σ)
    (h : '=' ∉ name.toList := by decide) : ArgdefArg σ ε :=
  .enumeration
    { longName := ⟨name.toList, h⟩
      names := options.map fun o => o.1.toList
      set := fun o st =>
        match options[o]? with
        | some p => set p.2 st
        | none => st }

/-- `COMMON_ARGS`. -/
def commonArgs : List (ArgdefArg Config ConfigStop) :=
  [opt (short 'h') (long "help") Config.help .optional,
    flagAction (short 'V') (long "version") fun _ => .error .version,
    flagAction none (long "build") fun _ => .error .fullVersion,
    flagAction none (long "id") fun _ => .error .deviceIdent,
    flag (short 'p') (long "pgtable") fun v cfg => { cfg with enablePgtable := v },
    flag (short 't') (long "trace") fun v cfg => { cfg with trace := v },
    flag (short 'd') (long "debug") fun v cfg => { cfg with debug := v },
    flag none (long "verbose") fun v cfg => { cfg with verbose := v },
    opt (short 'q') (long "quiet") Config.q .none,
    opt (short 's') (long "seed") Config.s .required,
    opt (short 'W') none Config.w .required,
    flag none (long "color") fun v cfg => { cfg with enableColour := v }]

/-- `LITMUS_ARGS`. -/
def litmusArgs : List (ArgdefArg Config ConfigStop) :=
  [opt none (long "show") Config.showTests .none,
    flag none (long "run-forever") fun v cfg => { cfg with runForever := v },
    flag none (long "perf") fun v cfg => { cfg with enablePerfCounts := v },
    opt (short 'n') none Config.n .optional,
    opt (short 'b') (long "batch-size") Config.b .optional,
    enumerate "format" [("herdtools", .herdtools), ("original", .original)] fun v cfg => { cfg with outputFormat := v },
    flag none (long "hist") fun v cfg => { cfg with enableResultsHist := v },
    flag none (long "print-outcome-breakdown") fun v cfg => { cfg with enableResultsOutregPrint := v },
    flag none (long "print-missing-warning") fun v cfg => { cfg with enableResultsMissingScWarning := v },
    enumerate "tlbsync" [("none", .none), ("asid", .asid), ("va", .va), ("all", .all)]
      fun v cfg => { cfg with litmusSyncType := v },
    enumerate "aff" [("none", .none), ("rand", .rand)] fun v cfg => { cfg with litmusAffType := v },
    enumerate "shuffle" [("none", .none), ("rand", .rand)] fun v cfg => { cfg with litmusShuffleType := v },
    enumerate "concretize" [("linear", .linear), ("random", .random), ("fixed", .fixed)]
      fun v cfg => { cfg with litmusConcretizationType := v },
    opt none (long "config-concretize") Config.concCfg .optional]

/-- `UNITTEST_ARGS`. -/
def unittestArgs : List (ArgdefArg Config ConfigStop) :=
  [flag none (long "test-linear-concretization") fun v cfg =>
      { cfg with enableUnittestsConcretizationTestLinear := v },
    flag none (long "test-random-concretization") fun v cfg =>
      { cfg with enableUnittestsConcretizationTestRandom := v }]

/-- `argdef_arg_longname`, without the dashes. -/
def ArgdefArg.longName : ArgdefArg σ ε → Option (List Char)
  | .flag arg => arg.longName.map LongName.name
  | .option arg => arg.longName.map LongName.name
  | .enumeration arg => some arg.longName.name

theorem litmusArgs_nodup : ((litmusArgs ++ commonArgs).filterMap ArgdefArg.longName).Nodup := by decide

theorem unittestArgs_nodup : ((unittestArgs ++ commonArgs).filterMap ArgdefArg.longName).Nodup := by decide

end LitmusHarness.Frontend
