import LitmusHarness.Frontend.Config
import Mathlib.Data.List.TakeWhile

/-!
# The arrays that the arguments are read into

`init_args` has room for every string. What is written later depends on the words: the names of the tests go to an
array of 100 without a look at their number, and `argdef_try_split` copies both sides of an argument to arrays of 100
characters without a look at their lengths. Reading stays within the arrays exactly if each word that it comes to fits
(`setupArgs_inBounds_iff`).
-/

namespace LitmusHarness.Frontend

open Loop (ErrorsIn errorsIn_bind errorsIn_error errorsIn_foldlM errorsIn_ok)

variable {σ ε α : Type}

/-- A stop other than a write behind the end of an array. -/
def ArgStop.Clean : ArgStop ε → Prop
  | outOfBounds _ _ => False
  | _ => True

/-- Nothing is written behind the end of an array. -/
abbrev InBounds (x : Except (ArgStop ε) α) : Prop := ErrorsIn ArgStop.Clean x

/-- The arrays have room for both sides of an argument that is split. -/
def SplitFits (argv : List Char) : Prop :=
  if (argv.drop 1).head? = some '-' then
    (argv.takeWhile fun c => c ≠ '=').length ≤ ArgBuf.lhs.size ∧
      (argv.dropWhile fun c => c ≠ '=').tail.length < ArgBuf.rhs.size
  else (argv.drop 2).length < ArgBuf.rhs.size

/-- The entries that split what they take. -/
def ArgdefArg.splits : ArgdefArg σ ε → Bool
  | flag _ => false
  | _ => true

/-- The arrays have room for a word, where `tests` tests were named before. -/
def WordFits (args : List (ArgdefArg σ ε)) (tests : Nat) (w : List Char) : Prop :=
  if w.head? = some '-' then ∀ arg, args.find? (ArgdefArg.accepts w) = some arg → arg.splits = true → SplitFits w
  else tests < ArgBuf.collectedTests.size

/-! ## The functions one by one -/

theorem inBounds_push {buf : ArgBuf} {out : List α} {c : α} :
    InBounds (push (ε := ε) buf out c) ↔ out.length < buf.size := by
  rw [push]
  split
  · exact ⟨fun _ => ‹_›, fun _ => errorsIn_ok⟩
  · rw [InBounds, errorsIn_error]
    exact ⟨False.elim, fun h => absurd h ‹_›⟩

theorem inBounds_foldlM_push {buf : ArgBuf} {s : List α} :
    InBounds (s.foldlM (push (ε := ε) buf) []) ↔ s.length ≤ buf.size := by
  by_cases h : s.length ≤ buf.size
  · rw [foldlM_push_ok (by rwa [List.length_nil, Nat.zero_add])]
    exact ⟨fun _ => h, fun _ => errorsIn_ok⟩
  · rw [foldlM_push_error (Nat.zero_le _) (by rw [List.length_nil]; omega), InBounds, errorsIn_error]
    exact ⟨False.elim, fun h' => absurd h' h⟩

theorem inBounds_copyStr {buf : ArgBuf} {s : List Char} : InBounds (copyStr (ε := ε) buf s) ↔ s.length < buf.size := by
  by_cases h : s.length < buf.size
  · rw [copyStr_ok h]
    exact ⟨fun _ => h, fun _ => errorsIn_ok⟩
  · rw [copyStr_error (Nat.le_of_not_lt h), InBounds, errorsIn_error]
    exact ⟨False.elim, fun h' => absurd h' h⟩

theorem inBounds_strpartition {s : List Char} :
    InBounds (strpartition (ε := ε) '=' [] s) ↔ (s.takeWhile fun c => c ≠ '=').length ≤ ArgBuf.lhs.size ∧
      (s.dropWhile fun c => c ≠ '=').tail.length < ArgBuf.rhs.size := by
  by_cases hmem : '=' ∈ s
  · obtain ⟨n, v, rfl, hn⟩ := List.eq_append_cons_of_mem hmem
    have hpos : ∀ c ∈ n, decide (c ≠ '=') = true := fun c hc => decide_eq_true fun he => hn (he ▸ hc)
    rw [strpartition_append hn, takeWhile_append_cons hpos (by simp), List.dropWhile_append_of_pos hpos,
      List.dropWhile_cons_of_neg (by simp), List.tail_cons]
    by_cases hlen : n.length ≤ ArgBuf.lhs.size
    · rw [foldlM_push_ok (by rwa [List.length_nil, Nat.zero_add])]
      refine (errorsIn_bind (x := copyStr .rhs v)).trans ⟨fun h => ⟨hlen, inBounds_copyStr.mp h.1⟩, fun h => ?_⟩
      exact ⟨inBounds_copyStr.mpr h.2, fun _ _ => errorsIn_ok⟩
    · exact ⟨fun h => absurd (inBounds_foldlM_push.mp (errorsIn_bind.mp h).1) hlen, fun h => absurd h.1 hlen⟩
  · have hpos : ∀ c ∈ s, decide (c ≠ '=') = true := fun c hc => decide_eq_true fun he => hmem (he ▸ hc)
    rw [strpartition_of_not_mem hmem, List.takeWhile_eq_self_iff.mpr hpos, List.dropWhile_eq_nil_iff.mpr hpos]
    refine errorsIn_bind.trans ⟨fun h => ⟨inBounds_foldlM_push.mp h.1, by decide⟩, fun h => ?_⟩
    exact ⟨inBounds_foldlM_push.mpr h.1, fun _ _ => errorsIn_ok⟩

/-- An argument that is not taken is not split. -/
theorem inBounds_argdefTrySplit {argv : List Char} {shortName : Option ShortName} {longName : Option LongName}
    {optArg : OptArg} (h : splitAccepts argv shortName longName = true) :
    InBounds (argdefTrySplit (ε := ε) argv shortName longName optArg) ↔ SplitFits argv := by
  rw [splitAccepts] at h
  have hdrop : argv.drop 2 = (argv.drop 1).tail := (List.tail_drop).symm
  rw [argdefTrySplit, SplitFits, hdrop]
  cases hs : argv.drop 1 with
  | nil =>
    rw [hs] at h
    cases h
  | cons c s =>
    simp only [hs] at h
    simp only [List.head?_cons, Option.some.injEq, List.tail_cons]
    split
    · rename_i hc
      rw [if_pos hc] at h
      rw [if_pos h]
      refine errorsIn_bind.trans ⟨fun h => inBounds_strpartition.mp h.1, fun h => ⟨inBounds_strpartition.mpr h, ?_⟩⟩
      intro x _
      split
      · exact errorsIn_error.mpr trivial
      · split
        · exact errorsIn_error.mpr trivial
        · exact errorsIn_ok
    · rename_i hc
      rw [if_neg hc] at h
      rw [if_pos h]
      have hpush : push (ε := ε) .lhs [] c = .ok [c] := rfl
      rw [hpush]
      refine (errorsIn_bind (x := copyStr .rhs s)).trans ⟨fun h => inBounds_copyStr.mp h.1, fun h => ?_⟩
      exact ⟨inBounds_copyStr.mpr h, fun _ _ => errorsIn_ok⟩

theorem inBounds_runAction (r : Except ε σ) : InBounds (runAction r) := by
  cases r with
  | error e => exact errorsIn_error.mpr trivial
  | ok st => exact errorsIn_ok

theorem inBounds_optionTakes (arg : ArgdefOption σ ε) (rhs : List Char) (st : σ) : InBounds (optionTakes arg rhs st) := by
  rw [optionTakes]
  split
  · unfold unexpectedArgument
    split <;> exact errorsIn_error.mpr trivial
  · exact inBounds_runAction _

theorem inBounds_enumTakes (arg : ArgdefEnum σ) (rhs : List Char) (st : σ) :
    InBounds (enumTakes (ε := ε) arg rhs st) := by
  rw [enumTakes]
  split
  · exact errorsIn_ok
  · exact errorsIn_error.mpr trivial

/-- An entry that takes the argument writes behind an array only where it splits it. -/
theorem inBounds_argparseCheckArg {argv : List Char} {arg : ArgdefArg σ ε} (st : σ) (h : arg.accepts argv = true) :
    InBounds (argparseCheckArg argv arg st) ↔ (arg.splits = true → SplitFits argv) := by
  cases arg with
  | flag arg =>
    refine ⟨fun _ h => absurd h Bool.false_ne_true, fun _ => ?_⟩
    rw [argparseCheckArg, argparseCheckFlagArg]
    split
    · exact errorsIn_ok
    · exact inBounds_runAction _
    · exact errorsIn_ok
    · exact errorsIn_ok
    · exact errorsIn_ok
  | option arg =>
    have hsplit : InBounds (argdefTrySplit (ε := ε) argv arg.shortName arg.longName arg.arg) ↔ SplitFits argv :=
      inBounds_argdefTrySplit h
    rw [argparseCheckArg, argparseCheckOptionArg, ← hsplit]
    refine errorsIn_bind.trans ⟨fun h _ => h.1, fun h => ⟨h rfl, fun r _ => ?_⟩⟩
    cases r with
    | none => exact errorsIn_ok
    | some p => exact inBounds_optionTakes arg p.2 st
  | enumeration arg =>
    have hsplit : InBounds (argdefTrySplit (ε := ε) argv none (some arg.longName) .required) ↔ SplitFits argv :=
      inBounds_argdefTrySplit h
    rw [argparseCheckArg, argparseCheckEnumArg, ← hsplit]
    refine errorsIn_bind.trans ⟨fun h _ => h.1, fun h => ⟨h rfl, fun r _ => ?_⟩⟩
    cases r with
    | none => exact errorsIn_ok
    | some p => exact inBounds_enumTakes arg p.2 st

section Read

variable {thisArgs commonArgs : List (ArgdefArg σ ε)}

theorem inBounds_readArgsStep {s : ArgState σ} {argv : List Char} :
    InBounds (readArgsStep thisArgs commonArgs s argv) ↔
      WordFits (thisArgs ++ commonArgs) s.collectedTests.length argv := by
  rw [WordFits]
  split
  · rename_i hdash
    rw [readArgsStep_dash hdash]
    cases hfind : (thisArgs ++ commonArgs).find? (ArgdefArg.accepts argv) with
    | none =>
      refine ⟨fun _ arg harg => ?_, fun _ => errorsIn_error.mpr trivial⟩
      cases harg
    | some arg =>
      have hiff := inBounds_argparseCheckArg s.cfg (List.find?_some hfind)
      have hmap := errorsIn_bind (P := ArgStop.Clean) (x := argparseCheckArg argv arg s.cfg)
        (f := fun cfg => .ok { s with cfg := cfg.getD s.cfg })
      refine ⟨fun h arg' harg' => ?_, fun h => ?_⟩
      · cases harg'
        exact hiff.mp (hmap.mp h).1
      · exact hmap.mpr ⟨hiff.mpr (h arg rfl), fun _ _ => errorsIn_ok⟩
  · rename_i hdash
    rw [readArgsStep, if_neg hdash]
    refine errorsIn_bind.trans ⟨fun h => inBounds_push.mp h.1, fun h => ⟨inBounds_push.mpr h, fun _ _ => errorsIn_ok⟩⟩

/-- A step names a test, or none. -/
theorem readArgsStep_collectedTests {s s' : ArgState σ} {argv : List Char}
    (h : readArgsStep thisArgs commonArgs s argv = .ok s') :
    s'.collectedTests = s.collectedTests ++ if argv.head? = some '-' then [] else [argv] := by
  split
  · rename_i hdash
    rw [readArgsStep_dash hdash] at h
    split at h
    · obtain ⟨r, -, h⟩ := Loop.bind_ok h
      cases h
      exact (List.append_nil _).symm
    · cases h
  · rename_i hdash
    rw [readArgsStep, if_neg hdash] at h
    obtain ⟨collected, hpush, h⟩ := Loop.bind_ok h
    cases h
    rw [push] at hpush
    split at hpush
    · cases hpush
      rfl
    · cases hpush

/-- The names of the tests are the words without a dash. -/
theorem argparseReadArgs_collectedTests {argv : List (List Char)} {s s' : ArgState σ}
    (h : argv.foldlM (readArgsStep thisArgs commonArgs) s = .ok s') :
    s'.collectedTests = s.collectedTests ++ argv.filter fun w => w.head? ≠ some '-' := by
  induction argv generalizing s with
  | nil =>
    cases h
    exact (List.append_nil _).symm
  | cons w argv ih =>
    rw [List.foldlM_cons] at h
    obtain ⟨s₁, h₁, h⟩ := Loop.bind_ok h
    rw [ih h, readArgsStep_collectedTests h₁, List.append_assoc, List.filter_cons]
    split <;> rename_i hdash
    · rw [if_neg (by simp [hdash])]
      rfl
    · rw [if_pos (by simp [hdash])]
      rfl

end Read

/-! ## The boot arguments -/

/-- Every word that is come to fits. -/
def BootargsFit (thisArgs commonArgs : List (ArgdefArg σ ε)) (bootargs : CString) (cfg : σ) : Prop :=
  ∀ pre w post s, argWords bootargs = pre ++ w :: post → argparseReadArgs thisArgs commonArgs pre cfg = .ok s →
    WordFits (thisArgs ++ commonArgs) (pre.filter fun w => w.head? ≠ some '-').length w

theorem setupArgs_eq (thisArgs commonArgs : List (ArgdefArg σ ε)) (bootargs : CString) (cfg : σ) :
    setupArgs thisArgs commonArgs bootargs cfg =
      argparseReadArgs thisArgs commonArgs (argWords bootargs) cfg := by
  rw [setupArgs, initArgs_words]
  rfl

/-- **The arguments are read within the arrays exactly if every word that is come to fits.** -/
theorem setupArgs_inBounds_iff (thisArgs commonArgs : List (ArgdefArg σ ε)) (bootargs : CString) (cfg : σ) :
    InBounds (setupArgs thisArgs commonArgs bootargs cfg) ↔ BootargsFit thisArgs commonArgs bootargs cfg := by
  rw [setupArgs_eq, InBounds, argparseReadArgs, errorsIn_foldlM]
  refine forall_congr' fun pre => forall_congr' fun w => forall_congr' fun post => forall_congr' fun s => ?_
  refine imp_congr_right fun _ => imp_congr_right fun hpre => ?_
  have hcollected := argparseReadArgs_collectedTests hpre
  rw [List.nil_append] at hcollected
  rw [← hcollected]
  exact inBounds_readArgsStep

/-- A seed of 100 digits, for which `rhs` has no room. -/
def longSeed : CString := ⟨"--seed=".toList ++ List.replicate 100 '0', by decide⟩

theorem longSeed_not_inBounds : ¬InBounds (setupArgs litmusArgs commonArgs longSeed {}) := by
  have hwords : argWords longSeed = [longSeed.chars] := by
    rw [argWords, List.take_of_length_le (by decide)]
    exact wordsFrom_of_not_mem (by decide) (by decide)
  rw [setupArgs_eq, hwords, argparseReadArgs, InBounds, errorsIn_foldlM]
  intro h
  have hfits := inBounds_readArgsStep.mp (h [] longSeed.chars [] ⟨{}, []⟩ rfl rfl)
  rw [WordFits, if_pos (show longSeed.chars.head? = some '-' from rfl)] at hfits
  have hseed : (litmusArgs ++ commonArgs).find? (ArgdefArg.accepts longSeed.chars) =
      some (opt (short 's') (long "seed") Config.s .required) := rfl
  have hsplit := hfits _ hseed rfl
  rw [SplitFits, if_pos (show (longSeed.chars.drop 1).head? = some '-' from rfl)] at hsplit
  exact absurd hsplit.2 (by decide)

end LitmusHarness.Frontend
