import LitmusHarness.Lib.Lits
import LitmusHarness.Translator.MovSrc

/-!
# Final assertions: `parse_assertion_into_conjunction_of_regs`

The descent carries a negation flag through negations and conjunctions and inserts a comparison for every register
equality into a map keyed by the register. The flag is carried into a conjunction's parts as it is, so that a negated
conjunction becomes the conjunction of its negated parts, and a later comparison of a register replaces an earlier one.

An accepted assertion is a formula over tests of registers (`toForm_of_ok`), and the comparisons are what the map of the
library `Lits` keeps of its literals (`extract_eq_keepAll`). They mean the assertion when it is plain and the last
comparison of each register implies the others, and only then if it is plain or has a register in each test of its own
(`parseAssertion_exact`).
-/

namespace LitmusHarness.Translator

open Lits (Lit Form)

/-! ## The functions of the source -/

/-- `Negatable`. -/
inductive Negatable (α : Type)
  | eq (a : α)
  | not (a : α)
  deriving DecidableEq, Repr

/-- A register of a thread. -/
abbrev Key := BitVec 8 × Reg

/-- The pairs of `HashMap<(u8, Reg), Negatable<MovSrc>>`, in no particular order. -/
abbrev RegVals (isla : Isla) := List (Key × Negatable (MovSrc isla.B64))

/-- `HashMap::insert`. -/
def RegVals.insert {isla : Isla} (m : RegVals isla) (k : Key) (v : Negatable (MovSrc isla.B64)) : RegVals isla :=
  (k, v) :: m.filter fun p => p.1 ≠ k

/-- `usize::try_into` of a thread's number. -/
def threadIdOf (threadId : Nat) : Except Failure (BitVec 8) :=
  if threadId < 256 then .ok (BitVec.ofNat 8 threadId)
  else .error (.err (.parseThread "out of range integral type conversion attempted"))

/-- `unwrap`. -/
def unwrap {α : Type} : Except Failure α → Except Failure α
  | .ok a => .ok a
  | .error _ => .error .panic

section Extract

variable (isla : Isla)

/-- The register and the value of a register equality. -/
def readEqLoc (reg : isla.Name) (threadId : Nat) (e : Exp isla.Name) : Except Failure (Key × MovSrc isla.B64) := do
  let threadId ← threadIdOf threadId
  let reg ← parseRegFromStr (isla.decode reg)
  let val ← unwrap (tryFrom isla e)
  return ((threadId, reg), val)

mutual

/-- `extract_regs_from_exp` of `parse_assertion_into_conjunction_of_regs`. -/
def extractRegsFromExp (regValPairs : RegVals isla) (not : Bool) : Exp isla.Name → Except Failure (RegVals isla)
  | .eqLoc (.register reg threadId) e => do
    let (k, val) ← readEqLoc isla reg threadId e
    return regValPairs.insert k (if not then .not val else .eq val)
  | .not e => extractRegsFromExp regValPairs (!not) e
  | .and es => extractRegsFromExps regValPairs not es
  | .or es => .error (.err (.unsupported ("Can't yet use '|' (or) in assertion (" ++ isla.debugAll es ++ ")")))
  | e => .error (.err (.unsupported ("Can't yet use final assertions with complex terms " ++ isla.debug e)))

/-- The loop over the parts of a conjunction. -/
def extractRegsFromExps (regValPairs : RegVals isla) (not : Bool) : List (Exp isla.Name) →
    Except Failure (RegVals isla)
  | [] => .ok regValPairs
  | e :: es => do
    let regValPairs ← extractRegsFromExp regValPairs not e
    extractRegsFromExps regValPairs not es

end

/-- `parse_assertion_into_conjunction_of_regs`, up to the order of the pairs. -/
def parseAssertionIntoConjunctionOfRegs (finalAssertion : Exp isla.Name) : Except Failure (RegVals isla) :=
  extractRegsFromExp isla [] Bool.false finalAssertion

end Extract

/-! ## What assertions and comparisons mean -/

section Meaning

variable (isla : Isla) (env : Env) (ρ : Key → U64)

mutual

/-- An assertion as a formula over tests of registers, if it is built from register equalities, negations and
conjunctions and its registers and values can be read. -/
def toForm : Exp isla.Name → Option (Form Key (MovSrc isla.B64))
  | .eqLoc (.register reg threadId) e => (readEqLoc isla reg threadId e).toOption.map fun p => .test p.1 p.2
  | .not e => (toForm e).map .neg
  | .and es => (toForms es).map .conj
  | _ => none

/-- The assertions of a list. -/
def toForms : List (Exp isla.Name) → Option (List (Form Key (MovSrc isla.B64)))
  | [] => some []
  | e :: es => do
    let f ← toForm e
    let fs ← toForms es
    return f :: fs

end

/-- An assertion holds in a valuation of the registers. -/
def Asserts (e : Exp isla.Name) : Prop := ∃ f ∈ toForm isla e, f.Holds (MovSrc.cValue isla env) ρ

/-- The comparison that is printed for a pair: `==` or `!=`. -/
def Compares : Key × Negatable (MovSrc isla.B64) → Prop
  | (k, .eq v) => ρ k = v.cValue isla env
  | (k, .not v) => ρ k ≠ v.cValue isla env

/-- The printed condition: the conjunction of the comparisons. -/
def Condition (pairs : RegVals isla) : Prop := ∀ p ∈ pairs, Compares isla env ρ p

end Meaning

/-! ## The descent keeps literals -/

section Keep

variable {isla : Isla}

/-- A pair of the map as a literal. -/
def toLit (p : Key × Negatable (MovSrc isla.B64)) : Lit Key (MovSrc isla.B64) :=
  match p.2 with
  | .eq v => ⟨p.1, v, true⟩
  | .not v => ⟨p.1, v, false⟩

theorem toLit_key (p : Key × Negatable (MovSrc isla.B64)) : (toLit p).key = p.1 := by
  unfold toLit
  split <;> rfl

theorem holds_toLit (env : Env) (ρ : Key → U64) (p : Key × Negatable (MovSrc isla.B64)) :
    (toLit p).Holds (MovSrc.cValue isla env) ρ ↔ Compares isla env ρ p := by
  obtain ⟨k, v | v⟩ := p <;> simp [toLit, Lit.Holds, Compares]

theorem condition_iff (env : Env) (ρ : Key → U64) (pairs : RegVals isla) :
    Condition isla env ρ pairs ↔ ∀ l ∈ pairs.map toLit, l.Holds (MovSrc.cValue isla env) ρ := by
  simp only [Condition, List.forall_mem_map, holds_toLit]

theorem map_insert (m : RegVals isla) (k : Key) (v : Negatable (MovSrc isla.B64)) :
    (m.insert k v).map toLit = Lits.keep (m.map toLit) (toLit (k, v)) := by
  simp only [RegVals.insert, Lits.keep, List.map_cons, List.filter_map, Function.comp_def, toLit_key]

mutual

/-- **The comparisons are what is kept of the literals.** -/
theorem extract_eq_keepAll : ∀ {m m' : RegVals isla} {not : Bool} {e : Exp isla.Name},
    extractRegsFromExp isla m not e = .ok m' →
    ∃ f, toForm isla e = some f ∧ m'.map toLit = Lits.keepAll (m.map toLit) (f.lits (!not))
  | m, m', not, .eqLoc (.register reg threadId) e, h => by
    simp only [extractRegsFromExp] at h
    cases hr : readEqLoc isla reg threadId e with
    | error x => simp [hr, bind, Except.bind] at h
    | ok p =>
      obtain ⟨k, val⟩ := p
      simp only [hr, bind, Except.bind, pure, Except.pure, Except.ok.injEq] at h
      refine ⟨.test k val, by simp [toForm, hr, Except.toOption], ?_⟩
      subst h
      rw [map_insert]
      cases not <;> rfl
  | m, m', not, .not e, h => by
    simp only [extractRegsFromExp] at h
    obtain ⟨f, hf, hm⟩ := extract_eq_keepAll h
    exact ⟨.neg f, by simp [toForm, hf], by simpa only [Form.lits] using hm⟩
  | m, m', not, .and es, h => by
    simp only [extractRegsFromExp] at h
    obtain ⟨fs, hfs, hm⟩ := extractAll_eq_keepAll h
    exact ⟨.conj fs, by simp [toForm, hfs], by simpa only [Form.lits] using hm⟩
  | _, _, _, .eqLoc .other _, h | _, _, _, .loc _, h | _, _, _, .label _, h | _, _, _, .true, h | _, _, _, .false, h
  | _, _, _, .bin _, h | _, _, _, .hex _, h | _, _, _, .bits64 _ _, h | _, _, _, .nat _, h | _, _, _, .or _, h
  | _, _, _, .implies _ _, h | _, _, _, .app _ _ _, h => by simp [extractRegsFromExp] at h

theorem extractAll_eq_keepAll : ∀ {m m' : RegVals isla} {not : Bool} {es : List (Exp isla.Name)},
    extractRegsFromExps isla m not es = .ok m' →
    ∃ fs, toForms isla es = some fs ∧ m'.map toLit = Lits.keepAll (m.map toLit) (Lits.litsAll (!not) fs)
  | m, m', not, [], h => by
    simp only [extractRegsFromExps, Except.ok.injEq] at h
    exact ⟨[], rfl, by simp [h, Lits.litsAll, Lits.keepAll]⟩
  | m, m', not, e :: es, h => by
    simp only [extractRegsFromExps] at h
    cases he : extractRegsFromExp isla m not e with
    | error x => simp [he, bind, Except.bind] at h
    | ok m₁ =>
      simp only [he, bind, Except.bind] at h
      obtain ⟨f, hf, hm₁⟩ := extract_eq_keepAll he
      obtain ⟨fs, hfs, hm⟩ := extractAll_eq_keepAll h
      refine ⟨f :: fs, by simp [toForms, hf, hfs], ?_⟩
      rw [hm, hm₁, Lits.litsAll, Lits.keepAll_append]

end

end Keep

/-! ## What an accepted assertion is translated into -/

section Exact

variable (isla : Isla)

/-- Every conjunction under an odd number of negations has exactly one part. -/
def IsPlain (e : Exp isla.Name) : Prop := ∃ f ∈ toForm isla e, f.Plain true

/-- The last comparison of each register implies the others of that register. -/
def LastAgrees (env : Env) (e : Exp isla.Name) : Prop :=
  ∃ f ∈ toForm isla e, Lits.LastImplies (MovSrc.cValue isla env) (f.lits true)

/-- No conjunction is empty and no register is tested twice. -/
def OneTestEach (e : Exp isla.Name) : Prop := ∃ f ∈ toForm isla e, f.Full ∧ (Lits.keys (f.lits true)).Nodup

/-- **The condition that is printed for an accepted assertion.** It means the assertion if the assertion is plain and
the last comparison of each register implies the others; if the assertion is plain, or if no register is tested twice,
then only if so. -/
theorem parseAssertion_exact (env : Env) {e : Exp isla.Name} {m pairs : RegVals isla}
    (h : parseAssertionIntoConjunctionOfRegs isla e = .ok m) (hpairs : pairs.Perm m) :
    (IsPlain isla e ∧ LastAgrees isla env e → ∀ ρ, Condition isla env ρ pairs ↔ Asserts isla env ρ e) ∧
      (IsPlain isla e ∨ OneTestEach isla e →
        ((∀ ρ, Condition isla env ρ pairs ↔ Asserts isla env ρ e) ↔ IsPlain isla e ∧ LastAgrees isla env e)) := by
  have h3 : ∀ a b : U64, ∃ c, c ≠ a ∧ c ≠ b := fun a b => by
    by_cases h0 : (0 : U64) ≠ a ∧ (0 : U64) ≠ b
    · exact ⟨0, h0⟩
    by_cases h1 : (1 : U64) ≠ a ∧ (1 : U64) ≠ b
    · exact ⟨1, h1⟩
    · exact ⟨2, by simp only [ne_eq] at h0 h1 ⊢; bv_omega⟩
  have : Nontrivial U64 := ⟨0, 1, by decide⟩
  obtain ⟨f, hf, hm⟩ := extract_eq_keepAll h
  simp only [Bool.not_false, List.map_nil] at hm
  have hcond (ρ : Key → U64) : Condition isla env ρ pairs ↔
      ∀ l ∈ Lits.keepAll [] (f.lits true), l.Holds (MovSrc.cValue isla env) ρ := by
    rw [condition_iff, ← hm]
    exact forall_congr' fun l => by rw [(hpairs.map toLit).mem_iff]
  have hsome (P : Form Key (MovSrc isla.B64) → Prop) : (∃ g ∈ toForm isla e, P g) ↔ P f := by simp [hf]
  simp only [hcond, Asserts, IsPlain, LastAgrees, OneTestEach, hsome]
  have hplain (hp : f.Plain true) := Lits.plain_holds_iff (MovSrc.cValue isla env) h3 hp
  refine ⟨fun ⟨hp, hl⟩ => (hplain hp).mpr hl, ?_⟩
  rintro (hp | ⟨hfull, hd⟩)
  · simp only [hplain hp, hp, true_and]
  · simp only [Lits.nodup_holds_iff (MovSrc.cValue isla env) h3 hfull hd, Lits.lastImplies_of_nodup _ hd, and_true]

end Exact

/-! ## A negated conjunction -/

/-- The parser library with the words of 64 bits as its bit vectors. -/
def isla64 : Isla where
  Name := String
  decode := id
  B64 := U64
  new bits _ := bits
  fromStr s := (fromStrRadix 64 16 (s.toList.drop 2)).toOption
  lowerU64 := id
  signExtend bv _ := some bv
  and a b := some (a &&& b)
  or a b := some (a ||| b)
  xor a b := some (a ^^^ b)
  shr a b := some (a >>> b)
  shl a b := some (a <<< b)
  debug _ := ""
  debugAll _ := ""

/-- A program without variables. -/
def env0 : Env := ⟨fun _ => 0, fun _ _ => 0, fun _ _ => 0, fun _ => 0⟩

/-- `thread:reg=n`. -/
def regEq (threadId : Nat) (reg : String) (n : U64) : Exp isla64.Name := .eqLoc (.register reg threadId) (.nat n)

theorem parseAssertion_exact_two :
    parseAssertionIntoConjunctionOfRegs isla64 (.and [regEq 1 "X0" 1, .not (regEq 1 "X2" 0)]) =
      .ok [((1, .x 2), .not (.nat (0 : U64))), ((1, .x 0), .eq (.nat (1 : U64)))] ∧
    ∀ ρ, Condition isla64 env0 ρ [((1, .x 0), .eq (.nat (1 : U64))), ((1, .x 2), .not (.nat (0 : U64)))] ↔
      Asserts isla64 env0 ρ (.and [regEq 1 "X0" 1, .not (regEq 1 "X2" 0)]) := by
  have hform : toForm isla64 (.and [regEq 1 "X0" 1, .not (regEq 1 "X2" 0)]) =
      some (.conj [.test (1, .x 0) (.nat (1 : U64)), .neg (.test (1, .x 2) (.nat (0 : U64)))]) := by rfl
  refine ⟨by rfl, (parseAssertion_exact isla64 env0 (by rfl) (List.Perm.swap _ _ _)).1 ⟨⟨_, hform, ?_⟩, ⟨_, hform, ?_⟩⟩⟩
  · simp [Form.Plain, Lits.PlainAll]
  · exact Lits.lastImplies_of_nodup _ (by simp [Form.lits, Lits.litsAll, Lits.keys])

/-- `~(0:X0=1 & 0:X1=1)` holds where only `X1` is different, and the printed condition does not. -/
theorem parseAssertion_negated_wrong : ¬ ∀ (isla : Isla) (env : Env) (e : Exp isla.Name) (m : RegVals isla)
    (ρ : Key → U64), parseAssertionIntoConjunctionOfRegs isla e = .ok m →
    (Condition isla env ρ m ↔ Asserts isla env ρ e) := by
  intro h
  have hm := h isla64 env0
    (.not (.and [regEq 0 "X0" 1, regEq 0 "X1" 1])) [((0, .x 1), .not (.nat (1 : U64))), ((0, .x 0), .not (.nat (1 : U64)))]
    (fun k => if k = (0, .x 0) then 1 else 0) (by rfl)
  have hasserts : Asserts isla64 env0
      (fun k => if k = (0, .x 0) then 1 else 0) (.not (.and [regEq 0 "X0" 1, regEq 0 "X1" 1])) :=
    ⟨.neg (.conj [.test (0, .x 0) (.nat (1 : U64)), .test (0, .x 1) (.nat (1 : U64))]), by rfl, by
      simp [Form.Holds, Lits.AllHold, MovSrc.cValue, isla64]⟩
  have := hm.mpr hasserts ((0, .x 0), .not (.nat (1 : U64))) (by simp)
  simp [Compares, MovSrc.cValue, isla64] at this

end LitmusHarness.Translator
