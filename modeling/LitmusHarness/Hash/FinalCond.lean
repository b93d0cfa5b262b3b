import LitmusHarness.Hash.Scan

/-!
# Printing the final condition

`blit_final_cond` with the pointers of the test: where `interesting_results` counts, it is not looked at whether they are
there, and neither is `interesting_result` otherwise. What is printed has to fit into a buffer of 1024 bytes, with a NUL
(`printFinalCondPtr_prints`), and where nothing is printed the buffer is not written at all.
-/

namespace LitmusHarness

namespace TestHash

open Fixed (Stream sputc)

/-! ## The functions of the source, with their pointers -/

/-- `litmus_test_t`, with the pointers to its results. The arrays have as many elements as it says. -/
structure TestDef where
  name : Option CStr
  initStates : List VarState
  threads : List Code
  threadSyncHandlers : Option (List (Code × Code))
  regNames : List (List Char)
  interestingResult : Option (List U64)
  noInterestingResults : U64
  interestingResults : Option (List (List U64))
  handlers_length : ∀ handlers ∈ threadSyncHandlers, handlers.length = threads.length
  result_length : ∀ result ∈ interestingResult, result.length = regNames.length
  results_length : ∀ results ∈ interestingResults, results.length = noInterestingResults.toNat ∧
    ∀ result ∈ results, result.length = regNames.length

/-- The test of the functions that do not look at the results. -/
def TestDef.toTest (test : TestDef) : Test where
  name := test.name
  initStates := test.initStates
  threads := test.threads
  threadSyncHandlers := test.threadSyncHandlers
  regNames := test.regNames
  interestingResult := test.interestingResult.getD []
  interestingResults := test.interestingResults.getD []

/-- `a[i]`. There is nothing to read at a null pointer or behind the end. -/
def readArray {α : Type} (a : Option (List α)) (i : Nat) : Except BlitError α :=
  match (a.getD [])[i]? with
  | some x => .ok x
  | none => .error .diverges

/-- A character of a string, or its NUL. -/
def charAt (s : List Char) (i : Nat) : Except BlitError Char := readArray (some (s ++ ['\x00'])) i

/-- `extract_gpr`. -/
def extractGprPtr (regName : List Char) : Except BlitError (Option (U32 × U32)) := do
  if (← charAt regName 0) ≠ 'p' then return none
  if (← charAt regName 2) ≠ ':' then return none
  let tid ← charAt regName 1
  -- `atoi` reads one character at least
  let _ ← charAt regName 4
  match atoi (regName.drop 4) with
  | .ok gprid => return some (BitVec.ofNat 32 (ctoi tid), gprid.setWidth 32)
  | .error e => .error (.fail e)

/-- `sprint_reg` with `STYLE_HERDTOOLS`. -/
def sprintRegPtr (out : Stream) (regName : List Char) : Except BlitError Stream := do
  match ← extractGprPtr regName with
  | some (tid, gprid) =>
    sprintf out (sputdec (tid.signExtend 64) ++ [':', 'X'] ++ sputdec (gprid.signExtend 64))
  | none => sprintf out regName

/-- `SPRINTF_RESULT`. The result is read in the loop only. -/
def sprintfResultPtr (regNames : List (List Char)) (result : Option (List U64)) (out : Stream) :
    Except BlitError Stream :=
  regNames.zipIdx.foldlM (fun out (regName, i) => do
    let out ← sprintfIf (i > 0) out [' ', '/', '\\', ' ']
    let out ← sprintRegPtr out regName
    let v ← readArray result i
    sprintf out ('=' :: sputdec v)) out

/-- The part of `blit_final_cond` that prints. -/
def printFinalCondPtr (test : TestDef) : Except BlitError Stream :=
  let n := test.noInterestingResults.toNat
  if n ≠ 0 then
    (List.range n).foldlM (fun out r => do
      let out ← sprintfIf (r > 0) out [' ', '\\', '/', ' ']
      let out ← sprintfIf (n > 1) out ['(']
      let out ← sprintfResultPtr test.regNames (test.interestingResults.getD [])[r]? out
      sprintfIf (n > 1) out [')']) ⟨[], 1024⟩
  else sprintfResultPtr test.regNames test.interestingResult ⟨[], 1024⟩

/-- The string in `final_cond` that `blit_final_cond` blits. -/
def finalCondPtr (garbage : CStr) (test : TestDef) : Except BlitError CStr := do
  let out ← printFinalCondPtr test
  return if out.text = [] then garbage else cstr out.text

/-! ## What is printed -/

/-- The names that `extract_gpr` can read: it reads behind the end of `p` and of names like `p0:`, and the number of a
general-purpose register has to be one. -/
def RegNameOk (regName : List Char) : Prop :=
  regName ≠ ['p'] ∧ (regName.getD 0 '\x00' = 'p' ∧ regName.getD 2 '\x00' = ':' →
    4 ≤ regName.length ∧ (atoi (regName.drop 4)).isOk = true)

instance (regName : List Char) : Decidable (RegNameOk regName) := inferInstanceAs (Decidable (_ ∧ _))

/-- The number of characters of a register. -/
def regLength (regName : List Char) : Nat :=
  match extractGpr regName with
  | .ok (some (tid, gprid)) => (sputdec (tid.signExtend 64)).length + 2 + (sputdec (gprid.signExtend 64)).length
  | _ => regName.length

/-- The number of characters of a result. -/
def resultLength (regNames : List (List Char)) (result : Option (List U64)) : Nat :=
  (regNames.zipIdx.map fun (regName, i) => (if i > 0 then 4 else 0) +
    (regLength regName + (1 + (sputdec ((result.getD []).getD i 0)).length))).sum

/-- The number of characters of the final condition. -/
def TestDef.condLength (test : TestDef) : Nat :=
  let n := test.noInterestingResults.toNat
  if n ≠ 0 then
    ((List.range n).map fun r => (if r > 0 then 4 else 0) + ((if n > 1 then 1 else 0) +
      (resultLength test.regNames (test.interestingResults.getD [])[r]? + (if n > 1 then 1 else 0)))).sum
  else resultLength test.regNames test.interestingResult

/-- A function prints `n` characters if `P`, and fails otherwise or if there is no room for them and a NUL. -/
structure Prints (f : Stream → Except BlitError Stream) (P : Prop) (n : Nat) : Prop where
  ok : ∀ out : Stream, P → n < out.rem → ∃ out', f out = .ok out' ∧ out'.text.length = out.text.length + n ∧
    out'.rem + n = out.rem
  of_ok : ∀ out out' : Stream, 0 < out.rem → f out = .ok out' → P ∧ n < out.rem

theorem prints_nothing : Prints (fun out => .ok out) True 0 where
  ok out _ _ := ⟨out, rfl, rfl, rfl⟩
  of_ok _ _ hpos _ := ⟨trivial, hpos⟩

theorem Prints.congr {f : Stream → Except BlitError Stream} {P Q : Prop} {n m : Nat} (h : Prints f P n) (hP : P ↔ Q)
    (hn : n = m) : Prints f Q m := by
  subst hn
  exact ⟨fun out hQ => h.ok out (hP.2 hQ), fun out out' hpos hf => (h.of_ok out out' hpos hf).imp_left hP.1⟩

/-- One after the other. -/
theorem Prints.seq {f g : Stream → Except BlitError Stream} {P Q : Prop} {n m : Nat} (hf : Prints f P n)
    (hg : Prints g Q m) : Prints (fun out => f out >>= g) (P ∧ Q) (n + m) := by
  constructor
  · rintro out ⟨hP, hQ⟩ hlt
    obtain ⟨out₁, h₁, htext₁, hrem₁⟩ := hf.ok out hP (by omega)
    obtain ⟨out₂, h₂, htext₂, hrem₂⟩ := hg.ok out₁ hQ (by omega)
    refine ⟨out₂, ?_, by omega, by omega⟩
    simp only [h₁, bind, Except.bind, h₂]
  · intro out out' hpos h
    obtain ⟨out₁, h₁, h₂⟩ := Loop.bind_ok h
    obtain ⟨hP, hlt⟩ := hf.of_ok out out₁ hpos h₁
    obtain ⟨out₁', h₁', -, hrem⟩ := hf.ok out hP hlt
    obtain rfl := Except.ok.inj (h₁.symm.trans h₁')
    obtain ⟨hQ, hlt'⟩ := hg.of_ok out₁ out' (by omega) h₂
    exact ⟨⟨hP, hQ⟩, by omega⟩

/-- A loop over a list. -/
theorem Prints.foldlM {α : Type} {f : α → Stream → Except BlitError Stream} {P : α → Prop} {n : α → Nat} :
    ∀ l : List α, (∀ a ∈ l, Prints (f a) (P a) (n a)) →
      Prints (fun out => l.foldlM (fun out a => f a out) out) (∀ a ∈ l, P a) (l.map n).sum := by
  intro l h
  induction l with
  | nil => exact prints_nothing.congr (by simp) rfl
  | cons a l ih =>
    have hrest := (h a List.mem_cons_self).seq (ih fun b hb => h b (List.mem_cons_of_mem a hb))
    exact hrest.congr (by rw [List.forall_mem_cons]) (by rw [List.map_cons, List.sum_cons])

theorem foldlM_sputc (text : List Char) (out : Stream) : text.foldlM sputc out =
    if text.length ≤ out.rem then .ok ⟨out.text ++ text, out.rem - text.length⟩ else .error "empty stream" := by
  induction text generalizing out with
  | nil => simp [pure, Except.pure]
  | cons c text ih =>
    rw [List.foldlM_cons, sputc]
    by_cases hrem : out.rem = 0
    · rw [if_pos hrem, if_neg (by rw [List.length_cons, hrem]; exact Nat.not_succ_le_zero _)]
      rfl
    · rw [if_neg hrem]
      simp only [bind, Except.bind]
      rw [ih]
      by_cases hle : text.length + 1 ≤ out.rem
      · rw [if_pos (show text.length ≤ out.rem - 1 by omega), if_pos (by rwa [List.length_cons])]
        simp only [List.append_assoc, List.singleton_append, List.length_cons, Except.ok.injEq, Stream.mk.injEq, true_and]
        omega
      · rw [if_neg (show ¬text.length ≤ out.rem - 1 by omega), if_neg (by rwa [List.length_cons])]

/-- With room for the text and the NUL. -/
theorem sprintf_ok {text : List Char} {out : Stream} (h : text.length < out.rem) :
    sprintf out text = .ok ⟨out.text ++ text, out.rem - text.length⟩ := by
  simp only [sprintf, foldlM_sputc, if_pos h.le, bind, Except.bind, sputc]
  rw [if_neg (by omega)]
  rfl

theorem prints_sprintf (text : List Char) : Prints (fun out => sprintf out text) True text.length := by
  constructor
  · intro out _ hlt
    exact ⟨⟨out.text ++ text, out.rem - text.length⟩, sprintf_ok hlt, List.length_append, Nat.sub_add_cancel hlt.le⟩
  · intro out out' _ h
    refine ⟨trivial, ?_⟩
    by_contra hge
    by_cases hle : text.length ≤ out.rem
    · simp only [sprintf, foldlM_sputc, if_pos hle, bind, Except.bind, sputc] at h
      rw [if_pos (by omega)] at h
      cases h
    · simp only [sprintf, foldlM_sputc, if_neg hle, bind, Except.bind] at h
      cases h

theorem prints_sprintfIf (cond : Bool) (text : List Char) :
    Prints (fun out => sprintfIf cond out text) True (if cond then text.length else 0) := by
  cases cond with
  | true => exact prints_sprintf text
  | false => exact prints_nothing

theorem charAt_eq (s : List Char) (i : Nat) :
    charAt s i = if i ≤ s.length then .ok (s.getD i '\x00') else .error .diverges := by
  have hlength : (s ++ ['\x00']).length = s.length + 1 := List.length_append
  rw [charAt, readArray, Option.getD_some]
  split_ifs with hi
  · rw [List.getElem?_eq_getElem (by omega)]
    rcases Nat.lt_or_eq_of_le hi with hlt | rfl
    · rw [List.getElem_append_left hlt, List.getD_eq_getElem _ _ hlt]
    · rw [List.getElem_concat_length rfl, List.getD_eq_default _ _ (Nat.le_refl _)]
  · rw [List.getElem?_eq_none (by omega)]

theorem extractGpr_gpr {regName : List Char} (hp : regName.getD 0 '\x00' = 'p') (hcolon : regName.getD 2 '\x00' = ':') :
    extractGpr regName = match atoi (regName.drop 4) with
      | .ok gprid => .ok (some (BitVec.ofNat 32 (ctoi (regName.getD 1 '\x00')), gprid.setWidth 32))
      | .error e => .error (.fail e) :=
  if_neg (not_or.2 ⟨not_not.2 hp, not_not.2 hcolon⟩)

/-- A name of a general-purpose register, as far as it can be read. -/
theorem extractGprPtr_gpr {regName : List Char} (htwo : 2 ≤ regName.length) (hp : regName.getD 0 '\x00' = 'p')
    (hcolon : regName.getD 2 '\x00' = ':') :
    extractGprPtr regName = if 4 ≤ regName.length then extractGpr regName else .error .diverges := by
  have h₀ : charAt regName 0 = .ok 'p' := by rw [charAt_eq, if_pos (Nat.zero_le _), hp]
  have h₁ : charAt regName 1 = .ok (regName.getD 1 '\x00') := by rw [charAt_eq, if_pos (by omega)]
  have h₂ : charAt regName 2 = .ok ':' := by rw [charAt_eq, if_pos htwo, hcolon]
  rw [extractGpr_gpr hp hcolon]
  simp only [extractGprPtr, h₀, h₁, h₂, charAt_eq regName 4]
  split_ifs <;> rfl

/-- Names that can be read are read as if nothing was checked, and the others are not. -/
theorem extractGprPtr_eq (regName : List Char) :
    (RegNameOk regName → extractGprPtr regName = extractGpr regName ∧ ∃ gpr, extractGpr regName = .ok gpr) ∧
    (¬RegNameOk regName → ∃ e, extractGprPtr regName = .error e) := by
  by_cases hp : regName.getD 0 '\x00' = 'p'
  · by_cases hone : regName = ['p']
    · -- `reg_name[2]` is behind the NUL
      subst hone
      exact ⟨fun h => absurd rfl h.1, fun _ => ⟨.diverges, rfl⟩⟩
    · have htwo : 2 ≤ regName.length := by
        match regName, hp, hone with
        | [_], rfl, h => exact absurd rfl h
        | _ :: _ :: _, _, _ => exact Nat.le_add_left 2 _
      by_cases hcolon : regName.getD 2 '\x00' = ':'
      · rw [extractGprPtr_gpr htwo hp hcolon]
        by_cases hfour : 4 ≤ regName.length
        · rw [if_pos hfour, extractGpr_gpr hp hcolon]
          cases hnumber : atoi (regName.drop 4) with
          | ok gprid =>
            have hok : RegNameOk regName := ⟨hone, fun _ => ⟨hfour, by rw [hnumber]; rfl⟩⟩
            exact ⟨fun _ => ⟨rfl, _, rfl⟩, fun h => absurd hok h⟩
          | error e =>
            refine ⟨fun h => ?_, fun _ => ⟨.fail e, rfl⟩⟩
            have hok := (h.2 ⟨hp, hcolon⟩).2
            rw [hnumber] at hok
            cases hok
        · -- `reg_name[4]` is behind the NUL
          exact ⟨fun h => absurd (h.2 ⟨hp, hcolon⟩).1 hfour, fun _ => ⟨.diverges, if_neg hfour⟩⟩
      · have hok : RegNameOk regName := ⟨hone, fun h => absurd h.2 hcolon⟩
        have hgpr : extractGpr regName = .ok none := if_pos (.inr hcolon)
        refine ⟨fun _ => ⟨?_, none, hgpr⟩, fun h => absurd hok h⟩
        rw [hgpr]
        simp only [extractGprPtr, charAt_eq, if_pos (Nat.zero_le _), if_pos htwo, bind, Except.bind,
          if_neg (not_not.2 hp), if_pos hcolon]
        rfl
  · have hok : RegNameOk regName := ⟨fun h => hp (by rw [h]; rfl), fun h => absurd h.1 hp⟩
    have hgpr : extractGpr regName = .ok none := if_pos (.inl hp)
    refine ⟨fun _ => ⟨?_, none, hgpr⟩, fun h => absurd hok h⟩
    rw [hgpr]
    simp only [extractGprPtr, charAt_eq, if_pos (Nat.zero_le _), bind, Except.bind, if_pos hp]
    rfl

theorem prints_sprintRegPtr (regName : List Char) :
    Prints (fun out => sprintRegPtr out regName) (RegNameOk regName) (regLength regName) := by
  obtain ⟨hok, herror⟩ := extractGprPtr_eq regName
  by_cases hname : RegNameOk regName
  · obtain ⟨heq, gpr, hgpr⟩ := hok hname
    have hprints : Prints (fun out => sprintRegPtr out regName) True (regLength regName) := by
      unfold sprintRegPtr regLength
      rw [heq, hgpr]
      cases gpr with
      | none => exact prints_sprintf regName
      | some gpr =>
        refine (prints_sprintf _).congr Iff.rfl ?_
        simp only [List.length_append, List.length_cons, List.length_nil]
    exact hprints.congr (iff_of_true trivial hname) rfl
  · obtain ⟨e, he⟩ := herror hname
    refine ⟨fun _ h => absurd h hname, fun out out' _ h => ?_⟩
    rw [sprintRegPtr, he] at h
    cases h

/-- What is read from an array that has as many elements as there are registers. -/
theorem prints_value {result : Option (List U64)} (i : Nat) :
    Prints (fun out => readArray result i >>= fun v => sprintf out ('=' :: sputdec v)) (i < (result.getD []).length)
      (1 + (sputdec ((result.getD []).getD i 0)).length) := by
  by_cases hi : i < (result.getD []).length
  · have hread : readArray result i = .ok ((result.getD []).getD i 0) := by
      rw [readArray, List.getElem?_eq_getElem hi, List.getD_eq_getElem _ _ hi]
    refine (show Prints _ True _ from ?_).congr (iff_of_true trivial hi) rfl
    simp only [hread, bind, Except.bind]
    exact (prints_sprintf _).congr Iff.rfl (by rw [List.length_cons, Nat.add_comm])
  · have hread : readArray result i = .error .diverges := by
      rw [readArray, List.getElem?_eq_none (Nat.not_lt.1 hi)]
    refine ⟨fun _ h => absurd h hi, fun out out' _ h => ?_⟩
    rw [hread] at h
    cases h

theorem prints_result (regNames : List (List Char)) (result : Option (List U64)) :
    Prints (sprintfResultPtr regNames result)
      ((∀ regName ∈ regNames, RegNameOk regName) ∧ regNames.length ≤ (result.getD []).length)
      (resultLength regNames result) := by
  have hprints := @Prints.foldlM (List Char × Nat) (fun p out => do
      let out ← sprintfIf (p.2 > 0) out [' ', '/', '\\', ' ']
      let out ← sprintRegPtr out p.1
      let v ← readArray result p.2
      sprintf out ('=' :: sputdec v))
    (fun p => True ∧ RegNameOk p.1 ∧ p.2 < (result.getD []).length)
    (fun p => (if p.2 > 0 then 4 else 0) + (regLength p.1 + (1 + (sputdec ((result.getD []).getD p.2 0)).length)))
    regNames.zipIdx fun p _ => by
      have hseq := (prints_sprintfIf (p.2 > 0) [' ', '/', '\\', ' ']).seq
        ((prints_sprintRegPtr p.1).seq (@prints_value result p.2))
      exact hseq.congr Iff.rfl (by simp)
  refine hprints.congr ⟨fun h => ⟨fun regName hmem => ?_, ?_⟩, fun ⟨hnames, hlength⟩ p hp => ?_⟩ rfl
  · obtain ⟨i, hi⟩ := List.mem_iff_getElem?.1 hmem
    exact (h (regName, i) (List.mk_mem_zipIdx_iff_getElem?.2 hi)).2.1
  · by_contra hlt
    have hi := List.getElem?_eq_getElem (Nat.not_le.1 hlt)
    exact absurd (h (_, _) (List.mk_mem_zipIdx_iff_getElem?.2 hi)).2.2 (Nat.lt_irrefl _)
  · have hi := List.mem_zipIdx_iff_getElem?.1 hp
    obtain ⟨hlt, hname⟩ := List.getElem?_eq_some_iff.1 hi
    exact ⟨trivial, hnames p.1 (hname ▸ List.getElem_mem hlt), Nat.lt_of_lt_of_le hlt hlength⟩

/-- The results that are rendered are there, if there is a register to render. -/
def TestDef.ResultsThere (test : TestDef) : Prop :=
  test.regNames = [] ∨ if test.noInterestingResults.toNat ≠ 0 then test.interestingResults.isSome = true
    else test.interestingResult.isSome = true

theorem result_there_iff {regNames : List (List Char)} {result : Option (List U64)}
    (h : ∀ r ∈ result, r.length = regNames.length) :
    regNames.length ≤ (result.getD []).length ↔ regNames = [] ∨ result.isSome = true := by
  cases result with
  | none => simp
  | some r => simp [h r rfl]

theorem results_there_iff (test : TestDef) (hn : test.noInterestingResults.toNat ≠ 0) :
    (∀ r ∈ List.range test.noInterestingResults.toNat,
      test.regNames.length ≤ (((test.interestingResults.getD [])[r]?).getD []).length) ↔
    test.regNames = [] ∨ test.interestingResults.isSome = true := by
  cases hresults : test.interestingResults with
  | none =>
    have hmem := List.mem_range.2 (Nat.pos_of_ne_zero hn)
    simp only [Option.getD_none, List.getElem?_nil, List.length_nil, Nat.le_zero, List.length_eq_zero_iff,
      Option.isSome_none, Bool.false_eq_true, or_false]
    exact ⟨fun h => h 0 hmem, fun h _ _ => h⟩
  | some results =>
    obtain ⟨hlength, hall⟩ := test.results_length results hresults
    refine iff_of_true (fun r hr => ?_) (.inr rfl)
    rw [List.mem_range, ← hlength] at hr
    rw [Option.getD_some, List.getElem?_eq_getElem hr, Option.getD_some, hall _ (List.getElem_mem hr)]

/-- **What is printed of the final condition**: it needs the names and the results, and room. -/
theorem printFinalCondPtr_prints (test : TestDef) :
    ((∃ out, printFinalCondPtr test = .ok out) ↔
      ((∀ regName ∈ test.regNames, RegNameOk regName) ∧ test.ResultsThere) ∧ test.condLength < 1024) ∧
    ∀ out, printFinalCondPtr test = .ok out → out.text.length = test.condLength := by
  obtain ⟨print, hprint, hprints⟩ : ∃ print : Stream → Except BlitError Stream,
      printFinalCondPtr test = print ⟨[], 1024⟩ ∧
      Prints print ((∀ regName ∈ test.regNames, RegNameOk regName) ∧ test.ResultsThere) test.condLength := by
    unfold printFinalCondPtr TestDef.condLength TestDef.ResultsThere
    dsimp only
    by_cases hn : test.noInterestingResults.toNat ≠ 0
    · refine ⟨fun out => (List.range test.noInterestingResults.toNat).foldlM (fun out r => do
        let out ← sprintfIf (r > 0) out [' ', '\\', '/', ' ']
        let out ← sprintfIf (test.noInterestingResults.toNat > 1) out ['(']
        let out ← sprintfResultPtr test.regNames (test.interestingResults.getD [])[r]? out
        sprintfIf (test.noInterestingResults.toNat > 1) out [')']) out, by rw [if_pos hn], ?_⟩
      simp only [if_pos hn]
      refine (Prints.foldlM (P := fun r => True ∧ True ∧ ((∀ regName ∈ test.regNames, RegNameOk regName) ∧
        test.regNames.length ≤ (((test.interestingResults.getD [])[r]?).getD []).length) ∧ True) _
        fun r _ => ?_).congr ?_ rfl
      · have hseq := (prints_sprintfIf (r > 0) [' ', '\\', '/', ' ']).seq
          ((prints_sprintfIf (test.noInterestingResults.toNat > 1) ['(']).seq
            ((prints_result test.regNames (test.interestingResults.getD [])[r]?).seq
              (prints_sprintfIf (test.noInterestingResults.toNat > 1) [')'])))
        exact hseq.congr Iff.rfl (by simp)
      · rw [← results_there_iff test hn]
        have hmem := List.mem_range.2 (Nat.pos_of_ne_zero hn)
        exact ⟨fun h => ⟨(h 0 hmem).2.2.1.1, fun r hr => (h r hr).2.2.1.2⟩,
          fun h r hr => ⟨trivial, trivial, ⟨h.1, h.2 r hr⟩, trivial⟩⟩
    · refine ⟨sprintfResultPtr test.regNames test.interestingResult, if_neg hn, ?_⟩
      simp only [if_neg hn]
      exact (prints_result _ _).congr (and_congr_right fun _ => result_there_iff test.result_length) rfl
  rw [hprint]
  constructor
  · constructor
    · rintro ⟨out, hout⟩
      exact hprints.of_ok ⟨[], 1024⟩ out (by decide) hout
    · rintro ⟨hP, hlt⟩
      obtain ⟨out, hout, -⟩ := hprints.ok ⟨[], 1024⟩ hP hlt
      exact ⟨out, hout⟩
  · intro out hout
    obtain ⟨hP, hlt⟩ := hprints.of_ok ⟨[], 1024⟩ out (by decide) hout
    obtain ⟨out', hout', hlength, -⟩ := hprints.ok ⟨[], 1024⟩ hP hlt
    obtain rfl := Except.ok.inj (hout.symm.trans hout')
    simpa using hlength

theorem resultLength_pos_iff (regNames : List (List Char)) (result : Option (List U64)) :
    0 < resultLength regNames result ↔ regNames ≠ [] := by
  cases regNames with
  | nil => simp [resultLength]
  | cons regName regNames =>
    refine iff_of_true ?_ (List.cons_ne_nil _ _)
    rw [resultLength, List.zipIdx_cons, List.map_cons, List.sum_cons]
    dsimp only
    omega

/-- Something is printed, unless there is no register and at most one result. -/
theorem condLength_pos_iff (test : TestDef) :
    0 < test.condLength ↔ test.regNames ≠ [] ∨ 1 < test.noInterestingResults.toNat := by
  unfold TestDef.condLength
  dsimp only
  by_cases hn : test.noInterestingResults.toNat = 0
  · simp [hn, resultLength_pos_iff]
  · rw [if_pos hn, List.sum_pos_iff_exists_pos_nat]
    simp only [List.mem_map, List.mem_range, exists_exists_and_eq_and]
    constructor
    · rintro ⟨r, hr, hpos⟩
      by_contra hnone
      obtain ⟨hregs, hle⟩ := not_or.1 hnone
      have hrow := mt (resultLength_pos_iff test.regNames (test.interestingResults.getD [])[r]?).1 hregs
      rw [if_neg hle, if_neg (show ¬r > 0 by omega)] at hpos
      omega
    · intro h
      refine ⟨0, Nat.pos_of_ne_zero hn, ?_⟩
      rcases h with hregs | hmany
      · have hrow := (resultLength_pos_iff test.regNames (test.interestingResults.getD [])[0]?).2 hregs
        omega
      · rw [if_pos hmany]
        omega

/-! ## Without the pointers -/

theorem sprintfResultPtr_eq {regNames : List (List Char)} (hnames : ∀ regName ∈ regNames, RegNameOk regName)
    {result : Option (List U64)} (out : Stream) :
    sprintfResultPtr regNames result out = sprintfResult regNames (result.getD []) out := by
  refine Loop.foldlM_congr (fun p hp out => ?_) out
  obtain ⟨hlt, hname⟩ := List.getElem?_eq_some_iff.1 (List.mem_zipIdx_iff_getElem?.1 hp)
  have hgpr := ((extractGprPtr_eq p.1).1 (hnames p.1 (hname ▸ List.getElem_mem hlt))).1
  have hreg : ∀ out, sprintRegPtr out p.1 = sprintReg out p.1 := fun out => by
    rw [sprintRegPtr, hgpr]
    rfl
  simp only [hreg, readArray]
  cases (result.getD [])[p.2]? <;> rfl

/-- **With the names and the results**, the final condition is printed as if there were no pointers. -/
theorem printFinalCondPtr_eq {test : TestDef} (hnames : ∀ regName ∈ test.regNames, RegNameOk regName)
    (hresults : test.noInterestingResults.toNat ≠ 0 → test.interestingResults.isSome = true) :
    printFinalCondPtr test = printFinalCond test.toTest := by
  unfold printFinalCondPtr printFinalCond
  dsimp only
  by_cases hn : test.noInterestingResults.toNat = 0
  · have hlength : test.toTest.interestingResults.length = 0 := by
      rw [TestDef.toTest]
      cases hr : test.interestingResults with
      | none => rfl
      | some results => rw [Option.getD_some, (test.results_length results hr).1, hn]
    rw [if_neg (not_not.2 hn), if_neg (not_not.2 hlength)]
    exact sprintfResultPtr_eq hnames ⟨[], 1024⟩
  · obtain ⟨results, hr⟩ := Option.isSome_iff_exists.1 (hresults hn)
    have hlength := (test.results_length results hr).1
    have hto : test.toTest.interestingResults = results := by rw [TestDef.toTest, hr, Option.getD_some]
    have hrange : List.range test.noInterestingResults.toNat = results.zipIdx.map Prod.snd := by
      rw [List.zipIdx_map_snd, hlength, List.range_eq_range']
    rw [if_pos hn, hto, if_pos (hlength ▸ hn), hrange, List.foldlM_map]
    refine Loop.foldlM_congr (fun p hp out => ?_) _
    have hp := List.mem_zipIdx_iff_getElem?.1 hp
    simp only [hr, Option.getD_some, hp, hlength, sprintfResultPtr_eq hnames]
    rfl

end TestHash

end LitmusHarness
