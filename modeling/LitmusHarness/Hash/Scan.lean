import LitmusHarness.Hash.Codes

/-!
# How far the code of a thread is read

`__thread_code_has_hint` looks at one page of code at most, and what it finds decides which of two loops without a bound
runs. The loops here are those of the source, with the number of instructions that have been read by their end;
their results are those of `threadCodeHasHint` and `blitThreadCode` (`scan_fst`, `hasHintScan_fst`). The second loop stays
in the page too unless the first mark is a hint that is the only one there (`threadCodeBounded_iff`).
-/

namespace LitmusHarness

namespace TestHash

/-! ## The loops -/

/-- `for (;; i++)` up to the instruction `mark`, at instruction `i` of code that goes on with a list: where it ends, and
how many instructions have been read. -/
def scan (mark : U32) : List U32 → Nat → Option Nat × Nat
  | [], i => (none, i + 1)
  | instr :: code, i => if instr = mark then (some i, i + 1) else scan mark code (i + 1)

/-- The loop of `__thread_code_has_hint` at instruction `i`, with at most as many instructions to go. -/
def hasHintScan : Nat → List U32 → Nat → Option Bool × Nat
  | 0, _, i => (none, i)
  | _ + 1, [], i => (none, i)
  | k + 1, instr :: code, i =>
    if instr = opcodeLitmusHint then (some true, i + 1)
    else if instr = opcodeRet then (some false, i + 1)
    else hasHintScan k code (i + 1)

/-- The two loops of `__blit_thread_code_hint`: the number of instructions that they read. -/
def hintReads (code : List U32) : Nat :=
  match scan opcodeLitmusHint code 0 with
  | (none, reads) => reads
  | (some i, _) => (scan opcodeLitmusHint (code.drop (i + 1)) (i + 1)).2

/-- The loop of `__blit_thread_code_nohint`. -/
def nohintReads (code : List U32) : Nat := (scan opcodeRet code 0).2

/-- How many instructions `__thread_code_has_hint` and then `blit_thread_code` read. What is copied has been read by then. -/
def threadCodeReads (code : List U32) : Nat :=
  match hasHintScan 1024 code 0 with
  | (none, reads) => reads
  | (some true, reads) => max reads (hintReads code)
  | (some false, reads) => max reads (nohintReads code)

/-! ## What they find -/

theorem scan_fst (mark : U32) (code : List U32) (i : Nat) :
    (scan mark code i).1 = (code.findIdx? (· = mark)).map (i + ·) := by
  induction code generalizing i with
  | nil => rfl
  | cons instr code ih =>
    by_cases h : instr = mark
    · simp [scan, List.findIdx?_cons, h]
    · simp only [scan, List.findIdx?_cons, h, if_false, ih (i + 1), decide_false, Option.map_map, Bool.false_eq_true]
      exact congrArg (Option.map · _) (funext fun k => by simp only [Function.comp_apply]; omega)

/-- A scan ends at the first mark. -/
theorem scan_append {mark : U32} {post : List U32} {pre : List U32} (i : Nat) (h : mark ∉ pre) :
    scan mark (pre ++ mark :: post) i = (some (i + pre.length), i + pre.length + 1) := by
  induction pre generalizing i with
  | nil => simp [scan]
  | cons instr pre ih =>
    rw [List.mem_cons, not_or] at h
    rw [List.cons_append, scan, if_neg (Ne.symm h.1), ih (i + 1) h.2, List.length_cons]
    simp only [Prod.mk.injEq, Option.some.injEq]
    omega

/-- An instruction that the check looks for. -/
def IsMark (instr : U32) : Prop := instr = opcodeLitmusHint ∨ instr = opcodeRet

instance : DecidablePred IsMark := fun _ => inferInstanceAs (Decidable (_ ∨ _))

theorem hasHintScan_fst (k : Nat) (code : List U32) (i : Nat) :
    (hasHintScan k code i).1 = ((code.take k).find? (IsMark ·)).map fun instr => decide (instr = opcodeLitmusHint) := by
  induction k generalizing code i with
  | zero => simp [hasHintScan]
  | succ k ih =>
    cases code with
    | nil => rfl
    | cons instr code =>
      rw [hasHintScan, List.take_succ_cons, List.find?_cons]
      split_ifs with hhint hret
      · simp [IsMark, hhint]
      · simp [IsMark, hret, opcodeRet, opcodeLitmusHint]
      · simp [IsMark, hhint, hret, ih]

theorem hasHintScan_snd (k : Nat) (code : List U32) (i : Nat) : (hasHintScan k code i).2 ≤ i + k := by
  induction k generalizing code i with
  | zero => exact Nat.le_refl i
  | succ k ih =>
    cases code with
    | nil => exact Nat.le_add_right i (k + 1)
    | cons instr code =>
      have hrest := ih code (i + 1)
      rw [hasHintScan]
      split_ifs
      · exact Nat.add_le_add_left (Nat.succ_le_succ (Nat.zero_le k)) i
      · exact Nat.add_le_add_left (Nat.succ_le_succ (Nat.zero_le k)) i
      · omega

/-- The loop of the check is `firstMark`. -/
theorem hasHintScan_firstMark (code : List U32) :
    (hasHintScan 1024 code 0).1 = (firstMark code).map fun instr => decide (instr = opcodeLitmusHint) :=
  hasHintScan_fst 1024 code 0

/-- The code up to the first mark has none. -/
theorem firstMark_eq_some {code : List U32} {instr : U32} (h : firstMark code = some instr) :
    ∃ pre post, code = pre ++ instr :: post ∧ IsMark instr ∧ (∀ x ∈ pre, ¬IsMark x) ∧ pre.length < 1024 := by
  obtain ⟨hmark, pre, post, htake, hpre⟩ := List.find?_eq_some_iff_append.mp h
  have hlen : (code.take 1024).length ≤ 1024 := by
    rw [List.length_take]
    exact Nat.min_le_left _ _
  rw [htake, List.length_append, List.length_cons] at hlen
  refine ⟨pre, post ++ code.drop 1024, ?_, by simpa [IsMark] using hmark, fun x hx => ?_, by omega⟩
  · conv_lhs => rw [← List.take_append_drop 1024 code, htake]
    rw [List.append_assoc, List.cons_append]
  · simpa [IsMark] using hpre x hx

/-- Reading ends with the first mark. -/
theorem hasHintScan_append {instr : U32} {post : List U32} (hmark : IsMark instr) {pre : List U32} {k : Nat} (i : Nat)
    (hpre : ∀ x ∈ pre, ¬IsMark x) (hk : pre.length < k) :
    hasHintScan k (pre ++ instr :: post) i = (some (decide (instr = opcodeLitmusHint)), i + pre.length + 1) := by
  obtain ⟨k, rfl⟩ := Nat.exists_eq_add_one_of_ne_zero (Nat.ne_zero_of_lt hk)
  induction pre generalizing k i with
  | nil =>
    rw [List.nil_append, hasHintScan]
    split_ifs with hhint hret
    · simp [hhint]
    · simp [hret, opcodeRet, opcodeLitmusHint]
    · exact absurd hmark (not_or.mpr ⟨hhint, hret⟩)
  | cons x pre ih =>
    obtain ⟨hhint, hret⟩ := not_or.mp (hpre x List.mem_cons_self)
    have hk' : pre.length < k := Nat.lt_of_succ_lt_succ hk
    obtain ⟨k, rfl⟩ := Nat.exists_eq_add_one_of_ne_zero (Nat.ne_zero_of_lt hk')
    rw [List.cons_append, hasHintScan, if_neg hhint, if_neg hret,
      ih (i + 1) (fun y hy => hpre y (List.mem_cons_of_mem x hy)) k hk', List.length_cons]
    simp only [Prod.mk.injEq, true_and]
    omega

/-- There is one first mark only. -/
theorem firstMark_unique {m m' : U32} {pre pre' post post' : List U32}
    (hpre : m' ∉ pre) (hpre' : m ∉ pre') (h : pre ++ m :: post = pre' ++ m' :: post') : m = m' := by
  obtain ⟨c, hc, hpost⟩ | ⟨c, hc, hpost⟩ := List.append_eq_append_iff.mp h
  · cases c with
    | nil => exact (List.cons.inj hpost).1
    | cons x c => exact absurd (by simp [hc, (List.cons.inj hpost).1]) hpre'
  · cases c with
    | nil => exact (List.cons.inj hpost).1.symm
    | cons x c => exact absurd (by simp [hc, (List.cons.inj hpost).1]) hpre

/-! ## The extracted code -/

theorem isMark_hint : IsMark opcodeLitmusHint := .inl rfl

theorem isMark_ret : IsMark opcodeRet := .inr rfl

theorem findIdx?_append {mark : U32} {pre : List U32} (h : mark ∉ pre) (post : List U32) :
    (pre ++ mark :: post).findIdx? (· = mark) = some pre.length := by
  have hscan := scan_fst mark (pre ++ mark :: post) 0
  rw [scan_append 0 h] at hscan
  simpa using hscan.symm

/-- Instructions with their number in front. -/
theorem writes_encCode {c : List U32} (hlen : c.length ≤ 1024) :
    Writes (fun dry tgt => blitInt (BitVec.ofNat 32 c.length) dry tgt >>= blit (c.flatMap leBytes) dry) (encCode c) :=
  (writes_blitInt c.length).seq (writes_blit (by rw [length_leBytes]; omega))

/-- Between the first two hints. -/
theorem writes_hint {pre body : List U32} (post : List U32) (hpre : opcodeLitmusHint ∉ pre)
    (hbody : opcodeLitmusHint ∉ body) (hlen : body.length ≤ 1024) :
    Writes (blitThreadCodeHint (pre ++ opcodeLitmusHint :: (body ++ opcodeLitmusHint :: post))) (encCode body) := by
  have hstart : (pre ++ opcodeLitmusHint :: (body ++ opcodeLitmusHint :: post)).drop (pre.length + 1) =
      body ++ opcodeLitmusHint :: post := by simp
  unfold blitThreadCodeHint
  simp only [findIdx?_append hpre, hstart, findIdx?_append hbody, List.take_left]
  exact writes_encCode hlen

/-- Up to the first return. -/
theorem writes_nohint {pre : List U32} (post : List U32) (hpre : opcodeRet ∉ pre) (hlen : pre.length < 1024) :
    Writes (blitThreadCodeNohint (pre ++ opcodeRet :: post)) (encCode (pre ++ [opcodeRet])) := by
  have htake : (pre ++ opcodeRet :: post).take (pre.length + 1) = pre ++ [opcodeRet] := by
    rw [List.take_append, List.take_of_length_le (Nat.le_succ _), Nat.add_sub_cancel_left, List.take_succ_cons,
      List.take_zero]
  have hcode := writes_encCode (c := pre ++ [opcodeRet]) (by rw [List.length_append, List.length_singleton]; omega)
  rw [List.length_append, List.length_singleton] at hcode
  unfold blitThreadCodeNohint
  simp only [findIdx?_append hpre, htake]
  exact hcode

theorem hintReads_append {pre body : List U32} (post : List U32) (hpre : opcodeLitmusHint ∉ pre)
    (hbody : opcodeLitmusHint ∉ body) :
    hintReads (pre ++ opcodeLitmusHint :: (body ++ opcodeLitmusHint :: post)) = pre.length + body.length + 2 := by
  have hstart : (pre ++ opcodeLitmusHint :: (body ++ opcodeLitmusHint :: post)).drop (pre.length + 1) =
      body ++ opcodeLitmusHint :: post := by simp
  simp only [hintReads, scan_append 0 hpre, Nat.zero_add, hstart, scan_append _ hbody]
  omega

/-- The code is read in its first page only, and it is malformed, or what is blitted is what lies between the first two
hints, the first one before any return, or what goes up to the first return, before any hint. -/
def Extracts (test : Test) (code : Instrs) (n : Nat) (name : String) : Prop :=
  threadCodeReads code.words ≤ 1024 ∧
    ((∀ dry tgt, blitThreadCode test (some code) n name dry tgt = .error (.malformed test.name n name)) ∨
      (∃ pre body post, code.words = pre ++ opcodeLitmusHint :: (body ++ opcodeLitmusHint :: post) ∧
        opcodeLitmusHint ∉ pre ∧ opcodeRet ∉ pre ∧ opcodeLitmusHint ∉ body ∧
        Writes (blitThreadCode test (some code) n name) (encCode body)) ∨
      ∃ pre post, code.words = pre ++ opcodeRet :: post ∧ opcodeLitmusHint ∉ pre ∧ opcodeRet ∉ pre ∧
        Writes (blitThreadCode test (some code) n name) (encCode (pre ++ [opcodeRet])))

/-- `__blit_thread_code_hint` never says that code is malformed. -/
theorem blitThreadCodeHint_ne_malformed (code : List U32) (name : Option CStr) (n : Nat) (s : String) :
    blitThreadCodeHint code true (0, []) ≠ .error (.malformed name n s) := by
  unfold blitThreadCodeHint
  split
  · exact nofun
  · dsimp only
    split
    · exact nofun
    · exact nofun

/-- If the page is not left and the second hint is found, then it is in the page. -/
theorem two_hints_of_reads {code pre body post : List U32} (hfirst : firstMark code = some opcodeLitmusHint)
    (hreads : threadCodeReads code ≤ 1024) (hcode : code = pre ++ opcodeLitmusHint :: (body ++ opcodeLitmusHint :: post))
    (hpre : opcodeLitmusHint ∉ pre) (hbody : opcodeLitmusHint ∉ body) :
    2 ≤ (code.take 1024).count opcodeLitmusHint := by
  have hcheck := hasHintScan_firstMark code
  rw [hfirst] at hcheck
  have hle : hintReads code ≤ threadCodeReads code := by
    unfold threadCodeReads
    split
    · simp_all
    · exact Nat.le_max_right _ _
    · simp_all
  rw [hcode, hintReads_append post hpre hbody, ← hcode] at hle
  have hprefix : pre ++ opcodeLitmusHint :: (body ++ [opcodeLitmusHint]) <+: code.take 1024 := by
    refine List.prefix_take_iff.mpr ⟨⟨post, by rw [hcode]; simp⟩, ?_⟩
    simp only [List.length_append, List.length_cons, List.length_nil]
    omega
  calc 2 ≤ (pre ++ opcodeLitmusHint :: (body ++ [opcodeLitmusHint])).count opcodeLitmusHint := by
        simp only [List.count_append, List.count_cons_self, List.count_nil]
        omega
    _ ≤ (code.take 1024).count opcodeLitmusHint := hprefix.sublist.count_le _

/-- Bounded extraction of code whose first mark is a hint has found a second one in the page. -/
theorem Extracts.two_hints {test : Test} {code : Instrs} {n : Nat} {name : String} (h : Extracts test code n name)
    (hfirst : firstMark code.words = some opcodeLitmusHint) :
    2 ≤ (code.words.take 1024).count opcodeLitmusHint := by
  obtain ⟨hreads, hmal | ⟨pre, body, post, hcode, hpre, -, hbody, -⟩ | ⟨pre, post, hcode, hhint, -, -⟩⟩ := h
  · have hrun := hmal true (0, [])
    rw [blitThreadCode_firstMark test n name hfirst, if_pos rfl] at hrun
    exact absurd hrun (blitThreadCodeHint_ne_malformed _ _ _ _)
  · exact two_hints_of_reads hfirst hreads hcode hpre hbody
  · obtain ⟨pre', post', hcode', -, hpre', -⟩ := firstMark_eq_some hfirst
    have hret : opcodeRet ∉ pre' := fun hx => hpre' _ hx isMark_ret
    cases firstMark_unique hhint hret (hcode.symm.trans hcode')

/-- Code whose first mark is a hint, with a second one in the page, is extracted. -/
theorem extracts_hint (test : Test) {code : Instrs} (n : Nat) (name : String)
    (hfirst : firstMark code.words = some opcodeLitmusHint)
    (htwo : 2 ≤ (code.words.take 1024).count opcodeLitmusHint) : threadCodeReads code.words ≤ 1024 ∧
    ∃ pre body post, code.words = pre ++ opcodeLitmusHint :: (body ++ opcodeLitmusHint :: post) ∧
      opcodeLitmusHint ∉ pre ∧ opcodeRet ∉ pre ∧ opcodeLitmusHint ∉ body ∧
      Writes (blitThreadCode test (some code) n name) (encCode body) := by
  obtain ⟨pre, rest, hcode, -, hpre, hlt⟩ := firstMark_eq_some hfirst
  have hhint : opcodeLitmusHint ∉ pre := fun hx => hpre _ hx isMark_hint
  have hret : opcodeRet ∉ pre := fun hx => hpre _ hx isMark_ret
  have htake : code.words.take 1024 = pre ++ opcodeLitmusHint :: rest.take (1024 - pre.length - 1) := by
    rw [hcode, List.take_append, List.take_of_length_le (by omega)]
    congr 1
    obtain ⟨m, hm⟩ : ∃ m, 1024 - pre.length = m + 1 := ⟨1024 - pre.length - 1, by omega⟩
    rw [hm, List.take_succ_cons, Nat.add_sub_cancel]
  have hmem : opcodeLitmusHint ∈ rest.take (1024 - pre.length - 1) := by
    rw [htake, List.count_append, List.count_eq_zero_of_not_mem hhint, List.count_cons_self] at htwo
    exact List.count_pos_iff.mp (by omega)
  obtain ⟨body, post, hsplit, hbody⟩ := List.eq_append_cons_of_mem hmem
  have hlen : body.length + 1 ≤ 1024 - pre.length - 1 := by
    have hle := List.length_take_le (1024 - pre.length - 1) rest
    rw [hsplit, List.length_append, List.length_cons] at hle
    omega
  have hrest : rest = body ++ opcodeLitmusHint :: (post ++ rest.drop (1024 - pre.length - 1)) := by
    conv_lhs => rw [← List.take_append_drop (1024 - pre.length - 1) rest, hsplit]
    rw [List.append_assoc, List.cons_append]
  rw [hrest] at hcode
  refine ⟨?_, pre, body, _, hcode, hhint, hret, hbody, ?_⟩
  · simp only [threadCodeReads, hcode, hasHintScan_append isMark_hint 0 hpre hlt, decide_true,
      hintReads_append _ hhint hbody]
    omega
  · rw [blitThreadCode_firstMark test n name hfirst, if_pos rfl, hcode]
    exact writes_hint _ hhint hbody (by omega)

/-- Code whose first mark is a return is extracted. -/
theorem extracts_ret (test : Test) {code : Instrs} (n : Nat) (name : String)
    (hfirst : firstMark code.words = some opcodeRet) : threadCodeReads code.words ≤ 1024 ∧
    ∃ pre post, code.words = pre ++ opcodeRet :: post ∧ opcodeLitmusHint ∉ pre ∧ opcodeRet ∉ pre ∧
      Writes (blitThreadCode test (some code) n name) (encCode (pre ++ [opcodeRet])) := by
  obtain ⟨pre, post, hcode, -, hpre, hlt⟩ := firstMark_eq_some hfirst
  have hhint : opcodeLitmusHint ∉ pre := fun hx => hpre _ hx isMark_hint
  have hret : opcodeRet ∉ pre := fun hx => hpre _ hx isMark_ret
  have hne : opcodeRet ≠ opcodeLitmusHint := by decide
  refine ⟨?_, pre, post, hcode, hhint, hret, ?_⟩
  · simp only [threadCodeReads, hcode, hasHintScan_append isMark_ret 0 hpre hlt, hne, decide_false, nohintReads,
      scan_append 0 hret]
    omega
  · rw [blitThreadCode_firstMark test n name hfirst, if_neg hne, hcode]
    exact writes_nohint post hret hlt

/-- Code without a mark in its first page is malformed. -/
theorem extracts_none (test : Test) {code : Instrs} (n : Nat) (name : String) (hfirst : firstMark code.words = none) :
    Extracts test code n name := by
  refine ⟨?_, .inl fun dry tgt => by rw [blitThreadCode_malformed test n name hfirst]⟩
  have hcheck := hasHintScan_firstMark code.words
  have hle := hasHintScan_snd 1024 code.words 0
  rw [hfirst] at hcheck
  unfold threadCodeReads
  split
  · rename_i hscan
    rw [hscan] at hle
    exact hle
  · simp_all
  · simp_all

/-- **Extraction is bounded** if and only if code whose first mark is a hint has a second hint in its first page. -/
theorem threadCodeBounded_iff (test : Test) (code : Instrs) (n : Nat) (name : String) : Extracts test code n name ↔
    (firstMark code.words = some opcodeLitmusHint → 2 ≤ (code.words.take 1024).count opcodeLitmusHint) := by
  refine ⟨Extracts.two_hints, fun htwo => ?_⟩
  cases hfirst : firstMark code.words with
  | none => exact extracts_none test n name hfirst
  | some instr =>
    obtain ⟨-, -, -, rfl | rfl, -⟩ := firstMark_eq_some hfirst
    · obtain ⟨hreads, h⟩ := extracts_hint test n name hfirst (htwo hfirst)
      exact ⟨hreads, .inr (.inl h)⟩
    · obtain ⟨hreads, h⟩ := extracts_ret test n name hfirst
      exact ⟨hreads, .inr (.inr h)⟩

/-- A thread whose code begins with a hint and returns at once, in a page without another hint. -/
theorem threadCode_unbounded : ¬∀ (test : Test) (code : Instrs) (n : Nat) (name : String), Extracts test code n name := by
  intro hall
  have hlen : (opcodeLitmusHint :: opcodeRet :: List.replicate 1022 0xd503201f).length = 1024 := by
    rw [List.length_cons, List.length_cons, List.length_replicate]
  have htwo := (hall ⟨none, [], [], none, [], [], []⟩ ⟨_, by rw [hlen]; decide⟩ 0 "code").two_hints rfl
  rw [List.take_of_length_le (by rw [hlen]), List.count_cons_self, List.count_cons_of_ne (by decide),
    List.count_replicate] at htwo
  exact absurd htwo (by decide)

end TestHash

end LitmusHarness
