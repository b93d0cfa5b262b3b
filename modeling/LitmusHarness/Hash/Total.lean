import LitmusHarness.Hash.FinalCond

/-!
# When a test is hashed

`litmus_test_hash` computes the size of the hash vector in a dry run. For a test whose code is not malformed, it returns
one digest, with as many bytes written as it has counted, whatever the stack holds, if and only if the second hint of
code is in its page, the final condition can be rendered and is not empty, and the vector is one that `hash_sha1` can
hash (`hashTotal_iff`).
-/

namespace LitmusHarness

namespace TestHash

/-! ## The functions of `litmus_test_hash.c` -/

/-- `blit_test`. -/
def blitTestPtr (garbage : CStr) (test : TestDef) : Blit := fun dry tgt => do
  let tgt ← blitStr test.name dry tgt
  let tgt ← blitInitState test.toTest dry tgt
  let tgt ← blitThreads test.toTest dry tgt
  let finalCond ← finalCondPtr garbage test
  blitStr (some finalCond) dry tgt

/-- `__warn_on_bad_hash`, without its warnings. -/
def warnOnBadHash (test : Test) : Except BlitError Unit :=
  test.threads.zipIdx.forM fun (thread, i) => do
    let _ ← threadCodeHasHint test thread i "code"
    match test.threadSyncHandlers with
    | none => .ok ()
    | some handlers =>
      match handlers[i]? with
      | none => .error .diverges
      | some (el0, el1) => do
        let _ ← threadCodeHasHint test el0 i "handler"
        let _ ← threadCodeHasHint test el1 i "handler"

/-- `litmus_test_hash`. The stack below `final_cond` holds `garbage` in the dry run and `garbage'` in the other one. -/
def litmusTestHashPtr (garbage garbage' : CStr) (test : TestDef) : Except BlitError (List Byte) := do
  warnOnBadHash test.toTest
  let (tgt, _) ← blitTestPtr garbage test true (0, [])
  let size := BitVec.ofNat 64 tgt
  let (_, buf) ← blitTestPtr garbage' test false (0, List.replicate size.toNat 0)
  match Hashlib.hashSha1 buf with
  | .ok d => .ok d
  | .error _ => .error .diverges

/-! ## What is to hold, and when -/

/-- The code of the threads and of the handlers. -/
def TestDef.HasCode (test : TestDef) (code : Instrs) : Prop :=
  some code ∈ test.threads ∨
    ∃ handlers ∈ test.threadSyncHandlers, ∃ handler ∈ handlers, handler.1 = some code ∨ handler.2 = some code

/-- The check for malformed code lets the test pass. -/
def TestDef.NotMalformed (test : TestDef) : Prop := ∀ code, test.HasCode code → firstMark code.words ≠ none

/-- Code is read in its page only, and every call gives the same digest, with as many bytes written as counted in the
dry run, whatever the stack holds. -/
def HashTotal (test : TestDef) : Prop :=
  (∀ code, test.HasCode code → threadCodeReads code.words ≤ 1024) ∧
  ∃ (size : U64) (d : List Byte), ∀ garbage garbage' : CStr,
    (∃ buf, blitTestPtr garbage test true (0, []) = .ok (size.toNat, buf)) ∧
    (∃ buf, blitTestPtr garbage' test false (0, List.replicate size.toNat 0) = .ok (size.toNat, buf)) ∧
    litmusTestHashPtr garbage garbage' test = .ok d

/-- The number of bytes of a string, with its length in front. -/
def strLength (s : Option CStr) : Nat := 4 + (s.getD (cstr "<NULL>".toList)).length % 2 ^ 32

/-- The number of bytes of the union of an entry. -/
def valueLength : InitValue → Nat
  | .unmapped | .identityMap => 0
  | .heap _ | .pte _ | .fix _ | .mair _ => 8
  | .alias aliasname => strLength aliasname
  | .attrs protType _ => strLength (some (cstr (protTypeToStr protType).toList)) + 8
  | .regionOwn level => strLength (some (cstr (ownLevelToStr level).toList))
  | .regionPin pinned level => strLength pinned + strLength (some (cstr (pinLevelToStr level).toList))
  | .regionOffset offset level => strLength offset + strLength (some (cstr (relOffsetToStr level).toList))

/-- The number of bytes of an entry. -/
def varLength (st : VarState) : Nat :=
  strLength st.varname + (strLength (some (cstr (initTypeToStr st.value.type).toList)) + valueLength st.value)

/-- The number of bytes of extracted code, with the number of instructions in front. -/
def codeLength (code : Code) : Nat := 4 + 4 * ((extractCode code).getD []).length

/-- The number of bytes of the handlers of a thread. -/
def handlersLength (test : TestDef) (t : Nat) : Nat :=
  match test.threadSyncHandlers with
  | none => 4
  | some handlers =>
    let (el0, el1) := handlers.getD t (none, none)
    4 + (codeLength el0 + codeLength el1)

/-- The number of bytes of the hash vector. -/
def TestDef.vectorLength (test : TestDef) : Nat :=
  strLength test.name + ((4 + (test.initStates.map varLength).sum) +
    ((4 + (test.threads.zipIdx.map fun (code, t) => codeLength code + handlersLength test t).sum) +
      (4 + test.condLength)))

/-- The tests that can be hashed. -/
structure TestDef.Hashable (test : TestDef) : Prop where
  two_hints : ∀ code, test.HasCode code → firstMark code.words = some opcodeLitmusHint →
    2 ≤ (code.words.take 1024).count opcodeLitmusHint
  names : ∀ regName ∈ test.regNames, RegNameOk regName
  results : test.ResultsThere
  not_empty : test.regNames ≠ [] ∨ 1 < test.noInterestingResults.toNat
  short : test.condLength < 1024
  vector : test.vectorLength < 2 ^ 32 - 8

/-! ## Lengths -/

/-- A function blits bytes, `n` of them. -/
def Blits (f : Blit) (n : Nat) : Prop := ∃ e : List Byte, e.length = n ∧ Writes f e

theorem Blits.seq {f g : Blit} {n m : Nat} : Blits f n → Blits g m → Blits (fun dry tgt => f dry tgt >>= g dry) (n + m)
  | ⟨e, he, hf⟩, ⟨e', he', hg⟩ => ⟨e ++ e', by rw [List.length_append, he, he'], hf.seq hg⟩

theorem blits_nothing : Blits (fun _ tgt => .ok tgt) 0 := ⟨[], rfl, writes_nil⟩

theorem Blits.foldlM {α : Type} {f : α → Blit} {n : α → Nat} (l : List α) (h : ∀ a ∈ l, Blits (f a) (n a)) :
    Blits (fun dry tgt => l.foldlM (fun tgt a => f a dry tgt) tgt) (l.map n).sum := by
  induction l with
  | nil => exact blits_nothing
  | cons a l ih =>
    rw [List.map_cons, List.sum_cons]
    exact (h a List.mem_cons_self).seq (ih fun b hb => h b (List.mem_cons_of_mem a hb))

theorem blits_int (n : Nat) : Blits (blitInt (BitVec.ofNat 32 n)) 4 := ⟨_, BitString.length_beBytes _ 4, writes_blitInt n⟩

theorem blits_long (v : U64) : Blits (blitLong v) 8 := ⟨_, BitString.length_beBytes _ 8, writes_blitLong v⟩

theorem blits_str (s : Option CStr) : Blits (blitStr s) (strLength s) := by
  refine ⟨_, ?_, writes_blitStr_take s⟩
  have hle := Nat.mod_le (s.getD (cstr "<NULL>".toList)).length (2 ^ 32)
  rw [List.length_append, BitString.length_beBytes, List.length_take, Nat.min_eq_left hle, strLength]

theorem blits_value (v : InitValue) : Blits (blitValue v) (valueLength v) := by
  cases v with
  | heap x | pte x | fix x | mair x => exact blits_long x
  | unmapped | identityMap => exact blits_nothing
  | «alias» s => exact blits_str s
  | attrs p x => exact (blits_str _).seq (blits_long x)
  | regionOwn l => exact blits_str _
  | regionPin s l => exact (blits_str s).seq (blits_str _)
  | regionOffset s l => exact (blits_str s).seq (blits_str _)

theorem blits_var (st : VarState) : Blits (blitVarstate st) (varLength st) :=
  (blits_str st.varname).seq ((blits_str _).seq (blits_value st.value))

theorem blits_initState (test : Test) : Blits (blitInitState test) (4 + (test.initStates.map varLength).sum) :=
  (blits_int _).seq (Blits.foldlM test.initStates fun st _ => blits_var st)

/-- Code that is not malformed, and whose second hint is in its page. -/
def CodeGood (code : Code) : Prop := ∀ c, code = some c → firstMark c.words ≠ none ∧
  (firstMark c.words = some opcodeLitmusHint → 2 ≤ (c.words.take 1024).count opcodeLitmusHint)

theorem blits_code (test : Test) {code : Code} (n : Nat) (name : String) (h : CodeGood code) :
    Blits (blitThreadCode test code n name) (codeLength code) := by
  have hwrites : ∃ e, Writes (blitThreadCode test code n name) e := by
    cases code with
    | none => exact ⟨_, writes_blitInt 0⟩
    | some code =>
      obtain ⟨hmark, htwo⟩ := h code rfl
      cases hfirst : firstMark code.words with
      | none => exact absurd hfirst hmark
      | some instr =>
        obtain ⟨-, -, -, rfl | rfl, -⟩ := firstMark_eq_some hfirst
        · obtain ⟨-, -, body, -, -, -, -, -, hw⟩ := extracts_hint test n name hfirst (htwo hfirst)
          exact ⟨_, hw⟩
        · obtain ⟨-, pre, -, -, -, -, hw⟩ := extracts_ret test n name hfirst
          exact ⟨_, hw⟩
  -- what is written is the code that is extracted
  obtain ⟨e', hw⟩ := hwrites
  obtain ⟨buf, hrun, -⟩ := hw false 0 []
  obtain ⟨e, he, hwe⟩ := known_blitThreadCode test code n name _ _ hrun
  obtain ⟨c, hc, rfl⟩ := Option.map_eq_some_iff.1 he
  refine ⟨encCode c, ?_, hwe⟩
  rw [encCode, List.length_append, BitString.length_beBytes, length_leBytes, codeLength, hc, Option.getD_some]

/-- The code of a test is not malformed, and is read in its pages only. -/
def TestDef.CodesGood (test : TestDef) : Prop := ∀ c, test.HasCode c → CodeGood (some c)

theorem TestDef.NotMalformed.codesGood {test : TestDef} (hmark : test.NotMalformed)
    (htwo : ∀ code, test.HasCode code → firstMark code.words = some opcodeLitmusHint →
      2 ≤ (code.words.take 1024).count opcodeLitmusHint) : test.CodesGood := by
  intro c hc c' heq
  cases heq
  exact ⟨hmark c hc, htwo c hc⟩

theorem TestDef.hasCode_thread {test : TestDef} {thread : Code × Nat} (hmem : thread ∈ test.threads.zipIdx) :
    thread.2 < test.threads.length ∧ ∀ c, thread.1 = some c → test.HasCode c := by
  obtain ⟨ht, hcode⟩ := List.getElem?_eq_some_iff.1 (List.mem_zipIdx_iff_getElem?.1 hmem)
  exact ⟨ht, fun c hc => .inl (hc ▸ hcode ▸ List.getElem_mem ht)⟩

/-- The handlers of a thread, if the test has handlers. -/
theorem TestDef.hasCode_handlers {test : TestDef} {handlers : List (Code × Code)}
    (hhandlers : test.threadSyncHandlers = some handlers) {t : Nat} (ht : t < test.threads.length) :
    ∃ el0 el1, handlers[t]? = some (el0, el1) ∧ (∀ c, el0 = some c → test.HasCode c) ∧
      ∀ c, el1 = some c → test.HasCode c := by
  have hlt : t < handlers.length := test.handlers_length handlers hhandlers ▸ ht
  have hcode : ∀ c, (handlers[t].1 = some c ∨ handlers[t].2 = some c) → test.HasCode c :=
    fun c h => .inr ⟨handlers, hhandlers, handlers[t], List.getElem_mem hlt, h⟩
  exact ⟨handlers[t].1, handlers[t].2, List.getElem?_eq_getElem hlt, fun c hc => hcode c (.inl hc),
    fun c hc => hcode c (.inr hc)⟩

theorem blits_handlers {test : TestDef} (hgood : test.CodesGood) {t : Nat} (ht : t < test.threads.length) :
    Blits (blitThreadHandlers test.toTest t) (handlersLength test t) := by
  unfold blitThreadHandlers handlersLength
  change Blits (fun dry tgt => match test.threadSyncHandlers with | none => _ | some handlers => _) _
  cases hhandlers : test.threadSyncHandlers with
  | none => exact blits_int 0
  | some handlers =>
    obtain ⟨el0, el1, hget, h₀, h₁⟩ := TestDef.hasCode_handlers hhandlers ht
    simp only [hget, List.getD_eq_getElem?_getD, Option.getD_some]
    exact (blits_int 2).seq ((blits_code _ t _ fun c hc => hgood c (h₀ c hc) c rfl).seq
      (blits_code _ t _ fun c hc => hgood c (h₁ c hc) c rfl))

theorem blits_threads {test : TestDef} (hgood : test.CodesGood) : Blits (blitThreads test.toTest)
    (4 + (test.threads.zipIdx.map fun (code, t) => codeLength code + handlersLength test t).sum) := by
  refine (blits_int _).seq (Blits.foldlM test.threads.zipIdx fun thread hmem => ?_)
  obtain ⟨ht, hcode⟩ := TestDef.hasCode_thread hmem
  exact (blits_code _ _ _ fun c hc => hgood c (hcode c hc) c rfl).seq (blits_handlers hgood ht)

/-- What is printed does not depend on the stack, if it is not empty. -/
theorem finalCondPtr_eq {test : TestDef} {out : Fixed.Stream} (hout : printFinalCondPtr test = .ok out) (garbage : CStr) :
    finalCondPtr garbage test = .ok (if test.condLength = 0 then garbage else cstr out.text) := by
  have hlength := (printFinalCondPtr_prints test).2 out hout
  rw [finalCondPtr, hout]
  by_cases hempty : out.text = []
  · rw [hempty, List.length_nil] at hlength
    simp only [bind, Except.bind, if_pos hempty, ← hlength]
    rfl
  · have hne : test.condLength ≠ 0 := hlength ▸ fun h => hempty (List.length_eq_zero_iff.1 h)
    simp only [bind, Except.bind, if_neg hempty, if_neg hne]
    rfl

/-- The hash vector with the final condition `s`. -/
theorem blits_test {test : TestDef} (hgood : test.CodesGood) (s : CStr) :
    Blits (fun dry tgt => blitStr test.name dry tgt >>= fun tgt => blitInitState test.toTest dry tgt >>= fun tgt =>
        blitThreads test.toTest dry tgt >>= blitStr (some s) dry)
      (strLength test.name + ((4 + (test.initStates.map varLength).sum) +
        ((4 + (test.threads.zipIdx.map fun (code, t) => codeLength code + handlersLength test t).sum) +
          strLength (some s)))) :=
  (blits_str test.name).seq ((blits_initState test.toTest).seq ((blits_threads hgood).seq (blits_str (some s))))

theorem blitTestPtr_eq {garbage : CStr} {test : TestDef} {s : CStr} (h : finalCondPtr garbage test = .ok s) :
    blitTestPtr garbage test = fun dry tgt => blitStr test.name dry tgt >>= fun tgt =>
      blitInitState test.toTest dry tgt >>= fun tgt => blitThreads test.toTest dry tgt >>= blitStr (some s) dry := by
  funext dry tgt
  unfold blitTestPtr
  rw [h]
  rfl

theorem warnOnBadHash_ok {test : TestDef} (hmark : test.NotMalformed) : warnOnBadHash test.toTest = .ok () := by
  have hcheck : ∀ (code : Code) (n : Nat) (name : String), (∀ c, code = some c → test.HasCode c) →
      ∃ b, threadCodeHasHint test.toTest code n name = .ok b := by
    intro code n name hcode
    cases code with
    | none => exact ⟨true, rfl⟩
    | some c =>
      cases hfirst : firstMark c.words with
      | none => exact absurd hfirst (hmark c (hcode c rfl))
      | some instr => exact ⟨decide (instr = opcodeLitmusHint), by simp only [threadCodeHasHint, hfirst]⟩
  refine Loop.forM_ok_iff.2 fun thread hmem => ?_
  obtain ⟨ht, hcode⟩ := TestDef.hasCode_thread hmem
  obtain ⟨b, hb⟩ := hcheck thread.1 thread.2 "code" hcode
  simp only [hb, bind, Except.bind]
  cases hhandlers : test.threadSyncHandlers with
  | none =>
    rw [show test.toTest.threadSyncHandlers = none from hhandlers]
  | some handlers =>
    obtain ⟨el0, el1, hget, hcode₀, hcode₁⟩ := TestDef.hasCode_handlers hhandlers ht
    obtain ⟨b₀, h₀⟩ := hcheck el0 thread.2 "handler" hcode₀
    obtain ⟨b₁, h₁⟩ := hcheck el1 thread.2 "handler" hcode₁
    rw [show test.toTest.threadSyncHandlers = some handlers from hhandlers]
    simp only [hget, h₀, h₁]
    rfl

/-- The hash vector with a final condition that is not empty. -/
theorem blits_vector {test : TestDef} (hgood : test.CodesGood) {out : Fixed.Stream}
    (hout : printFinalCondPtr test = .ok out) (hpos : 0 < test.condLength) (hshort : test.condLength < 1024) :
    ∃ e : List Byte, e.length = test.vectorLength ∧ ∀ garbage, Writes (blitTestPtr garbage test) e := by
  have hlength := (printFinalCondPtr_prints test).2 out hout
  have hstr : strLength (some (cstr out.text)) = 4 + test.condLength := by
    rw [strLength, Option.getD_some, cstr, List.length_map, hlength, Nat.mod_eq_of_lt (by omega)]
  obtain ⟨e, he, hw⟩ := blits_test hgood (cstr out.text)
  rw [hstr] at he
  refine ⟨e, he, fun garbage => ?_⟩
  have hcond : finalCondPtr garbage test = .ok (cstr out.text) := by rw [finalCondPtr_eq hout, if_neg hpos.ne']
  rw [blitTestPtr_eq hcond]
  exact hw

/-- **A test that can be hashed is hashed.** -/
theorem TestDef.Hashable.hashTotal {test : TestDef} (h : test.Hashable) (hmark : test.NotMalformed) : HashTotal test := by
  refine ⟨fun code hcode => ?_, ?_⟩
  · cases hfirst : firstMark code.words with
    | none => exact absurd hfirst (hmark code hcode)
    | some instr =>
      obtain ⟨-, -, -, rfl | rfl, -⟩ := firstMark_eq_some hfirst
      · exact (extracts_hint test.toTest 0 "" hfirst (h.two_hints code hcode hfirst)).1
      · exact (extracts_ret test.toTest 0 "" hfirst).1
  · obtain ⟨out, hout⟩ := (printFinalCondPtr_prints test).1.2 ⟨⟨h.names, h.results⟩, h.short⟩
    obtain ⟨e, he, hw⟩ := blits_vector (hmark.codesGood h.two_hints) hout ((condLength_pos_iff test).2 h.not_empty)
      h.short
    have hvector := h.vector
    have hsize : (BitVec.ofNat 64 e.length).toNat = e.length := Nat.mod_eq_of_lt (by omega)
    obtain ⟨d, hd⟩ := (@Hashlib.hashSha1_returns_iff e (by omega)).2 (by omega)
    refine ⟨BitVec.ofNat 64 e.length, d, fun garbage garbage' => ?_⟩
    have hdry := (hw garbage).dryRun
    have hrun := (hw garbage').run
    rw [hsize]
    refine ⟨⟨[], hdry⟩, ⟨e, hrun⟩, ?_⟩
    simp only [litmusTestHashPtr, warnOnBadHash_ok hmark, bind, Except.bind, hdry, hsize, hrun, hd]

/-! ## What a run says about the test -/

theorem split_of_findIdx? {mark : U32} {code : List U32} {i : Nat} (h : code.findIdx? (· = mark) = some i) :
    ∃ pre post, code = pre ++ mark :: post ∧ mark ∉ pre ∧ code.drop (i + 1) = post := by
  have hmem : mark ∈ code := by
    obtain ⟨hlt, hmark, -⟩ := List.findIdx?_eq_some_iff_getElem.1 h
    exact of_decide_eq_true hmark ▸ List.getElem_mem hlt
  obtain ⟨pre, post, rfl, hpre⟩ := List.eq_append_cons_of_mem hmem
  rw [findIdx?_append hpre post, Option.some.injEq] at h
  subst h
  exact ⟨pre, post, rfl, hpre, by simp⟩

/-- Code that is blitted and read in its page only has its second hint there. -/
theorem two_hints_of_run {test : Test} {code : Instrs} {n : Nat} {name : String} {dry : Bool} {tgt r : Target}
    (hrun : blitThreadCode test (some code) n name dry tgt = .ok r) (hreads : threadCodeReads code.words ≤ 1024)
    (hfirst : firstMark code.words = some opcodeLitmusHint) : 2 ≤ (code.words.take 1024).count opcodeLitmusHint := by
  rw [blitThreadCode_firstMark test n name hfirst, if_pos rfl, blitThreadCodeHint] at hrun
  cases hi : code.words.findIdx? (· = opcodeLitmusHint) with
  | none => simp [hi] at hrun
  | some i =>
    cases hj : (code.words.drop (i + 1)).findIdx? (· = opcodeLitmusHint) with
    | none => simp [hi, hj] at hrun
    | some j =>
      obtain ⟨pre, rest, hcode, hpre, hdrop⟩ := split_of_findIdx? hi
      obtain ⟨body, post, hrest, hbody, -⟩ := split_of_findIdx? hj
      exact two_hints_of_reads hfirst hreads (hrest ▸ hdrop ▸ hcode) hpre hbody

/-- All code is blitted. -/
theorem code_blitted {test : TestDef} {dry : Bool} {tgt r : Target} (hrun : blitThreads test.toTest dry tgt = .ok r)
    {code : Instrs} (hcode : test.HasCode code) :
    ∃ n name dry tgt r, blitThreadCode test.toTest (some code) n name dry tgt = .ok r := by
  obtain ⟨t₁, -, hthreads⟩ := Loop.bind_ok hrun
  rcases hcode with hcode | ⟨handlers, hhandlers, handler, hmem, hcode⟩
  · obtain ⟨t, ht⟩ := List.mem_iff_getElem?.1 hcode
    obtain ⟨s₁, s₂, hthread⟩ := Loop.foldlM_mem hthreads (List.mk_mem_zipIdx_iff_getElem?.2 ht)
    obtain ⟨s₃, hblit, -⟩ := Loop.bind_ok hthread
    exact ⟨_, _, _, _, _, hblit⟩
  · obtain ⟨t, ht, rfl⟩ := List.mem_iff_getElem.1 hmem
    have hlt : t < test.threads.length := test.handlers_length handlers hhandlers ▸ ht
    obtain ⟨s₁, s₂, hthread⟩ := Loop.foldlM_mem hthreads (List.mk_mem_zipIdx_iff_getElem?.2 (List.getElem?_eq_getElem hlt))
    obtain ⟨s₃, -, hblit⟩ := Loop.bind_ok hthread
    simp only [blitThreadHandlers, show test.toTest.threadSyncHandlers = some handlers from hhandlers,
      List.getElem?_eq_getElem ht] at hblit
    obtain ⟨s₄, -, hblit⟩ := Loop.bind_ok hblit
    obtain ⟨s₅, h₀, h₁⟩ := Loop.bind_ok hblit
    rcases hcode with hcode | hcode
    · rw [hcode] at h₀
      exact ⟨_, _, _, _, _, h₀⟩
    · rw [hcode] at h₁
      exact ⟨_, _, _, _, _, h₁⟩

theorem parts_of_run {garbage : CStr} {test : TestDef} {dry : Bool} {tgt r : Target}
    (h : blitTestPtr garbage test dry tgt = .ok r) :
    (∃ t t', blitThreads test.toTest dry t = .ok t') ∧ ∃ out, printFinalCondPtr test = .ok out := by
  obtain ⟨t₁, -, h⟩ := Loop.bind_ok h
  obtain ⟨t₂, -, h⟩ := Loop.bind_ok h
  obtain ⟨t₃, hthreads, h⟩ := Loop.bind_ok h
  obtain ⟨s, hs, -⟩ := Loop.bind_ok h
  obtain ⟨out, hout, -⟩ := Loop.bind_ok hs
  exact ⟨⟨t₂, t₃, hthreads⟩, out, hout⟩

/-- The size that a dry run counts, with what the stack may hold as final condition. -/
theorem size_of_dryRun {test : TestDef} (hgood : test.CodesGood) {out : Fixed.Stream} (hout : printFinalCondPtr test = .ok out) {garbage : CStr} {n : Nat}
    {b : List Byte} (hdry : blitTestPtr garbage test true (0, []) = .ok (n, b)) :
    n = strLength test.name + ((4 + (test.initStates.map varLength).sum) +
      ((4 + (test.threads.zipIdx.map fun (code, t) => codeLength code + handlersLength test t).sum) +
        strLength (some (if test.condLength = 0 then garbage else cstr out.text)))) := by
  obtain ⟨e, he, hw⟩ := blits_test hgood (if test.condLength = 0 then garbage else cstr out.text)
  rw [← blitTestPtr_eq (finalCondPtr_eq hout garbage)] at hw
  have hsize := (Prod.mk.inj (Except.ok.inj (hdry.symm.trans hw.dryRun))).1
  exact hsize.trans he

/-- The hash is taken of as many bytes as the dry run has counted. -/
theorem hashSha1_of_hash {garbage garbage' : CStr} {test : TestDef} {size : U64} {b d : List Byte}
    (hdry : blitTestPtr garbage test true (0, []) = .ok (size.toNat, b))
    (h : litmusTestHashPtr garbage garbage' test = .ok d) :
    ∃ r, blitTestPtr garbage' test false (0, List.replicate size.toNat 0) = .ok r ∧ Hashlib.hashSha1 r.2 = .ok d := by
  obtain ⟨-, -, h⟩ := Loop.bind_ok h
  rw [hdry] at h
  have hsize : BitVec.ofNat 64 size.toNat = size := by rw [BitVec.ofNat_toNat, BitVec.setWidth_eq]
  change (blitTestPtr garbage' test false (0, List.replicate (BitVec.ofNat 64 size.toNat).toNat 0) >>= _) = _ at h
  rw [hsize] at h
  obtain ⟨r, hrun, h⟩ := Loop.bind_ok h
  refine ⟨r, hrun, ?_⟩
  cases hhash : Hashlib.hashSha1 r.2 with
  | error e => simp [hhash] at h
  | ok d' =>
    simp only [hhash, Except.ok.injEq] at h
    rw [h]

/-- **A test that is hashed can be hashed.** -/
theorem HashTotal.hashable {test : TestDef} (hmark : test.NotMalformed) (h : HashTotal test) : test.Hashable := by
  obtain ⟨hreads, size, d, hall⟩ := h
  obtain ⟨⟨b, hdry⟩, -, hd⟩ := hall [] []
  obtain ⟨⟨t, t', hthreads⟩, out, hout⟩ := parts_of_run hdry
  obtain ⟨⟨hnames, hresults⟩, hshort⟩ := (printFinalCondPtr_prints test).1.1 ⟨out, hout⟩
  have htwo : ∀ code, test.HasCode code → firstMark code.words = some opcodeLitmusHint →
      2 ≤ (code.words.take 1024).count opcodeLitmusHint := by
    intro code hcode hfirst
    obtain ⟨n, name, dry, tgt, r, hrun⟩ := code_blitted hthreads hcode
    exact two_hints_of_run hrun (hreads code hcode) hfirst
  have hgood := hmark.codesGood htwo
  -- an empty final condition would be what the stack holds, of any length
  have hpos : 0 < test.condLength := by
    by_contra hzero
    obtain ⟨⟨b', hdry'⟩, -, -⟩ := hall [0] []
    have hcount := size_of_dryRun hgood hout hdry
    have hcount' := size_of_dryRun hgood hout hdry'
    rw [hcount, if_pos (by omega), if_pos (by omega)] at hcount'
    simp [strLength] at hcount'
  have hvector : test.vectorLength < 2 ^ 32 - 8 := by
    obtain ⟨e, he, hw⟩ := blits_vector hgood hout hpos hshort
    obtain ⟨r, hrun, hhash⟩ := hashSha1_of_hash hdry hd
    have hsize : size.toNat = e.length := (Prod.mk.inj (Except.ok.inj (hdry.symm.trans (hw []).dryRun))).1
    rw [hsize, (hw []).run] at hrun
    cases hrun
    rw [← he]
    exact (Hashlib.hashSha1_returns_iff (by rw [← hsize]; exact size.isLt)).1 ⟨d, hhash⟩
  exact ⟨htwo, hnames, hresults, (condLength_pos_iff test).1 hpos, hshort, hvector⟩

/-- **The digest of a test that can be hashed** is the one without the pointers. -/
theorem TestDef.Hashable.hash_eq {test : TestDef} (h : test.Hashable) (hmark : test.NotMalformed)
    (hresults : test.noInterestingResults.toNat ≠ 0 → test.interestingResults.isSome = true) :
    ∃ d, ∀ garbage garbage', litmusTestHashPtr garbage garbage' test = .ok d ∧
      litmusTestHash garbage test.toTest = .ok d := by
  obtain ⟨-, size, d, hall⟩ := h.hashTotal hmark
  refine ⟨d, fun garbage garbage' => ⟨(hall garbage garbage').2.2, ?_⟩⟩
  have hblit : blitTestPtr garbage test = blitTest garbage test.toTest := by
    funext dry tgt
    unfold blitTestPtr blitTest blitFinalCond finalCondPtr finalCond
    rw [printFinalCondPtr_eq h.names hresults]
    rfl
  obtain ⟨⟨b, hdry⟩, -, hd⟩ := hall garbage garbage
  obtain ⟨r, hrun, hhash⟩ := hashSha1_of_hash hdry hd
  rw [hblit] at hdry hrun
  unfold litmusTestHash
  simp only [hdry, hrun, hhash, bind, Except.bind]

/-- **Hashing is total and in bounds**, for code that is not malformed, if and only if the test can be hashed. -/
theorem hashTotal_iff (test : TestDef) (hmark : test.NotMalformed) : HashTotal test ↔ test.Hashable :=
  ⟨fun h => h.hashable hmark, fun h => h.hashTotal hmark⟩

/-- A test with one thread, one register, and an interesting result or none. -/
def oneRegister (interestingResult : Option (List U64)) (h : ∀ result ∈ interestingResult, result.length = 1) : TestDef where
  name := some (cstr ['T'])
  initStates := []
  threads := [some ⟨[0xd5032fff, 0xd503201f, 0xd5032fff], by decide⟩]
  threadSyncHandlers := none
  regNames := [['p', '0', ':', 'x', '1']]
  interestingResult := interestingResult
  noInterestingResults := 0
  interestingResults := none
  handlers_length := nofun
  result_length := h
  results_length := nofun

theorem hasCode_oneRegister {interestingResult : Option (List U64)} {h} {code : Instrs}
    (hcode : (oneRegister interestingResult h).HasCode code) : code.words = [0xd5032fff, 0xd503201f, 0xd5032fff] := by
  rcases hcode with hcode | ⟨handlers, hhandlers, -⟩
  · obtain rfl := Option.some.inj (List.mem_singleton.1 hcode)
    rfl
  · cases hhandlers

theorem notMalformed_oneRegister (interestingResult : Option (List U64)) (h) :
    (oneRegister interestingResult h).NotMalformed := by
  intro code hcode
  rw [hasCode_oneRegister hcode]
  decide

/-- With its result, it is hashed. -/
theorem hashTotal_oneRegister : HashTotal (oneRegister (some [2]) (by decide)) := by
  refine (hashTotal_iff _ (notMalformed_oneRegister _ _)).2 ⟨fun code hcode _ => ?_, by decide, .inr rfl, by decide,
    by decide, by decide⟩
  rw [hasCode_oneRegister hcode]
  decide

/-- A test without an interesting result is not hashed. -/
theorem hashTotal_null : (oneRegister none nofun).NotMalformed ∧ ¬HashTotal (oneRegister none nofun) := by
  refine ⟨notMalformed_oneRegister _ _, fun h => ?_⟩
  rcases (h.hashable (notMalformed_oneRegister _ _)).results with hregs | hresult
  · cases hregs
  · cases hresult

end TestHash

end LitmusHarness
