import LitmusHarness.Hash.Codes

/-!
# What the hash of a test says

The hash vector is the code of a test's name, initial state, extracted code and rendered final condition
(`known_blitTest`), and it can be read back (`encTest_prefixOn`). So tests with the same hash vector agree in these
(`blitTest_identifies`), and the hash of a test is the hash of these (`litmusTestHash_eq`).
-/

namespace LitmusHarness

namespace TestHash

/-! ## The test -/

/-- What a hash vector says about a test. -/
structure Identity where
  name : Option CStr
  initStates : List VarState
  threads : List (List U32 × List (List U32))
  finalCond : CStr

/-- What the hash vector of a test is to say: its name and initial state, what is extracted of its threads and the
rendered final condition. -/
def identity (garbage : CStr) (test : Test) : Option Identity := do
  let threads ← test.threads.zipIdx.mapM (extractThread test)
  let finalCond ← (finalCond garbage test).toOption
  return ⟨test.name, test.initStates, threads, finalCond⟩

/-- The code of an initial state. -/
def encInitState (sts : List VarState) : List Byte := BitString.beBytes 4 sts.length ++ sts.flatMap encVar

/-- The code of the threads. -/
def encThreads (threads : List (List U32 × List (List U32))) : List Byte :=
  BitString.beBytes 4 threads.length ++ threads.flatMap encThread

/-- The code of the whole: the hash vector. -/
def encTest (i : Identity) : List Byte :=
  encStr i.name ++ (encInitState i.initStates ++ (encThreads i.threads ++ encStr (some i.finalCond)))

/-- The extracted code can be copied, and there are no handlers or two. -/
def ThreadOk (thread : List U32 × List (List U32)) : Prop :=
  CodeOk thread.1 ∧ thread.2.length < 2 ^ 32 ∧ ∀ c ∈ thread.2, CodeOk c

theorem encThread_prefixOn : PrefixCode.PrefixOn ThreadOk encThread :=
  encCode_prefixOn.append ((beBytes_prefixOn 4).counted encCode_prefixOn) (fun _ h => h.1) (fun _ h => h.2)
    fun _ _ h1 h2 => Prod.ext h1 h2

/-- The strings are there, and the strings and the counts are below 2^32. -/
structure Identity.Ok (i : Identity) : Prop where
  name : StrOk i.name
  initStates : i.initStates.length < 2 ^ 32 ∧ ∀ st ∈ i.initStates, st.Ok
  threads : i.threads.length < 2 ^ 32 ∧ ∀ th ∈ i.threads, ThreadOk th
  finalCond : i.finalCond.length < 2 ^ 32

/-- **A hash vector can be read back.** -/
theorem encTest_prefixOn : PrefixCode.PrefixOn Identity.Ok encTest := by
  intro a b s t ha hb h
  simp only [encTest, List.append_assoc] at h
  obtain ⟨hname, h⟩ := encStr_prefixOn _ _ _ _ ha.name hb.name h
  obtain ⟨hinit, h⟩ := (beBytes_prefixOn 4).counted encVar_prefixOn _ _ _ _ ha.initStates hb.initStates h
  obtain ⟨hthreads, h⟩ := (beBytes_prefixOn 4).counted encThread_prefixOn _ _ _ _ ha.threads hb.threads h
  obtain ⟨hfinal, hst⟩ := encStr_prefixOn _ _ _ _ ⟨_, rfl, ha.finalCond⟩ ⟨_, rfl, hb.finalCond⟩ h
  obtain ⟨_, _, _, _⟩ := a
  obtain ⟨_, _, _, _⟩ := b
  cases hname
  cases hinit
  cases hthreads
  cases hfinal
  exact ⟨rfl, hst⟩

/-! ## The functions of the source blit the codes -/

theorem mapM_forall₂ {α β : Type} {x : α → Option β} {l : List α} {ys : List β} (h : l.mapM x = some ys) :
    List.Forall₂ (fun a y => x a = some y) l ys := by
  induction l generalizing ys with
  | nil =>
    obtain rfl := Option.some.inj h
    exact .nil
  | cons a l ih =>
    rw [List.mapM_cons] at h
    obtain ⟨y, hy, h⟩ := Option.bind_eq_some_iff.mp h
    obtain ⟨ys', hys, h⟩ := Option.bind_eq_some_iff.mp h
    obtain rfl := Option.some.inj h
    exact .cons hy (ih hys)

/-- The codes of the elements one after the other. -/
theorem mapM_flatten {α β : Type} (x : α → Option β) (g : β → List Byte) (l : List α) :
    (l.mapM fun a => (x a).map g).map List.flatten = (l.mapM x).map (List.flatMap g) := by
  induction l with
  | nil => rfl
  | cons a l ih =>
    simp only [List.mapM_cons]
    cases ha : x a with
    | none => rfl
    | some y =>
      cases hl : l.mapM x with
      | none =>
        rw [hl, Option.map_none, Option.map_eq_none_iff] at ih
        simp [ih]
      | some ys =>
        rw [hl, Option.map_some, Option.map_eq_some_iff] at ih
        obtain ⟨es, hes, hflat⟩ := ih
        simp [hes, hflat]

/-- The number of elements of a list, and the elements. -/
theorem known_counted {α β : Type} {f : α → Blit} {x : α → Option β} {g : β → List Byte} (l : List α)
    (h : ∀ a ∈ l, Known (f a) ((x a).map g)) :
    Known (fun dry tgt => blitInt (BitVec.ofNat 32 l.length) dry tgt >>= fun tgt => l.foldlM (fun tgt a => f a dry tgt) tgt)
      ((l.mapM x).map fun ys => BitString.beBytes 4 ys.length ++ ys.flatMap g) := by
  have hseq := (writes_blitInt l.length).known.seq (Known.foldlM l h)
  rw [mapM_flatten] at hseq
  cases hl : l.mapM x with
  | none => simpa [hl] using hseq
  | some ys => simpa [hl, (mapM_forall₂ hl).length_eq] using hseq

theorem known_blitInitState {test : Test} (h : ∀ st ∈ test.initStates, st.Ok) :
    Known (blitInitState test) (some (encInitState test.initStates)) := by
  have hk := known_counted (x := some) (g := encVar) test.initStates fun st hst => (writes_blitVarstate (h st hst)).known
  have hmap : test.initStates.mapM some = some test.initStates := by
    simpa using List.mapM_pure (m := Option) (l := test.initStates) (f := id)
  rw [hmap] at hk
  exact hk

theorem known_blitThreads (test : Test) :
    Known (blitThreads test) ((test.threads.zipIdx.mapM (extractThread test)).map encThreads) := by
  have hk := known_counted (f := blitThread test) (x := extractThread test) (g := encThread) test.threads.zipIdx
    fun thread _ => known_blitThread test thread
  rw [List.length_zipIdx] at hk
  exact hk

/-- The names of a test are there, and its strings and counts are below 2^32. -/
structure Test.Ok (test : Test) : Prop where
  name : StrOk test.name
  initStates : test.initStates.length < 2 ^ 32 ∧ ∀ st ∈ test.initStates, st.Ok
  threads : test.threads.length < 2 ^ 32

/-- **What `blit_test` writes.** -/
theorem known_blitTest {garbage : CStr} {test : Test} (h : test.Ok) (hgarbage : garbage.length < 2 ^ 32) :
    Known (blitTest garbage test) ((identity garbage test).map encTest) := by
  have hfinal : Known (blitFinalCond garbage test) ((finalCond garbage test).toOption.map fun s => encStr (some s)) := by
    unfold blitFinalCond
    cases hs : finalCond garbage test with
    | error e =>
      intro tgt r hr
      cases hr
    | ok s => exact (writes_blitStr ⟨s, rfl, finalCond_length hgarbage hs⟩).known
  have hk := (writes_blitStr h.name).known.seq ((known_blitInitState h.initStates.2).seq
    ((known_blitThreads test).seq hfinal))
  have henc : (identity garbage test).map encTest = (some (encStr test.name)).bind fun e =>
      ((some (encInitState test.initStates)).bind fun e =>
        (((test.threads.zipIdx.mapM (extractThread test)).map encThreads).bind fun e =>
          ((finalCond garbage test).toOption.map fun s => encStr (some s)).map (e ++ ·)).map (e ++ ·)).map (e ++ ·) := by
    unfold identity
    cases test.threads.zipIdx.mapM (extractThread test) <;> cases (finalCond garbage test).toOption <;> simp [encTest]
  rw [henc]
  exact hk

/-- What is said about the code of the threads. -/
theorem identity_threads {garbage : CStr} {test : Test} {i : Identity} (hi : identity garbage test = some i) :
    i.threads.length = test.threads.length ∧ ∀ (t : Nat) (th : List U32 × List (List U32)), i.threads[t]? = some th →
      ∃ code, test.threads[t]? = some code ∧ extractCode code = some th.1 ∧ extractHandlers test t = some th.2 := by
  obtain ⟨threads, hthreads, hi⟩ := Option.bind_eq_some_iff.mp hi
  obtain ⟨s, hs, hi⟩ := Option.bind_eq_some_iff.mp hi
  obtain rfl := Option.some.inj hi
  have hall := mapM_forall₂ hthreads
  have hlen : threads.length = test.threads.length := by rw [← hall.length_eq, List.length_zipIdx]
  refine ⟨hlen, fun t th hth => ?_⟩
  obtain ⟨ht, rfl⟩ := List.getElem?_eq_some_iff.mp hth
  have htt : t < test.threads.length := hlen ▸ ht
  have htz : t < test.threads.zipIdx.length := by rwa [List.length_zipIdx]
  have hx : extractThread test test.threads.zipIdx[t] = some threads[t] := hall.get htz ht
  rw [List.getElem_zipIdx] at hx
  obtain ⟨c, hc, hx⟩ := Option.bind_eq_some_iff.mp hx
  obtain ⟨handlers, hh, hx⟩ := Option.bind_eq_some_iff.mp hx
  have heq : (c, handlers) = threads[t] := Option.some.inj hx
  rw [Nat.zero_add] at hh
  exact ⟨_, List.getElem?_eq_getElem htt, by rw [hc, ← heq], by rw [hh, ← heq]⟩

theorem extractHandlers_ok {test : Test} {t : Nat} {handlers : List (List U32)}
    (h : extractHandlers test t = some handlers) : handlers.length < 2 ^ 32 ∧ ∀ c ∈ handlers, CodeOk c := by
  unfold extractHandlers at h
  split at h
  · obtain rfl := Option.some.inj h
    simp
  · obtain ⟨⟨el0, el1⟩, -, h⟩ := Option.bind_eq_some_iff.mp h
    obtain ⟨c0, h0, h⟩ := Option.bind_eq_some_iff.mp h
    obtain ⟨c1, h1, h⟩ := Option.bind_eq_some_iff.mp h
    obtain rfl := Option.some.inj h
    refine ⟨by simp, fun c hc => ?_⟩
    rcases List.mem_pair.mp hc with rfl | rfl
    · exact extractCode_length h0
    · exact extractCode_length h1

theorem identity_finalCond {garbage : CStr} {test : Test} {i : Identity} (hi : identity garbage test = some i) :
    i.name = test.name ∧ i.initStates = test.initStates ∧ finalCond garbage test = .ok i.finalCond := by
  obtain ⟨threads, -, hi⟩ := Option.bind_eq_some_iff.mp hi
  obtain ⟨s, hs, hi⟩ := Option.bind_eq_some_iff.mp hi
  obtain rfl := Option.some.inj hi
  refine ⟨rfl, rfl, ?_⟩
  cases hf : finalCond garbage test with
  | error e => simp [hf, Except.toOption] at hs
  | ok s' => simpa [hf, Except.toOption] using hs

theorem identity_ok {garbage : CStr} {test : Test} {i : Identity} (h : test.Ok) (hgarbage : garbage.length < 2 ^ 32)
    (hi : identity garbage test = some i) : i.Ok := by
  obtain ⟨hname, hinit, hfinal⟩ := identity_finalCond hi
  obtain ⟨hlen, hthreads⟩ := identity_threads hi
  refine ⟨hname ▸ h.name, hinit ▸ h.initStates, ⟨hlen ▸ h.threads, fun th hth => ?_⟩, finalCond_length hgarbage hfinal⟩
  obtain ⟨t, ht⟩ := List.mem_iff_getElem?.mp hth
  obtain ⟨code, -, hcode, hhandlers⟩ := hthreads t th ht
  exact ⟨extractCode_length hcode, extractHandlers_ok hhandlers⟩

/-- A run of `blit_test` into a buffer that is large enough writes the code of what the test says. -/
theorem blitTest_bytes {garbage : CStr} {test : Test} (h : test.Ok) (hgarbage : garbage.length < 2 ^ 32)
    {buf out : List Byte} {n : Nat} (hrun : blitTest garbage test false (0, buf) = .ok (n, out)) (hroom : n ≤ buf.length) :
    ∃ i, identity garbage test = some i ∧ out.take n = encTest i := by
  obtain ⟨e, he, hw⟩ := known_blitTest h hgarbage _ _ hrun
  obtain ⟨i, hi, rfl⟩ := Option.map_eq_some_iff.mp he
  obtain ⟨buf', hrun', -, hwet⟩ := hw false 0 buf
  rw [hrun', Except.ok.injEq, Prod.mk.injEq, Nat.zero_add] at hrun
  obtain ⟨rfl, rfl⟩ := hrun
  rw [Nat.zero_add] at hwet
  exact ⟨i, hi, by simp [hwet rfl hroom, splice]⟩

/-- **The hash of a test** is the hash of what is said about it. -/
theorem litmusTestHash_eq {garbage : CStr} {test : Test} (h : test.Ok) (hgarbage : garbage.length < 2 ^ 32)
    {d : List Byte} (hd : litmusTestHash garbage test = .ok d) :
    ∃ i, identity garbage test = some i ∧ Hashlib.hashSha1 (encTest i) = .ok d := by
  unfold litmusTestHash at hd
  obtain ⟨⟨size, b⟩, hdry, hd⟩ := Loop.bind_ok hd
  obtain ⟨⟨n, buf⟩, hrun, hd⟩ := Loop.bind_ok hd
  obtain ⟨e, he, hw⟩ := known_blitTest h hgarbage _ _ hrun
  obtain ⟨i, hi, rfl⟩ := Option.map_eq_some_iff.mp he
  cases hdry.symm.trans hw.dryRun
  cases hrun.symm.trans hw.run
  refine ⟨i, hi, ?_⟩
  cases hh : Hashlib.hashSha1 (encTest i) with
  | error e => simp [hh] at hd
  | ok d' => simpa [hh] using hd

/-- **The hash vector identifies the test**: if `blit_test` writes the same bytes for two tests, then they have the same
name and initial state, as many threads, with the same extracted code and the same extracted code of their handlers, and
the same rendered final condition. -/
theorem blitTest_identifies {garbage garbage' : CStr} {test test' : Test} (h : test.Ok) (h' : test'.Ok)
    (hgarbage : garbage.length < 2 ^ 32) (hgarbage' : garbage'.length < 2 ^ 32) {buf buf' out out' : List Byte} {n n' : Nat}
    (hrun : blitTest garbage test false (0, buf) = .ok (n, out)) (hroom : n ≤ buf.length)
    (hrun' : blitTest garbage' test' false (0, buf') = .ok (n', out')) (hroom' : n' ≤ buf'.length)
    (hsame : out.take n = out'.take n') :
    test.name = test'.name ∧ test.initStates = test'.initStates ∧ test.threads.length = test'.threads.length ∧
      (∀ (t : Nat) (code code' : Code), test.threads[t]? = some code → test'.threads[t]? = some code' →
        extractCode code = extractCode code' ∧ extractHandlers test t = extractHandlers test' t) ∧
      finalCond garbage test = finalCond garbage' test' := by
  obtain ⟨i, hi, hbytes⟩ := blitTest_bytes h hgarbage hrun hroom
  obtain ⟨i', hi', hbytes'⟩ := blitTest_bytes h' hgarbage' hrun' hroom'
  obtain rfl : i = i' := encTest_prefixOn.inj (identity_ok h hgarbage hi) (identity_ok h' hgarbage' hi')
    (hbytes.symm.trans (hsame.trans hbytes'))
  obtain ⟨hname, hinit, hfinal⟩ := identity_finalCond hi
  obtain ⟨hname', hinit', hfinal'⟩ := identity_finalCond hi'
  obtain ⟨hlen, hthreads⟩ := identity_threads hi
  obtain ⟨hlen', hthreads'⟩ := identity_threads hi'
  refine ⟨hname.symm.trans hname', hinit.symm.trans hinit', hlen.symm.trans hlen', fun t code code' hc hc' => ?_,
    hfinal.trans hfinal'.symm⟩
  have ht : t < i.threads.length := hlen ▸ (List.getElem?_eq_some_iff.mp hc).1
  obtain ⟨c, hcode, hext, hhandlers⟩ := hthreads t _ (List.getElem?_eq_getElem ht)
  obtain ⟨c', hcode', hext', hhandlers'⟩ := hthreads' t _ (List.getElem?_eq_getElem ht)
  obtain rfl := Option.some.inj (hc.symm.trans hcode)
  obtain rfl := Option.some.inj (hc'.symm.trans hcode')
  exact ⟨hext.trans hext'.symm, hhandlers.trans hhandlers'.symm⟩

/-- A test with one thread. -/
def oneThread (words : List U32) (fits : words.length < 2 ^ 62) : Test where
  name := some (cstr ['T'])
  initStates := [⟨some (cstr ['x']), .heap 1⟩]
  threads := [some ⟨words, fits⟩]
  threadSyncHandlers := none
  regNames := [['p', '0', ':', 'x', '1']]
  interestingResult := [2]
  interestingResults := []

theorem oneThread_ok (words : List U32) (fits : words.length < 2 ^ 62) : (oneThread words fits).Ok where
  name := ⟨_, rfl, by decide⟩
  initStates := ⟨by simp [oneThread], fun st hst => by
    obtain rfl := List.mem_singleton.mp hst
    exact ⟨⟨_, rfl, by decide⟩, trivial⟩⟩
  threads := by simp [oneThread]

/-- What follows the second hint is not hashed. -/
theorem blitTest_identifies_oneThread : ∃ v,
    blitTest [] (oneThread [0xd5032fff, 0xd503201f, 0xd5032fff] (by decide)) false (0, List.replicate 61 0) = .ok (61, v) ∧
    blitTest [] (oneThread [0xd5032fff, 0xd503201f, 0xd5032fff, 0xd65f03c0] (by decide)) false (0, List.replicate 61 0) =
      .ok (61, v) ∧
    extractCode (some ⟨[0xd5032fff, 0xd503201f, 0xd5032fff], by decide⟩) =
      extractCode (some ⟨[0xd5032fff, 0xd503201f, 0xd5032fff, 0xd65f03c0], by decide⟩) := by
  have hrun : (blitTest [] (oneThread [0xd5032fff, 0xd503201f, 0xd5032fff] (by decide)) false
      (0, List.replicate 61 0)).toOption.map Prod.fst = some 61 := by decide +kernel
  have hsame : (blitTest [] (oneThread [0xd5032fff, 0xd503201f, 0xd5032fff, 0xd65f03c0] (by decide)) false
      (0, List.replicate 61 0)).toOption = (blitTest [] (oneThread [0xd5032fff, 0xd503201f, 0xd5032fff] (by decide)) false
      (0, List.replicate 61 0)).toOption := by decide +kernel
  obtain ⟨⟨n, v⟩, hv, rfl⟩ := Option.map_eq_some_iff.mp hrun
  have hok {x : Except BlitError Target} {r : Target} (h : x.toOption = some r) : x = .ok r := by
    cases x with
    | error e => cases h
    | ok a => exact congrArg Except.ok (Option.some.inj h)
  have h1 := hok hv
  have h2 := hok (hsame.trans hv)
  refine ⟨v, h1, h2, ?_⟩
  exact ((blitTest_identifies (oneThread_ok _ _) (oneThread_ok _ _) (by decide) (by decide) h1 (by simp) h2 (by simp)
    rfl).2.2.2.1 0 _ _ rfl rfl).1

end TestHash

end LitmusHarness
