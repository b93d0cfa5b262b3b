import LitmusHarness.Bitwise
import LitmusHarness.Lib.Rose
import LitmusHarness.ReStack

/-!
# The selection of tests: `main_match_and_run.c` and `main_show_matches.c`

`match_and_run` runs the tests whose names match, and if there are none, the tests of the groups whose names match.
`show_matches_only` lists the tests of the matching groups if the pattern starts with `@`, and else the matching tests.
Both visit the tree of groups by recursion, with `matchStep` at a test or a group; what they collect is a filter of the
tests or the groups of the tree (`foldlM_matchStep`).

What they select is compared in `selectionExact_iff`: a test of two nested groups that match is run twice, and the groups
whose names do not start with `@`, as those that are generated for directories (`data/@all`), are run but not listed.
-/

namespace LitmusHarness.Frontend

open Rose (Tree)

/-- A test: where its definition is, and the parts of it that are read here. -/
structure LitmusTest where
  addr : U64
  name : List UInt8
  requires : BitVec 32
  deriving DecidableEq, Repr

/-- `litmus_test_group`. -/
abbrev LitmusTestGroup : Type := Tree (List UInt8) LitmusTest

/-- The options on which a test may depend. -/
structure Features where
  enablePerfCounts : Bool
  enablePgtable : Bool
  debug : Bool
  hasAarch64FeatLse : Bool

/-- What is seen of a run: a warning about a test, or `run_test` for it. -/
inductive RunEvent
  | skip (msg : String) (t : LitmusTest)
  | run (t : LitmusTest)
  deriving DecidableEq, Repr

/-- A line of the list of matches. -/
inductive ShowLine
  | group (name : List UInt8)
  | test (t : LitmusTest)
  deriving DecidableEq, Repr

/-- The format of a line. -/
def ShowLine.fmt : ShowLine → String
  | group _ => "(%s)\n"
  | test _ => " %s\n"

/-- How the selection stops: `re_matches` leaves its stack, or nothing matches. -/
inductive SelectStop
  | stack
  | abort (msg : String)
  deriving DecidableEq, Repr

/-! ## Running -/

def requiresDebug : BitVec 32 := 1 <<< 1
def requiresPerf : BitVec 32 := 1 <<< 2
def requiresPgtable : BitVec 32 := 1 <<< 3
def requiresArmAarch64FeatLse : BitVec 32 := 1 <<< 4

/-- `if ((tst->requires & flag) && !enabled)`. -/
def misses (t : LitmusTest) (flag : BitVec 32) (enabled : Bool) : Bool := t.requires &&& flag ≠ 0 && !enabled

/-- `run_test_fn`. -/
def runTestFn (cfg : Features) (dryRun : Bool) (t : LitmusTest) (reportSkip : Bool) : List RunEvent :=
  let skip msg := if reportSkip then [.skip msg t] else []
  if misses t requiresPerf cfg.enablePerfCounts then skip "skipping \"%s\":  requires --perf\n"
  else if misses t requiresPgtable cfg.enablePgtable then skip "skipping \"%s\": requires --pgtable\n"
  else if misses t requiresDebug cfg.debug then skip "skipping \"%s\": requires -d\n"
  else if misses t requiresArmAarch64FeatLse cfg.hasAarch64FeatLse then skip "skipping \"%s\": requires -d\n"
  else if !dryRun then [.run t] else []

/-- `run_all_group`. -/
def runAllGroup (cfg : Features) (dryRun : Bool) (grp : LitmusTestGroup) : List RunEvent :=
  grp.collect fun t => runTestFn cfg dryRun t dryRun

/-- A step of a selection: if the name matches, `out` is appended, and `found_match` is set. -/
def matchStep {τ γ : Type} (arg : List ReTok) (name : τ → List UInt8) (out : τ → List γ) (s : List γ × Bool) (x : τ) :
    Except SelectStop (List γ × Bool) :=
  match reMatchesCall arg (name x) with
  | some true => .ok (s.1 ++ out x, true)
  | some false => .ok s
  | none => .error .stack

/-- `__match_and_run_test`: what is run, and `found_match`. -/
def matchAndRunTest (cfg : Features) (dryRun : Bool) (grp : LitmusTestGroup) (arg : List ReTok) :
    Except SelectStop (List RunEvent × Bool) :=
  grp.foldItems (matchStep arg LitmusTest.name fun t => runTestFn cfg dryRun t false) ([], false)

/-- `__match_and_run_group`. -/
def matchAndRunGroup (cfg : Features) (dryRun : Bool) (grp : LitmusTestGroup) (arg : List ReTok) :
    Except SelectStop (List RunEvent × Bool) :=
  grp.foldNodes (matchStep arg Tree.label (runAllGroup cfg dryRun)) ([], false)

/-- `match_and_run`, of the pattern `originalExpr`. -/
def matchAndRun (cfg : Features) (dryRun : Bool) (grp : LitmusTestGroup) (originalExpr : List UInt8) :
    Except SelectStop (List RunEvent) := do
  let arg := reCompile originalExpr
  let (ran, found) ← matchAndRunTest cfg dryRun grp arg
  if found then .ok ran
  else
    let (ran', found) ← matchAndRunGroup cfg dryRun grp arg
    if found then .ok (ran ++ ran') else .error (.abort "no test matches: \"%s\"\n")

/-! ## Showing -/

/-- `_print_all_tests`. -/
def printAllTests (grp : LitmusTestGroup) : List ShowLine := grp.collect fun t => [.test t]

/-- `_print_matches_group`. -/
def printMatchesGroup (grp : LitmusTestGroup) (arg : List ReTok) : Except SelectStop (List ShowLine × Bool) :=
  grp.foldNodes (matchStep arg Tree.label fun grp => .group grp.label :: printAllTests grp) ([], false)

/-- `_print_matches_test`. -/
def printMatchesTest (grp : LitmusTestGroup) (arg : List ReTok) : Except SelectStop (List ShowLine × Bool) :=
  grp.foldItems (matchStep arg LitmusTest.name fun t => [.test t]) ([], false)

/-- `show_matches_only`. -/
def showMatchesOnly (grp : LitmusTestGroup) (originalExpr : List UInt8) : Except SelectStop (List ShowLine) :=
  let arg := reCompile originalExpr
  if originalExpr.head? = some 64 then (printMatchesGroup grp arg).map Prod.fst
  else (printMatchesTest grp arg).map Prod.fst

/-! ## What is selected -/

/-- The name is accepted by the matcher. -/
def matchesName (p name : List UInt8) : Bool := accepted (reCompile p) name

/-- The tests whose names match or, when no name of a test matches, the tests in or below a matching group. -/
def Selected (grp : LitmusTestGroup) (p : List UInt8) (t : LitmusTest) : Prop :=
  if grp.items.any fun t => matchesName p t.name then t ∈ grp.items ∧ matchesName p t.name = true
  else ∃ h ∈ grp.nodes, matchesName p h.label = true ∧ t ∈ h.items

instance (grp : LitmusTestGroup) (p : List UInt8) (t : LitmusTest) : Decidable (Selected grp p t) := by
  unfold Selected
  exact inferInstance

/-- The tests that are run. -/
def RunEvent.ran : RunEvent → Option LitmusTest
  | skip _ _ => none
  | run t => some t

/-- The tests that are listed. -/
def ShowLine.listed : ShowLine → Option LitmusTest
  | group _ => none
  | test t => some t

/-- `match_and_run` runs the tests of the list, one after the other; nothing is run before it aborts. -/
def Runs (cfg : Features) (grp : LitmusTestGroup) (p : List UInt8) (ran : List LitmusTest) : Prop :=
  (∃ events, matchAndRun cfg false grp p = .ok events ∧ ran = events.filterMap RunEvent.ran) ∨
    (∃ msg, matchAndRun cfg false grp p = .error (.abort msg)) ∧ ran = []

/-- Each selected test is run once and no other test is, and the same tests are listed. -/
def SelectionExact (cfg : Features) (grp : LitmusTestGroup) (p : List UInt8) : Prop :=
  ∃ ran lines, Runs cfg grp p ran ∧ showMatchesOnly grp p = .ok lines ∧
    (∀ t, ran.count t = if Selected grp p t then 1 else 0) ∧ ∀ t, t ∈ lines.filterMap ShowLine.listed ↔ t ∈ ran

/-- The requirements of the test are met. -/
def Features.Meets (cfg : Features) (t : LitmusTest) : Prop :=
  misses t requiresPerf cfg.enablePerfCounts = false ∧ misses t requiresPgtable cfg.enablePgtable = false ∧
    misses t requiresDebug cfg.debug = false ∧ misses t requiresArmAarch64FeatLse cfg.hasAarch64FeatLse = false

instance (cfg : Features) (t : LitmusTest) : Decidable (cfg.Meets t) := by
  unfold Features.Meets
  exact inferInstance

section Steps

variable {τ γ : Type} {p : List UInt8} {name : τ → List UInt8} {out : τ → List γ}

/-- **A loop over tests or groups** collects what is at the ones that match, if the matcher stays in its stack. -/
theorem foldlM_matchStep {l : List τ} {s s' : List γ × Bool} :
    l.foldlM (matchStep (reCompile p) name out) s = .ok s' ↔ (∀ x ∈ l, FitsStack p (name x)) ∧
      s' = (s.1 ++ (l.filter fun x => matchesName p (name x)).flatMap out,
        s.2 || l.any fun x => matchesName p (name x)) := by
  induction l generalizing s with
  | nil => simp [pure, Except.pure, eq_comm, Prod.ext_iff]
  | cons x l ih =>
    have hcall := @reMatchesCall_eq_some p (name x)
    rw [List.foldlM_cons, List.forall_mem_cons, List.filter_cons, List.any_cons, matchStep]
    cases hx : reMatchesCall (reCompile p) (name x) with
    | none =>
      have hno : ¬FitsStack p (name x) := fun h => by
        rw [hcall.mpr ⟨h, rfl⟩] at hx
        cases hx
      simp [hno, bind, Except.bind]
    | some b =>
      obtain ⟨hfits, hb⟩ := hcall.mp hx
      have hb' : matchesName p (name x) = b := hb.symm
      cases b with
      | true => simp only [bind, Except.bind, ih, hfits, hb', true_and, if_true, List.flatMap_cons, List.append_assoc,
          Bool.true_or, Bool.or_true]
      | false => simp [hb', hfits, bind, Except.bind, ih]

/-- The only other end of the loop is outside of the stack. -/
theorem foldlM_matchStep_error {l : List τ} {s : List γ × Bool} {e : SelectStop}
    (h : l.foldlM (matchStep (reCompile p) name out) s = .error e) : e = .stack := by
  induction l generalizing s with
  | nil => cases h
  | cons x l ih =>
    rw [List.foldlM_cons] at h
    rcases Loop.bind_error h with h | ⟨s', -, h⟩
    · unfold matchStep at h
      split at h
      · cases h
      · cases h
      · cases h
        rfl
    · exact ih h

/-- What is listed of the lines that a loop collects. -/
theorem listed_matchStep {l : List τ} {out : τ → List ShowLine} {listed : List LitmusTest} :
    (∃ lines, (l.foldlM (matchStep (reCompile p) name out) ([], false)).map Prod.fst = .ok lines ∧
      lines.filterMap ShowLine.listed = listed) ↔
    (∀ x ∈ l, FitsStack p (name x)) ∧
      listed = ((l.filter fun x => matchesName p (name x)).flatMap out).filterMap ShowLine.listed := by
  constructor
  · rintro ⟨lines, h, rfl⟩
    cases hfold : l.foldlM (matchStep (reCompile p) name out) ([], false) with
    | error e =>
      rw [hfold] at h
      cases h
    | ok s =>
      rw [hfold] at h
      cases h
      obtain ⟨hfits, rfl⟩ := foldlM_matchStep.mp hfold
      exact ⟨hfits, rfl⟩
  · rintro ⟨hfits, rfl⟩
    exact ⟨_, by rw [foldlM_matchStep.mpr ⟨hfits, rfl⟩]; rfl, rfl⟩

end Steps

section Selection

variable {cfg : Features} {grp : LitmusTestGroup} {p : List UInt8} {ran : List LitmusTest}

/-- The tests whose names match. -/
def matchingTests (grp : LitmusTestGroup) (p : List UInt8) : List LitmusTest :=
  grp.items.filter fun t => matchesName p t.name

/-- The tests of the matching groups, once for each of these. -/
def matchingGroups (grp : LitmusTestGroup) (p : List UInt8) : List LitmusTest :=
  (grp.nodes.filter fun h => matchesName p h.label).flatMap Tree.items

theorem runTestFn_meets {t : LitmusTest} (h : cfg.Meets t) (reportSkip : Bool) :
    runTestFn cfg false t reportSkip = [.run t] := by
  obtain ⟨h1, h2, h3, h4⟩ := h
  simp [runTestFn, h1, h2, h3, h4]

/-- The groups of a group have tests of it only. -/
theorem items_of_mem_nodes {h : LitmusTestGroup} {t : LitmusTest} (hh : h ∈ grp.nodes) (ht : t ∈ h.items) :
    t ∈ grp.items := by
  have hmem : t ∈ (grp.nodes.filter fun _ => true).flatMap Tree.items :=
    List.mem_flatMap.mpr ⟨h, List.mem_filter.mpr ⟨hh, rfl⟩, ht⟩
  obtain ⟨pl, hpl, hb, -⟩ := (@Rose.Tree.mem_flatMap_items _ _ _ (fun _ => true) _ _).mp hmem
  exact Rose.Tree.mem_items.mpr ⟨pl, hpl, hb⟩

theorem filterMap_ran_flatMap {l : List LitmusTest} (h : ∀ t ∈ l, cfg.Meets t) (reportSkip : Bool) :
    (l.flatMap fun t => runTestFn cfg false t reportSkip).filterMap RunEvent.ran = l := by
  induction l with
  | nil => rfl
  | cons t l ih =>
    obtain ⟨ht, hl⟩ := List.forall_mem_cons.mp h
    rw [List.flatMap_cons, runTestFn_meets ht, List.filterMap_append, ih hl]
    rfl

theorem filterMap_ran_groups {l : List LitmusTestGroup} (h : ∀ g ∈ l, ∀ t ∈ g.items, cfg.Meets t) :
    (l.flatMap (runAllGroup cfg false)).filterMap RunEvent.ran = l.flatMap Tree.items := by
  induction l with
  | nil => rfl
  | cons g l ih =>
    obtain ⟨hg, hl⟩ := List.forall_mem_cons.mp h
    rw [List.flatMap_cons, List.flatMap_cons, List.filterMap_append, ih hl, runAllGroup, Rose.Tree.collect_eq,
      filterMap_ran_flatMap hg]

theorem filterMap_listed_tests (l : List LitmusTest) :
    (l.flatMap fun t => [ShowLine.test t]).filterMap ShowLine.listed = l := by
  induction l with
  | nil => rfl
  | cons t l ih => rw [List.flatMap_cons, List.filterMap_append, ih]; rfl

theorem filterMap_listed_groups (l : List LitmusTestGroup) :
    (l.flatMap fun g => .group g.label :: printAllTests g).filterMap ShowLine.listed = l.flatMap Tree.items := by
  induction l with
  | nil => rfl
  | cons g l ih =>
    have hg : (ShowLine.group g.label :: printAllTests g).filterMap ShowLine.listed = g.items := by
      rw [List.filterMap_cons, printAllTests, Rose.Tree.collect_eq, filterMap_listed_tests]
      rfl
    rw [List.flatMap_cons, List.flatMap_cons, List.filterMap_append, ih, hg]

/-- The tests that `match_and_run` runs. -/
theorem runs_iff (hmeets : ∀ t ∈ grp.items, cfg.Meets t) : Runs cfg grp p ran ↔
    (∀ t ∈ grp.items, FitsStack p t.name) ∧
      if grp.items.any fun t => matchesName p t.name then ran = matchingTests grp p
      else (∀ h ∈ grp.nodes, FitsStack p h.label) ∧ ran = matchingGroups grp p := by
  have hrunTests : ((matchingTests grp p).flatMap fun t => runTestFn cfg false t false).filterMap RunEvent.ran =
      matchingTests grp p := filterMap_ran_flatMap (fun t ht => hmeets t (List.mem_of_mem_filter ht)) false
  have hrunGroups : ((grp.nodes.filter fun h => matchesName p h.label).flatMap (runAllGroup cfg false)).filterMap
      RunEvent.ran = matchingGroups grp p :=
    filterMap_ran_groups fun h hh t ht => hmeets t (items_of_mem_nodes (List.mem_of_mem_filter hh) ht)
  have htests := @foldlM_matchStep _ _ p LitmusTest.name (fun t => runTestFn cfg false t false) grp.items
  have hgroups := @foldlM_matchStep _ _ p Tree.label (runAllGroup cfg false) grp.nodes
  unfold Runs matchAndRun matchAndRunTest matchAndRunGroup
  simp only [Rose.Tree.foldItems_eq, Rose.Tree.foldNodes_eq]
  by_cases hfits : ∀ t ∈ grp.items, FitsStack p t.name
  · rw [htests.mpr ⟨hfits, rfl⟩]
    rw [and_iff_right hfits]
    simp only [bind, Except.bind, Bool.false_or, List.nil_append]
    cases hany : grp.items.any fun t => matchesName p t.name with
    | true =>
      simp only [if_true, Except.ok.injEq, exists_eq_left', reduceCtorEq, exists_false, false_and, or_false]
      exact Eq.congr_right hrunTests
    | false =>
      have hnone : (grp.items.filter fun t => matchesName p t.name) = [] := by
        exact List.filter_eq_nil_iff.mpr (List.any_eq_false.mp hany)
      simp only [Bool.false_eq_true, if_false, hnone, List.flatMap_nil, List.nil_append]
      by_cases hfits' : ∀ h ∈ grp.nodes, FitsStack p h.label
      · rw [hgroups.mpr ⟨hfits', rfl⟩]
        rw [and_iff_right hfits']
        simp only [Bool.false_or, List.nil_append]
        cases hfound : grp.nodes.any fun h => matchesName p h.label with
        | true =>
          simp only [if_true, Except.ok.injEq, exists_eq_left', reduceCtorEq, exists_false, false_and, or_false]
          exact Eq.congr_right hrunGroups
        | false =>
          have hnone' : matchingGroups grp p = [] := by
            rw [matchingGroups, List.filter_eq_nil_iff.mpr (List.any_eq_false.mp hfound)]
            rfl
          simp [hnone']
      · cases hfold : grp.nodes.foldlM (matchStep (reCompile p) Tree.label (runAllGroup cfg false)) ([], false) with
        | ok s => exact absurd (hgroups.mp hfold).1 hfits'
        | error e =>
          obtain rfl := foldlM_matchStep_error hfold
          simp [hfits']
  · cases hfold : grp.items.foldlM
        (matchStep (reCompile p) LitmusTest.name fun t => runTestFn cfg false t false) ([], false) with
    | ok s => exact absurd (htests.mp hfold).1 hfits
    | error e =>
      obtain rfl := foldlM_matchStep_error hfold
      simp [hfits, bind, Except.bind]

/-- The tests that `show_matches_only` lists. -/
theorem showMatchesOnly_iff {listed : List LitmusTest} :
    (∃ lines, showMatchesOnly grp p = .ok lines ∧ lines.filterMap ShowLine.listed = listed) ↔
      if p.head? = some 64 then (∀ h ∈ grp.nodes, FitsStack p h.label) ∧ listed = matchingGroups grp p
      else (∀ t ∈ grp.items, FitsStack p t.name) ∧ listed = matchingTests grp p := by
  unfold showMatchesOnly printMatchesGroup printMatchesTest
  simp only [Rose.Tree.foldItems_eq, Rose.Tree.foldNodes_eq]
  split
  · rw [listed_matchStep, filterMap_listed_groups]
    rfl
  · rw [listed_matchStep, filterMap_listed_tests]
    rfl

/-- A test of the tree matches. -/
def anyTest (grp : LitmusTestGroup) (p : List UInt8) : Bool := grp.items.any fun t => matchesName p t.name

theorem mem_matchingTests {t : LitmusTest} :
    t ∈ matchingTests grp p ↔ t ∈ grp.items ∧ matchesName p t.name = true := List.mem_filter

theorem mem_matchingGroups {t : LitmusTest} :
    t ∈ matchingGroups grp p ↔ ∃ pl ∈ grp.places, pl.2 = t ∧ pl.1.any (matchesName p) = true :=
  Rose.Tree.mem_flatMap_items

/-- What is selected, as the two lists have it. -/
theorem selected_iff {t : LitmusTest} : Selected grp p t ↔
    if anyTest grp p then t ∈ matchingTests grp p else t ∈ matchingGroups grp p := by
  unfold Selected
  split
  · next h => rw [if_pos (show anyTest grp p = true from h), mem_matchingTests]
  · next h =>
    rw [if_neg (show ¬anyTest grp p = true from h), matchingGroups, List.mem_flatMap]
    simp only [List.mem_filter, and_assoc]

/-- A list has each of its elements once, and no other. -/
theorem count_eq_ite_iff {l : List LitmusTest} :
    (∀ t, l.count t = if t ∈ l then 1 else 0) ↔ ∀ t, l.count t ≤ 1 := by
  refine forall_congr' fun t => ?_
  by_cases h : t ∈ l
  · have := List.count_pos_iff.mpr h
    rw [if_pos h]
    omega
  · rw [if_neg h, List.count_eq_zero_of_not_mem h]
    simp

/-- The matcher stays in its stack; no test that is selected by its name is listed twice in the tree, and with a pattern
that starts with `@` these tests are the ones of the matching groups; no test has two matching groups around its places
when groups are selected, and with a pattern that does not start with `@` it has none. -/
def SelectionHolds (grp : LitmusTestGroup) (p : List UInt8) : Prop :=
  (∀ t ∈ grp.items, FitsStack p t.name) ∧
    (anyTest grp p = false ∨ p.head? = some 64 → ∀ h ∈ grp.nodes, FitsStack p h.label) ∧
    if anyTest grp p then
      (∀ t ∈ grp.items, matchesName p t.name = true → grp.items.count t = 1) ∧
        (p.head? = some 64 → ∀ t ∈ grp.items, matchesName p t.name = true ↔
          ∃ pl ∈ grp.places, pl.2 = t ∧ pl.1.any (matchesName p) = true)
    else
      (∀ t, Rose.Tree.around (matchesName p) t grp.places ≤ 1) ∧
        (p.head? = some 64 ∨ ∀ pl ∈ grp.places, pl.1.any (matchesName p) = false)

theorem count_matchingTests {t : LitmusTest} (hm : matchesName p t.name = true) :
    (matchingTests grp p).count t = grp.items.count t :=
  List.count_filter (p := fun t : LitmusTest => matchesName p t.name) hm

/-- The tests that match are run once each. -/
theorem matchingTests_once : (∀ t, (matchingTests grp p).count t ≤ 1) ↔
    ∀ t ∈ grp.items, matchesName p t.name = true → grp.items.count t = 1 := by
  constructor
  · intro h t ht hm
    have hle := h t
    rw [count_matchingTests hm] at hle
    have := List.count_pos_iff.mpr ht
    omega
  · intro h t
    by_cases ht : t ∈ matchingTests grp p
    · obtain ⟨hmem, hm⟩ := mem_matchingTests.mp ht
      rw [count_matchingTests hm, h t hmem hm]
    · rw [List.count_eq_zero_of_not_mem ht]
      exact Nat.zero_le 1

/-- The tests of the matching groups, against the ones that match. -/
theorem matchingGroups_eq_tests : (∀ t, t ∈ matchingGroups grp p ↔ t ∈ matchingTests grp p) ↔
    ∀ t ∈ grp.items, matchesName p t.name = true ↔
      ∃ pl ∈ grp.places, pl.2 = t ∧ pl.1.any (matchesName p) = true := by
  simp only [mem_matchingGroups, mem_matchingTests]
  constructor
  · intro h t ht
    exact ⟨fun hm => (h t).mpr ⟨ht, hm⟩, fun hg => ((h t).mp hg).2⟩
  · intro h t
    constructor
    · rintro ⟨pl, hpl, rfl, hany⟩
      have ht := Rose.Tree.mem_items.mpr ⟨pl, hpl, rfl⟩
      exact ⟨ht, (h _ ht).mpr ⟨pl, hpl, rfl, hany⟩⟩
    · exact fun ht => (h t ht.1).mp ht.2

theorem matchingGroups_eq_nil : (∀ t, t ∉ matchingGroups grp p) ↔
    ∀ pl ∈ grp.places, pl.1.any (matchesName p) = false := by
  simp only [mem_matchingGroups]
  constructor
  · intro h pl hpl
    rw [← Bool.not_eq_true]
    exact fun hany => h pl.2 ⟨pl, hpl, rfl, hany⟩
  · rintro h t ⟨pl, hpl, -, hany⟩
    rw [h pl hpl] at hany
    cases hany

/-- The tests of the matching groups are run once each. -/
theorem matchingGroups_once : (∀ t, (matchingGroups grp p).count t = if t ∈ matchingGroups grp p then 1 else 0) ↔
    ∀ t, Rose.Tree.around (matchesName p) t grp.places ≤ 1 := by
  rw [count_eq_ite_iff]
  exact forall_congr' fun t => by rw [matchingGroups, Rose.Tree.count_flatMap_items (matchesName p)]

/-- What is run and what is listed, as two lists. -/
theorem selectionExact_lists : SelectionExact cfg grp p ↔ ∃ ran listed, Runs cfg grp p ran ∧
    (∃ lines, showMatchesOnly grp p = .ok lines ∧ lines.filterMap ShowLine.listed = listed) ∧
    (∀ t, ran.count t = if Selected grp p t then 1 else 0) ∧ ∀ t, t ∈ listed ↔ t ∈ ran := by
  constructor
  · rintro ⟨ran, lines, h1, h2, h3, h4⟩
    exact ⟨ran, _, h1, ⟨lines, h2, rfl⟩, h3, h4⟩
  · rintro ⟨ran, _, h1, ⟨lines, h2, rfl⟩, h3, h4⟩
    exact ⟨ran, lines, h1, h2, h3, h4⟩

/-- **The selection is exact** on exactly these trees and patterns, when all requirements are met. -/
theorem selectionExact_iff (hmeets : ∀ t ∈ grp.items, cfg.Meets t) :
    SelectionExact cfg grp p ↔ SelectionHolds grp p := by
  rw [selectionExact_lists]
  simp only [runs_iff hmeets, showMatchesOnly_iff, selected_iff, SelectionHolds]
  change (∃ ran listed, (_ ∧ if anyTest grp p then _ else _) ∧ _) ↔ _
  cases hany : anyTest grp p with
  | true =>
    simp only [if_true, Bool.true_eq_false, false_or]
    by_cases hat : p.head? = some 64
    · simp only [hat, if_true, forall_const]
      rw [← matchingTests_once, ← count_eq_ite_iff, ← matchingGroups_eq_tests]
      constructor
      · rintro ⟨ran, listed, ⟨h1, rfl⟩, ⟨h2, rfl⟩, h3, h4⟩
        exact ⟨h1, h2, h3, h4⟩
      · rintro ⟨h1, h2, h3, h4⟩
        exact ⟨_, _, ⟨h1, rfl⟩, ⟨h2, rfl⟩, h3, h4⟩
    · simp only [hat, if_false, false_implies, and_true, true_and]
      rw [← matchingTests_once, ← count_eq_ite_iff]
      constructor
      · rintro ⟨ran, listed, ⟨h1, rfl⟩, -, h3, -⟩
        exact ⟨h1, h3⟩
      · rintro ⟨h1, h3⟩
        exact ⟨_, _, ⟨h1, rfl⟩, ⟨h1, rfl⟩, h3, fun t => Iff.rfl⟩
  | false =>
    have hnone : matchingTests grp p = [] := List.filter_eq_nil_iff.mpr (List.any_eq_false.mp hany)
    simp only [Bool.false_eq_true, if_false, true_or, forall_const]
    rw [← matchingGroups_once]
    by_cases hat : p.head? = some 64
    · simp only [hat, if_true, true_or, and_true]
      constructor
      · rintro ⟨ran, listed, ⟨h1, h2, rfl⟩, -, h3, -⟩
        exact ⟨h1, h2, h3⟩
      · rintro ⟨h1, h2, h3⟩
        exact ⟨_, _, ⟨h1, h2, rfl⟩, ⟨h2, rfl⟩, h3, fun t => Iff.rfl⟩
    · simp only [hat, if_false, false_or, hnone]
      rw [← matchingGroups_eq_nil]
      constructor
      · rintro ⟨ran, listed, ⟨h1, h2, rfl⟩, ⟨-, rfl⟩, h3, h4⟩
        exact ⟨h1, h2, h3, fun t ht => List.not_mem_nil ((h4 t).mpr ht)⟩
      · rintro ⟨h1, h2, h3, h4⟩
        exact ⟨_, [], ⟨h1, h2, rfl⟩, ⟨h1, rfl⟩, h3, fun t => ⟨fun ht => absurd ht List.not_mem_nil,
          fun ht => absurd ht (h4 t)⟩⟩

end Selection

/-! ## A small tree -/

/-- The group `@all` with the group `data/@all`, which has the test `SB`. -/
def smallGroups : LitmusTestGroup :=
  .node [64, 97, 108, 108] [] [.node [100, 97, 116, 97, 47, 64, 97, 108, 108] [⟨0x1000, [83, 66], 0⟩] []]

def allFeatures : Features := ⟨true, true, true, true⟩

/-- With the pattern `SB` the selection is exact. -/
theorem selectionExact_small : SelectionExact allFeatures smallGroups [83, 66] := by
  refine (selectionExact_iff (by decide)).mpr ⟨fun t _ => fitsStack_of_length (by decide) _,
    fun _ h _ => fitsStack_of_length (by decide) _, ?_⟩
  rw [if_pos (by decide)]
  exact ⟨by decide, fun h => by cases h⟩

/-- The test is run for `data/@all` and not listed; for `*@all` it is run twice. -/
theorem not_selectionExact_small : ¬SelectionExact allFeatures smallGroups [100, 97, 116, 97, 47, 64, 97, 108, 108] ∧
    ¬SelectionExact allFeatures smallGroups [42, 64, 97, 108, 108] := by
  constructor
  · rintro ⟨ran, lines, hran, hshow, -, hlist⟩
    have hgroups := ((runs_iff (by decide)).mp hran).2
    have htests := showMatchesOnly_iff.mp ⟨lines, hshow, rfl⟩
    rw [if_neg (by decide)] at hgroups htests
    have hmem := (hlist ⟨0x1000, [83, 66], 0⟩).mpr (hgroups.2 ▸ by decide)
    rw [htests.2] at hmem
    exact absurd hmem (by decide)
  · rintro ⟨ran, lines, hran, -, hcount, -⟩
    have hgroups := ((runs_iff (by decide)).mp hran).2
    rw [if_neg (by decide)] at hgroups
    have htwice := hcount ⟨0x1000, [83, 66], 0⟩
    rw [hgroups.2] at htwice
    exact absurd htwice (by decide)

end LitmusHarness.Frontend
