import LitmusHarness.Frontend.ArgBounds

/-!
# Long options

What an entry should do with `--name`, `--no-name` and `--name=value` is `Consumes`. The first entry that accepts an
argument need not be the one of its name: an option and an enumeration accept every argument that starts with their name
(`splitAccepts`), a flag is negated whatever its `no_negation` is, and a flag is not found by a name that starts with
`no-`, nor with a value. The exact condition is `longExact_iff`. It uses neither that the names of the table are
different nor in which order they are.
-/

namespace LitmusHarness.Frontend

open Loop (errorsIn_error errorsIn_ok)

variable {σ ε : Type}

/-- An argument with two dashes. -/
def dashes (r : List Char) : List Char := '-' :: '-' :: r

/-- `name` or `name=value`. -/
def LongName.Names (n : LongName) (r : List Char) : Prop := r = n.name ∨ ∃ v, r = n.name ++ '=' :: v

/-- What a flag does, without (`true`) or with `no-`. -/
def flagTakes (arg : ArgdefFlag σ ε) (v : Bool) (st : σ) : Except (ArgStop ε) (Option σ) :=
  match arg.target, v with
  | .flag set, v => .ok (some (set v st))
  | .action act, true => runAction (act st)
  | .action _, false => .ok (some st)

/-- The failure of an option without its value. -/
def expectedArgument (n : LongName) : ArgStop ε :=
  .fail "argument mismatch: %s expected argument.  See Usage or --help=%s for more info.\n" [n.chars, n.chars]

/-- The failure of an option with a value that it does not take. -/
def expectedNoArgument (n : LongName) : ArgStop ε :=
  .fail "argument mismatch: %s expected no argument.  See Usage or --help=%s for more info.\n" [n.chars, n.chars]

/-- What an entry should do with an argument that has its name. -/
inductive Consumes (st : σ) : ArgdefArg σ ε → List Char → Except (ArgStop ε) (Option σ) → Prop
  | flag {arg n} (h : arg.longName = some n) : Consumes st (.flag arg) n.name (flagTakes arg true st)
  | negated {arg n} (h : arg.longName = some n) (hneg : arg.noNegation = false) :
    Consumes st (.flag arg) ("no-".toList ++ n.name) (flagTakes arg false st)
  | option {arg n} (h : arg.longName = some n) (harg : arg.arg ≠ .required) :
    Consumes st (.option arg) n.name (optionTakes arg [] st)
  | optionMissing {arg n} (h : arg.longName = some n) (harg : arg.arg = .required) :
    Consumes st (.option arg) n.name (.error (expectedArgument n))
  | optionValue {arg n} (h : arg.longName = some n) (harg : arg.arg ≠ .none) (v) :
    Consumes st (.option arg) (n.name ++ '=' :: v) (optionTakes arg v st)
  | optionUnexpected {arg n} (h : arg.longName = some n) (harg : arg.arg = .none) (v) :
    Consumes st (.option arg) (n.name ++ '=' :: v) (.error (expectedNoArgument n))
  | enumMissing {arg} : Consumes st (.enumeration arg) arg.longName.name (.error (expectedArgument arg.longName))
  | enumValue {arg} (v) : Consumes st (.enumeration arg) (arg.longName.name ++ '=' :: v) (enumTakes arg v st)

/-- The argument has the name of the entry. -/
def ArgdefArg.Named (r : List Char) : ArgdefArg σ ε → Prop
  | flag arg => ∃ n, arg.longName = some n ∧ (n.Names r ∨ r = "no-".toList ++ n.name ∧ arg.noNegation = false)
  | option arg => ∃ n, arg.longName = some n ∧ n.Names r
  | enumeration arg => arg.longName.Names r

/-- The entry is the first that takes the argument, with this result. -/
def ReadBy (args : List (ArgdefArg σ ε)) (argv : List Char) (st : σ) (arg : ArgdefArg σ ε)
    (res : Except (ArgStop ε) (Option σ)) : Prop :=
  (∃ l₁ l₂, args = l₁ ++ arg :: l₂ ∧ ∀ a ∈ l₁, argparseCheckArg argv a st = .ok none) ∧
    argparseCheckArg argv arg st = res ∧ res ≠ .ok none

/-- The argument `--r` is consumed by an entry of its name, or there is none and it is rejected. -/
def LongExact (args : List (ArgdefArg σ ε)) (r : List Char) (st : σ) : Prop :=
  (∃ arg res, ReadBy args (dashes r) st arg res ∧ Consumes st arg r res) ∨
    (∀ arg ∈ args, ¬arg.Named r) ∧ argparseReadArg args (dashes r) st = .ok none

/-- The entry does with the argument what it should, if it comes to it. -/
def ArgdefArg.TakesExactly (r : List Char) : ArgdefArg σ ε → Prop
  | flag arg => ∃ n, arg.longName = some n ∧ (r = n.name ∨ r = "no-".toList ++ n.name ∧ arg.noNegation = false)
  | option arg => (∃ n, arg.longName = some n ∧ n.Names r) ∧ SplitFits (dashes r)
  | enumeration arg => arg.longName.Names r ∧ SplitFits (dashes r)

/-- The first entry that accepts the argument takes it exactly, or none accepts it and none has its name. -/
def FirstExact (args : List (ArgdefArg σ ε)) (r : List Char) : Prop :=
  match args.find? (ArgdefArg.accepts (dashes r)) with
  | some arg => arg.TakesExactly r
  | none => ∀ arg ∈ args, ¬arg.Named r

/-! ## Reading by an entry -/

section ReadBy

variable {args : List (ArgdefArg σ ε)} {argv : List Char} {st : σ} {arg : ArgdefArg σ ε}
  {res : Except (ArgStop ε) (Option σ)}

theorem readBy_iff : ReadBy args argv st arg res ↔
    args.find? (ArgdefArg.accepts argv) = some arg ∧ argparseCheckArg argv arg st = res := by
  rw [List.find?_eq_some_iff_append]
  constructor
  · rintro ⟨⟨l₁, l₂, heq, hl₁⟩, hcheck, hne⟩
    have haccepts : arg.accepts argv = true := by
      refine Bool.of_not_eq_false fun h => hne ?_
      rw [← hcheck, argparseCheckArg_none_iff.mpr h]
    refine ⟨⟨haccepts, l₁, l₂, heq, fun a ha => ?_⟩, hcheck⟩
    rw [argparseCheckArg_none_iff.mp (hl₁ a ha)]
    rfl
  · rintro ⟨⟨haccepts, l₁, l₂, heq, hl₁⟩, hcheck⟩
    refine ⟨⟨l₁, l₂, heq, fun a ha => argparseCheckArg_none_iff.mpr ?_⟩, hcheck, fun hnone => ?_⟩
    · exact Bool.not_eq_true' _ ▸ hl₁ a ha
    · have := argparseCheckArg_none_iff.mp (hcheck.trans hnone)
      rw [haccepts] at this
      cases this

theorem argparseReadArg_none_iff :
    argparseReadArg args argv st = .ok none ↔ args.find? (ArgdefArg.accepts argv) = none := by
  rw [argparseReadArg_eq]
  cases hfind : args.find? (ArgdefArg.accepts argv) with
  | none => exact ⟨fun _ => rfl, fun _ => rfl⟩
  | some arg =>
    refine ⟨fun h => ?_, fun h => by cases h⟩
    have := argparseCheckArg_none_iff.mp h
    rw [List.find?_some hfind] at this
    cases this

end ReadBy

/-! ## Flags -/

section Flags

variable {shortName : Option ShortName} {longName : Option LongName}

theorem any_shortName_dash (shortName : Option ShortName) (s : List Char) :
    (shortName.any fun n => '-' :: s = [n.letter]) = false := by
  cases shortName with
  | none => rfl
  | some n => exact decide_eq_false fun h => n.letter_ne_dash (List.cons.inj h).1.symm

theorem checkName_no (m : List Char) :
    argparseCheckNameExact (dashes ("no-".toList ++ m)) shortName longName =
      if longName.any fun n => m = n.name then .flipped else .no := by
  have hprefix : "-no-".toList.isPrefixOf ((dashes ("no-".toList ++ m)).drop 1) = true :=
    List.isPrefixOf_iff_prefix.mpr ⟨m, rfl⟩
  have hdrop : (dashes ("no-".toList ++ m)).drop 4 = '-' :: m := rfl
  simp only [argparseCheckNameExact, hprefix, hdrop, if_true, any_shortName_dash, Bool.false_eq_true, if_false,
    List.head?_cons, List.tail_cons, true_and]

theorem checkName_of_not_isPrefix {r : List Char} (h : ¬"no-".toList <+: r) :
    argparseCheckNameExact (dashes r) shortName longName =
      if longName.any fun n => r = n.name then .yes else .no := by
  have hdrop : (dashes r).drop 1 = '-' :: r := rfl
  have hprefix : "-no-".toList.isPrefixOf ('-' :: r) = false := by
    refine eq_false_of_ne_true fun hp => h ?_
    exact (List.cons_prefix_cons.mp (List.isPrefixOf_iff_prefix.mp hp)).2
  simp only [argparseCheckNameExact, hdrop, hprefix, any_shortName_dash, Bool.false_eq_true, if_false,
    List.head?_cons, List.tail_cons, true_and]

end Flags

theorem any_longName {longName : Option LongName} {n : LongName} (h : longName = some n) :
    (longName.any fun n' => n.name = n'.name) = true := by
  rw [h]
  exact decide_eq_true rfl

/-- A flag that accepts its name, or its name with `no-`, does what it should. -/
theorem flag_consumes {arg : ArgdefFlag σ ε} {n : LongName} {r : List Char} (st : σ) (hn : arg.longName = some n)
    (hr : r = n.name ∨ r = "no-".toList ++ n.name ∧ arg.noNegation = false)
    (haccepts : (ArgdefArg.flag arg).accepts (dashes r) = true) :
    Consumes st (.flag arg) r (argparseCheckArg (dashes r) (.flag arg) st) := by
  rcases hr with rfl | ⟨rfl, hneg⟩
  · by_cases hno : "no-".toList <+: n.name
    · -- a name that starts with `no-` is taken for the negation of another one
      obtain ⟨m, hm⟩ := hno
      have hne : ¬(arg.longName.any fun n => m = n.name) = true := by
        rw [hn, Option.any_some, decide_eq_true_eq]
        intro h
        have hlen := congrArg List.length (h.trans hm.symm)
        simp at hlen
        omega
      rw [ArgdefArg.accepts, ← hm, checkName_no, if_neg hne] at haccepts
      exact absurd haccepts (by decide)
    · have hcheck : argparseCheckArg (dashes n.name) (.flag arg) st = flagTakes arg true st := by
        rw [argparseCheckArg]
        unfold argparseCheckFlagArg flagTakes
        rw [checkName_of_not_isPrefix hno, if_pos (any_longName hn)]
        cases arg.target with
        | flag set => rfl
        | action act => rfl
      rw [hcheck]
      exact .flag hn
  · have hcheck : argparseCheckArg (dashes ("no-".toList ++ n.name)) (.flag arg) st = flagTakes arg false st := by
      rw [argparseCheckArg]
      unfold argparseCheckFlagArg flagTakes
      rw [checkName_no, if_pos (any_longName hn)]
      cases arg.target with
      | flag set => rfl
      | action act => rfl
    rw [hcheck]
    exact .negated hn hneg

/-! ## Options and enumerations -/

theorem LongName.eq_not_mem_chars (n : LongName) : '=' ∉ n.chars := by
  intro h
  rcases List.mem_cons.mp h with h | h
  · cases h
  · rcases List.mem_cons.mp h with h | h
    · cases h
    · exact n.eq_not_mem h

section Split

variable {n : LongName} {v : List Char} {shortName : Option ShortName} {optArg : OptArg}

theorem argdefTrySplit_name (hfits : SplitFits (dashes n.name)) :
    argdefTrySplit (ε := ε) (dashes n.name) shortName (some n) optArg =
      if optArg = .required then .error (expectedArgument n) else .ok (some (n.chars, [])) := by
  have hpos : ∀ c ∈ n.chars, decide (c ≠ '=') = true := fun c hc =>
    decide_eq_true fun he => n.eq_not_mem_chars (he ▸ hc)
  have hlen : n.chars.length ≤ ArgBuf.lhs.size := by
    rw [SplitFits, if_pos (show ((dashes n.name).drop 1).head? = some '-' from rfl)] at hfits
    exact List.takeWhile_eq_self_iff.mpr hpos ▸ hfits.1
  have hprefix : n.name.isPrefixOf n.name = true := List.isPrefixOf_iff_prefix.mpr List.prefix_rfl
  have hpart : strpartition (ε := ε) '=' [] n.chars = .ok (false, n.chars, []) := by
    rw [strpartition_of_not_mem n.eq_not_mem_chars, foldlM_push_ok (by rwa [List.length_nil, Nat.zero_add])]
    rfl
  have hdrop : (dashes n.name).drop 1 = '-' :: n.name := rfl
  have hchars : dashes n.name = n.chars := rfl
  simp only [argdefTrySplit, hdrop, if_true, Option.any_some, hprefix]
  rw [hchars, hpart]
  cases optArg with
  | optional => rfl
  | required => rfl
  | none => rfl

theorem argdefTrySplit_value (hfits : SplitFits (dashes (n.name ++ '=' :: v))) :
    argdefTrySplit (ε := ε) (dashes (n.name ++ '=' :: v)) shortName (some n) optArg =
      if optArg = .none then .error (expectedNoArgument n) else .ok (some (n.chars, v)) := by
  have hpos : ∀ c ∈ n.chars, decide (c ≠ '=') = true := fun c hc =>
    decide_eq_true fun he => n.eq_not_mem_chars (he ▸ hc)
  have hchars : dashes (n.name ++ '=' :: v) = n.chars ++ '=' :: v := rfl
  rw [SplitFits, if_pos (show ((dashes (n.name ++ '=' :: v)).drop 1).head? = some '-' from rfl), hchars,
    takeWhile_append_cons hpos (by simp), List.dropWhile_append_of_pos hpos,
    List.dropWhile_cons_of_neg (by simp), List.tail_cons] at hfits
  have hprefix : n.name.isPrefixOf (n.name ++ '=' :: v) = true :=
    List.isPrefixOf_iff_prefix.mpr (List.prefix_append _ _)
  have hpart : strpartition (ε := ε) '=' [] (n.chars ++ '=' :: v) = .ok (true, n.chars, v) := by
    rw [strpartition_append n.eq_not_mem_chars, foldlM_push_ok (by simpa using hfits.1), copyStr_ok hfits.2]
    rfl
  have hdrop : (dashes (n.name ++ '=' :: v)).drop 1 = '-' :: (n.name ++ '=' :: v) := rfl
  simp only [argdefTrySplit, hdrop, if_true, Option.any_some, hprefix]
  rw [hchars, hpart]
  cases optArg with
  | optional => rfl
  | required => rfl
  | none => rfl

end Split

theorem option_consumes {arg : ArgdefOption σ ε} {n : LongName} {r : List Char} (st : σ) (hn : arg.longName = some n)
    (hr : n.Names r) (hfits : SplitFits (dashes r)) :
    Consumes st (.option arg) r (argparseCheckArg (dashes r) (.option arg) st) := by
  rw [argparseCheckArg, argparseCheckOptionArg, hn]
  rcases hr with rfl | ⟨v, rfl⟩
  · rw [argdefTrySplit_name hfits]
    by_cases harg : arg.arg = .required
    · rw [if_pos harg]
      exact .optionMissing hn harg
    · rw [if_neg harg]
      exact .option hn harg
  · rw [argdefTrySplit_value hfits]
    by_cases harg : arg.arg = .none
    · rw [if_pos harg]
      exact .optionUnexpected hn harg v
    · rw [if_neg harg]
      exact .optionValue hn harg v

theorem enum_consumes {arg : ArgdefEnum σ} {r : List Char} (st : σ) (hr : arg.longName.Names r)
    (hfits : SplitFits (dashes r)) :
    Consumes (ε := ε) st (.enumeration arg) r (argparseCheckArg (dashes r) (.enumeration arg) st) := by
  rw [argparseCheckArg, argparseCheckEnumArg]
  rcases hr with rfl | ⟨v, rfl⟩
  · rw [argdefTrySplit_name hfits]
    exact .enumMissing
  · rw [argdefTrySplit_value hfits]
    exact .enumValue v

/-! ## The first entry -/

section First

variable {arg : ArgdefArg σ ε} {args : List (ArgdefArg σ ε)} {r : List Char} {st : σ}
  {res : Except (ArgStop ε) (Option σ)}

theorem ArgdefArg.TakesExactly.consumes (h : arg.TakesExactly r) (haccepts : arg.accepts (dashes r) = true) (st : σ) :
    Consumes st arg r (argparseCheckArg (dashes r) arg st) := by
  cases arg with
  | flag arg =>
    obtain ⟨n, hn, hr⟩ := h
    exact flag_consumes st hn hr haccepts
  | option arg =>
    obtain ⟨⟨n, hn, hr⟩, hfits⟩ := h
    exact option_consumes st hn hr hfits
  | enumeration arg => exact enum_consumes st h.1 h.2

/-- What an entry should do does not leave the arrays. -/
theorem Consumes.inBounds (h : Consumes st arg r res) : InBounds res := by
  have htakes : ∀ (arg : ArgdefFlag σ ε) (v : Bool), InBounds (flagTakes arg v st) := by
    intro arg v
    unfold flagTakes
    split
    · exact errorsIn_ok
    · exact inBounds_runAction _
    · exact errorsIn_ok
  cases h with
  | flag h => exact htakes _ true
  | negated h hneg => exact htakes _ false
  | option h harg => exact inBounds_optionTakes _ _ _
  | optionMissing h harg => exact errorsIn_error.mpr trivial
  | optionValue h harg v => exact inBounds_optionTakes _ _ _
  | optionUnexpected h harg v => exact errorsIn_error.mpr trivial
  | enumMissing => exact errorsIn_error.mpr trivial
  | enumValue v => exact inBounds_enumTakes _ _ _

theorem Consumes.takesExactly (h : Consumes st arg r (argparseCheckArg (dashes r) arg st))
    (haccepts : arg.accepts (dashes r) = true) : arg.TakesExactly r := by
  have hfits := (inBounds_argparseCheckArg st haccepts).mp h.inBounds
  generalize argparseCheckArg (dashes r) arg st = res at h
  cases h with
  | flag h => exact ⟨_, h, .inl rfl⟩
  | negated h hneg => exact ⟨_, h, .inr ⟨rfl, hneg⟩⟩
  | option h harg => exact ⟨⟨_, h, .inl rfl⟩, hfits rfl⟩
  | optionMissing h harg => exact ⟨⟨_, h, .inl rfl⟩, hfits rfl⟩
  | optionValue h harg v => exact ⟨⟨_, h, .inr ⟨v, rfl⟩⟩, hfits rfl⟩
  | optionUnexpected h harg v => exact ⟨⟨_, h, .inr ⟨v, rfl⟩⟩, hfits rfl⟩
  | enumMissing => exact ⟨.inl rfl, hfits rfl⟩
  | enumValue v => exact ⟨.inr ⟨v, rfl⟩, hfits rfl⟩

theorem LongExact.firstExact (h : LongExact args r st) : FirstExact args r := by
  rw [FirstExact]
  rcases h with ⟨arg, res, hread, hconsumes⟩ | ⟨hnamed, hnone⟩
  · obtain ⟨hfind, rfl⟩ := readBy_iff.mp hread
    rw [hfind]
    exact hconsumes.takesExactly (List.find?_some hfind)
  · rw [argparseReadArg_none_iff.mp hnone]
    exact hnamed

theorem FirstExact.longExact (h : FirstExact args r) (st : σ) : LongExact args r st := by
  rw [FirstExact] at h
  cases hfind : args.find? (ArgdefArg.accepts (dashes r)) with
  | some arg =>
    rw [hfind] at h
    exact .inl ⟨arg, _, readBy_iff.mpr ⟨hfind, rfl⟩, h.consumes (List.find?_some hfind) st⟩
  | none =>
    rw [hfind] at h
    exact .inr ⟨h, argparseReadArg_none_iff.mpr hfind⟩

end First

/-- **A long option is read by the entry of its name exactly if the first entry that accepts it takes it exactly.** -/
theorem longExact_iff (args : List (ArgdefArg σ ε)) (r : List Char) (st : σ) :
    LongExact args r st ↔ FirstExact args r :=
  ⟨LongExact.firstExact, fun h => h.longExact st⟩

/-- `--affinity=none` is read as `--aff=none`, though no entry has this name. -/
theorem affinity_not_longExact :
    (litmusArgs.filterMap ArgdefArg.longName).Nodup ∧ ¬LongExact litmusArgs "affinity=none".toList {} := by
  have hnodup := litmusArgs_nodup
  rw [List.filterMap_append] at hnodup
  refine ⟨(List.nodup_append.mp hnodup).1, fun h => ?_⟩
  have hfirst := h.firstExact
  have hfind : litmusArgs.find? (ArgdefArg.accepts (dashes "affinity=none".toList)) =
      some (enumerate "aff" [("none", .none), ("rand", .rand)] fun v cfg => { cfg with litmusAffType := v }) := rfl
  rw [FirstExact, hfind] at hfirst
  rcases hfirst.1 with h | ⟨v, h⟩
  · exact absurd h (by decide)
  · exact absurd (congrArg (fun s => s[3]?) h) (by simp)

end LitmusHarness.Frontend
