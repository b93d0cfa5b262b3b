import LitmusHarness.Concretization.Accepted

/-!
# Entries that name no variable

The search for a name that no variable has gives the number of variables, and no reader compares it: they read past the
infos there, unless they have already failed (`readInitState_outOfBounds_iff`). So the names that are not declared are
rejected if and only if each entry with such a name that is reached fails before it looks that name up
(`readVarInfos_undeclared_iff`).
-/

namespace LitmusHarness

/-! ## Names -/

/-- The names of the variables, `heap_var_names`. -/
def declared (infos : List VarInfo) : List String := infos.map (·.name)

/-- Some variable that the entry names does not exist. -/
def InitVarstate.Undeclared (names : List String) (e : InitVarstate) : Prop := ∃ x ∈ e.names, x ∉ names

/-- The entry fails before it looks at a variable that may not exist: it is not supported at all, or its subject exists
and may not be aliased, pinned or offset. -/
def InitVarstate.SubjectFails (infos : List VarInfo) : InitVarstate → Prop
  | .pte _ _ => True
  | .alias x _ => ∃ v, (infos.find? fun v => v.name = x) = some v ∧ v.ty ≠ .notSet
  | .regionPin x _ _ => ∃ v, (infos.find? fun v => v.name = x) = some v ∧ ∀ back own, v.ty ≠ .heap back own
  | .regionOffset x _ _ => ∃ v, (infos.find? fun v => v.name = x) = some v ∧ v.ty = .notSet
  | _ => False

/-- **Each entry that is reached** fails so if it names a variable that does not exist. -/
def Guarded (st : InitSystemState × List VarInfo) : List InitVarstate → Prop
  | [] => True
  | e :: es => (e.Undeclared (declared st.2) → e.SubjectFails st.2) ∧
      ∀ st', readInitState st e = .ok st' → Guarded st' es

section Read

variable {infos infos' : List VarInfo} {st st' : InitSystemState × List VarInfo} {e : InitVarstate} {α : Type}

/-! ## Reads past the infos -/

theorem getElem?_idxFromVarnameInfos (infos : List VarInfo) (x : String) :
    infos[idxFromVarnameInfos infos x]? = infos.find? fun v => v.name = x := by
  unfold idxFromVarnameInfos
  induction infos with
  | nil => rfl
  | cons v infos ih =>
    rw [List.findIdx_cons, List.find?_cons]
    by_cases hv : v.name = x <;> simp [hv, ih]

theorem not_mem_declared {x : String} : x ∉ declared infos ↔ (infos.find? fun v => v.name = x) = none := by
  rw [List.find?_eq_none]
  simp [declared]

theorem infoAt_bind_outOfBounds {idx : Nat} {f : VarInfo → Except ReadError α} :
    (infoAt infos idx >>= f) = .error .outOfBounds ↔
      infos[idx]? = none ∨ ∃ v, infos[idx]? = some v ∧ f v = .error .outOfBounds := by
  unfold infoAt
  cases infos[idx]? with
  | none => exact ⟨fun _ => .inl rfl, fun _ => rfl⟩
  | some v =>
    refine ⟨fun h => .inr ⟨v, rfl, h⟩, fun h => ?_⟩
    obtain ⟨w, hw, h⟩ := h.resolve_left fun h => by cases h
    cases hw
    exact h

theorem failOn_bind_outOfBounds {c : Bool} {msg : String} {f : Unit → Except ReadError α} :
    (failOn c msg >>= f) = .error .outOfBounds ↔ c = false ∧ f () = .error .outOfBounds := by
  cases c
  · exact ⟨fun h => ⟨rfl, h⟩, fun h => h.2⟩
  · exact ⟨fun h => (by cases h), fun h => (by cases h.1)⟩

theorem pure_outOfBounds {a : α} : ¬(pure a : Except ReadError α) = .error .outOfBounds := fun h => by cases h

theorem map_outOfBounds {r : Except ReadError (List VarInfo)} {sys : InitSystemState} :
    r.map (fun infos => (sys, infos)) = .error .outOfBounds ↔ r = .error .outOfBounds := by
  cases r with
  | error err => exact ⟨fun h => by cases h; rfl, fun h => by cases h; rfl⟩
  | ok infos => exact ⟨fun h => (by cases h), fun h => (by cases h)⟩

/-- An entry that names one variable. -/
theorem lookup_outOfBounds {x : String} {f : VarInfo → Except ReadError α} (hf : ∀ v, f v ≠ .error .outOfBounds) :
    (infoAt infos (idxFromVarnameInfos infos x) >>= f) = .error .outOfBounds ↔
      (∃ y ∈ [x], y ∉ declared infos) ∧ ¬False := by
  rw [infoAt_bind_outOfBounds, getElem?_idxFromVarnameInfos, ← not_mem_declared]
  simp only [List.mem_singleton, exists_eq_left, not_false_eq_true, and_true]
  exact ⟨fun h => h.resolve_right fun ⟨v, _, h⟩ => hf v h, .inl⟩

/-- An entry that names a second variable, which it looks at if the first passes a check. -/
theorem lookup_second_outOfBounds {x y : String} {f : VarInfo → Except ReadError α} {Fails : VarInfo → Prop}
    (hf : ∀ v, f v = .error .outOfBounds ↔ ¬Fails v ∧ y ∉ declared infos) :
    (infoAt infos (idxFromVarnameInfos infos x) >>= f) = .error .outOfBounds ↔
      (∃ z ∈ [x, y], z ∉ declared infos) ∧ ¬∃ v, (infos.find? fun v => v.name = x) = some v ∧ Fails v := by
  rw [infoAt_bind_outOfBounds, getElem?_idxFromVarnameInfos]
  simp only [List.mem_cons, List.not_mem_nil, or_false, exists_eq_or_imp, exists_eq_left, hf]
  rw [@not_mem_declared infos x]
  cases infos.find? fun v => v.name = x with
  | none => simp
  | some v => simp [and_comm]

theorem infoAt_second_outOfBounds {y : String} {f : VarInfo → Except ReadError α} (hf : ∀ v, f v ≠ .error .outOfBounds) :
    (infoAt infos (idxFromVarnameInfos infos y) >>= f) = .error .outOfBounds ↔ y ∉ declared infos := by
  rw [lookup_outOfBounds hf]
  simp

/-- **When an entry reads past the infos.** -/
theorem readInitState_outOfBounds_iff :
    readInitState st e = .error .outOfBounds ↔ e.Undeclared (declared st.2) ∧ ¬e.SubjectFails st.2 := by
  cases e with
  | heap x val =>
    exact map_outOfBounds.trans (lookup_outOfBounds fun v h => pure_outOfBounds (failOn_bind_outOfBounds.mp h).2)
  | pte x desc => exact ⟨fun h => (by cases h), fun h => absurd trivial h.2⟩
  | fix x pa =>
    exact map_outOfBounds.trans (lookup_outOfBounds fun v h => pure_outOfBounds (failOn_bind_outOfBounds.mp h).2)
  | unmapped x =>
    exact map_outOfBounds.trans (lookup_outOfBounds fun v h => pure_outOfBounds (failOn_bind_outOfBounds.mp h).2)
  | identityMap x =>
    refine map_outOfBounds.trans (lookup_outOfBounds fun v h => ?_)
    split at h <;> cases h
  | «alias» x a =>
    refine map_outOfBounds.trans (lookup_second_outOfBounds fun v => ?_)
    rw [failOn_bind_outOfBounds, infoAt_second_outOfBounds]
    · simp
    · exact fun w h => pure_outOfBounds (failOn_bind_outOfBounds.mp h).2
  | attrs x prot attr =>
    refine map_outOfBounds.trans (lookup_outOfBounds fun v h => ?_)
    cases prot <;> cases h
  | mair val => exact ⟨fun h => (by cases h), fun ⟨⟨x, hx, _⟩, _⟩ => absurd hx List.not_mem_nil⟩
  | regionPin x r lvl =>
    refine map_outOfBounds.trans (lookup_second_outOfBounds fun v => ?_)
    rw [failOn_bind_outOfBounds]
    cases v.ty with
    | heap back own =>
      dsimp only
      rw [infoAt_second_outOfBounds]
      · simp
      · intro w h
        split at h <;> cases h
    | _ => simp
  | regionOwn x own =>
    refine map_outOfBounds.trans (lookup_outOfBounds fun v h => ?_)
    have h := (failOn_bind_outOfBounds.mp h).2
    split at h <;> cases h
  | regionOffset x o lvl =>
    refine map_outOfBounds.trans (lookup_second_outOfBounds fun v => ?_)
    rw [failOn_bind_outOfBounds, infoAt_second_outOfBounds]
    · simp
    · exact fun w h => pure_outOfBounds (failOn_bind_outOfBounds.mp h).2

/-! ## Entries that are read -/

theorem mem_declared {x : String} {v : VarInfo} (hv : infos[idxFromVarnameInfos infos x]? = some v) :
    x ∈ declared infos := by
  by_contra hno
  rw [getElem?_idxFromVarnameInfos, not_mem_declared.mp hno] at hv
  cases hv

/-- **An entry that is read changes no name**, and the variables that it names exist. -/
theorem readInitState_declared (h : readInitState st e = .ok st') :
    declared st'.2 = declared st.2 ∧ ∀ x ∈ e.names, x ∈ declared st.2 := by
  rcases readInitState_sets h with ⟨hnone, heq⟩ | ⟨-, hnames, hfound⟩
  · rw [hnone, heq]
    exact ⟨rfl, List.forall_mem_nil _⟩
  · refine ⟨hnames, fun x hx => ?_⟩
    obtain ⟨v, hv⟩ := hfound x hx
    exact mem_declared hv

/-! ## All entries -/

/-- Guarded entries do not read past the infos, and fail if one of them names a variable that does not exist. -/
theorem Guarded.foldlM_fail {es : List InitVarstate} {st : InitSystemState × List VarInfo} (hg : Guarded st es)
    (h : ∃ e ∈ es, e.Undeclared (declared st.2)) : ∃ msg, es.foldlM readInitState st = .error (.fail msg) := by
  induction es generalizing st with
  | nil =>
    obtain ⟨e, he, -⟩ := h
    exact absurd he List.not_mem_nil
  | cons e es ih =>
    obtain ⟨e', he', hund⟩ := h
    rw [List.foldlM_cons]
    cases hread : readInitState st e with
    | error err =>
      cases err with
      | fail msg => exact ⟨msg, rfl⟩
      | outOfBounds =>
        obtain ⟨hund, hno⟩ := readInitState_outOfBounds_iff.mp hread
        exact absurd (hg.1 hund) hno
    | ok st' =>
      obtain ⟨hnames, hdecl⟩ := readInitState_declared hread
      rcases List.mem_cons.mp he' with rfl | he'
      · obtain ⟨x, hx, hno⟩ := hund
        exact absurd (hdecl x hx) hno
      · exact ih (hg.2 st' hread) ⟨e', he', hnames ▸ hund⟩

/-- Entries that are not guarded read past the infos. -/
theorem foldlM_outOfBounds {es : List InitVarstate} {st : InitSystemState × List VarInfo} (hg : ¬Guarded st es) :
    (∃ e ∈ es, e.Undeclared (declared st.2)) ∧ es.foldlM readInitState st = .error .outOfBounds := by
  induction es generalizing st with
  | nil => exact absurd trivial hg
  | cons e es ih =>
    rw [List.foldlM_cons]
    by_cases hhead : e.Undeclared (declared st.2) → e.SubjectFails st.2
    · obtain ⟨st', hread, hg'⟩ : ∃ st', readInitState st e = .ok st' ∧ ¬Guarded st' es := by
        by_contra hno
        exact hg ⟨hhead, fun st' hread => by_contra fun hg' => hno ⟨st', hread, hg'⟩⟩
      obtain ⟨⟨e', he', hund⟩, hfold⟩ := ih hg'
      rw [hread]
      exact ⟨⟨e', List.mem_cons_of_mem _ he', (readInitState_declared hread).1 ▸ hund⟩, hfold⟩
    · rw [Classical.not_imp] at hhead
      rw [readInitState_outOfBounds_iff.mpr hhead]
      exact ⟨⟨e, List.mem_cons_self, hhead.1⟩, rfl⟩

theorem declared_reset (names : List String) : declared (names.mapIdx resetVarInfo) = names := by
  refine List.ext_getElem (by simp [declared]) fun i h1 h2 => ?_
  simp [declared, resetVarInfo]

/-- **When undeclared names are rejected**: each entry that is reached fails before it looks such a name up. -/
theorem readVarInfos_undeclared_iff (cfg : LitmusTest) (sysSt : InitSystemState) :
    ((∃ e ∈ cfg.initStates, e.Undeclared cfg.heapVarNames) → ∃ msg, readVarInfos cfg sysSt = .error (.fail msg)) ↔
      Guarded (sysSt, cfg.heapVarNames.mapIdx resetVarInfo) cfg.initStates := by
  have hnames := declared_reset cfg.heapVarNames
  generalize hst : (sysSt, cfg.heapVarNames.mapIdx resetVarInfo) = st
  have hst2 : declared st.2 = cfg.heapVarNames := hst ▸ hnames
  have hread : ∀ err, cfg.initStates.foldlM readInitState st = .error err → readVarInfos cfg sysSt = .error err := by
    intro err herr
    rw [← hst] at herr
    simp only [readVarInfos, herr]
    rfl
  constructor
  · intro hfail
    by_contra hg
    obtain ⟨hund, hfold⟩ := foldlM_outOfBounds hg
    obtain ⟨msg, hmsg⟩ := hfail (hst2 ▸ hund)
    rw [hread _ hfold] at hmsg
    cases hmsg
  · intro hg hund
    obtain ⟨msg, hfold⟩ := hg.foldlM_fail (hst2.symm ▸ hund)
    exact ⟨msg, hread _ hfold⟩

end Read

/-- A test with one variable whose initial state sets another. -/
def undeclaredTest : LitmusTest where
  name := "undeclared"
  heapVarNames := ["x"]
  initStates := [.heap "x" 0, .heap "y" 1]

/-- The record after that of the only variable is read. -/
theorem readVarInfos_undeclared : readVarInfos undeclaredTest {} = .error .outOfBounds ∧
    ¬((∃ e ∈ undeclaredTest.initStates, e.Undeclared undeclaredTest.heapVarNames) →
      ∃ msg, readVarInfos undeclaredTest {} = .error (.fail msg)) := by
  have hread : readVarInfos undeclaredTest {} = .error .outOfBounds := rfl
  refine ⟨hread, fun hfail => ?_⟩
  obtain ⟨msg, hmsg⟩ := hfail ⟨.heap "y" 1, by decide, "y", by decide, by decide⟩
  rw [hread] at hmsg
  cases hmsg

end LitmusHarness
