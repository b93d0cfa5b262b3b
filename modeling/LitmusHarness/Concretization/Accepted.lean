import LitmusHarness.Concretization.VarInfo
import LitmusHarness.Lib.Loop

/-!
# What `read_var_infos` accepts

The infos that `readVarInfos` returns satisfy `InfosOk` (`readVarInfos_ok`): every variable carries its own index, and
the variables that its offset, its pin or its alias name exist. The reader keeps this for the infos read so far
(`readInitState_ok`), since each entry of the initial state changes one variable.
-/

namespace LitmusHarness

/-! ## The invariant -/

/-- The variables that `v` names are among the first `n`. -/
structure RefsOk (n : Nat) (v : VarInfo) : Prop where
  offsetVar : ∀ o, v.initAttrs.regionOffset = some o → o.offsetVar < n
  pinVar : ∀ back r lvl, v.ty = .pinned back r lvl → r < n
  aliasVar : ∀ t, v.ty = .alias t → t < n

/-- Every variable has its index in `varidx` and names variables that exist. -/
structure InfosOk (infos : List VarInfo) : Prop where
  varidx : ∀ (i : Nat) (v : VarInfo), infos[i]? = some v → v.varidx = i
  refs : ∀ v ∈ infos, RefsOk infos.length v

/-- A variable that is not set names no other. -/
theorem refsOk_resetVarInfo (n i : Nat) (name : String) : RefsOk n (resetVarInfo i name) where
  offsetVar o h := by cases h
  pinVar _ _ _ h := by cases h
  aliasVar _ h := by cases h

theorem infosOk_reset (names : List String) : InfosOk (names.mapIdx resetVarInfo) where
  varidx i v h := by
    rw [List.getElem?_mapIdx] at h
    obtain ⟨name, -, rfl⟩ := Option.map_eq_some_iff.mp h
    rfl
  refs v hv := by
    obtain ⟨i, hi, rfl⟩ := List.mem_mapIdx.mp hv
    exact refsOk_resetVarInfo _ _ _

namespace InfosOk

variable {infos : List VarInfo} {v w : VarInfo}

/-- One variable is replaced. -/
theorem set (h : InfosOk infos) {idx : Nat} (hv : infos[idx]? = some v) (hidx : w.varidx = v.varidx)
    (hrefs : RefsOk infos.length w) : InfosOk (infos.set idx w) where
  varidx i x hx := by
    rw [List.getElem?_set] at hx
    split at hx
    · split at hx
      · cases hx
        rw [hidx, h.varidx idx v hv]
        assumption
      · cases hx
    · exact h.varidx i x hx
  refs x hx := by
    rw [List.length_set]
    rcases List.mem_or_eq_of_mem_set hx with hx | rfl
    · exact h.refs x hx
    · exact hrefs

/-- A variable is at its index. -/
theorem getElem?_varidx (h : InfosOk infos) (hv : v ∈ infos) : infos[v.varidx]? = some v := by
  obtain ⟨i, hi⟩ := List.getElem?_of_mem hv
  rw [h.varidx i v hi]
  exact hi

theorem varidx_lt (h : InfosOk infos) (hv : v ∈ infos) : v.varidx < infos.length :=
  (List.getElem?_eq_some_iff.mp (h.getElem?_varidx hv)).1

/-- Variables with the same index are the same. -/
theorem eq_of_varidx (h : InfosOk infos) (hv : v ∈ infos) (hw : w ∈ infos) (heq : v.varidx = w.varidx) : v = w := by
  have hv' := h.getElem?_varidx hv
  rw [heq, h.getElem?_varidx hw] at hv'
  exact (Option.some.inj hv').symm

/-- The variable at an index that another names. -/
theorem exists_at {i : Nat} (h : InfosOk infos) (hi : i < infos.length) : ∃ w ∈ infos, w.varidx = i :=
  ⟨infos[i], List.getElem_mem hi, h.varidx i _ (List.getElem?_eq_getElem hi)⟩

end InfosOk

/-! ## The reader keeps it -/

section Read

variable {infos infos' : List VarInfo} {α : Type}

@[simp] theorem infoAt_bind_ok {idx : Nat} {f : VarInfo → Except ReadError α} {r : α} :
    (infoAt infos idx >>= f) = .ok r ↔ ∃ v, infos[idx]? = some v ∧ f v = .ok r := by
  unfold infoAt
  cases infos[idx]? with
  | none => exact ⟨fun h => (by cases h), fun ⟨_, h, _⟩ => (by cases h)⟩
  | some v => exact ⟨fun h => ⟨v, rfl, h⟩, fun ⟨_, hv, h⟩ => (Option.some.inj hv) ▸ h⟩

@[simp] theorem failOn_bind_ok {c : Bool} {msg : String} {f : Unit → Except ReadError α} {r : α} :
    (failOn c msg >>= f) = .ok r ↔ c = false ∧ f () = .ok r := by
  cases c
  · exact ⟨fun h => ⟨rfl, h⟩, fun h => h.2⟩
  · exact ⟨fun h => (by cases h), fun h => (by cases h.1)⟩

@[simp] theorem pure_ok {a r : α} : (pure a : Except ReadError α) = .ok r ↔ a = r :=
  ⟨fun h => Except.ok.inj h, fun h => h ▸ rfl⟩

/-- The variables that an entry names. -/
def InitVarstate.names : InitVarstate → List String
  | .heap x _ | .pte x _ | .fix x _ | .unmapped x | .identityMap x | .attrs x _ _ | .regionOwn x _ => [x]
  | .alias x y | .regionPin x y _ | .regionOffset x y _ => [x, y]
  | .mair _ => []

/-- What one entry does to the infos: it replaces one variable by one of the same index with sound references. -/
def SetsOne (infos infos' : List VarInfo) : Prop :=
  ∃ idx v w, infos[idx]? = some v ∧ infos' = infos.set idx w ∧ w.varidx = v.varidx ∧
    (RefsOk infos.length v → RefsOk infos.length w)

theorem SetsOne.ok (h : SetsOne infos infos') (hok : InfosOk infos) : InfosOk infos' := by
  obtain ⟨idx, v, w, hv, rfl, hidx, hrefs⟩ := h
  exact hok.set hv hidx (hrefs (hok.refs v (List.mem_of_getElem? hv)))

theorem lt_of_getElem?_eq_some {i : Nat} {v : VarInfo} (h : infos[i]? = some v) : i < infos.length :=
  (List.getElem?_eq_some_iff.mp h).1

/-- The new type of a variable names no other. -/
theorem RefsOk.of_offset {n : Nat} {v w : VarInfo} (h : RefsOk n v)
    (hoff : w.initAttrs.regionOffset = v.initAttrs.regionOffset) (hpin : ∀ back r lvl, w.ty ≠ .pinned back r lvl)
    (halias : ∀ t, w.ty ≠ .alias t) : RefsOk n w where
  offsetVar o ho := h.offsetVar o (hoff ▸ ho)
  pinVar back r lvl hty := absurd hty (hpin back r lvl)
  aliasVar t hty := absurd hty (halias t)

/-- All that one entry does: it looks variables up by their names, and replaces one of them, which keeps its name. -/
def SetsVar (infos infos' : List VarInfo) (names : List String) : Prop :=
  SetsOne infos infos' ∧ infos'.map (·.name) = infos.map (·.name) ∧
    ∀ x ∈ names, ∃ v, infos[idxFromVarnameInfos infos x]? = some v

theorem map_name_set {idx : Nat} {v w : VarInfo} (hv : infos[idx]? = some v) (hname : w.name = v.name) :
    (infos.set idx w).map (·.name) = infos.map (·.name) := by
  obtain ⟨hlt, rfl⟩ := List.getElem?_eq_some_iff.mp hv
  rw [List.map_set, hname]
  exact List.ext_getElem (by simp) fun i h1 h2 => by
    rw [List.getElem_set]
    split
    · next h => simp [← h]
    · rfl

/-- An entry for one variable. -/
theorem SetsVar.one {x : String} {v w : VarInfo} (hv : infos[idxFromVarnameInfos infos x]? = some v)
    (hidx : w.varidx = v.varidx) (hname : w.name = v.name) (hrefs : RefsOk infos.length v → RefsOk infos.length w) :
    SetsVar infos (infos.set (idxFromVarnameInfos infos x) w) [x] :=
  ⟨⟨_, v, w, hv, rfl, hidx, hrefs⟩, map_name_set hv hname, List.forall_mem_singleton.mpr ⟨v, hv⟩⟩

/-- An entry that names a second variable. -/
theorem SetsVar.two {x y : String} {u : VarInfo} (h : SetsVar infos infos' [x])
    (hu : infos[idxFromVarnameInfos infos y]? = some u) : SetsVar infos infos' [x, y] :=
  ⟨h.1, h.2.1, List.forall_mem_cons.mpr ⟨h.2.2 x List.mem_cons_self, List.forall_mem_singleton.mpr ⟨u, hu⟩⟩⟩

theorem readInitHeap_sets {x : String} {val : U64} (h : readInitHeap infos x val = .ok infos') :
    SetsVar infos infos' [x] := by
  simp only [readInitHeap, infoAt_bind_ok, failOn_bind_ok, pure_ok] at h
  obtain ⟨v, hv, -, rfl⟩ := h
  exact .one hv rfl rfl fun hr => hr.of_offset rfl (fun _ _ _ h => by cases h) fun _ h => by cases h

theorem readInitFix_sets {x : String} {pa : U64} (h : readInitFix infos x pa = .ok infos') :
    SetsVar infos infos' [x] := by
  simp only [readInitFix, infoAt_bind_ok, failOn_bind_ok, pure_ok] at h
  obtain ⟨v, hv, -, rfl⟩ := h
  exact .one hv rfl rfl fun hr => hr.of_offset rfl (fun _ _ _ h => by cases h) fun _ h => by cases h

theorem readInitUnmapped_sets {x : String} (h : readInitUnmapped infos x = .ok infos') : SetsVar infos infos' [x] := by
  simp only [readInitUnmapped, infoAt_bind_ok, failOn_bind_ok, pure_ok] at h
  obtain ⟨v, hv, -, rfl⟩ := h
  exact .one hv rfl rfl fun hr => hr.of_offset rfl (fun _ _ _ h => by cases h) fun _ h => by cases h

theorem readInitIdmap_sets {x : String} (h : readInitIdmap infos x = .ok infos') : SetsVar infos infos' [x] := by
  simp only [readInitIdmap, infoAt_bind_ok] at h
  obtain ⟨v, hv, h⟩ := h
  split at h
  · cases h
    exact .one hv rfl rfl fun hr => hr.of_offset rfl (fun _ _ _ h => by cases h) fun _ h => by cases h
  · rename_i hty
    cases h
    refine .one hv rfl rfl fun hr => ⟨hr.offsetVar, fun _ r _ h => ?_, fun _ h => by cases h⟩
    cases h
    exact hr.pinVar _ _ _ hty
  · cases h

theorem readInitAlias_sets {x a : String} (h : readInitAlias infos x a = .ok infos') : SetsVar infos infos' [x, a] := by
  simp only [readInitAlias, infoAt_bind_ok, failOn_bind_ok, pure_ok] at h
  obtain ⟨v, hv, -, t, ht, -, rfl⟩ := h
  refine .two (.one hv rfl rfl fun hr => ⟨hr.offsetVar, fun _ _ _ h => (by cases h), fun _ h => ?_⟩) ht
  cases h
  exact lt_of_getElem?_eq_some ht

theorem readInitAp_sets {x : String} {prot : ProtType} {attr : U64}
    (h : readInitAp infos x prot attr = .ok infos') : SetsVar infos infos' [x] := by
  simp only [readInitAp, infoAt_bind_ok] at h
  obtain ⟨v, hv, h⟩ := h
  cases prot <;> cases h <;> exact .one hv rfl rfl fun hr => ⟨hr.offsetVar, hr.pinVar, hr.aliasVar⟩

theorem readInitRegionPin_sets {x r : String} {lvl : PinLevel} (h : readInitRegionPin infos x r lvl = .ok infos') :
    SetsVar infos infos' [x, r] := by
  simp only [readInitRegionPin, infoAt_bind_ok, failOn_bind_ok] at h
  obtain ⟨v, hv, -, h⟩ := h
  split at h
  · simp only [infoAt_bind_ok] at h
    obtain ⟨w, hw, h⟩ := h
    split at h
    · cases h
      refine .two (.one hv rfl rfl fun hr => ⟨hr.offsetVar, fun _ _ _ h => ?_, fun _ h => by cases h⟩) hw
      cases h
      exact lt_of_getElem?_eq_some hw
    · cases h
  · cases h

theorem readInitRegionOwn_sets {x : String} {own : OwnLevel} (h : readInitRegionOwn infos x own = .ok infos') :
    SetsVar infos infos' [x] := by
  simp only [readInitRegionOwn, infoAt_bind_ok, failOn_bind_ok] at h
  obtain ⟨v, hv, -, h⟩ := h
  split at h
  · cases h
    exact .one hv rfl rfl fun hr => hr.of_offset rfl (fun _ _ _ h => by cases h) fun _ h => by cases h
  · cases h

theorem readInitRegionOffs_sets {x o : String} {lvl : RelOffset}
    (h : readInitRegionOffs infos x o lvl = .ok infos') : SetsVar infos infos' [x, o] := by
  simp only [readInitRegionOffs, infoAt_bind_ok, failOn_bind_ok, pure_ok] at h
  obtain ⟨v, hv, -, w, hw, -, rfl⟩ := h
  refine .two (.one hv rfl rfl fun hr => ⟨fun _ h => ?_, hr.pinVar, hr.aliasVar⟩) hw
  cases h
  exact lt_of_getElem?_eq_some hw

theorem map_infos_ok {r : Except ReadError (List VarInfo)} {sys : InitSystemState} {st' : InitSystemState × List VarInfo}
    (h : r.map (fun infos => (sys, infos)) = .ok st') : r = .ok st'.2 := by
  cases r with
  | error err => cases h
  | ok infos =>
    cases h
    rfl

/-- **All that the reader does to the infos**, with the variables that the entry names. -/
theorem readInitState_sets {st st' : InitSystemState × List VarInfo} {var : InitVarstate}
    (h : readInitState st var = .ok st') : (var.names = [] ∧ st'.2 = st.2) ∨ SetsVar st.2 st'.2 var.names := by
  cases var with
  | heap x val => exact .inr (readInitHeap_sets (map_infos_ok h))
  | pte x desc => cases h
  | fix x pa => exact .inr (readInitFix_sets (map_infos_ok h))
  | unmapped x => exact .inr (readInitUnmapped_sets (map_infos_ok h))
  | identityMap x => exact .inr (readInitIdmap_sets (map_infos_ok h))
  | «alias» x a => exact .inr (readInitAlias_sets (map_infos_ok h))
  | attrs x prot attr => exact .inr (readInitAp_sets (map_infos_ok h))
  | mair val =>
    cases h
    exact .inl ⟨rfl, rfl⟩
  | regionPin x r lvl => exact .inr (readInitRegionPin_sets (map_infos_ok h))
  | regionOwn x own => exact .inr (readInitRegionOwn_sets (map_infos_ok h))
  | regionOffset x o lvl => exact .inr (readInitRegionOffs_sets (map_infos_ok h))

/-- One entry of the initial state. -/
theorem readInitState_ok {st st' : InitSystemState × List VarInfo} {var : InitVarstate} (hok : InfosOk st.2)
    (h : readInitState st var = .ok st') : InfosOk st'.2 := by
  rcases readInitState_sets h with ⟨-, heq⟩ | hset
  · rw [heq]
    exact hok
  · exact hset.1.ok hok

/-! ## The implicit offsets -/

/-- The offset from the first variable. -/
theorem offsetFromFirst_varidx (first v : VarInfo) : (offsetFromFirst first v).varidx = v.varidx := by
  unfold offsetFromFirst
  split
  · rfl
  · split
    · rfl
    · split
      · rfl
      · split <;> rfl

theorem offsetFromFirst_ty (first v : VarInfo) : (offsetFromFirst first v).ty = v.ty := by
  unfold offsetFromFirst
  split
  · rfl
  · split
    · rfl
    · split
      · rfl
      · split <;> rfl

theorem offsetFromFirst_offset {first v : VarInfo} {o : RegionOffset}
    (h : (offsetFromFirst first v).initAttrs.regionOffset = some o) :
    v.initAttrs.regionOffset = some o ∨ o.offsetVar = first.varidx := by
  unfold offsetFromFirst at h
  split at h
  · exact .inl h
  · split at h
    · exact .inl h
    · split at h
      · exact .inl h
      · split at h
        · exact .inl h
        · cases h
          exact .inr rfl

/-- The offset of an alias from its target. -/
theorem offsetAlias_ok {first v w : VarInfo} (h : offsetAlias first v = .ok w) :
    w = v ∨ ∃ t, v.ty = .alias t ∧
      w = { v with initAttrs := { v.initAttrs with regionOffset := some ⟨t, .page⟩ } } := by
  unfold offsetAlias at h
  split at h
  · cases h
    exact .inl rfl
  · split at h
    · rename_i t hty
      split at h
      · cases h
      · cases h
        exact .inr ⟨t, hty, rfl⟩
    · cases h
      exact .inl rfl

theorem infosOk_offsetFromFirst {first : VarInfo} (hok : InfosOk infos) (hfirst : first ∈ infos) :
    InfosOk (infos.map (offsetFromFirst first)) where
  varidx i v h := by
    rw [List.getElem?_map] at h
    obtain ⟨w, hw, rfl⟩ := Option.map_eq_some_iff.mp h
    rw [offsetFromFirst_varidx]
    exact hok.varidx i w hw
  refs v hv := by
    obtain ⟨w, hw, rfl⟩ := List.mem_map.mp hv
    rw [List.length_map]
    refine ⟨fun o ho => ?_, fun back r lvl hty => ?_, fun t hty => ?_⟩
    · rcases offsetFromFirst_offset ho with ho | ho
      · exact (hok.refs w hw).offsetVar o ho
      · rw [ho]
        exact hok.varidx_lt hfirst
    · exact (hok.refs w hw).pinVar back r lvl (offsetFromFirst_ty first w ▸ hty)
    · exact (hok.refs w hw).aliasVar t (offsetFromFirst_ty first w ▸ hty)

theorem infosOk_offsetAlias {first : VarInfo} (hok : InfosOk infos) (h : infos.mapM (offsetAlias first) = .ok infos') :
    InfosOk infos' := by
  obtain ⟨hlen, hget⟩ := Loop.mapM_getElem? h
  refine ⟨fun i w hw => ?_, fun w hw => ?_⟩
  · obtain ⟨v, hv, hvw⟩ := hget i w hw
    rcases offsetAlias_ok hvw with rfl | ⟨t, -, rfl⟩
    · exact hok.varidx i w hv
    · exact hok.varidx i v hv
  · obtain ⟨i, hi⟩ := List.getElem?_of_mem hw
    obtain ⟨v, hv, hvw⟩ := hget i w hi
    have hrefs := hok.refs v (List.mem_of_getElem? hv)
    rw [hlen]
    rcases offsetAlias_ok hvw with rfl | ⟨t, hty, rfl⟩
    · exact hrefs
    · refine ⟨fun o ho => ?_, hrefs.pinVar, hrefs.aliasVar⟩
      cases ho
      exact hrefs.aliasVar t hty

/-- What the reader has done: the entries, and then, unless there are no variables, the loops with the first one. -/
theorem readVarInfos_cases {cfg : LitmusTest} {sys sys' : InitSystemState}
    (h : readVarInfos cfg sys = .ok (sys', infos)) :
    ∃ st, cfg.initStates.foldlM readInitState (sys, cfg.heapVarNames.mapIdx resetVarInfo) = .ok st ∧
      (cfg.heapVarNames.length = 0 ∧ infos = st.2 ∨
        ∃ first, st.2.find? isFirst = some first ∧
          (st.2.map (offsetFromFirst first)).mapM (offsetAlias first) = .ok infos) := by
  simp only [readVarInfos] at h
  cases hread : cfg.initStates.foldlM readInitState (sys, cfg.heapVarNames.mapIdx resetVarInfo) with
  | error e => rw [hread] at h; cases h
  | ok st =>
    rw [hread] at h
    obtain ⟨sys₁, infos₁⟩ := st
    refine ⟨_, rfl, ?_⟩
    dsimp only [bind, Except.bind] at h
    split at h
    · split at h
      · cases h
        exact .inl ⟨‹_›, rfl⟩
      · cases h
    · rename_i first hfirst
      cases hmap : (infos₁.map (offsetFromFirst first)).mapM (offsetAlias first) with
      | error e => rw [hmap] at h; cases h
      | ok infos' =>
        rw [hmap] at h
        cases h
        exact .inr ⟨first, hfirst, hmap⟩

/-- **What the reader returns satisfies the invariant.** -/
theorem readVarInfos_ok {cfg : LitmusTest} {sys sys' : InitSystemState} (h : readVarInfos cfg sys = .ok (sys', infos)) :
    InfosOk infos := by
  obtain ⟨st, hread, hcases⟩ := readVarInfos_cases h
  have hok : InfosOk st.2 :=
    @Loop.foldlM_inv _ _ (fun st => InfosOk st.2) _ _ _ _ _ (fun _ _ _ _ => readInitState_ok) (infosOk_reset _) hread
  rcases hcases with ⟨-, rfl⟩ | ⟨first, hfirst, hmap⟩
  · exact hok
  · exact infosOk_offsetAlias (infosOk_offsetFromFirst hok (List.mem_of_find?_eq_some hfirst)) hmap

end Read

end LitmusHarness
