import LitmusHarness.Concretization.Placement
import LitmusHarness.Concretization.Undeclared
import Mathlib.Data.Nat.Bitwise
import Mathlib.Logic.Relation

/-!
# The offsets of aliases

`read_var_infos` offsets each alias from its target, but for the variable that the others are offset from. So an alias
is at the offset of its target in the page, unless it is that variable itself: then each bit of the target's offset is
the one that was drawn for the variable that it comes from, along the offsets, and is the alias' bit only if that was
drawn alike (`alias_pageOffset_iff`). The bits agree in every draw where they come from the alias
(`aliasDrawn_of_copied`).
-/

namespace LitmusHarness

/-! ## Where a bit comes from -/

/-- The bit `i` of the offset of `v` is copied from `u`. -/
def CopiesBit (p : Platform) (infos : List VarInfo) (i v u : Nat) : Prop :=
  ∃ var, infos[v]? = some var ∧ ∃ lvl, var.initAttrs.regionOffset = some ⟨u, lvl⟩ ∧ i < levelShift p lvl

/-- The bit `i` of the offset of `v` is drawn for `w`: the copies lead there, and end there. -/
def BitSource (p : Platform) (infos : List VarInfo) (i v w : Nat) : Prop :=
  Relation.ReflTransGen (CopiesBit p infos i) v w ∧ ∀ u, ¬CopiesBit p infos i w u

section Bits

variable {p : Platform} {infos : List VarInfo} {i v u w : Nat} {var : VarInfo}

theorem copiesBit_iff (hok : InfosOk infos) (hvar : var ∈ infos) : CopiesBit p infos i var.varidx u ↔
    ∃ lvl, var.initAttrs.regionOffset = some ⟨u, lvl⟩ ∧ i < levelShift p lvl := by
  unfold CopiesBit
  rw [hok.getElem?_varidx hvar]
  simp only [Option.some.injEq, exists_eq_left']

/-- A variable that does not copy a bit is its source. -/
theorem BitSource.self (hok : InfosOk infos) (hvar : var ∈ infos)
    (h : ∀ o, var.initAttrs.regionOffset = some o → levelShift p o.offsetLevel ≤ i) :
    BitSource p infos i var.varidx var.varidx := by
  refine ⟨.refl, fun u hu => ?_⟩
  obtain ⟨lvl, ho, hlt⟩ := (copiesBit_iff hok hvar).mp hu
  exact absurd (h _ ho) (Nat.not_le.mpr hlt)

theorem copiesBit_rightUnique : Relator.RightUnique (CopiesBit p infos i) := by
  rintro v u u' ⟨var, hvar, lvl, ho, -⟩ ⟨var', hvar', lvl', ho', -⟩
  obtain rfl : var = var' := Option.some.inj (hvar.symm.trans hvar')
  have h := ho.symm.trans ho'
  simp only [Option.some.injEq, RegionOffset.mk.injEq] at h
  exact h.1

theorem BitSource.copies (h : BitSource p infos i u w) (hc : CopiesBit p infos i v u) : BitSource p infos i v w :=
  ⟨.head hc h.1, h.2⟩

/-- A bit comes from one variable. -/
theorem BitSource.unique {w' : Nat} (h : BitSource p infos i v w) (h' : BitSource p infos i v w') : w = w' := by
  rcases Relation.ReflTransGen.total_of_right_unique copiesBit_rightUnique h.1 h'.1 with hw | hw
  · rcases hw.cases_head with heq | ⟨u, hu, -⟩
    · exact heq
    · exact absurd hu (h.2 u)
  · rcases hw.cases_head with heq | ⟨u, hu, -⟩
    · exact heq.symm
    · exact absurd hu (h'.2 u)

/-! ## The bits of an address -/

theorem offsetRegionIdx_getLsbD (idx : RegionIdx) (lvl : RelOffset) (otherva : U64) (i : Nat) :
    (offsetRegionIdx p idx lvl otherva).regOffs.getLsbD i =
      if i < levelShift p lvl then otherva.getLsbD i else idx.regOffs.getLsbD i := by
  have hlt : levelShift p lvl < 64 := lt_of_le_of_lt (levelShift_le p lvl) (by decide)
  unfold offsetRegionIdx bitmask
  dsimp only
  rw [BitVec.getLsbD_or, Mask.getLsbD_and_not_mask _ hlt, Mask.getLsbD_and_mask _ hlt]
  by_cases hi : i < levelShift p lvl
  · simp [hi, Nat.not_le.mpr hi]
  · simp [hi, Nat.le_of_not_lt hi]

/-- The address of an index has its offset in the page, in a window and in physical memory. -/
theorem vaFromRegionIdx_page (v : VarInfo) (idx : RegionIdx) :
    (vaFromRegionIdx p v idx).toNat % 2 ^ 12 = idx.regOffs.toNat % 2 ^ 12 := by
  have hva : (testdataMmap8MVaFromIndex idx.regIx + idx.regOffs).toNat % 2 ^ 12 = idx.regOffs.toNat % 2 ^ 12 := by
    rw [testdataMmap8MVaFromIndex, testdataMmapGapShift, BitVec.toNat_add, BitVec.toNat_add, BitVec.toNat_mul,
      testdataMmapBase_toNat, show (1#64 <<< 32).toNat = 2 ^ 32 from rfl]
    omega
  unfold vaFromRegionIdx
  dsimp only
  split
  · have halign := p.aligned
    rw [toNat_virtToPhys, BitVec.toNat_sub, testdataMmapBase_toNat]
    omega
  · exact hva

theorem getLsbD_eq_of_page {x y : U64} (h : x.toNat % 2 ^ 12 = y.toNat % 2 ^ 12) (hi : i < 12) :
    x.getLsbD i = y.getLsbD i := by
  have hbit := congrArg (fun n => n.testBit i) h
  simpa only [Nat.testBit_mod_two_pow, hi, decide_true, Bool.true_and, BitVec.testBit_toNat] using hbit

theorem page_eq_iff {x y : U64} : x.toNat % 2 ^ 12 = y.toNat % 2 ^ 12 ↔ ∀ i < 12, x.getLsbD i = y.getLsbD i := by
  refine ⟨fun h i hi => getLsbD_eq_of_page h hi, fun h => Nat.eq_of_testBit_eq fun i => ?_⟩
  rw [Nat.testBit_mod_two_pow, Nat.testBit_mod_two_pow, BitVec.testBit_toNat, BitVec.testBit_toNat]
  by_cases hi : i < 12
  · rw [h i hi]
  · simp [hi]

end Bits

section Attempts

variable {σ : Type} {rand : σ → U64 × σ} {p : Platform} {infos : List VarInfo} {st₁ : ConcretizationSt} {va : Nat → U64}
  {i : Nat}

/-- **Each bit of the offset in the page is the one drawn for the variable that it comes from.** -/
theorem Attempt.bitSource (h : Attempt rand p infos st₁ va) (hok : InfosOk infos) {v : VarInfo} (hv : v ∈ infos)
    (hi : i < 12) : ∃ w, BitSource p infos i v.varidx w ∧
      (va v.varidx).getLsbD i = (st₁ w).partialVa.regOffs.getLsbD i := by
  -- by induction along the chain of offsets
  have hacc := h.acc v hv
  generalize hx : v.varidx = x at hacc
  induction hacc generalizing v with
  | intro x _ ih =>
    subst hx
    obtain ⟨idx, hva, hnone, hsome⟩ := h.va_idx hv
    have hbit : (va v.varidx).getLsbD i = idx.regOffs.getLsbD i :=
      hva ▸ getLsbD_eq_of_page (vaFromRegionIdx_page v idx) hi
    cases ho : v.initAttrs.regionOffset with
    | none =>
      refine ⟨v.varidx, .self hok hv fun o ho' => ?_, by rw [hbit, hnone ho]⟩
      rw [ho] at ho'
      cases ho'
    | some o =>
      rw [hsome o ho, offsetRegionIdx_getLsbD] at hbit
      by_cases hlt : i < levelShift p o.offsetLevel
      · obtain ⟨u, hu, huo⟩ := hok.exists_at ((hok.refs v hv).offsetVar o ho)
        obtain ⟨w, hw, hbitw⟩ := ih o.offsetVar ⟨v, hok.getElem?_varidx hv, o.offsetLevel, ho⟩ hu huo
        rw [if_pos hlt, hbitw] at hbit
        exact ⟨w, hw.copies ((copiesBit_iff hok hv).mpr ⟨o.offsetLevel, ho, hlt⟩), hbit⟩
      · rw [if_neg hlt] at hbit
        refine ⟨v.varidx, .self hok hv fun o' ho' => ?_, hbit⟩
        obtain rfl : o = o' := Option.some.inj (ho.symm.trans ho')
        exact Nat.le_of_not_lt hlt

/-! ## Aliases -/

theorem isFirst_offset {v : VarInfo} (h : isFirst v = true) : v.initAttrs.regionOffset = none := by
  unfold isFirst at h
  rw [Bool.or_eq_true, Bool.and_eq_true, Bool.and_eq_true, Option.isNone_iff_eq_none] at h
  rcases h with h | h
  · exact h.2
  · exact h.2

theorem offsetFromFirst_of_varidx {first v : VarInfo} (h : v.varidx = first.varidx) : offsetFromFirst first v = v :=
  if_pos h

/-- The last loop: the first variable keeps what it has, and another alias gets its offset. -/
theorem offsetAlias_alias {first v w : VarInfo} {t : Nat} (h : offsetAlias first v = .ok w) (hty : w.ty = .alias t) :
    v.varidx = first.varidx ∧ w = v ∨ w.initAttrs.regionOffset = some ⟨t, .page⟩ := by
  unfold offsetAlias at h
  split at h
  · cases h
    exact .inl ⟨‹_›, rfl⟩
  · split at h
    · rename_i t' hty'
      split at h
      · cases h
      · cases h
        have heq : VarType.alias t' = .alias t := hty'.symm.trans hty
        cases heq
        exact .inr rfl
    · rename_i hno
      cases h
      exact absurd hty (hno t)

/-- **`read_var_infos` leaves an alias without an offset, or offsets it from its target in the page.** -/
theorem readVarInfos_alias {cfg : LitmusTest} {sys sys' : InitSystemState} (h : readVarInfos cfg sys = .ok (sys', infos))
    {v : VarInfo} {t : Nat} (hv : v ∈ infos) (hty : v.ty = .alias t) :
    v.initAttrs.regionOffset = none ∨ v.initAttrs.regionOffset = some ⟨t, .page⟩ := by
  obtain ⟨st, hread, hcases⟩ := readVarInfos_cases h
  obtain ⟨hok, hnames⟩ : InfosOk st.2 ∧ declared st.2 = cfg.heapVarNames :=
    @Loop.foldlM_inv _ _ (fun st => InfosOk st.2 ∧ declared st.2 = cfg.heapVarNames) _ _ _ _ _
      (fun _ _ _ _ hI hs => ⟨readInitState_ok hI.1 hs, (readInitState_declared hs).1.trans hI.2⟩)
      ⟨infosOk_reset _, declared_reset _⟩ hread
  rcases hcases with ⟨hlen, rfl⟩ | ⟨first, hfirst, hmap⟩
  · -- there are no variables
    rw [← hnames, declared, List.length_map] at hlen
    rw [List.length_eq_zero_iff.mp hlen] at hv
    exact absurd hv List.not_mem_nil
  · obtain ⟨-, hget⟩ := Loop.mapM_getElem? hmap
    obtain ⟨k, hk⟩ := List.getElem?_of_mem hv
    obtain ⟨u, hu, huv⟩ := hget k v hk
    rcases offsetAlias_alias huv hty with ⟨hidx, rfl⟩ | hoff
    · -- the first variable, which has none
      obtain ⟨x, hx, rfl⟩ := List.mem_map.mp (List.mem_of_getElem? hu)
      rw [offsetFromFirst_varidx] at hidx
      have hxf := hok.eq_of_varidx hx (List.mem_of_find?_eq_some hfirst) hidx
      rw [offsetFromFirst_of_varidx hidx, hxf]
      exact .inl (isFirst_offset (List.find?_some hfirst))
    · exact .inr hoff

/-- The aliases are at the offset of their target in the page. -/
def AliasesAtOffset (infos : List VarInfo) (va : Nat → U64) : Prop :=
  ∀ v ∈ infos, ∀ t, v.ty = .alias t → (va v.varidx).toNat % 2 ^ 12 = (va t).toNat % 2 ^ 12

/-- **An alias without an offset is drawn as its target is**: each bit in the page has been drawn alike for the alias and
for the variable from which its target has the bit. -/
def AliasDrawn (p : Platform) (infos : List VarInfo) (st₁ : ConcretizationSt) : Prop :=
  ∀ v ∈ infos, ∀ t, v.ty = .alias t → v.initAttrs.regionOffset = none → ∀ i < 12, ∀ w, BitSource p infos i t w →
    (st₁ w).partialVa.regOffs.getLsbD i = (st₁ v.varidx).partialVa.regOffs.getLsbD i

/-- The alias is drawn as its target in every draw if the target copies the bits from it. -/
theorem aliasDrawn_of_copied (hok : InfosOk infos)
    (h : ∀ v ∈ infos, ∀ t, v.ty = .alias t → v.initAttrs.regionOffset = none →
      ∀ i < 12, Relation.ReflTransGen (CopiesBit p infos i) t v.varidx) (st₁ : ConcretizationSt) :
    AliasDrawn p infos st₁ := by
  intro v hv t hty hnone i hi w hw
  have hself : BitSource p infos i v.varidx v.varidx := .self hok hv fun o ho => by
    rw [hnone] at ho
    cases ho
  rw [hw.unique ⟨h v hv t hty hnone i hi, hself.2⟩]

theorem Attempt.aliasesAtOffset_iff (h : Attempt rand p infos st₁ va) (hok : InfosOk infos)
    (halias : ∀ v ∈ infos, ∀ t, v.ty = .alias t →
      v.initAttrs.regionOffset = none ∨ v.initAttrs.regionOffset = some ⟨t, .page⟩) :
    AliasesAtOffset infos va ↔ AliasDrawn p infos st₁ := by
  have hsource : ∀ v ∈ infos, ∀ i < 12, ∀ w, BitSource p infos i v.varidx w →
      (va v.varidx).getLsbD i = (st₁ w).partialVa.regOffs.getLsbD i := by
    intro v hv i hi w hw
    obtain ⟨w', hw', hbit⟩ := h.bitSource hok hv hi
    rw [hbit, hw'.unique hw]
  have hself : ∀ v ∈ infos, v.initAttrs.regionOffset = none → ∀ i, BitSource p infos i v.varidx v.varidx :=
    fun v hv hnone i => .self hok hv fun o ho => by
      rw [hnone] at ho
      cases ho
  constructor
  · intro hal v hv t hty hnone i hi w hw
    obtain ⟨u, hu, rfl⟩ := hok.exists_at ((hok.refs v hv).aliasVar t hty)
    rw [← hsource u hu i hi w hw, ← hsource v hv i hi _ (hself v hv hnone i)]
    exact (page_eq_iff.mp (hal v hv _ hty) i hi).symm
  · intro hdrawn v hv t hty
    obtain ⟨u, hu, rfl⟩ := hok.exists_at ((hok.refs v hv).aliasVar t hty)
    refine page_eq_iff.mpr fun i hi => ?_
    obtain ⟨w, hw, hbit⟩ := h.bitSource hok hu hi
    rcases halias v hv _ hty with hnone | hoff
    · rw [hsource v hv i hi _ (hself v hv hnone i), hbit, hdrawn v hv _ hty hnone i hi w hw]
    · rw [hbit, hsource v hv i hi w (hw.copies ((copiesBit_iff hok hv).mpr ⟨.page, hoff, hi⟩))]

/-- **When aliases are at the offset of their targets.** -/
theorem alias_pageOffset_iff {cfg : LitmusTest} {sys sys' : InitSystemState}
    (hread : readVarInfos cfg sys = .ok (sys', infos)) {n : Nat} {st : ConcretizationSt} {s s' : σ}
    (hrun : concretizeRandomOne rand p infos n st s = .ok (va, s')) :
    ∃ st₁, Attempt rand p infos st₁ va ∧ (AliasesAtOffset infos va ↔ AliasDrawn p infos st₁) := by
  have hok := readVarInfos_ok hread
  obtain ⟨⟨st₁, h⟩, -⟩ := concretizeRandomOne_ok hok n st s hrun
  exact ⟨st₁, h, h.aliasesAtOffset_iff hok fun v hv t hty => readVarInfos_alias hread hv hty⟩

end Attempts

/-- The alias `y` is the first variable, and its target `x` is pinned to the page of `z`. -/
def aliasFirstTest : LitmusTest where
  name := "alias-first"
  heapVarNames := ["y", "x", "z"]
  initStates := [.heap "x" 0, .heap "z" 0, .alias "y" "x", .regionPin "x" "z" .page]

/-- What is read: `x` has no offset, and `z` is offset from `y`. -/
def aliasFirstInfos : List VarInfo :=
  [{ varidx := 0, name := "y", ty := .alias 1 },
    { varidx := 1, name := "x", ty := .pinned ⟨0, false⟩ 2 .page },
    { varidx := 2, name := "z", ty := .heap ⟨0, false⟩ .page, initAttrs := { regionOffset := some ⟨0, .page⟩ } }]

theorem alias_pageOffset_iff_first :
    ∃ va s', concretizeRandomOne randn exampleTestdata aliasFirstInfos 1 (fun _ => {}) 77778 = .ok (va, s') ∧
      ∃ st₁, Attempt randn exampleTestdata aliasFirstInfos st₁ va ∧
        (AliasesAtOffset aliasFirstInfos va ↔ AliasDrawn exampleTestdata aliasFirstInfos st₁) := by
  obtain ⟨va, s', hrun⟩ : ∃ va s', concretizeRandomOne randn exampleTestdata aliasFirstInfos 1 (fun _ => {}) 77778 =
      .ok (va, s') := ⟨_, _, rfl⟩
  exact ⟨va, s', hrun, @alias_pageOffset_iff _ _ _ aliasFirstInfos va aliasFirstTest {} {} rfl 1 (fun _ => {}) 77778 s' hrun⟩

/-- With the seed 77778 the alias and its target are at different offsets. -/
theorem aliasFirst_otherOffset :
    readVarInfos aliasFirstTest {} = .ok ({}, aliasFirstInfos) ∧
    ∃ va s', concretizeRandomOne randn exampleTestdata aliasFirstInfos 1 (fun _ => {}) 77778 = .ok (va, s') ∧
      (va 0).toNat % 2 ^ 12 ≠ (va 1).toNat % 2 ^ 12 :=
  ⟨rfl, _, _, rfl, by decide +kernel⟩

end LitmusHarness
