import LitmusHarness.Concretization.Pins

/-!
# Are the variables well placed?

The low bits of an address are copied from another by an offset. Up to the level of a PMD this leaves a variable in its
window, and in its physical region when it is identity-mapped. From the level of a PUD on the copied bits reach above
the windows: then it depends on where the test data is, and on the indices that are drawn (`OffsetFits`).

- one offset: where the other variable is located, this one is, with the same low bits, exactly when the offset fits
  (`offset_pud_iff`, `offset_pgd_iff`);
- all variables, by induction along the chains of offsets (`Attempt.located`, `Attempt.fits`);
- the selected addresses are well placed exactly when all offsets fit (`wellPlaced_iff`).
-/

namespace LitmusHarness

variable {p : Platform}

/-! ## The properties -/

/-- The 8 bytes at the address of `v` are in one window or, when it is identity-mapped, in one physical region. -/
def InArea (p : Platform) (v : VarInfo) (va : U64) : Prop :=
  if v.isIdentityMapped then ∃ i o, InPhys p va i o ∧ o + 8 ≤ 2 ^ 23 else ∃ i o, InWindow va i o ∧ o + 8 ≤ 2 ^ 23

/-- All addresses are aligned, in their areas, and share the bits that their offsets ask for. -/
structure WellPlaced (p : Platform) (infos : List VarInfo) (va : Nat → U64) : Prop where
  aligned : ∀ v ∈ infos, va v.varidx &&& bitmask 3 = 0
  inArea : ∀ v ∈ infos, InArea p v (va v.varidx)
  sameBits : ∀ v ∈ infos, ∀ o, v.initAttrs.regionOffset = some o →
    va v.varidx &&& bitmask (levelShift p o.offsetLevel) = va o.offsetVar &&& bitmask (levelShift p o.offsetLevel)

/-- When an offset of `v`, drawn at `vi`, from `w`, drawn at `wi`, fits. -/
def OffsetFits (p : Platform) (v w : VarInfo) (vi wi : RegionIdx) : RelOffset → Prop
  | .pud =>
    match v.isIdentityMapped, w.isIdentityMapped with
    | false, false => True
    | false, true => (vaFromRegionIdx p w wi).toNat % 2 ^ 30 < 2 ^ 23
    | true, false => (p.botOfTestdata.toNat + vi.regIx.toNat * 2 ^ 23) % 2 ^ 30 = 0
    | true, true => p.botOfTestdata.toNat % 2 ^ 23 = 0 ∧ vi.regIx = wi.regIx
  | .pgd =>
    v.isIdentityMapped = true ∧ w.isIdentityMapped = true ∧ p.botOfTestdata.toNat % 2 ^ 23 = 0 ∧
      vi.regIx = wi.regIx ∧ p.botOfTestdata.toNat + wi.regIx.toNat * 2 ^ 23 < 2 ^ 32
  | _ => True

/-- All offsets fit, for the indices drawn in `st₁`. -/
def OffsetsFit (p : Platform) (infos : List VarInfo) (st₁ : ConcretizationSt) : Prop :=
  ∀ v ∈ infos, ∀ o, v.initAttrs.regionOffset = some o → ∀ w ∈ infos, w.varidx = o.offsetVar →
    OffsetFits p v w (st₁ v.varidx).partialVa (st₁ w.varidx).partialVa o.offsetLevel

/-! ## One offset -/

/-- Where `v` is: in the window of its drawn index, and when that is a physical region which is not at a multiple of its
size, still in the same 2 MiB. -/
def Located (p : Platform) (v : VarInfo) (idx : RegionIdx) (va : U64) : Prop :=
  if v.isIdentityMapped then
    ∃ o, InPhys p va idx.regIx.toNat o ∧
      (p.botOfTestdata.toNat % 2 ^ 23 = 0 ∨ o / 2 ^ 21 = idx.regOffs.toNat / 2 ^ 21)
  else ∃ o, InWindow va idx.regIx.toNat o

theorem Located.placed {v : VarInfo} {idx : RegionIdx} {va : U64} (h : Located p v idx va) : Placed p v va := by
  unfold Located at h
  unfold Placed
  split <;> rename_i hid <;> simp only [hid, if_true, Bool.false_eq_true, if_false] at h
  · obtain ⟨o, ho, -⟩ := h
    exact ⟨_, o, ho⟩
  · obtain ⟨o, ho⟩ := h
    exact ⟨_, o, ho⟩

/-- An aligned address that is placed has its 8 bytes in one area. -/
theorem inArea_iff {v : VarInfo} {va : U64} (hal : va.toNat % 8 = 0) : InArea p v va ↔ Placed p v va := by
  have hbot := p.aligned
  unfold InArea Placed
  split
  · constructor
    · rintro ⟨i, o, h, -⟩
      exact ⟨i, o, h⟩
    · rintro ⟨i, o, h⟩
      refine ⟨i, o, h, ?_⟩
      obtain ⟨-, ho, hva⟩ := h
      omega
  · constructor
    · rintro ⟨i, o, h, -⟩
      exact ⟨i, o, h⟩
    · rintro ⟨i, o, h⟩
      refine ⟨i, o, h, ?_⟩
      obtain ⟨-, ho, hva⟩ := h
      omega

/-- The address of an index in physical memory, also for an offset above the region. -/
theorem toNat_vaFromRegionIdx_phys {v : VarInfo} {idx : RegionIdx} (hid : v.isIdentityMapped = true)
    (hix : idx.regIx.toNat < 16) (hoffs : idx.regOffs.toNat < 2 ^ 23 + 2 ^ 39) : (vaFromRegionIdx p v idx).toNat =
      p.botOfTestdata.toNat + (idx.regIx.toNat + idx.regOffs.toNat / 2 ^ 32) * 2 ^ 23 + idx.regOffs.toNat % 2 ^ 23 := by
  have hva := toNat_windowVa hix (show idx.regOffs.toNat < 2 ^ 40 by omega)
  have hfit := p.fits
  have hsub : (testdataMmap8MVaFromIndex idx.regIx + idx.regOffs - testdataMmapBase).toNat =
      idx.regIx.toNat * 2 ^ 32 + idx.regOffs.toNat := by
    rw [BitVec.toNat_sub, hva, testdataMmapBase_toNat]
    omega
  rw [vaFromRegionIdx, hid, if_pos rfl, toNat_virtToPhys, hsub]
  omega

section Offset

variable {v w : VarInfo} {vi wi : RegionIdx} {wva : U64}

/-- **An offset up to the level of a PMD always fits.** -/
theorem offset_fine {lvl : RelOffset} (hlvl : levelShift p lvl ≤ 21) (hvi : Drawn vi) :
    Located p v vi (vaFromRegionIdx p v (offsetRegionIdx p vi lvl wva)) ∧
      (vaFromRegionIdx p v (offsetRegionIdx p vi lvl wva)).toNat % 2 ^ levelShift p lvl =
        wva.toNat % 2 ^ levelShift p lvl := by
  obtain ⟨hix, hoffs, -⟩ := hvi
  have hbot := p.aligned
  have hdiv : (offsetRegionIdx p vi lvl wva).regOffs.toNat / 2 ^ 21 = vi.regOffs.toNat / 2 ^ 21 :=
    offsetRegionIdx_div hlvl vi wva
  have hlt : (offsetRegionIdx p vi lvl wva).regOffs.toNat < 2 ^ 23 := by omega
  have hmod : (offsetRegionIdx p vi lvl wva).regOffs.toNat % 2 ^ levelShift p lvl = wva.toNat % 2 ^ levelShift p lvl := by
    rw [toNat_offsetRegionIdx, Nat.mul_add_mod', Nat.mod_mod]
  have hbase : ∀ base o, base % 2 ^ 21 = 0 → (base + o) % 2 ^ levelShift p lvl = o % 2 ^ levelShift p lvl := by
    intro base o hb
    obtain ⟨k, rfl⟩ := (Nat.pow_dvd_pow 2 hlvl).trans (Nat.dvd_of_mod_eq_zero hb)
    exact Nat.mul_add_mod ..
  unfold Located
  cases hid : v.isIdentityMapped with
  | true =>
    have hphys := @vaFromRegionIdx_phys p v (offsetRegionIdx p vi lvl wva) hid (show vi.regIx.toNat < 16 by omega) hlt
    refine ⟨⟨_, hphys, .inr hdiv⟩, ?_⟩
    rw [hphys.2.2, hbase _ _ (by omega), hmod]
  | false =>
    have hwin := @vaFromRegionIdx_window p v (offsetRegionIdx p vi lvl wva) hid (show vi.regIx.toNat < 16 by omega) hlt
    refine ⟨⟨_, hwin⟩, ?_⟩
    rw [hwin.2.2, hbase _ _ (by omega), hmod]

/-- Above the windows nothing is left of the drawn offset. -/
theorem offsetRegionIdx_coarse {lvl : RelOffset} (hlvl : 23 ≤ levelShift p lvl) (hvi : Drawn vi) :
    (offsetRegionIdx p vi lvl wva).regOffs.toNat = wva.toNat % 2 ^ levelShift p lvl := by
  have hlt : vi.regOffs.toNat < 2 ^ levelShift p lvl :=
    lt_of_lt_of_le hvi.regOffs (Nat.pow_le_pow_right (by decide) hlvl)
  rw [toNat_offsetRegionIdx, Nat.div_eq_of_lt hlt, Nat.zero_mul, Nat.zero_add]

/-- **An offset at the level of a PUD.** -/
theorem offset_pud_iff (hvi : Drawn vi) (hwi : Drawn wi) (hw : Located p w wi wva) :
    (Placed p v (vaFromRegionIdx p v (offsetRegionIdx p vi .pud wva)) ∧
      (vaFromRegionIdx p v (offsetRegionIdx p vi .pud wva)).toNat % 2 ^ 30 = wva.toNat % 2 ^ 30 ↔
        OffsetFits p v w vi wi .pud) ∧
    (OffsetFits p v w vi wi .pud → Located p v vi (vaFromRegionIdx p v (offsetRegionIdx p vi .pud wva))) := by
  have hbot := p.aligned
  have hvix := hvi.regIx
  obtain ⟨hwix, hwoffs, -⟩ := hwi
  have hoffs : (offsetRegionIdx p vi .pud wva).regOffs.toNat = wva.toNat % 2 ^ 30 :=
    offsetRegionIdx_coarse (by decide : 23 ≤ 30) hvi
  have hlt : wva.toNat % 2 ^ 30 < 2 ^ 30 := Nat.mod_lt _ (by decide)
  have hix : (offsetRegionIdx p vi .pud wva).regIx.toNat = vi.regIx.toNat := rfl
  unfold OffsetFits Placed
  unfold Located at hw ⊢
  cases hvid : v.isIdentityMapped with
  | false =>
    have hva := @toNat_windowVa (offsetRegionIdx p vi .pud wva) (by omega) (by omega)
    rw [hix, hoffs] at hva
    rw [vaFromRegionIdx, hvid]
    simp only [Bool.false_eq_true, if_false, InWindow, hva]
    cases hwid : w.isIdentityMapped with
    | false =>
      rw [hwid] at hw
      obtain ⟨o, hj, ho, hwva⟩ := hw
      have hx : wva.toNat % 2 ^ 30 = o := by omega
      rw [hx]
      exact ⟨iff_of_true ⟨⟨vi.regIx.toNat, o, by omega, ho, rfl⟩, by omega⟩ trivial, fun _ => ⟨o, by omega, ho, rfl⟩⟩
    | true =>
      rw [hwid] at hw
      obtain ⟨o, ⟨hj, ho, hwva⟩, hpos⟩ := hw
      have hphys := vaFromRegionIdx_phys (p := p) hwid (show wi.regIx.toNat < 16 by omega) hwoffs
      have hfit : wva.toNat % 2 ^ 30 < 2 ^ 23 ↔ (vaFromRegionIdx p w wi).toNat % 2 ^ 30 < 2 ^ 23 := by
        rw [hphys.2.2]
        omega
      rw [← hfit]
      refine ⟨⟨?_, fun h => ⟨⟨vi.regIx.toNat, _, by omega, h, rfl⟩, by omega⟩⟩, fun h => ⟨_, by omega, h, rfl⟩⟩
      rintro ⟨⟨i, o', hi, ho', heq⟩, -⟩
      omega
  | true =>
    have hva := @toNat_vaFromRegionIdx_phys p v (offsetRegionIdx p vi .pud wva) hvid (by omega) (by omega)
    rw [hix, hoffs] at hva
    simp only [if_true, InPhys, hva]
    cases hwid : w.isIdentityMapped with
    | false =>
      rw [hwid] at hw
      obtain ⟨o, hj, ho, hwva⟩ := hw
      have hx : wva.toNat % 2 ^ 30 = o := by omega
      rw [hx]
      refine ⟨⟨fun h => ?_, fun h => ⟨⟨vi.regIx.toNat, o, by omega, ho, by omega⟩, by omega⟩⟩, fun h => ?_⟩
      · omega
      · exact ⟨o, ⟨by omega, ho, by omega⟩, .inl (by omega)⟩
    | true =>
      rw [hwid] at hw
      obtain ⟨o, ⟨hj, ho, hwva⟩, hpos⟩ := hw
      have hmod : wva.toNat % 2 ^ 30 % 2 ^ 23 < 2 ^ 23 := Nat.mod_lt _ (by decide)
      refine ⟨⟨fun h => ?_, fun h => ⟨⟨vi.regIx.toNat, wva.toNat % 2 ^ 30 % 2 ^ 23, by omega, hmod, by omega⟩, ?_⟩⟩,
        fun h => ⟨wva.toNat % 2 ^ 30 % 2 ^ 23, ⟨by omega, hmod, by omega⟩, .inl h.1⟩⟩
      · rw [← BitVec.toNat_inj]
        omega
      · rw [← BitVec.toNat_inj] at h
        omega

/-- **An offset at the level of a PGD**, of variables that share an address only if they share the drawn index. -/
theorem offset_pgd_iff (hvi : Drawn vi) (hwi : Drawn wi) (hw : Located p w wi wva)
    (hsame : vaFromRegionIdx p v (offsetRegionIdx p vi .pgd wva) = wva → vi.regIx = wi.regIx) :
    (Placed p v (vaFromRegionIdx p v (offsetRegionIdx p vi .pgd wva)) ∧
      (vaFromRegionIdx p v (offsetRegionIdx p vi .pgd wva)).toNat % 2 ^ 39 = wva.toNat % 2 ^ 39 ↔
        OffsetFits p v w vi wi .pgd) ∧
    (OffsetFits p v w vi wi .pgd → Located p v vi (vaFromRegionIdx p v (offsetRegionIdx p vi .pgd wva))) := by
  have hbot := p.aligned
  have hfits := p.fits
  have hvix := hvi.regIx
  have hwix := hwi.regIx
  have hix : (offsetRegionIdx p vi .pgd wva).regIx.toNat = vi.regIx.toNat := rfl
  have hwlt : wva.toNat < 2 ^ 38 := by
    unfold Located at hw
    split at hw
    · obtain ⟨o, ⟨-, ho, hwva⟩, -⟩ := hw
      omega
    · obtain ⟨o, -, ho, hwva⟩ := hw
      omega
  have hoffs : (offsetRegionIdx p vi .pgd wva).regOffs.toNat = wva.toNat := by
    rw [@offsetRegionIdx_coarse p vi wva .pgd (by decide : 23 ≤ 39) hvi]
    exact Nat.mod_eq_of_lt (lt_of_lt_of_le hwlt (by decide : 2 ^ 38 ≤ 2 ^ 39))
  unfold OffsetFits Placed
  unfold Located at hw ⊢
  cases hvid : v.isIdentityMapped with
  | false =>
    -- the address of the window is in the copied bits, too
    have hva := @toNat_windowVa (offsetRegionIdx p vi .pgd wva) (by omega) (by omega)
    rw [hix, hoffs] at hva
    rw [vaFromRegionIdx, hvid]
    simp only [Bool.false_eq_true, if_false, hva, false_and, iff_false, false_imp_iff, and_true]
    rintro ⟨-, h⟩
    omega
  | true =>
    have hva := @toNat_vaFromRegionIdx_phys p v (offsetRegionIdx p vi .pgd wva) hvid (by omega) (by omega)
    rw [hix, hoffs] at hva
    rw [← BitVec.toNat_inj, hva] at hsame
    simp only [if_true, InPhys, hva, true_and]
    cases hwid : w.isIdentityMapped with
    | false =>
      rw [hwid] at hw
      obtain ⟨o, hj, ho, hwva⟩ := hw
      simp only [Bool.false_eq_true, false_and, iff_false, false_imp_iff, and_true]
      rintro ⟨⟨i, o', hi, ho', heq⟩, -⟩
      omega
    | true =>
      rw [hwid] at hw
      obtain ⟨o, ⟨hj, ho, hwva⟩, hpos⟩ := hw
      have hmod : wva.toNat % 2 ^ 23 < 2 ^ 23 := Nat.mod_lt _ (by decide)
      simp only [true_and]
      refine ⟨⟨fun h => ?_, fun h => ⟨⟨vi.regIx.toNat, wva.toNat % 2 ^ 23, by omega, hmod, ?_⟩, ?_⟩⟩,
        fun h => ⟨wva.toNat % 2 ^ 23, ⟨by omega, hmod, ?_⟩, .inl h.1⟩⟩
      · have heq := hsame (by omega)
        have hji : vi.regIx.toNat = wi.regIx.toNat := congrArg BitVec.toNat heq
        obtain ⟨-, hbits⟩ := h
        exact ⟨by omega, heq, by omega⟩
      all_goals
        obtain ⟨hb, hji, hlt⟩ := h
        rw [hji]
        omega

end Offset

/-! ## All variables -/

section Selected

variable {σ : Type} {rand : σ → U64 × σ} {infos : List VarInfo} {st₁ : ConcretizationSt} {va : Nat → U64}

/-- Copying the low bits of a multiple of 8 into another gives one. -/
theorem splice_mod_eight {a b n : Nat} (ha : a % 16 = 0) (hb : b % 8 = 0) :
    (a / 2 ^ n * 2 ^ n + b % 2 ^ n) % 8 = 0 := by
  have h1 : a / 2 ^ n * 2 ^ n % 16 = 0 := mod_sixteen_of_aligned ha
  have h2 : b % 2 ^ n % 8 = 0 := by
    rcases Nat.lt_or_ge n 3 with hn | hn
    · have hdvd : 2 ^ n ∣ b := (Nat.pow_dvd_pow 2 (show n ≤ 3 by omega)).trans (Nat.dvd_of_mod_eq_zero hb)
      rw [Nat.mod_eq_zero_of_dvd hdvd]
    · rw [Nat.mod_mod_of_dvd b (Nat.pow_dvd_pow 2 hn : 2 ^ 3 ∣ 2 ^ n)]
      exact hb
  omega

/-- The address of an index at a multiple of 8 is aligned. -/
theorem vaFromRegionIdx_mod_eight {v : VarInfo} {idx : RegionIdx} (hix : idx.regIx.toNat < 16)
    (hlt : idx.regOffs.toNat < 2 ^ 23 + 2 ^ 39) (hoffs : idx.regOffs.toNat % 8 = 0) :
    (vaFromRegionIdx p v idx).toNat % 8 = 0 := by
  have hbot := p.aligned
  cases hid : v.isIdentityMapped with
  | true =>
    rw [toNat_vaFromRegionIdx_phys hid hix hlt]
    omega
  | false =>
    have hva := toNat_windowVa hix (show idx.regOffs.toNat < 2 ^ 40 by omega)
    rw [vaFromRegionIdx, hid]
    simp only [Bool.false_eq_true, if_false, hva]
    omega

/-- **Every address is aligned**, by induction along the chain of its offsets. -/
theorem Attempt.va_aligned (h : Attempt rand p infos st₁ va) (hok : InfosOk infos) {v : VarInfo} (hv : v ∈ infos) :
    (va v.varidx).toNat % 8 = 0 := by
  have hacc := h.acc v hv
  generalize hi : v.varidx = i at hacc
  induction hacc generalizing v with
  | intro i _ ih =>
    subst hi
    obtain ⟨idx, hva, hnone, hsome⟩ := h.va_idx hv
    obtain ⟨hix, hoffs, haligned⟩ := h.drawn hok hv
    rw [hva]
    cases ho : v.initAttrs.regionOffset with
    | none =>
      rw [hnone ho]
      exact vaFromRegionIdx_mod_eight (by omega) (by omega) (by omega)
    | some o =>
      obtain ⟨w, hw, hwo⟩ := hok.exists_at ((hok.refs v hv).offsetVar o ho)
      have hwal := ih o.offsetVar ⟨v, hok.getElem?_varidx hv, o.offsetLevel, ho⟩ hw hwo
      rw [hsome o ho]
      refine vaFromRegionIdx_mod_eight (show (st₁ v.varidx).partialVa.regIx.toNat < 16 by omega)
        (offsetRegionIdx_lt hoffs _ _) ?_
      rw [toNat_offsetRegionIdx]
      exact splice_mod_eight haligned (hwo ▸ hwal)

/-- A variable at the end of its chain is not offset from itself. -/
theorem not_offsetFrom_self {i : Nat} (hacc : Acc (OffsetFrom infos) i) : ¬OffsetFrom infos i i := by
  induction hacc with
  | intro i _ ih => exact fun h => ih i h h

/-- Two variables are validated at one address only if one is pinned to the other, so that they share the index. -/
theorem Attempt.sameIndex (h : Attempt rand p infos st₁ va) (hok : InfosOk infos) (hval : Validated p infos va)
    {v w : VarInfo} (hv : v ∈ infos) (hw : w ∈ infos) (hne : w.varidx ≠ v.varidx) (heq : va v.varidx = va w.varidx) :
    (st₁ v.varidx).partialVa.regIx = (st₁ w.varidx).partialVa.regIx := by
  have hpin : ∀ x ∈ infos, ∀ y ∈ infos, canVirtuallyAliasWith x y = true →
      (st₁ x.varidx).partialVa.regIx = (st₁ y.varidx).partialVa.regIx := by
    intro x hx y hy hxy
    unfold canVirtuallyAliasWith at hxy
    split at hxy
    · rename_i back r lvl hty
      simp only [Bool.and_eq_true, decide_eq_true_eq] at hxy
      obtain ⟨rfl, -⟩ := hxy
      exact (h.pinDrawn hok hx hty (hok.getElem?_varidx hy)).2.regIx
    · cases hxy
  obtain ⟨halias, -⟩ := validated_iff.mp hval v hv w hw hne
  have hcan : canVirtuallyAlias v w = true := by
    by_contra hn
    exact halias ⟨heq, by simpa using hn⟩
  simp only [canVirtuallyAlias, Bool.or_eq_true] at hcan
  rcases hcan with hvw | hwv
  · exact hpin v hv w hw hvw
  · exact (hpin w hw v hv hwv).symm

/-- **One offset of a selection**: where the other variable is located, the offset fits exactly when the address is in
an area and has the low bits of the other. -/
theorem Attempt.offset_iff (h : Attempt rand p infos st₁ va) (hok : InfosOk infos) (hval : Validated p infos va)
    {v w : VarInfo} (hv : v ∈ infos) {o : RegionOffset} (ho : v.initAttrs.regionOffset = some o) (hw : w ∈ infos)
    (hwo : w.varidx = o.offsetVar) (hloc : Located p w (st₁ w.varidx).partialVa (va w.varidx)) :
    (Placed p v (va v.varidx) ∧
      (va v.varidx).toNat % 2 ^ levelShift p o.offsetLevel = (va w.varidx).toNat % 2 ^ levelShift p o.offsetLevel ↔
        OffsetFits p v w (st₁ v.varidx).partialVa (st₁ w.varidx).partialVa o.offsetLevel) ∧
    (OffsetFits p v w (st₁ v.varidx).partialVa (st₁ w.varidx).partialVa o.offsetLevel →
      Located p v (st₁ v.varidx).partialVa (va v.varidx)) := by
  obtain ⟨idx, hva, -, hsome⟩ := h.va_idx hv
  have hvi := h.drawn hok hv
  have hwi := h.drawn hok hw
  have hne : w.varidx ≠ v.varidx := by
    intro heq
    refine not_offsetFrom_self (h.acc v hv) ⟨v, hok.getElem?_varidx hv, o.offsetLevel, ?_⟩
    rw [ho, ← heq, hwo]
  have hsame := h.sameIndex hok hval hv hw hne
  rw [hva, hsome o ho, ← hwo] at hsame ⊢
  cases hlvl : o.offsetLevel with
  | pud => exact offset_pud_iff hvi hwi hloc
  | pgd =>
    rw [hlvl] at hsame
    exact offset_pgd_iff hvi hwi hloc hsame
  | _ =>
    obtain ⟨h1, h2⟩ := @offset_fine p v _ (va w.varidx) o.offsetLevel
      (levelShift_le_pmd p (by rw [hlvl]; decide) (by rw [hlvl]; decide)) hvi
    rw [hlvl] at h1 h2
    exact ⟨iff_of_true ⟨h1.placed, h2⟩ trivial, fun _ => h1⟩

/-- Without an offset a variable stays where it was drawn. -/
theorem Attempt.located_of_none (h : Attempt rand p infos st₁ va) (hok : InfosOk infos) {v : VarInfo} (hv : v ∈ infos)
    (ho : v.initAttrs.regionOffset = none) : Located p v (st₁ v.varidx).partialVa (va v.varidx) := by
  obtain ⟨idx, hva, hnone, -⟩ := h.va_idx hv
  obtain ⟨hix, hoffs, -⟩ := h.drawn hok hv
  rw [hva, hnone ho]
  unfold Located
  split
  · exact ⟨_, vaFromRegionIdx_phys ‹_› (by omega) hoffs, .inr rfl⟩
  · rename_i hid
    exact ⟨_, vaFromRegionIdx_window (by simpa using hid) (by omega) hoffs⟩

/-- **If all offsets fit, every variable is located.** -/
theorem Attempt.located (h : Attempt rand p infos st₁ va) (hok : InfosOk infos) (hval : Validated p infos va)
    (hfit : OffsetsFit p infos st₁) {v : VarInfo} (hv : v ∈ infos) :
    Located p v (st₁ v.varidx).partialVa (va v.varidx) := by
  have hacc := h.acc v hv
  generalize hi : v.varidx = i at hacc
  induction hacc generalizing v with
  | intro i _ ih =>
    subst hi
    cases ho : v.initAttrs.regionOffset with
    | none => exact h.located_of_none hok hv ho
    | some o =>
      obtain ⟨w, hw, hwo⟩ := hok.exists_at ((hok.refs v hv).offsetVar o ho)
      have hloc := ih o.offsetVar ⟨v, hok.getElem?_varidx hv, o.offsetLevel, ho⟩ hw hwo
      rw [← hwo] at hloc
      exact (h.offset_iff hok hval hv ho hw hwo hloc).2 (hfit v hv o ho w hw hwo)

/-- **If all variables are well placed, every variable is located and its offset fits.** -/
theorem Attempt.fits (h : Attempt rand p infos st₁ va) (hok : InfosOk infos) (hval : Validated p infos va)
    (hwell : WellPlaced p infos va) {v : VarInfo} (hv : v ∈ infos) :
    Located p v (st₁ v.varidx).partialVa (va v.varidx) ∧
      ∀ o, v.initAttrs.regionOffset = some o → ∀ w ∈ infos, w.varidx = o.offsetVar →
        OffsetFits p v w (st₁ v.varidx).partialVa (st₁ w.varidx).partialVa o.offsetLevel := by
  have hacc := h.acc v hv
  generalize hi : v.varidx = i at hacc
  induction hacc generalizing v with
  | intro i _ ih =>
    subst hi
    cases ho : v.initAttrs.regionOffset with
    | none => exact ⟨h.located_of_none hok hv ho, fun o ho' => (by cases ho')⟩
    | some o =>
      -- the offset fits, since the address is placed and has the bits
      have hstep : ∀ w ∈ infos, w.varidx = o.offsetVar →
          OffsetFits p v w (st₁ v.varidx).partialVa (st₁ w.varidx).partialVa o.offsetLevel ∧
            Located p v (st₁ v.varidx).partialVa (va v.varidx) := by
        intro w hw hwo
        have hloc := (ih o.offsetVar ⟨v, hok.getElem?_varidx hv, o.offsetLevel, ho⟩ hw hwo).1
        rw [← hwo] at hloc
        obtain ⟨hiff, hlocated⟩ := h.offset_iff hok hval hv ho hw hwo hloc
        have hplaced := (inArea_iff (h.va_aligned hok hv)).mp (hwell.inArea v hv)
        have hbits := congrArg BitVec.toNat (hwell.sameBits v hv o ho)
        have hshift : levelShift p o.offsetLevel < 64 := lt_of_le_of_lt (levelShift_le p _) (by decide)
        rw [toNat_and_bitmask _ hshift, toNat_and_bitmask _ hshift, ← hwo] at hbits
        have hf := hiff.mp ⟨hplaced, hbits⟩
        exact ⟨hf, hlocated hf⟩
      obtain ⟨w, hw, hwo⟩ := hok.exists_at ((hok.refs v hv).offsetVar o ho)
      refine ⟨(hstep w hw hwo).2, fun o' ho' w hw hwo => ?_⟩
      cases ho'
      exact (hstep w hw hwo).1

/-! ## The result -/

/-- **When the selected addresses are well placed.** It is enough that no offset is at the level of a PGD, and that none
at the level of a PUD is of or from an identity-mapped variable. Whatever the configuration, they are well placed exactly
when all offsets fit the drawn indices. -/
theorem wellPlaced_iff {cfg : LitmusTest} {sys sys' : InitSystemState}
    (hread : readVarInfos cfg sys = .ok (sys', infos)) {n : Nat} {st : ConcretizationSt} {s s' : σ}
    (hrun : concretizeRandomOne rand p infos n st s = .ok (va, s')) :
    ((∀ v ∈ infos, ∀ o, v.initAttrs.regionOffset = some o → o.offsetLevel ≠ .pgd ∧
        (o.offsetLevel = .pud → v.isIdentityMapped = false ∧
          ∀ w ∈ infos, w.varidx = o.offsetVar → w.isIdentityMapped = false)) → WellPlaced p infos va) ∧
    ∃ st₁, Attempt rand p infos st₁ va ∧ (WellPlaced p infos va ↔ OffsetsFit p infos st₁) := by
  have hok := readVarInfos_ok hread
  obtain ⟨⟨st₁, h⟩, hval⟩ := concretizeRandomOne_ok hok n st s hrun
  have hiff : WellPlaced p infos va ↔ OffsetsFit p infos st₁ := by
    refine ⟨fun hwell v hv => (h.fits hok hval hwell hv).2, fun hfit => ⟨fun v hv => ?_, fun v hv => ?_, ?_⟩⟩
    · rw [← BitVec.toNat_inj, toNat_and_bitmask _ (by decide)]
      exact h.va_aligned hok hv
    · exact (inArea_iff (h.va_aligned hok hv)).mpr (h.located hok hval hfit hv).placed
    · intro v hv o ho
      obtain ⟨w, hw, hwo⟩ := hok.exists_at ((hok.refs v hv).offsetVar o ho)
      have hloc := h.located hok hval hfit hw
      have hshift : levelShift p o.offsetLevel < 64 := lt_of_le_of_lt (levelShift_le p _) (by decide)
      rw [← BitVec.toNat_inj, toNat_and_bitmask _ hshift, toNat_and_bitmask _ hshift, ← hwo]
      exact ((h.offset_iff hok hval hv ho hw hwo hloc).1.mpr (hfit v hv o ho w hw hwo)).2
  refine ⟨fun hplain => hiff.mpr fun v hv o ho w hw hwo => ?_, st₁, h, hiff⟩
  obtain ⟨hpgd, hpud⟩ := hplain v hv o ho
  cases hlvl : o.offsetLevel with
  | pgd => exact absurd hlvl hpgd
  | pud =>
    obtain ⟨hvid, hwid⟩ := hpud hlvl
    simp only [OffsetFits, hvid, hwid w hw hwo]
  | _ => trivial

end Selected

/-- An identity-mapped variable, and one with the offset of the first in its 1 GiB. -/
def pudPairTest : LitmusTest where
  name := "idmap+pud"
  heapVarNames := ["x", "y"]
  initStates := [.heap "x" 0, .identityMap "x", .heap "y" 0, .regionOffset "y" "x" .pud]

/-- What is read of it. -/
def pudPairInfos : List VarInfo :=
  [{ varidx := 0, name := "x", ty := .heap { val := 0, isIdentityMapped := true } .page },
   { varidx := 1, name := "y", ty := .heap { val := 0, isIdentityMapped := false } .page,
     initAttrs := { regionOffset := some ⟨0, .pud⟩ } }]

/-- The seed 1 selects for `y` an address that is 144 MiB above the start of its window. -/
theorem pudPair_notWellPlaced :
    readVarInfos pudPairTest {} = .ok ({}, pudPairInfos) ∧
    ∃ va s', concretizeRandomOne randn exampleTestdata pudPairInfos 1 (fun _ => {}) 1 = .ok (va, s') ∧
      (va 1).toNat = 2 ^ 37 + 10 * 2 ^ 32 + 144 * 2 ^ 20 ∧ ¬WellPlaced exampleTestdata pudPairInfos va := by
  refine ⟨rfl, _, _, rfl, by decide +kernel, fun hwell => ?_⟩
  obtain ⟨i, o, ⟨hi, ho, hva⟩, -⟩ := hwell.inArea (pudPairInfos.getD 1 default) (by decide)
  rw [show (pudPairInfos.getD 1 default).varidx = 1 from rfl,
    show BitVec.toNat _ = 2 ^ 37 + 10 * 2 ^ 32 + 144 * 2 ^ 20 by decide +kernel] at hva
  omega

theorem wellPlaced_iff_pudPair :
    ∃ va s', concretizeRandomOne randn exampleTestdata pudPairInfos 1 (fun _ => {}) 1 = .ok (va, s') ∧
    ((∀ v ∈ pudPairInfos, ∀ o, v.initAttrs.regionOffset = some o → o.offsetLevel ≠ .pgd ∧
        (o.offsetLevel = .pud → v.isIdentityMapped = false ∧
          ∀ w ∈ pudPairInfos, w.varidx = o.offsetVar → w.isIdentityMapped = false)) →
      WellPlaced exampleTestdata pudPairInfos va) ∧
    ∃ st₁, Attempt randn exampleTestdata pudPairInfos st₁ va ∧
      (WellPlaced exampleTestdata pudPairInfos va ↔ OffsetsFit exampleTestdata pudPairInfos st₁) := by
  obtain ⟨va, s', hrun⟩ : ∃ va s', concretizeRandomOne randn exampleTestdata pudPairInfos 1 (fun _ => {}) 1 =
      .ok (va, s') := ⟨_, _, rfl⟩
  exact ⟨va, s', hrun, @wellPlaced_iff exampleTestdata _ _ pudPairInfos va pudPairTest {} {} rfl 1 (fun _ => {}) 1 s'
    hrun⟩

end LitmusHarness
