import LitmusHarness.Concretization.Placement

/-!
# Are the variables separate in physical memory?

The validation compares virtual addresses. Among the variables that are identity-mapped, and among those that are not,
the physical addresses overlap only if the virtual ones do, so owned regions are physically disjoint
(`Attempt.separate`). Between the two kinds nothing is compared: the regions are disjoint exactly when the indices
happen to be (`owned_separate_iff`).
-/

namespace LitmusHarness

variable {p : Platform}

/-- The physical address `b` is in the region, of the size that `v` owns, around the address `va` of `v`. -/
def InOwnedPhys (p : Platform) (v : VarInfo) (va b : U64) : Prop :=
  inSameRegion p (safeTestdataPa p va) b v.ownedRegionSize = true

/-- The owned regions of `x` and `y` have no physical address in common. -/
def Separate (p : Platform) (x y : VarInfo) (va : Nat → U64) : Prop :=
  ∀ b, ¬(InOwnedPhys p x (va x.varidx) b ∧ InOwnedPhys p y (va y.varidx) b)

/-- The larger of the owned sizes. -/
def largerShift (p : Platform) (x y : VarInfo) : Nat :=
  max (levelShift p x.ownedRegionSize) (levelShift p y.ownedRegionSize)

/-- Aligned regions have an address in common exactly when the larger one contains both. -/
theorem separate_iff {x y : VarInfo} {va : Nat → U64} : Separate p x y va ↔
    (safeTestdataPa p (va x.varidx)).toNat / 2 ^ largerShift p x y ≠
      (safeTestdataPa p (va y.varidx)).toNat / 2 ^ largerShift p x y := by
  unfold Separate InOwnedPhys largerShift
  simp only [inSameRegion_iff]
  constructor
  · intro h heq
    rcases le_total (levelShift p x.ownedRegionSize) (levelShift p y.ownedRegionSize) with hle | hle
    · rw [max_eq_right hle] at heq
      exact h _ ⟨rfl, heq.symm⟩
    · rw [max_eq_left hle] at heq
      exact h _ ⟨heq, rfl⟩
  · rintro h b ⟨hx, hy⟩
    apply h
    rw [Mask.div_eq_of_div_eq (le_max_left _ _) hx, Mask.div_eq_of_div_eq (le_max_right _ _) hy]

section Separation

variable {σ : Type} {rand : σ → U64 × σ} {infos : List VarInfo} {st₁ : ConcretizationSt} {va : Nat → U64}

/-- The physical address of an index, identity-mapped or not. -/
theorem safeTestdataPa_vaFromRegionIdx {v : VarInfo} {idx : RegionIdx} (hix : idx.regIx.toNat < 16)
    (hoffs : idx.regOffs.toNat < 2 ^ 23) :
    InPhys p (safeTestdataPa p (vaFromRegionIdx p v idx)) idx.regIx.toNat idx.regOffs.toNat := by
  cases hid : v.isIdentityMapped with
  | true =>
    have := @vaFromRegionIdx_phys p v idx hid hix hoffs
    rw [safeTestdataPa_phys this]
    exact this
  | false => exact safeTestdataPa_window p (vaFromRegionIdx_window hid hix hoffs)

/-- Validated variables of one kind are physically separate, when they are in the windows. -/
theorem separate_of_validated {x y : VarInfo} {xi yi : RegionIdx} (hval : Validated p infos va)
    (hwrap : NoWrap infos va) (hx : x ∈ infos) (hy : y ∈ infos) (hne : y.varidx ≠ x.varidx)
    (hxo : x.ownsRegion = true) (hyo : y.ownsRegion = true) (hid : x.isIdentityMapped = y.isIdentityMapped)
    (hxva : va x.varidx = vaFromRegionIdx p x xi) (hyva : va y.varidx = vaFromRegionIdx p y yi)
    (hxix : xi.regIx.toNat < 16) (hyix : yi.regIx.toNat < 16) (hxlt : xi.regOffs.toNat < 2 ^ 23)
    (hylt : yi.regOffs.toNat < 2 ^ 23) (hpmd : largerShift p x y ≤ 21) : Separate p x y va := by
  -- no region of the larger size has both virtual addresses
  have hvirt : (va x.varidx).toNat / 2 ^ largerShift p x y ≠ (va y.varidx).toNat / 2 ^ largerShift p x y := by
    have h1 := not_sameRegion_of_validated hval hwrap hx hy hne hxo hyo
    have h2 := not_sameRegion_of_validated hval hwrap hy hx hne.symm hyo hxo
    rw [← Bool.not_eq_true, inSameRegion_iff] at h1 h2
    unfold largerShift
    rcases le_total (levelShift p x.ownedRegionSize) (levelShift p y.ownedRegionSize) with hle | hle
    · rw [max_eq_right hle]
      exact fun h => h2 h.symm
    · rw [max_eq_left hle]
      exact h1
  rw [separate_iff]
  intro heq
  apply hvirt
  rw [hxva, hyva] at heq ⊢
  rw [(safeTestdataPa_vaFromRegionIdx hxix hxlt).div_eq_iff (safeTestdataPa_vaFromRegionIdx hyix hylt) hpmd] at heq
  cases hxid : x.isIdentityMapped <;> rw [hxid] at hid
  · exact ((vaFromRegionIdx_window hxid hxix hxlt).div_eq_iff (vaFromRegionIdx_window hid.symm hyix hylt) hpmd).mpr heq
  · exact ((vaFromRegionIdx_phys hxid hxix hxlt).div_eq_iff (vaFromRegionIdx_phys hid.symm hyix hylt) hpmd).mpr heq

/-! ## Staying in the windows -/

/-- No variable takes the address bits above a window from another: none is offset at the level of a PGD, and none at
the level of a PUD from an identity-mapped variable. -/
def WindowOffsets (infos : List VarInfo) : Prop :=
  ∀ v ∈ infos, ∀ o, v.initAttrs.regionOffset = some o → o.offsetLevel ≠ .pgd ∧
    (o.offsetLevel = .pud → ∀ w, infos[o.offsetVar]? = some w → w.isIdentityMapped = false)

/-- Then every selected address is in its window, by induction along the chain of its offsets. -/
theorem Attempt.va_window (h : Attempt rand p infos st₁ va) (hok : InfosOk infos) (hwin : WindowOffsets infos)
    {v : VarInfo} (hv : v ∈ infos) : ∃ idx, va v.varidx = vaFromRegionIdx p v idx ∧ idx.regIx.toNat < 16 ∧
      idx.regOffs.toNat < 2 ^ 23 := by
  have hacc := h.acc v hv
  generalize hi : v.varidx = i at hacc
  induction hacc generalizing v with
  | intro i _ ih =>
    obtain ⟨idx, hva, hnone, hsome⟩ := h.va_idx hv
    have hdrawn := h.drawn hok hv
    have hix := hdrawn.regIx
    have hoffs := hdrawn.regOffs
    subst hi
    refine ⟨idx, hva, ?_⟩
    cases ho : v.initAttrs.regionOffset with
    | none =>
      rw [hnone ho]
      exact ⟨by omega, hoffs⟩
    | some o =>
      rw [hsome o ho]
      refine ⟨show (st₁ v.varidx).partialVa.regIx.toNat < 16 by omega, ?_⟩
      obtain ⟨hpgd, hpud⟩ := hwin v hv o ho
      by_cases hlvl : o.offsetLevel = .pud
      · -- the low 30 bits of a window address are its offset in the window
        obtain ⟨w, hw, hwo⟩ := hok.exists_at ((hok.refs v hv).offsetVar o ho)
        obtain ⟨wi, hwva, hwix, hwlt⟩ := ih o.offsetVar ⟨v, hok.getElem?_varidx hv, o.offsetLevel, ho⟩ hw hwo
        have hwid := hpud hlvl w (hwo ▸ hok.getElem?_varidx hw)
        obtain ⟨-, -, hnat⟩ := @vaFromRegionIdx_window p w wi hwid hwix hwlt
        rw [toNat_offsetRegionIdx, hlvl, hwva, hnat]
        simp only [levelShift]
        omega
      · have hle := levelShift_le_pmd p hlvl hpgd
        have := @offsetRegionIdx_div p _ _ hle (st₁ v.varidx).partialVa (va o.offsetVar)
        omega

/-! ## The result -/

/-- **When heap variables are separate in physical memory.** It is enough that both or neither are identity-mapped, and
that no offset leaves the windows. If the offsets of the two are no coarser than the larger of their sizes, they are
separate exactly when both or neither are identity-mapped or the indices drawn for them are apart. -/
theorem owned_separate_iff {cfg : LitmusTest} {sys sys' : InitSystemState}
    (hread : readVarInfos cfg sys = .ok (sys', infos)) {x y : VarInfo} (hx : x ∈ infos) (hy : y ∈ infos)
    (hne : y.varidx ≠ x.varidx) {xback yback : Backing} {xown yown : OwnLevel} (hxty : x.ty = .heap xback xown)
    (hyty : y.ty = .heap yback yown) (hpmd : largerShift p x y ≤ 21) {n : Nat} {st : ConcretizationSt} {s s' : σ}
    (hrun : concretizeRandomOne rand p infos n st s = .ok (va, s')) :
    (WindowOffsets infos → x.isIdentityMapped = y.isIdentityMapped → Separate p x y va) ∧
    ∃ st₁, Attempt rand p infos st₁ va ∧
      (FineOffset p x (largerShift p x y) → FineOffset p y (largerShift p x y) →
        (Separate p x y va ↔ x.isIdentityMapped = y.isIdentityMapped ∨
          (st₁ x.varidx).partialVa.regIx ≠ (st₁ y.varidx).partialVa.regIx ∨
          (st₁ x.varidx).partialVa.regOffs.toNat / 2 ^ largerShift p x y ≠
            (st₁ y.varidx).partialVa.regOffs.toNat / 2 ^ largerShift p x y)) := by
  have hok := readVarInfos_ok hread
  obtain ⟨⟨st₁, h⟩, hval⟩ := concretizeRandomOne_ok hok n st s hrun
  have hwrap := h.noWrap hok
  have hxo := (VarInfo.ownsRegion_heap hxty).1
  have hyo := (VarInfo.ownsRegion_heap hyty).1
  refine ⟨fun hwin hid => ?_, st₁, h, fun hxfine hyfine => ?_⟩
  · obtain ⟨xi, hxva, hxix, hxlt⟩ := h.va_window hok hwin hx
    obtain ⟨yi, hyva, hyix, hylt⟩ := h.va_window hok hwin hy
    exact separate_of_validated hval hwrap hx hy hne hxo hyo hid hxva hyva hxix hyix hxlt hylt hpmd
  · obtain ⟨xi, hxva, hxix, hxlt, hxdiv⟩ := h.va_fine hok hx hxfine hpmd
    obtain ⟨yi, hyva, hyix, hylt, hydiv⟩ := h.va_fine hok hy hyfine hpmd
    have hx15 := (h.drawn hok hx).regIx
    have hy15 := (h.drawn hok hy).regIx
    have hx16 : xi.regIx.toNat < 16 := by
      rw [hxix]
      omega
    have hy16 : yi.regIx.toNat < 16 := by
      rw [hyix]
      omega
    by_cases hid : x.isIdentityMapped = y.isIdentityMapped
    · exact iff_of_true (separate_of_validated hval hwrap hx hy hne hxo hyo hid hxva hyva hx16 hy16 hxlt hylt hpmd)
        (.inl hid)
    · have hphys := (@safeTestdataPa_vaFromRegionIdx p x xi hx16 hxlt).div_eq_iff
        (@safeTestdataPa_vaFromRegionIdx p y yi hy16 hylt) hpmd
      rw [separate_iff, hxva, hyva, ne_eq, hphys, hxdiv, hydiv, hxix, hyix, BitVec.toNat_inj]
      simp only [hid, false_or]
      exact not_and_or

end Separation

/-- An identity-mapped variable and another. -/
def idmapPairTest : LitmusTest where
  name := "idmap+pair"
  heapVarNames := ["x", "y"]
  initStates := [.heap "x" 0, .identityMap "x", .heap "y" 0]

/-- What is read of it. -/
def idmapPairInfos : List VarInfo :=
  [{ varidx := 0, name := "x", ty := .heap { val := 0, isIdentityMapped := true } .page },
   { varidx := 1, name := "y", ty := .heap { val := 0, isIdentityMapped := false } .page,
     initAttrs := { regionOffset := some ⟨0, .page⟩ } }]

/-- The seed 32 selects two addresses of one physical byte. -/
theorem idmapPair_notSeparate :
    readVarInfos idmapPairTest {} = .ok ({}, idmapPairInfos) ∧
    ∃ va s', concretizeRandomOne randn exampleTestdata idmapPairInfos 1 (fun _ => {}) 32 = .ok (va, s') ∧
      InOwnedPhys exampleTestdata (idmapPairInfos.getD 0 default) (va 0) 0x4a800080 ∧
      InOwnedPhys exampleTestdata (idmapPairInfos.getD 1 default) (va 1) 0x4a800080 :=
  ⟨rfl, _, _, rfl, by unfold InOwnedPhys; decide +kernel, by unfold InOwnedPhys; decide +kernel⟩

theorem owned_separate_iff_idmapPair :
    ∃ va s', concretizeRandomOne randn exampleTestdata idmapPairInfos 1 (fun _ => {}) 32 = .ok (va, s') ∧
    (WindowOffsets idmapPairInfos → true = false → Separate exampleTestdata (idmapPairInfos.getD 0 default)
      (idmapPairInfos.getD 1 default) va) ∧
    ∃ st₁, Attempt randn exampleTestdata idmapPairInfos st₁ va ∧
      (FineOffset exampleTestdata (idmapPairInfos.getD 0 default) 12 →
        FineOffset exampleTestdata (idmapPairInfos.getD 1 default) 12 →
        (Separate exampleTestdata (idmapPairInfos.getD 0 default) (idmapPairInfos.getD 1 default) va ↔ true = false ∨
          (st₁ 0).partialVa.regIx ≠ (st₁ 1).partialVa.regIx ∨
          (st₁ 0).partialVa.regOffs.toNat / 2 ^ 12 ≠ (st₁ 1).partialVa.regOffs.toNat / 2 ^ 12)) := by
  obtain ⟨va, s', hrun⟩ : ∃ va s', concretizeRandomOne randn exampleTestdata idmapPairInfos 1 (fun _ => {}) 32 =
      .ok (va, s') := ⟨_, _, rfl⟩
  exact ⟨va, s', hrun, @owned_separate_iff exampleTestdata _ _ idmapPairInfos va idmapPairTest {} {} rfl
    (idmapPairInfos.getD 0 default) (idmapPairInfos.getD 1 default) (by decide) (by decide) (by decide) _ _ .page .page
    rfl rfl (by decide) 1 (fun _ => {}) 32 s' hrun⟩

end LitmusHarness
