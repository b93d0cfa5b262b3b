import LitmusHarness.Concretization.Placement

/-!
# Are pins honoured?

A pinned variable is drawn relative to the index of its root, before the offsets move both (`PinDrawn`). If no offset is
coarser than the level of the pin, the addresses are in one region of that level exactly when root and pinned variable
agree in being identity-mapped and the draw did not pass the end of the root's region (`pin_honoured_iff`).
-/

namespace LitmusHarness

section Pin

variable {σ : Type} {rand : σ → U64 × σ} {p : Platform} {infos : List VarInfo} {st₁ : ConcretizationSt} {va : Nat → U64}

/-- The root of a pinned variable, and the draw relative to it. -/
theorem Attempt.pinDrawn {z root : VarInfo} {back : Backing} {r : Nat} {lvl : PinLevel}
    (h : Attempt rand p infos st₁ va) (hok : InfosOk infos) (hz : z ∈ infos) (hty : z.ty = .pinned back r lvl)
    (hr : infos[r]? = some root) :
    lvl ≠ .pgd ∧ PinDrawn p (st₁ r).partialVa lvl (st₁ z.varidx).partialVa := by
  rcases h.hasRegion z hz with hzo | ⟨root', hroot, hro, back', lvl', hty', hlvl⟩
  · simp [VarInfo.ownsRegion, hty] at hzo
  · rw [hty, VarType.pinned.injEq] at hty'
    obtain ⟨-, rfl, rfl⟩ := hty'
    have hne : z.varidx ≠ root'.varidx := by
      intro heq
      rw [← hok.eq_of_varidx hz hroot heq] at hro
      simp [VarInfo.ownsRegion, hty] at hro
    exact ⟨hlvl, ((h.regions.owner root' hroot hro).pins (lvl, z) (mem_pinsOf.mpr ⟨hz, hne, hlvl, back, hty⟩)).2⟩

/-- **When a pin is honoured.** The variable `z` is pinned to `root`, and neither has an offset coarser than the level
of the pin. Then the selected addresses are in one region of that level exactly when both or neither are
identity-mapped and the draw for `z` is below the end of the region of `root`'s. -/
theorem pin_honoured_iff {cfg : LitmusTest} {sys sys' : InitSystemState} (hread : readVarInfos cfg sys = .ok (sys', infos))
    {z root : VarInfo} {back : Backing} {r : Nat} {lvl : PinLevel} (hz : z ∈ infos) (hty : z.ty = .pinned back r lvl)
    (hr : infos[r]? = some root) (hpud : lvl ≠ .pud) {n : Nat} {st : ConcretizationSt} {s s' : σ}
    (hrun : concretizeRandomOne rand p infos n st s = .ok (va, s')) :
    ∃ st₁, Attempt rand p infos st₁ va ∧ (FineOffset p z (levelShift p lvl) → FineOffset p root (levelShift p lvl) →
      (inSameRegion p (va z.varidx) (va r) lvl = true ↔
        z.isIdentityMapped = root.isIdentityMapped ∧
        (st₁ z.varidx).partialVa.regOffs.toNat <
          ((st₁ r).partialVa.regOffs.toNat / 2 ^ levelShift p lvl + 1) * 2 ^ levelShift p lvl)) := by
  have hok := readVarInfos_ok hread
  obtain ⟨⟨st₁, h⟩, -⟩ := concretizeRandomOne_ok hok n st s hrun
  refine ⟨st₁, h, fun hzfine hrfine => ?_⟩
  have hroot := List.mem_of_getElem? hr
  obtain rfl := hok.varidx r root hr
  obtain ⟨hpgd, hix, hge, -, -⟩ := h.pinDrawn hok hz hty hr
  have hlvl := levelShift_le_pmd p hpud hpgd
  obtain ⟨zi, hzva, hzix, hzlt, hzdiv⟩ := h.va_fine hok hz hzfine hlvl
  obtain ⟨ri, hrva, hrix, hrlt, hrdiv⟩ := h.va_fine hok hroot hrfine hlvl
  have hz16 : zi.regIx.toNat < 16 := by
    have := (h.drawn hok hz).regIx
    rw [hzix]
    omega
  have hri : ri.regIx = zi.regIx := by rw [hrix, hzix, hix]
  -- the draw is in the root's region unless it passed the end
  have hend : zi.regOffs.toNat / 2 ^ levelShift p lvl = ri.regOffs.toNat / 2 ^ levelShift p lvl ↔
      (st₁ z.varidx).partialVa.regOffs.toNat <
        ((st₁ root.varidx).partialVa.regOffs.toNat / 2 ^ levelShift p lvl + 1) * 2 ^ levelShift p lvl := by
    rw [hzdiv, hrdiv, ← Nat.div_lt_iff_lt_mul (by positivity)]
    omega
  rw [inSameRegion_iff, hzva, hrva, ← hend]
  cases hzid : z.isIdentityMapped <;> cases hrid : root.isIdentityMapped
  · have hw := @vaFromRegionIdx_window p _ _ hrid (hri ▸ hz16) hrlt
    rw [(vaFromRegionIdx_window hzid hz16 hzlt).div_eq_iff hw hlvl]
    simp [hri]
  · have hw := @vaFromRegionIdx_phys p _ _ hrid (hri ▸ hz16) hrlt
    exact iff_of_false ((vaFromRegionIdx_window hzid hz16 hzlt).div_ne_phys hw hlvl) (by simp)
  · have hw := @vaFromRegionIdx_window p _ _ hrid (hri ▸ hz16) hrlt
    exact iff_of_false (hw.div_ne_phys (vaFromRegionIdx_phys hzid hz16 hzlt) hlvl).symm (by simp)
  · have hw := @vaFromRegionIdx_phys p _ _ hrid (hri ▸ hz16) hrlt
    rw [(vaFromRegionIdx_phys hzid hz16 hzlt).div_eq_iff hw hlvl]
    simp [hri]

end Pin

/-- The seed 783356 draws `x` at the last 16 bytes of a page and `z`, pinned to that page, at the start of the next. -/
theorem pinnedPage_notHonoured :
    readVarInfos pinnedPageTest {} = .ok ({}, pinnedPageInfos) ∧
    ∃ va s', concretizeRandomOne randn exampleTestdata pinnedPageInfos 1 (fun _ => {}) 783356 = .ok (va, s') ∧
      inSameRegion exampleTestdata (va 1) (va 0) .page = false :=
  ⟨rfl, _, _, rfl, by decide +kernel⟩

theorem pin_honoured_iff_pinnedPage :
    ∃ va s', concretizeRandomOne randn exampleTestdata pinnedPageInfos 1 (fun _ => {}) 783356 = .ok (va, s') ∧
    ∃ st₁, Attempt randn exampleTestdata pinnedPageInfos st₁ va ∧
      (FineOffset exampleTestdata (pinnedPageInfos.getD 1 default) 12 →
        FineOffset exampleTestdata (pinnedPageInfos.getD 0 default) 12 →
      (inSameRegion exampleTestdata (va 1) (va 0) .page = true ↔
        (pinnedPageInfos.getD 1 default).isIdentityMapped = (pinnedPageInfos.getD 0 default).isIdentityMapped ∧
        (st₁ 1).partialVa.regOffs.toNat < ((st₁ 0).partialVa.regOffs.toNat / 2 ^ 12 + 1) * 2 ^ 12)) :=
  by
    obtain ⟨va, s', hrun⟩ : ∃ va s', concretizeRandomOne randn exampleTestdata pinnedPageInfos 1 (fun _ => {}) 783356 =
        .ok (va, s') := ⟨_, _, rfl⟩
    exact ⟨va, s', hrun, @pin_honoured_iff _ _ _ pinnedPageInfos va pinnedPageTest {} {} rfl
      (pinnedPageInfos.getD 1 default) (pinnedPageInfos.getD 0 default) _ 0 .page (by decide) rfl rfl (by decide)
      1 (fun _ => {}) 783356 s' hrun⟩

end LitmusHarness
