import LitmusHarness.Concretization.Checker
import LitmusHarness.Concretization.Selection

/-!
# Where the selected variables are

An index is turned into an address of its window, or of its region in physical memory for an identity-mapped variable
(`vaFromRegionIdx_window`, `vaFromRegionIdx_phys`). Within a region of at most 2 MiB both are the offset of the index
(`InWindow.div_eq_iff`, `InPhys.div_eq_iff`). An offset from another variable changes the low bits of the index only
(`toNat_offsetRegionIdx`), and no selected address is near the end of the address space (`Attempt.noWrap`).
-/

namespace LitmusHarness

variable {p : Platform}

/-! ## Indices with an offset -/

theorem toNat_offsetRegionIdx (p : Platform) (idx : RegionIdx) (lvl : RelOffset) (otherva : U64) :
    (offsetRegionIdx p idx lvl otherva).regOffs.toNat =
      idx.regOffs.toNat / 2 ^ levelShift p lvl * 2 ^ levelShift p lvl + otherva.toNat % 2 ^ levelShift p lvl :=
  Mask.toNat_splice _ _ (lt_of_le_of_lt (levelShift_le p lvl) (by decide))

/-- An offset at a finer level leaves the region. -/
theorem offsetRegionIdx_div {lvl : RelOffset} {n : Nat} (h : levelShift p lvl ≤ n) (idx : RegionIdx) (otherva : U64) :
    (offsetRegionIdx p idx lvl otherva).regOffs.toNat / 2 ^ n = idx.regOffs.toNat / 2 ^ n := by
  apply Mask.div_eq_of_div_eq h
  rw [toNat_offsetRegionIdx, Nat.mul_comm, Nat.mul_add_div (by positivity),
    Nat.div_eq_of_lt (Nat.mod_lt _ (by positivity)), Nat.add_zero]

theorem offsetRegionIdx_lt {idx : RegionIdx} (h : idx.regOffs.toNat < 2 ^ 23) (lvl : RelOffset) (otherva : U64) :
    (offsetRegionIdx p idx lvl otherva).regOffs.toNat < 2 ^ 23 + 2 ^ 39 := by
  rw [toNat_offsetRegionIdx]
  have h1 := Nat.div_mul_le_self idx.regOffs.toNat (2 ^ levelShift p lvl)
  have h2 : otherva.toNat % 2 ^ levelShift p lvl < 2 ^ levelShift p lvl := Nat.mod_lt _ (by positivity)
  have h3 : 2 ^ levelShift p lvl ≤ 2 ^ 39 := Nat.pow_le_pow_right (by decide) (levelShift_le p lvl)
  omega

/-! ## Addresses of indices -/

section Addresses

variable {v : VarInfo} {idx : RegionIdx}

/-- The address of an index in its window. -/
theorem toNat_windowVa (hix : idx.regIx.toNat < 16) (hoffs : idx.regOffs.toNat < 2 ^ 40) :
    (testdataMmap8MVaFromIndex idx.regIx + idx.regOffs).toNat =
      2 ^ 37 + idx.regIx.toNat * 2 ^ 32 + idx.regOffs.toNat := by
  rw [testdataMmap8MVaFromIndex, testdataMmapGapShift, BitVec.toNat_add, BitVec.toNat_add, BitVec.toNat_mul,
    testdataMmapBase_toNat, show (1#64 <<< 32).toNat = 2 ^ 32 from rfl]
  omega

theorem vaFromRegionIdx_window (hid : v.isIdentityMapped = false) (hix : idx.regIx.toNat < 16)
    (hoffs : idx.regOffs.toNat < 2 ^ 23) :
    InWindow (vaFromRegionIdx p v idx) idx.regIx.toNat idx.regOffs.toNat := by
  refine ⟨hix, hoffs, ?_⟩
  rw [vaFromRegionIdx, hid]
  exact toNat_windowVa hix (by omega)

theorem vaFromRegionIdx_phys (hid : v.isIdentityMapped = true) (hix : idx.regIx.toNat < 16)
    (hoffs : idx.regOffs.toNat < 2 ^ 23) :
    InPhys p (vaFromRegionIdx p v idx) idx.regIx.toNat idx.regOffs.toNat := by
  rw [vaFromRegionIdx, hid]
  exact virtToPhys_window p ⟨hix, hoffs, toNat_windowVa hix (by omega)⟩

theorem toNat_vaFromRegionIdx_lt (hix : idx.regIx.toNat < 16) (hoffs : idx.regOffs.toNat < 2 ^ 23 + 2 ^ 39) :
    (vaFromRegionIdx p v idx).toNat < 2 ^ 40 := by
  have hva := toNat_windowVa hix (show idx.regOffs.toNat < 2 ^ 40 by omega)
  have hfit := p.fits
  rw [vaFromRegionIdx]
  split
  · have hsub : (testdataMmap8MVaFromIndex idx.regIx + idx.regOffs - testdataMmapBase).toNat =
        idx.regIx.toNat * 2 ^ 32 + idx.regOffs.toNat := by
      rw [BitVec.toNat_sub, hva, testdataMmapBase_toNat]
      omega
    have hlt : idx.regIx.toNat * 2 ^ 32 + idx.regOffs.toNat < 2 ^ 40 := by omega
    rw [toNat_virtToPhys, hsub]
    generalize idx.regIx.toNat * 2 ^ 32 + idx.regOffs.toNat = x at hlt
    have hdiv : x / 2 ^ 32 < 2 ^ 8 := Nat.div_lt_of_lt_mul hlt
    have hmod : x % 2 ^ 23 < 2 ^ 23 := Nat.mod_lt _ (by decide)
    rw [Nat.mod_eq_of_lt (by omega)]
    omega
  · omega

/-- Two window addresses are in the same region of at most 2 MiB when the window is the same and the offsets are. -/
theorem InWindow.div_eq_iff {va wa : U64} {i i' o o' n : Nat} (hv : InWindow va i o) (hw : InWindow wa i' o')
    (hn : n ≤ 21) : va.toNat / 2 ^ n = wa.toNat / 2 ^ n ↔ i = i' ∧ o / 2 ^ n = o' / 2 ^ n := by
  obtain ⟨-, ho, hva⟩ := hv
  obtain ⟨-, ho', hwa⟩ := hw
  rw [hva, hwa]
  exact Mask.slot_div_eq_iff (by omega) (Nat.pow_dvd_pow 2 (by omega)) (by omega) (by omega)

/-- So are two physical addresses of the test data. -/
theorem InPhys.div_eq_iff {va wa : U64} {i i' o o' n : Nat} (hv : InPhys p va i o) (hw : InPhys p wa i' o')
    (hn : n ≤ 21) : va.toNat / 2 ^ n = wa.toNat / 2 ^ n ↔ i = i' ∧ o / 2 ^ n = o' / 2 ^ n := by
  have hbot : 2 ^ n ∣ p.botOfTestdata.toNat := (Nat.pow_dvd_pow 2 hn).trans (Nat.dvd_of_mod_eq_zero p.aligned)
  obtain ⟨-, ho, hva⟩ := hv
  obtain ⟨-, ho', hwa⟩ := hw
  rw [hva, hwa]
  exact Mask.slot_div_eq_iff (by omega) hbot ho ho'

/-- No region of at most 2 MiB has a window address and a physical one. -/
theorem InWindow.div_ne_phys {va pa : U64} {i o i' o' n : Nat} (hv : InWindow va i o) (hw : InPhys p pa i' o')
    (hn : n ≤ 21) : va.toNat / 2 ^ n ≠ pa.toNat / 2 ^ n := by
  intro heq
  have := Mask.div_eq_of_div_eq hn heq
  obtain ⟨hi, ho, hva⟩ := hv
  obtain ⟨hi', ho', hpa⟩ := hw
  have := p.fits
  have := p.aligned
  omega

end Addresses

/-! ## The selected addresses -/

section Selected

variable {σ : Type} {rand : σ → U64 × σ} {infos : List VarInfo} {st₁ : ConcretizationSt} {va : Nat → U64} {v : VarInfo}

/-- Every variable, owning or pinned, is drawn in the windows. -/
theorem Attempt.drawn (h : Attempt rand p infos st₁ va) (hok : InfosOk infos) (hv : v ∈ infos) :
    Drawn (st₁ v.varidx).partialVa := by
  rcases h.hasRegion v hv with hvo | ⟨root, hroot, hro, back, lvl, hty, hlvl⟩
  · exact (h.regions.owner v hv hvo).drawn
  · have hown := h.regions.owner root hroot hro
    have hne : v.varidx ≠ root.varidx := by
      intro heq
      rw [← hok.eq_of_varidx hv hroot heq] at hro
      simp [VarInfo.ownsRegion, hty] at hro
    obtain ⟨-, hpin⟩ := hown.pins (lvl, v) (mem_pinsOf.mpr ⟨hv, hne, hlvl, back, hty⟩)
    exact ⟨hpin.regIx ▸ hown.drawn.regIx, hpin.regOffs, hpin.aligned⟩

/-- The address of a variable is that of its drawn index, with the offset that it asks for. -/
theorem Attempt.va_idx (h : Attempt rand p infos st₁ va) (hv : v ∈ infos) :
    ∃ idx, va v.varidx = vaFromRegionIdx p v idx ∧
      (v.initAttrs.regionOffset = none → idx = (st₁ v.varidx).partialVa) ∧
      ∀ o, v.initAttrs.regionOffset = some o →
        idx = offsetRegionIdx p (st₁ v.varidx).partialVa o.offsetLevel (va o.offsetVar) := by
  obtain ⟨hva, hnone, hsome⟩ := h.resolved v hv
  refine ⟨_, ?_, hnone, fun o ho => ?_⟩
  · rw [h.va_eq]
    exact hva
  · rw [h.va_eq]
    exact (hsome o ho).2

/-- The window of the index is the one drawn. -/
theorem Attempt.va_idx_lt (h : Attempt rand p infos st₁ va) (hok : InfosOk infos) (hv : v ∈ infos) :
    ∃ idx, va v.varidx = vaFromRegionIdx p v idx ∧ idx.regIx = (st₁ v.varidx).partialVa.regIx ∧
      idx.regOffs.toNat < 2 ^ 23 + 2 ^ 39 := by
  obtain ⟨idx, hva, hnone, hsome⟩ := h.va_idx hv
  have hdrawn := h.drawn hok hv
  refine ⟨idx, hva, ?_⟩
  cases ho : v.initAttrs.regionOffset with
  | none =>
    rw [hnone ho]
    have := hdrawn.regOffs
    exact ⟨rfl, by omega⟩
  | some o =>
    rw [hsome o ho]
    exact ⟨rfl, offsetRegionIdx_lt hdrawn.regOffs _ _⟩

/-- **The selected addresses are far from the end of the address space.** -/
theorem Attempt.noWrap (h : Attempt rand p infos st₁ va) (hok : InfosOk infos) : NoWrap infos va := by
  intro v hv
  obtain ⟨idx, hva, hix, hoffs⟩ := h.va_idx_lt hok hv
  have hdrawn := (h.drawn hok hv).regIx
  have := @toNat_vaFromRegionIdx_lt p v idx (by rw [hix]; omega) hoffs
  rw [hva]
  omega

/-- The offset of `v`, if there is one, is of at most `n` bits. -/
def FineOffset (p : Platform) (v : VarInfo) (n : Nat) : Prop :=
  ∀ o, v.initAttrs.regionOffset = some o → levelShift p o.offsetLevel ≤ n

/-- Below 2 MiB: the level of a cache line, a page or a PMD. -/
theorem levelShift_le_pmd (p : Platform) {lvl : Region} (h1 : lvl ≠ .pud) (h2 : lvl ≠ .pgd) : levelShift p lvl ≤ 21 := by
  have := p.dminline.isLt
  cases lvl <;> simp only [levelShift] <;> first | omega | contradiction

/-- A fine offset leaves a variable in the region of its drawn index. -/
theorem Attempt.va_fine {n : Nat} {v : VarInfo} (h : Attempt rand p infos st₁ va) (hok : InfosOk infos)
    (hv : v ∈ infos) (hfine : FineOffset p v n) (hn : n ≤ 21) :
    ∃ idx, va v.varidx = vaFromRegionIdx p v idx ∧ idx.regIx = (st₁ v.varidx).partialVa.regIx ∧
      idx.regOffs.toNat < 2 ^ 23 ∧
      idx.regOffs.toNat / 2 ^ n = (st₁ v.varidx).partialVa.regOffs.toNat / 2 ^ n := by
  obtain ⟨idx, hva, hnone, hsome⟩ := h.va_idx hv
  have hdrawn := (h.drawn hok hv).regOffs
  refine ⟨idx, hva, ?_⟩
  cases ho : v.initAttrs.regionOffset with
  | none =>
    rw [hnone ho]
    exact ⟨rfl, hdrawn, rfl⟩
  | some o =>
    rw [hsome o ho]
    have hdiv := @offsetRegionIdx_div p _ _ ((hfine o ho).trans hn) (st₁ v.varidx).partialVa (va o.offsetVar)
    exact ⟨rfl, by omega, offsetRegionIdx_div (hfine o ho) _ _⟩

end Selected

end LitmusHarness
