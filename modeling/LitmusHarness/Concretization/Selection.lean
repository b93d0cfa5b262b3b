import LitmusHarness.Concretization.Accepted
import LitmusHarness.Concretization.Random
import Mathlib.Data.Finset.Card
import Mathlib.Data.Finset.Range

/-!
# One attempt of the random selection

- the draws: `randIdx` stays between its bounds (`randIdx_ok`), so an owning variable is drawn in the windows (`Drawn`)
  and a pinned one from the start of the aligned region of its root on (`PinDrawn`);
- the regions: `pickAllRegions` does not fail, picks every owning variable with those pinned to it, and no other
  (`pickAllRegions_ok`);
- the offsets: a variable is picked in the fixpoint loop exactly when its chain of offsets ends, and its address is then
  the one its offset asks for (`pickOffsets_resolved`, `pickOffsets_picked_iff`);
- the run: what `concretizeRandomOne` returns is the validated result of an attempt (`concretizeRandomOne_ok`).
-/

namespace LitmusHarness

/-! ## Draws -/

section Draw

variable {σ : Type} {rand : σ → U64 × σ} {s : σ}

/-- A number between two bounds is drawn below the upper one, unless they are the same. -/
theorem randrange_ok {low high : U64} (h : low.toNat ≤ high.toNat) : ∃ r s', randrange rand low high s = .ok (r, s') ∧
    low.toNat ≤ r.toNat ∧ r.toNat ≤ high.toNat ∧ (low.toNat < high.toNat → r.toNat < high.toNat) := by
  unfold randrange
  by_cases heq : low = high
  · subst heq
    exact ⟨low, (rand s).2, by simp, le_refl _, le_refl _, fun h => absurd h (lt_irrefl _)⟩
  · have hne : low.toNat ≠ high.toNat := fun h => heq (BitVec.eq_of_toNat_eq h)
    have hlt : ¬high < low := by
      rw [BitVec.lt_def]
      omega
    have hhigh := high.isLt
    have hsub : (high - low).toNat = high.toNat - low.toNat := BitVec.toNat_sub_of_le (by rw [BitVec.le_def]; exact h)
    have hmod : (rand s).1.toNat % (high.toNat - low.toNat) < high.toNat - low.toNat := Nat.mod_lt _ (by omega)
    have hval : (low + (rand s).1 % (high - low)).toNat = low.toNat + (rand s).1.toNat % (high.toNat - low.toNat) := by
      rw [BitVec.toNat_add, BitVec.toNat_umod, hsub]
      exact Nat.mod_eq_of_lt (by omega)
    refine ⟨low + (rand s).1 % (high - low), (rand s).2, ?_, ?_, ?_, fun _ => ?_⟩
    · simp [heq, hlt]
    all_goals rw [hval]; omega

theorem toNat_min64 (a b : U64) : (min64 a b).toNat = min a.toNat b.toNat := by
  unfold min64
  split <;> rename_i h <;> rw [BitVec.lt_def] at h <;> omega

theorem toNat_regionSize : regionSize.toNat = 2 ^ 23 := rfl

/-- An index is drawn between its bounds, at a multiple of 16 bytes. -/
theorem randIdx_ok {start last : RegionIdx} (hreg : start.regIx.toNat ≤ last.regIx.toNat)
    (hoffs : start.regOffs.toNat ≤ min last.regOffs.toNat (2 ^ 23)) : ∃ idx s', randIdx rand start last s = .ok (idx, s') ∧
    start.regIx.toNat ≤ idx.regIx.toNat ∧ idx.regIx.toNat ≤ last.regIx.toNat ∧
    (start.regIx.toNat < last.regIx.toNat → idx.regIx.toNat < last.regIx.toNat) ∧
    start.regOffs.toNat / 16 * 16 ≤ idx.regOffs.toNat ∧ idx.regOffs.toNat ≤ min last.regOffs.toNat (2 ^ 23) ∧
    (start.regOffs.toNat < 2 ^ 23 → idx.regOffs.toNat < 2 ^ 23) ∧ idx.regOffs.toNat % 16 = 0 := by
  obtain ⟨reg, s₁, hr, hr1, hr2, hr3⟩ := @randrange_ok σ rand s _ _ hreg
  obtain ⟨offs, s₂, ho, ho1, ho2, ho3⟩ := @randrange_ok σ rand s₁ start.regOffs (min64 last.regOffs regionSize)
    (by rw [toNat_min64, toNat_regionSize]; exact hoffs)
  rw [toNat_min64, toNat_regionSize] at ho2 ho3
  refine ⟨⟨reg, alignTo offs 4⟩, s₂, by simp [randIdx, hr, ho], hr1, hr2, hr3, ?_⟩
  rw [toNat_alignTo _ (by decide)]
  omega

end Draw

/-- The index of an owning variable: in the windows, but for the last. -/
structure Drawn (idx : RegionIdx) : Prop where
  regIx : idx.regIx.toNat < 15
  regOffs : idx.regOffs.toNat < 2 ^ 23
  aligned : idx.regOffs.toNat % 16 = 0

/-- The index of a variable pinned to `root`: in the same window, from the start of the aligned region on. The draw can
be past the end of that region. -/
structure PinDrawn (p : Platform) (root : RegionIdx) (lvl : PinLevel) (idx : RegionIdx) : Prop where
  regIx : idx.regIx = root.regIx
  ge : root.regOffs.toNat / 2 ^ levelShift p lvl ≤ idx.regOffs.toNat / 2 ^ levelShift p lvl
  regOffs : idx.regOffs.toNat < 2 ^ 23
  aligned : idx.regOffs.toNat % 16 = 0

theorem toNat_alignUpTo_ge {a b : U64} (ha : a.toNat < 2 ^ 23) (hb : 0 < b.toNat) (hb' : b.toNat < 2 ^ 23) :
    a.toNat ≤ (alignUpTo a b).toNat := by
  unfold alignUpTo
  split
  · exact le_refl _
  · have hmod : ((-a) % b).toNat < b.toNat := by
      rw [BitVec.toNat_umod]
      exact Nat.mod_lt _ hb
    rw [BitVec.toNat_add, BitVec.toNat_add]
    omega

/-! ## Regions -/

section Regions

variable {σ : Type} {rand : σ → U64 × σ} {p : Platform} {infos : List VarInfo}

@[simp] theorem setRegion_self (st : ConcretizationSt) (v : Nat) (idx : RegionIdx) :
    setRegion st v idx v = { st v with partialVa := idx, pickedRegion := true } := if_pos rfl

@[simp] theorem setRegion_ne {v w : Nat} (h : w ≠ v) (st : ConcretizationSt) (idx : RegionIdx) :
    setRegion st v idx w = st w := if_neg h

@[simp] theorem setRegion_pickedOffset (st : ConcretizationSt) (v w : Nat) (idx : RegionIdx) :
    (setRegion st v idx w).pickedOffset = (st w).pickedOffset := by
  by_cases h : w = v
  · rw [h, setRegion_self]
  · rw [setRegion_ne h]

/-- Rounding a multiple of 16 down to a power of two leaves a multiple of 16. -/
theorem mod_sixteen_of_aligned {a n : Nat} (h : a % 16 = 0) : a / 2 ^ n * 2 ^ n % 16 = 0 := by
  rcases Nat.lt_or_ge n 4 with hn | hn
  · have hdvd : 2 ^ n ∣ a := (Nat.pow_dvd_pow 2 (show n ≤ 4 by omega)).trans (Nat.dvd_of_mod_eq_zero h)
    rw [Nat.div_mul_cancel hdvd, h]
  · exact Nat.mod_eq_zero_of_dvd ((Nat.pow_dvd_pow 2 hn).trans (Nat.dvd_mul_left _ _))

/-- The draw of a pinned variable. -/
theorem pinIdx_ok {s : σ} {root : RegionIdx} (hroot : Drawn root) (lvl : PinLevel) :
    ∃ idx s', randIdx rand (alignDownRegionIdx p root lvl) (alignUpRegionIdx p root lvl) s = .ok (idx, s') ∧
      PinDrawn p root lvl idx := by
  obtain ⟨hix, hoffs, haligned⟩ := hroot
  have hs := levelShift_le p lvl
  have hspos := levelShift_pos p lvl
  have hshift : (BitVec.ofNat 64 (levelShift p lvl)).toNat = levelShift p lvl := by
    rw [BitVec.toNat_ofNat]
    exact Nat.mod_eq_of_lt (by omega)
  have hup := @toNat_alignUpTo_ge root.regOffs (BitVec.ofNat 64 (levelShift p lvl)) hoffs (by omega) (by omega)
  have hdown : (alignTo root.regOffs (levelShift p lvl)).toNat =
      root.regOffs.toNat / 2 ^ levelShift p lvl * 2 ^ levelShift p lvl := toNat_alignTo _ (by omega)
  have hdle := Nat.div_mul_le_self root.regOffs.toNat (2 ^ levelShift p lvl)
  have hlast : (alignUpRegionIdx p root lvl).regOffs.toNat ≤ 2 ^ 23 ∧
      root.regOffs.toNat ≤ (alignUpRegionIdx p root lvl).regOffs.toNat := by
    rw [alignUpRegionIdx, toNat_min64, toNat_regionSize]
    omega
  obtain ⟨idx, s', hok, h1, h2, -, h4, -, h6, h7⟩ := @randIdx_ok σ rand s (alignDownRegionIdx p root lvl)
    (alignUpRegionIdx p root lvl) (le_refl _) (by rw [alignDownRegionIdx, hdown]; omega)
  refine ⟨idx, s', hok, BitVec.eq_of_toNat_eq (le_antisymm h2 h1), ?_, h6 ?_, h7⟩
  · rw [alignDownRegionIdx] at h4
    dsimp only at h4
    rw [hdown] at h4
    have h16 : root.regOffs.toNat / 2 ^ levelShift p lvl * 2 ^ levelShift p lvl % 16 = 0 :=
      mod_sixteen_of_aligned haligned
    exact (Nat.le_div_iff_mul_le (by positivity)).mpr (by omega)
  · rw [alignDownRegionIdx]
    dsimp only
    omega

/-- The variables whose region is picked with that of `v`. -/
theorem mem_pinsOf {v : VarInfo} {pin : PinLevel × VarInfo} : pin ∈ pinsOf infos v ↔
    pin.2 ∈ infos ∧ pin.2.varidx ≠ v.varidx ∧ pin.1 ≠ .pgd ∧ ∃ back, pin.2.ty = .pinned back v.varidx pin.1 := by
  obtain ⟨lvl, z⟩ := pin
  have hlvl : lvl ∈ pinLevels ↔ lvl ≠ .pgd := by cases lvl <;> decide
  simp only [pinsOf, List.mem_flatMap, List.mem_map, countPinnedTo, List.mem_filter, Prod.mk.injEq]
  constructor
  · rintro ⟨l, hl, w, ⟨hw, hcond⟩, rfl, rfl⟩
    split at hcond
    · rename_i back r l' hty
      simp only [Bool.and_eq_true, decide_eq_true_eq, ne_eq] at hcond
      obtain ⟨⟨hne, rfl⟩, rfl⟩ := hcond
      exact ⟨hw, hne, hlvl.mp hl, back, hty⟩
    · cases hcond
  · rintro ⟨hz, hne, hl, back, hty⟩
    refine ⟨lvl, hlvl.mpr hl, z, ⟨hz, ?_⟩, rfl, rfl⟩
    rw [hty]
    simp [hne]

/-- A pinned variable owns no region. -/
theorem not_ownsRegion_of_pinsOf {v : VarInfo} {pin : PinLevel × VarInfo} (h : pin ∈ pinsOf infos v) :
    pin.2.ownsRegion = false := by
  obtain ⟨-, -, -, back, hty⟩ := mem_pinsOf.mp h
  simp [VarInfo.ownsRegion, hty]

/-- The region of `v`, and of the variables pinned to it, is picked. -/
structure RegionPicked (p : Platform) (infos : List VarInfo) (st : ConcretizationSt) (v : VarInfo) : Prop where
  picked : (st v.varidx).pickedRegion = true
  drawn : Drawn (st v.varidx).partialVa
  pins : ∀ pin ∈ pinsOf infos v, (st pin.2.varidx).pickedRegion = true ∧
    PinDrawn p (st v.varidx).partialVa pin.1 (st pin.2.varidx).partialVa

/-- Nothing is changed but the regions of the variables in `S`. -/
structure RegionFrame (S : Nat → Prop) (st st' : ConcretizationSt) : Prop where
  other : ∀ w, ¬S w → st' w = st w
  pickedOffset : ∀ w, (st' w).pickedOffset = (st w).pickedOffset

/-- The indices of the variables pinned to `v`. -/
def PinOf (infos : List VarInfo) (v : VarInfo) (w : Nat) : Prop := ∃ pin ∈ pinsOf infos v, w = pin.2.varidx

theorem RegionFrame.setRegion {S : Nat → Prop} {st st' : ConcretizationSt} (h : RegionFrame S st st') {v : Nat}
    (hv : S v) (idx : RegionIdx) : RegionFrame S st (setRegion st' v idx) where
  other w hw := by
    have hne : w ≠ v := fun h => hw (h ▸ hv)
    rw [setRegion_ne hne]
    exact h.other w hw
  pickedOffset w := by
    rw [setRegion_pickedOffset]
    exact h.pickedOffset w

/-- One pinned variable. -/
theorem pickPinRegion_ok {root : RegionIdx} (hroot : Drawn root) (acc : ConcretizationSt × σ)
    (pin : PinLevel × VarInfo) : ∃ idx s', pickPinRegion rand p root acc pin =
      .ok (setRegion acc.1 pin.2.varidx idx, s') ∧ PinDrawn p root pin.1 idx := by
  obtain ⟨idx, s', hok, hidx⟩ := @pinIdx_ok σ rand p acc.2 root hroot pin.1
  exact ⟨idx, s', by simp [pickPinRegion, hok], hidx⟩

/-- All variables pinned to `v`. They are drawn one after the other, each from the index of the root. -/
theorem pickPins_ok (hok : InfosOk infos) {root : RegionIdx} (hroot : Drawn root) (v : VarInfo)
    (acc : ConcretizationSt × σ) : ∃ acc', (pinsOf infos v).foldlM (pickPinRegion rand p root) acc = .ok acc' ∧
      RegionFrame (PinOf infos v) acc.1 acc'.1 ∧ ∀ pin ∈ pinsOf infos v, (acc'.1 pin.2.varidx).pickedRegion = true ∧
        PinDrawn p root pin.1 (acc'.1 pin.2.varidx).partialVa := by
  obtain ⟨acc', hfold, hframe⟩ := @Loop.foldlM_total (ConcretizationSt × σ) ConcretizeFail
    (fun a => RegionFrame (PinOf infos v) acc.1 a.1) (PinLevel × VarInfo) (pickPinRegion rand p root)
    (pinsOf infos v) acc (fun pin hpin a hI => by
      obtain ⟨idx, s', hstep, -⟩ := @pickPinRegion_ok σ rand p root hroot a pin
      exact ⟨_, hstep, hI.setRegion ⟨pin, hpin, rfl⟩ idx⟩) ⟨fun _ _ => rfl, fun _ => rfl⟩
  refine ⟨acc', hfold, hframe, ?_⟩
  refine @Loop.foldlM_forall _ _ _ _ (fun pin a => (a.1 pin.2.varidx).pickedRegion = true ∧
    PinDrawn p root pin.1 (a.1 pin.2.varidx).partialVa) _ _ acc' (fun pin _ a a' hstep => ?_)
    (fun pin hpin pin' hpin' a a' hQ hstep => ?_) hfold
  · obtain ⟨idx, s', hstep', hidx⟩ := @pickPinRegion_ok σ rand p root hroot a pin
    rw [hstep'] at hstep
    cases hstep
    simpa using hidx
  · obtain ⟨idx, s', hstep', hidx⟩ := @pickPinRegion_ok σ rand p root hroot a pin'
    rw [hstep'] at hstep
    cases hstep
    by_cases heq : pin.2.varidx = pin'.2.varidx
    · -- the same variable again, so at the same level
      obtain ⟨hz, -, -, back, hty⟩ := mem_pinsOf.mp hpin
      obtain ⟨hz', -, -, back', hty'⟩ := mem_pinsOf.mp hpin'
      rw [← hok.eq_of_varidx hz hz' heq, hty, VarType.pinned.injEq] at hty'
      rw [heq, hty'.2.2]
      simpa using hidx
    · simpa [heq] using hQ

/-- One owning variable with those pinned to it. -/
theorem pickOneRegion_ok (hok : InfosOk infos) (v : VarInfo) (acc : ConcretizationSt × σ) :
    ∃ acc', pickOneRegion rand p infos v acc = .ok acc' ∧ RegionPicked p infos acc'.1 v ∧
      RegionFrame (fun w => w = v.varidx ∨ PinOf infos v w) acc.1 acc'.1 := by
  obtain ⟨root, s₁, hdraw, -, -, hreg, -, -, hoffs, haligned⟩ :=
    @randIdx_ok σ rand acc.2 regionIdxBottom regionIdxTop (by decide) (by decide)
  have hroot : Drawn root := ⟨hreg (by decide), hoffs (by decide), haligned⟩
  obtain ⟨acc', hfold, hframe, hpins⟩ :=
    @pickPins_ok σ rand p infos hok root hroot v (setRegion acc.1 v.varidx root, s₁)
  have hself : acc'.1 v.varidx = { acc.1 v.varidx with partialVa := root, pickedRegion := true } := by
    rw [hframe.other v.varidx fun ⟨pin, hpin, h⟩ => (mem_pinsOf.mp hpin).2.1 h.symm]
    exact setRegion_self _ _ _
  refine ⟨acc', by simp [pickOneRegion, hdraw, hfold], ⟨by rw [hself], by rw [hself]; exact hroot, ?_⟩,
    fun w hw => ?_, fun w => ?_⟩
  · rw [hself]
    exact hpins
  · rw [not_or] at hw
    rw [hframe.other w hw.2]
    exact setRegion_ne hw.1 _ _
  · rw [hframe.pickedOffset]
    exact setRegion_pickedOffset _ _ _ _

/-- What is picked for `v` stays when another owning variable is picked. -/
theorem RegionPicked.frame {v u : VarInfo} {st st' : ConcretizationSt} (hok : InfosOk infos) (h : RegionPicked p infos st v)
    (hv : v.ownsRegion = true) (hu : u.ownsRegion = true) (hne : v.varidx ≠ u.varidx) (hvm : v ∈ infos)
    (hum : u ∈ infos) (hf : RegionFrame (fun w => w = u.varidx ∨ PinOf infos u w) st st') :
    RegionPicked p infos st' v := by
  have hvs : st' v.varidx = st v.varidx := by
    apply hf.other v.varidx
    rintro (heq | ⟨pin, hpin, heq⟩)
    · exact hne heq
    · have := not_ownsRegion_of_pinsOf hpin
      rw [← hok.eq_of_varidx hvm (mem_pinsOf.mp hpin).1 heq, hv] at this
      cases this
  have hpins : ∀ pin ∈ pinsOf infos v, st' pin.2.varidx = st pin.2.varidx := by
    intro pin hpin
    obtain ⟨hz, -, -, back, hty⟩ := mem_pinsOf.mp hpin
    apply hf.other _
    rintro (heq | ⟨pin', hpin', heq⟩)
    · have := not_ownsRegion_of_pinsOf hpin
      rw [hok.eq_of_varidx hz hum heq, hu] at this
      cases this
    · -- a variable is pinned to one variable only
      obtain ⟨hz', -, -, back', hty'⟩ := mem_pinsOf.mp hpin'
      rw [← hok.eq_of_varidx hz hz' heq, hty, VarType.pinned.injEq] at hty'
      exact hne hty'.2.1
  refine ⟨by rw [hvs]; exact h.picked, by rw [hvs]; exact h.drawn, fun pin hpin => ?_⟩
  rw [hvs, hpins pin hpin]
  exact h.pins pin hpin

/-- Only the owning variables and those pinned to them are picked, and no offset is. -/
structure OnlyRegions (infos : List VarInfo) (st : ConcretizationSt) : Prop where
  region : ∀ w, (st w).pickedRegion = true → ∃ u ∈ infos, u.ownsRegion = true ∧ (w = u.varidx ∨ PinOf infos u w)
  offset : ∀ w, (st w).pickedOffset = false

theorem OnlyRegions.frame {u : VarInfo} {st st' : ConcretizationSt} (h : OnlyRegions infos st) (hum : u ∈ infos)
    (hu : u.ownsRegion = true) (hf : RegionFrame (fun w => w = u.varidx ∨ PinOf infos u w) st st') :
    OnlyRegions infos st' where
  region w hw := by
    by_cases hS : w = u.varidx ∨ PinOf infos u w
    · exact ⟨u, hum, hu, hS⟩
    · rw [hf.other w hS] at hw
      exact h.region w hw
  offset w := by
    rw [hf.pickedOffset]
    exact h.offset w

/-- A loop over some of the owning variables picks these and keeps the others. -/
theorem pickRegions_ok (hok : InfosOk infos) {cond : VarInfo → Bool} (hcond : ∀ v, cond v = true → v.ownsRegion = true)
    (acc : ConcretizationSt × σ) (hI : OnlyRegions infos acc.1) :
    ∃ acc', pickRegions rand p infos cond acc = .ok acc' ∧ OnlyRegions infos acc'.1 ∧
      (∀ v ∈ infos, cond v = true → RegionPicked p infos acc'.1 v) ∧
      (∀ v ∈ infos, v.ownsRegion = true → RegionPicked p infos acc.1 v → RegionPicked p infos acc'.1 v) := by
  -- the step for `u` picks `u` and keeps every owning variable that is picked
  have hstep : ∀ u ∈ infos, ∀ a : ConcretizationSt × σ, OnlyRegions infos a.1 →
      ∃ a', (if cond u then pickOneRegion rand p infos u a else .ok a) = .ok a' ∧ OnlyRegions infos a'.1 := by
    intro u hu a ha
    split
    · obtain ⟨a', hok', -, hf⟩ := @pickOneRegion_ok σ rand p infos hok u a
      exact ⟨a', hok', ha.frame hu (hcond u ‹_›) hf⟩
    · exact ⟨a, rfl, ha⟩
  have hset : ∀ u ∈ infos, ∀ a a' : ConcretizationSt × σ,
      (if cond u then pickOneRegion rand p infos u a else .ok a) = .ok a' →
      (cond u = true → RegionPicked p infos a'.1 u) ∧
      ∀ v ∈ infos, v.ownsRegion = true → RegionPicked p infos a.1 v → RegionPicked p infos a'.1 v := by
    intro u hu a a' h
    split at h
    · obtain ⟨a'', hok', hp, hf⟩ := @pickOneRegion_ok σ rand p infos hok u a
      rw [hok'] at h
      cases h
      refine ⟨fun _ => hp, fun v hv hvo hpv => ?_⟩
      by_cases hne : v.varidx = u.varidx
      · rw [hok.eq_of_varidx hv hu hne]
        exact hp
      · exact hpv.frame hok hvo (hcond u ‹_›) hne hv hu hf
    · cases h
      exact ⟨fun hc => absurd hc ‹_›, fun _ _ _ h => h⟩
  obtain ⟨acc', hfold, hI'⟩ := Loop.foldlM_total hstep hI
  refine ⟨acc', hfold, hI', fun v hv hc => ?_, fun v hv hvo => ?_⟩
  · exact @Loop.foldlM_forall _ _ _ _ (fun v a => cond v = true → RegionPicked p infos a.1 v) infos _ acc'
      (fun u hu a a' h => (hset u hu a a' h).1)
      (fun v hv u hu a a' hQ h hc => (hset u hu a a' h).2 v hv (hcond v hc) (hQ hc)) hfold v hv hc
  · exact @Loop.foldlM_inv _ _ (fun a => RegionPicked p infos acc.1 v → RegionPicked p infos a.1 v) _ _ infos _ acc'
      (fun u hu a a' hQ h hp => (hset u hu a a' h).2 v hv hvo (hQ hp)) (fun h => h) hfold

/-- All owning variables are picked with those pinned to them, and no other. -/
structure RegionsPicked (p : Platform) (infos : List VarInfo) (st : ConcretizationSt) : Prop where
  owner : ∀ v ∈ infos, v.ownsRegion = true → RegionPicked p infos st v
  only : OnlyRegions infos st

/-- **Picking the regions does not fail.** -/
theorem pickAllRegions_ok (hok : InfosOk infos) (st : ConcretizationSt) (s : σ) :
    ∃ st' s', pickAllRegions rand p infos (resetSt st, s) = .ok (st', s') ∧ RegionsPicked p infos st' := by
  have h0 : OnlyRegions infos (resetSt st) := ⟨fun w h => (by cases h), fun w => rfl⟩
  obtain ⟨acc₁, h₁, hI₁, hpick₁, -⟩ := @pickRegions_ok σ rand p infos hok
    (fun var => var.ownsRegion && var.initAttrs.regionOffset.isNone) (fun v h => (Bool.and_eq_true_iff.mp h).1)
    (resetSt st, s) h0
  obtain ⟨⟨st', s'⟩, h₂, hI₂, hpick₂, hkeep₂⟩ := @pickRegions_ok σ rand p infos hok
    (fun var => var.ownsRegion && var.initAttrs.regionOffset.isSome) (fun v h => (Bool.and_eq_true_iff.mp h).1)
    acc₁ hI₁
  refine ⟨st', s', by simp only [pickAllRegions, h₁, h₂], fun v hv hvo => ?_, hI₂⟩
  cases ho : v.initAttrs.regionOffset with
  | none => exact hkeep₂ v hv hvo (hpick₁ v hv (by simp [hvo, ho]))
  | some o => exact hpick₂ v hv (by simp [hvo, ho])

/-- `v` owns a region, or it is pinned to a variable that does, at a level that is picked. -/
def HasRegion (infos : List VarInfo) (v : VarInfo) : Prop :=
  v.ownsRegion = true ∨
    ∃ root ∈ infos, root.ownsRegion = true ∧ ∃ back lvl, v.ty = .pinned back root.varidx lvl ∧ lvl ≠ .pgd

/-- The variables whose region is picked. -/
theorem RegionsPicked.pickedRegion_iff {st : ConcretizationSt} {v : VarInfo} (h : RegionsPicked p infos st)
    (hok : InfosOk infos) (hv : v ∈ infos) : (st v.varidx).pickedRegion = true ↔ HasRegion infos v := by
  constructor
  · intro hp
    obtain ⟨u, hu, huo, heq | ⟨pin, hpin, heq⟩⟩ := h.only.region v.varidx hp
    · rw [hok.eq_of_varidx hv hu heq]
      exact .inl huo
    · obtain ⟨hz, -, hlvl, back, hty⟩ := mem_pinsOf.mp hpin
      rw [hok.eq_of_varidx hv hz heq]
      exact .inr ⟨u, hu, huo, back, pin.1, hty, hlvl⟩
  · rintro (hvo | ⟨root, hroot, hro, back, lvl, hty, hlvl⟩)
    · exact (h.owner v hv hvo).picked
    · refine ((h.owner root hroot hro).pins (lvl, v) (mem_pinsOf.mpr ⟨hv, fun heq => ?_, hlvl, back, hty⟩)).1
      rw [← hok.eq_of_varidx hv hroot heq] at hro
      simp [VarInfo.ownsRegion, hty] at hro

end Regions

/-! ## Offsets -/

section Offsets

variable {p : Platform} {infos : List VarInfo} {st st' st₁ : ConcretizationSt} {v : VarInfo}

@[simp] theorem setOffset_self (st : ConcretizationSt) (v : Nat) (idx : RegionIdx) (va : U64) :
    setOffset st v idx va v = { st v with partialVa := idx, va := va, pickedOffset := true } := if_pos rfl

@[simp] theorem setOffset_ne {v w : Nat} (h : w ≠ v) (st : ConcretizationSt) (idx : RegionIdx) (va : U64) :
    setOffset st v idx va w = st w := if_neg h

/-- The variable `v` is offset from the variable `u`. -/
def OffsetFrom (infos : List VarInfo) (u v : Nat) : Prop :=
  ∃ var, infos[v]? = some var ∧ ∃ lvl, var.initAttrs.regionOffset = some ⟨u, lvl⟩

/-- The offset of `v` is picked, after the one it depends on, from the region picked in `st₁`. -/
structure Resolved (p : Platform) (st₁ st : ConcretizationSt) (v : VarInfo) : Prop where
  va : (st v.varidx).va = vaFromRegionIdx p v (st v.varidx).partialVa
  none : v.initAttrs.regionOffset = none → (st v.varidx).partialVa = (st₁ v.varidx).partialVa
  some : ∀ o, v.initAttrs.regionOffset = some o → (st o.offsetVar).pickedOffset = true ∧
    (st v.varidx).partialVa = offsetRegionIdx p (st₁ v.varidx).partialVa o.offsetLevel (st o.offsetVar).va

/-- What the loop keeps: the variables that are picked are resolved and their chains of offsets end, and the others
are as they were. -/
structure OffsetsOk (p : Platform) (infos : List VarInfo) (st₁ st : ConcretizationSt) : Prop where
  resolved : ∀ v ∈ infos, (st v.varidx).pickedOffset = true → Resolved p st₁ st v
  acc : ∀ v ∈ infos, (st v.varidx).pickedOffset = true → Acc (OffsetFrom infos) v.varidx
  rest : ∀ w, (st w).pickedOffset = false → st w = st₁ w

/-- What one step does. -/
theorem tryPickOneOffset_eq_some (h : tryPickOneOffset p st v = some st') : ∃ idx,
    st' = setOffset st v.varidx idx (vaFromRegionIdx p v idx) ∧
    (v.initAttrs.regionOffset = none → idx = (st v.varidx).partialVa) ∧
    (∀ o, v.initAttrs.regionOffset = some o → (st o.offsetVar).pickedOffset = true ∧
      idx = offsetRegionIdx p (st v.varidx).partialVa o.offsetLevel (st o.offsetVar).va) := by
  unfold tryPickOneOffset at h
  cases ho : v.initAttrs.regionOffset with
  | none =>
    rw [ho] at h
    cases h
    exact ⟨_, rfl, fun _ => rfl, fun o h => by cases h⟩
  | some o =>
    rw [ho] at h
    dsimp only at h
    split at h
    · cases h
      exact ⟨_, rfl, fun h => (by cases h), fun o' h => by cases h; exact ⟨‹_›, rfl⟩⟩
    · cases h

/-- No step is left for `v`: its offset is from a variable that is not picked. -/
theorem tryPickOneOffset_eq_none : tryPickOneOffset p st v = none ↔
    ∃ o, v.initAttrs.regionOffset = some o ∧ (st o.offsetVar).pickedOffset = false := by
  unfold tryPickOneOffset
  cases ho : v.initAttrs.regionOffset with
  | none => simp
  | some o => cases hp : (st o.offsetVar).pickedOffset <;> simp [hp]

theorem pickOffsetStep_eq_some (h : pickOffsetStep p infos st = some st') :
    ∃ v ∈ infos, (st v.varidx).pickedOffset = false ∧ tryPickOneOffset p st v = some st' := by
  obtain ⟨l₁, v, l₂, rfl, hv, -⟩ := List.findSome?_eq_some_iff.mp h
  split at hv
  · cases hv
  · rename_i hp
    exact ⟨v, by simp, by simpa using hp, hv⟩

theorem pickOffsetStep_eq_none : pickOffsetStep p infos st = none ↔
    ∀ v ∈ infos, (st v.varidx).pickedOffset = false →
      ∃ o, v.initAttrs.regionOffset = some o ∧ (st o.offsetVar).pickedOffset = false := by
  simp only [pickOffsetStep, List.findSome?_eq_none_iff]
  refine forall₂_congr fun v _ => ?_
  cases hp : (st v.varidx).pickedOffset with
  | true => simp
  | false => simpa using tryPickOneOffset_eq_none

/-- One step of the loop keeps the invariant. -/
theorem OffsetsOk.step (hok : InfosOk infos) (h : OffsetsOk p infos st₁ st) (hs : pickOffsetStep p infos st = some st') :
    OffsetsOk p infos st₁ st' := by
  obtain ⟨u, hu, hup, htry⟩ := pickOffsetStep_eq_some hs
  obtain ⟨idx, rfl, hnone, hsome⟩ := tryPickOneOffset_eq_some htry
  have hkeep : ∀ w, (st w).pickedOffset = true →
      setOffset st u.varidx idx (vaFromRegionIdx p u idx) w = st w := by
    intro w hw
    refine setOffset_ne (fun heq => ?_) _ _ _
    rw [heq, hup] at hw
    cases hw
  refine ⟨fun v hv hp => ?_, fun v hv hp => ?_, fun w hw => ?_⟩
  · by_cases heq : v.varidx = u.varidx
    · obtain rfl := hok.eq_of_varidx hv hu heq
      refine ⟨by rw [setOffset_self], fun ho => ?_, fun o ho => ?_⟩
      · rw [setOffset_self, ← h.rest v.varidx hup]
        exact hnone ho
      · obtain ⟨hop, hidx⟩ := hsome o ho
        rw [hkeep o.offsetVar hop, setOffset_self, ← h.rest v.varidx hup]
        exact ⟨hop, hidx⟩
    · rw [setOffset_ne heq] at hp
      obtain ⟨hva, hn, hs⟩ := h.resolved v hv hp
      refine ⟨by rw [setOffset_ne heq]; exact hva, by rw [setOffset_ne heq]; exact hn, fun o ho => ?_⟩
      rw [hkeep o.offsetVar (hs o ho).1, setOffset_ne heq]
      exact hs o ho
  · by_cases heq : v.varidx = u.varidx
    · obtain rfl := hok.eq_of_varidx hv hu heq
      refine Acc.intro _ fun w ⟨var, hvar, lvl, ho⟩ => ?_
      obtain rfl : v = var := Option.some.inj ((hok.getElem?_varidx hv).symm.trans hvar)
      obtain ⟨x, hx, hxw⟩ := hok.exists_at ((hok.refs v hv).offsetVar _ ho)
      have hacc := h.acc x hx
      rw [hxw] at hacc
      exact hacc (hsome _ ho).1
    · rw [setOffset_ne heq] at hp
      exact h.acc v hv hp
  · have hne : w ≠ u.varidx := by
      rintro rfl
      rw [setOffset_self] at hw
      cases hw
    rw [setOffset_ne hne] at hw ⊢
    exact h.rest w hw

/-- The number of variables whose offset is not picked. -/
def unpicked (infos : List VarInfo) (st : ConcretizationSt) : Nat :=
  ((Finset.range infos.length).filter fun w => (st w).pickedOffset = false).card

theorem unpicked_le (infos : List VarInfo) (st : ConcretizationSt) : unpicked infos st ≤ infos.length :=
  (Finset.card_filter_le _ _).trans (Finset.card_range _).le

/-- One step picks one more variable. -/
theorem unpicked_step (hok : InfosOk infos) (hs : pickOffsetStep p infos st = some st') :
    unpicked infos st' < unpicked infos st := by
  obtain ⟨u, hu, hup, htry⟩ := pickOffsetStep_eq_some hs
  obtain ⟨idx, rfl, -, -⟩ := tryPickOneOffset_eq_some htry
  refine Finset.card_lt_card (Finset.ssubset_iff_of_subset ?_ |>.mpr ⟨u.varidx, ?_, ?_⟩)
  · intro w hw
    simp only [Finset.mem_filter] at hw ⊢
    refine ⟨hw.1, ?_⟩
    by_cases heq : w = u.varidx
    · rw [heq, hup]
    · rw [← hw.2, setOffset_ne heq]
  · simp [hok.varidx_lt hu, hup]
  · simp

/-- **After the loop, the picked variables are resolved and their chains of offsets end.** -/
theorem pickOffsets_ok (hok : InfosOk infos) (h0 : ∀ w, (st₁ w).pickedOffset = false) :
    OffsetsOk p infos st₁ (pickOffsets p infos st₁) := by
  refine Loop.untilNone_inv (fun _ _ h hs => h.step hok hs) _ _ ⟨fun v _ hp => ?_, fun v _ hp => ?_, fun _ _ => rfl⟩
  · rw [h0] at hp
    cases hp
  · rw [h0] at hp
    cases hp

/-- **The loop picks exactly the variables whose chain of offsets ends.** -/
theorem pickOffsets_picked_iff (hok : InfosOk infos) (h0 : ∀ w, (st₁ w).pickedOffset = false) (hv : v ∈ infos) :
    (pickOffsets p infos st₁ v.varidx).pickedOffset = true ↔ Acc (OffsetFrom infos) v.varidx := by
  refine ⟨(pickOffsets_ok hok h0).acc v hv, fun hacc => ?_⟩
  have hnone : pickOffsetStep p infos (pickOffsets p infos st₁) = none :=
    @Loop.untilNone_none _ (fun _ => True) _ (unpicked infos) (fun _ _ _ hs => ⟨trivial, unpicked_step hok hs⟩) _ st₁
      trivial (unpicked_le infos st₁)
  rw [pickOffsetStep_eq_none] at hnone
  generalize hw : v.varidx = w at hacc
  induction hacc generalizing v with
  | intro w _ ih =>
    by_contra hp
    obtain ⟨o, ho, hop⟩ := hnone v hv (by rw [hw]; simpa using hp)
    obtain ⟨x, hx, hxo⟩ := hok.exists_at ((hok.refs v hv).offsetVar o ho)
    have := ih o.offsetVar ⟨v, hw ▸ hok.getElem?_varidx hv, o.offsetLevel, ho⟩ hx hxo
    rw [hop] at this
    cases this

end Offsets

/-! ## Attempts -/

section Attempts

variable {σ : Type} {rand : σ → U64 × σ} {p : Platform} {infos : List VarInfo}

/-- An attempt that picked the regions in `st₁` and from them the addresses `va` of all variables. -/
structure Attempt (rand : σ → U64 × σ) (p : Platform) (infos : List VarInfo) (st₁ : ConcretizationSt) (va : Nat → U64) :
    Prop where
  draws : ∃ st₀ s₀ s₁, pickAllRegions rand p infos (resetSt st₀, s₀) = .ok (st₁, s₁)
  regions : RegionsPicked p infos st₁
  hasRegion : ∀ v ∈ infos, HasRegion infos v
  resolved : ∀ v ∈ infos, Resolved p st₁ (pickOffsets p infos st₁) v
  acc : ∀ v ∈ infos, Acc (OffsetFrom infos) v.varidx
  va_eq : va = fun v => (pickOffsets p infos st₁ v).va

theorem concretizeAttempt_ok (hok : InfosOk infos) {st st' : ConcretizationSt} {s s' : σ}
    (h : concretizeAttempt rand p infos st s = .ok (st', s')) :
    ∃ st₁, Attempt rand p infos st₁ fun v => (st' v).va := by
  obtain ⟨st₁, s₁, hpick, hreg⟩ := @pickAllRegions_ok σ rand p infos hok st s
  rw [concretizeAttempt, hpick] at h
  dsimp only at h
  split at h
  · cases h
  · rename_i hr
    split at h
    · cases h
    · rename_i ho
      cases h
      simp only [List.find?_eq_none, Bool.not_eq_true', Bool.not_eq_false] at hr ho
      have hoff := @pickOffsets_ok p infos st₁ hok hreg.only.offset
      exact ⟨st₁, ⟨st, s, _, hpick⟩, hreg, fun v hv => (hreg.pickedRegion_iff hok hv).mp (hr v hv),
        fun v hv => hoff.resolved v hv (ho v hv), fun v hv => hoff.acc v hv (ho v hv), rfl⟩

/-- **What is returned was picked in one attempt, and validated.** -/
theorem concretizeRandomOne_ok (hok : InfosOk infos) {va : Nat → U64} {s' : σ} :
    ∀ (n : Nat) (st : ConcretizationSt) (s : σ), concretizeRandomOne rand p infos n st s = .ok (va, s') →
      (∃ st₁, Attempt rand p infos st₁ va) ∧ ∀ v ∈ infos, validateSelection p infos va v = true := by
  intro n st s h
  induction n generalizing st s with
  | zero => cases h
  | succ n ih =>
    rw [concretizeRandomOne] at h
    split at h
    · cases h
    · rename_i st' s₁ hatt
      split at h
      · rename_i hval
        cases h
        exact ⟨concretizeAttempt_ok hok hatt, by simpa using hval⟩
      · exact ih st' s₁ h

/-- How an attempt fails: at a variable without a region, or at one whose chain of offsets does not end. -/
theorem concretizeAttempt_error (hok : InfosOk infos) {st : ConcretizationSt} {s : σ} {e : ConcretizeFail}
    (h : concretizeAttempt rand p infos st s = .error e) :
    (∃ v ∈ infos, e = .region v.name ∧ ¬HasRegion infos v) ∨
      ∃ v ∈ infos, e = .offset v.name ∧ ¬Acc (OffsetFrom infos) v.varidx := by
  obtain ⟨st₁, s₁, hpick, hreg⟩ := @pickAllRegions_ok σ rand p infos hok st s
  rw [concretizeAttempt, hpick] at h
  dsimp only at h
  split at h
  · rename_i v hfind
    cases h
    have hv := List.mem_of_find?_eq_some hfind
    have hp := List.find?_some hfind
    refine .inl ⟨v, hv, rfl, fun hr => ?_⟩
    rw [(hreg.pickedRegion_iff hok hv).mpr hr] at hp
    cases hp
  · split at h
    · rename_i v hfind
      cases h
      have hv := List.mem_of_find?_eq_some hfind
      have hp := List.find?_some hfind
      refine .inr ⟨v, hv, rfl, fun ha => ?_⟩
      rw [(pickOffsets_picked_iff hok hreg.only.offset hv).mpr ha] at hp
      cases hp
    · cases h

/-- Conversely an attempt that does not fail has a region and an end of the chain of offsets for every variable. -/
theorem concretizeAttempt_ok_of (hok : InfosOk infos) (hregion : ∀ v ∈ infos, HasRegion infos v)
    (hacc : ∀ v ∈ infos, Acc (OffsetFrom infos) v.varidx) (st : ConcretizationSt) (s : σ) :
    ∃ r, concretizeAttempt rand p infos st s = .ok r := by
  cases h : concretizeAttempt rand p infos st s with
  | ok r => exact ⟨r, rfl⟩
  | error e =>
    rcases concretizeAttempt_error hok h with ⟨v, hv, -, hn⟩ | ⟨v, hv, -, hn⟩
    · exact absurd (hregion v hv) hn
    · exact absurd (hacc v hv) hn

end Attempts

end LitmusHarness
