import LitmusHarness.Concretization.Accepted
import LitmusHarness.Concretization.Random

/-!
# The checks after concretization: `litmus_test_concretization_checker.c`

`concretizePostcheckNoOverlapOwned` looks again for variables in the owned region of another. Of two owning variables
`validateSelection` has then refused every overlap (`not_sameRegion_of_validated`), but it never compares the others:
what the random selection accepts passes the check exactly when every variable owns a region or is pinned to the
variable it is compared with (`validated_noOverlapOwned_iff`).
-/

namespace LitmusHarness

/-! ## The checks -/

/-- `in_same_region`. -/
def inSameRegion (p : Platform) (va1 va2 : U64) (size : OwnLevel) : Bool :=
  va1 &&& ~~~bitmask (levelShift p size) = va2 &&& ~~~bitmask (levelShift p size)

/-- How a check fails, with the arguments of its message. -/
inductive PostcheckFail
  | overlap (var : String) (va1 : U64) (other : String) (va2 : U64)
  | offset (var : String) (va1 : U64) (other : String) (va2 : U64) (level : RelOffset)
  | misaligned (var : String) (va : U64)
  deriving DecidableEq, Repr

/-- The texts of the failures. -/
def PostcheckFail.msg : PostcheckFail → String
  | .overlap _ _ _ _ => "%s (%p) and %s (%p) overlap but one is not pinned to the other\n"
  | .offset _ _ _ _ _ => "%s (%p) and %s (%p) are supposed to have the same %s but do not\n"
  | .misaligned _ _ => "%s (%p) is supposed to be 64-bit aligned but is not.\n"

section Postcheck

variable (p : Platform) (infos : List VarInfo) (values : Nat → U64)

/-- The variable is pinned to `var`. -/
def isPinnedTo (othervar var : VarInfo) : Bool :=
  match othervar.ty with
  | .pinned _ v _ => v = var.varidx
  | _ => false

/-- `concretize_postcheck_no_overlap_owned`. -/
def concretizePostcheckNoOverlapOwned : Except PostcheckFail Unit :=
  infos.forM fun var =>
    match var.ty with
    | .heap _ ownedRegionSize =>
      infos.forM fun othervar =>
        if var.varidx = othervar.varidx then .ok ()
        else
          let va1 := values var.varidx
          let va2 := values othervar.varidx
          if inSameRegion p va1 va2 ownedRegionSize && !isPinnedTo othervar var then
            .error (.overlap var.name va1 othervar.name va2)
          else .ok ()
    | _ => .ok ()

/-- `concretize_postcheck_related_same_bits`. -/
def concretizePostcheckRelatedSameBits : Except PostcheckFail Unit :=
  infos.forM fun var =>
    match var.initAttrs.regionOffset with
    | some o =>
      let va1 := values var.varidx
      let va2 := values o.offsetVar
      let lvl := levelShift p o.offsetLevel
      if va1 &&& bitmask lvl ≠ va2 &&& bitmask lvl then
        .error (.offset var.name va1 (infos.getD o.offsetVar default).name va2 o.offsetLevel)
      else .ok ()
    | none => .ok ()

/-- `concretize_postcheck_aligned`. -/
def concretizePostcheckAligned : Except PostcheckFail Unit :=
  infos.forM fun var =>
    let va := values var.varidx
    if va &&& bitmask 3 ≠ 0 then .error (.misaligned var.name va) else .ok ()

/-- `concretization_postcheck`. -/
def concretizationPostcheck : Except PostcheckFail Unit := do
  concretizePostcheckNoOverlapOwned p infos values
  concretizePostcheckRelatedSameBits p infos values
  concretizePostcheckAligned infos values

end Postcheck

/-! ## Regions of addresses -/

theorem inSameRegion_iff {p : Platform} {va1 va2 : U64} {size : OwnLevel} :
    inSameRegion p va1 va2 size = true ↔ va1.toNat / 2 ^ levelShift p size = va2.toNat / 2 ^ levelShift p size := by
  have hs : levelShift p size < 64 := lt_of_le_of_lt (levelShift_le p size) (by decide)
  rw [inSameRegion, decide_eq_true_eq, ← BitVec.toNat_inj, toNat_and_not_bitmask _ hs, toNat_and_not_bitmask _ hs]
  exact Nat.mul_left_inj (by positivity)

/-! ## What the validation refuses -/

section Validated

variable {p : Platform} {infos : List VarInfo} {va : Nat → U64} {v w : VarInfo}

/-- No address is in the last 512 GiB, so that no region wraps around. -/
def NoWrap (infos : List VarInfo) (va : Nat → U64) : Prop := ∀ v ∈ infos, (va v.varidx).toNat + 2 ^ 39 < 2 ^ 64

instance (infos : List VarInfo) (va : Nat → U64) : Decidable (NoWrap infos va) :=
  inferInstanceAs (Decidable (∀ v ∈ infos, _))

/-- The exit condition of `concretize_random_one`. -/
def Validated (p : Platform) (infos : List VarInfo) (va : Nat → U64) : Prop :=
  ∀ v ∈ infos, validateSelection p infos va v = true

instance (p : Platform) (infos : List VarInfo) (va : Nat → U64) : Decidable (Validated p infos va) :=
  inferInstanceAs (Decidable (∀ v ∈ infos, _))

theorem validated_iff : Validated p infos va ↔ ∀ v ∈ infos, ∀ w ∈ infos, w.varidx ≠ v.varidx →
    ¬(va v.varidx = va w.varidx ∧ canVirtuallyAlias v w = false) ∧ overlapsOwnedRegions p va v w = false := by
  simp only [Validated, validateSelection, List.all_eq_true, Bool.or_eq_true, decide_eq_true_eq, Bool.not_eq_true',
    Bool.or_eq_false_iff, hasSameVa]
  refine forall₂_congr fun v _ => forall₂_congr fun w _ => ?_
  rw [or_iff_not_imp_left]
  refine imp_congr_right fun _ => and_congr_left' ?_
  cases canVirtuallyAlias v w <;> simp

/-- Where nothing wraps around, the overlap check looks from `w`'s aligned address to its size. -/
theorem overlapsOwnedRegions_iff (hv : v.ownsRegion = true) (hw : w.ownsRegion = true)
    (hwrap : (va w.varidx).toNat + 2 ^ 39 < 2 ^ 64) :
    overlapsOwnedRegions p va v w = true ↔
      (va w.varidx).toNat / 2 ^ levelShift p w.ownedRegionSize * 2 ^ levelShift p w.ownedRegionSize
          ≤ (va v.varidx).toNat ∧
        (va v.varidx).toNat < (va w.varidx).toNat / 2 ^ levelShift p w.ownedRegionSize *
          2 ^ levelShift p w.ownedRegionSize + (levelSize p w.ownedRegionSize).toNat := by
  have hlo := toNat_and_not_bitmask (va w.varidx) (lt_of_le_of_lt (levelShift_le p w.ownedRegionSize) (by decide))
  have hle := Nat.div_mul_le_self (va w.varidx).toNat (2 ^ levelShift p w.ownedRegionSize)
  have hsize := toNat_levelSize_le p w.ownedRegionSize
  rw [overlapsOwnedRegions, hv, hw]
  simp only [Bool.not_true, Bool.or_self, Bool.false_eq_true, if_false, Bool.and_eq_true, decide_eq_true_eq,
    BitVec.le_def, BitVec.lt_def, BitVec.toNat_add, hlo]
  rw [Nat.mod_eq_of_lt (by omega)]

/-- A number between a multiple of `c` and the next. -/
theorem div_eq_iff_mul_le {a b c : Nat} (hc : 0 < c) : b / c * c ≤ a ∧ a < b / c * c + c ↔ a / c = b / c := by
  rw [← Nat.le_div_iff_mul_le hc, ← Nat.succ_mul, ← Nat.div_lt_iff_lt_mul hc]
  omega

/-- **Two owning variables of a validated selection are never in one region of either's size.** -/
theorem not_sameRegion_of_validated (hval : Validated p infos va) (hwrap : NoWrap infos va) (hvm : v ∈ infos)
    (hwm : w ∈ infos) (hne : w.varidx ≠ v.varidx) (hv : v.ownsRegion = true) (hw : w.ownsRegion = true) :
    inSameRegion p (va v.varidx) (va w.varidx) v.ownedRegionSize = false := by
  rw [← Bool.not_eq_true, inSameRegion_iff]
  intro hsame
  obtain ⟨hva, hvw⟩ := validated_iff.mp hval v hvm w hwm hne
  obtain ⟨-, hwv⟩ := validated_iff.mp hval w hwm v hvm hne.symm
  rw [← Bool.not_eq_true, overlapsOwnedRegions_iff hv hw (hwrap w hwm)] at hvw
  rw [← Bool.not_eq_true, overlapsOwnedRegions_iff hw hv (hwrap v hvm)] at hwv
  by_cases hvvar : v.ownedRegionSize = .var
  · rw [hvvar] at hwv hsame
    have hshift : levelShift p .var = 1 := rfl
    have hsize : (levelSize p .var).toNat = 1 := rfl
    rw [hshift] at hsame
    rw [hshift, hsize] at hwv
    by_cases hwvar : w.ownedRegionSize = .var
    · -- each owns the lower byte of its pair only, so both would be at the upper one
      rw [hwvar, hshift, hsize] at hvw
      refine hva ⟨BitVec.eq_of_toNat_eq (by omega), ?_⟩
      cases hvt : v.ty <;> cases hwt : w.ty <;> simp_all [VarInfo.ownsRegion, canVirtuallyAlias, canVirtuallyAliasWith]
    · rw [toNat_levelSize p hwvar, div_eq_iff_mul_le (by positivity)] at hvw
      exact hvw (Mask.div_eq_of_div_eq (levelShift_pos p _) (by simpa using hsame))
  · rw [toNat_levelSize p hvvar, div_eq_iff_mul_le (by positivity)] at hwv
    exact hwv hsame.symm

end Validated

/-! ## The check accepts what was validated -/

/-- Every variable but `x` owns a region or is pinned to `x`, for every heap variable `x`. -/
def OwnersOrPinned (infos : List VarInfo) : Prop :=
  ∀ x ∈ infos, ∀ back own, x.ty = .heap back own →
    ∀ o ∈ infos, o.varidx ≠ x.varidx → o.ownsRegion = true ∨ isPinnedTo o x = true

section NoOverlap

variable {p : Platform} {infos : List VarInfo} {va : Nat → U64}

theorem concretizePostcheckNoOverlapOwned_iff : concretizePostcheckNoOverlapOwned p infos va = .ok () ↔
    ∀ x ∈ infos, ∀ back own, x.ty = .heap back own → ∀ o ∈ infos, o.varidx ≠ x.varidx →
      inSameRegion p (va x.varidx) (va o.varidx) own = true → isPinnedTo o x = true := by
  rw [concretizePostcheckNoOverlapOwned, Loop.forM_ok_iff]
  refine forall₂_congr fun x _ => ?_
  cases hx : x.ty with
  | heap back own =>
    simp only [Loop.forM_ok_iff]
    constructor
    · intro h back' own' hty o ho hne hsame
      cases hty
      have := h o ho
      rw [if_neg (Ne.symm hne), hsame] at this
      cases hpin : isPinnedTo o x with
      | true => rfl
      | false => simp [hpin] at this
    · intro h o ho
      split
      · rfl
      · rename_i hne
        cases hsame : inSameRegion p (va x.varidx) (va o.varidx) own with
        | false => rfl
        | true => rw [h back own rfl o ho (Ne.symm hne) hsame]; rfl
  | _ => simp

/-- A heap variable owns the region of its own size. -/
theorem VarInfo.ownsRegion_heap {x : VarInfo} {back : Backing} {own : OwnLevel} (h : x.ty = .heap back own) :
    x.ownsRegion = true ∧ x.ownedRegionSize = own := by
  simp [VarInfo.ownsRegion, VarInfo.ownedRegionSize, h]

/-- What was validated passes, if the variables that were never compared are pinned. -/
theorem OwnersOrPinned.noOverlapOwned (h : OwnersOrPinned infos) (hval : Validated p infos va)
    (hwrap : NoWrap infos va) : concretizePostcheckNoOverlapOwned p infos va = .ok () := by
  rw [concretizePostcheckNoOverlapOwned_iff]
  intro x hx back own hty o ho hne hsame
  obtain ⟨hxo, hsize⟩ := VarInfo.ownsRegion_heap hty
  rcases h x hx back own hty o ho hne with hoo | hpin
  · have := not_sameRegion_of_validated hval hwrap hx ho hne hxo hoo
    rw [hsize, hsame] at this
    cases this
  · exact hpin

/-! ### The other variables -/

/-- Every variable in a 512 GiB region of its own, but `o` at the address after `x`. -/
def besideVa (x o : Nat) : Nat → U64 := fun v =>
  if v = o then BitVec.ofNat 64 (x * 2 ^ 39 + 1) else BitVec.ofNat 64 (v * 2 ^ 39)

theorem toNat_besideVa {x o v : Nat} (hx : x < 2 ^ 24) (hv : v < 2 ^ 24) :
    (besideVa x o v).toNat = if v = o then x * 2 ^ 39 + 1 else v * 2 ^ 39 := by
  unfold besideVa
  split <;> rw [BitVec.toNat_ofNat] <;> exact Nat.mod_eq_of_lt (by omega)

/-- The selection with `o` beside `x` is validated, if `o` owns no region. -/
theorem besideVa_validated (hok : InfosOk infos) (hlen : infos.length ≤ 2 ^ 24) {x o : VarInfo} (hx : x ∈ infos)
    (ho : o ∈ infos) (hoo : o.ownsRegion = false) :
    Validated p infos (besideVa x.varidx o.varidx) ∧ NoWrap infos (besideVa x.varidx o.varidx) := by
  have hlt : ∀ v ∈ infos, v.varidx < 2 ^ 24 := fun v hv => lt_of_lt_of_le (hok.varidx_lt hv) hlen
  have hnat : ∀ v ∈ infos, (besideVa x.varidx o.varidx v.varidx).toNat =
      if v.varidx = o.varidx then x.varidx * 2 ^ 39 + 1 else v.varidx * 2 ^ 39 :=
    fun v hv => toNat_besideVa (hlt x hx) (hlt v hv)
  have hwrap : NoWrap infos (besideVa x.varidx o.varidx) := by
    intro v hv
    have hvlt := hlt v hv
    have hxlt := hlt x hx
    rw [hnat v hv]
    split <;> omega
  refine ⟨validated_iff.mpr fun v hv w hw hne => ⟨fun ⟨hsame, _⟩ => ?_, ?_⟩, hwrap⟩
  · have := congrArg BitVec.toNat hsame
    rw [hnat v hv, hnat w hw] at this
    split at this <;> split at this <;> omega
  · rw [← Bool.not_eq_true]
    intro hover
    obtain ⟨hvo, hwo⟩ : v.ownsRegion = true ∧ w.ownsRegion = true := by
      cases hvo : v.ownsRegion <;> cases hwo : w.ownsRegion <;> simp_all [overlapsOwnedRegions]
    have hne_o : ∀ u ∈ infos, u.ownsRegion = true → u.varidx ≠ o.varidx := by
      intro u hu huo heq
      rw [hok.eq_of_varidx hu ho heq, hoo] at huo
      cases huo
    rw [overlapsOwnedRegions_iff hvo hwo (hwrap w hw), hnat v hv, hnat w hw, if_neg (hne_o v hv hvo),
      if_neg (hne_o w hw hwo)] at hover
    have hsize := toNat_levelSize_le p w.ownedRegionSize
    have hlo : w.varidx * 2 ^ 39 / 2 ^ levelShift p w.ownedRegionSize * 2 ^ levelShift p w.ownedRegionSize =
        w.varidx * 2 ^ 39 :=
      Nat.div_mul_cancel (Dvd.dvd.mul_left (Nat.pow_dvd_pow 2 (levelShift_le p _)) _)
    rw [hlo] at hover
    omega

/-- **The configurations whose validated selections pass the check: those where every variable but `x` owns a region
or is pinned to `x`, for every heap variable `x`.** The converse is for the numbers of variables that the address space
has room for. -/
theorem validated_noOverlapOwned_iff {cfg : LitmusTest} {sys sys' : InitSystemState}
    (hread : readVarInfos cfg sys = .ok (sys', infos)) :
    (OwnersOrPinned infos → ∀ va, NoWrap infos va → Validated p infos va →
      concretizePostcheckNoOverlapOwned p infos va = .ok ()) ∧
    (infos.length ≤ 2 ^ 24 → (∀ va, NoWrap infos va → Validated p infos va →
      concretizePostcheckNoOverlapOwned p infos va = .ok ()) → OwnersOrPinned infos) := by
  have hok := readVarInfos_ok hread
  refine ⟨fun h va hwrap hval => h.noOverlapOwned hval hwrap, fun hlen h x hx back own hty o ho hne => ?_⟩
  cases hoo : o.ownsRegion with
  | true => exact .inl rfl
  | false =>
    right
    obtain ⟨hval, hwrap⟩ := @besideVa_validated p infos hok hlen x o hx ho hoo
    apply concretizePostcheckNoOverlapOwned_iff.mp (h _ hwrap hval) x hx back own hty o ho hne
    have hxlt := lt_of_lt_of_le (hok.varidx_lt hx) hlen
    have holt := lt_of_lt_of_le (hok.varidx_lt ho) hlen
    rw [inSameRegion_iff, toNat_besideVa hxlt hxlt, toNat_besideVa hxlt holt, if_neg (Ne.symm hne), if_pos rfl]
    have hpos : 1 ≤ levelShift p own := levelShift_pos p own
    apply Mask.div_eq_of_div_eq hpos
    omega

end NoOverlap

/-- One variable and another pinned to its page. -/
def pinnedPageTest : LitmusTest where
  name := "pinned+page"
  heapVarNames := ["x", "z"]
  initStates := [.heap "x" 0, .heap "z" 0, .regionPin "z" "x" .page]

/-- What is read of it. -/
def pinnedPageInfos : List VarInfo :=
  [{ varidx := 0, name := "x", ty := .heap { val := 0, isIdentityMapped := false } .page },
   { varidx := 1, name := "z", ty := .pinned { val := 0, isIdentityMapped := false } 0 .page }]

theorem validated_noOverlapOwned_iff_pinnedPage :
    (OwnersOrPinned pinnedPageInfos → ∀ va, NoWrap pinnedPageInfos va → Validated exampleTestdata pinnedPageInfos va →
      concretizePostcheckNoOverlapOwned exampleTestdata pinnedPageInfos va = .ok ()) ∧
    (pinnedPageInfos.length ≤ 2 ^ 24 → (∀ va, NoWrap pinnedPageInfos va →
      Validated exampleTestdata pinnedPageInfos va →
      concretizePostcheckNoOverlapOwned exampleTestdata pinnedPageInfos va = .ok ()) → OwnersOrPinned pinnedPageInfos) :=
  @validated_noOverlapOwned_iff exampleTestdata pinnedPageInfos pinnedPageTest {} {} rfl

/-- Three variables, `z` pinned to the 2 MiB region of `y`. -/
def pinnedPmdTest : LitmusTest where
  name := "pinned+pmd"
  heapVarNames := ["x", "y", "z"]
  initStates := [.heap "x" 0, .heap "y" 0, .heap "z" 0, .regionPin "z" "y" .pmd]

/-- What is read of it. -/
def pinnedPmdInfos : List VarInfo :=
  [{ varidx := 0, name := "x", ty := .heap { val := 0, isIdentityMapped := false } .page },
   { varidx := 1, name := "y", ty := .heap { val := 0, isIdentityMapped := false } .page,
     initAttrs := { regionOffset := some ⟨0, .page⟩ } },
   { varidx := 2, name := "z", ty := .pinned { val := 0, isIdentityMapped := false } 1 .pmd }]

/-- What is picked from the seed 567: `z` is in the page of `x`. -/
def pinnedPmdVa : Nat → U64 := fun v => [0x29000008d0, 0x29000028d0, 0x2900000010].getD v 0

/-- The test is accepted, the seed 567 gives a validated selection at the first attempt, and the check fails on it. -/
theorem pinnedPmd_overlap_wrong :
    readVarInfos pinnedPmdTest {} = .ok ({}, pinnedPmdInfos) ∧
    (concretizeRandomOne randn exampleTestdata pinnedPmdInfos 1 (fun _ => {}) 567).toOption.map
      (fun r => [r.1 0, r.1 1, r.1 2]) = some [pinnedPmdVa 0, pinnedPmdVa 1, pinnedPmdVa 2] ∧
    NoWrap pinnedPmdInfos pinnedPmdVa ∧ Validated exampleTestdata pinnedPmdInfos pinnedPmdVa ∧
    concretizePostcheckNoOverlapOwned exampleTestdata pinnedPmdInfos pinnedPmdVa =
      .error (.overlap "x" 0x29000008d0 "z" 0x2900000010) := by
  refine ⟨rfl, ?_, ?_, ?_, ?_⟩
  · decide +kernel
  · decide
  · decide
  · decide

end LitmusHarness
