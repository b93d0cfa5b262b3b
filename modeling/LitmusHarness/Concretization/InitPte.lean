import LitmusHarness.Concretization.VarInfo
import LitmusHarness.Vmm.Pgtable

/-!
# `set_init_pte`

The last-level entry of a variable is built from the default descriptor of its own page, read back into its fields;
an alias then has the address field overwritten with the page of its target. Two things go wrong on the way
(`setInitPte_alias_iff`): the target's address is taken for a window address, also where it is identity-mapped, and
bit 16 of the variable's own page comes back as the attribute `nT` and is written into the address of the target.
-/

namespace LitmusHarness

open Vmsa (Mem)

/-! ## The functions of the source -/

/-- `vmm_desc_at_level`: the entry that the walk to `descLevel` reads, after `vmm_ensure_level`. -/
def vmmDescAtLevel (top root va : U64) (ensureLevel descLevel : Nat) (s : VmmState) : Except String (U64 × VmmState) :=
  match vmmEnsureLevel top root ensureLevel va s with
  | .error e => .error e
  | .ok s => .ok ((vmmTranslationWalkToLevel s.mem root va descLevel).src.getD 0, s)

/-- `vmm_pte_at_level`. -/
def vmmPteAtLevel (top root va : U64) (level : Nat) (s : VmmState) : Except String (U64 × VmmState) :=
  vmmDescAtLevel top root va 3 level s

/-- `vmm_pte`. -/
def vmmPte (top root va : U64) (s : VmmState) : Except String (U64 × VmmState) := vmmPteAtLevel top root va 3 s

/-- `PROT_DEFAULT_HEAP`: normal memory, read and write at EL0, and execute at EL1. -/
def protDefaultHeap : U64 := writeAttrs { attr := 3 } ||| writeAttrs { ap := 1 }

/-- `PAGE`. -/
def pageOf (va : U64) : U64 := (va >>> 12) &&& bitmask (48 - 12)

/-- The page that `set_init_pte` starts from. -/
def initPage (m : Machine) (vinfo : VarInfo) (va : U64) : U64 :=
  match vinfo.ty with
  | .fixed phys => phys &&& ~~~bitmask 12
  | _ => safeTestdataPa m va &&& ~~~bitmask 12

/-- The descriptor that `set_init_pte` builds for a variable at `va`; `otherva` is the address of an alias' target. -/
def initDesc (m : Machine) (vinfo : VarInfo) (va : U64) (otherva : Nat → U64) : Desc :=
  let desc :=
    match vinfo.ty with
    | .unmapped => readDesc 0 3
    | _ =>
      let desc := readDesc (vmmMakeDesc (initPage m vinfo va) protDefaultHeap 3) 3
      let desc :=
        match vinfo.initAttrs.ap with
        | some ap => { desc with attrs := { desc.attrs with ap := ap.setWidth 2 } }
        | none => desc
      match vinfo.initAttrs.attridx with
      | some attridx => { desc with attrs := { desc.attrs with attr := attridx.setWidth 3 } }
      | none => desc
  match vinfo.ty with
  | .alias otheridx => { desc with addr := pageOf (virtToPhys m (otherva otheridx)) <<< 12 }
  | _ => desc

/-- `set_init_pte` with page tables on, for the variable `varidx` of a run: `values` holds the addresses picked in the
run, and `root` is its page table. -/
def setInitPte (m : Machine) (top root : U64) (infos : List VarInfo) (values : Nat → U64) (varidx : Nat)
    (s : VmmState) : Except String VmmState :=
  let vinfo := infos.getD varidx default
  let va := values varidx
  match vmmPte top root va s with
  | .error e => .error e
  | .ok (pte, s) => .ok { s with mem := vmmUpdatePte s.mem pte (writeDesc (initDesc m vinfo va values)) }

/-! ## The entry that is written -/

section Entry

variable {m : Machine} {top root va : U64} {infos : List VarInfo} {values : Nat → U64} {a : Nat} {s s' : VmmState}

/-- The default entry of a page, read back: the address field is the page again, and so is `nT` its bit 16. -/
theorem readDesc_defaultHeap (pg : U64) :
    readDesc (vmmMakeDesc pg protDefaultHeap 3) 3 =
        { level := 3, addr := descAddr (vmmMakeDesc pg protDefaultHeap 3) 12, type := .block,
          attrs := readAttrs (vmmMakeDesc pg protDefaultHeap 3) } ∧
      (readAttrs (vmmMakeDesc pg protDefaultHeap 3)).nT.getLsbD 0 = pg.getLsbD 16 ∧
      ∀ i, (descAddr (vmmMakeDesc pg protDefaultHeap 3) 12).getLsbD i =
        (pg.getLsbD i && decide (12 ≤ i) && decide (i < 48)) := by
  have hprot : ∀ i, 12 ≤ i → i < 48 → (writeAttrs (makeAttrs protDefaultHeap)).getLsbD i = false := by
    intro i h1 h2
    by_cases h16 : i = 16
    · subst h16
      decide
    · exact getLsbD_writeAttrs_of_not_attrBit _ (by unfold attrBit; omega)
  have h0 : (vmmMakeDesc pg protDefaultHeap 3).getLsbD 0 = true := by
    rw [vmmMakeDesc, getLsbD_writeDesc_block rfl]
    simp
  have hbit : ∀ i, 12 ≤ i → i < 48 → (vmmMakeDesc pg protDefaultHeap 3).getLsbD i = pg.getLsbD i := by
    intro i h1 h2
    rw [vmmMakeDesc, getLsbD_writeDesc_block rfl, hprot i h1 h2]
    simp [show i ≠ 1 by omega, show i ≠ 0 by omega]
  refine ⟨?_, ?_, fun i => ?_⟩
  · simp only [readDesc, bit_eq_zero, h0, reduceCtorEq, if_false]
  · simp only [readAttrs, BitVec.getLsbD_setWidth, getLsbD_bit, hbit 16 (by decide) (by decide)]
    simp
  · rw [getLsbD_descAddr _ (by decide) (by decide)]
    by_cases h : 12 ≤ i ∧ i < 48
    · rw [hbit i h.1 h.2]
    · rcases not_and_or.mp h with h | h <;> simp [h]

/-- The entry of a page is a leaf. -/
theorem decode_page {d : Desc} (htype : d.type = .block) (hlev : d.level = 3) :
    Vmsa.decode 3 (writeDesc d) = .leaf (Vmsa.outAddr (writeDesc d) 12) := by
  have h0 : (writeDesc d).getLsbD 0 = true := by
    rw [getLsbD_writeDesc_block htype]
    simp
  have h1 : (writeDesc d).getLsbD 1 = true := by
    rw [getLsbD_writeDesc_block htype, hlev]
    simp
  simp only [Vmsa.decode, h0, h1]
  rfl

/-- **After `set_init_pte` the walk of the variable's address ends at level 3 in the entry built for it.** -/
theorem setInitPte_walk (hw : TablesOk top root s) (hva : (values a).toNat < 2 ^ 48)
    (h : setInitPte m top root infos values a s = .ok s') :
    TablesOk top root s' ∧ (Vmsa.walk s'.mem root (values a)).level = 3 ∧
      (Vmsa.walk s'.mem root (values a)).entry =
        writeDesc (initDesc m (infos.getD a default) (values a) values) := by
  unfold setInitPte vmmPte vmmPteAtLevel vmmDescAtLevel at h
  cases he : vmmEnsureLevel top root 3 (values a) s with
  | error e => simp [he] at h
  | ok s₁ =>
    have hens := vmmEnsureLevel_ensured hw hva (Nat.le_refl 3) he
    have hlev : (Vmsa.walk s₁.mem root (values a)).level = 3 :=
      le_antisymm (Vmsa.walk_level_le _ _ _) hens.level_ge
    have hwalk := vmmTranslationWalk_eq hva hens.ok.rootOk
    unfold vmmTranslationWalk at hwalk
    obtain ⟨t, ht, hs, hent, hold⟩ := Vmsa.walk_ends s₁.mem root (values a)
    simp only [he, hwalk, Option.getD_some, vmmUpdatePte_eq, Except.ok.injEq] at h
    rw [hlev] at ht hs hold
    rw [hs] at h
    rw [hent, hs] at hold
    have hnew : ∀ next, Vmsa.decode 3 (writeDesc (initDesc m (infos.getD a default) (values a) values)) ≠ .table next :=
      fun next hd => absurd (Vmsa.decode_table hd).1 (Nat.lt_irrefl 3)
    have hself := store_self s₁.mem (Vmsa.slot t (values a) 3)
      (writeDesc (initDesc m (infos.getD a default) (values a) values))
    have hset := Vmsa.walk_setLeaf ht hold hens.ok.tree hnew hself (fun x hx => store_of_ne hx) (values a)
    rw [if_pos (Vmsa.agree_refl _ _)] at hset
    rw [← h]
    exact ⟨hens.ok.setLeaf ht (by decide) hold hnew hself fun x hx => store_of_ne hx, by rw [hset], by rw [hset]⟩

/-- It returns when three pages are left. -/
theorem setInitPte_ok (h : s.ptableBot.toNat + 4096 * 3 ≤ top.toNat) :
    ∃ s', setInitPte m top root infos values a s = .ok s' := by
  obtain ⟨s₁, hs⟩ := @ensureLevelLoop_ok top (values a) 3 0 root {} s h
  have he : vmmEnsureLevel top root 3 (values a) s = .ok s₁ := hs
  simp only [setInitPte, vmmPte, vmmPteAtLevel, vmmDescAtLevel, he]
  exact ⟨_, rfl⟩

end Entry

/-! ## Aliases -/

section Alias

variable {p : Platform} {v : VarInfo} {va : U64} {values : Nat → U64} {t : Nat}

theorem getLsbD_pageOf_shiftLeft (x : U64) (i : Nat) :
    (pageOf x <<< 12).getLsbD i = (x.getLsbD i && decide (12 ≤ i) && decide (i < 48)) := by
  refine Mask.getLsbD_slice_shiftLeft x (pageOf x) 12 36 i fun j => ?_
  rw [pageOf, BitVec.getLsbD_and, getLsbD_bitmask (by decide), BitVec.getLsbD_ushiftRight]

/-- The address field of an alias is the page of `TESTDATA_MMAP_VIRT_TO_PHYS` of its target, and bit 16 of its own
page. -/
theorem initDesc_alias (hv : v.ty = .alias t) :
    (initDesc p v va values).type = .block ∧ (initDesc p v va values).level = 3 ∧
      (initDesc p v va values).addr = pageOf (virtToPhys p (values t)) <<< 12 ∧
      (initDesc p v va values).attrs.nT.getLsbD 0 = (safeTestdataPa p va).getLsbD 16 := by
  have hpg : initPage p v va = safeTestdataPa p va &&& ~~~bitmask 12 := by simp only [initPage, hv]
  have h16 : (initPage p v va).getLsbD 16 = (safeTestdataPa p va).getLsbD 16 := by
    rw [hpg, bitmask, Mask.getLsbD_and_not_mask _ (by decide)]
    simp
  obtain ⟨hread, hnT, -⟩ := readDesc_defaultHeap (initPage p v va)
  rw [h16] at hnT
  unfold initDesc
  simp only [hv, hread]
  cases v.initAttrs.ap <;> cases v.initAttrs.attridx <;> simp only [hnT, and_self]

/-- The output address of an alias' entry, bit by bit. -/
theorem getLsbD_outAddr_alias (hv : v.ty = .alias t) (i : Nat) :
    (Vmsa.outAddr (writeDesc (initDesc p v va values)) 12).getLsbD i =
      (((virtToPhys p (values t)).getLsbD i || decide (i = 16) && (safeTestdataPa p va).getLsbD 16) &&
        decide (12 ≤ i) && decide (i < 48)) := by
  obtain ⟨htype, -, haddr, hnT⟩ := @initDesc_alias p v va values t hv
  rw [Vmsa.getLsbD_outAddr, getLsbD_writeDesc_block htype, haddr, getLsbD_pageOf_shiftLeft]
  by_cases h12 : 12 ≤ i
  · by_cases h48 : i < 48
    · have hattr : (writeAttrs (initDesc p v va values).attrs).getLsbD i =
          (decide (i = 16) && (safeTestdataPa p va).getLsbD 16) := by
        by_cases h16 : i = 16
        · rw [h16, getLsbD_writeAttrs, hnT]
          simp
        · rw [getLsbD_writeAttrs_of_not_attrBit _ (by unfold attrBit; omega)]
          simp [h16]
      rw [hattr]
      simp [h12, h48, show i ≠ 1 by omega, show i ≠ 0 by omega]
    · simp [h48]
  · simp [h12]

theorem decode_alias (hv : v.ty = .alias t) : Vmsa.decode 3 (writeDesc (initDesc p v va values)) =
    .leaf (Vmsa.outAddr (writeDesc (initDesc p v va values)) 12) := by
  obtain ⟨htype, hlev, -, -⟩ := @initDesc_alias p v va values t hv
  exact decode_page htype hlev

/-- A target in a window: the addresses differ by bit 16 only. -/
theorem outAddr_alias_window_iff (hv : v.ty = .alias t) {i o : Nat} (ht : InWindow (values t) i o) :
    Vmsa.outAddr (writeDesc (initDesc p v va values)) 12 = safeTestdataPa p (values t) &&& ~~~bitmask 12 ↔
      ((safeTestdataPa p va).getLsbD 16 = true → (safeTestdataPa p (values t)).getLsbD 16 = true) := by
  have hpa : virtToPhys p (values t) = safeTestdataPa p (values t) := by
    rw [safeTestdataPa, ht.inTestdataRange]
    rfl
  have hlt : (safeTestdataPa p (values t)).toNat < 2 ^ 48 := by
    obtain ⟨hi, ho, h⟩ := safeTestdataPa_window p ht
    have := p.fits
    omega
  have hpage : ∀ k, (safeTestdataPa p (values t) &&& ~~~bitmask 12).getLsbD k =
      ((safeTestdataPa p (values t)).getLsbD k && decide (12 ≤ k)) := fun k =>
    Mask.getLsbD_and_not_mask _ (by decide) k
  constructor
  · intro h h16
    have := congrArg (fun x => BitVec.getLsbD x 16) h
    simp only [getLsbD_outAddr_alias hv, hpage, hpa, h16] at this
    simpa using this.symm
  · intro h
    apply BitVec.eq_of_getLsbD_eq
    intro k _
    rw [getLsbD_outAddr_alias hv, hpage, hpa]
    by_cases h48 : k < 48
    · by_cases h16 : k = 16
      · cases ha : (safeTestdataPa p va).getLsbD 16 with
        | false => simp [h48]
        | true => simp [h16, h ha, -BitVec.getLsbD_eq_getElem]
      · simp [h48, h16]
    · simp [h48, Mask.getLsbD_of_lt hlt (not_lt.mp h48)]

/-- An identity-mapped target: the address is taken for a window address, and ends up below the test data. -/
theorem outAddr_alias_phys_ne (hv : v.ty = .alias t) {i o : Nat} (ht : InPhys p (values t) i o) :
    Vmsa.outAddr (writeDesc (initDesc p v va values)) 12 ≠ safeTestdataPa p (values t) &&& ~~~bitmask 12 := by
  intro h
  have hfit := p.fits
  have hal := p.aligned
  obtain ⟨hi, ho, hva⟩ := ht
  -- bit 16 does not reach the bits from 21 on, and there the two addresses differ
  have hdiv : (virtToPhys p (values t)).toNat % 2 ^ 48 / 2 ^ 21 = (values t).toNat / 2 ^ 21 := by
    apply Nat.eq_of_testBit_eq
    intro k
    have hk := congrArg (fun x => BitVec.getLsbD x (21 + k)) h
    rw [safeTestdataPa_phys ⟨hi, ho, hva⟩] at hk
    simp only [getLsbD_outAddr_alias hv, bitmask] at hk
    rw [Mask.getLsbD_and_not_mask _ (by decide)] at hk
    rw [Nat.testBit_div_two_pow, Nat.testBit_div_two_pow, Nat.testBit_mod_two_pow, Nat.add_comm k 21,
      BitVec.testBit_toNat, BitVec.testBit_toNat]
    simpa [show 12 ≤ 21 + k by omega, show 21 + k ≠ 16 by omega, Bool.and_comm] using hk
  have hsub : (values t - testdataMmapBase).toNat = 2 ^ 64 - 2 ^ 37 + (values t).toNat := by
    rw [BitVec.toNat_sub, testdataMmapBase_toNat]
    omega
  have hidx : (2 ^ 64 - 2 ^ 37 + (values t).toNat) / 2 ^ 32 = 2 ^ 32 - 2 ^ 5 + (values t).toNat / 2 ^ 32 := by omega
  have hres : (2 ^ 64 - 2 ^ 37 + (values t).toNat) % 2 ^ 23 = (values t).toNat % 2 ^ 23 := by omega
  rw [toNat_virtToPhys, hsub, hidx, hres] at hdiv
  have hk : (values t).toNat / 2 ^ 32 < 32 := by omega
  have hr : (values t).toNat % 2 ^ 23 < 2 ^ 23 := Nat.mod_lt _ (by decide)
  have hge : p.botOfTestdata.toNat / 2 ^ 21 ≤ (values t).toNat / 2 ^ 21 := by omega
  have hlt : (values t).toNat / 2 ^ 21 < 2 ^ 16 := by omega
  generalize (values t).toNat / 2 ^ 32 = k at *
  generalize (values t).toNat % 2 ^ 23 = r at *
  generalize (values t).toNat / 2 ^ 21 = q at *
  have hsum : (p.botOfTestdata.toNat + (2 ^ 32 - 2 ^ 5 + k) * 2 ^ 23 + r) % 2 ^ 64 =
      p.botOfTestdata.toNat + (2 ^ 32 - 2 ^ 5 + k) * 2 ^ 23 + r := Nat.mod_eq_of_lt (by omega)
  rw [hsum] at hdiv
  rcases Nat.lt_or_ge (p.botOfTestdata.toNat + k * 2 ^ 23 + r) (2 ^ 28) with hlow | hhigh
  · have hmod : (p.botOfTestdata.toNat + (2 ^ 32 - 2 ^ 5 + k) * 2 ^ 23 + r) % 2 ^ 48 =
        2 ^ 48 - 2 ^ 28 + (p.botOfTestdata.toNat + k * 2 ^ 23 + r) := by omega
    rw [hmod] at hdiv
    omega
  · have hmod : (p.botOfTestdata.toNat + (2 ^ 32 - 2 ^ 5 + k) * 2 ^ 23 + r) % 2 ^ 48 =
        p.botOfTestdata.toNat + k * 2 ^ 23 + r - 2 ^ 28 := by omega
    rw [hmod] at hdiv
    omega

end Alias

/-- **An alias is mapped to the page of its target exactly when the target is in a window and bit 16 of the alias' own
physical address is set in the target's too.** The walk of the alias ends at level 3 in any case. -/
theorem setInitPte_alias_iff {p : Platform} {top root : U64} {infos : List VarInfo} {values : Nat → U64} {a t : Nat}
    {s : VmmState} (hw : TablesOk top root s) (hv : (infos.getD a default).ty = .alias t)
    (hva : Placed p (infos.getD a default) (values a)) (hvt : Placed p (infos.getD t default) (values t)) :
    (s.ptableBot.toNat + 4096 * 3 ≤ top.toNat → ∃ s', setInitPte p top root infos values a s = .ok s') ∧
    ∀ s', setInitPte p top root infos values a s = .ok s' →
      (Vmsa.walk s'.mem root (values a)).level = 3 ∧
      (Vmsa.decode 3 (Vmsa.walk s'.mem root (values a)).entry =
          .leaf (safeTestdataPa p (values t) &&& ~~~bitmask 12) ↔
        inTestdataRange (values t) = true ∧
          ((safeTestdataPa p (values a)).getLsbD 16 = true → (safeTestdataPa p (values t)).getLsbD 16 = true)) := by
  refine ⟨setInitPte_ok, fun s' h => ?_⟩
  have hlt : (values a).toNat < 2 ^ 48 := by
    unfold Placed at hva
    have hfit := p.fits
    split at hva
    · obtain ⟨i, o, hi, ho, h⟩ := hva
      omega
    · obtain ⟨i, o, hi, ho, h⟩ := hva
      omega
  obtain ⟨-, hlev, hent⟩ := setInitPte_walk hw hlt h
  refine ⟨hlev, ?_⟩
  rw [hent, decode_alias hv, Vmsa.Entry.leaf.injEq]
  unfold Placed at hvt
  split at hvt
  · obtain ⟨i, o, ht⟩ := hvt
    rw [ht.not_inTestdataRange]
    exact iff_of_false (outAddr_alias_phys_ne hv ht) (by simp)
  · obtain ⟨i, o, ht⟩ := hvt
    rw [ht.inTestdataRange, outAddr_alias_window_iff hv ht]
    simp

/-- An identity-mapped variable `x` with an alias `a`. -/
def aliasIdmapTest : LitmusTest where
  name := "alias+idmap"
  heapVarNames := ["x", "a"]
  initStates := [.heap "x" 0, .identityMap "x", .alias "a" "x"]

/-- What is read of it. -/
def aliasIdmapInfos : List VarInfo :=
  [{ varidx := 0, name := "x", ty := .heap { val := 0, isIdentityMapped := true } .page },
   { varidx := 1, name := "a", ty := .alias 0, initAttrs := { regionOffset := some ⟨0, .page⟩ } }]

/-- `x` at the start of the test data, `a` at the start of the windows. -/
def aliasIdmapValues : Nat → U64 := fun v => if v = 0 then 0x48000000 else 0x2000000000

theorem aliasIdmap_placed : Placed exampleTestdata (aliasIdmapInfos.getD 1 default) (aliasIdmapValues 1) ∧
    Placed exampleTestdata (aliasIdmapInfos.getD 0 default) (aliasIdmapValues 0) :=
  ⟨⟨0, 0, by decide, by decide, rfl⟩, ⟨0, 0, by decide, by decide, rfl⟩⟩

theorem setInitPte_alias_iff_aliasIdmap :
    ((0x10000 : U64).toNat + 4096 * 3 ≤ (0x20000 : U64).toNat →
      ∃ s', setInitPte exampleTestdata 0x20000 0x1000 aliasIdmapInfos aliasIdmapValues 1 ⟨blockMem, 0x10000⟩ = .ok s') ∧
    ∀ s', setInitPte exampleTestdata 0x20000 0x1000 aliasIdmapInfos aliasIdmapValues 1 ⟨blockMem, 0x10000⟩ = .ok s' →
      (Vmsa.walk s'.mem 0x1000 (aliasIdmapValues 1)).level = 3 ∧
      (Vmsa.decode 3 (Vmsa.walk s'.mem 0x1000 (aliasIdmapValues 1)).entry =
          .leaf (safeTestdataPa exampleTestdata (aliasIdmapValues 0) &&& ~~~bitmask 12) ↔
        inTestdataRange (aliasIdmapValues 0) = true ∧
          ((safeTestdataPa exampleTestdata (aliasIdmapValues 1)).getLsbD 16 = true →
            (safeTestdataPa exampleTestdata (aliasIdmapValues 0)).getLsbD 16 = true)) :=
  setInitPte_alias_iff blockMem_tablesOk rfl aliasIdmap_placed.1 aliasIdmap_placed.2

/-- The test is accepted, its variables are where they may be, and the alias is not mapped to the page of `x`. -/
theorem setInitPte_aliasIdmap_wrong :
    readVarInfos aliasIdmapTest {} = .ok ({}, aliasIdmapInfos) ∧
    Placed exampleTestdata (aliasIdmapInfos.getD 1 default) (aliasIdmapValues 1) ∧
    Placed exampleTestdata (aliasIdmapInfos.getD 0 default) (aliasIdmapValues 0) ∧
    ∃ s', setInitPte exampleTestdata 0x20000 0x1000 aliasIdmapInfos aliasIdmapValues 1 ⟨blockMem, 0x10000⟩ = .ok s' ∧
      Vmsa.decode 3 (Vmsa.walk s'.mem 0x1000 (aliasIdmapValues 1)).entry ≠
        .leaf (safeTestdataPa exampleTestdata (aliasIdmapValues 0) &&& ~~~bitmask 12) := by
  refine ⟨rfl, aliasIdmap_placed.1, aliasIdmap_placed.2, ?_⟩
  obtain ⟨s', h⟩ := @setInitPte_ok exampleTestdata 0x20000 0x1000 aliasIdmapInfos aliasIdmapValues 1
    ⟨blockMem, 0x10000⟩ (by decide)
  refine ⟨s', h, ?_⟩
  have hv : (aliasIdmapInfos.getD 1 default).ty = .alias 0 := rfl
  rw [(setInitPte_walk blockMem_tablesOk (by decide) h).2.2, decode_alias hv, ne_eq, Vmsa.Entry.leaf.injEq]
  exact outAddr_alias_phys_ne hv (show InPhys exampleTestdata (aliasIdmapValues 0) 0 0 from ⟨by decide, by decide, rfl⟩)

end LitmusHarness
