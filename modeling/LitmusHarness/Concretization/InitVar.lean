import LitmusHarness.Concretization.InitPte

/-!
# `set_init_var`

A backed variable is initialised in two ways: its page-table entry is written (`set_init_pte`), and the harness stores
its value through its own mapping of the physical memory, at `SAFE_TESTDATA_VA`. Both compute the physical address of
the variable; the main result, `setInitVar_lands`, is that it is the same one.
-/

namespace LitmusHarness

/-- `set_init_var` with page tables on: the state after `set_init_pte`, and the store to the variable if it is backed,
as its address in the harness' mapping and its value. -/
def setInitVar (m : Machine) (top root : U64) (infos : List VarInfo) (values : Nat → U64) (varidx : Nat) (s : VmmState) :
    Except String (VmmState × Option (U64 × U64)) :=
  let vinfo := infos.getD varidx default
  let va := values varidx
  match setInitPte m top root infos values varidx s with
  | .error e => .error e
  | .ok s => .ok (s, vinfo.backing.map fun back => (safeTestdataVa m va, back.val))

section InitVar

variable {m : Machine} {v : VarInfo} {va : U64} {values : Nat → U64}

/-- The entry for a backed variable: the page of its own physical address. -/
theorem initDesc_backed (hv : v.isBacked = true) :
    (initDesc m v va values).type = .block ∧ (initDesc m v va values).level = 3 ∧
      (initDesc m v va values).attrs.nT.getLsbD 0 = (safeTestdataPa m va).getLsbD 16 ∧
      ∀ i, (initDesc m v va values).addr.getLsbD i =
        ((safeTestdataPa m va).getLsbD i && decide (12 ≤ i) && decide (i < 48)) := by
  have hbits : ∀ i, (safeTestdataPa m va &&& ~~~bitmask 12).getLsbD i =
      ((safeTestdataPa m va).getLsbD i && decide (12 ≤ i)) := fun i => Mask.getLsbD_and_not_mask _ (by decide) i
  obtain ⟨hread, hnT, haddr⟩ := readDesc_defaultHeap (safeTestdataPa m va &&& ~~~bitmask 12)
  replace haddr : ∀ i, (descAddr (vmmMakeDesc (safeTestdataPa m va &&& ~~~bitmask 12) protDefaultHeap 3) 12).getLsbD i =
      ((safeTestdataPa m va).getLsbD i && decide (12 ≤ i) && decide (i < 48)) := by
    intro i
    rw [haddr, hbits, Bool.and_assoc _ (decide (12 ≤ i)) (decide (12 ≤ i)), Bool.and_self]
  rw [hbits, show decide (12 ≤ 16) = true from rfl, Bool.and_true] at hnT
  obtain ⟨varidx, name, attrs, ty⟩ := v
  cases ty with
  | heap back own | pinned back r lvl =>
    simp only [initDesc, initPage, hread]
    cases attrs.ap <;> cases attrs.attridx <;> exact ⟨rfl, rfl, hnT, haddr⟩
  | _ => cases hv

/-- Its output address. -/
theorem outAddr_backed (hv : v.isBacked = true) (hpa : (safeTestdataPa m va).toNat < 2 ^ 48) :
    Vmsa.outAddr (writeDesc (initDesc m v va values)) 12 = safeTestdataPa m va &&& ~~~bitmask 12 := by
  obtain ⟨htype, hlev, hnT, haddr⟩ := @initDesc_backed m v va values hv
  apply BitVec.eq_of_getLsbD_eq
  intro i _
  rw [Vmsa.getLsbD_outAddr, getLsbD_writeDesc_block htype, haddr, bitmask, Mask.getLsbD_and_not_mask _ (by decide)]
  by_cases h48 : i < 48
  · by_cases h12 : 12 ≤ i
    · have hattr : (writeAttrs (initDesc m v va values).attrs).getLsbD i =
          (decide (i = 16) && (safeTestdataPa m va).getLsbD 16) := by
        by_cases h16 : i = 16
        · subst h16
          rw [getLsbD_writeAttrs, hnT]
          simp
        · rw [getLsbD_writeAttrs_of_not_attrBit _ (by unfold attrBit; omega)]
          simp [h16]
      rw [hattr]
      by_cases h16 : i = 16
      · subst h16
        simp
      · simp [h48, h12, h16, show i ≠ 1 by omega, show i ≠ 0 by omega]
    · simp [h12]
  · simp [h48, Mask.getLsbD_of_lt hpa (not_lt.mp h48)]

/-- A variable that is placed has a 48-bit address. -/
theorem Placed.lt (hfit : m.botOfTestdata.toNat + 2 ^ 27 ≤ 2 ^ 48) (h : Placed m v va) : va.toNat < 2 ^ 48 := by
  unfold Placed at h
  split at h
  · obtain ⟨i, o, hi, ho, hva⟩ := h
    omega
  · obtain ⟨i, o, hi, ho, hva⟩ := h
    omega

/-- **The variable is translated to where the harness stored its value**, wherever the test data is in the 48-bit
physical address space. -/
theorem setInitVar_lands {top root : U64} {infos : List VarInfo} {a : Nat} {back : Backing} {s : VmmState}
    (hal : m.botOfTestdata.toNat % 2 ^ 21 = 0) (hfit : m.botOfTestdata.toNat + 2 ^ 27 ≤ 2 ^ 48) (harness : U64 → U64)
    (hmap : ∀ x, harness (harnessMmapBase + x) = m.botOfMem + x) (hw : TablesOk top root s)
    (hv : (infos.getD a default).backing = some back) (hva : Placed m (infos.getD a default) (values a)) :
    (s.ptableBot.toNat + 4096 * 3 ≤ top.toNat → ∃ r, setInitVar m top root infos values a s = .ok r) ∧
    ∀ s' store, setInitVar m top root infos values a s = .ok (s', store) →
      ∃ safeVa, store = some (safeVa, back.val) ∧
        (Vmsa.walk s'.mem root (values a)).pa (values a) = some (harness safeVa) := by
  refine ⟨fun h => ?_, fun s' store h => ?_⟩
  · obtain ⟨s', hs'⟩ := @setInitPte_ok m top root infos values a s h
    exact ⟨_, by simp only [setInitVar, hs']; rfl⟩
  · unfold setInitVar at h
    cases hpte : setInitPte m top root infos values a s with
    | error e => simp [hpte] at h
    | ok s₁ =>
      simp only [hpte, hv, Option.map_some, Except.ok.injEq, Prod.mk.injEq] at h
      obtain ⟨rfl, rfl⟩ := h
      refine ⟨_, rfl, ?_⟩
      have hb : (infos.getD a default).isBacked = true := by rw [VarInfo.isBacked, hv]; rfl
      have hlt := hva.lt hfit
      obtain ⟨hpa, hpage⟩ := safeTestdataPa_page hal hfit hlt
      obtain ⟨-, hlev, hent⟩ := setInitPte_walk hw hlt hpte
      obtain ⟨htype, hl3, -, -⟩ := @initDesc_backed m _ (values a) values hb
      have hharness : harness (safeTestdataVa m (values a)) = safeTestdataPa m (values a) := by
        rw [safeTestdataVa_eq, harnessMmapPhysToVirt, hmap, BitVec.add_comm, BitVec.sub_add_cancel]
      rw [Vmsa.End.pa, hlev, hent, decode_page htype hl3, outAddr_backed hb hpa, hharness, Option.some.injEq]
      -- the page and the offset in it
      apply BitVec.eq_of_toNat_eq
      rw [BitVec.toNat_add, toNat_and_not_bitmask _ (by decide), BitVec.toNat_ofNat, Vmsa.shift]
      omega

end InitVar

/-- The identity-mapped variable of the test above, at the start of the test data. -/
theorem setInitVar_lands_aliasIdmap :
    ((0x10000 : U64).toNat + 4096 * 3 ≤ (0x20000 : U64).toNat →
      ∃ r, setInitVar exampleTestdata 0x20000 0x1000 aliasIdmapInfos aliasIdmapValues 0 ⟨blockMem, 0x10000⟩ = .ok r) ∧
    ∀ s' store,
      setInitVar exampleTestdata 0x20000 0x1000 aliasIdmapInfos aliasIdmapValues 0 ⟨blockMem, 0x10000⟩ =
        .ok (s', store) →
      ∃ safeVa, store = some (safeVa, 0) ∧ (Vmsa.walk s'.mem 0x1000 (aliasIdmapValues 0)).pa (aliasIdmapValues 0) =
        some (safeVa - harnessMmapBase + 0x40000000) :=
  @setInitVar_lands exampleTestdata aliasIdmapValues 0x20000 0x1000 aliasIdmapInfos 0
    { val := 0, isIdentityMapped := true } ⟨blockMem, 0x10000⟩ (by decide) (by decide)
    (fun y => y - harnessMmapBase + 0x40000000)
    (fun x => by rw [BitVec.add_comm harnessMmapBase x, BitVec.add_sub_cancel]; exact BitVec.add_comm _ _)
    blockMem_tablesOk rfl aliasIdmap_placed.2

end LitmusHarness
