import LitmusHarness.Vmm.Frame
import LitmusHarness.Vmm.RegionMap
import Mathlib.Data.List.Chain

/-!
# Regions side by side

Tables into which regions are mapped one after the other, none of them over another one: `Mapped` says that every region
is mapped to where it says, that an entry is in one region, and that there are no tables but for regions. One call of
`vmm_ptable_map` keeps it (`vmmPtableMap_mapped`), so no entry is ever split, and in the end each address translates as
the regions say (`Mapped.translation_eq`). A new table starts without any (`zallocPtable_new`).
-/

namespace LitmusHarness

open Vmsa (Mem agree base size Meets)

/-! ## Regions -/

/-- `x` is in the region. -/
def VMRegion.Has (reg : VMRegion) (x : Nat) : Prop := reg.vaStart.toNat ≤ x ∧ x < reg.vaEnd.toNat

instance (reg : VMRegion) (x : Nat) : Decidable (reg.Has x) := by unfold VMRegion.Has; infer_instance

/-- The regions have no address in common. -/
def VMRegion.Apart (reg reg' : VMRegion) : Prop := ∀ x, reg.Has x → ¬reg'.Has x

theorem VMRegion.Apart.symm {reg reg' : VMRegion} (h : reg.Apart reg') : reg'.Apart reg := fun x hx hx' => h x hx' hx

/-- What a region gives for one of its addresses. -/
def VMRegion.at (reg : VMRegion) (x : Nat) : U64 × Attrs := (reg.paAt x, makeAttrs (reg.memattr ||| reg.prot))

/-- What the regions give for an address. -/
def spaceAt (regs : List VMRegion) (x : Nat) : Option (U64 × Attrs) := (regs.find? fun reg => reg.Has x).map (·.at x)

/-- The region can be mapped, to physical addresses below 2^48 and with attributes that have no `nT`. -/
structure RegionFits (reg : VMRegion) : Prop extends RegionOk reg where
  virt : reg.vaEnd.toNat < 2 ^ 48
  phys : reg.pa.toNat + (reg.vaEnd.toNat - reg.vaStart.toNat) ≤ 2 ^ 48
  noNT : (reg.memattr ||| reg.prot).getLsbD 16 = false

/-- The region has addresses in the block of `x` at a level, and needs a table for it. -/
def VMRegion.Cuts (reg : VMRegion) (x l : Nat) : Prop :=
  Meets reg.vaStart.toNat reg.vaEnd.toNat x l ∧ (l = 0 ∨ ¬reg.Fits x l)

/-- The regions are those that are mapped in the tables below `root`. -/
structure Mapped (regs : List VMRegion) (mem : Mem) (root : U64) : Prop where
  deep : ∀ x : U64, x.toNat < 2 ^ 48 → ∀ l, l < (Vmsa.walk mem root x).level → ∃ reg ∈ regs, reg.Cuts x.toNat l
  leaf : ∀ x : U64, x.toNat < 2 ^ 48 →
    (∃ oa, Vmsa.decode (Vmsa.walk mem root x).level (Vmsa.walk mem root x).entry = .leaf oa) →
    ∃ reg ∈ regs, reg.vaStart.toNat ≤ base x.toNat (Vmsa.walk mem root x).level ∧
      base x.toNat (Vmsa.walk mem root x).level + size (Vmsa.walk mem root x).level ≤ reg.vaEnd.toNat
  right : ∀ reg ∈ regs, ∀ x : U64, x.toNat < 2 ^ 48 → reg.Has x.toNat →
    translation mem root x = some (reg.at x.toNat)

section Regions

variable {reg : VMRegion} {regs : List VMRegion} {top root : U64} {s s' : VmmState} {mem : Mem} {x : U64}

theorem attrs_of_noNT (h : (reg.memattr ||| reg.prot).getLsbD 16 = false) (l : Nat) :
    reg.attrs l = makeAttrs (reg.memattr ||| reg.prot) := by
  have hnT : (makeAttrs (reg.memattr ||| reg.prot)).nT = 0 := setWidth_bit _ 16 0 (by rw [h]; rfl)
  unfold VMRegion.attrs
  split
  · rw [← hnT]
  · rfl

/-- Regions that have an address in common meet. -/
theorem not_meets_of_apart {reg' : VMRegion} (hapart : reg'.Apart reg) {l : Nat}
    (hstart : reg'.vaStart.toNat ≤ base x.toNat l) (hend : base x.toNat l + size l ≤ reg'.vaEnd.toNat) :
    ¬Meets reg.vaStart.toNat reg.vaEnd.toNat x.toNat l := by
  intro hm
  obtain ⟨y, hy₁, hy₂, hb⟩ := hm.exists_mem
  have h₁ := Vmsa.base_le y l
  have h₂ := Vmsa.lt_base_add y l
  rw [hb] at h₁ h₂
  exact hapart y ⟨by omega, by omega⟩ ⟨hy₁, hy₂⟩

/-- **What the tables give is what the regions give.** -/
theorem Mapped.translation_eq (h : Mapped regs mem root) (hx : x.toNat < 2 ^ 48) :
    translation mem root x = spaceAt regs x.toNat := by
  unfold spaceAt
  cases hf : regs.find? fun reg => reg.Has x.toNat with
  | some reg => exact h.right reg (List.mem_of_find?_eq_some hf) x hx (by simpa using List.find?_some hf)
  | none =>
    rw [Option.map_none, translation]
    cases hd : Vmsa.decode (Vmsa.walk mem root x).level (Vmsa.walk mem root x).entry with
    | leaf oa =>
      obtain ⟨reg, hr, hstart, hend⟩ := h.leaf x hx ⟨oa, hd⟩
      have h₁ := Vmsa.base_le x.toNat (Vmsa.walk mem root x).level
      have h₂ := Vmsa.lt_base_add x.toNat (Vmsa.walk mem root x).level
      have := List.find?_eq_none.mp hf reg hr
      simp only [decide_eq_true_eq] at this
      exact absurd ⟨by omega, by omega⟩ this
    | invalid => simp only [Vmsa.End.pa, hd, Option.map_none]
    | table next => simp only [Vmsa.End.pa, hd, Option.map_none]

/-- An address of a region, where no other one has it. -/
theorem spaceAt_of_has {y : Nat} (hapart : regs.Pairwise VMRegion.Apart) (hreg : reg ∈ regs) (hy : reg.Has y) :
    spaceAt regs y = some (reg.at y) := by
  unfold spaceAt
  cases hf : regs.find? fun reg => reg.Has y with
  | none => exact absurd hy (by simpa using List.find?_eq_none.mp hf reg hreg)
  | some reg' =>
    have hy' : reg'.Has y := by simpa using List.find?_some hf
    by_cases heq : reg' = reg
    · rw [heq]
      rfl
    · have hsymm : Std.Symm VMRegion.Apart := ⟨fun _ _ => VMRegion.Apart.symm⟩
      exact absurd hy (hapart.forall (List.mem_of_find?_eq_some hf) hreg heq y hy')

theorem spaceAt_of_not {y : Nat} (h : ∀ reg ∈ regs, ¬reg.Has y) : spaceAt regs y = none := by
  unfold spaceAt
  rw [List.find?_eq_none.mpr fun reg hreg => by simpa using h reg hreg]
  rfl

/-- The block or page that maps an address of the region is in the region. -/
theorem mapLevel_inside (hreg : RegionOk reg) {x : Nat} (hx : reg.Has x) :
    reg.vaStart.toNat ≤ base x (reg.mapLevel x) ∧
      base x (reg.mapLevel x) + size (reg.mapLevel x) ≤ reg.vaEnd.toNat := by
  unfold VMRegion.mapLevel
  split
  · exact (‹reg.Fits x 1›).2
  · split
    · exact (‹reg.Fits x 2›).2
    · exact ⟨Vmsa.le_base (Nat.dvd_of_mod_eq_zero hreg.start) hx.1,
        Vmsa.base_add_le (Nat.dvd_of_mod_eq_zero hreg.last) hx.2⟩

/-- Above the level at which an address is mapped its blocks do not fit. -/
theorem not_fits_of_lt_mapLevel {x l : Nat} (h : l < reg.mapLevel x) : l = 0 ∨ ¬reg.Fits x l := by
  have hle := (reg.mapLevel_bounds x).2
  match l with
  | 0 => exact .inl rfl
  | 1 => exact .inr fun hf => by rw [VMRegion.mapLevel_one hf] at h; omega
  | 2 =>
    refine .inr fun hf => ?_
    by_cases h1 : reg.Fits x 1
    · rw [VMRegion.mapLevel_one h1] at h
      omega
    · rw [VMRegion.mapLevel_two h1 hf] at h
      omega
  | l + 3 => omega

/-- There are no tables under a region that is apart from those that are mapped. -/
theorem Mapped.level_le (h : Mapped regs mem root) (hreg : RegionOk reg) (hapart : ∀ r ∈ regs, r.Apart reg)
    (hx : x.toNat < 2 ^ 48) (hin : reg.Has x.toNat) :
    (Vmsa.walk mem root x).level ≤ reg.mapLevel x.toNat := by
  by_contra hlt
  obtain ⟨r, hr, hm, -⟩ := h.deep x hx _ (not_le.mp hlt)
  obtain ⟨hstart, hend⟩ := mapLevel_inside hreg hin
  exact not_meets_of_apart (fun y hy hy' => hapart r hr y hy' hy) hstart hend hm

/-- In an address space, a region that is apart from the others is mapped exactly. -/
theorem Mapped.mapExact (h : Mapped regs mem root) (hreg : RegionFits reg) (hapart : ∀ r ∈ regs, r.Apart reg)
    (hx : x.toNat < 2 ^ 48) : MapExact mem root reg x := by
  dsimp only [MapExact]
  split
  · rename_i hin
    have hle := h.level_le hreg.toRegionOk hapart hx hin
    rw [if_pos (Or.inl hle), max_eq_right hle]
    obtain ⟨-, hge⟩ := paAt_base_aligned hreg.toRegionOk hin.1
    have hbase := Vmsa.base_le x.toNat (reg.mapLevel x.toNat)
    have hphys := hreg.phys
    refine ⟨?_, fun _ hnT => by rw [hreg.noNT] at hnT; cases hnT⟩
    rw [VMRegion.paAt, BitVec.toNat_add, BitVec.toNat_ofNat]
    omega
  · intro hleaf hm
    obtain ⟨r, hr, hstart, hend⟩ := h.leaf x hx hleaf
    exact absurd hm (not_meets_of_apart (hapart r hr) hstart hend)

/-- What would be split: an entry of one of the regions, or an invalid one. -/
theorem Mapped.split_cases (h : Mapped regs mem root) (h0 : RootOk mem root) (hx : x.toNat < 2 ^ 48)
    (hl : (Vmsa.walk mem root x).level ≤ 2) :
    (∃ reg ∈ regs, reg.vaStart.toNat ≤ base x.toNat (Vmsa.walk mem root x).level ∧
      base x.toNat (Vmsa.walk mem root x).level + size (Vmsa.walk mem root x).level ≤ reg.vaEnd.toNat) ∨
    splitEntry (Vmsa.walk mem root x).entry (Vmsa.walk mem root x).level = 0 := by
  have htable : (readDesc (Vmsa.walk mem root x).entry (Vmsa.walk mem root x).level).type ≠ .table := by
    intro ht
    obtain ⟨t, htab, hs, he, hn⟩ := Vmsa.walk_ends mem root x
    refine hn _ (decode_of_readDesc_table (by omega) (fun hl0 => ?_) ht)
    rw [hl0] at htab hs
    cases htab
    rw [he, hs]
    exact h0 x
  rcases readDesc_not_table hl htable with ⟨hinv, -⟩ | ⟨hl12, hres, -⟩
  · exact .inr (splitEntry_invalid hinv)
  · refine .inl (h.leaf x hx ⟨Vmsa.outAddr (Vmsa.walk mem root x).entry (Vmsa.shift (Vmsa.walk mem root x).level), ?_⟩)
    rcases hl12 with hl | hl <;> simp [hl, Vmsa.decode, hres.1, hres.2, -BitVec.getLsbD_eq_getElem]

/-- **A region is mapped beside the others.** -/
theorem vmmPtableMap_mapped (hw : TablesOk top root s) (hM : Mapped regs s.mem root) (hreg : RegionFits reg)
    (hapart : ∀ r ∈ regs, r.Apart reg) (h : vmmPtableMap top root reg s = .ok s') :
    TablesOk top root s' ∧ Mapped (regs ++ [reg]) s'.mem root := by
  obtain ⟨st, rfl, hva, hI⟩ := (vmmPtableMap_inv hreg.toRegionOk hw).1 s' h
  have hright : ∀ x : U64, x.toNat < 2 ^ 48 → MapRight s.mem st.vmm.mem root reg x := fun x hx =>
    (vmmPtableMap_right_iff hw hreg.toRegionOk h hx).mpr (hM.mapExact hreg hapart hx)
  refine ⟨hI.ok, fun x hx l hl => ?_, fun x hx hleaf => ?_, fun r hr x hx hin => ?_⟩
  · by_cases hin : reg.Has x.toNat
    · obtain ⟨-, hdone⟩ := hI.finished x hin.1 (by rw [hva]; exact hin.2)
      obtain ⟨hlevel, -⟩ := hdone.tile (hM.level_le hreg.toRegionOk hapart hx hin)
      rw [hlevel] at hl
      exact ⟨reg, by simp, Vmsa.meets_of_mem hin.1 hin.2 rfl, not_fits_of_lt_mapLevel hl⟩
    · obtain ⟨m, hm⟩ := hI.todo x hx (by rwa [hva])
      rw [hm.level] at hl
      rcases lt_max_iff.mp hl with hl | hl
      · obtain ⟨r, hr, hcuts⟩ := hM.deep x hx l hl
        exact ⟨r, List.mem_append_left _ hr, hcuts⟩
      · have hmeet := hm.meets l hl
        rw [hva] at hmeet
        refine ⟨reg, by simp, hmeet, .inr fun hfits => hin ?_⟩
        exact ⟨hfits.2.1.trans (Vmsa.base_le _ _), (Vmsa.lt_base_add _ _).trans_le hfits.2.2⟩
  · by_cases hin : reg.Has x.toNat
    · obtain ⟨-, hdone⟩ := hI.finished x hin.1 (by rw [hva]; exact hin.2)
      obtain ⟨hlevel, -⟩ := hdone.tile (hM.level_le hreg.toRegionOk hapart hx hin)
      refine ⟨reg, by simp, ?_⟩
      rw [hlevel]
      exact mapLevel_inside hreg.toRegionOk hin
    · obtain ⟨m, hm⟩ := hI.todo x hx (by rwa [hva])
      by_cases hle : m ≤ (Vmsa.walk s.mem root x).level
      · rw [hm.keep hle] at hleaf ⊢
        obtain ⟨r, hr, hb⟩ := hM.leaf x hx hleaf
        exact ⟨r, List.mem_append_left _ hr, hb⟩
      · have hlt := not_le.mp hle
        obtain ⟨oa, hleaf⟩ := hleaf
        rw [hm.split hlt] at hleaf
        rcases hM.split_cases hw.rootOk hx (by have := hm.le; omega) with ⟨r, hr, hstart, hend⟩ | hzero
        · have hmeet := hm.meets _ hlt
          rw [hva] at hmeet
          exact absurd hmeet (not_meets_of_apart (hapart r hr) hstart hend)
        · rw [hzero] at hleaf
          cases hleaf
  · have hx' := hright x hx
    unfold MapRight at hx'
    rcases List.mem_append.mp hr with hr | hr
    · have hout : ¬(reg.vaStart.toNat ≤ x.toNat ∧ x.toNat < reg.vaEnd.toNat) := hapart r hr _ hin
      rw [if_neg hout, hM.right r hr x hx hin] at hx'
      exact hx'
    · obtain rfl := List.mem_singleton.mp hr
      have hin : r.vaStart.toNat ≤ x.toNat ∧ x.toNat < r.vaEnd.toNat := hin
      rw [if_pos hin, attrs_of_noNT hreg.noNT] at hx'
      exact hx'

end Regions

/-! ## Maps of regions -/

section Maps

variable {lo : Nat} {top root : U64} {map : VMRegions} {regs : List VMRegion} {s s₀ s' : VmmState}

/-- The one region is below the other. -/
def VMRegion.Before (reg reg' : VMRegion) : Prop :=
  reg.vaEnd.toNat ≤ reg'.vaStart.toNat ∧ reg'.vaStart.toNat ≤ reg'.vaEnd.toNat

theorem VMRegion.Before.trans {reg reg' reg'' : VMRegion} (h : reg.Before reg') (h' : reg'.Before reg'') :
    reg.Before reg'' := ⟨(h.1.trans h.2).trans h'.1, h'.2⟩

theorem VMRegion.Before.apart {reg reg' : VMRegion} (h : reg.Before reg') : reg.Apart reg' := fun x hx hx' => by
  have h₁ := h.1
  have h₂ := hx.2
  have h₃ := hx'.1
  omega

/-- Regions in order are apart. -/
theorem apart_of_chain {regs : List VMRegion} (h : regs.IsChain VMRegion.Before) : regs.Pairwise VMRegion.Apart := by
  have htrans : Trans VMRegion.Before VMRegion.Before VMRegion.Before := ⟨VMRegion.Before.trans⟩
  exact (List.isChain_iff_pairwise.mp h).imp VMRegion.Before.apart

/-- A table that is being built: the regions are mapped, in pages of its own. -/
structure Built (lo : Nat) (top root : U64) (regs : List VMRegion) (s₀ s : VmmState) : Prop where
  kept : KeptBelow lo top root s₀ s
  mapped : Mapped regs s.mem root

/-- **The regions of a map are mapped beside the others.** -/
theorem mapRegions_built {l : List VMRegionTag} (hB : Built lo top root regs s₀ s)
    (hfits : ∀ i ∈ l, RegionFits (map i).region)
    (hapart : (regs ++ l.map fun i => (map i).region).Pairwise VMRegion.Apart) :
    (∀ s', (mapRegions top root map l s).2 = .ok s' →
      Built lo top root (regs ++ l.map fun i => (map i).region) s₀ s') ∧
    ∀ e, (mapRegions top root map l s).2 = .error e → e = outOfPtables := by
  induction l generalizing regs s with
  | nil =>
    refine ⟨fun s' h => ?_, fun e h => by cases h⟩
    cases h
    rwa [List.map_nil, List.append_nil]
  | cons i l ih =>
    obtain ⟨hi, hl⟩ := List.forall_mem_cons.mp hfits
    rw [List.map_cons, List.append_cons] at hapart ⊢
    rw [mapRegions]
    cases hmap : vmmPtableMap top root (map i).region s with
    | error e =>
      refine ⟨fun s' h => (by cases h), fun e' h => ?_⟩
      cases h
      exact (vmmPtableMap_inv hi.toRegionOk hB.kept.ok).2 e hmap
    | ok s₁ =>
      have hregs : ∀ r ∈ regs, r.Apart (map i).region := fun r hr =>
        (List.pairwise_append.mp (List.pairwise_append.mp hapart).1).2.2 r hr _ (List.mem_singleton.mpr rfl)
      exact ih ⟨hB.kept.trans (vmmPtableMap_keptBelow hB.kept.toOwnPages hi.toRegionOk hi.virt hmap),
        (vmmPtableMap_mapped hB.kept.ok hB.mapped hi hregs hmap).2⟩ hl hapart

/-- A page of zeros is a table without regions. -/
theorem mapped_of_zeros (hz : ∀ x l, s.mem (Vmsa.slot root x l) = 0) (hroot : root.toNat % 4096 = 0)
    (hbot : s.ptableBot.toNat = root.toNat + 4096) (hle : s.ptableBot.toNat ≤ top.toNat) (htop : top.toNat % 4096 = 0)
    (h48 : top.toNat ≤ 2 ^ 48) : OwnPages root.toNat top root s ∧ Mapped [] s.mem root := by
  have htab : ∀ x l t, Vmsa.tableAt s.mem root x l = some t → l = 0 ∧ t = root := by
    intro x l t h
    induction l generalizing t with
    | zero => exact ⟨rfl, (Option.some.inj h).symm⟩
    | succ l ih =>
      obtain ⟨t', ht', hd⟩ := Vmsa.tableAt_succ.mp h
      obtain ⟨rfl, rfl⟩ := ih t' ht'
      rw [hz] at hd
      cases hd
  have hzero : Vmsa.decode 0 0 = .invalid := by decide
  have hwalk : ∀ x, Vmsa.walk s.mem root x = ⟨0, Vmsa.slot root x 0, 0⟩ := fun x =>
    Vmsa.walk_eq ⟨root, rfl, rfl, (hz x 0).symm, fun next h => Vmsa.Entry.noConfusion (hzero.symm.trans h)⟩
  refine ⟨⟨⟨⟨hroot, fun {x x' t l l'} h h' => ?_⟩, fun x h => ?_, by omega, htop, h48, fun x l t h => ?_⟩,
    fun x l t h => ?_, fun p h₁ h₂ h₃ => ⟨0, 0, by decide, congrArg some (BitVec.eq_of_toNat_eq (by omega))⟩,
    hle⟩, fun x _ l hl => ?_, fun x _ hleaf => ?_, fun r hr => ?_⟩
  · obtain ⟨rfl, -⟩ := htab x l t h
    obtain ⟨rfl, -⟩ := htab x' l' t h'
    exact ⟨rfl, fun k hk => by omega⟩
  · rw [hz] at h
    cases h.1
  · obtain ⟨-, rfl⟩ := htab x l t h
    omega
  · obtain ⟨-, rfl⟩ := htab x l t h
    omega
  · rw [hwalk] at hl
    cases hl
  · rw [hwalk] at hleaf
    obtain ⟨oa, hleaf⟩ := hleaf
    cases hzero.symm.trans hleaf
  · cases hr

/-- A new table has no regions. -/
theorem zallocPtable_new (hbot : s.ptableBot.toNat % 4096 = 0) (htop : top.toNat % 4096 = 0)
    (h48 : top.toNat ≤ 2 ^ 48) (h : zallocPtable top s = .ok (root, s')) :
    root = s.ptableBot ∧ Built root.toNat top root [] s s' := by
  unfold zallocPtable at h
  dsimp only at h
  split at h
  · cases h
  rename_i hge
  have hlt := BitVec.not_le.mp hge
  rw [BitVec.lt_def] at hlt
  cases h
  have hbot' : (s.ptableBot + 4096).toNat = s.ptableBot.toNat + 4096 := by
    rw [BitVec.toNat_add, show (4096 : U64).toNat = 4096 from rfl]
    omega
  have hin : ∀ a : U64, (a - s.ptableBot).toNat < 4096 ↔ Vmsa.inPage s.ptableBot a := fun a =>
    sub_lt_iff_inPage (by omega)
  obtain ⟨hown, hmapped⟩ := @mapped_of_zeros top s.ptableBot
    ⟨fun a => if (a - s.ptableBot).toNat < 4096 then 0 else s.mem a, s.ptableBot + 4096⟩
    (fun x l => if_pos ((hin _).mpr (Vmsa.slot_inPage hbot x l))) hbot hbot' (by dsimp only; omega) htop h48
  refine ⟨rfl, ⟨hown, fun a ha => if_neg ?_, ?_⟩, hmapped⟩
  · rw [hin]
    rintro ⟨h₁, -⟩
    omega
  · dsimp only
    omega

end Maps

end LitmusHarness
