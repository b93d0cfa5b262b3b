import LitmusHarness.Vmm.Pgtable
import LitmusHarness.Lib.VmsaRegion
import Mathlib.Tactic.IntervalCases

/-!
# `vmm_ptable_unmap`

One entry of the level that belongs to the size of the region is cleared, at its first address. The walks that share the
entry end in a fault; the others are what `vmm_ensure_level` made of them (`setBlockOrPage_cleared`). So the region is
unmapped and nothing else changes exactly when no larger block was split and no table below the entry maps the rest of
the region (`vmmPtableUnmap_exact_iff`).
-/

namespace LitmusHarness

open Vmsa (Mem agree base size)

/-! ## The function of the source -/

/-- `vmm_ptable_unmap`. The sizes are those of a page, of a PMD and of a PUD entry. -/
def vmmPtableUnmap (top root : U64) (reg : VMRegion) (s : VmmState) : Except String VmmState :=
  let level : Except String Nat :=
    if reg.vaEnd - reg.vaStart = 4 * KiB then .ok 3
    else if reg.vaEnd - reg.vaStart = 2 * MiB then .ok 2
    else if reg.vaEnd - reg.vaStart = GiB then .ok 1
    else .error "! vmm_ptable_unmap can only unmap PAGE/PMD/PUD size chunk (0x%lx, 0x%lx, 0x%lx respectively)\n"
  match level with
  | .error e => .error e
  | .ok level => setBlockOrPage top root reg.vaStart 0 true 0 level s

/-! ## One entry -/

section Clear

variable {top root a p prot : U64} {d : Nat} {s s' : VmmState}

/-- **What `set_block_or_page` does when it unmaps**: after `vmm_ensure_level` the last entry of the walk is cleared. -/
theorem setBlockOrPage_cleared (hw : TablesOk top root s) (ha : a.toNat < 2 ^ 48) (hd : d ≤ 3)
    (h : setBlockOrPage top root a p true prot d s = .ok s') : ∃ s₁, Ensured top root a d s s₁ ∧ ∀ x,
      (agree a x (max (Vmsa.walk s.mem root a).level d + 1) → translation s'.mem root x = none) ∧
      (¬agree a x (max (Vmsa.walk s.mem root a).level d + 1) →
        translation s'.mem root x = translation s₁.mem root x) := by
  have hnew : ∀ next, Vmsa.decode (max (Vmsa.walk s.mem root a).level d) 0 ≠ .table next := by
    intro next hc
    exact absurd (Vmsa.decode_table hc).2.2.1 (by decide)
  obtain ⟨s₁, hens, -, hwalk⟩ := setBlockOrPage_walk hw ha hd (if_pos rfl) hnew h
  refine ⟨s₁, hens, fun x => ⟨fun hx => ?_, fun hx => ?_⟩⟩
  · exact translation_of_invalid (by rw [hwalk, if_pos hx]; exact BitVec.getLsbD_zero)
  · exact translation_of_walk (by rw [hwalk, if_neg hx])

/-- An address in the region of `a` at level `l`, but not at the next level, and not at the start of the region. -/
theorem exists_neighbour (ha : a.toNat < 2 ^ 48) {l : Nat} (hl : l = 1 ∨ l = 2) : ∃ x : U64, x.toNat < 2 ^ 48 ∧
    agree a x (l + 1) ∧ ¬agree a x (l + 2) ∧ x.toNat % size (l + 1) = 0 ∧ x.toNat % size l ≠ 0 := by
  obtain ⟨k, hk1, hk2, hk⟩ : ∃ k, 0 < k ∧ k ≤ 2 ∧ k ≠ a.toNat / size (l + 1) % 512 := by
    by_cases h : a.toNat / size (l + 1) % 512 = 1
    · exact ⟨2, by omega, by omega, by omega⟩
    · exact ⟨1, by omega, by omega, fun hc => h hc.symm⟩
  refine ⟨BitVec.ofNat 64 (base a.toNat l + k * size (l + 1)), ?_⟩
  have hx : (BitVec.ofNat 64 (base a.toNat l + k * size (l + 1))).toNat = base a.toNat l + k * size (l + 1) := by
    rw [BitVec.toNat_ofNat]
    apply Nat.mod_eq_of_lt
    rcases hl with rfl | rfl
    · simp only [base, size, Vmsa.shift]
      omega
    · simp only [base, size, Vmsa.shift]
      omega
  generalize hxe : BitVec.ofNat 64 (base a.toNat l + k * size (l + 1)) = x at hx
  have hlt : x.toNat < 2 ^ 48 := by
    rw [hx]
    rcases hl with rfl | rfl
    · simp only [base, size, Vmsa.shift]
      omega
    · simp only [base, size, Vmsa.shift]
      omega
  rw [Vmsa.agree_iff_base ha hlt (by omega), Vmsa.agree_iff_base ha hlt (by omega), hx]
  rw [hx] at hlt
  rcases hl with rfl | rfl
  · simp only [base, size, Vmsa.shift] at *
    omega
  · simp only [base, size, Vmsa.shift] at *
    omega

/-- A block that is split takes the translation of an address with it that is not in the region of `a`. -/
theorem Ensured.translation_ne_outside (h : Ensured top root a d s s') (ha : a.toNat < 2 ^ 48) (hd : d ≤ 3)
    (hs : SplitsBlock s.mem root a d) : ∃ x : U64, x.toNat < 2 ^ 48 ∧ ¬agree a x (d + 1) ∧
      translation s'.mem root x ≠ translation s.mem root x := by
  obtain ⟨hlt, oa, hleaf⟩ := hs
  obtain ⟨hl, hR⟩ := reserved_of_leaf hleaf (by omega)
  obtain ⟨x, hx, hag, hnag, hal, hoff⟩ := exists_neighbour ha hl
  have hsame := Vmsa.walk_agree hag
  rw [← hsame] at hl hlt hR hag hnag hleaf hal hoff
  refine ⟨x, hx, fun hc => hnag (hc.mono (by omega)), ?_⟩
  obtain ⟨h1, h2, h3, -, he⟩ := h.split x hlt hag
  have hlev : (Vmsa.walk s'.mem root x).level = (Vmsa.walk s.mem root x).level + 1 := by
    by_contra hne
    exact hnag (h3.mono (by omega))
  rw [translation_leaf hleaf]
  rcases hl with hl | hl
  · -- a copy of a 1 GiB block at level 2 maps to the start of it
    rw [hl] at he hlev hal hoff
    rw [translation_split_two hR hlev he, (Vmsa.decode_leaf hleaf).2.1]
    simp only [hl, Vmsa.shift, ne_eq, Option.some.injEq, Prod.mk.injEq, not_and]
    intro heq
    have := congrArg BitVec.toNat ((BitVec.add_right_inj _).mp heq)
    rw [BitVec.toNat_ofNat, BitVec.toNat_ofNat] at this
    simp only [size, Vmsa.shift] at hal hoff
    omega
  · rw [hl] at hlev
    rw [translation_split_three (.inr hl) hR hlev he]
    simp

end Clear

/-! ## The region -/

/-- A region that can be unmapped, of the size of an entry of level `d`. -/
structure UnmapOk (reg : VMRegion) (d : Nat) : Prop where
  level : d = 1 ∨ d = 2 ∨ d = 3
  size : (reg.vaEnd - reg.vaStart).toNat = size d
  aligned : reg.vaStart.toNat % Vmsa.size d = 0
  lt : reg.vaStart.toNat < 2 ^ 48

/-- In the region. -/
def VMRegion.Mem (reg : VMRegion) (x : U64) : Prop := reg.vaStart.toNat ≤ x.toNat ∧ x.toNat < reg.vaEnd.toNat

/-- The region is unmapped and nothing else changes. -/
def UnmapRight (mem₀ mem : Mem) (root : U64) (reg : VMRegion) : Prop := ∀ x : U64, x.toNat < 2 ^ 48 →
  (reg.Mem x → translation mem root x = none) ∧ (¬reg.Mem x → translation mem root x = translation mem₀ root x)

/-- No larger block covers the region, and the walk of its first address ends in an entry that covers all of it that is
mapped. -/
def UnmapExact (mem₀ : Mem) (root : U64) (reg : VMRegion) (d : Nat) : Prop :=
  ¬SplitsBlock mem₀ root reg.vaStart d ∧
    ∀ x : U64, reg.Mem x → ¬agree reg.vaStart x ((Vmsa.walk mem₀ root reg.vaStart).level + 1) →
      translation mem₀ root x = none

section Unmap

variable {top root : U64} {reg : VMRegion} {d : Nat} {s s' : VmmState}

theorem vmmPtableUnmap_eq (h : UnmapOk reg d) :
    vmmPtableUnmap top root reg s = setBlockOrPage top root reg.vaStart 0 true 0 d s := by
  have hsize : reg.vaEnd - reg.vaStart = BitVec.ofNat 64 (size d) := by
    rw [← h.size, BitVec.ofNat_toNat, BitVec.setWidth_eq]
  unfold vmmPtableUnmap
  rw [hsize]
  rcases h.level with rfl | rfl | rfl
  · rfl
  · rfl
  · rfl

theorem UnmapOk.toNat_vaEnd (h : UnmapOk reg d) :
    reg.vaEnd.toNat = reg.vaStart.toNat + Vmsa.size d ∧ reg.vaStart.toNat + Vmsa.size d ≤ 2 ^ 48 := by
  have hlt := h.lt
  have hal := h.aligned
  have hsize := h.size
  rw [BitVec.toNat_sub] at hsize
  rcases h.level with rfl | rfl | rfl
  · simp only [Vmsa.size, Vmsa.shift] at *
    omega
  · simp only [Vmsa.size, Vmsa.shift] at *
    omega
  · simp only [Vmsa.size, Vmsa.shift] at *
    omega

/-- The addresses of the region are those that share an entry of level `d` with its first one. -/
theorem UnmapOk.mem_iff (h : UnmapOk reg d) {x : U64} (hx : x.toNat < 2 ^ 48) :
    reg.Mem x ↔ agree reg.vaStart x (d + 1) := by
  have hd : d ≤ 3 := by have := h.level; omega
  have hlt := h.lt
  have hend := h.toNat_vaEnd.1
  have hself := Vmsa.base_of_dvd (Nat.dvd_of_mod_eq_zero h.aligned)
  have h1 := Vmsa.base_le x.toNat d
  have h2 := Vmsa.lt_base_add x.toNat d
  rw [VMRegion.Mem, Vmsa.agree_iff_base hlt hx hd, hend, hself]
  refine ⟨fun hm => ?_, fun heq => by omega⟩
  rw [← hself]
  exact (Vmsa.base_eq_of_mem (by omega) (by omega)).symm

/-- **When `vmm_ptable_unmap` is right**, after it returned. -/
theorem vmmPtableUnmap_right_iff (hw : TablesOk top root s) (hreg : UnmapOk reg d)
    (h : vmmPtableUnmap top root reg s = .ok s') :
    UnmapRight s.mem s'.mem root reg ↔ UnmapExact s.mem root reg d := by
  have hd : d ≤ 3 := by have := hreg.level; omega
  rw [vmmPtableUnmap_eq hreg] at h
  obtain ⟨s₁, hens, hwalk⟩ := setBlockOrPage_cleared hw hreg.lt hd h
  constructor
  · intro hright
    have hns : ¬SplitsBlock s.mem root reg.vaStart d := by
      intro hs
      obtain ⟨x, hx, hag, hne⟩ := hens.translation_ne_outside hreg.lt hd hs
      have hmax : max (Vmsa.walk s.mem root reg.vaStart).level d = d := by have := hs.1; omega
      apply hne
      rw [← (hwalk x).2 (by rw [hmax]; exact hag)]
      exact (hright x hx).2 (mt (hreg.mem_iff hx).mp hag)
    refine ⟨hns, fun x hm hag => ?_⟩
    have hx : x.toNat < 2 ^ 48 := by
      have h1 := hm.2
      have h2 := hreg.toNat_vaEnd
      omega
    have hag' : ¬agree reg.vaStart x (max (Vmsa.walk s.mem root reg.vaStart).level d + 1) :=
      fun hc => hag (hc.mono (by omega))
    rw [← hens.translation_eq hw.rootOk hd hns, ← (hwalk x).2 hag']
    exact (hright x hx).1 hm
  · rintro ⟨hns, hrest⟩ x hx
    constructor
    · intro hm
      by_cases hag : agree reg.vaStart x (max (Vmsa.walk s.mem root reg.vaStart).level d + 1)
      · exact (hwalk x).1 hag
      · rw [(hwalk x).2 hag, hens.translation_eq hw.rootOk hd hns]
        refine hrest x hm fun hc => hag ?_
        by_cases hle : (Vmsa.walk s.mem root reg.vaStart).level ≤ d
        · rw [max_eq_right hle]
          exact (hreg.mem_iff hx).mp hm
        · rw [max_eq_left (by omega)]
          exact hc
    · intro hm
      have hag : ¬agree reg.vaStart x (max (Vmsa.walk s.mem root reg.vaStart).level d + 1) :=
        fun hc => hm ((hreg.mem_iff hx).mpr (hc.mono (by omega)))
      rw [(hwalk x).2 hag, hens.translation_eq hw.rootOk hd hns]

/-- It returns when a page is left for each level, and then it unmaps the region and nothing else exactly when it splits
no block and no table below maps more of the region. -/
theorem vmmPtableUnmap_exact_iff (hw : TablesOk top root s) (hreg : UnmapOk reg d) :
    (s.ptableBot.toNat + 4096 * d ≤ top.toNat → ∃ s', vmmPtableUnmap top root reg s = .ok s') ∧
      ∀ s', vmmPtableUnmap top root reg s = .ok s' →
        (UnmapRight s.mem s'.mem root reg ↔ UnmapExact s.mem root reg d) := by
  refine ⟨fun hroom => ?_, fun s' h => vmmPtableUnmap_right_iff hw hreg h⟩
  obtain ⟨s₁, hs₁⟩ := @ensureLevelLoop_ok top reg.vaStart d 0 root {} s hroom
  rw [vmmPtableUnmap_eq hreg, setBlockOrPage, vmmEnsureLevel, hs₁]
  exact ⟨_, rfl⟩

end Unmap

/-- 2 MiB at `0x200000`. -/
def unmap2M : VMRegion := { vaStart := 0x200000, vaEnd := 0x400000, memattr := 0, prot := 0 }

theorem unmap2M_ok : UnmapOk unmap2M 2 where
  level := .inr (.inl rfl)
  size := by decide
  aligned := by decide
  lt := by decide

theorem vmmPtableUnmap_exact_iff_2M :
    ((0x10000 : U64).toNat + 4096 * 2 ≤ (0x20000 : U64).toNat →
      ∃ s', vmmPtableUnmap 0x20000 0x1000 unmap2M ⟨blockMem, 0x10000⟩ = .ok s') ∧
    ∀ s', vmmPtableUnmap 0x20000 0x1000 unmap2M ⟨blockMem, 0x10000⟩ = .ok s' →
      (UnmapRight blockMem s'.mem 0x1000 unmap2M ↔ UnmapExact blockMem 0x1000 unmap2M 2) :=
  vmmPtableUnmap_exact_iff blockMem_tablesOk unmap2M_ok

/-- Unmapped from a 1 GiB block, the region takes the translation of other addresses with it. -/
theorem vmmPtableUnmap_2M_wrong : TablesOk 0x20000 0x1000 ⟨blockMem, 0x10000⟩ ∧ UnmapOk unmap2M 2 ∧
    ∃ s', vmmPtableUnmap 0x20000 0x1000 unmap2M ⟨blockMem, 0x10000⟩ = .ok s' ∧
      ¬UnmapRight blockMem s'.mem 0x1000 unmap2M := by
  refine ⟨blockMem_tablesOk, unmap2M_ok, ?_⟩
  have hok : (vmmPtableUnmap 0x20000 0x1000 unmap2M ⟨blockMem, 0x10000⟩).isOk = true := by decide +kernel
  cases h : vmmPtableUnmap 0x20000 0x1000 unmap2M ⟨blockMem, 0x10000⟩ with
  | error e =>
    rw [h] at hok
    cases hok
  | ok s' =>
    refine ⟨s', rfl, fun hright => ?_⟩
    have hwalk : Vmsa.walk blockMem 0x1000 0x200000 = ⟨1, 0x2000, 0x40000401⟩ := by decide +kernel
    refine ((vmmPtableUnmap_right_iff blockMem_tablesOk unmap2M_ok h).mp hright).1 ?_
    change SplitsBlock blockMem 0x1000 0x200000 2
    rw [SplitsBlock, hwalk]
    exact ⟨by decide, 0x40000000, by decide⟩

end LitmusHarness
