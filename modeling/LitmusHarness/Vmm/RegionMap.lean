import LitmusHarness.Vmm.Map

/-!
# `update_table_from_vmregion_map`

The regions of a map are mapped in the order of their tags, each after a check against `r_prev`. The loop does not
assign `r_prev`, so both checks compare with 0 and no region fails them: every valid region is mapped
(`updateTableFromVmregionMap_eq`). Hence the map is checked as it should be if and only if there is nothing to reject,
or `vmm_ptable_map` fails before it comes to a region that should be rejected (`updateTableFromVmregionMap_checked_iff`).
-/

namespace LitmusHarness

/-- `VMRegionTag`, without the prefix `VM_`. -/
inductive VMRegionTag
  | mmapIo | text | data | stack | heap | ptables | testdata | mmapHarness | mmapStackEl0 | mmapStackEl1 | mmapVtable
  deriving DecidableEq, Repr

/-- The tags from `VM_MMAP_IO` to `VM_MMAP_VTABLE`. -/
def VMRegionTag.all : List VMRegionTag :=
  [.mmapIo, .text, .data, .stack, .heap, .ptables, .testdata, .mmapHarness, .mmapStackEl0, .mmapStackEl1, .mmapVtable]

/-- A `VMRegion` with its `valid` flag. -/
structure VMRegionSlot where
  valid : BitVec 8
  region : VMRegion

/-- `VMRegions`. -/
abbrev VMRegions := VMRegionTag → VMRegionSlot

/-- The calls of `vmm_ptable_map` that are made, by their tags, and the result. -/
abbrev MapCalls := List VMRegionTag × Except String VmmState

/-- The loop of `update_table_from_vmregion_map` over the tags that are left. -/
def updateLoop (top root : U64) (map : VMRegions) (rPrev : VMRegion) : List VMRegionTag → VmmState → MapCalls
  | [], s => ([], .ok s)
  | i :: l, s =>
    let r := (map i).region
    if (map i).valid = 0 then updateLoop top root map rPrev l s
    else if r.vaStart < rPrev.vaEnd then ([], .error "! %o and %o virtual regions overlap\n")
    else if r.vaStart < rPrev.vaStart then ([], .error "! %o's region comes after a later region %o\n")
    else
      match vmmPtableMap top root r s with
      | .error e => ([i], .error e)
      | .ok s =>
        let (calls, res) := updateLoop top root map rPrev l s
        (i :: calls, res)

/-- `update_table_from_vmregion_map`. -/
def updateTableFromVmregionMap (top root : U64) (map : VMRegions) (s : VmmState) : MapCalls :=
  let rPrev : VMRegion := { vaStart := 0, vaEnd := 0, memattr := 0, prot := 0, paStart := 0 }
  updateLoop top root map rPrev VMRegionTag.all s

/-! ## What should be checked -/

/-- The valid regions, by their tags. -/
def VMRegions.valid (map : VMRegions) : List VMRegionTag := VMRegionTag.all.filter fun i => (map i).valid ≠ 0

/-- The two regions overlap, or the later one starts below the earlier one. -/
def VMRegion.Clash (earlier later : VMRegion) : Prop :=
  (∃ x, (earlier.vaStart ≤ x ∧ x < earlier.vaEnd) ∧ later.vaStart ≤ x ∧ x < later.vaEnd) ∨ later.vaStart < earlier.vaStart

/-- Regions are mapped one after the other, until one fails. -/
def mapRegions (top root : U64) (map : VMRegions) : List VMRegionTag → VmmState → MapCalls
  | [], s => ([], .ok s)
  | i :: l, s =>
    match vmmPtableMap top root (map i).region s with
    | .error e => ([i], .error e)
    | .ok s => (i :: (mapRegions top root map l s).1, (mapRegions top root map l s).2)

/-- The map is checked: a region that clashes with an earlier valid one is not mapped and the update fails, and if there
is none, all valid regions are mapped, once each and in order. -/
structure VMRegions.Checked (top root : U64) (map : VMRegions) (s : VmmState) (r : MapCalls) : Prop where
  rejects : ∀ l₁ j l₂, map.valid = l₁ ++ j :: l₂ → (∃ i ∈ l₁, (map i).region.Clash (map j).region) →
    (∃ e, r.2 = .error e) ∧ j ∉ r.1
  maps : map.valid.Pairwise (fun i j => ¬(map i).region.Clash (map j).region) → r = mapRegions top root map map.valid s

variable {top root : U64} {map : VMRegions} {s : VmmState} {l l₁ l₂ : List VMRegionTag} {j : VMRegionTag}

/-! ## The loop -/

/-- Nothing fails the checks against a region that is 0. -/
theorem updateLoop_eq {rPrev : VMRegion} (hend : rPrev.vaEnd = 0) (hstart : rPrev.vaStart = 0) :
    updateLoop top root map rPrev l s = mapRegions top root map (l.filter fun i => (map i).valid ≠ 0) s := by
  induction l generalizing s with
  | nil => rfl
  | cons i l ih =>
    rw [updateLoop]
    dsimp only
    have hzero : ∀ x : U64, ¬x < 0 := fun x => by simp
    rw [hend, hstart, if_neg (hzero _), if_neg (hzero _)]
    by_cases hv : (map i).valid = 0
    · rw [if_pos hv, List.filter_cons_of_neg (by simp [hv]), ih]
    · have hfilter : (i :: l).filter (fun i => (map i).valid ≠ 0) = i :: l.filter fun i => (map i).valid ≠ 0 :=
        List.filter_cons_of_pos (decide_eq_true hv)
      rw [if_neg hv, hfilter, mapRegions]
      cases vmmPtableMap top root (map i).region s with
      | error e => rfl
      | ok s' =>
        dsimp only
        rw [ih]

/-- **Every valid region is mapped, whatever the map is.** -/
theorem updateTableFromVmregionMap_eq :
    updateTableFromVmregionMap top root map s = mapRegions top root map map.valid s := updateLoop_eq rfl rfl

theorem mapRegions_subset (h : j ∈ (mapRegions top root map l s).1) : j ∈ l := by
  induction l generalizing s with
  | nil => exact h
  | cons i l ih =>
    rw [mapRegions] at h
    cases hi : vmmPtableMap top root (map i).region s with
    | error e =>
      rw [hi] at h
      exact List.mem_cons.mpr (.inl (List.mem_singleton.mp h))
    | ok s' =>
      rw [hi] at h
      rcases List.mem_cons.mp h with rfl | h
      · exact List.mem_cons_self
      · exact List.mem_cons_of_mem i (ih h)

/-- After a failure nothing is mapped. -/
theorem mapRegions_append_error {e : String} (h : (mapRegions top root map l₁ s).2 = .error e) :
    mapRegions top root map (l₁ ++ l₂) s = mapRegions top root map l₁ s := by
  induction l₁ generalizing s with
  | nil => cases h
  | cons i l ih =>
    rw [List.cons_append]
    simp only [mapRegions] at h ⊢
    cases hi : vmmPtableMap top root (map i).region s with
    | error e => rfl
    | ok s' =>
      rw [hi] at h
      dsimp only at h ⊢
      rw [ih h]

/-- Where nothing has failed the next region is mapped. -/
theorem mem_mapRegions_of_ok {s' : VmmState} (h : (mapRegions top root map l₁ s).2 = .ok s') :
    j ∈ (mapRegions top root map (l₁ ++ j :: l₂) s).1 := by
  induction l₁ generalizing s with
  | nil =>
    rw [List.nil_append, mapRegions]
    split <;> exact List.mem_cons_self
  | cons i l ih =>
    rw [List.cons_append]
    simp only [mapRegions] at h ⊢
    cases hi : vmmPtableMap top root (map i).region s with
    | error e =>
      rw [hi] at h
      cases h
    | ok s' =>
      rw [hi] at h
      dsimp only at h ⊢
      exact List.mem_cons_of_mem i (ih h)

/-- **When the map is checked**: before each valid region that clashes with an earlier one, `vmm_ptable_map` fails. -/
theorem updateTableFromVmregionMap_checked_iff (top root : U64) (map : VMRegions) (s : VmmState) :
    map.Checked top root s (updateTableFromVmregionMap top root map s) ↔
      ∀ l₁ j l₂, map.valid = l₁ ++ j :: l₂ → (∃ i ∈ l₁, (map i).region.Clash (map j).region) →
        ∃ e, (mapRegions top root map l₁ s).2 = .error e := by
  rw [updateTableFromVmregionMap_eq]
  constructor
  · intro h l₁ j l₂ hsplit hclash
    cases hl : (mapRegions top root map l₁ s).2 with
    | error e => exact ⟨e, rfl⟩
    | ok s' =>
      refine absurd ?_ (h.rejects l₁ j l₂ hsplit hclash).2
      rw [hsplit]
      exact mem_mapRegions_of_ok hl
  · refine fun h => ⟨fun l₁ j l₂ hsplit hclash => ?_, fun _ => rfl⟩
    obtain ⟨e, he⟩ := h l₁ j l₂ hsplit hclash
    have hnodup : map.valid.Nodup := (show VMRegionTag.all.Nodup by decide).sublist List.filter_sublist
    rw [hsplit] at hnodup ⊢
    rw [mapRegions_append_error he]
    refine ⟨⟨e, he⟩, fun hj => ?_⟩
    exact (List.nodup_append.mp hnodup).2.2 j (mapRegions_subset hj) j List.mem_cons_self rfl

/-- The same region twice. -/
def twiceMap : VMRegions := fun i =>
  match i with
  | .text | .data => { valid := 1, region := region2M }
  | _ => { valid := 0, region := { vaStart := 0, vaEnd := 0, memattr := 0, prot := 0 } }

/-- Both are mapped. -/
theorem updateTableFromVmregionMap_twice : ¬twiceMap.Checked 0x20000 0x1000 ⟨blockMem, 0x10000⟩
    (updateTableFromVmregionMap 0x20000 0x1000 twiceMap ⟨blockMem, 0x10000⟩) := by
  intro h
  have hclash : ∃ i ∈ [VMRegionTag.text], (twiceMap i).region.Clash (twiceMap .data).region :=
    ⟨.text, List.mem_cons_self, .inl ⟨0x200000, by decide, by decide⟩⟩
  refine (h.rejects [.text] .data [] (by decide) hclash).2 ?_
  have hok : (vmmPtableMap 0x20000 0x1000 region2M ⟨blockMem, 0x10000⟩).isOk = true := by decide +kernel
  rw [updateTableFromVmregionMap_eq, show twiceMap.valid = [.text] ++ .data :: [] by decide]
  cases hm : vmmPtableMap 0x20000 0x1000 region2M ⟨blockMem, 0x10000⟩ with
  | error e =>
    rw [hm] at hok
    cases hok
  | ok s' =>
    have htext : (mapRegions 0x20000 0x1000 twiceMap [.text] ⟨blockMem, 0x10000⟩).2 = .ok s' := by
      simp only [mapRegions, twiceMap, hm]
    exact mem_mapRegions_of_ok htext

end LitmusHarness
