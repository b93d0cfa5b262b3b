import LitmusHarness.Vmm.Map

/-!
# The pages of the tables

Mapping a region changes the pages of its own tables and takes new ones from `zalloc_ptable`. So if all the pages of the
tables are from `lo` on, the memory below `lo` is kept (`vmmPtableMap_keptBelow`), and the walks in a table are kept as
long as its pages are (`walk_of_pagesIn`).
-/

namespace LitmusHarness

open Vmsa (Mem size)

/-- The tables below `root` are in the pages from `lo` to `hi`. -/
def PagesIn (mem : Mem) (root : U64) (lo hi : Nat) : Prop :=
  ∀ x l t, Vmsa.tableAt mem root x l = some t → lo ≤ t.toNat ∧ t.toNat + 4096 ≤ hi

/-- The tables are in the pages that have been handed out from `lo` on, and there is one in each of them. -/
structure OwnPages (lo : Nat) (top root : U64) (s : VmmState) : Prop where
  ok : TablesOk top root s
  pages : PagesIn s.mem root lo s.ptableBot.toNat
  used : ∀ p : U64, p.toNat % 4096 = 0 → lo ≤ p.toNat → p.toNat < s.ptableBot.toNat →
    ∃ x l, x.toNat < 2 ^ 48 ∧ Vmsa.tableAt s.mem root x l = some p
  le_top : s.ptableBot.toNat ≤ top.toNat

/-- A step that keeps the tables in pages from `lo` on, and the memory below. -/
structure KeptBelow (lo : Nat) (top root : U64) (s s' : VmmState) : Prop extends OwnPages lo top root s' where
  below : ∀ a : U64, a.toNat < lo → s'.mem a = s.mem a
  bot : s.ptableBot.toNat ≤ s'.ptableBot.toNat

section Frame

variable {lo hi d l : Nat} {top root va pa t p prot : U64} {s s₁ s' : VmmState} {mem mem' : Mem}

theorem KeptBelow.refl (h : OwnPages lo top root s) : KeptBelow lo top root s s := ⟨h, fun _ _ => rfl, Nat.le_refl _⟩

theorem KeptBelow.trans (h : KeptBelow lo top root s s₁) (h' : KeptBelow lo top root s₁ s') :
    KeptBelow lo top root s s' :=
  ⟨h'.toOwnPages, fun a ha => (h'.below a ha).trans (h.below a ha), h.bot.trans h'.bot⟩

/-- The slots of a table are in its page. -/
theorem PagesIn.le_slot (hp : PagesIn mem root lo hi) (hT : Vmsa.Tree mem root)
    (ht : Vmsa.tableAt mem root va l = some t) (x : U64) (l' : Nat) :
    lo ≤ (Vmsa.slot t x l').toNat ∧ (Vmsa.slot t x l').toNat < hi := by
  have h := hp va l t ht
  have hi := Vmsa.index_lt x l'
  rw [Vmsa.toNat_slot (hT.table_aligned ht)]
  omega

/-- **Tables are kept with their pages.** -/
theorem walk_of_pagesIn (hp : PagesIn mem root lo hi) (hT : Vmsa.Tree mem root)
    (h : ∀ a : U64, lo ≤ a.toNat → a.toNat < hi → mem' a = mem a) :
    (∀ x l, Vmsa.tableAt mem' root x l = Vmsa.tableAt mem root x l) ∧
      ∀ x, Vmsa.walk mem' root x = Vmsa.walk mem root x := by
  have htab : ∀ x l, Vmsa.tableAt mem' root x l = Vmsa.tableAt mem root x l := by
    intro x l
    induction l with
    | zero => rfl
    | succ l ih =>
      rw [Vmsa.tableAt, Vmsa.tableAt, ih]
      cases ht : Vmsa.tableAt mem root x l with
      | none => rfl
      | some t =>
        dsimp only
        rw [h _ (hp.le_slot hT ht x l).1 (hp.le_slot hT ht x l).2]
  refine ⟨htab, fun x => ?_⟩
  obtain ⟨t, ht, hs, he, hn⟩ := Vmsa.walk_ends mem root x
  refine Vmsa.walk_eq ⟨t, by rw [htab]; exact ht, hs, ?_, hn⟩
  rw [he, hs]
  exact (h _ (hp.le_slot hT ht x _).1 (hp.le_slot hT ht x _).2).symm

/-- An entry is replaced by a table. -/
theorem replaceEntry_keptBelow {pg : U64} {blockDesc blockDesc' : Desc} (hs : OwnPages lo top root s)
    (hva : va.toNat < 2 ^ 48) (ht : Vmsa.tableAt s.mem root va l = some t) (hl : l ≤ 2)
    (hn : (readDesc (s.mem (Vmsa.slot t va l)) l).type ≠ .table)
    (h : replaceEntry top (Vmsa.slot t va l) (readDesc (s.mem (Vmsa.slot t va l)) l) l blockDesc s =
      .ok (pg, blockDesc', s')) : KeptBelow lo top root s s' := by
  obtain ⟨hw, hp, hu, -⟩ := hs
  have hg := replaceEntry_grafted hw ht hl hn h
  obtain ⟨hlt, rfl, hbot, -⟩ := replaceEntry_ok h
  have hpage := hw.page_le hlt
  have htop := hw.top_le
  have hroot := hp va 0 root rfl
  have hbot' : s'.ptableBot.toNat = s.ptableBot.toNat + 4096 := by
    rw [hbot, BitVec.toNat_add, show (4096 : U64).toNat = 4096 from rfl]
    omega
  refine ⟨⟨hw.replaceEntry ht hl hn h, fun x l' t' ht' => ?_, fun p hp₁ hp₂ hp₃ => ?_, by omega⟩, fun a ha => ?_,
    by omega⟩
  · rw [hg.tableAt hw.tree] at ht'
    split at ht'
    · cases ht'
      omega
    · have := hp x l' t' ht'
      omega
  · rcases Nat.lt_or_ge p.toNat s.ptableBot.toNat with hlt | hge
    · obtain ⟨x, l', hx48, hx⟩ := hu p hp₁ hp₂ hlt
      refine ⟨x, l', hx48, ?_⟩
      rw [hg.tableAt hw.tree, if_neg, hx]
      rintro ⟨rfl, ha⟩
      rw [hg.tableAt_none ha] at hx
      cases hx
    · have hal := hw.bot_aligned
      obtain rfl : p = s.ptableBot := BitVec.eq_of_toNat_eq (by omega)
      exact ⟨va, l + 1, hva, by rw [hg.tableAt hw.tree, if_pos ⟨rfl, Vmsa.agree_refl va _⟩]⟩
  · refine hg.frame a ?_ ?_
    · rintro rfl
      have := (hp.le_slot hw.tree ht va l).1
      omega
    · rintro ⟨h₁, -⟩
      omega

theorem ensureLevelLoop_keptBelow (hva : va.toNat < 2 ^ 48) : ∀ (n l : Nat) (t : U64) (blockDesc : Desc)
    (s s' : VmmState), OwnPages lo top root s → Vmsa.tableAt s.mem root va l = some t → l + n ≤ 3 →
    ensureLevelLoop top va n l t blockDesc s = .ok s' → KeptBelow lo top root s s' := by
  intro n
  induction n with
  | zero =>
    intro l t blockDesc s s' hs ht hl h
    cases h
    exact .refl hs
  | succ n ih =>
    intro l t blockDesc s s' hs ht hl h
    have hw := hs.ok
    have hptr := entryPtr_eq_slot hva t (show l ≤ 3 by omega)
    have h0 : l = 0 → ¬Reserved (s.mem (Vmsa.slot t va l)) := by
      rintro rfl
      cases ht
      exact hw.rootOk va
    rw [ensureLevelLoop] at h
    simp only [hptr] at h
    by_cases htab : (readDesc (s.mem (Vmsa.slot t va l)) l).type = .table
    · rw [if_pos htab] at h
      have hd := decode_of_readDesc_table (by omega) h0 htab
      exact ih (l + 1) _ _ s s' hs (Vmsa.tableAt_succ.mpr ⟨t, ht, hd⟩) (by omega) h
    · rw [if_neg htab] at h
      cases hr : replaceEntry top (Vmsa.slot t va l) (readDesc (s.mem (Vmsa.slot t va l)) l) l blockDesc s with
      | error e => simp [hr] at h
      | ok r =>
        obtain ⟨pg, blockDesc', s₁⟩ := r
        simp only [hr] at h
        have hk := replaceEntry_keptBelow hs hva ht (by omega) htab hr
        have ht₁ : Vmsa.tableAt s₁.mem root va (l + 1) = some pg := by
          rw [(replaceEntry_grafted hw ht (by omega) htab hr).tableAt hw.tree, if_pos ⟨rfl, Vmsa.agree_refl va _⟩]
        exact hk.trans (ih (l + 1) pg blockDesc' s₁ s' hk.toOwnPages ht₁ (by omega) h)

/-- **What `set_block_or_page` keeps.** -/
theorem setBlockOrPage_keptBelow (hs : OwnPages lo top root s) (hva : va.toNat < 2 ^ 48)
    (hpa : pa.toNat % 4096 = 0) (h0 : 0 < d) (hd : d ≤ 3) (h : setBlockOrPage top root va pa false prot d s = .ok s') :
    KeptBelow lo top root s s' := by
  have hok := (setBlockOrPage_tileSet hs.ok hva hpa h0 hd h).ok
  unfold setBlockOrPage at h
  cases hlvl : vmmEnsureLevel top root d va s with
  | error msg => simp [hlvl] at h
  | ok s₁ =>
    have hk : KeptBelow lo top root s s₁ := ensureLevelLoop_keptBelow hva d 0 root {} s s₁ hs rfl (by omega) hlvl
    obtain ⟨t, ht, hslot, he, hn⟩ := Vmsa.walk_ends s₁.mem root va
    have hlev := Vmsa.walk_level_le s₁.mem root va
    simp only [hlvl, vmmTranslationWalk_eq hva hk.ok.rootOk, Option.getD_some, readDesc_level, vmmUpdatePte_eq,
      Except.ok.injEq, Bool.false_eq_true, if_false] at h
    rw [hslot] at h
    rw [he, hslot] at hn
    subst h
    have htab := @Vmsa.tableAt_setLeaf _ _ root va t _ _ ht hn hk.ok.tree (decode_vmmMakeDesc_ne_table hpa)
      (store_self s₁.mem _ (vmmMakeDesc pa prot (Vmsa.walk s₁.mem root va).level)) fun x hx => store_of_ne hx
    refine ⟨⟨hok, fun x l t' ht' => ?_, fun p hp₁ hp₂ hp₃ => ?_, hk.le_top⟩, fun a ha => ?_, hk.bot⟩
    · rw [htab] at ht'
      exact hk.pages x l t' ht'
    · obtain ⟨x, l, hx48, hx⟩ := hk.used p hp₁ hp₂ hp₃
      exact ⟨x, l, hx48, by rw [htab, hx]⟩
    · have hlo := (hk.pages.le_slot hk.ok.tree ht va (Vmsa.walk s₁.mem root va).level).1
      dsimp only
      rw [store_of_ne, hk.below a ha]
      rintro rfl
      omega

end Frame

/-! ## Ranges -/

section Range

variable {lo : Nat} {top root vaEnd prot : U64} {s₀ : VmmState} {st st' : RangeState}

/-- The state of a loop: what is kept since `s₀`, and the next addresses. -/
structure KeptSoFar (lo : Nat) (top root vaEnd : U64) (s₀ : VmmState) (st : RangeState) : Prop where
  kept : KeptBelow lo top root s₀ st.vmm
  le : st.va.toNat ≤ vaEnd.toNat
  va : st.va.toNat % 4096 = 0
  pa : st.pa.toNat % 4096 = 0

/-- A loop in which the next entry ends in the range. -/
theorem rangeLoop_kept {level : Nat} {cond : U64 → U64 → Bool} (hend : vaEnd.toNat < 2 ^ 48) (h0 : 0 < level)
    (h3 : level ≤ 3) (hcond : ∀ va pa : U64, va.toNat ≤ vaEnd.toNat → va.toNat % 4096 = 0 →
      cond va pa = true → va.toNat + size level ≤ vaEnd.toNat) {limit : Nat} (h : KeptSoFar lo top root vaEnd s₀ st)
    (hr : rangeLoop top root false prot limit cond level (Vmsa.shift level) st = .ok st') :
    KeptSoFar lo top root vaEnd s₀ st' := by
  refine (Loop.whileM_ok ?_ limit st st' h hr).1
  intro st st' h hc hb
  have hfit := hcond st.va st.pa h.le h.va hc
  have hpos := Vmsa.size_pos level
  obtain ⟨k, hk⟩ : 4096 ∣ size level := Vmsa.size_dvd h3
  have hone : (1#64 <<< Vmsa.shift level).toNat = size level := Mask.toNat_one_shiftLeft (by unfold Vmsa.shift; omega)
  have hpa := h.pa
  have hva := h.va
  cases hset : setBlockOrPage top root st.va st.pa false prot level st.vmm with
  | error e =>
    rw [hset] at hb
    cases hb
  | ok vmm =>
    rw [hset] at hb
    cases hb
    refine ⟨h.kept.trans (setBlockOrPage_keptBelow h.kept.toOwnPages (by omega) hpa h0 h3 hset), ?_, ?_, ?_⟩
    · dsimp only
      rw [BitVec.toNat_add, hone]
      omega
    · dsimp only
      rw [BitVec.toNat_add, hone]
      omega
    · dsimp only
      rw [BitVec.toNat_add, hone]
      omega

/-- `END_OF_REGION`, in a range that does not come near to the end of the address space. -/
theorem fits_of_not_endOfRegion {va : U64} {level : Nat} (hend : vaEnd.toNat < 2 ^ 48) (hle : va.toNat ≤ vaEnd.toNat)
    (h : (!decide (va + 1#64 <<< Vmsa.shift level > vaEnd)) = true) : va.toNat + size level ≤ vaEnd.toNat := by
  have hone : (1#64 <<< Vmsa.shift level).toNat = size level := Mask.toNat_one_shiftLeft (by unfold Vmsa.shift; omega)
  have hsize : size level ≤ 2 ^ 39 := Nat.pow_le_pow_right (by decide) (by unfold Vmsa.shift; omega)
  rw [Bool.not_eq_true', decide_eq_false_iff_not, gt_iff_lt, BitVec.lt_def, BitVec.toNat_add, hone] at h
  omega

/-- **What `__ptable_set_range` keeps.** -/
theorem ptableSetRange_keptBelow {paStart vaStart : U64} {s s' : VmmState} (hs : OwnPages lo top root s)
    (hend : vaEnd.toNat < 2 ^ 48) (hle : vaStart.toNat ≤ vaEnd.toNat)
    (hpa : paStart.toNat % 4096 = 0) (h : ptableSetRange top root paStart vaStart vaEnd false prot s = .ok s') :
    KeptBelow lo top root s s' := by
  unfold ptableSetRange at h
  dsimp only at h
  split at h
  · cases h
  rename_i hstart
  split at h
  · cases h
  rename_i hlast
  rw [Bool.not_eq_true', Bool.not_eq_false, isAligned_iff _ (by decide)] at hstart hlast
  have h₀ : KeptSoFar lo top root vaEnd s ⟨vaStart, paStart, s⟩ := ⟨.refl hs, hle, hstart, hpa⟩
  obtain ⟨st₁, hr₁, h⟩ := Loop.bind_ok h
  have h₁ := rangeLoop_kept hend (by decide) (Nat.le_refl 3) (fun va pa hle _ hc =>
    fits_of_not_endOfRegion hend hle (Bool.and_eq_true_iff.mp hc).2) h₀ hr₁
  split at h
  · cases h
  obtain ⟨st₂, hr₂, h⟩ := Loop.bind_ok h
  have h₂ := rangeLoop_kept hend (by decide) (show 2 ≤ 3 by decide) (fun va pa hle _ hc =>
    fits_of_not_endOfRegion hend hle (Bool.and_eq_true_iff.mp hc).2) h₁ hr₂
  obtain ⟨st₃, hr₃, h⟩ := Loop.bind_ok h
  have h₃ := rangeLoop_kept hend (by decide) (show 1 ≤ 3 by decide) (fun va pa hle _ hc =>
    fits_of_not_endOfRegion hend hle (Bool.and_eq_true_iff.mp hc).2) h₂ hr₃
  obtain ⟨st₄, hr₄, h⟩ := Loop.bind_ok h
  have h₄ := rangeLoop_kept hend (by decide) (show 2 ≤ 3 by decide) (fun va pa hle _ hc =>
    fits_of_not_endOfRegion hend hle (Bool.and_eq_true_iff.mp hc).2) h₃ hr₄
  obtain ⟨st₅, hr₅, h⟩ := Loop.bind_ok h
  have h₅ := rangeLoop_kept hend (by decide) (Nat.le_refl 3) (fun va pa hle hva hc => by
    have hlt : va.toNat < vaEnd.toNat := of_decide_eq_true hc
    have hsize : size 3 = 4096 := rfl
    omega) h₄ hr₅
  cases h
  exact h₅.kept

/-- **What `vmm_ptable_map` keeps.** -/
theorem vmmPtableMap_keptBelow {reg : VMRegion} {s s' : VmmState} (hs : OwnPages lo top root s)
    (hreg : RegionOk reg) (hend : reg.vaEnd.toNat < 2 ^ 48)
    (h : vmmPtableMap top root reg s = .ok s') : KeptBelow lo top root s s' :=
  ptableSetRange_keptBelow hs hend hreg.le hreg.pa_aligned h

end Range

end LitmusHarness
