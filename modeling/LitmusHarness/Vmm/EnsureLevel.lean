import LitmusHarness.Lib.VmsaTree
import LitmusHarness.Vmm.Walk

/-!
# `vmm_ensure_level`

`TablesOk` is what the page-table code relies on: the tables form a tree, and the pages that `zalloc_ptable` has not
handed out are outside it. `vmmEnsureLevel` keeps it (`vmmEnsureLevel_ensured`), and what it does to the walk of any
address is a matter of that walk alone (`Ensured`): a walk that shares its last entry with `va` and ends too early goes
further down, to a copy of that entry (`splitEntry`), and every other walk is kept.

The copy of a block is where the meaning is lost: the loop over the 512 new entries computes `new_desc` for each of
them and then writes `desc`.
-/

namespace LitmusHarness

open Vmsa (Mem agree)

/-! ## The functions of the source -/

/-- A store to the word at `p`. -/
def store (mem : Mem) (p v : U64) : Mem := fun a => if a = p then v else mem a

/-- `vmm_update_pte`, without its TLB maintenance and barriers. -/
def vmmUpdatePte (mem : Mem) (pte newVal : U64) : Mem :=
  let mem := if mem pte > 0 then store mem pte 0 else mem
  store mem pte newVal

/-- The memory and `ptable_mem.bot`. -/
structure VmmState where
  mem : Mem
  ptableBot : U64

/-- The text of `zalloc_ptable`'s failure. -/
def outOfPtables : String := "! cannot allocate any more pagetables\n"

/-- `zalloc_ptable`, with `TOP_OF_PTABLES` as a parameter. -/
def zallocPtable (top : U64) (s : VmmState) : Except String (U64 × VmmState) :=
  let cur := s.ptableBot
  let s := { s with ptableBot := s.ptableBot + 4096 }
  if cur ≥ top then .error outOfPtables
  else .ok (cur, { s with mem := fun a => if (a - cur).toNat < 4096 then 0 else s.mem a })

/-- The variables of the loop over the entries of a new table. -/
structure FillState where
  mem : Mem
  blockDesc : Desc
  newDesc : Desc

/-- One iteration of that loop. In the `Block` case `new_desc` is computed, and `desc` is what is written. -/
def fillEntry (desc : Desc) (level : Nat) (pg : U64) (st : FillState) (i : Nat) : FillState :=
  match desc.type with
  | .invalid => { st with mem := vmmUpdatePte st.mem (pg + 8 * BitVec.ofNat 64 i) (writeDesc desc) }
  | .block =>
    let blockDesc := if st.blockDesc.level = 0 then desc else st.blockDesc
    let newDesc := { st.newDesc with
      type := .block, addr := desc.addr + BitVec.ofNat 64 (i <<< offsBot (level + 1)), level := level + 1,
      attrs := blockDesc.attrs }
    { mem := vmmUpdatePte st.mem (pg + 8 * BitVec.ofNat 64 i) (writeDesc desc), blockDesc := blockDesc,
      newDesc := newDesc }
  | .table => st

/-- The loop `for (int i = 0; i < 512; i++)`. -/
def fillTable (desc : Desc) (level : Nat) (pg : U64) (st : FillState) : FillState :=
  (List.range 512).foldl (fillEntry desc level pg) st

/-- The part of the loop body that makes the entry at `p`, which is no table, one. It returns the new table. -/
def replaceEntry (top p : U64) (desc : Desc) (level : Nat) (blockDesc : Desc) (s : VmmState) :
    Except String (U64 × Desc × VmmState) :=
  match zallocPtable top s with
  | .error e => .error e
  | .ok (pg, s) =>
    let st := fillTable desc level pg ⟨s.mem, blockDesc, {}⟩
    let newDesc := { st.newDesc with type := .table, level := level, addr := pg, attrs := {} }
    .ok (pg, st.blockDesc, { s with mem := vmmUpdatePte st.mem p (writeDesc newDesc) })

/-- The loop of `vmm_ensure_level` over the levels, with `n` of them left. -/
def ensureLevelLoop (top va : U64) : Nat → Nat → U64 → Desc → VmmState → Except String VmmState
  | 0, _, _, _, s => .ok s
  | n + 1, level, current, blockDesc, s =>
    let p := entryPtr current va level
    let desc := readDesc (s.mem p) level
    if desc.type = .table then ensureLevelLoop top va n (level + 1) desc.addr blockDesc s
    else
      match replaceEntry top p desc level blockDesc s with
      | .error e => .error e
      | .ok (pg, blockDesc, s) => ensureLevelLoop top va n (level + 1) pg blockDesc s

/-- `vmm_ensure_level`. -/
def vmmEnsureLevel (top root : U64) (desiredLevel : Nat) (va : U64) (s : VmmState) : Except String VmmState :=
  ensureLevelLoop top va desiredLevel 0 root {} s

/-! ## Stores -/

theorem store_self (mem : Mem) (p v : U64) : store mem p v p = v := by simp [store]

theorem store_of_ne {mem : Mem} {p v a : U64} (h : a ≠ p) : store mem p v a = mem a := by simp [store, h]

/-- The intermediate `0` is overwritten. -/
theorem vmmUpdatePte_eq (mem : Mem) (pte v : U64) : vmmUpdatePte mem pte v = store mem pte v := by
  funext a
  by_cases ha : a = pte
  · simp [vmmUpdatePte, store, ha]
  · simp only [vmmUpdatePte, store_of_ne ha]
    split
    · exact store_of_ne ha
    · rfl

theorem fillEntry_mem {desc : Desc} (h : desc.type ≠ .table) (level : Nat) (pg : U64) (st : FillState) (i : Nat) :
    (fillEntry desc level pg st i).mem = store st.mem (pg + 8 * BitVec.ofNat 64 i) (writeDesc desc) := by
  cases ht : desc.type with
  | table => exact absurd ht h
  | invalid => simp [fillEntry, ht, vmmUpdatePte_eq]
  | block => simp [fillEntry, ht, vmmUpdatePte_eq]

/-- What the loop has written after `n` iterations. -/
theorem fill_mem {desc : Desc} (h : desc.type ≠ .table) (level : Nat) (pg : U64) (st : FillState) (n : Nat) (a : U64) :
    ((List.range n).foldl (fillEntry desc level pg) st).mem a =
      if ∃ i, i < n ∧ a = pg + 8 * BitVec.ofNat 64 i then writeDesc desc else st.mem a := by
  induction n with
  | zero => simp
  | succ n ih =>
    rw [List.range_succ, List.foldl_append, List.foldl_cons, List.foldl_nil, fillEntry_mem h, store]
    by_cases ha : a = pg + 8 * BitVec.ofNat 64 n
    · rw [if_pos ha, if_pos ⟨n, Nat.lt_succ_self n, ha⟩]
    · rw [if_neg ha, ih]
      congr 1
      apply propext
      constructor
      · rintro ⟨i, hi, rfl⟩
        exact ⟨i, by omega, rfl⟩
      · rintro ⟨i, hi, rfl⟩
        refine ⟨i, ?_, rfl⟩
        rcases Nat.lt_or_eq_of_le (Nat.le_of_lt_succ hi) with hlt | rfl
        · exact hlt
        · exact absurd rfl ha

/-! ## Well-formed tables -/

/-- The tables below `root` form a tree, and the pages from `ptableBot` up to `top` are not among them. Tables are
below 2^48, where a table entry can point. -/
structure TablesOk (top root : U64) (s : VmmState) : Prop where
  tree : Vmsa.Tree s.mem root
  rootOk : RootOk s.mem root
  bot_aligned : s.ptableBot.toNat % 4096 = 0
  top_aligned : top.toNat % 4096 = 0
  top_le : top.toNat ≤ 2 ^ 48
  fresh : ∀ va l t, Vmsa.tableAt s.mem root va l = some t → t.toNat < s.ptableBot.toNat ∨ top.toNat ≤ t.toNat

/-- The entry that `vmm_ensure_level` puts in the new table for an entry it replaces. -/
def splitEntry (e : U64) (level : Nat) : U64 := writeDesc (readDesc e level)

/-! ## Replacing one entry -/

theorem decode_writeDesc_table {l : Nat} (hl : l < 3) {d : Desc} (ht : d.type = .table) (ha : d.attrs = {})
    (hal : d.addr.toNat % 2 ^ 12 = 0) (hlt : d.addr.toNat < 2 ^ 48) :
    Vmsa.decode l (writeDesc d) = .table d.addr := by
  have hbits := getLsbD_writeDesc_table ht
  have hattr : ∀ i, (writeAttrs d.attrs).getLsbD i = false := by
    intro i
    rw [ha, getLsbD_writeAttrs]
    simp
  have h0 : (writeDesc d).getLsbD 0 = true := by rw [hbits]; simp
  have h1 : (writeDesc d).getLsbD 1 = true := by rw [hbits]; simp
  have haddr : Vmsa.outAddr (writeDesc d) 12 = d.addr := by
    apply BitVec.eq_of_getLsbD_eq
    intro i _
    rw [Vmsa.getLsbD_outAddr, hbits, hattr]
    by_cases h12 : 12 ≤ i
    · by_cases h48 : i < 48
      · simp [h12, h48, show i ≠ 1 by omega, show i ≠ 0 by omega]
      · simp [h48, Mask.getLsbD_of_lt hlt (not_lt.mp h48)]
    · simp [h12, Mask.getLsbD_of_dvd hal (not_le.mp h12)]
  simp only [Vmsa.decode, h0, h1, hl, haddr, reduceCtorEq, if_false, if_true]

/-- An entry above level 3 that is no table is invalid or a block. -/
theorem readDesc_not_table {e : U64} {l : Nat} (hl : l ≤ 2) (ht : (readDesc e l).type ≠ .table) :
    (e.getLsbD 0 = false ∧ readDesc e l = { level := l, type := .invalid }) ∨
      ((l = 1 ∨ l = 2) ∧ Reserved e ∧ readDesc e l =
        { level := l, addr := Vmsa.outAddr e (Vmsa.shift l), type := .block, attrs := readAttrs e }) := by
  cases h0 : e.getLsbD 0 with
  | false => exact Or.inl ⟨rfl, by simp only [readDesc, bit_eq_zero, h0, if_true]⟩
  | true =>
    right
    cases h1 : e.getLsbD 1 with
    | true =>
      have hd : Vmsa.decode l e = .table (Vmsa.outAddr e 12) := by
        simp only [Vmsa.decode, h0, h1, show l < 3 by omega, reduceCtorEq, if_false, if_true]
      exact absurd (readDesc_of_table hd).1 ht
    | false =>
      have hl' : l = 1 ∨ l = 2 := by
        interval_cases l
        · exact absurd (by simp only [readDesc, bit_eq_zero, h0, reduceCtorEq, if_false]) ht
        · exact Or.inl rfl
        · exact Or.inr rfl
      refine ⟨hl', ⟨h0, h1⟩, readDesc_of_leaf ?_⟩
      rcases hl' with rfl | rfl <;> simp [Vmsa.decode, h0, h1, -BitVec.getLsbD_eq_getElem]

theorem splitEntry_invalid {e : U64} {l : Nat} (h : e.getLsbD 0 = false) : splitEntry e l = 0 := by
  simp only [splitEntry, readDesc, bit_eq_zero, h, if_true, writeDesc]

/-- A copied block keeps its address and attribute fields, and its type bits `01`. -/
theorem getLsbD_splitEntry {e : U64} {l : Nat} (hl : l = 1 ∨ l = 2) (h : Reserved e) (i : Nat) :
    (splitEntry e l).getLsbD i =
      (e.getLsbD i && decide (Vmsa.shift l ≤ i ∧ i < 48 ∨ attrBit i ∨ i = 0)) := by
  have hd : Vmsa.decode l e = .leaf (Vmsa.outAddr e (Vmsa.shift l)) := by
    rcases hl with rfl | rfl <;> simp [Vmsa.decode, h.1, h.2, -BitVec.getLsbD_eq_getElem]
  have h3 : l ≠ 3 := by omega
  rw [splitEntry, readDesc_of_leaf hd, getLsbD_writeDesc_block rfl, getLsbD_writeAttrs_readAttrs, Vmsa.getLsbD_outAddr]
  by_cases hi : i = 0
  · simp [hi, h.1, -BitVec.getLsbD_eq_getElem]
  · simp only [h3, hi, decide_false, Bool.false_and, Bool.or_false, or_false, Bool.decide_or, Bool.decide_and]
    rw [Bool.and_assoc, ← Bool.and_or_distrib_left]

theorem splitEntry_reserved {e : U64} {l : Nat} (hl : l = 1 ∨ l = 2) (h : Reserved e) : Reserved (splitEntry e l) := by
  constructor
  · rw [getLsbD_splitEntry hl h, h.1]
    simp
  · rw [getLsbD_splitEntry hl h, h.2]
    simp

/-- Copying a copy further down changes nothing. -/
theorem splitEntry_splitEntry {e : U64} {l l' : Nat} (hl : l < l') (h2 : l' ≤ 2) (ht : (readDesc e l).type ≠ .table) :
    splitEntry (splitEntry e l) l' = splitEntry e l := by
  rcases readDesc_not_table (by omega) ht with ⟨h, -⟩ | ⟨hl', h, -⟩
  · rw [splitEntry_invalid h, splitEntry_invalid (by decide)]
  · apply BitVec.eq_of_getLsbD_eq
    intro i _
    rw [getLsbD_splitEntry (by omega) (splitEntry_reserved hl' h), getLsbD_splitEntry hl' h]
    have hs : Vmsa.shift l ≤ i → Vmsa.shift l' ≤ i := by unfold Vmsa.shift; omega
    by_cases hb : Vmsa.shift l ≤ i ∧ i < 48 ∨ attrBit i ∨ i = 0
    · have hb' : Vmsa.shift l' ≤ i ∧ i < 48 ∨ attrBit i ∨ i = 0 := hb.imp_left fun h => ⟨hs h.1, h.2⟩
      simp [hb, hb']
    · simp [hb]

/-- A copied entry is no table. -/
theorem decode_splitEntry {e : U64} {l l' : Nat} (hl : l ≤ 2) (ht : (readDesc e l).type ≠ .table) (next : U64) :
    Vmsa.decode l' (splitEntry e l) ≠ .table next := by
  intro hd
  obtain ⟨-, -, h0, h1⟩ := Vmsa.decode_table hd
  rcases readDesc_not_table hl ht with ⟨h, -⟩ | ⟨hl', h, -⟩
  · rw [splitEntry_invalid h] at h0
    cases h0
  · rw [(splitEntry_reserved hl' h).2] at h1
    cases h1

section ReplaceEntry

variable {top root va t pg : U64} {l : Nat} {s s' : VmmState} {blockDesc blockDesc' : Desc}

/-- A page below `top` is outside the tables. -/
theorem TablesOk.fresh_page (hw : TablesOk top root s) (h : s.ptableBot < top) (va : U64) (l : Nat) :
    Vmsa.tableAt s.mem root va l ≠ some s.ptableBot := by
  intro ht
  have := hw.fresh va l _ ht
  rw [BitVec.lt_def] at h
  omega

theorem TablesOk.page_le (hw : TablesOk top root s) (h : s.ptableBot < top) : s.ptableBot.toNat + 4096 ≤ top.toNat := by
  have h1 := hw.bot_aligned
  have h2 := hw.top_aligned
  rw [BitVec.lt_def] at h
  omega

theorem sub_lt_iff_inPage {pg a : U64} (h : pg.toNat + 4096 ≤ 2 ^ 64) : (a - pg).toNat < 4096 ↔ Vmsa.inPage pg a := by
  have h1 := a.isLt
  have h2 := pg.isLt
  unfold Vmsa.inPage
  rw [BitVec.toNat_sub]
  omega

theorem replaceEntry_ok {p : U64} {desc : Desc} (h : replaceEntry top p desc l blockDesc s = .ok (pg, blockDesc', s')) :
    s.ptableBot < top ∧ pg = s.ptableBot ∧ s'.ptableBot = s.ptableBot + 4096 ∧
      ∃ st d : FillState, st.mem = (fun a => if (a - pg).toNat < 4096 then 0 else s.mem a) ∧
        s'.mem = store (fillTable desc l pg st).mem p
          (writeDesc { d.newDesc with type := .table, level := l, addr := pg, attrs := {} }) := by
  unfold replaceEntry zallocPtable at h
  by_cases hge : s.ptableBot ≥ top
  · simp only [hge, if_true, reduceCtorEq] at h
  · simp only [hge, if_false, Except.ok.injEq, Prod.mk.injEq] at h
    obtain ⟨rfl, -, rfl⟩ := h
    exact ⟨BitVec.not_le.mp hge, rfl, rfl, _, _, rfl, vmmUpdatePte_eq _ _ _⟩

/-- **Replacing an entry grafts a table of copies** in its place. -/
theorem replaceEntry_grafted (hw : TablesOk top root s) (ht : Vmsa.tableAt s.mem root va l = some t) (hl : l ≤ 2)
    (hn : (readDesc (s.mem (Vmsa.slot t va l)) l).type ≠ .table)
    (h : replaceEntry top (Vmsa.slot t va l) (readDesc (s.mem (Vmsa.slot t va l)) l) l blockDesc s =
      .ok (pg, blockDesc', s')) :
    Vmsa.Grafted s.mem s'.mem root va t pg (splitEntry (s.mem (Vmsa.slot t va l)) l) l := by
  obtain ⟨hlt, rfl, -, st, d, hst, hmem⟩ := replaceEntry_ok h
  have hpage := hw.page_le hlt
  have htop := hw.top_le
  have hal := hw.bot_aligned
  have htal := hw.tree.table_aligned ht
  have hne : t ≠ s.ptableBot := fun he => hw.fresh_page hlt va l (he ▸ ht)
  have hout : ¬Vmsa.inPage s.ptableBot (Vmsa.slot t va l) := fun hin =>
    hne (Vmsa.inPage_unique htal hal (Vmsa.slot_inPage htal va l) hin)
  -- the words of the new page, and the words around it
  have hword : ∀ i, i < 512 → (s.ptableBot + 8 * BitVec.ofNat 64 i).toNat = s.ptableBot.toNat + 8 * i := by
    intro i hi
    rw [BitVec.toNat_add, BitVec.toNat_mul, BitVec.toNat_ofNat, show (8 : U64).toNat = 8 from rfl]
    omega
  have hin : ∀ i, i < 512 → Vmsa.inPage s.ptableBot (s.ptableBot + 8 * BitVec.ofNat 64 i) := by
    intro i hi
    unfold Vmsa.inPage
    rw [hword i hi]
    omega
  refine ⟨ht, ?_, ?_, ?_, decode_splitEntry hl hn, hal, hw.fresh_page hlt, ?_⟩
  · intro next hd
    exact hn (readDesc_of_table hd).1
  · rw [hmem, store_self]
    exact decode_writeDesc_table (by omega) rfl rfl hal (by simp only; omega)
  · intro va'
    have hi := Vmsa.index_lt va' (l + 1)
    have hs : Vmsa.slot s.ptableBot va' (l + 1) = s.ptableBot + 8 * BitVec.ofNat 64 (Vmsa.index va' (l + 1)) := by
      apply BitVec.eq_of_toNat_eq
      rw [hword _ hi, Vmsa.toNat_slot hal]
    have hne' : Vmsa.slot s.ptableBot va' (l + 1) ≠ Vmsa.slot t va l := by
      intro he
      exact hout (he ▸ hs ▸ hin _ hi)
    rw [hmem, store_of_ne hne', fillTable, fill_mem hn, if_pos ⟨_, hi, hs⟩]
    rfl
  · intro a ha hpg
    have : ¬∃ i, i < 512 ∧ a = s.ptableBot + 8 * BitVec.ofNat 64 i := by
      rintro ⟨i, hi, rfl⟩
      exact hpg (hin i hi)
    rw [hmem, store_of_ne ha, fillTable, fill_mem hn, if_neg this, hst]
    simp only [sub_lt_iff_inPage (show s.ptableBot.toNat + 4096 ≤ 2 ^ 64 by omega), hpg, if_false]

/-- Replacing an entry keeps the tables well formed. -/
theorem TablesOk.replaceEntry (hw : TablesOk top root s) (ht : Vmsa.tableAt s.mem root va l = some t) (hl : l ≤ 2)
    (hn : (readDesc (s.mem (Vmsa.slot t va l)) l).type ≠ .table)
    (h : LitmusHarness.replaceEntry top (Vmsa.slot t va l) (readDesc (s.mem (Vmsa.slot t va l)) l) l blockDesc s =
      .ok (pg, blockDesc', s')) : TablesOk top root s' := by
  have hg := replaceEntry_grafted hw ht hl hn h
  obtain ⟨hlt, rfl, hbot, -⟩ := replaceEntry_ok h
  have hpage := hw.page_le hlt
  have htop := hw.top_le
  have hal := hw.bot_aligned
  have hbot' : s'.ptableBot.toNat = s.ptableBot.toNat + 4096 := by
    rw [hbot, BitVec.toNat_add, show (4096 : U64).toNat = 4096 from rfl]
    omega
  refine ⟨hg.tree hw.tree, ?_, by omega, hw.top_aligned, htop, ?_⟩
  · intro va'
    by_cases hs : Vmsa.slot root va' 0 = Vmsa.slot t va l
    · rw [hs]
      exact fun hR => absurd hR.2 (by simp [(Vmsa.decode_table hg.entry).2.2.2, -BitVec.getLsbD_eq_getElem])
    · rw [hg.frame _ hs]
      · exact hw.rootOk va'
      · intro hin
        have := Vmsa.inPage_unique hw.tree.aligned hal (Vmsa.slot_inPage hw.tree.aligned va' 0) hin
        exact hw.fresh_page hlt va 0 (congrArg some this)
  · intro va' l' t' ht'
    rw [hg.tableAt hw.tree] at ht'
    split at ht'
    · cases ht'
      left
      omega
    · have := hw.fresh va' l' t' ht'
      omega

end ReplaceEntry

/-! ## The loop -/

/-- What `vmm_ensure_level` of `va` to level `d` does to the walk of every address. -/
structure Ensured (top root va : U64) (d : Nat) (s s' : VmmState) : Prop where
  ok : TablesOk top root s'
  keep : ∀ va', ¬((Vmsa.walk s.mem root va').level < d ∧ agree va va' ((Vmsa.walk s.mem root va').level + 1)) →
    Vmsa.walk s'.mem root va' = Vmsa.walk s.mem root va'
  split : ∀ va', (Vmsa.walk s.mem root va').level < d → agree va va' ((Vmsa.walk s.mem root va').level + 1) →
    (Vmsa.walk s.mem root va').level < (Vmsa.walk s'.mem root va').level ∧ (Vmsa.walk s'.mem root va').level ≤ d ∧
    agree va va' (Vmsa.walk s'.mem root va').level ∧
    ((Vmsa.walk s'.mem root va').level < d → ¬agree va va' ((Vmsa.walk s'.mem root va').level + 1)) ∧
    (Vmsa.walk s'.mem root va').entry =
      splitEntry (Vmsa.walk s.mem root va').entry (Vmsa.walk s.mem root va').level

theorem Ensured.level_ge {top root va : U64} {d : Nat} {s s' : VmmState} (h : Ensured top root va d s s') :
    d ≤ (Vmsa.walk s'.mem root va).level := by
  by_contra hc
  by_cases hd : (Vmsa.walk s.mem root va).level < d
  · exact (h.split va hd (Vmsa.agree_refl va _)).2.2.2.1 (not_le.mp hc) (Vmsa.agree_refl va _)
  · rw [h.keep va (fun h => hd h.1)] at hc
    exact hc (not_lt.mp hd)

/-- One level of the loop: a graft, and what the levels below do. -/
theorem Ensured.after_graft {top root va t pg : U64} {l d : Nat} {s s₁ s' : VmmState}
    (h : Ensured top root va d s₁ s') (hw : TablesOk top root s)
    (hg : Vmsa.Grafted s.mem s₁.mem root va t pg (splitEntry (s.mem (Vmsa.slot t va l)) l) l)
    (hn : (readDesc (s.mem (Vmsa.slot t va l)) l).type ≠ .table) (hl : l < d) (hd : d ≤ 3) :
    Ensured top root va d s s' := by
  have hwalk : Vmsa.walk s.mem root va = ⟨l, Vmsa.slot t va l, s.mem (Vmsa.slot t va l)⟩ :=
    Vmsa.walk_eq ⟨t, hg.table, rfl, rfl, hg.old⟩
  have hgr := Vmsa.walk_graft hg hw.tree
  refine ⟨h.ok, fun va' hk => ?_, fun va' hlt ha => ?_⟩
  · have hna : ¬agree va va' (l + 1) := by
      intro ha
      rw [Vmsa.walk_agree (by rw [hwalk]; exact ha), hwalk] at hk
      exact hk ⟨hl, ha⟩
    have h1 : Vmsa.walk s₁.mem root va' = Vmsa.walk s.mem root va' := by rw [hgr, if_neg hna]
    rw [← h1] at hk ⊢
    exact h.keep va' hk
  · have hw' : Vmsa.walk s.mem root va' = ⟨l, Vmsa.slot t va l, s.mem (Vmsa.slot t va l)⟩ := by
      rw [← hwalk, Vmsa.walk_agree ha.symm]
    rw [hw'] at ha hlt ⊢
    have h1 : Vmsa.walk s₁.mem root va' = ⟨l + 1, Vmsa.slot pg va' (l + 1), splitEntry (s.mem (Vmsa.slot t va l)) l⟩ := by
      rw [hgr, if_pos ha]
    have hk := h.keep va'
    have hs := h.split va'
    simp only [h1] at hk hs ⊢
    by_cases hc : l + 1 < d ∧ agree va va' (l + 1 + 1)
    · obtain ⟨h2, h3, h4, h5, h6⟩ := hs hc.1 hc.2
      refine ⟨by omega, h3, h4, h5, ?_⟩
      rw [h6, splitEntry_splitEntry (Nat.lt_succ_self l) (by omega) hn]
    · rw [hk hc]
      exact ⟨by simp, hl, ha, fun h2 h3 => hc ⟨h2, h3⟩, rfl⟩

theorem ensureLevelLoop_ensured {top root va : U64} (hva : va.toNat < 2 ^ 48) : ∀ (n l : Nat) (t : U64)
    (blockDesc : Desc) (s s' : VmmState), TablesOk top root s → Vmsa.tableAt s.mem root va l = some t → l + n ≤ 3 →
    ensureLevelLoop top va n l t blockDesc s = .ok s' → Ensured top root va (l + n) s s' := by
  intro n l t blockDesc s s' hw ht hl h
  induction n generalizing l t blockDesc s with
  | zero =>
    rw [ensureLevelLoop, Except.ok.injEq] at h
    subst s'
    have hge := Vmsa.walk_level_ge ht
    have hno : ∀ va', ¬((Vmsa.walk s.mem root va').level < l + 0 ∧
        agree va va' ((Vmsa.walk s.mem root va').level + 1)) := by
      rintro va' ⟨h1, h2⟩
      rw [Vmsa.walk_agree h2.symm] at hge
      omega
    exact ⟨hw, fun _ _ => rfl, fun va' h1 h2 => absurd ⟨h1, h2⟩ (hno va')⟩
  | succ n ih =>
    have hp := entryPtr_eq_slot hva t (show l ≤ 3 by omega)
    have h0 : l = 0 → ¬Reserved (s.mem (Vmsa.slot t va l)) := by
      rintro rfl
      cases ht
      exact hw.rootOk va
    rw [ensureLevelLoop] at h
    simp only [hp] at h
    rw [show l + (n + 1) = l + 1 + n by omega]
    by_cases htab : (readDesc (s.mem (Vmsa.slot t va l)) l).type = .table
    · rw [if_pos htab] at h
      have hd := decode_of_readDesc_table (by omega) h0 htab
      exact ih (l + 1) _ _ s hw (Vmsa.tableAt_succ.mpr ⟨t, ht, hd⟩) (by omega) h
    · rw [if_neg htab] at h
      cases hr : replaceEntry top (Vmsa.slot t va l) (readDesc (s.mem (Vmsa.slot t va l)) l) l blockDesc s with
      | error e => simp [hr] at h
      | ok r =>
        obtain ⟨pg, blockDesc', s₁⟩ := r
        simp only [hr] at h
        have hg := replaceEntry_grafted hw ht (by omega) htab hr
        have hw₁ := hw.replaceEntry ht (by omega) htab hr
        have ht₁ : Vmsa.tableAt s₁.mem root va (l + 1) = some pg := by
          rw [hg.tableAt hw.tree, if_pos ⟨rfl, Vmsa.agree_refl va _⟩]
        exact (ih (l + 1) pg blockDesc' s₁ hw₁ ht₁ (by omega) h).after_graft hw hg htab (by omega) (by omega)

/-- **What `vmm_ensure_level` does.** -/
theorem vmmEnsureLevel_ensured {top root va : U64} {d : Nat} {s s' : VmmState} (hw : TablesOk top root s)
    (hva : va.toNat < 2 ^ 48) (hd : d ≤ 3) (h : vmmEnsureLevel top root d va s = .ok s') :
    Ensured top root va d s s' := by
  have := ensureLevelLoop_ensured hva d 0 root {} s s' hw rfl (by omega) h
  rwa [Nat.zero_add] at this

/-- The loop returns when a page is left for each of its levels. -/
theorem ensureLevelLoop_ok {top va : U64} (n l : Nat) (t : U64) (blockDesc : Desc) (s : VmmState)
    (h : s.ptableBot.toNat + 4096 * n ≤ top.toNat) : ∃ s', ensureLevelLoop top va n l t blockDesc s = .ok s' := by
  induction n generalizing l t blockDesc s with
  | zero => exact ⟨s, rfl⟩
  | succ n ih =>
    have htop := top.isLt
    have hnge : ¬s.ptableBot ≥ top := by
      rw [ge_iff_le, BitVec.le_def]
      omega
    rw [ensureLevelLoop]
    by_cases htab : (readDesc (s.mem (entryPtr t va l)) l).type = .table
    · simp only [htab, if_true]
      exact ih (l + 1) _ _ s (by omega)
    · simp only [htab, if_false, replaceEntry, zallocPtable, hnge]
      apply ih
      rw [BitVec.toNat_add, show (4096 : U64).toNat = 4096 from rfl]
      omega

/-- The one way to fail. -/
theorem ensureLevelLoop_error {top va : U64} {e : String} (n l : Nat) (t : U64) (blockDesc : Desc) (s : VmmState)
    (h : ensureLevelLoop top va n l t blockDesc s = .error e) : e = outOfPtables := by
  induction n generalizing l t blockDesc s with
  | zero => cases h
  | succ n ih =>
    rw [ensureLevelLoop] at h
    by_cases htab : (readDesc (s.mem (entryPtr t va l)) l).type = .table
    · simp only [htab, if_true] at h
      exact ih _ _ _ _ h
    · by_cases hge : s.ptableBot ≥ top
      · simp only [htab, if_false, replaceEntry, zallocPtable, hge, if_true, Except.error.injEq] at h
        exact h.symm
      · simp only [htab, if_false, replaceEntry, zallocPtable, hge] at h
        exact ih _ _ _ _ h

/-! ## Translations -/

/-- The walk of `va` ends in a block above level `d`. -/
def SplitsBlock (mem : Mem) (root va : U64) (d : Nat) : Prop :=
  (Vmsa.walk mem root va).level < d ∧
    ∃ oa, Vmsa.decode (Vmsa.walk mem root va).level (Vmsa.walk mem root va).entry = .leaf oa

theorem reserved_of_leaf {e oa : U64} {l : Nat} (h : Vmsa.decode l e = .leaf oa) (hl : l < 3) :
    (l = 1 ∨ l = 2) ∧ Reserved e := by
  obtain ⟨h1, -, h2, h3⟩ := Vmsa.decode_leaf h
  exact ⟨by omega, h2, by rw [← Bool.not_eq_true, h3]; omega⟩

/-- A copied block at level 3 is a fault. -/
theorem decode_splitEntry_three {e : U64} {l : Nat} (hl : l = 1 ∨ l = 2) (h : Reserved e) :
    Vmsa.decode 3 (splitEntry e l) = .invalid := by
  have := splitEntry_reserved hl h
  simp [Vmsa.decode, this.1, this.2, -BitVec.getLsbD_eq_getElem]

/-- A copied 1 GiB block at level 2 is a block at the same address. -/
theorem decode_splitEntry_two {e : U64} (h : Reserved e) :
    Vmsa.decode 2 (splitEntry e 1) = .leaf (Vmsa.outAddr e 30) := by
  have hs := splitEntry_reserved (Or.inl rfl) h
  have haddr : Vmsa.outAddr (splitEntry e 1) 21 = Vmsa.outAddr e 30 := by
    apply BitVec.eq_of_getLsbD_eq
    intro i _
    rw [Vmsa.getLsbD_outAddr, Vmsa.getLsbD_outAddr, getLsbD_splitEntry (Or.inl rfl) h]
    unfold attrBit
    by_cases h48 : i < 48
    · by_cases h30 : 30 ≤ i
      · simp [h48, h30, Vmsa.shift, show 21 ≤ i by omega]
      · by_cases h21 : 21 ≤ i
        · simp [h30, h21, Vmsa.shift, show ¬i = 54 by omega, show ¬i = 53 by omega, show ¬i = 16 by omega,
            show ¬i ≤ 11 by omega, show ¬i = 0 by omega]
        · simp [h30, h21]
    · simp [h48]
  simp [Vmsa.decode, hs.1, hs.2, Vmsa.shift, haddr, -BitVec.getLsbD_eq_getElem]

theorem readAttrs_splitEntry {e : U64} {l : Nat} (hl : l = 1 ∨ l = 2) (h : Reserved e) :
    readAttrs (splitEntry e l) = readAttrs e := by
  apply readAttrs_congr
  intro i hi
  rw [getLsbD_splitEntry hl h]
  simp [hi]

section Translation

variable {top root va va' : U64} {d : Nat} {s s' : VmmState}

theorem translation_of_walk {m m' : Mem} (h : Vmsa.walk m' root va = Vmsa.walk m root va) :
    translation m' root va = translation m root va := by
  simp only [translation, h]

theorem translation_of_invalid {m : Mem} (h : (Vmsa.walk m root va).entry.getLsbD 0 = false) :
    translation m root va = none := by
  simp only [translation, Vmsa.End.pa, Vmsa.decode, h, if_true, Option.map_none]

/-- A copy of a block at level 3 is a fault. -/
theorem translation_split_three {m : Mem} {e : U64} {l : Nat} (hl : l = 1 ∨ l = 2) (hR : Reserved e)
    (h3 : (Vmsa.walk m root va).level = 3) (he : (Vmsa.walk m root va).entry = splitEntry e l) :
    translation m root va = none := by
  simp only [translation, Vmsa.End.pa, h3, he, decode_splitEntry_three hl hR, Option.map_none]

/-- A copy of a block at level 2 maps to the first 2 MiB of it. -/
theorem translation_split_two {m : Mem} {e : U64} (hR : Reserved e) (h2 : (Vmsa.walk m root va).level = 2)
    (he : (Vmsa.walk m root va).entry = splitEntry e 1) :
    translation m root va = some (Vmsa.outAddr e 30 + BitVec.ofNat 64 (va.toNat % 2 ^ 21), readAttrs e) := by
  simp only [translation, Vmsa.End.pa, h2, he, decode_splitEntry_two hR, leafAttrs,
    readAttrs_splitEntry (Or.inl rfl) hR]
  rfl

/-- What `va` translates to when its walk ends in a leaf. -/
theorem translation_leaf {m : Mem} {oa : U64}
    (hleaf : Vmsa.decode (Vmsa.walk m root va).level (Vmsa.walk m root va).entry = .leaf oa) :
    translation m root va = some (oa + BitVec.ofNat 64 (va.toNat % 2 ^ Vmsa.shift (Vmsa.walk m root va).level),
      leafAttrs (Vmsa.walk m root va).entry (Vmsa.walk m root va).level) := by
  simp only [translation, Vmsa.End.pa, hleaf, Option.map_some]

/-- A walk that ends above level 3 without a leaf ends in an entry with the valid bit clear. -/
theorem invalid_of_not_leaf {m : Mem} (h0 : RootOk m root) (hlt : (Vmsa.walk m root va).level < 3)
    (hn : ¬∃ oa, Vmsa.decode (Vmsa.walk m root va).level (Vmsa.walk m root va).entry = .leaf oa) :
    (Vmsa.walk m root va).entry.getLsbD 0 = false := by
  obtain ⟨t, ht, hs, he, hnt⟩ := Vmsa.walk_ends m root va
  have hinv : Vmsa.decode (Vmsa.walk m root va).level (Vmsa.walk m root va).entry = .invalid := by
    cases hd : Vmsa.decode (Vmsa.walk m root va).level (Vmsa.walk m root va).entry with
    | invalid => rfl
    | table next => exact absurd hd (hnt next)
    | leaf oa => exact absurd ⟨oa, hd⟩ hn
  have hroot : (Vmsa.walk m root va).level = 0 → ¬Reserved (Vmsa.walk m root va).entry := by
    intro hl
    rw [hl] at ht hs
    cases ht
    rw [he, hs]
    exact h0 va
  rcases readDesc_of_invalid (by omega) hinv hroot with ⟨h, -⟩ | ⟨-, h3, -⟩
  · exact h
  · omega

/-- Splitting no block, `vmm_ensure_level` changes no translation. -/
theorem Ensured.translation_eq (h : Ensured top root va d s s') (h0 : RootOk s.mem root) (hd : d ≤ 3)
    (hns : ¬SplitsBlock s.mem root va d) : translation s'.mem root va' = translation s.mem root va' := by
  by_cases hc : (Vmsa.walk s.mem root va').level < d ∧ agree va va' ((Vmsa.walk s.mem root va').level + 1)
  · have hsame := Vmsa.walk_agree hc.2.symm
    have hinv : (Vmsa.walk s.mem root va').entry.getLsbD 0 = false := by
      apply invalid_of_not_leaf h0 (by omega)
      rintro ⟨oa, hoa⟩
      rw [← hsame] at hoa
      exact hns ⟨by rw [hsame]; exact hc.1, oa, hoa⟩
    have he := (h.split va' hc.1 hc.2).2.2.2.2
    rw [splitEntry_invalid hinv] at he
    rw [translation_of_invalid hinv, translation_of_invalid (by rw [he]; decide)]
  · exact translation_of_walk (h.keep va' hc)

/-- The second 2 MiB of the block of `va`, or `va` itself when the block is no larger. -/
def splitVictim (va : U64) (level : Nat) : U64 :=
  if level = 1 then BitVec.ofNat 64 (va.toNat / 2 ^ 30 * 2 ^ 30 + 2 ^ 21) else va

/-- Splitting a block changes a translation. -/
theorem Ensured.translation_ne (h : Ensured top root va d s s') (hva : va.toNat < 2 ^ 48) (hd : d ≤ 3)
    (hs : SplitsBlock s.mem root va d) :
    (splitVictim va (Vmsa.walk s.mem root va).level).toNat < 2 ^ 48 ∧
    translation s'.mem root (splitVictim va (Vmsa.walk s.mem root va).level) ≠
      translation s.mem root (splitVictim va (Vmsa.walk s.mem root va).level) := by
  obtain ⟨hlt, oa, hleaf⟩ := hs
  obtain ⟨hl, -⟩ := reserved_of_leaf hleaf (by omega)
  generalize hvic : splitVictim va (Vmsa.walk s.mem root va).level = vic
  have hlt48 : vic.toNat < 2 ^ 48 := by
    unfold splitVictim at hvic
    split at hvic
    · rw [← hvic, BitVec.toNat_ofNat]
      omega
    · rw [← hvic]
      exact hva
  have hvic1 : (Vmsa.walk s.mem root va).level = 1 → vic.toNat = va.toNat / 2 ^ 30 * 2 ^ 30 + 2 ^ 21 := by
    intro h1
    rw [← hvic, splitVictim, if_pos h1, BitVec.toNat_ofNat]
    omega
  have hag : agree va vic ((Vmsa.walk s.mem root va).level + 1) := by
    rcases hl with h1 | h2
    · rw [h1]
      intro k hk
      have := hvic1 h1
      unfold Vmsa.index
      interval_cases k
      · simp only [Vmsa.shift]
        omega
      · simp only [Vmsa.shift]
        omega
    · rw [← hvic, splitVictim, if_neg (by omega)]
      exact Vmsa.agree_refl va _
  have hsame := Vmsa.walk_agree hag
  rw [← hsame] at hlt hleaf hag hvic1
  refine ⟨hlt48, ?_⟩
  obtain ⟨h1, h2, -, -, he⟩ := h.split vic hlt hag
  obtain ⟨hl, hR⟩ := reserved_of_leaf hleaf (by omega)
  rw [translation_leaf hleaf]
  by_cases h3 : (Vmsa.walk s'.mem root vic).level = 3
  · rw [translation_split_three hl hR h3 he]
    simp
  · have hl1 : (Vmsa.walk s.mem root vic).level = 1 := by omega
    rw [hl1] at he
    rw [translation_split_two hR (by omega) he, (Vmsa.decode_leaf hleaf).2.1]
    simp only [hl1, Vmsa.shift, ne_eq, Option.some.injEq, Prod.mk.injEq, not_and]
    intro heq
    have := hvic1 hl1
    have := congrArg BitVec.toNat ((BitVec.add_right_inj _).mp heq)
    rw [BitVec.toNat_ofNat, BitVec.toNat_ofNat] at this
    omega

/-- **`vmm_ensure_level` preserves every translation exactly when it splits no block.** It reaches the level in any
case, and it returns when a page is left for each level. -/
theorem vmmEnsureLevel_preserves_iff (hw : TablesOk top root s) (hva : va.toNat < 2 ^ 48) (hd : d ≤ 3) :
    (s.ptableBot.toNat + 4096 * d ≤ top.toNat → ∃ s', vmmEnsureLevel top root d va s = .ok s') ∧
    ∀ s', vmmEnsureLevel top root d va s = .ok s' →
      d ≤ (vmmTranslationWalk s'.mem root va).level ∧
      ((∀ va' : U64, va'.toNat < 2 ^ 48 → translation s'.mem root va' = translation s.mem root va') ↔
        ¬SplitsBlock s.mem root va d) := by
  refine ⟨ensureLevelLoop_ok d 0 root {} s, fun s' h => ?_⟩
  have he := vmmEnsureLevel_ensured hw hva hd h
  refine ⟨by rw [vmmTranslationWalk_level hva he.ok.rootOk]; exact he.level_ge, fun hall hs => ?_, fun hns va' _ => ?_⟩
  · obtain ⟨h1, h2⟩ := he.translation_ne hva hd hs
    exact h2 (hall _ h1)
  · exact he.translation_eq hw.rootOk hd hns

end Translation

/-! ## A 1 GiB block -/

/-- The tables of one 1 GiB block, mapped at `0` to `0x40000000`. -/
def blockMem : Mem := fun a => if a = 0x1000 then 0x2003 else if a = 0x2000 then 0x40000401 else 0

theorem blockMem_tableAt {va t : U64} {l : Nat} (h : Vmsa.tableAt blockMem 0x1000 va l = some t) :
    l = 0 ∧ t = 0x1000 ∨ l = 1 ∧ t = 0x2000 ∧ Vmsa.index va 0 = 0 := by
  induction l generalizing t with
  | zero =>
    cases h
    exact Or.inl ⟨rfl, rfl⟩
  | succ l ih =>
    obtain ⟨t', ht', hd⟩ := Vmsa.tableAt_succ.mp h
    have hi := Vmsa.index_lt va
    rcases ih ht' with ⟨rfl, rfl⟩ | ⟨rfl, rfl, h0⟩
    · have hs := Vmsa.toNat_slot (show (0x1000 : U64).toNat % 4096 = 0 from rfl) va 0
      have := hi 0
      by_cases h1 : Vmsa.slot 0x1000 va 0 = 0x1000
      · rw [h1] at hs hd
        have hd' : Vmsa.decode 0 (blockMem 0x1000) = .table 0x2000 := by decide
        rw [hd'] at hd
        cases hd
        right
        exact ⟨rfl, rfl, by simp at hs; omega⟩
      · have h2 : Vmsa.slot 0x1000 va 0 ≠ 0x2000 := by
          intro hc
          rw [hc] at hs
          simp at hs
          omega
        simp only [blockMem, h1, h2, if_false] at hd
        cases hd
    · have hv : blockMem (Vmsa.slot 0x2000 va 1) = 0x40000401 ∨ blockMem (Vmsa.slot 0x2000 va 1) = 0 := by
        have hs := Vmsa.toNat_slot (show (0x2000 : U64).toNat % 4096 = 0 from rfl) va 1
        have h1 : Vmsa.slot 0x2000 va 1 ≠ 0x1000 := by
          intro hc
          rw [hc] at hs
          simp at hs
          omega
        simp only [blockMem, h1, if_false]
        split
        · exact Or.inl rfl
        · exact Or.inr rfl
      rcases hv with hv | hv
      · rw [hv] at hd
        have : Vmsa.decode 1 0x40000401 = .leaf 0x40000000 := by decide
        rw [this] at hd
        cases hd
      · rw [hv] at hd
        cases hd

theorem blockMem_tablesOk : TablesOk 0x20000 0x1000 ⟨blockMem, 0x10000⟩ where
  tree :=
    { aligned := rfl
      unique := by
        intro va va' t l l' h h'
        rcases blockMem_tableAt h with ⟨rfl, rfl⟩ | ⟨rfl, rfl, h0⟩
        · rcases blockMem_tableAt h' with ⟨rfl, -⟩ | ⟨-, h2, -⟩
          · exact ⟨rfl, fun k hk => by omega⟩
          · cases h2
        · rcases blockMem_tableAt h' with ⟨-, h2⟩ | ⟨rfl, -, h0'⟩
          · cases h2
          · exact ⟨rfl, fun k hk => by rw [show k = 0 by omega, h0, h0']⟩ }
  rootOk := by
    intro va
    have hs := Vmsa.toNat_slot (show (0x1000 : U64).toNat % 4096 = 0 from rfl) va 0
    have := Vmsa.index_lt va 0
    have h2 : Vmsa.slot 0x1000 va 0 ≠ 0x2000 := by
      intro hc
      rw [hc] at hs
      simp at hs
      omega
    simp only [blockMem, h2, if_false]
    split
    · decide
    · decide
  bot_aligned := rfl
  top_aligned := rfl
  top_le := by decide
  fresh := by
    intro va l t h
    rcases blockMem_tableAt h with ⟨-, rfl⟩ | ⟨-, rfl, -⟩
    · exact Or.inl (by decide)
    · exact Or.inl (by decide)

theorem vmmEnsureLevel_preserves_iff_blockMem :
    ((0x10000 : U64).toNat + 4096 * 2 ≤ (0x20000 : U64).toNat →
      ∃ s', vmmEnsureLevel 0x20000 0x1000 2 0 ⟨blockMem, 0x10000⟩ = .ok s') ∧
    ∀ s', vmmEnsureLevel 0x20000 0x1000 2 0 ⟨blockMem, 0x10000⟩ = .ok s' →
      2 ≤ (vmmTranslationWalk s'.mem 0x1000 0).level ∧
      ((∀ va' : U64, va'.toNat < 2 ^ 48 → translation s'.mem 0x1000 va' = translation blockMem 0x1000 va') ↔
        ¬SplitsBlock blockMem 0x1000 0 2) :=
  vmmEnsureLevel_preserves_iff blockMem_tablesOk (by decide) (by decide)

/-- Ensuring level 2 in the block loses the translation of its second 2 MiB. -/
theorem vmmEnsureLevel_blockMem_changes : TablesOk 0x20000 0x1000 ⟨blockMem, 0x10000⟩ ∧
    ∃ s', vmmEnsureLevel 0x20000 0x1000 2 0 ⟨blockMem, 0x10000⟩ = .ok s' ∧
      translation s'.mem 0x1000 0x200000 ≠ translation blockMem 0x1000 0x200000 := by
  refine ⟨blockMem_tablesOk, ?_⟩
  obtain ⟨s', h⟩ := @ensureLevelLoop_ok 0x20000 0 2 0 0x1000 {} ⟨blockMem, 0x10000⟩ (by decide)
  have he := vmmEnsureLevel_ensured blockMem_tablesOk (by decide) (by decide) h
  have hwalk : Vmsa.walk blockMem 0x1000 0 = ⟨1, 0x2000, 0x40000401⟩ := by decide +kernel
  have hs : SplitsBlock blockMem 0x1000 0 2 := by
    rw [SplitsBlock, hwalk]
    exact ⟨by decide, 0x40000000, by decide⟩
  have := (he.translation_ne (by decide) (by decide) hs).2
  rw [hwalk] at this
  exact ⟨s', h, this⟩

end LitmusHarness
