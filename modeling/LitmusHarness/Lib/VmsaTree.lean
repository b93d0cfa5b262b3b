import LitmusHarness.Lib.Vmsa

/-!
# Trees of translation tables

`agree va va' n`: the walks of `va` and `va'` take the same entries at the levels before `n`. In a `Tree` an entry is
read by the walks that agree up to its level and by no other (`Tree.slot_unique`). Two updates of a tree:

- `walk_setLeaf`: an entry that is no table is rewritten to one that is no table;
- `walk_graft`: such an entry becomes a table, of 512 equal entries, in a page that no walk has read.

Both keep the tree and leave the walks that do not reach the entry where they were.
-/

namespace Vmsa

variable {m m' : Mem} {root va va' : BitVec 64}

/-! ## Agreement -/

/-- The same index at every level before `n`. -/
def agree (va va' : BitVec 64) (n : Nat) : Prop := ∀ k, k < n → index va k = index va' k

instance (va va' : BitVec 64) (n : Nat) : Decidable (agree va va' n) := by unfold agree; infer_instance

theorem agree.symm {n : Nat} (h : agree va va' n) : agree va' va n := fun k hk => (h k hk).symm

theorem agree.trans {va'' : BitVec 64} {n : Nat} (h : agree va va' n) (h' : agree va' va'' n) : agree va va'' n :=
  fun k hk => (h k hk).trans (h' k hk)

theorem agree.mono {n n' : Nat} (h : agree va va' n) (hn : n' ≤ n) : agree va va' n' :=
  fun k hk => h k (lt_of_lt_of_le hk hn)

theorem agree_succ {n : Nat} : agree va va' (n + 1) ↔ agree va va' n ∧ index va n = index va' n := by
  refine ⟨fun h => ⟨h.mono (Nat.le_succ n), h n (Nat.lt_succ_self n)⟩, fun h k hk => ?_⟩
  rcases Nat.lt_or_eq_of_le (Nat.le_of_lt_succ hk) with hlt | rfl
  · exact h.1 k hlt
  · exact h.2

theorem agree_refl (va : BitVec 64) (n : Nat) : agree va va n := fun _ _ => rfl

theorem tableAt_agree {l : Nat} (h : agree va va' l) : tableAt m root va l = tableAt m root va' l := by
  induction l with
  | zero => rfl
  | succ l ih =>
    obtain ⟨h1, h2⟩ := agree_succ.mp h
    rw [tableAt, tableAt, ih h1]
    simp only [slot, h2]

/-- Addresses that agree up to the level where one walk ends have one walk. -/
theorem walk_agree (h : agree va va' ((walk m root va).level + 1)) : walk m root va' = walk m root va := by
  obtain ⟨t, ht, hs, he, hn⟩ := walk_ends m root va
  obtain ⟨h1, h2⟩ := agree_succ.mp h
  exact walk_eq ⟨t, by rw [← tableAt_agree h1]; exact ht, by rw [hs, slot, slot, h2], he, hn⟩

/-- A walk that reads a table at a level ends there or below. -/
theorem walk_level_ge {t : BitVec 64} {l : Nat} (h : tableAt m root va l = some t) : l ≤ (walk m root va).level := by
  by_contra hc
  rw [(walk_ends m root va).tableAt_none (not_le.mp hc)] at h
  cases h

/-! ## Slots -/

theorem outAddr_aligned (e : BitVec 64) : (outAddr e 12).toNat % 4096 = 0 := outAddr_dvd e 12

theorem index_lt (va : BitVec 64) (l : Nat) : index va l < 512 := Nat.mod_lt _ (by decide)

/-- Below a table, each entry is the entry of an address. -/
theorem exists_index (va : BitVec 64) {l i : Nat} (hl : l ≤ 3) (hi : i < 512) :
    ∃ va', agree va va' l ∧ index va' l = i ∧ va'.toNat < 2 ^ 48 := by
  have hlt : va.toNat % 2 ^ 48 / 2 ^ (shift l + 9) * 2 ^ (shift l + 9) + i * 2 ^ shift l < 2 ^ 48 := by
    interval_cases l <;> simp only [shift] <;> omega
  refine ⟨BitVec.ofNat 64 (va.toNat % 2 ^ 48 / 2 ^ (shift l + 9) * 2 ^ (shift l + 9) + i * 2 ^ shift l), ?_, ?_, ?_⟩
  · intro k hk
    rw [index, index, BitVec.toNat_ofNat, Nat.mod_eq_of_lt (hlt.trans (by decide))]
    interval_cases l <;> interval_cases k <;> simp only [shift] <;> omega
  · rw [index, BitVec.toNat_ofNat, Nat.mod_eq_of_lt (hlt.trans (by decide))]
    interval_cases l <;> simp only [shift] <;> omega
  · rw [BitVec.toNat_ofNat, Nat.mod_eq_of_lt (hlt.trans (by decide))]
    exact hlt

theorem toNat_slot {t : BitVec 64} (ht : t.toNat % 4096 = 0) (va : BitVec 64) (l : Nat) :
    (slot t va l).toNat = t.toNat + 8 * index va l := by
  have h1 := index_lt va l
  have h2 := t.isLt
  rw [slot, BitVec.toNat_add, BitVec.toNat_ofNat]
  omega

/-- The words of a table. -/
def inPage (t a : BitVec 64) : Prop := t.toNat ≤ a.toNat ∧ a.toNat < t.toNat + 4096

theorem slot_inPage {t : BitVec 64} (ht : t.toNat % 4096 = 0) (va : BitVec 64) (l : Nat) : inPage t (slot t va l) := by
  have := index_lt va l
  unfold inPage
  rw [toNat_slot ht]
  omega

theorem inPage_unique {t t' a : BitVec 64} (ht : t.toNat % 4096 = 0) (ht' : t'.toNat % 4096 = 0) (h : inPage t a)
    (h' : inPage t' a) : t = t' := by
  unfold inPage at h h'
  apply BitVec.eq_of_toNat_eq
  omega

theorem slot_inj {t t' : BitVec 64} {l l' : Nat} (ht : t.toNat % 4096 = 0) (ht' : t'.toNat % 4096 = 0)
    (h : slot t va l = slot t' va' l') : t = t' ∧ index va l = index va' l' := by
  have heq : t = t' := inPage_unique ht ht' (slot_inPage ht va l) (h ▸ slot_inPage ht' va' l')
  subst heq
  have hn := congrArg BitVec.toNat h
  rw [toNat_slot ht, toNat_slot ht] at hn
  exact ⟨rfl, by omega⟩

/-! ## Trees -/

/-- The tables below `root` form a tree. -/
structure Tree (m : Mem) (root : BitVec 64) : Prop where
  aligned : root.toNat % 4096 = 0
  unique : ∀ {va va' t : BitVec 64} {l l' : Nat}, tableAt m root va l = some t → tableAt m root va' l' = some t →
    l = l' ∧ agree va va' l

theorem Tree.table_aligned (hT : Tree m root) {t : BitVec 64} {l : Nat} (h : tableAt m root va l = some t) :
    t.toNat % 4096 = 0 := by
  cases l with
  | zero =>
    cases h
    exact hT.aligned
  | succ l =>
    obtain ⟨t', -, hd⟩ := tableAt_succ.mp h
    rw [(decode_table hd).2.1]
    exact outAddr_aligned _

/-- An entry is read only by walks that agree up to its level. -/
theorem Tree.slot_unique (hT : Tree m root) {t t' : BitVec 64} {l l' : Nat} (h : tableAt m root va l = some t)
    (h' : tableAt m root va' l' = some t') (hs : slot t va l = slot t' va' l') : l = l' ∧ agree va va' (l + 1) := by
  obtain ⟨rfl, hi⟩ := slot_inj (hT.table_aligned h) (hT.table_aligned h') hs
  obtain ⟨rfl, ha⟩ := hT.unique h h'
  exact ⟨rfl, agree_succ.mpr ⟨ha, hi⟩⟩

/-! ## Rewriting a leaf -/

section SetLeaf

variable {t e : BitVec 64} {l : Nat}

theorem tableAt_setLeaf (ht : tableAt m root va l = some t)
    (hold : ∀ next, decode l (m (slot t va l)) ≠ .table next) (hT : Tree m root)
    (hnew : ∀ next, decode l e ≠ .table next) (hp : m' (slot t va l) = e) (hm : ∀ a, a ≠ slot t va l → m' a = m a)
    (va' : BitVec 64) (l' : Nat) : tableAt m' root va' l' = tableAt m root va' l' := by
  induction l' with
  | zero => rfl
  | succ l' ih =>
    rw [tableAt, tableAt, ih]
    cases h : tableAt m root va' l' with
    | none => rfl
    | some t' =>
      by_cases hs : slot t' va' l' = slot t va l
      · obtain ⟨rfl, -⟩ := hT.slot_unique h ht hs
        simp only [hs, hp]
      · simp only [hm _ hs]

theorem tree_setLeaf (ht : tableAt m root va l = some t)
    (hold : ∀ next, decode l (m (slot t va l)) ≠ .table next) (hT : Tree m root)
    (hnew : ∀ next, decode l e ≠ .table next) (hp : m' (slot t va l) = e) (hm : ∀ a, a ≠ slot t va l → m' a = m a) :
    Tree m' root where
  aligned := hT.aligned
  unique h h' := by
    rw [tableAt_setLeaf ht hold hT hnew hp hm] at h h'
    exact hT.unique h h'

/-- **Rewriting an entry that is no table**: the walks through it end there with the new entry, the others are kept. -/
theorem walk_setLeaf (ht : tableAt m root va l = some t)
    (hold : ∀ next, decode l (m (slot t va l)) ≠ .table next) (hT : Tree m root)
    (hnew : ∀ next, decode l e ≠ .table next) (hp : m' (slot t va l) = e) (hm : ∀ a, a ≠ slot t va l → m' a = m a)
    (va' : BitVec 64) :
    walk m' root va' = if agree va va' (l + 1) then ⟨l, slot t va l, e⟩ else walk m root va' := by
  have htab := tableAt_setLeaf ht hold hT hnew hp hm
  split
  · rename_i ha
    apply walk_eq
    obtain ⟨h1, h2⟩ := agree_succ.mp ha
    have ht' : tableAt m root va' l = some t := by rw [← tableAt_agree h1]; exact ht
    exact ⟨t, by rw [htab]; exact ht', by simp only [slot, h2], hp.symm, hnew⟩
  · rename_i ha
    apply walk_eq
    obtain ⟨t', ht', hs, he, hn⟩ := walk_ends m root va'
    refine ⟨t', by rw [htab]; exact ht', hs, ?_, hn⟩
    rw [he, hm]
    intro hc
    rw [hs] at hc
    obtain ⟨hl, h⟩ := hT.slot_unique ht ht' hc.symm
    exact ha h

end SetLeaf

/-! ## Grafting a table -/

section Graft

variable {t pg v : BitVec 64} {l : Nat}

/-- `m'` is `m` with the entry of `va` at level `l` made a table: the page `pg`, whose entries all hold `v`. -/
structure Grafted (m m' : Mem) (root va t pg v : BitVec 64) (l : Nat) : Prop where
  table : tableAt m root va l = some t
  old : ∀ next, decode l (m (slot t va l)) ≠ .table next
  entry : decode l (m' (slot t va l)) = .table pg
  fill : ∀ va', m' (slot pg va' (l + 1)) = v
  leaf : ∀ next, decode (l + 1) v ≠ .table next
  aligned : pg.toNat % 4096 = 0
  fresh : ∀ va' l', tableAt m root va' l' ≠ some pg
  frame : ∀ a, a ≠ slot t va l → ¬inPage pg a → m' a = m a

theorem Grafted.tableAt_none (hg : Grafted m m' root va t pg v l) (ha : agree va va' (l + 1)) :
    tableAt m root va' (l + 1) = none := by
  cases h : tableAt m root va' (l + 1) with
  | none => rfl
  | some t' =>
    obtain ⟨t₁, h₁, hd⟩ := tableAt_succ.mp h
    obtain ⟨ha1, ha2⟩ := agree_succ.mp ha
    rw [← tableAt_agree ha1, hg.table] at h₁
    cases h₁
    have : slot t va' l = slot t va l := by simp only [slot, ha2]
    rw [this] at hd
    exact absurd hd (hg.old t')

/-- The tables after a graft: the new one, for the walks through its entry. -/
theorem Grafted.tableAt (hg : Grafted m m' root va t pg v l) (hT : Tree m root) (va' : BitVec 64) (l' : Nat) :
    Vmsa.tableAt m' root va' l' =
      if l' = l + 1 ∧ agree va va' (l + 1) then some pg else Vmsa.tableAt m root va' l' := by
  induction l' with
  | zero => simp [Vmsa.tableAt]
  | succ l' ih =>
    by_cases hnew : l' = l ∧ agree va va' (l + 1)
    · -- the walks that read the rewritten entry go on to the new table
      obtain ⟨rfl, ha⟩ := hnew
      obtain ⟨ha1, ha2⟩ := agree_succ.mp ha
      have hs : slot t va' l' = slot t va l' := by simp only [slot, ha2]
      rw [if_pos ⟨rfl, ha⟩, tableAt_succ]
      refine ⟨t, ?_, by rw [hs]; exact hg.entry⟩
      rw [ih, if_neg (by omega), ← tableAt_agree ha1, hg.table]
    · rw [if_neg (by simpa using hnew), Vmsa.tableAt, ih]
      by_cases hin : l' = l + 1 ∧ agree va va' (l + 1)
      · -- below the new table there is nothing
        obtain ⟨rfl, ha⟩ := hin
        rw [if_pos ⟨rfl, ha⟩, Vmsa.tableAt, hg.tableAt_none ha]
        simp only [hg.fill]
        split
        · exact absurd ‹_› (hg.leaf _)
        · rfl
      · rw [if_neg hin, Vmsa.tableAt]
        cases h : Vmsa.tableAt m root va' l' with
        | none => rfl
        | some t' =>
          have hal := hT.table_aligned h
          have h1 : slot t' va' l' ≠ slot t va l := by
            intro hc
            obtain ⟨hl, ha⟩ := hT.slot_unique hg.table h hc.symm
            exact hnew ⟨hl.symm, ha⟩
          have h2 : ¬inPage pg (slot t' va' l') := by
            intro hc
            have := inPage_unique hal hg.aligned (slot_inPage hal va' l') hc
            exact hg.fresh va' l' (this ▸ h)
          simp only [hg.frame _ h1 h2]

theorem Grafted.tree (hg : Grafted m m' root va t pg v l) (hT : Tree m root) : Tree m' root where
  aligned := hT.aligned
  unique {a a' t' k k'} h h' := by
    rw [hg.tableAt hT] at h h'
    split at h
    · rename_i hk
      cases h
      split at h'
      · rename_i hk'
        exact ⟨by omega, by rw [hk.1]; exact hk.2.symm.trans hk'.2⟩
      · exact absurd h' (hg.fresh _ _)
    · split at h'
      · cases h'
        exact absurd h (hg.fresh _ _)
      · exact hT.unique h h'

/-- **Grafting a table**: the walks through the entry go one level further and find `v`, the others are kept. -/
theorem walk_graft (hg : Grafted m m' root va t pg v l) (hT : Tree m root) (va' : BitVec 64) :
    walk m' root va' = if agree va va' (l + 1) then ⟨l + 1, slot pg va' (l + 1), v⟩ else walk m root va' := by
  have htab := hg.tableAt hT
  split
  · rename_i ha
    apply walk_eq
    exact ⟨pg, by rw [htab, if_pos ⟨rfl, ha⟩], rfl, (hg.fill va').symm, hg.leaf⟩
  · rename_i ha
    apply walk_eq
    obtain ⟨t', ht', hs, he, hn⟩ := walk_ends m root va'
    have hal := hT.table_aligned ht'
    refine ⟨t', by rw [htab, if_neg (fun h => ha h.2)]; exact ht', hs, ?_, hn⟩
    rw [he, hs, hg.frame]
    · intro hc
      exact ha (hT.slot_unique hg.table ht' hc.symm).2
    · intro hc
      have := inPage_unique hal hg.aligned (slot_inPage hal va' _) hc
      exact hg.fresh va' _ (this ▸ ht')

end Graft

end Vmsa
