import LitmusHarness.Vmm.Types

/-!
# Reading back a written descriptor

`read_desc` gives back what `write_desc` was given, with two exceptions (`readDesc_writeDesc_iff`): the field `OA` of the
attributes is in neither of them, and the attribute `nT` is written to bit 16 of every entry, which is an address bit of
tables and of level-3 pages.
-/

namespace LitmusHarness

/-- The lowest address bit of the entry for a descriptor. -/
def Desc.addrBot (d : Desc) : Nat :=
  match d.type with
  | .block => offsBot d.level
  | _ => 12

/-- A descriptor that has an entry: the address is aligned to what it maps, and below 2^48. -/
def Desc.WellFormed (d : Desc) : Prop :=
  match d.type with
  | .invalid => d.level ≤ 3
  | .block => 1 ≤ d.level ∧ d.level ≤ 3 ∧ d.addr.toNat % 2 ^ d.addrBot = 0 ∧ d.addr.toNat < 2 ^ 48
  | .table => d.level ≤ 2 ∧ d.addr.toNat % 2 ^ d.addrBot = 0 ∧ d.addr.toNat < 2 ^ 48

/-- `r` is the descriptor `d`. Of an `Invalid` one only the type is set. -/
def Desc.Same (d r : Desc) : Prop := r.type = d.type ∧ (d.type ≠ .invalid → r.addr = d.addr ∧ r.attrs = d.attrs)

section Codec

variable {d : Desc}

/-- A valid descriptor, with what its alignment says of the bits of its address. -/
theorem Desc.WellFormed.valid (h : d.WellFormed) (hv : d.type ≠ .invalid) :
    d.level ≤ 3 ∧ (d.type = .block ∧ 1 ≤ d.level ∨ d.type = .table ∧ d.level ≤ 2) ∧ 12 ≤ d.addrBot ∧ d.addrBot ≤ 47 ∧
      ∀ i, i < d.addrBot ∨ 48 ≤ i → d.addr.getLsbD i = false := by
  have hbits : d.addr.toNat % 2 ^ d.addrBot = 0 → d.addr.toNat < 2 ^ 48 →
      ∀ i, i < d.addrBot ∨ 48 ≤ i → d.addr.getLsbD i = false := by
    rintro hlow hhigh i (hi | hi)
    · exact Mask.getLsbD_of_dvd hlow hi
    · exact Nat.testBit_lt_two_pow (hhigh.trans_le (Nat.pow_le_pow_right (by decide) hi))
  unfold Desc.WellFormed at h
  cases ht : d.type with
  | invalid => exact absurd ht hv
  | block =>
    simp only [ht] at h
    obtain ⟨h1, h3, hlow, hhigh⟩ := h
    have hbot : 12 ≤ d.addrBot ∧ d.addrBot ≤ 47 := by
      simp only [Desc.addrBot, ht, offsBot]
      split <;> (try split) <;> (try split) <;> omega
    exact ⟨h3, .inl ⟨rfl, h1⟩, hbot.1, hbot.2, hbits hlow hhigh⟩
  | table =>
    simp only [ht] at h
    obtain ⟨h2, hlow, hhigh⟩ := h
    have hbot : d.addrBot = 12 := by simp only [Desc.addrBot, ht]
    exact ⟨by omega, .inr ⟨rfl, h2⟩, by omega, by omega, hbits hlow hhigh⟩

/-- The bits of its entry, above the two that say what it is. -/
theorem getLsbD_writeDesc (hv : d.type ≠ .invalid) {i : Nat} (hi : 2 ≤ i) :
    (writeDesc d).getLsbD i = (d.addr.getLsbD i || (writeAttrs d.attrs).getLsbD i) := by
  cases ht : d.type with
  | invalid => exact absurd ht hv
  | block =>
    rw [getLsbD_writeDesc_block ht]
    simp [show i ≠ 1 by omega, show i ≠ 0 by omega]
  | table =>
    rw [getLsbD_writeDesc_table ht]
    simp [show i ≠ 1 by omega, show i ≠ 0 by omega]

/-- The entry is read as the same kind of descriptor. -/
theorem readDesc_writeDesc (h : d.WellFormed) (hv : d.type ≠ .invalid) :
    readDesc (writeDesc d) d.level =
      { level := d.level, addr := descAddr (writeDesc d) d.addrBot, type := d.type, attrs := readAttrs (writeDesc d) } := by
  obtain ⟨hl, hk, h12, -, hbits⟩ := h.valid hv
  have haddr : ∀ i, i < 2 → d.addr.getLsbD i = false := fun i hi => hbits i (.inl (by omega))
  have hattr : ∀ i, i < 2 → (writeAttrs d.attrs).getLsbD i = false := fun i hi =>
    getLsbD_writeAttrs_of_not_attrBit _ (by unfold attrBit; omega)
  rcases hk with ⟨ht, h1⟩ | ⟨ht, h2⟩
  · have h0 : ¬bit (writeDesc d) 0 = 0 := by
      rw [bit_eq_zero, getLsbD_writeDesc_block ht]
      simp
    have hb1 : bit (writeDesc d) 1 = 0 ↔ d.level ≠ 3 := by
      rw [bit_eq_zero, getLsbD_writeDesc_block ht, haddr 1 (by omega), hattr 1 (by omega)]
      simp
    have hbot : d.addrBot = offsBot d.level := by simp only [Desc.addrBot, ht]
    rw [ht, hbot]
    obtain hd | hd | hd : d.level = 1 ∨ d.level = 2 ∨ d.level = 3 := by omega
    · rw [hd] at hb1 ⊢
      simp only [readDesc, if_neg h0, if_pos (hb1.mpr (by decide))]
    · rw [hd] at hb1 ⊢
      simp only [readDesc, if_neg h0, if_pos (hb1.mpr (by decide))]
    · rw [hd]
      simp only [readDesc, if_neg h0]
      rfl
  · have h0 : ¬bit (writeDesc d) 0 = 0 := by
      rw [bit_eq_zero, getLsbD_writeDesc_table ht]
      simp
    have hb1 : ¬bit (writeDesc d) 1 = 0 := by
      rw [bit_eq_zero, getLsbD_writeDesc_table ht]
      simp
    have hbot : d.addrBot = 12 := by simp only [Desc.addrBot, ht]
    rw [ht, hbot]
    obtain hd | hd | hd : d.level = 0 ∨ d.level = 1 ∨ d.level = 2 := by omega
    · rw [hd]
      simp only [readDesc, if_neg h0]
    · rw [hd]
      simp only [readDesc, if_neg h0, if_neg hb1]
    · rw [hd]
      simp only [readDesc, if_neg h0, if_neg hb1]

/-- The address comes back, with the attribute bits that lie in it. -/
theorem getLsbD_descAddr_writeDesc (h : d.WellFormed) (hv : d.type ≠ .invalid) (i : Nat) :
    (descAddr (writeDesc d) d.addrBot).getLsbD i =
      (d.addr.getLsbD i || decide (i = 16) && d.attrs.nT.getLsbD 0 && decide (d.addrBot ≤ 16)) := by
  obtain ⟨-, -, h12, h47, hbits⟩ := h.valid hv
  rw [getLsbD_descAddr _ h47 (by omega)]
  by_cases hi : d.addrBot ≤ i ∧ i < 48
  · rw [getLsbD_writeDesc hv (by omega), getLsbD_writeAttrs]
    by_cases h16 : i = 16
    · subst h16
      simp [hi]
    · simp [h16, hi, show i ≠ 54 by omega, show i ≠ 53 by omega, show i ≠ 11 by omega, show i ≠ 10 by omega,
        show i ≠ 5 by omega, BitVec.getLsbD_of_ge d.attrs.sh (i - 8) (by omega),
        BitVec.getLsbD_of_ge d.attrs.ap (i - 6) (by omega), BitVec.getLsbD_of_ge d.attrs.attr (i - 2) (by omega)]
  · rw [hbits i (by omega)]
    by_cases h16 : i = 16
    · subst h16
      simp [show ¬d.addrBot ≤ 16 by omega]
    · rcases not_and_or.mp hi with hi | hi <;> simp [hi, h16]

/-- The attributes come back, but for `OA`, and `nT` with the address bit that lies in it. -/
theorem readAttrs_writeDesc (h : d.WellFormed) (hv : d.type ≠ .invalid) (h16 : d.addr.getLsbD 16 = true →
    d.attrs.nT.getLsbD 0 = true) : readAttrs (writeDesc d) = { d.attrs with oa := 0 } := by
  obtain ⟨-, -, h12, -, hbits⟩ := h.valid hv
  rw [← readAttrs_writeAttrs]
  refine readAttrs_congr fun i hi => ?_
  rw [getLsbD_writeDesc hv (by unfold attrBit at hi; omega)]
  by_cases hi16 : i = 16
  · subst hi16
    have hnT : (writeAttrs d.attrs).getLsbD 16 = d.attrs.nT.getLsbD 0 := by
      rw [getLsbD_writeAttrs]
      simp
    rw [hnT]
    cases ha : d.addr.getLsbD 16
    · simp
    · simp [h16 ha]
  · rw [hbits i (by unfold attrBit at hi; omega), Bool.false_or]

/-- **What is written is read back** exactly for `Invalid` descriptors, and for those with `OA` clear whose entry has a
bit 16 of its own for `nT`, or the same bit in the address and in `nT`. -/
theorem readDesc_writeDesc_iff (h : d.WellFormed) :
    d.Same (readDesc (writeDesc d) d.level) ↔
      d.type = .invalid ∨
        d.attrs.oa = 0 ∧ (16 < d.addrBot ∨ d.addr.getLsbD 16 = d.attrs.nT.getLsbD 0) := by
  by_cases hv : d.type = .invalid
  · have hr : readDesc (writeDesc d) d.level = { level := d.level, type := .invalid } := by
      simp [writeDesc, hv, readDesc, bit]
    simp [Desc.Same, hv, hr]
  obtain ⟨-, -, -, -, hbits⟩ := h.valid hv
  have hlow : 16 < d.addrBot → d.addr.getLsbD 16 = false := fun h16 => hbits 16 (.inl h16)
  have hrd := readDesc_writeDesc h hv
  have haddr := getLsbD_descAddr_writeDesc h hv
  constructor
  · rintro ⟨-, hsame⟩
    obtain ⟨hsa, hst⟩ := hsame hv
    rw [hrd] at hsa hst
    dsimp only at hsa hst
    have h16 := haddr 16
    rw [hsa] at h16
    have hnT : d.attrs.nT.getLsbD 0 = (d.addr.getLsbD 16 || d.attrs.nT.getLsbD 0) := by
      have hread : (readAttrs (writeDesc d)).nT.getLsbD 0 = (writeDesc d).getLsbD 16 := by
        simp only [readAttrs, BitVec.getLsbD_setWidth, getLsbD_bit]
        simp
      have hwrite : (writeAttrs d.attrs).getLsbD 16 = d.attrs.nT.getLsbD 0 := by
        rw [getLsbD_writeAttrs]
        simp
      rw [hst, getLsbD_writeDesc hv (by decide), hwrite] at hread
      exact hread
    refine .inr ⟨by rw [← hst]; rfl, ?_⟩
    by_cases hb : 16 < d.addrBot
    · exact .inl hb
    · right
      simp only [decide_true, Bool.true_and, show d.addrBot ≤ 16 by omega, Bool.and_true] at h16
      rw [hnT]
      exact h16
  · rintro (hi | ⟨hoa, h16⟩)
    · exact absurd hi hv
    have hattrs : readAttrs (writeDesc d) = d.attrs := by
      rw [readAttrs_writeDesc h hv, ← hoa]
      intro ha
      rcases h16 with h16 | h16
      · rw [hlow h16] at ha
        cases ha
      · rw [← h16, ha]
    refine ⟨by rw [hrd], fun _ => ?_⟩
    rw [hrd]
    refine ⟨?_, hattrs⟩
    apply BitVec.eq_of_getLsbD_eq
    intro i _
    rw [haddr]
    by_cases hi : i = 16
    · subst hi
      rcases h16 with h16 | h16
      · simp [show ¬d.addrBot ≤ 16 by omega]
      · rw [← h16]
        cases d.addr.getLsbD 16 <;> simp
    · simp [hi]

/-- A 2 MiB block with `nT`. -/
def blockDescNT : Desc := { addr := 0x40200000, type := .block, level := 2, attrs := { nT := 1, af := 1, sh := 3 } }

theorem readDesc_writeDesc_blockDescNT : blockDescNT.Same (readDesc (writeDesc blockDescNT) blockDescNT.level) :=
  (readDesc_writeDesc_iff (d := blockDescNT) ⟨by decide, by decide, by decide, by decide⟩).mpr
    (.inr ⟨by decide, .inl (by decide)⟩)

/-- The page at 64 KiB. -/
def pageDesc64K : Desc := { addr := 0x10000, type := .block, level := 3 }

/-- Its attribute `nT` is clear, and is set when it is read back. -/
theorem readDesc_writeDesc_pageDesc64K :
    pageDesc64K.WellFormed ∧ ¬pageDesc64K.Same (readDesc (writeDesc pageDesc64K) pageDesc64K.level) :=
  ⟨⟨by decide, by decide, by decide, by decide⟩, fun h => absurd (h.2 (by decide)).2 (by decide)⟩

end Codec

end LitmusHarness
