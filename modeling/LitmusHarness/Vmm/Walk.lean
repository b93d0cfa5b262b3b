import LitmusHarness.Lib.Vmsa
import LitmusHarness.Vmm.Types

/-!
# Translation walks: `vmm_translation_walk_to_level` and `vmm_pa`

The walks of `vmm.c` read the entries that the architectural walk (`Vmsa.walk`) reads, with one difference: a level-3
entry with bits `01` is a page for `readDesc` and a fault for the architecture (`vmmTranslationWalk_eq`,
`readDesc_of_invalid`). `vmmPa` is right exactly when `PaExact` holds (`vmmPa_correct_iff`).
-/

namespace LitmusHarness

open Vmsa (Mem)

/-! ## The walks of the source -/

/-- `u64* p = root + OFFS(va, level)`. -/
def entryPtr (root va : U64) (level : Nat) : U64 := root + 8 * offs va level

/-- The loop of `vmm_translation_walk_to_level` from `level` on, with `n` iterations left. -/
def walkLoop (mem : Mem) (va : U64) : Nat → Nat → U64 → Desc → Desc
  | 0, _, _, desc => desc
  | n + 1, level, root, _ =>
    let p := entryPtr root va level
    let desc := { readDesc (mem p) level with src := some p }
    if desc.type = .invalid ∨ desc.type = .block then desc else walkLoop mem va n (level + 1) desc.addr desc

/-- `vmm_translation_walk_to_level`. -/
def vmmTranslationWalkToLevel (mem : Mem) (root va : U64) (maxLevel : Nat) : Desc :=
  walkLoop mem va (maxLevel + 1) 0 root {}

/-- `vmm_translation_walk`. -/
def vmmTranslationWalk (mem : Mem) (root va : U64) : Desc := vmmTranslationWalkToLevel mem root va 3

/-- `vmm_pa`, with `0` for `NULL`. A walk of four levels does not end in a `Table`. -/
def vmmPa (mem : Mem) (root va : U64) : U64 :=
  let desc := vmmTranslationWalk mem root va
  match desc.type with
  | .invalid => 0
  | .block => desc.addr ||| bitSlice va (offsBot desc.level) 0
  | .table => 0

/-! ## Levels and entries of the two walks -/

theorem offsBot_eq_shift {l : Nat} (h : l ≤ 3) : offsBot l = Vmsa.shift l := by
  interval_cases l <;> rfl

/-- Below 2^48 the tenth bit of the level-0 slice is clear, and `OFFS` is the index. -/
theorem toNat_offs {va : U64} (hva : va.toNat < 2 ^ 48) {l : Nat} (h : l ≤ 3) :
    (offs va l).toNat = Vmsa.index va l := by
  unfold offs Vmsa.index
  rw [toNat_bitSlice]
  · interval_cases l
    · simp only [offsTop, offsBot, Vmsa.shift, if_true]
      omega
    all_goals simp [offsTop, offsBot, Vmsa.shift]
  · interval_cases l <;> decide

theorem entryPtr_eq_slot {va : U64} (hva : va.toNat < 2 ^ 48) (root : U64) {l : Nat} (h : l ≤ 3) :
    entryPtr root va l = Vmsa.slot root va l := by
  have h1 := toNat_offs hva h
  have h2 : 8 * offs va l = BitVec.ofNat 64 (8 * Vmsa.index va l) := by
    rw [← h1]
    apply BitVec.eq_of_toNat_eq
    simp
  rw [entryPtr, Vmsa.slot, h2]

theorem descAddr_eq (e : U64) {s : Nat} (h0 : 0 < s) (h : s ≤ 47) : descAddr e s = Vmsa.outAddr e s := by
  apply BitVec.eq_of_getLsbD_eq
  intro i _
  rw [getLsbD_descAddr e h h0, Vmsa.getLsbD_outAddr]

@[simp] theorem readDesc_level (e : U64) (l : Nat) : (readDesc e l).level = l := by
  unfold readDesc
  split
  · rfl
  · split
    · rfl
    · rfl
    · split <;> rfl

theorem readDesc_of_table {l : Nat} {e next : U64} (h : Vmsa.decode l e = .table next) :
    (readDesc e l).type = .table ∧ (readDesc e l).addr = next := by
  obtain ⟨hl, rfl, h0, h1⟩ := Vmsa.decode_table h
  rw [← descAddr_eq e (by decide) (by decide)]
  interval_cases l <;> simp only [readDesc, bit_eq_zero, h0, h1, reduceCtorEq, if_false, and_self]

theorem readDesc_of_leaf {l : Nat} {e oa : U64} (h : Vmsa.decode l e = .leaf oa) :
    readDesc e l = { level := l, addr := oa, type := .block, attrs := readAttrs e } := by
  obtain ⟨hl, rfl, h0, h1⟩ := Vmsa.decode_leaf h
  rw [← offsBot_eq_shift (by omega), ← descAddr_eq e (by rcases hl with rfl | rfl | rfl <;> decide)
    (by rcases hl with rfl | rfl | rfl <;> decide)]
  have hb : e.getLsbD 1 = false ↔ l ≠ 3 := by rw [← Bool.not_eq_true, h1]
  rcases hl with rfl | rfl | rfl <;> simp only [readDesc, bit_eq_zero, h0, hb, reduceCtorEq, if_false] <;> rfl

/-- An entry with the reserved bits `01`. -/
def Reserved (e : U64) : Prop := e.getLsbD 0 = true ∧ e.getLsbD 1 = false

instance : DecidablePred Reserved := fun e => by unfold Reserved; infer_instance

/-- Above the last level, what the architecture takes for a fault is an `Invalid` descriptor, but for a reserved root
entry. At the last level `readDesc` takes a reserved entry for a page. -/
theorem readDesc_of_invalid {l : Nat} {e : U64} (hl : l ≤ 3) (h : Vmsa.decode l e = .invalid)
    (h0 : l = 0 → ¬Reserved e) :
    (e.getLsbD 0 = false ∧ readDesc e l = { level := l, type := .invalid }) ∨
      (Reserved e ∧ l = 3 ∧
        readDesc e l = { level := 3, addr := Vmsa.outAddr e 12, type := .block, attrs := readAttrs e }) := by
  unfold Reserved at *
  rw [← descAddr_eq e (by decide) (by decide)]
  cases hb0 : e.getLsbD 0 with
  | false =>
    left
    simp only [readDesc, bit_eq_zero, hb0, if_true, and_self]
  | true =>
    cases hb1 : e.getLsbD 1 with
    | true =>
      interval_cases l <;> simp [Vmsa.decode, hb0, hb1, -BitVec.getLsbD_eq_getElem] at h
    | false =>
      obtain rfl : l = 3 := by
        interval_cases l
        · exact absurd ⟨hb0, hb1⟩ (h0 rfl)
        · simp [Vmsa.decode, hb0, hb1, -BitVec.getLsbD_eq_getElem] at h
        · simp [Vmsa.decode, hb0, hb1, -BitVec.getLsbD_eq_getElem] at h
        · rfl
      right
      simp only [readDesc, bit_eq_zero, hb0, reduceCtorEq, if_false, and_self]

/-- A `Table` descriptor is a table entry. -/
theorem decode_of_readDesc_table {l : Nat} {e : U64} (hl : l ≤ 3) (h0 : l = 0 → ¬Reserved e)
    (h : (readDesc e l).type = .table) : Vmsa.decode l e = .table (readDesc e l).addr := by
  cases hd : Vmsa.decode l e with
  | table next => rw [(readDesc_of_table hd).2]
  | leaf oa =>
    rw [readDesc_of_leaf hd] at h
    cases h
  | invalid =>
    rcases readDesc_of_invalid hl hd h0 with ⟨-, hr⟩ | ⟨-, -, hr⟩
    · rw [hr] at h
      cases h
    · rw [hr] at h
      cases h

/-- No entry of the root table is reserved: a level-0 entry is invalid or a table. -/
def RootOk (mem : Mem) (root : U64) : Prop := ∀ va, ¬Reserved (mem (Vmsa.slot root va 0))

/-! ## The two walks agree -/

theorem walkLoop_eq {mem : Mem} {va : U64} (hva : va.toNat < 2 ^ 48) : ∀ (k l : Nat) (t : U64) (desc : Desc),
    l + k = 3 → (l = 0 → ¬Reserved (mem (Vmsa.slot t va 0))) →
    walkLoop mem va (k + 1) l t desc =
      let w := Vmsa.walkFrom mem va k l t
      { readDesc w.entry w.level with src := some w.slot }
  | k, l, t, desc, hl, h0 => by
    have hp := entryPtr_eq_slot hva t (show l ≤ 3 by omega)
    rw [walkLoop, hp]
    cases hd : Vmsa.decode l (mem (Vmsa.slot t va l)) with
    | table next =>
      obtain ⟨ht, ha⟩ := readDesc_of_table hd
      obtain ⟨k, rfl⟩ : ∃ k', k = k' + 1 := ⟨k - 1, by have := (Vmsa.decode_table hd).1; omega⟩
      have ih := fun desc => @walkLoop_eq mem va hva k (l + 1) next desc (by omega) (by omega)
      simp only [ht, ha, Vmsa.walkFrom, hd, reduceCtorEq, or_self, if_false]
      exact ih _
    | leaf oa =>
      have hr := readDesc_of_leaf hd
      cases k <;> simp [Vmsa.walkFrom, hd, hr]
    | invalid =>
      have hr := readDesc_of_invalid (by omega) hd (fun h => by subst h; exact h0 rfl)
      have htype : (readDesc (mem (Vmsa.slot t va l)) l).type = .invalid ∨
          (readDesc (mem (Vmsa.slot t va l)) l).type = .block := by
        rcases hr with ⟨-, hr⟩ | ⟨-, -, hr⟩ <;> simp [hr]
      cases k <;> simp [Vmsa.walkFrom, hd, htype]

/-- **The software walk ends where the architectural walk ends.** -/
theorem vmmTranslationWalk_eq {mem : Mem} {root va : U64} (hva : va.toNat < 2 ^ 48) (h0 : RootOk mem root) :
    vmmTranslationWalk mem root va =
      { readDesc (Vmsa.walk mem root va).entry (Vmsa.walk mem root va).level with
        src := some (Vmsa.walk mem root va).slot } :=
  walkLoop_eq hva 3 0 root {} rfl fun _ => h0 va

theorem vmmTranslationWalk_level {mem : Mem} {root va : U64} (hva : va.toNat < 2 ^ 48) (h0 : RootOk mem root) :
    (vmmTranslationWalk mem root va).level = (Vmsa.walk mem root va).level := by
  rw [vmmTranslationWalk_eq hva h0]
  simp

/-! ## Translations -/

/-- The attributes of a leaf entry. In a level-3 entry bit 16 is an address bit, and there is no `nT`. -/
def leafAttrs (e : U64) (level : Nat) : Attrs := if level = 3 then { readAttrs e with nT := 0 } else readAttrs e

/-- What `va` translates to: the output address and the attributes, or `none` for a fault. -/
def translation (mem : Mem) (root va : U64) : Option (U64 × Attrs) :=
  let w := Vmsa.walk mem root va
  (w.pa va).map fun pa => (pa, leafAttrs w.entry w.level)

/-! ## `vmm_pa` -/

/-- When `vmm_pa` is right, in terms of the last entry of the architectural walk: a reserved level-3 entry is met
only where the slip cannot be seen, the bit of `va` just above the offset in the leaf is clear or set in the output
address too, and the output address is not `0`. -/
structure PaExact (mem : Mem) (root va : U64) : Prop where
  reserved : (Vmsa.walk mem root va).level = 3 → Reserved (Vmsa.walk mem root va).entry →
    Vmsa.outAddr (Vmsa.walk mem root va).entry 12 = 0 ∧ va.toNat % 2 ^ 13 = 0
  carry : ∀ oa, Vmsa.decode (Vmsa.walk mem root va).level (Vmsa.walk mem root va).entry = .leaf oa →
    va.getLsbD (Vmsa.shift (Vmsa.walk mem root va).level) = true →
      oa.getLsbD (Vmsa.shift (Vmsa.walk mem root va).level) = true
  nonzero : (Vmsa.walk mem root va).pa va ≠ some 0

/-- The offset in a leaf is added without a carry. -/
theorem add_low_eq_or {oa : U64} {s : Nat} (va : U64) (h : oa.toNat % 2 ^ s = 0) :
    oa + BitVec.ofNat 64 (va.toNat % 2 ^ s) = oa ||| BitVec.ofNat 64 (va.toNat % 2 ^ s) := by
  refine (Mask.or_eq_add_of_disjoint _ _ fun i hi => ?_).symm
  rw [BitVec.getLsbD_ofNat, Nat.testBit_mod_two_pow] at hi
  by_cases hs : i < s
  · rw [Mask.getLsbD_of_dvd h hs] at hi
    simp at hi
  · simp [hs] at hi

/-- `BIT_SLICE(va, s, 0)` has one bit more than the offset: it adds the offset exactly when that bit adds nothing. -/
theorem or_bitSlice_eq_iff {oa : U64} {s : Nat} (hs : s < 63) (va : U64) (h : oa.toNat % 2 ^ s = 0) :
    oa ||| bitSlice va s 0 = oa + BitVec.ofNat 64 (va.toNat % 2 ^ s) ↔
      (va.getLsbD s = true → oa.getLsbD s = true) := by
  have hbits : ∀ i, (oa ||| bitSlice va s 0).getLsbD i = (oa.getLsbD i || va.getLsbD i && decide (i < 1 + s)) := by
    intro i
    rw [BitVec.getLsbD_or, getLsbD_bitSlice va (by omega)]
    simp
  have hsum : ∀ i, i < 64 → (oa ||| BitVec.ofNat 64 (va.toNat % 2 ^ s)).getLsbD i =
      (oa.getLsbD i || va.getLsbD i && decide (i < s)) := by
    intro i hi
    rw [BitVec.getLsbD_or, BitVec.getLsbD_ofNat, Nat.testBit_mod_two_pow, BitVec.testBit_toNat]
    simp [hi, Bool.and_comm]
  rw [add_low_eq_or va h]
  constructor
  · intro heq hv
    have := congrArg (fun x => BitVec.getLsbD x s) heq
    simpa [hbits, hsum s (by omega), hv] using this
  · intro himp
    apply BitVec.eq_of_getLsbD_eq
    intro i hi
    rw [hbits, hsum i hi]
    rcases Nat.lt_trichotomy i s with hlt | rfl | hgt
    · simp [hlt, show i < 1 + s by omega]
    · cases hv : va.getLsbD i
      · simp
      · simp [himp hv]
    · simp [show ¬i < s by omega, show ¬i < 1 + s by omega]

/-- What `vmm_pa` computes from the last entry of the walk. -/
theorem vmmPa_eq {mem : Mem} {root va : U64} (hva : va.toNat < 2 ^ 48) (h0 : RootOk mem root) :
    vmmPa mem root va =
      let d := readDesc (Vmsa.walk mem root va).entry (Vmsa.walk mem root va).level
      if d.type = .block then d.addr ||| bitSlice va (offsBot d.level) 0 else 0 := by
  simp only [vmmPa, vmmTranslationWalk_eq hva h0]
  cases (readDesc (Vmsa.walk mem root va).entry (Vmsa.walk mem root va).level).type <;> rfl

theorem paExact_iff {mem : Mem} {root va : U64} : PaExact mem root va ↔
    let w := Vmsa.walk mem root va
    (w.level = 3 → Reserved w.entry → Vmsa.outAddr w.entry 12 = 0 ∧ va.toNat % 2 ^ 13 = 0) ∧
      (∀ oa, Vmsa.decode w.level w.entry = .leaf oa → va.getLsbD (Vmsa.shift w.level) = true →
        oa.getLsbD (Vmsa.shift w.level) = true) ∧ w.pa va ≠ some 0 :=
  ⟨fun h => ⟨h.reserved, h.carry, h.nonzero⟩, fun h => ⟨h.1, h.2.1, h.2.2⟩⟩

theorem bitSlice_eq_zero (va : U64) {s : Nat} (hs : s < 63) : bitSlice va s 0 = 0#64 ↔ va.toNat % 2 ^ (s + 1) = 0 := by
  rw [← BitVec.toNat_inj, toNat_bitSlice va (by omega)]
  simp [Nat.add_comm s]

/-- **`vmm_pa` against the architectural walk**: it is `NULL` exactly on the faults and the output address with the
offset otherwise, exactly when `PaExact` holds. -/
theorem vmmPa_correct_iff {mem : Mem} {root va : U64} (hva : va.toNat < 2 ^ 48) (h0 : RootOk mem root) :
    ((vmmPa mem root va = 0 ↔ (Vmsa.walk mem root va).pa va = none) ∧
      ∀ pa, (Vmsa.walk mem root va).pa va = some pa → vmmPa mem root va = pa) ↔ PaExact mem root va := by
  have hr := vmmPa_eq hva h0
  have hroot : (Vmsa.walk mem root va).level = 0 → ¬Reserved (Vmsa.walk mem root va).entry := by
    intro hl hr
    obtain ⟨t, ht, hs, he, -⟩ := Vmsa.walk_ends mem root va
    rw [hl] at ht hs
    cases ht
    rw [he, hs] at hr
    exact h0 va hr
  have hle := Vmsa.walk_level_le mem root va
  obtain ⟨-, -, -, -, hn⟩ := Vmsa.walk_ends mem root va
  rw [paExact_iff]
  -- from here on only the last entry of the walk and the result matter
  generalize vmmPa mem root va = r at *
  generalize Vmsa.walk mem root va = w at *
  cases hd : Vmsa.decode w.level w.entry with
  | table next => exact absurd hd (hn next)
  | leaf oa =>
    obtain ⟨hl, hoa, -, h1⟩ := Vmsa.decode_leaf hd
    have hdvd : oa.toNat % 2 ^ Vmsa.shift w.level = 0 := by rw [hoa, Vmsa.outAddr_dvd]
    have hs : Vmsa.shift w.level < 63 := by unfold Vmsa.shift; omega
    simp only [readDesc_of_leaf hd, if_true, offsBot_eq_shift hle] at hr
    have hiff := or_bitSlice_eq_iff hs va hdvd
    have hres : ¬(w.level = 3 ∧ Reserved w.entry) := fun ⟨h3, _, hb⟩ => by rw [h1.mpr h3] at hb; cases hb
    rw [← hr] at hiff
    simp only [Vmsa.End.pa, hd, Option.some.injEq, reduceCtorEq, iff_false, forall_eq', Vmsa.Entry.leaf.injEq]
    constructor
    · rintro ⟨hne, heq⟩
      exact ⟨fun h3 hR => absurd ⟨h3, hR⟩ hres, hiff.mp heq, fun h => hne (heq.trans (Option.some.inj h))⟩
    · rintro ⟨-, hc, hz⟩
      have heq := hiff.mpr hc
      exact ⟨fun h => hz (congrArg some (heq.symm.trans h)), heq⟩
  | invalid =>
    simp only [Vmsa.End.pa, hd, reduceCtorEq, iff_true, false_imp_iff, implies_true, and_true, ne_eq,
      not_false_eq_true]
    rcases readDesc_of_invalid hle hd hroot with ⟨hR, hrd⟩ | ⟨hR, h3, hrd⟩
    · simp only [hrd, reduceCtorEq, if_false] at hr
      exact ⟨fun _ _ h => absurd h.1 (by rw [hR]; decide), fun _ => hr⟩
    · simp only [hrd, if_true, show offsBot 3 = 12 from rfl] at hr
      rw [hr, show (0 : U64) = 0#64 from rfl, BitVec.or_eq_zero_iff, bitSlice_eq_zero va (by decide)]
      exact ⟨fun h _ _ => h, fun h => h h3 hR⟩

/-- The tables of one 4K page, mapped at `0x1000` to `0x40000000`. -/
def pageMem : Mem := fun a =>
  if a = 0x1000 then 0x2003 else if a = 0x2000 then 0x3003 else if a = 0x3000 then 0x4003
  else if a = 0x4008 then 0x40000403 else 0

theorem pageMem_rootOk : RootOk pageMem 0x1000 := by
  intro va
  generalize Vmsa.slot 0x1000 va 0 = a
  unfold pageMem
  split
  · decide
  split
  · decide
  split
  · decide
  split
  · decide
  · decide

theorem vmmPa_correct_iff_pageMem :
    ((vmmPa pageMem 0x1000 0x1000 = 0 ↔ (Vmsa.walk pageMem 0x1000 0x1000).pa 0x1000 = none) ∧
      ∀ pa, (Vmsa.walk pageMem 0x1000 0x1000).pa 0x1000 = some pa → vmmPa pageMem 0x1000 0x1000 = pa) ↔
    PaExact pageMem 0x1000 0x1000 :=
  vmmPa_correct_iff (by decide) pageMem_rootOk

/-- The page at `0x1000` is mapped to `0x40000000`, and `vmm_pa` says `0x40001000`: bit 12 of the address is ORed in. -/
theorem vmmPa_pageMem_wrong : RootOk pageMem 0x1000 ∧
    ¬((vmmPa pageMem 0x1000 0x1000 = 0 ↔ (Vmsa.walk pageMem 0x1000 0x1000).pa 0x1000 = none) ∧
      ∀ pa, (Vmsa.walk pageMem 0x1000 0x1000).pa 0x1000 = some pa → vmmPa pageMem 0x1000 0x1000 = pa) := by
  refine ⟨pageMem_rootOk, fun ⟨_, h⟩ => ?_⟩
  have hpa : (Vmsa.walk pageMem 0x1000 0x1000).pa 0x1000 = some 0x40000000 := by decide +kernel
  have hvmm : vmmPa pageMem 0x1000 0x1000 = 0x40001000 := by decide +kernel
  rw [h _ hpa] at hvmm
  cases hvmm

end LitmusHarness
