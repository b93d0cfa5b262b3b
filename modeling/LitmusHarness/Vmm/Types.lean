import LitmusHarness.Bitwise

/-!
# Descriptors: `vmm_types.h`, `vmm_tables.h` and `vmm_entries.c`

`Desc` is `desc_t` without the `parents` array, which nothing reads, and `readDesc`/`writeDesc` are its two codecs.
Their bits are given by `getLsbD_writeDesc`, `getLsbD_descAddr` and `readAttrs_congr`: the attribute fields of a
descriptor are its bits 54, 53, 16 and 11 to 2 (`attrBit`), its output or table address the bits up to 47. Bit 16 is
both: the attribute `nT`, and an address bit of a level-3 entry.
-/

namespace LitmusHarness

/-! ## Levels -/

/-- `OFFSBOT(level)`. -/
def offsBot (level : Nat) : Nat := if level = 0 then 39 else if level = 1 then 30 else if level = 2 then 21 else 12

/-- `OFFSTOP(level)`. -/
def offsTop (level : Nat) : Nat := if level = 0 then 48 else if level = 1 then 38 else if level = 2 then 29 else 20

/-- `OFFS(va, lvl)`: the index of `va` in a table of level `lvl`. At level 0 the slice has ten bits, `48` to `39`. -/
def offs (va : U64) (lvl : Nat) : U64 := bitSlice va (offsTop lvl) (offsBot lvl)

/-! ## Types -/

/-- `enum DescType`. -/
inductive DescType
  | table
  | block
  | invalid
  deriving DecidableEq, Repr

/-- `attrs_t`: the stage 1 attributes, bit fields of a descriptor. -/
structure Attrs where
  xn : BitVec 1 := 0
  pxn : BitVec 1 := 0
  nT : BitVec 1 := 0
  oa : BitVec 4 := 0
  nG : BitVec 1 := 0
  af : BitVec 1 := 0
  sh : BitVec 2 := 0
  ap : BitVec 2 := 0
  ns : BitVec 1 := 0
  attr : BitVec 3 := 0
  deriving DecidableEq, Repr

/-- `desc_t`. `addr` is the union of `oa` and `table_addr`, and `src` is `NULL` until a walk sets it. A field that the
source leaves unset has the default here; `writeDesc` and the walks read none of those. -/
structure Desc where
  addr : U64 := 0
  src : Option U64 := none
  type : DescType := .invalid
  level : Nat := 0
  attrs : Attrs := {}
  deriving DecidableEq, Repr

/-! ## Reading and writing -/

/-- `read_attrs`. -/
def readAttrs (desc : U64) : Attrs where
  xn := (bit desc 54).setWidth 1
  pxn := (bit desc 53).setWidth 1
  nT := (bit desc 16).setWidth 1
  nG := (bit desc 11).setWidth 1
  af := (bit desc 10).setWidth 1
  sh := (bitSlice desc 9 8).setWidth 2
  ap := (bitSlice desc 7 6).setWidth 2
  ns := (bit desc 5).setWidth 1
  attr := (bitSlice desc 4 2).setWidth 3

/-- The address field of an entry, from bit 47 down to bit `bot`. -/
def descAddr (entry : U64) (bot : Nat) : U64 := bitSlice entry 47 bot <<< bot

/-- `read_desc`. -/
def readDesc (entry : U64) (level : Nat) : Desc :=
  if bit entry 0 = 0 then
    { level := level, type := .invalid }
  else
    match level with
    | 0 => { level := 0, addr := descAddr entry 12, type := .table, attrs := readAttrs entry }
    | 3 => { level := 3, addr := descAddr entry 12, type := .block, attrs := readAttrs entry }
    | _ =>
      if bit entry 1 = 0 then
        { level := level, addr := descAddr entry (offsBot level), type := .block, attrs := readAttrs entry }
      else
        { level := level, addr := descAddr entry 12, type := .table, attrs := readAttrs entry }

/-- `write_attrs`. -/
def writeAttrs (attrs : Attrs) : U64 :=
  0 ||| (attrs.xn.setWidth 64 <<< 54) ||| (attrs.pxn.setWidth 64 <<< 53) ||| (attrs.nT.setWidth 64 <<< 16)
    ||| (attrs.nG.setWidth 64 <<< 11) ||| (attrs.af.setWidth 64 <<< 10) ||| (attrs.sh.setWidth 64 <<< 8)
    ||| (attrs.ap.setWidth 64 <<< 6) ||| (attrs.ns.setWidth 64 <<< 5) ||| (attrs.attr.setWidth 64 <<< 2)

/-- `write_desc`. -/
def writeDesc (desc : Desc) : U64 :=
  match desc.type with
  | .invalid => 0
  | .table => desc.addr ||| 2 ||| writeAttrs desc.attrs ||| 1
  | .block => (if desc.level = 3 then desc.addr ||| 2 else desc.addr) ||| writeAttrs desc.attrs ||| 1

/-! ## The bits of the attributes -/

/-- The bits of a descriptor that hold its attributes. -/
def attrBit (i : Nat) : Prop := i = 54 ∨ i = 53 ∨ i = 16 ∨ 2 ≤ i ∧ i ≤ 11

instance : DecidablePred attrBit := fun i => by unfold attrBit; infer_instance

theorem setWidth_bit_congr {d d' : U64} {i : Nat} (h : d.getLsbD i = d'.getLsbD i) :
    (bit d i).setWidth 1 = (bit d' i).setWidth 1 := by
  rw [bit_eq, bit_eq, h]

theorem setWidth_bitSlice_congr {d d' : U64} {top bot k : Nat} (hk : 1 + top - bot < 64)
    (h : ∀ i, bot ≤ i → i ≤ top → d.getLsbD i = d'.getLsbD i) :
    (bitSlice d top bot).setWidth k = (bitSlice d' top bot).setWidth k := by
  apply BitVec.eq_of_getLsbD_eq
  intro i _
  rw [BitVec.getLsbD_setWidth, BitVec.getLsbD_setWidth, getLsbD_bitSlice _ hk, getLsbD_bitSlice _ hk]
  by_cases hi : i < 1 + top - bot
  · rw [h (bot + i) (by omega) (by omega)]
  · simp [hi]

/-- Without `nT`, the attributes depend on the attribute bits other than 16. -/
theorem readAttrs_congr_nT {d d' : U64} (h : ∀ i, attrBit i → i ≠ 16 → d.getLsbD i = d'.getLsbD i) (nT : BitVec 1) :
    { readAttrs d with nT := nT } = { readAttrs d' with nT := nT } := by
  have hb : ∀ i, attrBit i → i ≠ 16 → (bit d i).setWidth 1 = (bit d' i).setWidth 1 := fun i hi h16 =>
    setWidth_bit_congr (h i hi h16)
  have hs : ∀ top bot k, 2 ≤ bot → top ≤ 11 → (bitSlice d top bot).setWidth k = (bitSlice d' top bot).setWidth k :=
    fun top bot k h2 h11 => setWidth_bitSlice_congr (by omega) fun i h3 h4 =>
      h i (by unfold attrBit; omega) (by omega)
  unfold readAttrs
  rw [hb 54 (by decide) (by decide), hb 53 (by decide) (by decide), hb 11 (by decide) (by decide),
    hb 10 (by decide) (by decide), hb 5 (by decide) (by decide), hs 9 8 2 (by decide) (by decide),
    hs 7 6 2 (by decide) (by decide), hs 4 2 3 (by decide) (by decide)]

/-- The attributes depend on the attribute bits only. -/
theorem readAttrs_congr {d d' : U64} (h : ∀ i, attrBit i → d.getLsbD i = d'.getLsbD i) :
    readAttrs d = readAttrs d' := by
  have h16 : (readAttrs d).nT = (readAttrs d').nT := setWidth_bit_congr (h 16 (by decide))
  calc readAttrs d = { readAttrs d with nT := (readAttrs d).nT } := rfl
    _ = { readAttrs d' with nT := (readAttrs d).nT } := readAttrs_congr_nT (fun i hi _ => h i hi) _
    _ = readAttrs d' := by rw [h16]

/-- The attribute fields, bit by bit. -/
theorem getLsbD_writeAttrs (a : Attrs) (i : Nat) : (writeAttrs a).getLsbD i =
    (decide (i = 54) && a.xn.getLsbD 0 || decide (i = 53) && a.pxn.getLsbD 0 || decide (i = 16) && a.nT.getLsbD 0
      || decide (i = 11) && a.nG.getLsbD 0 || decide (i = 10) && a.af.getLsbD 0
      || decide (8 ≤ i) && a.sh.getLsbD (i - 8) || decide (6 ≤ i) && a.ap.getLsbD (i - 6)
      || decide (i = 5) && a.ns.getLsbD 0 || decide (2 ≤ i) && a.attr.getLsbD (i - 2)) := by
  have h1 : ∀ (x : BitVec 1) (s : Nat), s < 64 →
      (x.setWidth 64 <<< s).getLsbD i = (decide (i = s) && x.getLsbD 0) := by
    intro x s hs
    rw [Mask.getLsbD_field]
    rcases Nat.lt_trichotomy i s with h | rfl | h
    · simp [show ¬s ≤ i by omega, show i ≠ s by omega]
    · simp [hs]
    · simp [show i ≠ s by omega, BitVec.getLsbD_of_ge x (i - s) (by omega)]
  have h2 : ∀ (k : Nat) (x : BitVec k) (s : Nat), s + k ≤ 64 →
      (x.setWidth 64 <<< s).getLsbD i = (decide (s ≤ i) && x.getLsbD (i - s)) := by
    intro k x s hs
    rw [Mask.getLsbD_field]
    by_cases hi : i < 64
    · simp [hi]
    · simp [hi, BitVec.getLsbD_of_ge x (i - s) (by omega)]
  simp only [writeAttrs, BitVec.getLsbD_or]
  rw [h1 _ _ (by decide), h1 _ _ (by decide), h1 _ _ (by decide), h1 _ _ (by decide), h1 _ _ (by decide),
    h1 _ _ (by decide), h2 _ _ _ (by decide), h2 _ _ _ (by decide), h2 _ _ _ (by decide)]
  simp

theorem getLsbD_writeAttrs_of_not_attrBit (a : Attrs) {i : Nat} (h : ¬attrBit i) :
    (writeAttrs a).getLsbD i = false := by
  rw [getLsbD_writeAttrs]
  unfold attrBit at h
  by_cases h2 : 2 ≤ i
  · simp [show i ≠ 54 by omega, show i ≠ 53 by omega, show i ≠ 16 by omega, show i ≠ 11 by omega,
      show i ≠ 10 by omega, show i ≠ 5 by omega, BitVec.getLsbD_of_ge a.sh (i - 8) (by omega),
      BitVec.getLsbD_of_ge a.ap (i - 6) (by omega), BitVec.getLsbD_of_ge a.attr (i - 2) (by omega)]
  · simp [show i ≠ 54 by omega, show i ≠ 53 by omega, show i ≠ 16 by omega, show i ≠ 11 by omega,
      show i ≠ 10 by omega, show i ≠ 5 by omega, h2, show ¬8 ≤ i by omega, show ¬6 ≤ i by omega]

theorem setWidth_bit (d : U64) (i : Nat) (x : BitVec 1) (h : d.getLsbD i = x.getLsbD 0) : (bit d i).setWidth 1 = x := by
  apply BitVec.eq_of_getLsbD_eq
  intro k hk
  obtain rfl : k = 0 := by omega
  rw [BitVec.getLsbD_setWidth, getLsbD_bit, h]
  simp

theorem setWidth_bitSlice (d : U64) {top bot k : Nat} (x : BitVec k) (hk : 1 + top - bot < 64) (hw : k = 1 + top - bot)
    (h : ∀ i, i < k → d.getLsbD (bot + i) = x.getLsbD i) : (bitSlice d top bot).setWidth k = x := by
  apply BitVec.eq_of_getLsbD_eq
  intro i hi
  rw [BitVec.getLsbD_setWidth, getLsbD_bitSlice _ hk, h i hi]
  simp [hi, ← hw]

theorem readAttrs_writeAttrs (a : Attrs) : readAttrs (writeAttrs a) = { a with oa := 0 } := by
  have hg := getLsbD_writeAttrs a
  unfold readAttrs
  rw [setWidth_bit _ 54 a.xn, setWidth_bit _ 53 a.pxn, setWidth_bit _ 16 a.nT, setWidth_bit _ 11 a.nG,
    setWidth_bit _ 10 a.af, setWidth_bit _ 5 a.ns, setWidth_bitSlice _ a.sh (by decide) rfl,
    setWidth_bitSlice _ a.ap (by decide) rfl, setWidth_bitSlice _ a.attr (by decide) rfl]
  · intro i hi
    rw [hg]
    interval_cases i <;> simp
  · intro i hi
    rw [hg]
    interval_cases i <;> simp
  · intro i hi
    rw [hg]
    interval_cases i <;> simp
  all_goals
    rw [hg]
    simp

/-- Reading the attributes and writing them back keeps the attribute bits and drops the others. -/
theorem getLsbD_writeAttrs_readAttrs (e : U64) (i : Nat) :
    (writeAttrs (readAttrs e)).getLsbD i = (e.getLsbD i && decide (attrBit i)) := by
  by_cases h : attrBit i
  · have h' := h
    unfold attrBit at h'
    simp only [h, decide_true, Bool.and_true, getLsbD_writeAttrs, readAttrs, BitVec.getLsbD_setWidth, getLsbD_bit,
      getLsbD_bitSlice e (show 1 + 9 - 8 < 64 by decide), getLsbD_bitSlice e (show 1 + 7 - 6 < 64 by decide),
      getLsbD_bitSlice e (show 1 + 4 - 2 < 64 by decide)]
    rcases h' with rfl | rfl | rfl | ⟨h1, h2⟩
    · simp
    · simp
    · simp
    · interval_cases i <;> simp
  · rw [getLsbD_writeAttrs_of_not_attrBit _ h]
    simp [h]

/-! ## The bits of a descriptor -/

theorem getLsbD_descAddr (e : U64) {bot : Nat} (hb : bot ≤ 47) (h0 : 0 < bot) (i : Nat) :
    (descAddr e bot).getLsbD i = (e.getLsbD i && decide (bot ≤ i) && decide (i < 48)) := by
  have h := Mask.getLsbD_slice_shiftLeft e (bitSlice e 47 bot) bot (1 + 47 - bot) i fun j =>
    getLsbD_bitSlice e (by omega) j
  rw [descAddr, h, show bot + (1 + 47 - bot) = 48 by omega]

/-- The bits of a block or page entry: the address, the attributes, the valid bit, and at level 3 the page bit. -/
theorem getLsbD_writeDesc_block {d : Desc} (h : d.type = .block) (i : Nat) : (writeDesc d).getLsbD i =
    (d.addr.getLsbD i || decide (d.level = 3) && decide (i = 1) || (writeAttrs d.attrs).getLsbD i
      || decide (i = 0)) := by
  have h1 : (1#64).getLsbD i = decide (i = 0) := by simp [BitVec.getLsbD_one]
  have h2 : (2#64).getLsbD i = decide (i = 1) := by
    rw [show (2#64) = BitVec.twoPow 64 1 from rfl, BitVec.getLsbD_twoPow]
    simp [eq_comm]
  by_cases hl : d.level = 3
  · simp [writeDesc, h, hl, h1, h2]
  · simp [writeDesc, h, hl, h1]

/-- The bits of a table entry. -/
theorem getLsbD_writeDesc_table {d : Desc} (h : d.type = .table) (i : Nat) : (writeDesc d).getLsbD i =
    (d.addr.getLsbD i || decide (i = 1) || (writeAttrs d.attrs).getLsbD i || decide (i = 0)) := by
  have h1 : (1#64).getLsbD i = decide (i = 0) := by simp [BitVec.getLsbD_one]
  have h2 : (2#64).getLsbD i = decide (i = 1) := by
    rw [show (2#64) = BitVec.twoPow 64 1 from rfl, BitVec.getLsbD_twoPow]
    simp [eq_comm]
  simp [writeDesc, h, h1, h2]

end LitmusHarness
