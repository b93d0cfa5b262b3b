import LitmusHarness.Lib.VmsaRegion
import LitmusHarness.Vmm.Pgtable

/-!
# `vmm_ptable_map`

The entry that maps `x` is of level `mapLevel`, the highest at which the region of `x` is in the range and has one
offset in the virtual and the physical range. `RangeInv` says what the walk of every address is while the loops run:
behind the current address the new entry, unless a deeper table was there (`DoneCell`), and elsewhere the old walk,
unless a block was split (`TodoCell`). One tile keeps it (`RangeInv.tile`), so each loop does, and at the end of the
range it decides for each address whether the mapping is right (`vmmPtableMap_exact_iff`).
-/

namespace LitmusHarness

open Vmsa (Mem agree base size Meets)

/-! ## What the mapping should be -/

/-- The physical address for `x`. -/
def VMRegion.paAt (reg : VMRegion) (x : Nat) : U64 := reg.pa + BitVec.ofNat 64 (x - reg.vaStart.toNat)

theorem VMRegion.paAt_aligned (reg : VMRegion) {x : Nat} (hvs : reg.vaStart.toNat % 4096 = 0)
    (hpa : reg.pa.toNat % 4096 = 0) (hx : x % 4096 = 0) : (reg.paAt x).toNat % 4096 = 0 := by
  rw [VMRegion.paAt, BitVec.toNat_add, BitVec.toNat_ofNat]
  omega

/-- The attributes that `vmm_make_desc` gives to `memattr|prot`, in a descriptor of a level. -/
def VMRegion.attrs (reg : VMRegion) (level : Nat) : Attrs :=
  if level = 3 then { makeAttrs (reg.memattr ||| reg.prot) with nT := 0 } else makeAttrs (reg.memattr ||| reg.prot)

/-- `x` is mapped as the region says in `mem`, and as in `mem₀` when it is outside. -/
def MapRight (mem₀ mem : Mem) (root : U64) (reg : VMRegion) (x : U64) : Prop :=
  if reg.vaStart.toNat ≤ x.toNat ∧ x.toNat < reg.vaEnd.toNat then
    translation mem root x = some (reg.paAt x.toNat, reg.attrs (Vmsa.walk mem root x).level)
  else translation mem root x = translation mem₀ root x

/-! ## Levels of the tiles -/

/-- The region of `x` at a level is in the range, and has the same offset in both ranges. -/
def VMRegion.Fits (reg : VMRegion) (x l : Nat) : Prop :=
  reg.vaStart.toNat % size l = reg.pa.toNat % size l ∧ reg.vaStart.toNat ≤ base x l ∧ base x l + size l ≤ reg.vaEnd.toNat

instance (reg : VMRegion) (x l : Nat) : Decidable (reg.Fits x l) := by unfold VMRegion.Fits; infer_instance

/-- The level of the entry that maps `x`. -/
def VMRegion.mapLevel (reg : VMRegion) (x : Nat) : Nat := if reg.Fits x 1 then 1 else if reg.Fits x 2 then 2 else 3

theorem VMRegion.mapLevel_bounds (reg : VMRegion) (x : Nat) : 0 < reg.mapLevel x ∧ reg.mapLevel x ≤ 3 := by
  unfold VMRegion.mapLevel
  split
  · omega
  · split <;> omega

/-! ## The invariant -/

section Invariant

variable (reg : VMRegion) (root : U64) (mem₀ mem : Mem)

/-- The walk of an address that has been mapped. -/
structure DoneCell (x : U64) : Prop where
  tile : (Vmsa.walk mem₀ root x).level ≤ reg.mapLevel x.toNat →
    (Vmsa.walk mem root x).level = reg.mapLevel x.toNat ∧
    (Vmsa.walk mem root x).entry = vmmMakeDesc (reg.paAt (base x.toNat (reg.mapLevel x.toNat)))
      (reg.memattr ||| reg.prot) (reg.mapLevel x.toNat)
  deeper : reg.mapLevel x.toNat < (Vmsa.walk mem₀ root x).level →
    base x.toNat (Vmsa.walk mem₀ root x).level = base x.toNat (reg.mapLevel x.toNat) →
    (Vmsa.walk mem root x).level = (Vmsa.walk mem₀ root x).level ∧
    (Vmsa.walk mem root x).entry = vmmMakeDesc (reg.paAt (base x.toNat (reg.mapLevel x.toNat)))
      (reg.memattr ||| reg.prot) (Vmsa.walk mem₀ root x).level
  missed : reg.mapLevel x.toNat < (Vmsa.walk mem₀ root x).level →
    base x.toNat (Vmsa.walk mem₀ root x).level ≠ base x.toNat (reg.mapLevel x.toNat) →
    Vmsa.walk mem root x = Vmsa.walk mem₀ root x

/-- The walk of an address that has not been mapped, when the addresses mapped are `[lo, cur)`: `m` is the first level
whose region of `x` they do not meet, and if the walk ended above it the entry was split, down to level `m`. -/
structure TodoCell (lo cur : Nat) (x : U64) (m : Nat) : Prop where
  le : m ≤ 3
  meets : ∀ l, l < m → Meets lo cur x.toNat l
  clear : ¬Meets lo cur x.toNat m
  level : (Vmsa.walk mem root x).level = max (Vmsa.walk mem₀ root x).level m
  keep : m ≤ (Vmsa.walk mem₀ root x).level → Vmsa.walk mem root x = Vmsa.walk mem₀ root x
  split : (Vmsa.walk mem₀ root x).level < m → (Vmsa.walk mem root x).entry =
    splitEntry (Vmsa.walk mem₀ root x).entry (Vmsa.walk mem₀ root x).level

/-- The state of the loops at the address `cur`. -/
structure RangeInv (top : U64) (st : RangeState) : Prop where
  ok : TablesOk top root st.vmm
  ge : reg.vaStart.toNat ≤ st.va.toNat
  le : st.va.toNat ≤ reg.vaEnd.toNat
  pa : st.pa = reg.paAt st.va.toNat
  aligned : size 3 ∣ st.va.toNat
  finished : ∀ x : U64, reg.vaStart.toNat ≤ x.toNat → x.toNat < st.va.toNat →
    base x.toNat (reg.mapLevel x.toNat) + size (reg.mapLevel x.toNat) ≤ st.va.toNat ∧
    DoneCell reg root mem₀ st.vmm.mem x
  todo : ∀ x : U64, x.toNat < 2 ^ 48 → ¬(reg.vaStart.toNat ≤ x.toNat ∧ x.toNat < st.va.toNat) →
    ∃ m, TodoCell root mem₀ st.vmm.mem reg.vaStart.toNat st.va.toNat x m

end Invariant

/-! ## One tile -/

section Tile

variable {reg : VMRegion} {top root : U64} {mem₀ : Mem} {st : RangeState} {vmm : VmmState} {d : Nat} {x : U64}

/-- The walk of a mapped address ends at the level of its tile or below. -/
theorem DoneCell.level_ge {mem : Mem} (h : DoneCell reg root mem₀ mem x) :
    reg.mapLevel x.toNat ≤ (Vmsa.walk mem root x).level := by
  by_cases hd : (Vmsa.walk mem₀ root x).level ≤ reg.mapLevel x.toNat
  · rw [(h.tile hd).1]
  · have hlt := not_le.mp hd
    by_cases hb : base x.toNat (Vmsa.walk mem₀ root x).level = base x.toNat (reg.mapLevel x.toNat)
    · rw [(h.deeper hlt hb).1]
      exact le_of_lt hlt
    · rw [h.missed hlt hb]
      exact le_of_lt hlt

theorem DoneCell.congr {mem mem' : Mem} (h : DoneCell reg root mem₀ mem x)
    (hw : Vmsa.walk mem' root x = Vmsa.walk mem root x) : DoneCell reg root mem₀ mem' x := by
  refine ⟨?_, ?_, ?_⟩
  · rw [hw]
    exact h.tile
  · rw [hw]
    exact h.deeper
  · rw [hw]
    exact h.missed

/-- A tile leaves the addresses behind it alone. -/
theorem RangeInv.tile_finished (hI : RangeInv reg root mem₀ top st)
    (hT : TileSet top root st.va st.pa (reg.memattr ||| reg.prot) d st.vmm vmm) (h1 : reg.vaStart.toNat ≤ x.toNat)
    (h2 : x.toNat < st.va.toNat) (hva : st.va.toNat < 2 ^ 48) :
    Vmsa.walk vmm.mem root x = Vmsa.walk st.vmm.mem root x := by
  obtain ⟨hend, hdone⟩ := hI.finished x h1 h2
  apply hT.keep
  intro hag
  rw [Vmsa.agree_iff_base hva (by omega) (Vmsa.walk_level_le _ _ _)] at hag
  have h3 := Vmsa.lt_base_add st.va.toNat (Vmsa.walk st.vmm.mem root x).level
  have h4 := Vmsa.base_mono x.toNat hdone.level_ge
  rw [hag] at h3
  omega

/-- Ahead of the current address, the first level whose region is not met is at most that of the next tile. -/
theorem TodoCell.m_le {mem : Mem} {lo : Nat} {m : Nat} {a : Nat} (h : TodoCell root mem₀ mem lo a x m)
    (hal : size d ∣ a) (hx : a ≤ x.toNat) : m ≤ d := by
  by_contra hc
  have := (h.meets d (not_le.mp hc)).2.2
  have := Vmsa.le_base hal hx
  omega

/-- In the tile. -/
theorem RangeInv.tile_cell (hI : RangeInv reg root mem₀ top st)
    (hT : TileSet top root st.va st.pa (reg.memattr ||| reg.prot) d st.vmm vmm) (hd : d ≤ 3)
    (hal : size d ∣ st.va.toNat) (hva : st.va.toNat < 2 ^ 48) (hx48 : x.toNat < 2 ^ 48)
    (hx : st.va.toNat ≤ x.toNat) (hx' : x.toNat < st.va.toNat + size d) (hlev : reg.mapLevel x.toNat = d) :
    DoneCell reg root mem₀ vmm.mem x := by
  obtain ⟨m, hm⟩ := hI.todo x hx48 (by omega)
  have hmd := hm.m_le hal hx
  have hself := Vmsa.base_of_dvd hal
  have hbase : base x.toNat d = st.va.toNat := by
    rw [← hself]
    exact Vmsa.base_eq_of_mem (by omega) (by omega)
  have hpa := hI.pa
  have hag : ∀ l, l ≤ 3 → (agree st.va x (l + 1) ↔ base st.va.toNat l = base x.toNat l) := fun l hl =>
    Vmsa.agree_iff_base hva hx48 hl
  have hw3 := Vmsa.walk_level_le mem₀ root x
  have hlevel := hm.level
  refine ⟨fun hle => ?_, fun hlt hb => ?_, fun hlt hb => ?_⟩
  · -- the tile replaces the entry, or what it was split into
    rw [hlev] at hle ⊢
    have hmax : max (Vmsa.walk st.vmm.mem root x).level d = d := by omega
    have := hT.leaf x ((hag _ (by omega)).mpr (Vmsa.base_eq_mono (show _ ≤ d by omega) (by rw [hself, hbase])))
      (by rw [hmax]; exact (hag d hd).mpr (by rw [hself, hbase]))
    rw [hmax, hpa] at this
    rw [hbase]
    exact this
  · -- a deeper table was there, and `x` is in its first leaf
    rw [hlev] at hlt hb ⊢
    have hkeep := hm.keep (by omega)
    have hmax : max (Vmsa.walk st.vmm.mem root x).level d = (Vmsa.walk mem₀ root x).level := by
      rw [hkeep]
      omega
    have hself' : base st.va.toNat (Vmsa.walk mem₀ root x).level = st.va.toNat :=
      Vmsa.base_of_dvd ((Vmsa.size_dvd (le_of_lt hlt)).trans hal)
    have hag' := (hag _ hw3).mpr (show base st.va.toNat (Vmsa.walk mem₀ root x).level =
      base x.toNat (Vmsa.walk mem₀ root x).level by rw [hself', hb, hbase])
    have := hT.leaf x (by rw [hkeep]; exact hag') (by rw [hmax]; exact hag')
    rw [hmax, hpa] at this
    rw [hbase]
    exact this
  · -- a deeper table was there, and `x` is in another leaf
    rw [hlev] at hlt hb
    have hkeep := hm.keep (by omega)
    rw [hT.keep, hkeep]
    rw [hkeep, hag _ hw3, Vmsa.base_of_dvd ((Vmsa.size_dvd (le_of_lt hlt)).trans hal), ← hbase]
    exact fun h => hb h.symm

/-- The level at which the region of `x` leaves the one of `a`. -/
theorem exists_leave {a x : Nat} (h : base a d ≠ base x d) :
    ∃ c, c ≤ d ∧ base a c ≠ base x c ∧ ∀ l, l < c → base a l = base x l := by
  have hex : ∃ c, base a c ≠ base x c := ⟨d, h⟩
  exact ⟨Nat.find hex, Nat.find_min' hex h, Nat.find_spec hex, fun l hl => not_not.mp (Nat.find_min hex hl)⟩

/-- The first level not met, after a tile. -/
theorem TodoCell.m_tile {mem : Mem} {lo a m c : Nat} (h : TodoCell root mem₀ mem lo a x m) (hlo : lo ≤ a)
    (hal : size d ∣ a) (hcd : c ≤ d) (hc : base a c ≠ base x.toNat c)
    (hlt : ∀ l, l < c → base a l = base x.toNat l) :
    (∀ l, l < max m c → Meets lo (a + size d) x.toNat l) ∧ ¬Meets lo (a + size d) x.toNat (max m c) := by
  have hpos := Vmsa.size_pos d
  constructor
  · intro l hl
    rcases lt_max_iff.mp hl with hl | hl
    · exact (h.meets l hl).mono (Nat.le_add_right _ _)
    · exact Vmsa.meets_of_mem hlo (by omega) (hlt l hl)
  · intro hm
    obtain ⟨y, h1, h2, h3⟩ := hm.exists_mem
    by_cases hy : y < a
    · exact h.clear (Vmsa.meets_of_mem h1 hy (Vmsa.base_eq_mono (le_max_left _ _) h3))
    · -- the tile is in the region of `a` at level `c`, which is not that of `x`
      have h4 : base y d = base a d := by
        rw [Vmsa.base_of_dvd hal] at *
        exact (Vmsa.base_eq_of_mem (by rw [Vmsa.base_of_dvd hal]; omega)
          (by rw [Vmsa.base_of_dvd hal]; exact h2)).trans (Vmsa.base_of_dvd hal)
      have h5 := Vmsa.base_eq_mono hcd h4
      rw [← h5, Vmsa.base_eq_mono (le_max_right _ _) h3] at hc
      exact hc rfl

/-- Outside of the tile, and not mapped before. -/
theorem RangeInv.tile_todo (hI : RangeInv reg root mem₀ top st) (h0 : RootOk mem₀ root)
    (hT : TileSet top root st.va st.pa (reg.memattr ||| reg.prot) d st.vmm vmm) (hd : d ≤ 3)
    (hal : size d ∣ st.va.toNat) (hva : st.va.toNat < 2 ^ 48) (hx48 : x.toNat < 2 ^ 48)
    (hx : ¬(reg.vaStart.toNat ≤ x.toNat ∧ x.toNat < st.va.toNat + size d)) :
    ∃ m, TodoCell root mem₀ vmm.mem reg.vaStart.toNat (st.va.toNat + size d) x m := by
  obtain ⟨m, hm⟩ := hI.todo x hx48 (by omega)
  have hge := hI.ge
  have hself := Vmsa.base_of_dvd hal
  have hne : base st.va.toNat d ≠ base x.toNat d := by
    intro heq
    have h1 := Vmsa.base_le x.toNat d
    have h2 := Vmsa.lt_base_add x.toNat d
    omega
  obtain ⟨c, hcd, hc, hlt⟩ := exists_leave hne
  obtain ⟨hmeets, hclear⟩ := hm.m_tile hge hal hcd hc hlt
  have hmle := hm.le
  have hlevel := hm.level
  have hW := Vmsa.walk_level_le st.vmm.mem root x
  have hag : ∀ l, l ≤ 3 → (agree st.va x (l + 1) ↔ base st.va.toNat l = base x.toNat l) := fun l hl =>
    Vmsa.agree_iff_base hva hx48 hl
  -- the walks agree up to a level exactly when it is above `c`
  have hagc : ∀ l, l ≤ 3 → (agree st.va x (l + 1) ↔ l < c) := by
    intro l hl
    rw [hag l hl]
    refine ⟨fun h => ?_, hlt l⟩
    by_contra hcl
    exact hc (Vmsa.base_eq_mono (not_lt.mp hcl) h)
  by_cases hsplit : (Vmsa.walk st.vmm.mem root x).level < c
  · -- the last entry is split down to level `c`
    have hmax : max (Vmsa.walk st.vmm.mem root x).level d = d := by omega
    obtain ⟨h1, h2, h3, h4, h5⟩ := hT.split x ((hagc _ hW).mpr hsplit)
      (by rw [hmax, hagc d hd]; omega)
    have hW' : (Vmsa.walk vmm.mem root x).level = c := by
      have h6 := mt (hagc _ (Vmsa.walk_level_le vmm.mem root x)).mpr h4
      have h7 : (Vmsa.walk vmm.mem root x).level - 1 < c := by
        have h8 : agree st.va x ((Vmsa.walk vmm.mem root x).level - 1 + 1) := by
          rw [Nat.sub_add_cancel (by omega)]
          exact h3
        exact (hagc _ (by omega)).mp h8
      omega
    refine ⟨max m c, by omega, hmeets, hclear, by omega, fun h => by omega, fun _ => ?_⟩
    rw [h5]
    by_cases hm0 : m ≤ (Vmsa.walk mem₀ root x).level
    · rw [hm.keep hm0]
    · have hlt0 := not_le.mp hm0
      have hmW : (Vmsa.walk st.vmm.mem root x).level = m := by omega
      rw [hm.split hlt0, hmW]
      refine splitEntry_splitEntry hlt0 (by omega) (fun ht => ?_)
      obtain ⟨t, htab, hs, he, hn⟩ := Vmsa.walk_ends mem₀ root x
      refine hn _ (decode_of_readDesc_table (by omega) (fun hl => ?_) ht)
      rw [hl] at htab hs
      cases htab
      rw [he, hs]
      exact h0 x
  · have hk := hT.keep x (by rw [hagc _ hW]; exact hsplit)
    refine ⟨max m c, by omega, hmeets, hclear, by rw [hk]; omega, fun h => by rw [hk]; exact hm.keep (by omega),
      fun h => ?_⟩
    rw [hk]
    exact hm.split (by omega)

/-- **One tile keeps the invariant.** -/
theorem RangeInv.tile (hI : RangeInv reg root mem₀ top st) (h0 : RootOk mem₀ root) (hhi : reg.vaEnd.toNat ≤ 2 ^ 48)
    (hvs : reg.vaStart.toNat % 4096 = 0) (hpa : reg.pa.toNat % 4096 = 0) (h1 : 0 < d) (hd : d ≤ 3) (hal : size d ∣ st.va.toNat)
    (hfit : st.va.toNat + size d ≤ reg.vaEnd.toNat)
    (hlev : ∀ x, st.va.toNat ≤ x → x < st.va.toNat + size d → reg.mapLevel x = d)
    (h : setBlockOrPage top root st.va st.pa false (reg.memattr ||| reg.prot) d st.vmm = .ok vmm) :
    RangeInv reg root mem₀ top
      { va := st.va + 1#64 <<< Vmsa.shift d, pa := st.pa + 1#64 <<< Vmsa.shift d, vmm := vmm } := by
  have hpos := Vmsa.size_pos d
  have hva : st.va.toNat < 2 ^ 48 := by omega
  have hge := hI.ge
  have hone : (1#64 <<< Vmsa.shift d).toNat = size d := Mask.toNat_one_shiftLeft (by unfold Vmsa.shift; omega)
  have hnext : (st.va + 1#64 <<< Vmsa.shift d).toNat = st.va.toNat + size d := by
    rw [BitVec.toNat_add, hone, Nat.mod_eq_of_lt (by omega)]
  have hpal : st.pa.toNat % 4096 = 0 := by
    rw [hI.pa]
    exact reg.paAt_aligned hvs hpa (Nat.mod_eq_zero_of_dvd hI.aligned)
  have hT := setBlockOrPage_tileSet hI.ok hva hpal h1 hd h
  refine ⟨hT.ok, ?_, ?_, ?_, ?_, ?_, ?_⟩
  · rw [hnext]
    omega
  · rw [hnext]
    exact hfit
  · rw [hnext, hI.pa, VMRegion.paAt, VMRegion.paAt, BitVec.add_assoc]
    refine congrArg (reg.pa + ·) (BitVec.eq_of_toNat_eq ?_)
    rw [BitVec.toNat_add, hone, BitVec.toNat_ofNat, BitVec.toNat_ofNat]
    omega
  · rw [hnext]
    exact Nat.dvd_add hI.aligned (Vmsa.size_dvd hd)
  · intro x hx1 hx2
    simp only [hnext] at hx2 ⊢
    by_cases hlt : x.toNat < st.va.toNat
    · obtain ⟨h3, h4⟩ := hI.finished x hx1 hlt
      exact ⟨by omega, h4.congr (hI.tile_finished hT hx1 hlt hva)⟩
    · have hl := hlev x.toNat (not_lt.mp hlt) hx2
      refine ⟨?_, hI.tile_cell hT hd hal hva (by omega) (not_lt.mp hlt) hx2 hl⟩
      rw [hl]
      exact Vmsa.base_add_le (Nat.dvd_add hal (Nat.dvd_refl _)) hx2
  · intro x hx48 hx
    simp only [hnext] at hx ⊢
    exact hI.tile_todo h0 hT hd hal hva hx48 hx

end Tile

/-! ## The loops -/

section Loops

variable {reg : VMRegion} {top root : U64} {mem₀ : Mem} {st : RangeState} {x : Nat}

/-- What the region of a mapping has to satisfy: page-aligned, and below 2^48. -/
structure RegionOk (reg : VMRegion) : Prop where
  le : reg.vaStart.toNat ≤ reg.vaEnd.toNat
  lt : reg.vaEnd.toNat ≤ 2 ^ 48
  start : reg.vaStart.toNat % 4096 = 0
  last : reg.vaEnd.toNat % 4096 = 0
  pa : reg.paStart.toNat % 4096 = 0

theorem RegionOk.pa_aligned (h : RegionOk reg) : reg.pa.toNat % 4096 = 0 := by
  unfold VMRegion.pa
  split
  · exact h.pa
  · exact h.start

theorem VMRegion.Fits.up (h : reg.Fits x 1) : reg.Fits x 2 := by
  obtain ⟨h1, h2, h3⟩ := h
  have h4 := Vmsa.base_mono x (show 1 ≤ 2 by decide)
  refine ⟨?_, by omega, by omega⟩
  simp only [size, Vmsa.shift] at h1 ⊢
  omega

theorem VMRegion.mapLevel_one (h : reg.Fits x 1) : reg.mapLevel x = 1 := by rw [VMRegion.mapLevel, if_pos h]

theorem VMRegion.mapLevel_two (h1 : ¬reg.Fits x 1) (h2 : reg.Fits x 2) : reg.mapLevel x = 2 := by
  rw [VMRegion.mapLevel, if_neg h1, if_pos h2]

theorem VMRegion.mapLevel_three (h : ¬reg.Fits x 2) : reg.mapLevel x = 3 := by
  rw [VMRegion.mapLevel, if_neg (fun h1 => h h1.up), if_neg h]

/-- `BOTH_ALIGNED` in terms of the region: the two ranges have one offset, and the address is aligned. -/
theorem bothAligned_iff {l : Nat} (hl : l = 1 ∨ l = 2) (hI : RangeInv reg root mem₀ top st) :
    (isAligned st.va (Vmsa.shift l) && isAligned st.pa (Vmsa.shift l)) = true ↔
      reg.vaStart.toNat % size l = reg.pa.toNat % size l ∧ size l ∣ st.va.toNat := by
  have hs : Vmsa.shift l < 64 := by unfold Vmsa.shift; omega
  have hge := hI.ge
  rw [Bool.and_eq_true, isAligned_iff _ hs, isAligned_iff _ hs, hI.pa, VMRegion.paAt, BitVec.toNat_add,
    BitVec.toNat_ofNat, Nat.dvd_iff_mod_eq_zero]
  rcases hl with rfl | rfl
  · simp only [size, Vmsa.shift]
    omega
  · simp only [size, Vmsa.shift]
    omega

/-- `!END_OF_REGION`. -/
theorem not_endOfRegion_iff {l : Nat} (hI : RangeInv reg root mem₀ top st) (hhi : reg.vaEnd.toNat ≤ 2 ^ 48) :
    (!decide (st.va + 1#64 <<< Vmsa.shift l > reg.vaEnd)) = true ↔ st.va.toNat + size l ≤ reg.vaEnd.toNat := by
  have hone : (1#64 <<< Vmsa.shift l).toNat = size l := Mask.toNat_one_shiftLeft (by unfold Vmsa.shift; omega)
  have hle := hI.le
  have hsz : size l ≤ 2 ^ 39 := Nat.pow_le_pow_right (by decide) (by unfold Vmsa.shift; omega)
  rw [Bool.not_eq_true', decide_eq_false_iff_not, gt_iff_lt, BitVec.lt_def, BitVec.toNat_add, hone,
    Nat.mod_eq_of_lt (by omega), not_lt]

/-- `va < ALIGN_TO(va_end, level)`. -/
theorem lt_alignTo_iff {l : Nat} (va vaEnd : U64) :
    decide (va < alignTo vaEnd (Vmsa.shift l)) = true ↔ va.toNat < base vaEnd.toNat l := by
  rw [decide_eq_true_iff, BitVec.lt_def, toNat_alignTo _ (by unfold Vmsa.shift; omega)]
  rfl

theorem setBlockOrPage_error {a p prot : U64} {unmap : Bool} {d : Nat} {s : VmmState} {e : String}
    (h : setBlockOrPage top root a p unmap prot d s = .error e) : e = outOfPtables := by
  unfold setBlockOrPage at h
  cases he : vmmEnsureLevel top root d a s with
  | error e' =>
    simp only [he, Except.error.injEq] at h
    rw [← h]
    exact ensureLevelLoop_error _ _ _ _ _ he
  | ok s₁ => simp [he] at h

/-- **The rule of the five loops**: where the condition holds the next tile is right. -/
theorem rangeLoop_rule (cond : U64 → U64 → Bool) (d : Nat) (I : RangeState → Prop) (hreg : RegionOk reg)
    (h0 : RootOk mem₀ root) (h1 : 0 < d) (hd : d ≤ 3) (hI : ∀ st, I st → RangeInv reg root mem₀ top st)
    (hcond : ∀ st, I st → cond st.va st.pa = true → size d ∣ st.va.toNat ∧ st.va.toNat + size d ≤ reg.vaEnd.toNat ∧
      ∀ x, st.va.toNat ≤ x → x < st.va.toNat + size d → reg.mapLevel x = d)
    (hnext : ∀ st st', I st → cond st.va st.pa = true → RangeInv reg root mem₀ top st' →
      st'.va.toNat = st.va.toNat + size d → I st') (hst : I st) :
    (∀ st', rangeLoop top root false (reg.memattr ||| reg.prot) ((reg.vaEnd.toNat - reg.vaStart.toNat) / 4096) cond d
      (Vmsa.shift d) st = .ok st' → I st' ∧ cond st'.va st'.pa = false) ∧
    ∀ e, rangeLoop top root false (reg.memattr ||| reg.prot) ((reg.vaEnd.toNat - reg.vaStart.toNat) / 4096) cond d
      (Vmsa.shift d) st = .error e → e = outOfPtables := by
  have hlt := hreg.lt
  have hsize : 4096 ≤ size d := Nat.pow_le_pow_right (show 0 < 2 by decide) (show 12 ≤ Vmsa.shift d by
    unfold Vmsa.shift; omega)
  have hbody : ∀ s s' : RangeState, I s → cond s.va s.pa = true →
      (setBlockOrPage top root s.va s.pa false (reg.memattr ||| reg.prot) d s.vmm).map
        (fun vmm => { va := s.va + 1#64 <<< Vmsa.shift d, pa := s.pa + 1#64 <<< Vmsa.shift d, vmm := vmm }) = .ok s' →
      I s' ∧ s'.va.toNat = s.va.toNat + size d ∧ s.va.toNat + size d ≤ reg.vaEnd.toNat := by
    intro s s' hs hc hb
    obtain ⟨h2, h3, h4⟩ := hcond s hs hc
    cases hset : setBlockOrPage top root s.va s.pa false (reg.memattr ||| reg.prot) d s.vmm with
    | error e => simp [hset, Except.map] at hb
    | ok vmm =>
      simp only [hset, Except.map, Except.ok.injEq] at hb
      have hT := (hI s hs).tile h0 hlt hreg.start hreg.pa_aligned h1 hd h2 h3 h4 hset
      have hva : s'.va.toNat = s.va.toNat + size d := by
        rw [← hb, BitVec.toNat_add, Mask.toNat_one_shiftLeft (by unfold Vmsa.shift; omega)]
        exact Nat.mod_eq_of_lt (show s.va.toNat + size d < 2 ^ 64 by omega)
      rw [hb] at hT
      exact ⟨hnext s s' hs hc hT hva, hva, h3⟩
  constructor
  · intro st' h
    exact Loop.whileM_ok (fun s s' hs hc hb => (hbody s s' hs hc hb).1) _ st st' hst h
  · intro e h
    have hge := (hI st hst).ge
    obtain ⟨s, hs, hc, hb⟩ := @Loop.whileM_error _ _ _ _ _ I (fun s => (reg.vaEnd.toNat - s.va.toNat) / 4096)
      (fun s s' hs hc hb => by
        obtain ⟨h2, h3, h4⟩ := hbody s s' hs hc hb
        exact ⟨h2, by omega⟩)
      (fun s hs hc => by
        obtain ⟨-, h3, -⟩ := hcond s hs hc
        omega) e _ st hst (by omega) h
    cases hset : setBlockOrPage top root s.va s.pa false (reg.memattr ||| reg.prot) d s.vmm with
    | error e' =>
      simp only [hset, Except.map, Except.error.injEq] at hb
      exact hb ▸ setBlockOrPage_error hset
    | ok vmm => simp [hset, Except.map] at hb

/-- The ranges have one offset at a level, and no region of it starts before the current address. -/
def NoStart (reg : VMRegion) (st : RangeState) (l : Nat) : Prop :=
  reg.vaStart.toNat % size l = reg.pa.toNat % size l → ∀ b, size l ∣ b → reg.vaStart.toNat ≤ b → st.va.toNat ≤ b

/-- The current address can take a tile of a level, or the range is done. -/
def Ready (reg : VMRegion) (st : RangeState) (l : Nat) : Prop :=
  st.va.toNat = reg.vaEnd.toNat ∨ reg.vaStart.toNat % size l = reg.pa.toNat % size l ∧ size l ∣ st.va.toNat

/-- Where a tile of a level starts, the next finer tiles do not fill a region of that level. -/
theorem NoStart.not_fits {l : Nat} (h : NoStart reg st l) {n : Nat} (hn : n ∣ size l)
    (hva : n ∣ st.va.toNat) (hx : x < st.va.toNat + n)
    (hna : ¬(reg.vaStart.toNat % size l = reg.pa.toNat % size l ∧ size l ∣ st.va.toNat)) : ¬reg.Fits x l := by
  rintro ⟨h1, h2, -⟩
  have h3 := h h1 _ (Vmsa.base_dvd x (Nat.le_refl l)) h2
  have h4 := Vmsa.base_le x l
  have h5 : base x l = st.va.toNat := by
    obtain ⟨j, hj⟩ := hva
    obtain ⟨k, hk⟩ := hn.trans (Vmsa.base_dvd x (Nat.le_refl l))
    rw [hj] at h3 hx ⊢
    rw [hk] at h3 h4 ⊢
    rcases Nat.lt_or_ge j k with hjk | hjk
    · have : n * (j + 1) ≤ n * k := Nat.mul_le_mul_left n hjk
      rw [Nat.mul_add] at this
      omega
    · exact le_antisymm (Nat.mul_le_mul_left n hjk) h3
  exact hna ⟨h1, h5 ▸ Vmsa.base_dvd x (Nat.le_refl l)⟩

/-- Stepping over a tile that starts no region of the level. -/
theorem NoStart.next {l : Nat} {st' : RangeState} (h : NoStart reg st l) {n : Nat} (hn : n ∣ size l)
    (hva : n ∣ st.va.toNat) (hnext : st'.va.toNat = st.va.toNat + n)
    (hna : ¬(reg.vaStart.toNat % size l = reg.pa.toNat % size l ∧ size l ∣ st.va.toNat)) : NoStart reg st' l := by
  intro h1 b hb h2
  have h3 := h h1 b hb h2
  rw [hnext]
  obtain ⟨j, hj⟩ := hva
  obtain ⟨k, hk⟩ := hn.trans hb
  have hne : st.va.toNat ≠ b := fun he => hna ⟨h1, he ▸ hb⟩
  rw [hj, hk] at h3 hne ⊢
  have hjk : j < k := by
    by_contra hc
    exact hne (le_antisymm h3 (Nat.mul_le_mul_left n (not_lt.mp hc)))
  have : n * (j + 1) ≤ n * k := Nat.mul_le_mul_left n hjk
  rw [Nat.mul_add] at this
  omega

/-- A region that ends in the range ends before any later address that is aligned to its size. -/
theorem not_fits_of_end {l l' : Nat} (hl : l ≤ l') (hal : size l' ∣ st.va.toNat) (hge : st.va.toNat ≤ x)
    (hend : reg.vaEnd.toNat < st.va.toNat + size l') : ¬reg.Fits x l := by
  rintro ⟨-, -, h⟩
  have h1 := Vmsa.lt_base_add x l
  have h2 : base st.va.toNat l' + size l' ≤ base x l + size l := by
    rw [Vmsa.base_of_dvd hal]
    have h3 : size l' ∣ base x l + size l := Nat.dvd_add (Vmsa.base_dvd x hl) (Vmsa.size_dvd hl)
    have := Vmsa.base_add_le h3 (show st.va.toNat < base x l + size l by omega)
    rwa [Vmsa.base_of_dvd hal] at this
  rw [Vmsa.base_of_dvd hal] at h2
  omega

/-- In an aligned tile of the range the region fits. -/
theorem fits_of_tile {l : Nat} (hA : reg.vaStart.toNat % size l = reg.pa.toNat % size l) (hal : size l ∣ st.va.toNat)
    (hge : reg.vaStart.toNat ≤ st.va.toNat) (hle : st.va.toNat + size l ≤ reg.vaEnd.toNat) (h1 : st.va.toNat ≤ x)
    (h2 : x < st.va.toNat + size l) : reg.Fits x l := by
  have hself := Vmsa.base_of_dvd hal
  have hb : base x l = st.va.toNat := by
    rw [← hself]
    have h3 : base st.va.toNat l ≤ x := by omega
    exact Vmsa.base_eq_of_mem h3 (by omega)
  exact ⟨hA, by omega, by omega⟩

theorem NoStart.up (h : NoStart reg st 2) : NoStart reg st 1 := by
  intro h1 b hb hle
  refine h ?_ b ((Vmsa.size_dvd (by decide)).trans hb) hle
  simp only [size, Vmsa.shift] at h1 ⊢
  omega

section Five

variable (hreg : RegionOk reg) (h0 : RootOk mem₀ root)

/-- A `for` loop with the arguments that `vmm_ptable_map` gives it. -/
def mapLoop (top root : U64) (reg : VMRegion) (cond : U64 → U64 → Bool) (level bits : Nat) (st : RangeState) :
    Except String RangeState :=
  rangeLoop top root false (reg.memattr ||| reg.prot) ((reg.vaEnd.toNat - reg.vaStart.toNat) / 4096) cond level bits st

/-- 4K pages, until both addresses are aligned to 2 MiB. -/
def pagesUp (reg : VMRegion) (va pa : U64) : Bool :=
  !(isAligned va 21 && isAligned pa 21) && !decide (va + 1#64 <<< 12 > reg.vaEnd)

/-- 2 MiB blocks, until both addresses are aligned to 1 GiB. -/
def blocksUp (reg : VMRegion) (va pa : U64) : Bool :=
  !(isAligned va 30 && isAligned pa 30) && !decide (va + 1#64 <<< 21 > reg.vaEnd)

/-- As many entries of a level as the rest of the range holds. -/
def entriesDown (reg : VMRegion) (bits : Nat) (va _ : U64) : Bool :=
  decide (va < alignTo reg.vaEnd bits) && !decide (va + 1#64 <<< bits > reg.vaEnd)

theorem pagesUp_iff (hI : RangeInv reg root mem₀ top st) (hhi : reg.vaEnd.toNat ≤ 2 ^ 48) :
    pagesUp reg st.va st.pa = true ↔
      ¬(reg.vaStart.toNat % size 2 = reg.pa.toNat % size 2 ∧ size 2 ∣ st.va.toNat) ∧
        st.va.toNat + size 3 ≤ reg.vaEnd.toNat := by
  rw [← bothAligned_iff (Or.inr rfl) hI, ← not_endOfRegion_iff hI hhi, pagesUp, Bool.and_eq_true, Bool.not_eq_true',
    ← Bool.not_eq_true (_ && _)]
  exact Iff.rfl

theorem blocksUp_iff (hI : RangeInv reg root mem₀ top st) (hhi : reg.vaEnd.toNat ≤ 2 ^ 48) :
    blocksUp reg st.va st.pa = true ↔
      ¬(reg.vaStart.toNat % size 1 = reg.pa.toNat % size 1 ∧ size 1 ∣ st.va.toNat) ∧
        st.va.toNat + size 2 ≤ reg.vaEnd.toNat := by
  rw [← bothAligned_iff (Or.inl rfl) hI, ← not_endOfRegion_iff hI hhi, blocksUp, Bool.and_eq_true, Bool.not_eq_true',
    ← Bool.not_eq_true (_ && _)]
  exact Iff.rfl

theorem entriesDown_iff {l : Nat} (hI : RangeInv reg root mem₀ top st) (hhi : reg.vaEnd.toNat ≤ 2 ^ 48) :
    entriesDown reg (Vmsa.shift l) st.va st.pa = true ↔
      st.va.toNat < base reg.vaEnd.toNat l ∧ st.va.toNat + size l ≤ reg.vaEnd.toNat := by
  rw [← not_endOfRegion_iff hI hhi, ← lt_alignTo_iff, entriesDown, Bool.and_eq_true]

/-- The range ends before the next tile of a level when the loop over that level stops. -/
theorem end_of_not_entriesDown {l : Nat} (hI : RangeInv reg root mem₀ top st) (hhi : reg.vaEnd.toNat ≤ 2 ^ 48)
    (h : entriesDown reg (Vmsa.shift l) st.va st.pa = false) : reg.vaEnd.toNat < st.va.toNat + size l := by
  rw [← Bool.not_eq_true, entriesDown_iff hI hhi] at h
  have := Vmsa.lt_base_add reg.vaEnd.toNat l
  omega

include hreg h0

theorem mapLoop_pagesUp (hI : RangeInv reg root mem₀ top st) (hns : NoStart reg st 2) :
    (∀ st', mapLoop top root reg (pagesUp reg) 3 12 st = .ok st' →
      RangeInv reg root mem₀ top st' ∧ Ready reg st' 2 ∧ NoStart reg st' 1 ∧ pagesUp reg st'.va st'.pa = false) ∧
    ∀ e, mapLoop top root reg (pagesUp reg) 3 12 st = .error e → e = outOfPtables := by
  have hdvd : size 3 ∣ size 2 := Vmsa.size_dvd (by decide)
  obtain ⟨hok, herr⟩ := rangeLoop_rule (pagesUp reg) 3 (fun st => RangeInv reg root mem₀ top st ∧ NoStart reg st 2)
    hreg h0 (by decide) (Nat.le_refl 3) (fun st h => h.1)
    (fun st h hc => by
      obtain ⟨h1, h2⟩ := (pagesUp_iff h.1 hreg.lt).mp hc
      exact ⟨h.1.aligned, h2, fun x _ hx' => VMRegion.mapLevel_three (h.2.not_fits hdvd h.1.aligned hx' h1)⟩)
    (fun st st' h hc hI hva => ⟨hI, h.2.next hdvd h.1.aligned hva ((pagesUp_iff h.1 hreg.lt).mp hc).1⟩) ⟨hI, hns⟩
  refine ⟨fun st' h => ?_, herr⟩
  obtain ⟨⟨hI, hns⟩, hc⟩ := hok st' h
  refine ⟨hI, ?_, hns.up, hc⟩
  by_contra hr
  rw [Ready, not_or] at hr
  rw [← Bool.not_eq_true, pagesUp_iff hI hreg.lt] at hc
  refine hc ⟨hr.2, ?_⟩
  have h1 := hI.le
  have h2 := Nat.mod_eq_zero_of_dvd hI.aligned
  have h3 := hreg.last
  have h4 := hr.1
  simp only [size, Vmsa.shift] at h2 ⊢
  omega

theorem mapLoop_blocksUp (hI : RangeInv reg root mem₀ top st) (hr : Ready reg st 2) (hns : NoStart reg st 1) :
    (∀ st', mapLoop top root reg (blocksUp reg) 2 21 st = .ok st' →
      RangeInv reg root mem₀ top st' ∧ Ready reg st' 2 ∧
      (reg.vaEnd.toNat < st'.va.toNat + size 2 ∨
        reg.vaStart.toNat % size 1 = reg.pa.toNat % size 1 ∧ size 1 ∣ st'.va.toNat)) ∧
    ∀ e, mapLoop top root reg (blocksUp reg) 2 21 st = .error e → e = outOfPtables := by
  have hdvd : size 2 ∣ size 1 := Vmsa.size_dvd (by decide)
  have hpos := Vmsa.size_pos 2
  obtain ⟨hok, herr⟩ := rangeLoop_rule (blocksUp reg) 2
    (fun st => RangeInv reg root mem₀ top st ∧ Ready reg st 2 ∧ NoStart reg st 1) hreg h0 (by decide) (by decide)
    (fun st h => h.1)
    (fun st h hc => by
      obtain ⟨h1, h2⟩ := (blocksUp_iff h.1 hreg.lt).mp hc
      obtain ⟨hA, hal⟩ := h.2.1.resolve_left (by omega)
      exact ⟨hal, h2, fun x hx hx' => VMRegion.mapLevel_two (h.2.2.not_fits hdvd hal hx' h1)
        (fits_of_tile hA hal h.1.ge h2 hx hx')⟩)
    (fun st st' h hc hI hva => by
      obtain ⟨h1, h2⟩ := (blocksUp_iff h.1 hreg.lt).mp hc
      obtain ⟨hA, hal⟩ := h.2.1.resolve_left (by omega)
      exact ⟨hI, Or.inr ⟨hA, by rw [hva]; exact Nat.dvd_add hal (Nat.dvd_refl _)⟩, h.2.2.next hdvd hal hva h1⟩)
    ⟨hI, hr, hns⟩
  refine ⟨fun st' h => ?_, herr⟩
  obtain ⟨⟨hI, hr, -⟩, hc⟩ := hok st' h
  refine ⟨hI, hr, ?_⟩
  rw [← Bool.not_eq_true, blocksUp_iff hI hreg.lt, not_and_or, not_not, not_le] at hc
  exact hc.symm

theorem mapLoop_blocks1G (hI : RangeInv reg root mem₀ top st) (hr : Ready reg st 2)
    (hs : reg.vaEnd.toNat < st.va.toNat + size 2 ∨
      reg.vaStart.toNat % size 1 = reg.pa.toNat % size 1 ∧ size 1 ∣ st.va.toNat) :
    (∀ st', mapLoop top root reg (entriesDown reg 30) 1 30 st = .ok st' →
      RangeInv reg root mem₀ top st' ∧ Ready reg st' 2 ∧
      ∀ x, st'.va.toNat ≤ x → x < reg.vaEnd.toNat → ¬reg.Fits x 1) ∧
    ∀ e, mapLoop top root reg (entriesDown reg 30) 1 30 st = .error e → e = outOfPtables := by
  have hdvd : size 2 ∣ size 1 := Vmsa.size_dvd (by decide)
  have hlt : size 2 < size 1 := by decide
  obtain ⟨hok, herr⟩ := rangeLoop_rule (entriesDown reg 30) 1
    (fun st => RangeInv reg root mem₀ top st ∧ Ready reg st 2 ∧ (reg.vaEnd.toNat < st.va.toNat + size 2 ∨
      reg.vaStart.toNat % size 1 = reg.pa.toNat % size 1 ∧ size 1 ∣ st.va.toNat)) hreg h0 (by decide) (by decide)
    (fun st h => h.1)
    (fun st h hc => by
      obtain ⟨-, h2⟩ := (@entriesDown_iff _ _ _ _ _ 1 h.1 hreg.lt).mp hc
      obtain ⟨hA, hal⟩ := h.2.2.resolve_left (by omega)
      exact ⟨hal, h2, fun x hx hx' => VMRegion.mapLevel_one (fits_of_tile hA hal h.1.ge h2 hx hx')⟩)
    (fun st st' h hc hI hva => by
      obtain ⟨-, h2⟩ := (@entriesDown_iff _ _ _ _ _ 1 h.1 hreg.lt).mp hc
      obtain ⟨hA, hal⟩ := h.2.2.resolve_left (by omega)
      have hal' : size 1 ∣ st'.va.toNat := by
        rw [hva]
        exact Nat.dvd_add hal (Nat.dvd_refl _)
      obtain ⟨hA2, -⟩ := h.2.1.resolve_left (by omega)
      exact ⟨hI, Or.inr ⟨hA2, hdvd.trans hal'⟩, Or.inr ⟨hA, hal'⟩⟩) ⟨hI, hr, hs⟩
  refine ⟨fun st' h => ?_, herr⟩
  obtain ⟨⟨hI, hr, hs⟩, hc⟩ := hok st' h
  refine ⟨hI, hr, fun x hx hx' => ?_⟩
  rcases hs with hs | ⟨-, hal⟩
  · obtain ⟨-, hal⟩ := hr.resolve_left (by omega)
    exact not_fits_of_end (by decide) hal hx hs
  · exact not_fits_of_end (Nat.le_refl 1) hal hx (@end_of_not_entriesDown _ _ _ _ _ 1 hI hreg.lt hc)

theorem mapLoop_blocks2M (hI : RangeInv reg root mem₀ top st) (hr : Ready reg st 2)
    (hn : ∀ x, st.va.toNat ≤ x → x < reg.vaEnd.toNat → ¬reg.Fits x 1) :
    (∀ st', mapLoop top root reg (entriesDown reg 21) 2 21 st = .ok st' →
      RangeInv reg root mem₀ top st' ∧ ∀ x, st'.va.toNat ≤ x → x < reg.vaEnd.toNat → reg.mapLevel x = 3) ∧
    ∀ e, mapLoop top root reg (entriesDown reg 21) 2 21 st = .error e → e = outOfPtables := by
  have hpos := Vmsa.size_pos 2
  obtain ⟨hok, herr⟩ := rangeLoop_rule (entriesDown reg 21) 2
    (fun st => RangeInv reg root mem₀ top st ∧ Ready reg st 2 ∧
      ∀ x, st.va.toNat ≤ x → x < reg.vaEnd.toNat → ¬reg.Fits x 1) hreg h0 (by decide) (by decide)
    (fun st h => h.1)
    (fun st h hc => by
      obtain ⟨-, h2⟩ := (@entriesDown_iff _ _ _ _ _ 2 h.1 hreg.lt).mp hc
      obtain ⟨hA, hal⟩ := h.2.1.resolve_left (by omega)
      exact ⟨hal, h2, fun x hx hx' => VMRegion.mapLevel_two (h.2.2 x hx (by omega))
        (fits_of_tile hA hal h.1.ge h2 hx hx')⟩)
    (fun st st' h hc hI hva => by
      obtain ⟨-, h2⟩ := (@entriesDown_iff _ _ _ _ _ 2 h.1 hreg.lt).mp hc
      obtain ⟨hA, hal⟩ := h.2.1.resolve_left (by omega)
      exact ⟨hI, Or.inr ⟨hA, by rw [hva]; exact Nat.dvd_add hal (Nat.dvd_refl _)⟩,
        fun x hx hx' => h.2.2 x (by omega) hx'⟩) ⟨hI, hr, hn⟩
  refine ⟨fun st' h => ?_, herr⟩
  obtain ⟨⟨hI, hr, -⟩, hc⟩ := hok st' h
  refine ⟨hI, fun x hx hx' => VMRegion.mapLevel_three ?_⟩
  obtain ⟨-, hal⟩ := hr.resolve_left (by omega)
  exact not_fits_of_end (Nat.le_refl 2) hal hx (@end_of_not_entriesDown _ _ _ _ _ 2 hI hreg.lt hc)

theorem mapLoop_pagesDown (hI : RangeInv reg root mem₀ top st)
    (hn : ∀ x, st.va.toNat ≤ x → x < reg.vaEnd.toNat → reg.mapLevel x = 3) :
    (∀ st', mapLoop top root reg (fun va _ => decide (va < reg.vaEnd)) 3 12 st = .ok st' →
      RangeInv reg root mem₀ top st' ∧ st'.va = reg.vaEnd) ∧
    ∀ e, mapLoop top root reg (fun va _ => decide (va < reg.vaEnd)) 3 12 st = .error e → e = outOfPtables := by
  have hsize : size 3 = 4096 := rfl
  have hlast := hreg.last
  have hfit : ∀ st, RangeInv reg root mem₀ top st → decide (st.va < reg.vaEnd) = true →
      st.va.toNat + size 3 ≤ reg.vaEnd.toNat := by
    intro st hI hc
    rw [decide_eq_true_iff, BitVec.lt_def] at hc
    have := Nat.mod_eq_zero_of_dvd hI.aligned
    rw [hsize] at this ⊢
    omega
  obtain ⟨hok, herr⟩ := rangeLoop_rule (fun va _ => decide (va < reg.vaEnd)) 3
    (fun st => RangeInv reg root mem₀ top st ∧ ∀ x, st.va.toNat ≤ x → x < reg.vaEnd.toNat → reg.mapLevel x = 3)
    hreg h0 (by decide) (Nat.le_refl 3) (fun st h => h.1)
    (fun st h hc => by
      have h2 := hfit st h.1 hc
      exact ⟨h.1.aligned, h2, fun x hx hx' => h.2 x hx (by omega)⟩)
    (fun st st' h hc hI hva => ⟨hI, fun x hx hx' => h.2 x (by omega) hx'⟩) ⟨hI, hn⟩
  refine ⟨fun st' h => ?_, herr⟩
  obtain ⟨⟨hI, -⟩, hc⟩ := hok st' h
  refine ⟨hI, BitVec.eq_of_toNat_eq ?_⟩
  have := hI.le
  rw [decide_eq_false_iff_not, BitVec.lt_def] at hc
  omega

end Five

/-- Before the loops nothing has changed. -/
theorem RangeInv.init {s : VmmState} (hreg : RegionOk reg) (hw : TablesOk top root s) :
    RangeInv reg root s.mem top ⟨reg.vaStart, reg.pa, s⟩ where
  ok := hw
  ge := Nat.le_refl _
  le := hreg.le
  pa := by rw [VMRegion.paAt, Nat.sub_self, BitVec.add_zero]
  aligned := Nat.dvd_of_mod_eq_zero hreg.start
  finished x h1 h2 := absurd h2 (not_lt.mpr h1)
  todo x _ _ := ⟨0, by decide, fun l hl => absurd hl (Nat.not_lt_zero l), fun h => absurd h.1 (Nat.lt_irrefl _),
    (Nat.max_zero _).symm, fun _ => rfl, fun h => absurd h (Nat.not_lt_zero _)⟩

/-- **The five loops keep the invariant to the end of the range**, and fail only for want of a page. -/
theorem vmmPtableMap_inv {s : VmmState} (hreg : RegionOk reg) (hw : TablesOk top root s) :
    (∀ s', vmmPtableMap top root reg s = .ok s' →
      ∃ st, st.vmm = s' ∧ st.va = reg.vaEnd ∧ RangeInv reg root s.mem top st) ∧
    ∀ e, vmmPtableMap top root reg s = .error e → e = outOfPtables := by
  have h0 := hw.rootOk
  have hstart : isAligned reg.vaStart 12 = true := (isAligned_iff _ (by decide)).mpr hreg.start
  have hlast : isAligned reg.vaEnd 12 = true := (isAligned_iff _ (by decide)).mpr hreg.last
  have hns : NoStart reg ⟨reg.vaStart, reg.pa, s⟩ 2 := fun _ _ _ h => h
  have hl1 := mapLoop_pagesUp hreg h0 (RangeInv.init hreg hw) hns
  have hrun : vmmPtableMap top root reg s = (do
      let st ← mapLoop top root reg (pagesUp reg) 3 12 ⟨reg.vaStart, reg.pa, s⟩
      if isAligned st.va 21 && !isAligned st.pa 21 && !decide (st.va + 1#64 <<< 12 > reg.vaEnd) then
        throw "translation entry misalignment, va=%p, pa=%p. See above comment.\n"
      let st ← mapLoop top root reg (blocksUp reg) 2 21 st
      let st ← mapLoop top root reg (entriesDown reg 30) 1 30 st
      let st ← mapLoop top root reg (entriesDown reg 21) 2 21 st
      let st ← mapLoop top root reg (fun va _ => decide (va < reg.vaEnd)) 3 12 st
      return st.vmm) := by
    simp only [vmmPtableMap, ptableSetRange, hstart, hlast, Bool.not_true, Bool.false_eq_true, if_false]
    rfl
  -- the check after the first loop repeats the condition on which it stopped
  have hmis : ∀ st : RangeState, pagesUp reg st.va st.pa = false →
      (isAligned st.va 21 && !isAligned st.pa 21 && !decide (st.va + 1#64 <<< 12 > reg.vaEnd)) = false := by
    intro st h
    unfold pagesUp at h
    revert h
    cases isAligned st.va 21 <;> cases isAligned st.pa 21 <;>
      cases decide (st.va + 1#64 <<< 12 > reg.vaEnd) <;> decide
  rw [hrun]
  refine ⟨fun s' h => ?_, fun e h => ?_⟩
  · obtain ⟨st₁, h1, h⟩ := Loop.bind_ok h
    obtain ⟨hI₁, hr₁, hns₁, hc₁⟩ := hl1.1 st₁ h1
    rw [hmis st₁ hc₁] at h
    obtain ⟨st₂, h2, h⟩ := Loop.bind_ok h
    obtain ⟨hI₂, hr₂, hs₂⟩ := (mapLoop_blocksUp hreg h0 hI₁ hr₁ hns₁).1 st₂ h2
    obtain ⟨st₃, h3, h⟩ := Loop.bind_ok h
    obtain ⟨hI₃, hr₃, hn₃⟩ := (mapLoop_blocks1G hreg h0 hI₂ hr₂ hs₂).1 st₃ h3
    obtain ⟨st₄, h4, h⟩ := Loop.bind_ok h
    obtain ⟨hI₄, hn₄⟩ := (mapLoop_blocks2M hreg h0 hI₃ hr₃ hn₃).1 st₄ h4
    obtain ⟨st₅, h5, h⟩ := Loop.bind_ok h
    obtain ⟨hI₅, hva⟩ := (mapLoop_pagesDown hreg h0 hI₄ hn₄).1 st₅ h5
    cases h
    exact ⟨st₅, rfl, hva, hI₅⟩
  · rcases Loop.bind_error h with h1 | ⟨st₁, h1, h⟩
    · exact hl1.2 e h1
    obtain ⟨hI₁, hr₁, hns₁, hc₁⟩ := hl1.1 st₁ h1
    rw [hmis st₁ hc₁] at h
    rcases Loop.bind_error h with h2 | ⟨st₂, h2, h⟩
    · exact (mapLoop_blocksUp hreg h0 hI₁ hr₁ hns₁).2 e h2
    obtain ⟨hI₂, hr₂, hs₂⟩ := (mapLoop_blocksUp hreg h0 hI₁ hr₁ hns₁).1 st₂ h2
    rcases Loop.bind_error h with h3 | ⟨st₃, h3, h⟩
    · exact (mapLoop_blocks1G hreg h0 hI₂ hr₂ hs₂).2 e h3
    obtain ⟨hI₃, hr₃, hn₃⟩ := (mapLoop_blocks1G hreg h0 hI₂ hr₂ hs₂).1 st₃ h3
    rcases Loop.bind_error h with h4 | ⟨st₄, h4, h⟩
    · exact (mapLoop_blocks2M hreg h0 hI₃ hr₃ hn₃).2 e h4
    obtain ⟨hI₄, hn₄⟩ := (mapLoop_blocks2M hreg h0 hI₃ hr₃ hn₃).1 st₄ h4
    rcases Loop.bind_error h with h5 | ⟨st₅, -, h⟩
    · exact (mapLoop_pagesDown hreg h0 hI₄ hn₄).2 e h5
    · cases h

end Loops

/-! ## What each address translates to -/

section Outcome

variable {reg : VMRegion} {root x : U64} {mem₀ mem : Mem} {l : Nat}

/-- The physical address `p` and the attributes fit in a block or page entry of level `l`: `p` is below 2^48, and in a
page entry bit 16 of `memattr|prot`, which would be `nT`, does not set a clear bit of `p`. -/
def VMRegion.LeafOk (reg : VMRegion) (p : U64) (l : Nat) : Prop :=
  p.toNat < 2 ^ 48 ∧ (l = 3 → (reg.memattr ||| reg.prot).getLsbD 16 = true → p.getLsbD 16 = true)

/-- The bits of the entry that maps `p`. -/
theorem getLsbD_vmmMakeDesc (p prot : U64) (l i : Nat) : (vmmMakeDesc p prot l).getLsbD i =
    (p.getLsbD i || decide (l = 3) && decide (i = 1) || (writeAttrs (makeAttrs prot)).getLsbD i || decide (i = 0)) :=
  getLsbD_writeDesc_block rfl i

theorem getLsbD_makeAttrs_sixteen (prot : U64) : (writeAttrs (makeAttrs prot)).getLsbD 16 = prot.getLsbD 16 := by
  have h := getLsbD_writeAttrs_readAttrs prot 16
  rw [getLsbD_writeAttrs] at h ⊢
  simpa [makeAttrs, attrBit] using h

theorem decode_vmmMakeDesc {p prot : U64} (hl : l = 1 ∨ l = 2 ∨ l = 3) (hp : p.toNat % 4096 = 0) :
    Vmsa.decode l (vmmMakeDesc p prot l) = .leaf (Vmsa.outAddr (vmmMakeDesc p prot l) (Vmsa.shift l)) := by
  have h0 : (vmmMakeDesc p prot l).getLsbD 0 = true := by
    rw [getLsbD_vmmMakeDesc]
    simp
  have h1 : (vmmMakeDesc p prot l).getLsbD 1 = decide (l = 3) := by
    rw [getLsbD_vmmMakeDesc, getLsbD_writeAttrs_of_not_attrBit _ (by decide),
      Mask.getLsbD_of_dvd (show p.toNat % 2 ^ 12 = 0 from hp) (by decide)]
    simp
  rcases hl with rfl | rfl | rfl <;> simp only [Vmsa.decode, h0, h1] <;> rfl

/-- The address field holds `p` exactly when `p` fits. -/
theorem outAddr_vmmMakeDesc_iff {p : U64} (hl : l = 1 ∨ l = 2 ∨ l = 3) (hp : p.toNat % size l = 0) :
    Vmsa.outAddr (vmmMakeDesc p (reg.memattr ||| reg.prot) l) (Vmsa.shift l) = p ↔ reg.LeafOk p l := by
  -- above the offset only bit 16 of a page entry is an attribute
  have hbit : ∀ i, Vmsa.shift l ≤ i → i < 48 → (vmmMakeDesc p (reg.memattr ||| reg.prot) l).getLsbD i =
      (p.getLsbD i || decide (l = 3 ∧ i = 16) && (reg.memattr ||| reg.prot).getLsbD 16) := by
    intro i h1 h2
    have hs : 12 ≤ Vmsa.shift l := by unfold Vmsa.shift; omega
    rw [getLsbD_vmmMakeDesc]
    by_cases h16 : i = 16
    · have hl3 : l = 3 := by
        rw [h16] at h1
        unfold Vmsa.shift at h1
        omega
      rw [h16, getLsbD_makeAttrs_sixteen]
      simp [hl3]
    · have hna : ¬attrBit i := by unfold attrBit; omega
      rw [getLsbD_writeAttrs_of_not_attrBit _ hna]
      simp [show i ≠ 1 by omega, show i ≠ 0 by omega, h16]
  constructor
  · intro h
    refine ⟨Mask.lt_of_getLsbD fun i hi => ?_, fun h3 h16 => ?_⟩
    · rw [← h, Vmsa.getLsbD_outAddr]
      simp [show ¬i < 48 by omega]
    · have := congrArg (fun y => BitVec.getLsbD y 16) h
      simp only [Vmsa.getLsbD_outAddr] at this
      rw [hbit 16 (by rw [h3]; decide) (by decide), h16] at this
      rw [← this, h3]
      simp [Vmsa.shift]
  · rintro ⟨h48, h16⟩
    apply BitVec.eq_of_getLsbD_eq
    intro i _
    rw [Vmsa.getLsbD_outAddr]
    by_cases h1 : Vmsa.shift l ≤ i
    · by_cases h2 : i < 48
      · rw [hbit i h1 h2]
        by_cases h3 : l = 3 ∧ i = 16
        · obtain ⟨rfl, rfl⟩ := h3
          cases hn : (reg.memattr ||| reg.prot).getLsbD 16 with
          | false => simp [Vmsa.shift]
          | true => simp [Vmsa.shift, h16 rfl hn, -BitVec.getLsbD_eq_getElem]
        · simp [h1, h2, h3]
      · simp [h2, Mask.getLsbD_of_lt h48 (not_lt.mp h2)]
    · simp [h1, Mask.getLsbD_of_dvd hp (not_le.mp h1)]

theorem leafAttrs_vmmMakeDesc {p : U64} (hl : l = 1 ∨ l = 2 ∨ l = 3) (hp : p.toNat % size l = 0)
    (h48 : p.toNat < 2 ^ 48) : leafAttrs (vmmMakeDesc p (reg.memattr ||| reg.prot) l) l = reg.attrs l := by
  have hback : readAttrs (writeAttrs (makeAttrs (reg.memattr ||| reg.prot))) = makeAttrs (reg.memattr ||| reg.prot) :=
    readAttrs_writeAttrs _
  have hs : 12 ≤ Vmsa.shift l := by unfold Vmsa.shift; omega
  have hbit : ∀ i, attrBit i → (l = 3 → i ≠ 16) → (vmmMakeDesc p (reg.memattr ||| reg.prot) l).getLsbD i =
      (writeAttrs (makeAttrs (reg.memattr ||| reg.prot))).getLsbD i := by
    intro i hi h16
    have hpi : p.getLsbD i = false := by
      unfold attrBit at hi
      by_cases h : 48 ≤ i
      · exact Mask.getLsbD_of_lt h48 h
      · apply Mask.getLsbD_of_dvd hp
        rcases hl with rfl | rfl | rfl <;> simp only [Vmsa.shift] at hs ⊢ <;> omega
    have h01 : i ≠ 0 ∧ i ≠ 1 := by unfold attrBit at hi; omega
    rw [getLsbD_vmmMakeDesc, hpi]
    simp [h01]
  unfold leafAttrs VMRegion.attrs
  split
  · rename_i h3
    rw [readAttrs_congr_nT (fun i hi h16 => hbit i hi fun _ => h16) 0, hback]
  · rename_i h3
    rw [readAttrs_congr fun i hi => hbit i hi fun h => absurd h h3, hback]

/-- **An address whose walk ends in a new entry translates as it should exactly when the address fits.** -/
theorem translation_tile_iff (hl : l = 1 ∨ l = 2 ∨ l = 3) (hlev : (Vmsa.walk mem root x).level = l)
    (hent : (Vmsa.walk mem root x).entry = vmmMakeDesc (reg.paAt (base x.toNat l)) (reg.memattr ||| reg.prot) l)
    (hge : reg.vaStart.toNat ≤ base x.toNat l) (hp : (reg.paAt (base x.toNat l)).toNat % size l = 0) :
    translation mem root x = some (reg.paAt x.toNat, reg.attrs l) ↔ reg.LeafOk (reg.paAt (base x.toNat l)) l := by
  have h4096 : (reg.paAt (base x.toNat l)).toNat % 4096 = 0 :=
    Nat.mod_eq_zero_of_dvd ((Vmsa.size_dvd (show l ≤ 3 by omega)).trans (Nat.dvd_of_mod_eq_zero hp))
  have hdec := @decode_vmmMakeDesc l (reg.paAt (base x.toNat l)) (reg.memattr ||| reg.prot) hl h4096
  have hoff : reg.paAt x.toNat = reg.paAt (base x.toNat l) + BitVec.ofNat 64 (x.toNat % 2 ^ Vmsa.shift l) := by
    have h1 := Vmsa.base_le x.toNat l
    have h2 : x.toNat % 2 ^ Vmsa.shift l = x.toNat - base x.toNat l := by
      have := Nat.div_add_mod' x.toNat (size l)
      unfold base
      unfold size at *
      omega
    rw [VMRegion.paAt, VMRegion.paAt, BitVec.add_assoc, h2]
    refine congrArg (reg.pa + ·) (BitVec.eq_of_toNat_eq ?_)
    rw [BitVec.toNat_add, BitVec.toNat_ofNat, BitVec.toNat_ofNat, BitVec.toNat_ofNat]
    omega
  rw [translation_leaf (by rw [hlev, hent]; exact hdec), hlev, hent, hoff, Option.some.injEq, Prod.mk.injEq,
    BitVec.add_left_inj, outAddr_vmmMakeDesc_iff hl hp]
  exact ⟨fun h => h.1, fun h => ⟨h, leafAttrs_vmmMakeDesc hl hp h.1⟩⟩

/-- The physical address of a tile is aligned to its size. -/
theorem paAt_base_aligned (hreg : RegionOk reg) (hx : reg.vaStart.toNat ≤ x.toNat) :
    (reg.paAt (base x.toNat (reg.mapLevel x.toNat))).toNat % size (reg.mapLevel x.toNat) = 0 ∧
      reg.vaStart.toNat ≤ base x.toNat (reg.mapLevel x.toNat) := by
  have h3 := reg.paAt_aligned hreg.start hreg.pa_aligned
    (Nat.mod_eq_zero_of_dvd (Vmsa.base_dvd x.toNat (Nat.le_refl 3)))
  have hge3 := Vmsa.le_base (show size 3 ∣ reg.vaStart.toNat from Nat.dvd_of_mod_eq_zero hreg.start) hx
  have hfit : ∀ l, l = 1 ∨ l = 2 → reg.Fits x.toNat l → (reg.paAt (base x.toNat l)).toNat % size l = 0 ∧
      reg.vaStart.toNat ≤ base x.toNat l := by
    rintro l hl ⟨hA, hge, -⟩
    refine ⟨?_, hge⟩
    have hdvd := Nat.mod_eq_zero_of_dvd (Vmsa.base_dvd x.toNat (Nat.le_refl l))
    rw [VMRegion.paAt, BitVec.toNat_add, BitVec.toNat_ofNat]
    generalize base x.toNat l = b at *
    rcases hl with rfl | rfl
    · simp only [size, Vmsa.shift] at *
      omega
    · simp only [size, Vmsa.shift] at *
      omega
  unfold VMRegion.mapLevel
  split
  · exact hfit 1 (Or.inl rfl) ‹_›
  · split
    · exact hfit 2 (Or.inr rfl) ‹_›
    · exact ⟨h3, hge3⟩

/-- When the mapping is right at `x`, in terms of the tables before. In the range: where no deeper table was met the
physical address fits in the entry, and where one was, `x` is in the one leaf of it that is rewritten or was mapped
right already. Outside: `x` is in no block that the range meets, but for the first 2 MiB of a 1 GiB block whose rest
the range covers. -/
def MapExact (mem₀ : Mem) (root : U64) (reg : VMRegion) (x : U64) : Prop :=
  let w := Vmsa.walk mem₀ root x
  if reg.vaStart.toNat ≤ x.toNat ∧ x.toNat < reg.vaEnd.toNat then
    let d := reg.mapLevel x.toNat
    if w.level ≤ d ∨ base x.toNat w.level = base x.toNat d then
      reg.LeafOk (reg.paAt (base x.toNat d)) (max w.level d)
    else translation mem₀ root x = some (reg.paAt x.toNat, reg.attrs w.level)
  else
    (∃ oa, Vmsa.decode w.level w.entry = .leaf oa) → Meets reg.vaStart.toNat reg.vaEnd.toNat x.toNat w.level →
      w.level = 1 ∧ ¬Meets reg.vaStart.toNat reg.vaEnd.toNat x.toNat 2 ∧ x.toNat % 2 ^ 30 < 2 ^ 21

/-- In the range. -/
theorem DoneCell.right_iff (h : DoneCell reg root mem₀ mem x) (hreg : RegionOk reg)
    (hx : reg.vaStart.toNat ≤ x.toNat ∧ x.toNat < reg.vaEnd.toNat) :
    MapRight mem₀ mem root reg x ↔ MapExact mem₀ root reg x := by
  have hb := reg.mapLevel_bounds x.toNat
  obtain ⟨hal, hge⟩ := @paAt_base_aligned reg x hreg hx.1
  have hw := Vmsa.walk_level_le mem₀ root x
  simp only [MapRight, MapExact, hx, and_self, if_true]
  by_cases hd : (Vmsa.walk mem₀ root x).level ≤ reg.mapLevel x.toNat
  · obtain ⟨h1, h2⟩ := h.tile hd
    simp only [hd, true_or, if_true, max_eq_right, h1]
    exact translation_tile_iff (by omega) h1 h2 hge hal
  · have hlt := not_le.mp hd
    by_cases hbase : base x.toNat (Vmsa.walk mem₀ root x).level = base x.toNat (reg.mapLevel x.toNat)
    · obtain ⟨h1, h2⟩ := h.deeper hlt hbase
      simp only [hbase, or_true, if_true, max_eq_left (le_of_lt hlt), h1]
      rw [← hbase] at h2 hge hal ⊢
      apply translation_tile_iff (by omega) h1 h2 hge
      exact Nat.mod_eq_zero_of_dvd ((Vmsa.size_dvd (le_of_lt hlt)).trans (Nat.dvd_of_mod_eq_zero hal))
    · rw [if_neg (by simp only [hd, hbase, or_self, not_false_eq_true]), translation_of_walk (h.missed hlt hbase),
        h.missed hlt hbase]

/-- Outside of the range. -/
theorem TodoCell.right_iff {m : Nat} (h : TodoCell root mem₀ mem reg.vaStart.toNat reg.vaEnd.toNat x m)
    (h0 : RootOk mem₀ root) (hx : ¬(reg.vaStart.toNat ≤ x.toNat ∧ x.toNat < reg.vaEnd.toNat)) :
    MapRight mem₀ mem root reg x ↔ MapExact mem₀ root reg x := by
  have hle := h.le
  have hlevel := h.level
  simp only [MapRight, MapExact, hx, if_false]
  by_cases hm : m ≤ (Vmsa.walk mem₀ root x).level
  · rw [translation_of_walk (h.keep hm)]
    exact iff_of_true rfl fun _ hmeet => absurd (hmeet.up hm) h.clear
  · have hlt := not_le.mp hm
    have he := h.split hlt
    by_cases hleaf : ∃ oa, Vmsa.decode (Vmsa.walk mem₀ root x).level (Vmsa.walk mem₀ root x).entry = .leaf oa
    · obtain ⟨oa, hoa⟩ := hleaf
      obtain ⟨hl, hR⟩ := reserved_of_leaf hoa (by omega)
      have hmeet := h.meets _ hlt
      rw [translation_leaf hoa]
      by_cases h3 : m = 3
      · -- the copy is at level 3
        rw [translation_split_three hl hR (by omega) he]
        refine iff_of_false (by simp) fun hc => ?_
        exact (hc ⟨oa, hoa⟩ hmeet).2.1 (h.meets 2 (by omega))
      · -- the copy of a 1 GiB block is at level 2
        have hl1 : (Vmsa.walk mem₀ root x).level = 1 := by omega
        have hm2 : m = 2 := by omega
        rw [hl1] at he hmeet
        rw [translation_split_two hR (by omega) he, (Vmsa.decode_leaf hoa).2.1]
        have hclear := h.clear
        rw [hm2] at hclear
        simp only [hl1, hclear, hmeet, Vmsa.shift, leafAttrs, Option.some.injEq, Prod.mk.injEq, and_true,
          not_false_eq_true, true_and, true_implies, show ¬(1 = 3) by decide, if_false]
        rw [BitVec.add_right_inj, ← BitVec.toNat_inj, BitVec.toNat_ofNat, BitVec.toNat_ofNat]
        have hex : ∃ oa, Vmsa.decode 1 (Vmsa.walk mem₀ root x).entry = .leaf oa := ⟨oa, hl1 ▸ hoa⟩
        simp only [hex, true_implies]
        omega
    · have hinv := invalid_of_not_leaf h0 (by omega) hleaf
      rw [splitEntry_invalid hinv] at he
      rw [translation_of_invalid hinv, translation_of_invalid (by rw [he]; decide)]
      exact iff_of_true rfl fun hc => absurd hc hleaf

end Outcome

/-- **Each address is mapped right exactly when `MapExact` holds.** -/
theorem vmmPtableMap_right_iff {top root : U64} {reg : VMRegion} {s s' : VmmState} (hw : TablesOk top root s)
    (hreg : RegionOk reg) (h : vmmPtableMap top root reg s = .ok s') {x : U64} (hx : x.toNat < 2 ^ 48) :
    MapRight s.mem s'.mem root reg x ↔ MapExact s.mem root reg x := by
  obtain ⟨st, rfl, hva, hI⟩ := (vmmPtableMap_inv hreg hw).1 s' h
  by_cases hin : reg.vaStart.toNat ≤ x.toNat ∧ x.toNat < reg.vaEnd.toNat
  · exact (hI.finished x hin.1 (by rw [hva]; exact hin.2)).2.right_iff hreg hin
  · obtain ⟨m, hm⟩ := hI.todo x hx (by rw [hva]; exact hin)
    rw [hva] at hm
    exact hm.right_iff hw.rootOk hin

/-- **`vmm_ptable_map` is exact exactly when `MapExact` holds of every address.** It fails only for want of a page. -/
theorem vmmPtableMap_exact_iff {top root : U64} {reg : VMRegion} {s : VmmState} (hw : TablesOk top root s)
    (hreg : RegionOk reg) :
    (∀ s', vmmPtableMap top root reg s = .ok s' →
      ((∀ x : U64, x.toNat < 2 ^ 48 → MapRight s.mem s'.mem root reg x) ↔
        ∀ x : U64, x.toNat < 2 ^ 48 → MapExact s.mem root reg x)) ∧
    ∀ e, vmmPtableMap top root reg s = .error e → e = outOfPtables :=
  ⟨fun _ h => forall_congr' fun _ => forall_congr' fun hx => vmmPtableMap_right_iff hw hreg h hx,
    (vmmPtableMap_inv hreg hw).2⟩

/-- 2 MiB at `0x200000`, to be mapped to `0x80000000`. -/
def region2M : VMRegion := { vaStart := 0x200000, vaEnd := 0x400000, memattr := 0, prot := 0, paStart := 0x80000000 }

theorem region2M_ok : RegionOk region2M where
  le := by decide
  lt := by decide
  start := rfl
  last := rfl
  pa := rfl

theorem vmmPtableMap_exact_iff_region2M :
    (∀ s', vmmPtableMap 0x20000 0x1000 region2M ⟨blockMem, 0x10000⟩ = .ok s' →
      ((∀ x : U64, x.toNat < 2 ^ 48 → MapRight blockMem s'.mem 0x1000 region2M x) ↔
        ∀ x : U64, x.toNat < 2 ^ 48 → MapExact blockMem 0x1000 region2M x)) ∧
    ∀ e, vmmPtableMap 0x20000 0x1000 region2M ⟨blockMem, 0x10000⟩ = .error e → e = outOfPtables :=
  vmmPtableMap_exact_iff blockMem_tablesOk region2M_ok

/-- Mapped over a 1 GiB block, the region takes the translation of `0x400000` with it. -/
theorem vmmPtableMap_region2M_wrong : TablesOk 0x20000 0x1000 ⟨blockMem, 0x10000⟩ ∧ RegionOk region2M ∧
    ∃ s', vmmPtableMap 0x20000 0x1000 region2M ⟨blockMem, 0x10000⟩ = .ok s' ∧
      ¬MapRight blockMem s'.mem 0x1000 region2M 0x400000 := by
  refine ⟨blockMem_tablesOk, region2M_ok, ?_⟩
  have hok : (vmmPtableMap 0x20000 0x1000 region2M ⟨blockMem, 0x10000⟩).isOk = true := by decide +kernel
  cases h : vmmPtableMap 0x20000 0x1000 region2M ⟨blockMem, 0x10000⟩ with
  | error e =>
    rw [h] at hok
    cases hok
  | ok s' =>
    refine ⟨s', rfl, ?_⟩
    rw [vmmPtableMap_right_iff blockMem_tablesOk region2M_ok h (by decide)]
    have hwalk : Vmsa.walk blockMem 0x1000 0x400000 = ⟨1, 0x2000, 0x40000401⟩ := by decide +kernel
    intro hex
    simp only [MapExact, hwalk] at hex
    rw [if_neg (by decide)] at hex
    exact absurd (hex ⟨0x40000000, by decide⟩ (by decide)).2.2 (by decide)

end LitmusHarness
