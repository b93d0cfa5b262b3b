import LitmusHarness.Vmm.Pgtable
import LitmusHarness.Lib.VmsaRegion

/-!
# The calls of `__ptable_set_range`

Which calls of `set_block_or_page` the five loops make does not depend on the tables: they are a list of tiles that is
given by the range (`rangeLoop_tiles` for one loop). The tiles cover the range in increasing order, each aligned to the
block of its level in both address spaces (`ptableSetRange_tiles`).
-/

namespace LitmusHarness

open Vmsa (size)

/-! ## Tiles -/

/-- A call of `set_block_or_page`. -/
structure Tile where
  va : U64
  pa : U64
  level : Nat
  deriving DecidableEq, Repr

/-- The call. -/
def Tile.set (top root : U64) (unmap : Bool) (prot : U64) (s : VmmState) (t : Tile) : Except String VmmState :=
  setBlockOrPage top root t.va t.pa unmap prot t.level s

/-- The tile belongs to the range from `vaStart` on, which is mapped to `paStart` on. -/
structure Tile.Ok (paStart vaStart : U64) (t : Tile) : Prop where
  level : t.level = 1 ∨ t.level = 2 ∨ t.level = 3
  pa : t.pa.toNat = paStart.toNat + (t.va.toNat - vaStart.toNat)
  va_aligned : size t.level ∣ t.va.toNat
  pa_aligned : size t.level ∣ t.pa.toNat

/-- The tiles follow each other from `lo` to `hi`, without a gap. -/
def Consecutive : Nat → Nat → List Tile → Prop
  | lo, hi, [] => lo = hi
  | lo, hi, t :: ts => t.va.toNat = lo ∧ Consecutive (lo + size t.level) hi ts

theorem Consecutive.append {lo mid hi : Nat} {l l' : List Tile} (h : Consecutive lo mid l)
    (h' : Consecutive mid hi l') : Consecutive lo hi (l ++ l') := by
  induction l generalizing lo with
  | nil =>
    cases h
    exact h'
  | cons t l ih => exact ⟨h.1, ih h.2⟩

theorem Consecutive.le {lo hi : Nat} {l : List Tile} (h : Consecutive lo hi l) : lo ≤ hi := by
  induction l generalizing lo with
  | nil =>
    cases h
    exact Nat.le_refl _
  | cons t l ih => exact (Nat.le_add_right _ _).trans (ih h.2)

/-- The tiles cover the range: its addresses are those of the tiles. -/
theorem Consecutive.mem_iff {lo hi x : Nat} {l : List Tile} (h : Consecutive lo hi l) :
    (∃ t ∈ l, t.va.toNat ≤ x ∧ x < t.va.toNat + size t.level) ↔ lo ≤ x ∧ x < hi := by
  induction l generalizing lo with
  | nil =>
    cases h
    simp
  | cons t l ih =>
    obtain ⟨rfl, h⟩ := h
    have hle := h.le
    simp only [List.mem_cons, exists_eq_or_imp, ih h]
    have := Vmsa.size_pos t.level
    omega

/-! ## One loop -/

/-- A place in the range: the two addresses are in step. -/
structure InRange (paStart vaStart vaEnd va pa : U64) : Prop where
  ge : vaStart.toNat ≤ va.toNat
  le : va.toNat ≤ vaEnd.toNat
  aligned : va.toNat % 4096 = 0
  pa : pa.toNat = paStart.toNat + (va.toNat - vaStart.toNat)

section Loop

variable {paStart vaStart vaEnd va pa : U64} {level : Nat}

theorem toNat_one_shift (level : Nat) : (1#64 <<< Vmsa.shift level).toNat = size level :=
  Mask.toNat_one_shiftLeft (by unfold Vmsa.shift; omega)

theorem size_le (level : Nat) : size level ≤ 2 ^ 39 :=
  Nat.pow_le_pow_right (by decide) (by unfold Vmsa.shift; omega)

theorem four_k_dvd_size {level : Nat} (h : level ≤ 3) : 4096 ∣ size level := Vmsa.size_dvd h

/-- The next place, after a tile that fits. -/
theorem InRange.next (h : InRange paStart vaStart vaEnd va pa) (hend : vaEnd.toNat < 2 ^ 48)
    (hpa : paStart.toNat < 2 ^ 48) (hl : level ≤ 3) (hfit : va.toNat + size level ≤ vaEnd.toNat) :
    (va + 1#64 <<< Vmsa.shift level).toNat = va.toNat + size level ∧
      (pa + 1#64 <<< Vmsa.shift level).toNat = pa.toNat + size level ∧
      InRange paStart vaStart vaEnd (va + 1#64 <<< Vmsa.shift level) (pa + 1#64 <<< Vmsa.shift level) := by
  have hge := h.ge
  have hp := h.pa
  have hal := h.aligned
  obtain ⟨k, hk⟩ := four_k_dvd_size hl
  have hva' : (va + 1#64 <<< Vmsa.shift level).toNat = va.toNat + size level := by
    rw [BitVec.toNat_add, toNat_one_shift]
    exact Nat.mod_eq_of_lt (by omega)
  have hpa' : (pa + 1#64 <<< Vmsa.shift level).toNat = pa.toNat + size level := by
    rw [BitVec.toNat_add, toNat_one_shift]
    exact Nat.mod_eq_of_lt (by omega)
  exact ⟨hva', hpa', by omega, by omega, by omega, by omega⟩

/-- A part of `__ptable_set_range`, given the tables, the attributes and where it starts. -/
abbrev RangePart := U64 → U64 → Bool → U64 → RangeState → Except String RangeState

/-- From one place to another, the part makes the calls for the tiles and no others. -/
structure Lays (paStart vaStart vaEnd : U64) (part : RangePart) (va pa : U64) (tiles : List Tile) (va' pa' : U64) :
    Prop where
  ok : ∀ t ∈ tiles, t.Ok paStart vaStart
  consecutive : Consecutive va.toNat va'.toNat tiles
  inRange : InRange paStart vaStart vaEnd va' pa'
  run : ∀ top root unmap prot s, part top root unmap prot ⟨va, pa, s⟩ =
    (tiles.foldlM (Tile.set top root unmap prot) s).map fun vmm => ⟨va', pa', vmm⟩

/-- A part, and what comes after it. -/
theorem Lays.run_bind {part : RangePart} {tiles tiles' : List Tile} {va' pa' : U64}
    (h : Lays paStart vaStart vaEnd part va pa tiles va' pa') {top root prot : U64} {unmap : Bool}
    {after : RangeState → Except String VmmState}
    (hafter : ∀ s, after ⟨va', pa', s⟩ = tiles'.foldlM (Tile.set top root unmap prot) s) (s : VmmState) :
    (part top root unmap prot ⟨va, pa, s⟩ >>= after) = (tiles ++ tiles').foldlM (Tile.set top root unmap prot) s := by
  rw [h.run, List.foldlM_append]
  cases tiles.foldlM (Tile.set top root unmap prot) s with
  | error e => rfl
  | ok vmm => exact hafter vmm

/-- **The calls of one loop.** `P` is what holds where the condition is tested. -/
theorem rangeLoop_tiles {cond : U64 → U64 → Bool} {P : U64 → U64 → Prop} (hend : vaEnd.toNat < 2 ^ 48)
    (hpa : paStart.toNat < 2 ^ 48) (hl : level = 1 ∨ level = 2 ∨ level = 3)
    (hcond : ∀ va pa, InRange paStart vaStart vaEnd va pa → P va pa → cond va pa = true →
      va.toNat + size level ≤ vaEnd.toNat ∧ size level ∣ va.toNat ∧ size level ∣ pa.toNat)
    (hnext : ∀ va pa, InRange paStart vaStart vaEnd va pa → P va pa → cond va pa = true →
      P (va + 1#64 <<< Vmsa.shift level) (pa + 1#64 <<< Vmsa.shift level)) :
    ∀ {limit : Nat} {va pa : U64}, InRange paStart vaStart vaEnd va pa → P va pa →
      (vaEnd.toNat - va.toNat) / 4096 ≤ limit →
      ∃ tiles va' pa', Lays paStart vaStart vaEnd (fun top root unmap prot =>
          rangeLoop top root unmap prot limit cond level (Vmsa.shift level)) va pa tiles va' pa' ∧
        P va' pa' ∧ cond va' pa' = false := by
  have hstop : ∀ {limit : Nat} {va pa : U64}, InRange paStart vaStart vaEnd va pa → cond va pa = false →
      Lays paStart vaStart vaEnd (fun top root unmap prot =>
        rangeLoop top root unmap prot limit cond level (Vmsa.shift level)) va pa [] va pa := by
    intro limit va pa hin hc
    refine ⟨fun t ht => absurd ht List.not_mem_nil, rfl, hin, fun top root unmap prot s => ?_⟩
    cases limit with
    | zero => simp only [rangeLoop, Loop.whileM, hc]; rfl
    | succ n => simp only [rangeLoop, Loop.whileM, hc]; rfl
  intro limit
  induction limit with
  | zero =>
    intro va pa hin hP hlimit
    have hc : cond va pa = false := by
      by_contra hc
      obtain ⟨h1, -, -⟩ := hcond va pa hin hP (Bool.not_eq_false _ ▸ hc)
      obtain ⟨k, hk⟩ := @four_k_dvd_size level (by omega)
      have := Vmsa.size_pos level
      omega
    exact ⟨[], va, pa, hstop hin hc, hP, hc⟩
  | succ limit ih =>
    intro va pa hin hP hlimit
    by_cases hc : cond va pa = true
    · obtain ⟨h1, h2, h3⟩ := hcond va pa hin hP hc
      obtain ⟨hva, hpa', hin'⟩ := hin.next hend hpa (by omega) h1
      obtain ⟨k, hk⟩ := @four_k_dvd_size level (by omega)
      have hpos := Vmsa.size_pos level
      obtain ⟨tiles, va', pa', hlays, hP', hc'⟩ := ih hin' (hnext va pa hin hP hc) (by rw [hva]; omega)
      refine ⟨⟨va, pa, level⟩ :: tiles, va', pa', ?_, hP', hc'⟩
      refine ⟨List.forall_mem_cons.mpr ⟨⟨hl, hin.pa, h2, h3⟩, hlays.ok⟩, ⟨rfl, hva ▸ hlays.consecutive⟩, hlays.inRange,
        fun top root unmap prot s => ?_⟩
      rw [List.foldlM_cons, rangeLoop, Loop.whileM, if_pos hc]
      change _ = ((setBlockOrPage top root va pa unmap prot level s) >>= _).map _
      cases hset : setBlockOrPage top root va pa unmap prot level s with
      | error e => rfl
      | ok vmm => exact hlays.run top root unmap prot vmm
    · have hc' := Bool.not_eq_true _ ▸ hc
      exact ⟨[], va, pa, hstop hin hc', hP, hc'⟩

end Loop

/-! ## The five loops -/

section Range

variable {paStart vaStart vaEnd va pa : U64}

/-- `BOTH_ALIGNED`. -/
theorem bothAligned_iff_dvd {level : Nat} : (isAligned va (Vmsa.shift level) && isAligned pa (Vmsa.shift level)) = true ↔
    size level ∣ va.toNat ∧ size level ∣ pa.toNat := by
  have hs : Vmsa.shift level < 64 := by unfold Vmsa.shift; omega
  rw [Bool.and_eq_true, isAligned_iff _ hs, isAligned_iff _ hs, Nat.dvd_iff_mod_eq_zero, Nat.dvd_iff_mod_eq_zero, size]

/-- `END_OF_REGION`. -/
theorem InRange.endOfRegion_iff (h : InRange paStart vaStart vaEnd va pa) (hend : vaEnd.toNat < 2 ^ 48)
    (level : Nat) : decide (va + 1#64 <<< Vmsa.shift level > vaEnd) = true ↔ vaEnd.toNat < va.toNat + size level := by
  have hle := h.le
  have hsz := size_le level
  rw [decide_eq_true_iff, gt_iff_lt, BitVec.lt_def, BitVec.toNat_add, toNat_one_shift, Nat.mod_eq_of_lt (by omega)]

/-- Where the first loop has stopped: both addresses are aligned to a block of level 2, or the range has ended. -/
def AtBlock (vaEnd va pa : U64) : Prop := va.toNat = vaEnd.toNat ∨ size 2 ∣ va.toNat ∧ size 2 ∣ pa.toNat

/-- Where the second loop has stopped. -/
def AtLargeBlock (vaEnd va pa : U64) : Prop :=
  AtBlock vaEnd va pa ∧ (va.toNat + size 1 ≤ vaEnd.toNat → size 1 ∣ va.toNat ∧ size 1 ∣ pa.toNat)

theorem AtBlock.next (h : AtBlock vaEnd va pa) {level : Nat} (hl : level ≤ 2)
    (hfit : va.toNat + size level ≤ vaEnd.toNat)
    (hva : (va + 1#64 <<< Vmsa.shift level).toNat = va.toNat + size level)
    (hpa : (pa + 1#64 <<< Vmsa.shift level).toNat = pa.toNat + size level) :
    AtBlock vaEnd (va + 1#64 <<< Vmsa.shift level) (pa + 1#64 <<< Vmsa.shift level) := by
  have hpos := Vmsa.size_pos level
  obtain ⟨h1, h2⟩ := h.resolve_left (by omega)
  right
  rw [hva, hpa]
  exact ⟨Nat.dvd_add h1 (Vmsa.size_dvd hl), Nat.dvd_add h2 (Vmsa.size_dvd hl)⟩

variable (hend : vaEnd.toNat < 2 ^ 48) (hpa : paStart.toNat < 2 ^ 48) {limit : Nat}
  (hlimit : (vaEnd.toNat - va.toNat) / 4096 ≤ limit)

include hend hpa hlimit

/-- The pages up to the first block. -/
theorem pagesUp_tiles (halign : paStart.toNat % 4096 = 0) (hstart : vaStart.toNat % 4096 = 0)
    (hlast : vaEnd.toNat % 4096 = 0) (hin : InRange paStart vaStart vaEnd va pa) :
    ∃ tiles va' pa', Lays paStart vaStart vaEnd (fun top root unmap prot => rangeLoop top root unmap prot limit
        (fun va pa => !(isAligned va 21 && isAligned pa 21) && !decide (va + 1#64 <<< 12 > vaEnd)) 3 12)
        va pa tiles va' pa' ∧ AtBlock vaEnd va' pa' := by
  have hcond : ∀ va pa, InRange paStart vaStart vaEnd va pa → True →
      (!(isAligned va 21 && isAligned pa 21) && !decide (va + 1#64 <<< 12 > vaEnd)) = true →
      va.toNat + size 3 ≤ vaEnd.toNat ∧ size 3 ∣ va.toNat ∧ size 3 ∣ pa.toNat := by
    intro va pa hin _ hc
    rw [Bool.and_eq_true, Bool.not_eq_true', Bool.not_eq_true'] at hc
    have h1 := mt (hin.endOfRegion_iff hend 3).mpr (Bool.eq_false_iff.mp hc.2)
    have h2 := hin.pa
    have h3 := hin.ge
    have h4 := hin.aligned
    exact ⟨by omega, Nat.dvd_of_mod_eq_zero h4, Nat.dvd_of_mod_eq_zero (show pa.toNat % 4096 = 0 by omega)⟩
  obtain ⟨tiles, va', pa', hlays, -, hstop⟩ := rangeLoop_tiles hend hpa (by omega) hcond (fun _ _ _ _ _ => trivial) hin
    trivial hlimit
  refine ⟨tiles, va', pa', hlays, ?_⟩
  have hin' := hlays.inRange
  rw [Bool.and_eq_false_iff, Bool.not_eq_false', Bool.not_eq_false'] at hstop
  rcases hstop with h | h
  · exact .inr (bothAligned_iff_dvd.mp h)
  · have h1 := (hin'.endOfRegion_iff hend 3).mp h
    have h2 := hin'.le
    have h3 := hin'.aligned
    have h4 : size 3 = 4096 := rfl
    exact .inl (by omega)

/-- The blocks of level 2 up to the first one of level 1. -/
theorem blocksUp_tiles (hin : InRange paStart vaStart vaEnd va pa) (hat : AtBlock vaEnd va pa) :
    ∃ tiles va' pa', Lays paStart vaStart vaEnd (fun top root unmap prot => rangeLoop top root unmap prot limit
        (fun va pa => !(isAligned va 30 && isAligned pa 30) && !decide (va + 1#64 <<< 21 > vaEnd)) 2 21)
        va pa tiles va' pa' ∧ AtLargeBlock vaEnd va' pa' := by
  have hcond : ∀ va pa, InRange paStart vaStart vaEnd va pa → AtBlock vaEnd va pa →
      (!(isAligned va 30 && isAligned pa 30) && !decide (va + 1#64 <<< 21 > vaEnd)) = true →
      va.toNat + size 2 ≤ vaEnd.toNat ∧ size 2 ∣ va.toNat ∧ size 2 ∣ pa.toNat := by
    intro va pa hin hat hc
    rw [Bool.and_eq_true, Bool.not_eq_true', Bool.not_eq_true'] at hc
    have h1 := mt (hin.endOfRegion_iff hend 2).mpr (Bool.eq_false_iff.mp hc.2)
    have h2 := Vmsa.size_pos 2
    exact ⟨by omega, hat.resolve_left (by omega)⟩
  obtain ⟨tiles, va', pa', hlays, hat', hstop⟩ := rangeLoop_tiles hend hpa (by omega) hcond (fun va pa hin hat hc => by
    have hfit := (hcond va pa hin hat hc).1
    obtain ⟨h1, h2, -⟩ := hin.next hend hpa (by omega) hfit
    exact hat.next (by omega) hfit h1 h2) hin hat hlimit
  refine ⟨tiles, va', pa', hlays, hat', fun hfit => ?_⟩
  have hle : size 2 ≤ size 1 := by decide
  rw [Bool.and_eq_false_iff, Bool.not_eq_false', Bool.not_eq_false'] at hstop
  rcases hstop with h | h
  · exact bothAligned_iff_dvd.mp h
  · have := (hlays.inRange.endOfRegion_iff hend 2).mp h
    omega

/-- The blocks of level 1. -/
theorem largeBlocks_tiles (hin : InRange paStart vaStart vaEnd va pa) (hat : AtLargeBlock vaEnd va pa) :
    ∃ tiles va' pa', Lays paStart vaStart vaEnd (fun top root unmap prot => rangeLoop top root unmap prot limit
        (fun va _ => decide (va < alignTo vaEnd 30) && !decide (va + 1#64 <<< 30 > vaEnd)) 1 30)
        va pa tiles va' pa' ∧ AtBlock vaEnd va' pa' := by
  have hcond : ∀ va pa, InRange paStart vaStart vaEnd va pa → AtLargeBlock vaEnd va pa →
      (decide (va < alignTo vaEnd 30) && !decide (va + 1#64 <<< 30 > vaEnd)) = true →
      va.toNat + size 1 ≤ vaEnd.toNat ∧ size 1 ∣ va.toNat ∧ size 1 ∣ pa.toNat := by
    intro va pa hin hat hc
    rw [Bool.and_eq_true, Bool.not_eq_true'] at hc
    have h1 := mt (hin.endOfRegion_iff hend 1).mpr (Bool.eq_false_iff.mp hc.2)
    exact ⟨by omega, hat.2 (by omega)⟩
  obtain ⟨tiles, va', pa', hlays, hat', -⟩ := rangeLoop_tiles hend hpa (by omega) hcond (fun va pa hin hat hc => by
    obtain ⟨hfit, h3, h4⟩ := hcond va pa hin hat hc
    obtain ⟨h1, h2, -⟩ := hin.next hend hpa (by omega) hfit
    refine ⟨hat.1.next (by omega) hfit h1 h2, fun _ => ?_⟩
    rw [h1, h2]
    exact ⟨Nat.dvd_add h3 (Nat.dvd_refl _), Nat.dvd_add h4 (Nat.dvd_refl _)⟩) hin hat hlimit
  exact ⟨tiles, va', pa', hlays, hat'.1⟩

/-- The blocks of level 2 that are left. -/
theorem blocksDown_tiles (hin : InRange paStart vaStart vaEnd va pa) (hat : AtBlock vaEnd va pa) :
    ∃ tiles va' pa', Lays paStart vaStart vaEnd (fun top root unmap prot => rangeLoop top root unmap prot limit
        (fun va _ => decide (va < alignTo vaEnd 21) && !decide (va + 1#64 <<< 21 > vaEnd)) 2 21)
        va pa tiles va' pa' := by
  have hcond : ∀ va pa, InRange paStart vaStart vaEnd va pa → AtBlock vaEnd va pa →
      (decide (va < alignTo vaEnd 21) && !decide (va + 1#64 <<< 21 > vaEnd)) = true →
      va.toNat + size 2 ≤ vaEnd.toNat ∧ size 2 ∣ va.toNat ∧ size 2 ∣ pa.toNat := by
    intro va pa hin hat hc
    rw [Bool.and_eq_true, Bool.not_eq_true'] at hc
    have h1 := mt (hin.endOfRegion_iff hend 2).mpr (Bool.eq_false_iff.mp hc.2)
    have h2 := Vmsa.size_pos 2
    exact ⟨by omega, hat.resolve_left (by omega)⟩
  obtain ⟨tiles, va', pa', hlays, -, -⟩ := rangeLoop_tiles hend hpa (by omega) hcond (fun va pa hin hat hc => by
    have hfit := (hcond va pa hin hat hc).1
    obtain ⟨h1, h2, -⟩ := hin.next hend hpa (by omega) hfit
    exact hat.next (by omega) hfit h1 h2) hin hat hlimit
  exact ⟨tiles, va', pa', hlays⟩

/-- The pages that are left. -/
theorem pagesDown_tiles (halign : paStart.toNat % 4096 = 0) (hstart : vaStart.toNat % 4096 = 0)
    (hlast : vaEnd.toNat % 4096 = 0) (hin : InRange paStart vaStart vaEnd va pa) :
    ∃ tiles pa', Lays paStart vaStart vaEnd (fun top root unmap prot => rangeLoop top root unmap prot limit
        (fun va _ => decide (va < vaEnd)) 3 12) va pa tiles vaEnd pa' := by
  have hcond : ∀ va pa, InRange paStart vaStart vaEnd va pa → True → decide (va < vaEnd) = true →
      va.toNat + size 3 ≤ vaEnd.toNat ∧ size 3 ∣ va.toNat ∧ size 3 ∣ pa.toNat := by
    intro va pa hin _ hc
    have h1 : va.toNat < vaEnd.toNat := of_decide_eq_true hc
    have h2 := hin.pa
    have h3 := hin.ge
    have h4 := hin.aligned
    have h5 : size 3 = 4096 := rfl
    exact ⟨by omega, Nat.dvd_of_mod_eq_zero h4, Nat.dvd_of_mod_eq_zero (show pa.toNat % 4096 = 0 by omega)⟩
  obtain ⟨tiles, va', pa', hlays, -, hstop⟩ := rangeLoop_tiles hend hpa (by omega) hcond (fun _ _ _ _ _ => trivial) hin
    trivial hlimit
  have h1 : ¬va'.toNat < vaEnd.toNat := of_decide_eq_false hstop
  have h2 := hlays.inRange.le
  obtain rfl : va' = vaEnd := BitVec.eq_of_toNat_eq (by omega)
  exact ⟨tiles, pa', hlays⟩

omit hlimit

/-- **The calls of `__ptable_set_range`**: they depend on the range only and tile it. -/
theorem ptableSetRange_tiles (hstart : vaStart.toNat % 4096 = 0) (hlast : vaEnd.toNat % 4096 = 0)
    (hle : vaStart ≤ vaEnd) (halign : paStart.toNat % 4096 = 0) :
    ∃ tiles : List Tile, Consecutive vaStart.toNat vaEnd.toNat tiles ∧ (∀ t ∈ tiles, t.Ok paStart vaStart) ∧
      ∀ top root unmap prot s, ptableSetRange top root paStart vaStart vaEnd unmap prot s =
        tiles.foldlM (Tile.set top root unmap prot) s := by
  have hle' : vaStart.toNat ≤ vaEnd.toNat := hle
  have hlimit : ∀ {va pa : U64}, InRange paStart vaStart vaEnd va pa →
      (vaEnd.toNat - va.toNat) / 4096 ≤ (vaEnd.toNat - vaStart.toNat) / 4096 := by
    intro va pa h
    have := h.ge
    omega
  have hin₀ : InRange paStart vaStart vaEnd vaStart paStart := ⟨Nat.le_refl _, hle', hstart, by omega⟩
  obtain ⟨tiles₁, va₁, pa₁, h₁, at₁⟩ := pagesUp_tiles hend hpa (hlimit hin₀) halign hstart hlast hin₀
  obtain ⟨tiles₂, va₂, pa₂, h₂, at₂⟩ := blocksUp_tiles hend hpa (hlimit h₁.inRange) h₁.inRange at₁
  obtain ⟨tiles₃, va₃, pa₃, h₃, at₃⟩ := largeBlocks_tiles hend hpa (hlimit h₂.inRange) h₂.inRange at₂
  obtain ⟨tiles₄, va₄, pa₄, h₄⟩ := blocksDown_tiles hend hpa (hlimit h₃.inRange) h₃.inRange at₃
  obtain ⟨tiles₅, pa₅, h₅⟩ := pagesDown_tiles hend hpa (hlimit h₄.inRange) halign hstart hlast h₄.inRange
  -- the check after the first loop does not fail: where it has stopped before the end, both addresses are aligned
  have hcheck : (isAligned va₁ 21 && !isAligned pa₁ 21 && !decide (va₁ + 1#64 <<< 12 > vaEnd)) = false := by
    rcases at₁ with h | h
    · have h1 := (h₁.inRange.endOfRegion_iff hend 3).mpr (by have := Vmsa.size_pos 3; omega)
      rw [show Vmsa.shift 3 = 12 from rfl] at h1
      rw [h1, Bool.not_true, Bool.and_false]
    · have h1 : (isAligned va₁ 21 && isAligned pa₁ 21) = true :=
        (@bothAligned_iff_dvd va₁ pa₁ 2).mpr h
      rw [Bool.and_eq_true] at h1
      rw [h1.2, Bool.not_true, Bool.and_false, Bool.false_and]
  have hcons := h₁.consecutive.append (h₂.consecutive.append (h₃.consecutive.append (h₄.consecutive.append
    h₅.consecutive)))
  refine ⟨_, hcons, ?_, fun top root unmap prot s => ?_⟩
  · simp only [List.forall_mem_append]
    exact ⟨h₁.ok, h₂.ok, h₃.ok, h₄.ok, h₅.ok⟩
  · rw [ptableSetRange, (isAligned_iff vaStart (by decide)).mpr hstart, (isAligned_iff vaEnd (by decide)).mpr hlast]
    refine h₁.run_bind (fun s => ?_) s
    rw [hcheck]
    refine h₂.run_bind (fun s => h₃.run_bind (fun s => h₄.run_bind (fun s => ?_) s) s) s
    rw [← List.append_nil tiles₅]
    exact h₅.run_bind (fun s => rfl) s

end Range

/-- A range with a head and a tail of pages around a block. -/
theorem ptableSetRange_tiles_block : ∃ tiles : List Tile, Consecutive 0x1ff000 0x401000 tiles ∧
    (∀ t ∈ tiles, t.Ok 0x7ff000 0x1ff000) ∧ ∀ top root unmap prot s,
      ptableSetRange top root 0x7ff000 0x1ff000 0x401000 unmap prot s =
        tiles.foldlM (Tile.set top root unmap prot) s :=
  @ptableSetRange_tiles 0x7ff000 0x1ff000 0x401000 (by decide) (by decide) (by decide) (by decide) (by decide)
    (by decide)

end LitmusHarness
