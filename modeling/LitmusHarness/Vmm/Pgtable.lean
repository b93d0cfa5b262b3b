import LitmusHarness.Lib.Loop
import LitmusHarness.Vmm.EnsureLevel

/-!
# `vmm_pgtable.c`: blocks, pages and ranges

`setBlockOrPage` is one tile of a mapping and `ptableSetRange` the five loops that lay them. One tile is given by what
it does to the walk of every address (`TileSet`): the walks that share the entry it is written to end there, a walk
that shares only a block above it is split (`Ensured`), and every other walk is kept.
-/

namespace LitmusHarness

open Vmsa (Mem agree)

/-! ## The functions of the source -/

/-- The attributes that `vmm_make_desc` takes from `prot`. -/
def makeAttrs (prot : U64) : Attrs := { readAttrs prot with nG := 1, af := 1, sh := 3, ns := 0 }

/-- `vmm_make_desc`. -/
def vmmMakeDesc (pa prot : U64) (level : Nat) : U64 :=
  writeDesc { type := .block, addr := pa, level := level, attrs := makeAttrs prot }

/-- `set_block_or_page`. -/
def setBlockOrPage (top root va pa : U64) (unmap : Bool) (prot : U64) (desiredLevel : Nat) (s : VmmState) :
    Except String VmmState :=
  match vmmEnsureLevel top root desiredLevel va s with
  | .error e => .error e
  | .ok s =>
    let desc := vmmTranslationWalk s.mem root va
    let ptr := desc.src.getD 0
    .ok { s with mem := vmmUpdatePte s.mem ptr (if unmap then 0 else vmmMakeDesc pa prot desc.level) }

/-- The variables of a loop over a range. -/
structure RangeState where
  va : U64
  pa : U64
  vmm : VmmState

/-- A `for` loop of `__ptable_set_range`: while `cond` holds, set an entry of `level` and step over it. No loop has
more iterations than `limit`, the number of pages in the range. -/
def rangeLoop (top root : U64) (unmap : Bool) (prot : U64) (limit : Nat) (cond : U64 → U64 → Bool) (level bits : Nat)
    (st : RangeState) : Except String RangeState :=
  Loop.whileM (fun st => cond st.va st.pa)
    (fun st => (setBlockOrPage top root st.va st.pa unmap prot level st.vmm).map
      fun vmm => { va := st.va + 1#64 <<< bits, pa := st.pa + 1#64 <<< bits, vmm := vmm })
    "iteration limit" limit st

/-- `__ptable_set_range`. -/
def ptableSetRange (top root paStart vaStart vaEnd : U64) (unmap : Bool) (prot : U64) (s : VmmState) :
    Except String VmmState := do
  let bothAligned := fun (va pa : U64) (level : Nat) => isAligned va level && isAligned pa level
  let endOfRegion := fun (va : U64) (level : Nat) => decide (va + 1#64 <<< level > vaEnd)
  let loop := rangeLoop top root unmap prot ((vaEnd.toNat - vaStart.toNat) / 4096)
  if !isAligned vaStart 12 then
    throw "! error: __ptable_set_range: got unaligned va_start\n"
  if !isAligned vaEnd 12 then
    throw "! error: __ptable_set_range: got unaligned va_end\n"
  let st ← loop (fun va pa => !bothAligned va pa 21 && !endOfRegion va 12) 3 12 ⟨vaStart, paStart, s⟩
  if isAligned st.va 21 && !isAligned st.pa 21 && !endOfRegion st.va 12 then
    throw "translation entry misalignment, va=%p, pa=%p. See above comment.\n"
  let st ← loop (fun va pa => !bothAligned va pa 30 && !endOfRegion va 21) 2 21 st
  let st ← loop (fun va _ => decide (va < alignTo vaEnd 30) && !endOfRegion va 30) 1 30 st
  let st ← loop (fun va _ => decide (va < alignTo vaEnd 21) && !endOfRegion va 21) 2 21 st
  let st ← loop (fun va _ => decide (va < vaEnd)) 3 12 st
  return st.vmm

/-- `VMRegion`, without the `valid` flag that `vmm_ptable_map` does not read. -/
structure VMRegion where
  vaStart : U64
  vaEnd : U64
  memattr : U64
  prot : U64
  paStart : U64 := 0

/-- `pa_start` of `vmm_ptable_map`. -/
def VMRegion.pa (reg : VMRegion) : U64 := if reg.paStart ≠ 0 then reg.paStart else reg.vaStart

/-- `vmm_ptable_map`. -/
def vmmPtableMap (top root : U64) (reg : VMRegion) (s : VmmState) : Except String VmmState :=
  ptableSetRange top root reg.pa reg.vaStart reg.vaEnd false (reg.memattr ||| reg.prot) s

/-! ## One tile -/

/-- What setting an entry of level `d` at `a` does to the walk of every address. -/
structure TileSet (top root a p prot : U64) (d : Nat) (s s' : VmmState) : Prop where
  ok : TablesOk top root s'
  keep : ∀ x, ¬agree a x ((Vmsa.walk s.mem root x).level + 1) → Vmsa.walk s'.mem root x = Vmsa.walk s.mem root x
  leaf : ∀ x, agree a x ((Vmsa.walk s.mem root x).level + 1) →
    agree a x (max (Vmsa.walk s.mem root x).level d + 1) →
    (Vmsa.walk s'.mem root x).level = max (Vmsa.walk s.mem root x).level d ∧
    (Vmsa.walk s'.mem root x).entry = vmmMakeDesc p prot (max (Vmsa.walk s.mem root x).level d)
  split : ∀ x, agree a x ((Vmsa.walk s.mem root x).level + 1) →
    ¬agree a x (max (Vmsa.walk s.mem root x).level d + 1) →
    (Vmsa.walk s.mem root x).level < (Vmsa.walk s'.mem root x).level ∧ (Vmsa.walk s'.mem root x).level ≤ d ∧
    agree a x (Vmsa.walk s'.mem root x).level ∧ ¬agree a x ((Vmsa.walk s'.mem root x).level + 1) ∧
    (Vmsa.walk s'.mem root x).entry = splitEntry (Vmsa.walk s.mem root x).entry (Vmsa.walk s.mem root x).level

/-- A block or page entry is no table. -/
theorem decode_vmmMakeDesc_ne_table {p prot : U64} {l : Nat} (hp : p.toNat % 4096 = 0) (next : U64) :
    Vmsa.decode l (vmmMakeDesc p prot l) ≠ .table next := by
  intro h
  obtain ⟨hl, -, -, h1⟩ := Vmsa.decode_table h
  rw [vmmMakeDesc, getLsbD_writeDesc_block rfl, getLsbD_writeAttrs_of_not_attrBit _ (by decide),
    Mask.getLsbD_of_dvd (show p.toNat % 2 ^ 12 = 0 from hp) (by decide)] at h1
  simp [show l ≠ 3 by omega] at h1

section Tile

variable {top root a p prot : U64} {d : Nat} {s s' : VmmState}

/-- Rewriting the last entry of a walk keeps the tables well formed. -/
theorem TablesOk.setLeaf {va t e : U64} {l : Nat} {mem' : Mem} (hw : TablesOk top root s)
    (ht : Vmsa.tableAt s.mem root va l = some t) (hl : 0 < l)
    (hold : ∀ next, Vmsa.decode l (s.mem (Vmsa.slot t va l)) ≠ .table next)
    (hnew : ∀ next, Vmsa.decode l e ≠ .table next) (hp : mem' (Vmsa.slot t va l) = e)
    (hm : ∀ a, a ≠ Vmsa.slot t va l → mem' a = s.mem a) : TablesOk top root { s with mem := mem' } where
  tree := Vmsa.tree_setLeaf ht hold hw.tree hnew hp hm
  rootOk := by
    intro va'
    show ¬Reserved (mem' (Vmsa.slot root va' 0))
    rw [hm]
    · exact hw.rootOk va'
    · intro hc
      have := (hw.tree.slot_unique ht (show Vmsa.tableAt s.mem root va' 0 = some root from rfl) hc.symm).1
      omega
  bot_aligned := hw.bot_aligned
  top_aligned := hw.top_aligned
  top_le := hw.top_le
  fresh := by
    intro va' l' t' h
    rw [Vmsa.tableAt_setLeaf ht hold hw.tree hnew hp hm] at h
    exact hw.fresh va' l' t' h

/-- The walk of the address that was ensured ends at level `d`, or below where it did already. -/
theorem Ensured.level_eq {va : U64} (h : Ensured top root va d s s') :
    (Vmsa.walk s'.mem root va).level = max (Vmsa.walk s.mem root va).level d := by
  by_cases hd : (Vmsa.walk s.mem root va).level < d
  · have h1 := h.level_ge
    have h2 := (h.split va hd (Vmsa.agree_refl va _)).2.1
    omega
  · rw [h.keep va (fun h => hd h.1)]
    omega

/-- After `vmm_ensure_level` the last entry of the walk of `a` is written: the walks that share it end there. -/
theorem setBlockOrPage_walk {unmap : Bool} {e : U64} (hw : TablesOk top root s) (ha : a.toNat < 2 ^ 48) (hd : d ≤ 3)
    (he : (if unmap then 0 else vmmMakeDesc p prot (max (Vmsa.walk s.mem root a).level d)) = e)
    (hnew : ∀ next, Vmsa.decode (max (Vmsa.walk s.mem root a).level d) e ≠ .table next)
    (h : setBlockOrPage top root a p unmap prot d s = .ok s') : ∃ s₁, Ensured top root a d s s₁ ∧
      (0 < d → TablesOk top root s') ∧ ∀ x, Vmsa.walk s'.mem root x =
        if agree a x (max (Vmsa.walk s.mem root a).level d + 1)
        then ⟨max (Vmsa.walk s.mem root a).level d, (Vmsa.walk s₁.mem root a).slot, e⟩ else Vmsa.walk s₁.mem root x := by
  unfold setBlockOrPage at h
  cases hlvl : vmmEnsureLevel top root d a s with
  | error msg => simp [hlvl] at h
  | ok s₁ =>
    have hens := vmmEnsureLevel_ensured hw ha hd hlvl
    have hlev := hens.level_eq
    obtain ⟨t, ht, hs, hent, hold⟩ := Vmsa.walk_ends s₁.mem root a
    simp only [hlvl, vmmTranslationWalk_eq ha hens.ok.rootOk, Option.getD_some, readDesc_level, vmmUpdatePte_eq,
      Except.ok.injEq, hlev, he] at h
    rw [hlev] at ht hs hold
    rw [hs] at h
    rw [hent, hs] at hold
    subst h
    have hself := store_self s₁.mem (Vmsa.slot t a (max (Vmsa.walk s.mem root a).level d)) e
    refine ⟨s₁, hens, fun h0 => hens.ok.setLeaf ht (by omega) hold hnew hself fun x hx => store_of_ne hx, ?_⟩
    rw [hs]
    exact Vmsa.walk_setLeaf ht hold hens.ok.tree hnew hself fun x hx => store_of_ne hx

/-- **What `set_block_or_page` does.** -/
theorem setBlockOrPage_tileSet (hw : TablesOk top root s) (ha : a.toNat < 2 ^ 48) (hp : p.toNat % 4096 = 0)
    (h0 : 0 < d) (hd : d ≤ 3) (h : setBlockOrPage top root a p false prot d s = .ok s') :
    TileSet top root a p prot d s s' := by
  obtain ⟨s₁, hens, hok, hwalk⟩ :=
    setBlockOrPage_walk hw ha hd (if_neg Bool.false_ne_true) (decode_vmmMakeDesc_ne_table hp) h
  have hlev := hens.level_eq
  -- a walk that shares the last entry with the walk of `a` is that walk
  have hsame : ∀ x, agree a x ((Vmsa.walk s.mem root x).level + 1) →
      Vmsa.walk s.mem root x = Vmsa.walk s.mem root a := fun x hx => (Vmsa.walk_agree hx.symm).symm
  refine ⟨hok h0, ?_, ?_, ?_⟩
  · intro x hx
    have h1 := hens.keep x (fun h => hx h.2)
    rw [hwalk, if_neg, h1]
    intro hag
    rw [← hlev] at hag
    have h2 := Vmsa.walk_agree hag
    rw [← h2, h1] at hag
    exact hx hag
  · intro x hx hag
    rw [hsame x hx] at hag ⊢
    rw [hwalk, if_pos hag]
    exact ⟨rfl, rfl⟩
  · intro x hx hag
    have hlt : (Vmsa.walk s.mem root x).level < d := by
      by_contra hc
      rw [max_eq_left (not_lt.mp hc)] at hag
      exact hag hx
    obtain ⟨h1, h2, h3, h4, h5⟩ := hens.split x hlt hx
    rw [hsame x hx] at hag hlt
    rw [hwalk, if_neg hag]
    refine ⟨h1, h2, h3, fun hc => ?_, h5⟩
    rcases Nat.lt_or_eq_of_le h2 with hlt' | heq
    · exact h4 hlt' hc
    · rw [heq] at hc
      exact hag (by rw [max_eq_right (by omega)]; exact hc)

end Tile

end LitmusHarness
