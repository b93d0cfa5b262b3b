import Mathlib.Data.List.Nodup
import LitmusHarness.Lib.VmsaRegion
import LitmusHarness.Regions
import LitmusHarness.Vmm.EnsureLevel

/-!
# The table walker: `vmm_walk_table`

`_vmm_walk_table` calls back for the entries of a table, from one after the other, with the ranges of their addresses.
On a tree of tables it calls back once for each entry of each reachable table (`walkCalls_once`), whatever the sizes
of its levels are. With the sizes of the architecture the ranges are the addresses whose walks go through the entry
(`walkReports_of_sizes`). But `LEVEL_SIZES` is indexed by `region_names_t`, in which level 0 is `REGION_VAR`, of size 1.
-/

namespace LitmusHarness

open Vmsa (Mem agree)

/-! ## The functions of the source -/

/-- `va_range`. -/
structure VaRange where
  start : U64
  stop : U64

/-- The arguments of a call of `walker_cb_t`, without `data`. -/
structure WalkCall where
  parentTable : U64
  level : Nat
  index : Nat
  entry : U64
  desc : Desc
  isLeaf : Bool
  range : VaRange

/-- The call for the entry `i` of a table whose addresses start at `vaStart`. -/
def walkCall (mem : Mem) (sizes : Nat → U64) (level : Nat) (pgtable vaStart : U64) (i : Nat) : WalkCall :=
  let vaStartI := vaStart + BitVec.ofNat 64 i * sizes level
  let ptr := pgtable + BitVec.ofNat 64 (8 * i)
  let d := readDesc (mem ptr) level
  ⟨pgtable, level, i, ptr, d, d.type ≠ .table, ⟨vaStartI, vaStartI + sizes level⟩⟩

section Source

variable {σ : Type} (mem : Mem) (sizes : Nat → U64) (cbF : σ → WalkCall → σ)

/-- The loop of `_vmm_walk_table`, with what it does for a next table. -/
def walkEntries (next : U64 → U64 → σ → σ) (level : Nat) (pgtable vaStart : U64) (data : σ) : σ :=
  (List.range 512).foldl (fun data i =>
    let c := walkCall mem sizes level pgtable vaStart i
    cbF (if c.desc.type = .table then next c.desc.addr c.range.start data else data) c) data

/-- `_vmm_walk_table`, with `k` levels below. A descriptor of level 3 is no `Table`. -/
def walkTable : Nat → Nat → U64 → U64 → σ → σ
  | 0, level => walkEntries mem sizes cbF (fun _ _ data => data) level
  | k + 1, level => walkEntries mem sizes cbF (walkTable k (level + 1)) level

/-- `LEVEL_SIZES[level]`. -/
def levelSizes (p : Platform) (level : Nat) : U64 :=
  [Region.var, .cacheLine, .page, .pmd, .pud, .pgd][level]?.elim 0 (levelSize p)

/-- `vmm_walk_table`. -/
def vmmWalkTable (p : Platform) (root : U64) (data : σ) : σ := walkTable mem (levelSizes p) cbF 3 0 root 0 data

end Source

/-! ## The calls of the callback -/

section Calls

variable {mem : Mem} {sizes : Nat → U64} {root : U64}

/-- The calls for an entry: the ones for the table below, then its own. -/
def entryCalls (below : U64 → U64 → List WalkCall) (c : WalkCall) : List WalkCall :=
  (if c.desc.type = .table then below c.desc.addr c.range.start else []) ++ [c]

/-- The calls for a table. -/
def tableCalls (mem : Mem) (sizes : Nat → U64) (below : U64 → U64 → List WalkCall) (level : Nat)
    (pgtable vaStart : U64) : List WalkCall :=
  (List.range 512).flatMap fun i => entryCalls below (walkCall mem sizes level pgtable vaStart i)

/-- The calls of the walker. -/
def walkCalls (mem : Mem) (sizes : Nat → U64) : Nat → Nat → U64 → U64 → List WalkCall
  | 0, level => tableCalls mem sizes (fun _ _ => []) level
  | k + 1, level => tableCalls mem sizes (walkCalls mem sizes k (level + 1)) level

theorem walkEntries_eq {σ : Type} (cbF : σ → WalkCall → σ) {next : U64 → U64 → σ → σ}
    {below : U64 → U64 → List WalkCall} (h : ∀ t vaStart data, next t vaStart data = (below t vaStart).foldl cbF data)
    {level : Nat} {pgtable vaStart : U64} {data : σ} :
    walkEntries mem sizes cbF next level pgtable vaStart data =
      (tableCalls mem sizes below level pgtable vaStart).foldl cbF data := by
  rw [walkEntries, tableCalls, List.foldl_flatMap]
  refine congrArg (fun f => List.foldl f data _) (funext fun data => funext fun i => ?_)
  rw [entryCalls, List.foldl_append]
  split
  · next htype => simp only [htype, if_true, h, List.foldl_cons, List.foldl_nil]
  · next htype => simp only [htype, if_false, List.foldl_nil, List.foldl_cons]

/-- **The walker is a fold** over its calls. -/
theorem walkTable_eq {σ : Type} (cbF : σ → WalkCall → σ) {k level : Nat} {pgtable vaStart : U64} {data : σ} :
    walkTable mem sizes cbF k level pgtable vaStart data =
      (walkCalls mem sizes k level pgtable vaStart).foldl cbF data := by
  induction k generalizing level pgtable vaStart data with
  | zero =>
    rw [walkTable, walkCalls]
    apply walkEntries_eq
    intro t vaStart data
    rfl
  | succ k ih =>
    rw [walkTable, walkCalls]
    apply walkEntries_eq
    intro t vaStart data
    exact ih

/-- The start of the addresses of the table of `va` at a level. -/
def startOf (sizes : Nat → U64) (va : U64) : Nat → U64
  | 0 => 0
  | l + 1 => startOf sizes va l + BitVec.ofNat 64 (Vmsa.index va l) * sizes l

theorem startOf_agree {va va' : U64} {l : Nat} (h : agree va va' l) : startOf sizes va l = startOf sizes va' l := by
  induction l with
  | zero => rfl
  | succ l ih =>
    obtain ⟨h1, h2⟩ := Vmsa.agree_succ.mp h
    rw [startOf, startOf, ih h1, h2]

/-- The call for the entry of `va` in the table `t` of a level. -/
def callOf (mem : Mem) (sizes : Nat → U64) (va : U64) (l : Nat) (t : U64) : WalkCall :=
  walkCall mem sizes l t (startOf sizes va l) (Vmsa.index va l)

theorem callOf_agree {va va' t : U64} {l : Nat} (h : agree va va' (l + 1)) :
    callOf mem sizes va l t = callOf mem sizes va' l t := by
  obtain ⟨h1, h2⟩ := Vmsa.agree_succ.mp h
  rw [callOf, callOf, startOf_agree h1, h2]

/-- A descriptor is a `Table` for the walker exactly if the walk goes on with that table. -/
theorem readDesc_table_iff (h0 : RootOk mem root) {va t next : U64} {l : Nat} (hl : l ≤ 3)
    (ht : Vmsa.tableAt mem root va l = some t) :
    (readDesc (mem (Vmsa.slot t va l)) l).type = .table ∧ (readDesc (mem (Vmsa.slot t va l)) l).addr = next ↔
      Vmsa.tableAt mem root va (l + 1) = some next := by
  rw [Vmsa.tableAt_succ]
  constructor
  · rintro ⟨htype, rfl⟩
    refine ⟨t, ht, decode_of_readDesc_table hl (fun h => ?_) htype⟩
    subst h
    cases ht
    exact h0 va
  · rintro ⟨t', ht', hd⟩
    obtain rfl : t = t' := Option.some.inj (ht.symm.trans ht')
    exact readDesc_of_table hd

/-- The call for an entry of a table that is reached. -/
theorem walkCall_eq {level : Nat} {va₀ va t : U64} (hag : agree va₀ va level) :
    walkCall mem sizes level t (startOf sizes va₀ level) (Vmsa.index va level) = callOf mem sizes va level t := by
  rw [callOf, startOf_agree hag]

/-- A call for an entry that a walk reads, at a level from `level` on, and that agrees with `va` before `n`. -/
def CallFrom (mem : Mem) (sizes : Nat → U64) (root va : U64) (n level : Nat) (c : WalkCall) : Prop :=
  ∃ va' l t, level ≤ l ∧ l ≤ 3 ∧ agree va va' n ∧ Vmsa.tableAt mem root va' l = some t ∧ c = callOf mem sizes va' l t

theorem mem_entryCalls (h0 : RootOk mem root) {below : U64 → U64 → List WalkCall} {level : Nat} {va t : U64}
    {c : WalkCall} (hl : level ≤ 3) (ht : Vmsa.tableAt mem root va level = some t)
    (hbelow : ∀ next, Vmsa.tableAt mem root va (level + 1) = some next →
      (c ∈ below next (startOf sizes va (level + 1)) ↔ CallFrom mem sizes root va (level + 1) (level + 1) c)) :
    c ∈ entryCalls below (callOf mem sizes va level t) ↔ CallFrom mem sizes root va (level + 1) level c := by
  rw [entryCalls, List.mem_append, List.mem_singleton]
  constructor
  · rintro (hc | rfl)
    · split at hc
      · next htype =>
        -- the walk goes on with the table of this entry
        have hnext := (readDesc_table_iff h0 hl ht).mp ⟨htype, rfl⟩
        obtain ⟨va', l, t', h1, h2, hag, ht', rfl⟩ := (hbelow _ hnext).mp hc
        exact ⟨va', l, t', by omega, h2, hag, ht', rfl⟩
      · exact absurd hc List.not_mem_nil
    · exact ⟨va, level, t, le_rfl, hl, Vmsa.agree_refl va _, ht, rfl⟩
  · rintro ⟨va', l, t', h1, h2, hag, ht', rfl⟩
    rcases Nat.lt_or_eq_of_le h1 with hlt | rfl
    · obtain ⟨next, hnext⟩ := Vmsa.tableAt_of_le ht' hlt
      rw [← Vmsa.tableAt_agree hag] at hnext
      obtain ⟨htype, rfl⟩ := (readDesc_table_iff h0 hl ht).mpr hnext
      left
      rw [if_pos (show (callOf mem sizes va level t).desc.type = .table from htype)]
      exact (hbelow _ hnext).mpr ⟨va', l, t', hlt, h2, hag, ht', rfl⟩
    · right
      rw [← Vmsa.tableAt_agree (hag.mono (Nat.le_succ level)), ht] at ht'
      rw [← Option.some.inj ht', callOf_agree hag]

theorem mem_tableCalls {below : U64 → U64 → List WalkCall} {level : Nat} {va₀ t : U64} {c : WalkCall} (hl : level ≤ 3)
    (ht : Vmsa.tableAt mem root va₀ level = some t)
    (hentry : ∀ va, Vmsa.tableAt mem root va level = some t →
      (c ∈ entryCalls below (callOf mem sizes va level t) ↔ CallFrom mem sizes root va (level + 1) level c)) :
    c ∈ tableCalls mem sizes below level t (startOf sizes va₀ level) ↔ CallFrom mem sizes root va₀ level level c := by
  rw [tableCalls, List.mem_flatMap]
  constructor
  · rintro ⟨i, hi, hc⟩
    obtain ⟨va, hag, rfl, -⟩ := Vmsa.exists_index va₀ hl (List.mem_range.mp hi)
    rw [walkCall_eq hag, hentry va ((Vmsa.tableAt_agree hag).symm.trans ht)] at hc
    obtain ⟨va', l, t', h1, h2, hag', ht', rfl⟩ := hc
    exact ⟨va', l, t', h1, h2, hag.trans (hag'.mono (Nat.le_succ level)), ht', rfl⟩
  · rintro ⟨va, l, t', h1, h2, hag, ht', rfl⟩
    refine ⟨_, List.mem_range.mpr (Vmsa.index_lt va level), ?_⟩
    rw [walkCall_eq hag, hentry va ((Vmsa.tableAt_agree hag).symm.trans ht)]
    exact ⟨va, l, t', h1, h2, Vmsa.agree_refl va _, ht', rfl⟩

/-- The calls for a table that is reached: one for each entry that a walk through the table reads from there on. -/
theorem mem_walkCalls (h0 : RootOk mem root) {k level : Nat} {va₀ t : U64} {c : WalkCall} (hl : level + k = 3)
    (ht : Vmsa.tableAt mem root va₀ level = some t) :
    c ∈ walkCalls mem sizes k level t (startOf sizes va₀ level) ↔ CallFrom mem sizes root va₀ level level c := by
  induction k generalizing level va₀ t with
  | zero =>
    exact mem_tableCalls (by omega) ht fun va hva => mem_entryCalls h0 (by omega) hva fun next hnext =>
      absurd (Vmsa.tableAt_le hnext) (by omega)
  | succ k ih =>
    exact mem_tableCalls (by omega) ht fun va hva => mem_entryCalls h0 (by omega) hva fun next hnext =>
      ih (by omega) hnext

/-- What a call is for: a table with its level, and the index of an entry of it. -/
def WalkCall.key (c : WalkCall) : U64 × Nat × Nat := (c.parentTable, c.level, c.index)

/-- Calls for one entry are for addresses that agree up to it. -/
theorem callOf_inj (hT : Vmsa.Tree mem root) {va va' t t' : U64} {l l' : Nat}
    (ht : Vmsa.tableAt mem root va l = some t) (ht' : Vmsa.tableAt mem root va' l' = some t')
    (h : (callOf mem sizes va l t).key = (callOf mem sizes va' l' t').key) : l = l' ∧ agree va va' (l + 1) := by
  obtain ⟨h1, h2⟩ := Prod.ext_iff.mp h
  obtain ⟨rfl, hi⟩ := Prod.ext_iff.mp h2
  obtain rfl : t = t' := h1
  exact ⟨rfl, Vmsa.agree_succ.mpr ⟨(hT.unique ht ht').2, hi⟩⟩

theorem nodup_tableCalls (hT : Vmsa.Tree mem root) (h0 : RootOk mem root) {below : U64 → U64 → List WalkCall}
    {level : Nat} {va₀ t : U64} (hl : level ≤ 3) (ht : Vmsa.tableAt mem root va₀ level = some t)
    (hentry : ∀ va c, Vmsa.tableAt mem root va level = some t →
      (c ∈ entryCalls below (callOf mem sizes va level t) ↔ CallFrom mem sizes root va (level + 1) level c))
    (hbelow : ∀ va next, Vmsa.tableAt mem root va (level + 1) = some next →
      ((below next (startOf sizes va (level + 1))).map WalkCall.key).Nodup ∧
        ∀ c ∈ below next (startOf sizes va (level + 1)), level + 1 ≤ c.level) :
    ((tableCalls mem sizes below level t (startOf sizes va₀ level)).map WalkCall.key).Nodup := by
  rw [tableCalls, List.map_flatMap, List.nodup_flatMap]
  constructor
  · intro i hi
    obtain ⟨va, hag, rfl, -⟩ := Vmsa.exists_index va₀ hl (List.mem_range.mp hi)
    have hva := (Vmsa.tableAt_agree hag).symm.trans ht
    rw [walkCall_eq hag, entryCalls, List.map_append, List.nodup_append]
    split
    · next htype =>
      obtain ⟨hnd, hlevel⟩ := hbelow va _ ((readDesc_table_iff h0 hl hva).mp ⟨htype, rfl⟩)
      refine ⟨hnd, List.nodup_singleton _, ?_⟩
      -- the own call is one level above
      rintro key hmem key' hmem' rfl
      obtain ⟨c, hc, rfl⟩ := List.mem_map.mp hmem
      have hkey := List.mem_singleton.mp hmem'
      have hlev : c.level = level := (Prod.ext_iff.mp (Prod.ext_iff.mp hkey).2).1
      have := hlevel c hc
      omega
    · exact ⟨List.nodup_nil, List.nodup_singleton _, fun _ h => absurd h List.not_mem_nil⟩
  · refine List.nodup_range.imp_of_mem fun {i j} hi hj hij => ?_
    obtain ⟨va, hag, rfl, -⟩ := Vmsa.exists_index va₀ hl (List.mem_range.mp hi)
    obtain ⟨va', hag', rfl, -⟩ := Vmsa.exists_index va₀ hl (List.mem_range.mp hj)
    have hva := (Vmsa.tableAt_agree hag).symm.trans ht
    have hva' := (Vmsa.tableAt_agree hag').symm.trans ht
    change List.Disjoint _ _
    dsimp only
    rw [walkCall_eq hag, walkCall_eq hag']
    intro key hmem hmem'
    obtain ⟨c, hc, rfl⟩ := List.mem_map.mp hmem
    obtain ⟨c', hc', hkey⟩ := List.mem_map.mp hmem'
    obtain ⟨x, l, t₁, h1, -, hx, ht₁, rfl⟩ := (hentry va c hva).mp hc
    obtain ⟨x', l', t₂, -, -, hx', ht₂, rfl⟩ := (hentry va' c' hva').mp hc'
    obtain ⟨rfl, hxx⟩ := callOf_inj hT ht₂ ht₁ hkey
    apply hij
    rw [hx level (by omega), hx' level (by omega), hxx level (by omega)]

/-- In a tree no entry is met twice. -/
theorem nodup_walkCalls (hT : Vmsa.Tree mem root) (h0 : RootOk mem root) {k level : Nat} {va₀ t : U64}
    (hl : level + k = 3) (ht : Vmsa.tableAt mem root va₀ level = some t) :
    ((walkCalls mem sizes k level t (startOf sizes va₀ level)).map WalkCall.key).Nodup := by
  induction k generalizing level va₀ t with
  | zero =>
    refine nodup_tableCalls hT h0 (by omega) ht (fun va c hva => mem_entryCalls h0 (by omega) hva fun next hnext =>
      absurd (Vmsa.tableAt_le hnext) (by omega)) fun va next hnext => absurd (Vmsa.tableAt_le hnext) (by omega)
  | succ k ih =>
    refine nodup_tableCalls hT h0 (by omega) ht (fun va c hva => mem_entryCalls h0 (by omega) hva fun next hnext =>
      mem_walkCalls h0 (by omega) hnext) fun va next hnext => ⟨ih (by omega) hnext, fun c hc => ?_⟩
    obtain ⟨va', l, t', h1, -, -, -, rfl⟩ := (mem_walkCalls h0 (by omega) hnext).mp hc
    exact h1

end Calls

/-! ## The ranges -/

/-- The walk of `va` goes through the entry of the call. -/
def WalkCall.GoesThrough (mem : Mem) (root : U64) (c : WalkCall) (va : U64) : Prop :=
  (vmmTranslationWalkToLevel mem root va c.level).src = some c.entry ∧
    (vmmTranslationWalkToLevel mem root va c.level).level = c.level

/-- `start ≤ va < end`. -/
def VaRange.Has (r : VaRange) (va : U64) : Prop := r.start ≤ va ∧ va < r.stop

/-- The walker is right about the tables below `root`: the callback is called once for each entry of each reachable
table, its range has the addresses whose walks go through the entry, and the ranges of the leaves are a partition. -/
structure WalkReports (mem : Mem) (root : U64) (calls : List WalkCall) : Prop where
  once : (calls.map WalkCall.key).Nodup
  reached : ∀ t l i, (t, l, i) ∈ calls.map WalkCall.key ↔ i < 512 ∧ ∃ va, Vmsa.tableAt mem root va l = some t
  exact : ∀ c ∈ calls, ∀ va : U64, va.toNat < 2 ^ 48 → (c.range.Has va ↔ c.GoesThrough mem root va)
  leaf : ∀ c ∈ calls, c.isLeaf = true → c.range.stop.toNat ≤ 2 ^ 48
  leaves : ∀ va : U64, va.toNat < 2 ^ 48 → ∃! c, c ∈ calls ∧ c.isLeaf = true ∧ c.range.Has va

section Ranges

variable {mem : Mem} {sizes : Nat → U64} {root : U64}

/-- The software walk to a level reads the entry of the table of that level, if it gets there. -/
theorem walkLoop_src {va : U64} (hva : va.toNat < 2 ^ 48) (h0 : RootOk mem root) {k l : Nat} {t e : U64} {desc : Desc}
    (hl : l + k ≤ 3) (ht : Vmsa.tableAt mem root va l = some t) :
    (walkLoop mem va (k + 1) l t desc).src = some e ∧ (walkLoop mem va (k + 1) l t desc).level = l + k ↔
      ∃ t', Vmsa.tableAt mem root va (l + k) = some t' ∧ e = Vmsa.slot t' va (l + k) := by
  induction k generalizing l t desc with
  | zero =>
    have hend : walkLoop mem va 1 l t desc =
        { readDesc (mem (Vmsa.slot t va l)) l with src := some (Vmsa.slot t va l) } := by
      rw [walkLoop, entryPtr_eq_slot hva t (by omega)]
      exact ite_self _
    rw [hend]
    simp only [readDesc_level, Nat.add_zero, and_true, Option.some.injEq, ht, exists_eq_left']
    exact eq_comm
  | succ k ih =>
    rw [walkLoop, entryPtr_eq_slot hva t (by omega)]
    by_cases htype : (readDesc (mem (Vmsa.slot t va l)) l).type = .table
    · have hnext := (readDesc_table_iff h0 (by omega) ht).mp ⟨htype, rfl⟩
      simp only [htype, reduceCtorEq, or_self, if_false]
      rw [← Nat.add_assoc, Nat.add_right_comm]
      exact ih (by omega) hnext
    · -- the walk ends here, and no table is below
      have hstop : (readDesc (mem (Vmsa.slot t va l)) l).type = .invalid ∨
          (readDesc (mem (Vmsa.slot t va l)) l).type = .block := by
        cases htype' : (readDesc (mem (Vmsa.slot t va l)) l).type with
        | table => exact absurd htype' htype
        | block => exact .inr rfl
        | invalid => exact .inl rfl
      simp only [hstop, if_true, readDesc_level]
      refine ⟨fun h => by omega, ?_⟩
      rintro ⟨t', ht', -⟩
      obtain ⟨next, hnext⟩ := Vmsa.tableAt_of_le ht' (show l + 1 ≤ l + (k + 1) by omega)
      exact absurd ((readDesc_table_iff h0 (by omega) ht).mpr hnext).1 htype

/-- The walks that go through the entry of a call are the ones of the addresses that agree up to it. -/
theorem goesThrough_iff (hT : Vmsa.Tree mem root) (h0 : RootOk mem root) {va x t : U64} {l : Nat} (hl : l ≤ 3)
    (hx : x.toNat < 2 ^ 48) (ht : Vmsa.tableAt mem root va l = some t) :
    (callOf mem sizes va l t).GoesThrough mem root x ↔ agree va x (l + 1) := by
  have hsrc := @walkLoop_src mem root x hx h0 l 0 root (Vmsa.slot t va l) {} (by omega) rfl
  rw [Nat.zero_add] at hsrc
  refine hsrc.trans ?_
  constructor
  · rintro ⟨t', ht', hs⟩
    exact (hT.slot_unique ht ht' hs).2
  · intro hag
    obtain ⟨h1, h2⟩ := Vmsa.agree_succ.mp hag
    exact ⟨t, by rw [← Vmsa.tableAt_agree h1, ht], by rw [Vmsa.slot, Vmsa.slot, h2]⟩

/-- With the sizes of the architecture, the addresses of an entry start at its region. -/
theorem toNat_startOf (hsizes : ∀ l, l ≤ 3 → (sizes l).toNat = Vmsa.size l) (va : U64) {l : Nat} (hl : l ≤ 3) :
    (startOf sizes va (l + 1)).toNat = Vmsa.base (va.toNat % 2 ^ 48) l := by
  induction l with
  | zero =>
    rw [startOf, startOf, BitVec.toNat_add, BitVec.toNat_mul, hsizes 0 hl, BitVec.toNat_ofNat]
    simp only [Vmsa.index, Vmsa.base, Vmsa.size, Vmsa.shift]
    change (0 + _) % _ = _
    omega
  | succ l ih =>
    rw [startOf, BitVec.toNat_add, BitVec.toNat_mul, hsizes _ hl, BitVec.toNat_ofNat, ih (by omega)]
    have hcases : l = 0 ∨ l = 1 ∨ l = 2 := by omega
    rcases hcases with rfl | rfl | rfl <;> simp only [Vmsa.index, Vmsa.base, Vmsa.size, Vmsa.shift] <;> omega

/-- The addresses that agree with `va` up to a level are the ones of its region. -/
theorem agree_iff_mem_base {va x : U64} (hx : x.toNat < 2 ^ 48) {l : Nat} (hl : l ≤ 3) :
    agree va x (l + 1) ↔ Vmsa.base (va.toNat % 2 ^ 48) l ≤ x.toNat ∧
      x.toNat < Vmsa.base (va.toNat % 2 ^ 48) l + Vmsa.size l := by
  have hmod : (BitVec.ofNat 64 (va.toNat % 2 ^ 48)).toNat = va.toNat % 2 ^ 48 := by
    rw [BitVec.toNat_ofNat, Nat.mod_eq_of_lt ((Nat.mod_lt _ (by decide)).trans (by decide))]
  have hlow : agree va (BitVec.ofNat 64 (va.toNat % 2 ^ 48)) (l + 1) := by
    intro k hk
    rw [Vmsa.index, Vmsa.index, hmod]
    have hcases : k = 0 ∨ k = 1 ∨ k = 2 ∨ k = 3 := by omega
    rcases hcases with rfl | rfl | rfl | rfl <;> simp only [Vmsa.shift] <;> omega
  have hbase := @Vmsa.agree_iff_base (BitVec.ofNat 64 (va.toNat % 2 ^ 48)) x
    (by rw [hmod]; exact Nat.mod_lt _ (by decide)) hx l hl
  rw [hmod] at hbase
  rw [show agree va x (l + 1) ↔ agree (BitVec.ofNat 64 (va.toNat % 2 ^ 48)) x (l + 1) from
    ⟨hlow.symm.trans, hlow.trans⟩, hbase]
  constructor
  · intro h
    rw [h]
    exact ⟨Vmsa.base_le _ l, Vmsa.lt_base_add _ l⟩
  · exact fun h => (Vmsa.base_eq_of_mem h.1 h.2).symm

/-- With the sizes of the architecture, the range of an entry ends behind its region. -/
theorem toNat_stop (hsizes : ∀ l, l ≤ 3 → (sizes l).toNat = Vmsa.size l) (va t : U64) {l : Nat} (hl : l ≤ 3) :
    (callOf mem sizes va l t).range.stop.toNat = Vmsa.base (va.toNat % 2 ^ 48) l + Vmsa.size l ∧
      Vmsa.base (va.toNat % 2 ^ 48) l + Vmsa.size l ≤ 2 ^ 48 := by
  have hle : Vmsa.base (va.toNat % 2 ^ 48) l + Vmsa.size l ≤ 2 ^ 48 :=
    Vmsa.base_add_le (Nat.pow_dvd_pow 2 (by unfold Vmsa.shift; omega)) (Nat.mod_lt _ (by decide))
  refine ⟨?_, hle⟩
  change (startOf sizes va (l + 1) + sizes l).toNat = _
  rw [BitVec.toNat_add, toNat_startOf hsizes va hl, hsizes l hl]
  omega

theorem range_has_iff (hsizes : ∀ l, l ≤ 3 → (sizes l).toNat = Vmsa.size l) {va x t : U64} {l : Nat} (hl : l ≤ 3)
    (hx : x.toNat < 2 ^ 48) : (callOf mem sizes va l t).range.Has x ↔ agree va x (l + 1) := by
  rw [agree_iff_mem_base hx hl, ← (toNat_stop hsizes va t hl).1, ← toNat_startOf hsizes va hl]
  exact Iff.rfl

/-- **Each entry of each reachable table is met once**, whatever the sizes are. -/
theorem walkCalls_once (hT : Vmsa.Tree mem root) (h0 : RootOk mem root) :
    ((walkCalls mem sizes 3 0 root 0).map WalkCall.key).Nodup ∧ ∀ t l i,
      (t, l, i) ∈ (walkCalls mem sizes 3 0 root 0).map WalkCall.key ↔
        i < 512 ∧ ∃ va, Vmsa.tableAt mem root va l = some t := by
  refine ⟨@nodup_walkCalls mem sizes root hT h0 3 0 0 root rfl rfl, fun t l i => ?_⟩
  rw [List.mem_map]
  constructor
  · rintro ⟨c, hc, hkey⟩
    obtain ⟨va, l, t, -, -, -, ht, rfl⟩ := (@mem_walkCalls mem sizes root h0 3 0 0 root c rfl rfl).mp hc
    cases hkey
    exact ⟨Vmsa.index_lt va l, va, ht⟩
  · rintro ⟨hi, va₀, ht₀⟩
    have hl := Vmsa.tableAt_le ht₀
    obtain ⟨va, hag, rfl, -⟩ := Vmsa.exists_index va₀ hl hi
    exact ⟨_, (@mem_walkCalls mem sizes root h0 3 0 0 root _ rfl rfl).mpr
      ⟨va, l, t, Nat.zero_le l, hl, fun k hk => absurd hk (Nat.not_lt_zero k),
        (Vmsa.tableAt_agree hag).symm.trans ht₀, rfl⟩, rfl⟩

/-- **With the sizes of the architecture the walker is right.** -/
theorem walkReports_of_sizes (hT : Vmsa.Tree mem root) (h0 : RootOk mem root)
    (hsizes : ∀ l, l ≤ 3 → (sizes l).toNat = Vmsa.size l) : WalkReports mem root (walkCalls mem sizes 3 0 root 0) := by
  obtain ⟨honce, hreached⟩ := @walkCalls_once mem sizes root hT h0
  have hmem := fun c => @mem_walkCalls mem sizes root h0 3 0 0 root c rfl rfl
  refine ⟨honce, hreached, ?_, ?_, ?_⟩
  · rintro c hc x hx
    obtain ⟨va, l, t, -, hl, -, ht, rfl⟩ := (hmem c).mp hc
    exact (range_has_iff hsizes hl hx).trans (goesThrough_iff hT h0 hl hx ht).symm
  · rintro c hc -
    obtain ⟨va, l, t, -, hl, -, -, rfl⟩ := (hmem c).mp hc
    obtain ⟨h1, h2⟩ := @toNat_stop mem sizes hsizes va t l hl
    rw [h1]
    exact h2
  · intro x hx
    obtain ⟨t, ht, hslot, hentry, hend⟩ := Vmsa.walk_ends mem root x
    have hl := Vmsa.tableAt_le ht
    -- the leaf is where the walk ends
    refine ⟨callOf mem sizes x (Vmsa.walk mem root x).level t, ⟨(hmem _).mpr ⟨x, _, t, Nat.zero_le _, hl,
      fun k hk => absurd hk (Nat.not_lt_zero k), ht, rfl⟩, ?_, (range_has_iff hsizes hl hx).mpr (Vmsa.agree_refl x _)⟩, ?_⟩
    · refine decide_eq_true fun htype => ?_
      obtain ⟨t', ht', hd⟩ := Vmsa.tableAt_succ.mp ((readDesc_table_iff h0 hl ht).mp ⟨htype, rfl⟩)
      obtain rfl : t = t' := Option.some.inj (ht.symm.trans ht')
      rw [← hslot, ← hentry] at hd
      exact hend _ hd
    · rintro c ⟨hc, hleaf, hhas⟩
      obtain ⟨va, l, t', -, hl', -, ht', rfl⟩ := (hmem c).mp hc
      have hag := (range_has_iff hsizes hl' hx).mp hhas
      have htx : Vmsa.tableAt mem root x l = some t' := (Vmsa.tableAt_agree (hag.mono (Nat.le_succ l))).symm.trans ht'
      have hwalk := Vmsa.walk_eq (w := ⟨l, Vmsa.slot t' x l, mem (Vmsa.slot t' x l)⟩) ⟨t', htx, rfl, rfl, fun next hd => by
        rw [callOf_agree hag] at hleaf
        exact of_decide_eq_true hleaf (readDesc_of_table hd).1⟩
      rw [callOf_agree hag]
      rw [hwalk] at ht ⊢
      rw [Option.some.inj (ht.symm.trans htx)]

/-- The call for the first entry of the root. -/
theorem firstCall_mem : walkCall mem sizes 0 root 0 0 ∈ walkCalls mem sizes 3 0 root 0 := by
  rw [walkCalls, tableCalls, List.mem_flatMap]
  exact ⟨0, List.mem_range.mpr (by decide), List.mem_append_right _ List.mem_cons_self⟩

/-- `LEVEL_SIZES` gives its range one address. -/
theorem not_walkReports (p : Platform) : ¬WalkReports mem root (walkCalls mem (levelSizes p) 3 0 root 0) := by
  intro h
  have hiff := h.exact _ firstCall_mem 1 (by decide)
  -- the walk of address 1 reads this entry
  have hgoes : (walkCall mem (levelSizes p) 0 root 0 0).GoesThrough mem root 1 := by
    have hend : vmmTranslationWalkToLevel mem root 1 0 = { readDesc (mem root) 0 with src := some root } := by
      rw [vmmTranslationWalkToLevel, walkLoop, show entryPtr root 1 0 = root from BitVec.add_zero root]
      exact ite_self _
    rw [WalkCall.GoesThrough, show (walkCall mem (levelSizes p) 0 root 0 0).level = 0 from rfl, hend]
    exact ⟨congrArg some (BitVec.add_zero root).symm, readDesc_level _ 0⟩
  exact absurd (hiff.mpr hgoes).2 (by decide : ¬(1#64 < 0 + BitVec.ofNat 64 0 * 1 + 1))

/-- The calls, as a callback sees them that makes a list. -/
theorem vmmWalkTable_calls (p : Platform) : vmmWalkTable mem (fun calls c => calls ++ [c]) p root [] =
    walkCalls mem (levelSizes p) 3 0 root 0 := by
  have hlist : ∀ l : List WalkCall, l.foldl (fun calls c => calls ++ [c]) [] = l := fun l =>
    List.foldl_append_eq_append.trans (List.flatMap_singleton' l)
  rw [vmmWalkTable, walkTable_eq, hlist]

end Ranges

/-- **The walker is never right** about its ranges. -/
theorem vmmWalkTable_not_walkReports (p : Platform) (mem : Mem) (root : U64) :
    ¬WalkReports mem root (vmmWalkTable mem (fun calls c => calls ++ [c]) p root []) := by
  rw [vmmWalkTable_calls]
  exact not_walkReports p

/-- A block of 2 MiB below two tables: the entries of the root are reported as one byte each. -/
theorem vmmWalkTable_blockMem_wrong : Vmsa.Tree blockMem 0x1000 ∧ RootOk blockMem 0x1000 ∧
    ¬WalkReports blockMem 0x1000 (vmmWalkTable blockMem (fun calls c => calls ++ [c]) exampleTestdata 0x1000 []) := by
  rw [vmmWalkTable_calls]
  exact ⟨blockMem_tablesOk.tree, blockMem_tablesOk.rootOk, not_walkReports exampleTestdata⟩

end LitmusHarness
