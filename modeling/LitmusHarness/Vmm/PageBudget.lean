import LitmusHarness.Vmm.Tables
import Mathlib.Data.Finset.Card
import Mathlib.Data.Finset.Union

/-!
# How many pages a table takes

A table is there for one of three reasons: all of the memory is in its 512 GiB, a region has addresses in its 1 GiB, or
a region starts or ends in its 2 MiB. Each page that was handed out for the tables has one of them, so their number is
bounded by the regions (`ptableBot_le`). `vmm_ptable_map` fails only if there are no more pages, and what it does before
that does not depend on where they end (`vmmPtableMap_takes`). So a new table is made whenever 104 pages are left
(`vmmAllocTable_room`).
-/

namespace LitmusHarness

open Vmsa (Mem size base)

/-! ## Computations that take pages -/

/-- The computation takes at most `n` pages from `bot` on: it does not fail for want of them if they are there, and
where the pages end does not matter as long as it does not come to the end. -/
def Takes {α : Type} (n bot : Nat) (botOf : α → Nat) (f : U64 → Except String α) : Prop :=
  bot + 4096 * n ≤ 2 ^ 48 → ∃ r hi, bot ≤ hi ∧ hi ≤ bot + 4096 * n ∧ (∀ a, r = .ok a → botOf a = hi) ∧
    r ≠ .error outOfPtables ∧ ∀ top : U64, hi ≤ top.toNat → f top = r

section Takes

variable {α β : Type} {n m bot : Nat} {botOf : α → Nat} {botOf' : β → Nat} {f f' : U64 → Except String α}
  {g : U64 → α → Except String β}

theorem takes_ok {a : α} (h : botOf a = bot) : Takes n bot botOf fun _ => .ok a := fun _ =>
  ⟨.ok a, bot, Nat.le_refl _, Nat.le_add_right _ _, fun a' ha => (by cases ha; exact h), fun he => (by cases he),
    fun _ _ => rfl⟩

theorem takes_error {e : String} (h : e ≠ outOfPtables) : Takes n bot botOf fun _ => .error e := fun _ =>
  ⟨.error e, bot, Nat.le_refl _, Nat.le_add_right _ _, fun a h => (by cases h), fun he => h (Except.error.inj he),
    fun _ _ => rfl⟩

theorem Takes.mono (h : Takes n bot botOf f) (hle : n ≤ m) : Takes m bot botOf f := by
  intro hroom
  obtain ⟨r, hi, h₁, h₂, h₃⟩ := h (by omega)
  exact ⟨r, hi, h₁, by omega, h₃⟩

theorem Takes.congr (h : Takes n bot botOf f) (heq : ∀ top, f' top = f top) : Takes n bot botOf f' :=
  (show f' = f from funext heq) ▸ h

theorem Takes.bind (h : Takes n bot botOf f) (hg : ∀ a, Takes m (botOf a) botOf' fun top => g top a) :
    Takes (n + m) bot botOf' fun top => f top >>= g top := by
  intro hroom
  obtain ⟨r, hi, h₁, h₂, hok, hne, heq⟩ := h (by omega)
  cases r with
  | error e =>
    refine ⟨.error e, hi, h₁, by omega, fun b hb => (by cases hb), fun he => ?_, fun top htop => ?_⟩
    · cases he
      exact hne rfl
    · show f top >>= g top = _
      rw [heq top htop]
      rfl
  | ok a =>
    have hbot := hok a rfl
    obtain ⟨r', hi', h₁', h₂', hok', hne', heq'⟩ := hg a (by omega)
    refine ⟨r', hi', by omega, by omega, hok', hne', fun top htop => ?_⟩
    show f top >>= g top = r'
    rw [heq top (by omega)]
    exact heq' top htop

theorem Takes.ite {c : Prop} [Decidable c] (h : c → Takes n bot botOf f) (h' : ¬c → Takes n bot botOf f') :
    Takes n bot botOf fun top => if c then f top else f' top := by
  by_cases hc : c
  · simp only [if_pos hc]
    exact h hc
  · simp only [if_neg hc]
    exact h' hc

end Takes

/-! ## What the functions take -/

section Functions

variable {root va pa prot : U64} {s : VmmState} {unmap : Bool} {level : Nat}

/-- Replacing an entry takes one page. -/
theorem replaceEntry_takes (p : U64) (desc : Desc) (level : Nat) (blockDesc : Desc) (s : VmmState) :
    Takes 1 s.ptableBot.toNat (fun r => r.2.2.ptableBot.toNat) fun top =>
      replaceEntry top p desc level blockDesc s := by
  intro hroom
  have hbot : (s.ptableBot + 4096).toNat = s.ptableBot.toNat + 4096 := by
    rw [BitVec.toNat_add, show (4096 : U64).toNat = 4096 from rfl]
    omega
  have hlt : ∀ top : U64, s.ptableBot.toNat + 4096 ≤ top.toNat → ¬s.ptableBot ≥ top := fun top htop => by
    rw [ge_iff_le, BitVec.le_def]
    omega
  refine ⟨replaceEntry (s.ptableBot + 4096) p desc level blockDesc s, s.ptableBot.toNat + 4096, by omega, by omega,
    fun r hr => ?_, fun h => ?_, fun top htop => ?_⟩
  · dsimp only
    rw [(replaceEntry_ok hr).2.2.1, hbot]
  · simp only [replaceEntry, zallocPtable, if_neg (hlt _ hbot.ge), reduceCtorEq] at h
  · simp only [replaceEntry, zallocPtable, if_neg (hlt _ hbot.ge), if_neg (hlt _ htop)]

theorem ensureLevelLoop_takes (n l : Nat) (t : U64) (blockDesc : Desc) (s : VmmState) :
    Takes n s.ptableBot.toNat (fun s => s.ptableBot.toNat) fun top => ensureLevelLoop top va n l t blockDesc s := by
  induction n generalizing l t blockDesc s with
  | zero => exact takes_ok rfl
  | succ n ih =>
    by_cases htab : (readDesc (s.mem (entryPtr t va l)) l).type = .table
    · simp only [ensureLevelLoop, if_pos htab]
      exact (ih _ _ _ s).mono (Nat.le_succ n)
    · have h := (replaceEntry_takes (entryPtr t va l) (readDesc (s.mem (entryPtr t va l)) l) l blockDesc s).bind
        fun r => ih (l + 1) r.1 r.2.1 r.2.2
      refine (h.mono (Nat.add_comm 1 n).le).congr fun top => ?_
      simp only [ensureLevelLoop, if_neg htab]
      cases replaceEntry top (entryPtr t va l) (readDesc (s.mem (entryPtr t va l)) l) l blockDesc s <;> rfl

theorem setBlockOrPage_takes : Takes level s.ptableBot.toNat (fun s => s.ptableBot.toNat) fun top =>
    setBlockOrPage top root va pa unmap prot level s := by
  have h : Takes (level + 0) s.ptableBot.toNat (fun s => s.ptableBot.toNat) fun top =>
      ensureLevelLoop top va level 0 root {} s >>= fun s => .ok { s with
        mem := vmmUpdatePte s.mem ((vmmTranslationWalk s.mem root va).src.getD 0)
          (if unmap then 0 else vmmMakeDesc pa prot (vmmTranslationWalk s.mem root va).level) } :=
    (ensureLevelLoop_takes level 0 root {} s).bind fun s => takes_ok rfl
  refine h.congr fun top => ?_
  unfold setBlockOrPage vmmEnsureLevel
  cases ensureLevelLoop top va level 0 root {} s <;> rfl

/-- One iteration takes at most three pages. -/
theorem rangeLoop_takes {cond : U64 → U64 → Bool} {bits : Nat} (hl : level ≤ 3) (limit : Nat) (st : RangeState) :
    Takes (3 * limit) st.vmm.ptableBot.toNat (fun st => st.vmm.ptableBot.toNat) fun top =>
      rangeLoop top root unmap prot limit cond level bits st := by
  induction limit generalizing st with
  | zero => exact .ite (fun _ => takes_error (by decide)) fun _ => takes_ok rfl
  | succ limit ih =>
    have h : Takes (level + 3 * limit) st.vmm.ptableBot.toNat (fun st => st.vmm.ptableBot.toNat) fun top =>
        setBlockOrPage top root st.va st.pa unmap prot level st.vmm >>= fun vmm =>
          rangeLoop top root unmap prot limit cond level bits ⟨st.va + 1#64 <<< bits, st.pa + 1#64 <<< bits, vmm⟩ :=
      setBlockOrPage_takes.bind fun vmm => ih ⟨_, _, vmm⟩
    refine .ite (fun _ => (h.mono (by omega)).congr fun top => ?_) fun _ => takes_ok rfl
    dsimp only
    cases setBlockOrPage top root st.va st.pa unmap prot level st.vmm <;> rfl

theorem ptableSetRange_takes (paStart vaStart vaEnd : U64) :
    Takes (15 * ((vaEnd.toNat - vaStart.toNat) / 4096)) s.ptableBot.toNat (fun s => s.ptableBot.toNat) fun top =>
      ptableSetRange top root paStart vaStart vaEnd unmap prot s := by
  unfold ptableSetRange
  dsimp only
  refine .ite (fun _ => takes_error (by decide)) fun _ => .ite (fun _ => takes_error (by decide)) fun _ => ?_
  have h : ∀ (st : RangeState) (level : Nat) (cond : U64 → U64 → Bool) (bits : Nat), level ≤ 3 →
      Takes (3 * ((vaEnd.toNat - vaStart.toNat) / 4096)) st.vmm.ptableBot.toNat (fun st => st.vmm.ptableBot.toNat)
        fun top => rangeLoop top root unmap prot ((vaEnd.toNat - vaStart.toNat) / 4096) cond level bits st :=
    fun st level cond bits hl => rangeLoop_takes hl _ st
  refine ((h ⟨vaStart, paStart, s⟩ 3 _ 12 (by decide)).bind (m := 12 * ((vaEnd.toNat - vaStart.toNat) / 4096))
    fun st => ?_).mono (by omega)
  refine .ite (fun _ => takes_error (by decide)) fun _ => ?_
  refine ((h st 2 _ 21 (by decide)).bind (m := 9 * ((vaEnd.toNat - vaStart.toNat) / 4096)) fun st => ?_).mono (by omega)
  refine ((h st 1 _ 30 (by decide)).bind (m := 6 * ((vaEnd.toNat - vaStart.toNat) / 4096)) fun st => ?_).mono (by omega)
  refine ((h st 2 _ 21 (by decide)).bind (m := 3 * ((vaEnd.toNat - vaStart.toNat) / 4096)) fun st => ?_).mono (by omega)
  exact (h st 3 _ 12 (by decide)).bind (m := 0) fun st => takes_ok rfl

end Functions

/-! ## The tables that are needed -/

/-- What a table is for: its level, and the number of the block that it maps. -/
def tableKey (x : Nat) : Nat → Nat × Nat
  | 0 => (0, 0)
  | l + 1 => (l + 1, x / size l)

/-- The region is below 80 GiB, and in both address spaces it is at the same place in its blocks of 2 MiB, or in one of
them. -/
structure RegionCoarse (reg : VMRegion) : Prop where
  low : reg.vaEnd.toNat ≤ 80 * 2 ^ 30
  offset : reg.vaStart.toNat % size 2 = reg.pa.toNat % size 2 ∨ reg.vaEnd.toNat ≤ base reg.vaStart.toNat 2 + size 2

/-- The tables that regions need at most: the root, one of level 1, one for each GiB, and two for each region. -/
def tableKeys (regs : List VMRegion) : Finset (Nat × Nat) :=
  {(0, 0), (1, 0)} ∪ (Finset.range 80).image (fun i => (2, i)) ∪
    (regs.flatMap fun reg => [(3, reg.vaStart.toNat / size 2), (3, reg.vaEnd.toNat / size 2)]).toFinset

section Count

variable {regs : List VMRegion} {reg : VMRegion} {mem : Mem} {top root x t : U64} {s : VmmState} {l : Nat}

theorem card_tableKeys (regs : List VMRegion) : (tableKeys regs).card ≤ 82 + 2 * regs.length := by
  have h₁ : (regs.flatMap fun reg => [(3, reg.vaStart.toNat / size 2), (3, reg.vaEnd.toNat / size 2)]).length =
      2 * regs.length := by
    induction regs with
    | nil => rfl
    | cons reg regs ih =>
      simp only [List.flatMap_cons, List.length_append, List.length_cons, List.length_nil, ih]
      omega
  have h₂ := List.toFinset_card_le (regs.flatMap fun reg =>
    [(3, reg.vaStart.toNat / size 2), (3, reg.vaEnd.toNat / size 2)])
  have h₃ : ((Finset.range 80).image fun i => (2, i)).card ≤ 80 := Finset.card_image_le.trans (Finset.card_range 80).le
  have h₄ : ({(0, 0), (1, 0)} : Finset (Nat × Nat)).card ≤ 2 := Finset.card_le_two
  have h₅ := Finset.card_union_le ({(0, 0), (1, 0)} ∪ (Finset.range 80).image fun i => (2, i))
    (regs.flatMap fun reg => [(3, reg.vaStart.toNat / size 2), (3, reg.vaEnd.toNat / size 2)]).toFinset
  have h₆ := Finset.card_union_le ({(0, 0), (1, 0)} : Finset (Nat × Nat)) ((Finset.range 80).image fun i => (2, i))
  unfold tableKeys
  omega

/-- A block of 2 MiB that a region cuts is one where it starts or ends. -/
theorem RegionCoarse.cuts_two {x : Nat} (h : RegionCoarse reg) (hcuts : reg.Cuts x 2) :
    x / size 2 = reg.vaStart.toNat / size 2 ∨ x / size 2 = reg.vaEnd.toNat / size 2 := by
  obtain ⟨⟨h₁, h₂, h₃⟩, h₄⟩ := hcuts
  have h₄ := h₄.resolve_left (by decide)
  have hoff := h.offset
  simp only [VMRegion.Fits, base, show size 2 = 2097152 from rfl] at h₂ h₃ h₄ hoff ⊢
  omega

theorem tableKey_mem (hM : Mapped regs mem root) (hcoarse : ∀ reg ∈ regs, RegionCoarse reg)
    (hx : x.toNat < 2 ^ 48) (ht : Vmsa.tableAt mem root x l = some t) : tableKey x.toNat l ∈ tableKeys regs := by
  unfold tableKeys
  cases l with
  | zero => simp [tableKey]
  | succ l =>
    have hl := Vmsa.walk_level_ge ht
    have hle := Vmsa.walk_level_le mem root x
    obtain ⟨reg, hreg, hcuts⟩ := hM.deep x hx l hl
    have hlow := (hcoarse reg hreg).low
    have hmeets := hcuts.1.2.2
    have hlt := Vmsa.lt_base_add x.toNat l
    match l with
    | 0 =>
      have h0 : x.toNat / size 0 = 0 := by
        simp only [base, size, Vmsa.shift] at hmeets ⊢
        omega
      simp [tableKey, h0]
    | 1 =>
      have h1 : x.toNat / size 1 < 80 := by
        simp only [base, size, Vmsa.shift] at hmeets ⊢
        omega
      simp [tableKey, h1]
    | 2 =>
      have h2 := (hcoarse reg hreg).cuts_two hcuts
      simp only [tableKey, Finset.mem_union, List.mem_toFinset, List.mem_flatMap]
      refine .inr ⟨reg, hreg, ?_⟩
      rcases h2 with h2 | h2 <;> simp [h2]
    | l + 3 => omega

/-- Tables for the same thing are the same. -/
theorem tableAt_of_key {x' : U64} {l' : Nat} (hx : x.toNat < 2 ^ 48) (hx' : x'.toNat < 2 ^ 48)
    (ht : Vmsa.tableAt mem root x l = some t) (h : tableKey x.toNat l = tableKey x'.toNat l') :
    Vmsa.tableAt mem root x l = Vmsa.tableAt mem root x' l' := by
  cases l with
  | zero =>
    cases l' with
    | zero => rfl
    | succ l' => cases h
  | succ l =>
    cases l' with
    | zero => cases h
    | succ l' =>
      simp only [tableKey, Prod.mk.injEq, Nat.add_right_cancel_iff] at h
      obtain ⟨rfl, h⟩ := h
      have hl := Vmsa.tableAt_le ht
      exact Vmsa.tableAt_agree ((Vmsa.agree_iff_base hx hx' (by omega)).mpr (congrArg (· * size l) h))

/-- **The pages of a table**: there are at most as many as the tables that its regions need. -/
theorem ptableBot_le (hown : OwnPages root.toNat top root s) (hM : Mapped regs s.mem root)
    (hcoarse : ∀ reg ∈ regs, RegionCoarse reg) : s.ptableBot.toNat ≤ root.toNat + 4096 * (82 + 2 * regs.length) := by
  by_contra hlt
  have hlt := not_le.mp hlt
  have htop := hown.le_top
  have hroot := hown.ok.tree.aligned
  have hpage : ∀ k ∈ Finset.range (82 + 2 * regs.length + 1), ∃ q : U64 × Nat, q.1.toNat < 2 ^ 48 ∧
      Vmsa.tableAt s.mem root q.1 q.2 = some (BitVec.ofNat 64 (root.toNat + 4096 * k)) := by
    intro k hk
    have hk := Finset.mem_range.mp hk
    have hbot := s.ptableBot.isLt
    have hp : (BitVec.ofNat 64 (root.toNat + 4096 * k)).toNat = root.toNat + 4096 * k := by
      rw [BitVec.toNat_ofNat]
      omega
    obtain ⟨x, l, hx, ht⟩ := hown.used (BitVec.ofNat 64 (root.toNat + 4096 * k)) (by omega) (by omega) (by omega)
    exact ⟨(x, l), hx, ht⟩
  choose! f hf using hpage
  have hcard := Finset.card_le_card_of_injOn (fun k => tableKey (f k).1.toNat (f k).2)
    (fun k hk => tableKey_mem hM hcoarse (hf k hk).1 (hf k hk).2) (fun k hk k' hk' heq => ?_)
  · rw [Finset.card_range] at hcard
    have := hcard.trans (card_tableKeys regs)
    omega
  · have h := tableAt_of_key (hf k hk).1 (hf k' hk').1 (hf k hk).2 heq
    rw [(hf k hk).2, (hf k' hk').2] at h
    have h := congrArg BitVec.toNat (Option.some.inj h)
    have hk := Finset.mem_range.mp (Finset.mem_coe.mp hk)
    have hk' := Finset.mem_range.mp (Finset.mem_coe.mp hk')
    have hbot := s.ptableBot.isLt
    rw [BitVec.toNat_ofNat, BitVec.toNat_ofNat] at h
    omega

end Count

/-! ## Making a table -/

section Room

variable {top root : U64} {map : VMRegions} {regs : List VMRegion} {reg : VMRegion} {s s₀ : VmmState}

theorem vmmPtableMap_takes : Takes (15 * ((reg.vaEnd.toNat - reg.vaStart.toNat) / 4096)) s.ptableBot.toNat
    (fun s => s.ptableBot.toNat) fun top => vmmPtableMap top root reg s := ptableSetRange_takes _ _ _

/-- Where the pages end does not matter for what is built. -/
theorem Built.withTop {top' : U64} (h : Built root.toNat top root regs s₀ s) (hle : s.ptableBot.toNat ≤ top'.toNat)
    (htop : top'.toNat % 4096 = 0) (h48 : top'.toNat ≤ 2 ^ 48) : Built root.toNat top' root regs s₀ s := by
  obtain ⟨⟨⟨hok, hpages, hused, -⟩, hbelow, hbot⟩, hmapped⟩ := h
  refine ⟨⟨⟨⟨hok.tree, hok.rootOk, hok.bot_aligned, htop, h48, fun va l t ht => .inl ?_⟩, hpages, hused, hle⟩, hbelow,
    hbot⟩, hmapped⟩
  have := hpages va l t ht
  omega

/-- **A region is mapped** if there are as many pages as the tables that are needed then. -/
theorem vmmPtableMap_room (hB : Built root.toNat top root regs s₀ s) (hreg : RegionFits reg)
    (hapart : ∀ r ∈ regs, r.Apart reg) (hcoarse : ∀ r ∈ regs ++ [reg], RegionCoarse r) (htop : top.toNat ≤ 2 ^ 47)
    (hroom : root.toNat + 4096 * (82 + 2 * (regs.length + 1)) ≤ top.toNat) :
    ∃ s', vmmPtableMap top root reg s = .ok s' := by
  have hlow := (hcoarse reg (by simp)).low
  have hle := hB.kept.le_top
  have hall : (0x1000000000000 : U64).toNat = 2 ^ 48 := rfl
  obtain ⟨r, hi, h₁, h₂, hok, hne, heq⟩ := @vmmPtableMap_takes root reg s (by omega)
  -- the run in which the pages end at 2^48
  have hB' := hB.withTop (show s.ptableBot.toNat ≤ (0x1000000000000 : U64).toNat by omega) (by decide) (by decide)
  have hrun := heq 0x1000000000000 (by omega)
  cases r with
  | error e =>
    obtain rfl := (vmmPtableMap_inv hreg.toRegionOk hB'.kept.ok).2 e hrun
    exact absurd rfl hne
  | ok s' =>
    have hkept := vmmPtableMap_keptBelow hB'.kept.toOwnPages hreg.toRegionOk hreg.virt hrun
    obtain ⟨-, hmapped⟩ := vmmPtableMap_mapped hB'.kept.ok hB'.mapped hreg hapart hrun
    have hbot := ptableBot_le hkept.toOwnPages hmapped hcoarse
    rw [List.length_append, List.length_singleton] at hbot
    have hhi : s'.ptableBot.toNat = hi := hok s' rfl
    exact ⟨s', heq top (by omega)⟩

theorem mapRegions_room {l : List VMRegionTag} (hB : Built root.toNat top root regs s₀ s)
    (hfits : ∀ i ∈ l, RegionFits (map i).region)
    (hapart : (regs ++ l.map fun i => (map i).region).Pairwise VMRegion.Apart)
    (hcoarse : ∀ r ∈ regs ++ l.map fun i => (map i).region, RegionCoarse r) (htop : top.toNat ≤ 2 ^ 47)
    (hroom : root.toNat + 4096 * (82 + 2 * (regs.length + l.length)) ≤ top.toNat) :
    ∃ s', (mapRegions top root map l s).2 = .ok s' := by
  induction l generalizing regs s with
  | nil => exact ⟨s, rfl⟩
  | cons i l ih =>
    obtain ⟨hi, hl⟩ := List.forall_mem_cons.mp hfits
    have hroom' : root.toNat + 4096 * (82 + 2 * (regs.length + 1)) ≤ top.toNat :=
      (Nat.add_le_add_left (Nat.mul_le_mul_left _ (by rw [List.length_cons]; omega)) _).trans hroom
    rw [List.map_cons, List.append_cons] at hapart hcoarse
    have hregs : ∀ r ∈ regs, r.Apart (map i).region := fun r hr =>
      (List.pairwise_append.mp (List.pairwise_append.mp hapart).1).2.2 r hr _ (List.mem_singleton.mpr rfl)
    have hcoarse' : ∀ r ∈ regs ++ [(map i).region], RegionCoarse r := fun r hr =>
      hcoarse r (List.mem_append_left _ hr)
    obtain ⟨s₁, h₁⟩ := vmmPtableMap_room hB hi hregs hcoarse' htop hroom'
    have hB₁ : Built root.toNat top root (regs ++ [(map i).region]) s₀ s₁ :=
      ⟨hB.kept.trans (vmmPtableMap_keptBelow hB.kept.toOwnPages hi.toRegionOk hi.virt h₁),
        (vmmPtableMap_mapped hB.kept.ok hB.mapped hi hregs h₁).2⟩
    have hnext : mapRegions top root map (i :: l) s =
        (i :: (mapRegions top root map l s₁).1, (mapRegions top root map l s₁).2) := by
      rw [mapRegions, h₁]
    rw [hnext]
    refine ih hB₁ hl hapart hcoarse (le_trans (le_of_eq ?_) hroom)
    rw [List.length_append, List.length_singleton, List.length_cons, Nat.add_assoc regs.length, Nat.add_comm 1]

end Room

/-! ## The tables of the harness -/

namespace Board

variable (b : Board)

theorem regionCoarse_id {vaStart vaEnd memattr prot : U64} (hlow : vaEnd.toNat ≤ 80 * 2 ^ 30) :
    RegionCoarse ⟨vaStart, vaEnd, memattr, prot, 0⟩ := ⟨hlow, .inl rfl⟩

theorem regionCoarse_of {vaStart vaEnd memattr prot paStart : U64} (hlow : vaEnd.toNat ≤ 80 * 2 ^ 30)
    (h : vaStart.toNat % size 2 = paStart.toNat % size 2 ∨ vaEnd.toNat ≤ base vaStart.toNat 2 + size 2) :
    RegionCoarse ⟨vaStart, vaEnd, memattr, prot, paStart⟩ := by
  refine ⟨hlow, h.imp_left fun h => ?_⟩
  unfold VMRegion.pa
  split
  · exact h
  · rfl

theorem unset_coarse : RegionCoarse unset.region := regionCoarse_id (Nat.zero_le _)

theorem sharedMap_coarse (i : VMRegionTag) : RegionCoarse (b.sharedMap i).region := by
  obtain ⟨_, _, -, -, hheap, hptables, -, -, -, hbotHeap, htopHeap, hbotPtables, htopPtables, -⟩ := b.layout_toNat
  obtain ⟨-, htop⟩ := b.io_toNat
  have hstack := b.stack_low
  have h₁ := b.mem_top
  have h₂ := b.vector_start
  have h₃ := b.vector_end
  have h₄ := b.data_sections
  have h₅ := b.mem_sections
  have h₆ := b.io_apart
  obtain ⟨_, _, hl⟩ := b.layout_toNat
  cases i with
  | mmapIo => exact regionCoarse_id (by omega)
  | text => exact regionCoarse_id (by omega)
  | data => exact regionCoarse_id (by omega)
  | stack => exact regionCoarse_id (by omega)
  | heap => exact regionCoarse_id (by omega)
  | ptables => exact regionCoarse_id (by omega)
  | _ => exact unset_coarse

theorem extraUniversal_coarse (i : VMRegionTag) : RegionCoarse (b.extraUniversal i).region := by
  obtain ⟨_, _, hl⟩ := b.layout_toNat
  have h₁ := b.mem_top
  cases i with
  | testdata => exact regionCoarse_id (by omega)
  | _ => exact unset_coarse

theorem map_coarse {cpu : Nat} (hcpu : cpu < 4) (isTest : Bool) (i : VMRegionTag) :
    RegionCoarse ((if isTest then b.testMap else b.perThreadData cpu) i).region := by
  have hstack := b.stack_low
  cases isTest with
  | true =>
    cases i with
    | mmapStackEl0 => exact regionCoarse_of (by decide) (.inl (Eq.symm hstack.2.1))
    | mmapVtable => exact regionCoarse_of (by decide) (.inr (by decide))
    | _ => exact unset_coarse
  | false =>
    obtain ⟨hw₀, hw₁, hw₂, hw₃, hw₄⟩ := window_toNat hcpu
    have hcpu' : cpu < noCpus.toNat := hcpu
    have hbot₀ := b.stackArea.toNat_threadBot hcpu' (show 0 < 2 by decide)
    have hbot₁ := b.stackArea.toNat_threadBot hcpu' (show 1 < 2 by decide)
    have hpa : b.stackArea.botOfStackPa.toNat = b.layout.botOfStackPa.toNat := rfl
    have hvtable : (thrVtableVa cpu + 4096).toNat = 17 * 2 ^ 30 + cpu * 4096 + 4096 := by
      rw [BitVec.toNat_add, hw₄, show (4096 : U64).toNat = 4096 from rfl]
      omega
    have hsize : size 2 = 2 ^ 21 := rfl
    cases i with
    | mmapStackEl0 => exact regionCoarse_of (by omega) (.inl (by rw [hsize]; omega))
    | mmapStackEl1 => exact regionCoarse_of (by omega) (.inl (by rw [hsize]; omega))
    | mmapVtable => exact regionCoarse_of (by omega) (.inr (by rw [base, hsize]; omega))
    | _ => exact unset_coarse

theorem harnessMap_coarse (hbase : b.memRegion.base.toNat % 2 ^ 21 = 0) (i : VMRegionTag) :
    RegionCoarse (b.harnessMap i).region := by
  have h₁ := b.mem_top
  have hharness : (harnessMmapBase + b.totalMem).toNat = 2 ^ 36 + b.memRegion.size.toNat := by
    rw [BitVec.toNat_add, show harnessMmapBase.toNat = 2 ^ 36 from rfl, totalMem]
    omega
  cases i with
  | mmapHarness => exact regionCoarse_of (by omega) (.inl (Eq.symm hbase))
  | _ => exact unset_coarse

theorem regions_coarse {cpu : Nat} (hcpu : cpu < 4) (hbase : b.memRegion.base.toNat % 2 ^ 21 = 0) (isTest : Bool) :
    ∀ reg ∈ b.regions isTest cpu, RegionCoarse reg := by
  have hmap : ∀ (map : VMRegions), (∀ i, RegionCoarse (map i).region) →
      ∀ reg ∈ map.valid.map fun i => (map i).region, RegionCoarse reg := fun map h =>
    List.forall_mem_map.mpr fun i _ => h i
  exact List.forall_mem_append.mpr ⟨List.forall_mem_append.mpr ⟨List.forall_mem_append.mpr
    ⟨hmap _ b.sharedMap_coarse, hmap _ b.extraUniversal_coarse⟩, hmap _ (b.map_coarse hcpu isTest)⟩,
    hmap _ (b.harnessMap_coarse hbase)⟩

section Total

variable {top root : U64} {map : VMRegions} {regs : List VMRegion} {s s₀ : VmmState} {isTest : Bool} {cpu : Nat}

theorem update_room (hB : Built root.toNat top root regs s₀ s) (hfits : ∀ i, RegionFits (map i).region)
    (hapart : (regs ++ map.valid.map fun i => (map i).region).Pairwise VMRegion.Apart)
    (hcoarse : ∀ r ∈ regs ++ map.valid.map fun i => (map i).region, RegionCoarse r) (htop : top.toNat ≤ 2 ^ 47)
    (hroom : root.toNat + 4096 * (82 + 2 * (regs ++ map.valid.map fun i => (map i).region).length) ≤ top.toNat) :
    ∃ s', (updateTableFromVmregionMap top root map s).2 = .ok s' ∧
      Built root.toNat top root (regs ++ map.valid.map fun i => (map i).region) s₀ s' := by
  have hbuilt := update_built hB hfits hapart
  rw [updateTableFromVmregionMap_eq] at hbuilt ⊢
  rw [List.length_append, List.length_map] at hroom
  obtain ⟨s', h⟩ := mapRegions_room hB (fun i _ => hfits i) hapart hcoarse htop hroom
  exact ⟨s', h, hbuilt.1 s' h⟩

theorem zallocPtable_room (hroom : s.ptableBot.toNat + 4096 ≤ top.toNat) :
    ∃ s', zallocPtable top s = .ok (s.ptableBot, s') := by
  refine ⟨_, if_neg ?_⟩
  rw [ge_iff_le, BitVec.le_def]
  omega

/-- **A new table is made** if 104 pages are left, and takes no more. -/
theorem vmmAllocTable_room (hcpu : cpu < 4) (hbase : b.memRegion.base.toNat % 2 ^ 21 = 0)
    (hbot : s.ptableBot.toNat % 4096 = 0) (hroom : s.ptableBot.toNat + 4096 * 104 ≤ b.layout.topOfPtables.toNat) :
    ∃ r, b.vmmAllocTable isTest cpu s = .ok r ∧ r.2.ptableBot.toNat ≤ s.ptableBot.toNat + 4096 * 104 := by
  obtain ⟨_, _, hheap, hptables, -, -, -, hstack, htopStack, hbotHeap, htopHeap, hbotPtables, htopPtables, hbotData, -,
    htopData, htop, -⟩ := b.layout_toNat
  have hmem := b.mem_top
  have hlen : (b.regions isTest cpu).length ≤ 11 := by
    cases isTest with
    | false => exact Nat.le_refl 11
    | true => exact Nat.le_succ 10
  have hapart := b.regions_apart hcpu isTest
  have hcoarse := b.regions_coarse hcpu hbase isTest
  -- the regions after each of the four updates
  have hsub₃ : List.Sublist (b.baseRegions ++ (if isTest then b.testMap else b.perThreadData cpu).valid.map fun i =>
      ((if isTest then b.testMap else b.perThreadData cpu) i).region) (b.regions isTest cpu) :=
    List.sublist_append_left _ _
  have hsub₂ : List.Sublist b.baseRegions (b.regions isTest cpu) := (List.sublist_append_left _ _).trans hsub₃
  have hsub₁ : List.Sublist ([] ++ b.sharedMap.valid.map fun i => (b.sharedMap i).region) (b.regions isTest cpu) :=
    (List.sublist_append_left _ _).trans hsub₂
  have hroom' : ∀ {regs : List VMRegion}, List.Sublist regs (b.regions isTest cpu) →
      s.ptableBot.toNat + 4096 * (82 + 2 * regs.length) ≤ b.layout.topOfPtables.toNat := fun h => by
    have := h.length_le
    omega
  have h47 : b.layout.topOfPtables.toNat ≤ 2 ^ 47 := by omega
  obtain ⟨s₁, h₁⟩ := @zallocPtable_room b.layout.topOfPtables s (by omega)
  obtain ⟨-, hB₁⟩ := zallocPtable_new hbot (by omega) (by omega) h₁
  obtain ⟨s₂, h₂, hB₂⟩ := update_room hB₁ b.sharedMap_fits (hapart.sublist hsub₁)
    (fun r hr => hcoarse r (hsub₁.subset hr)) h47 (hroom' hsub₁)
  obtain ⟨s₃, h₃, hB₃⟩ := update_room hB₂ b.extraUniversal_fits (hapart.sublist hsub₂)
    (fun r hr => hcoarse r (hsub₂.subset hr)) h47 (hroom' hsub₂)
  obtain ⟨s₄, h₄, hB₄⟩ := update_room hB₃ (b.map_fits hcpu isTest) (hapart.sublist hsub₃)
    (fun r hr => hcoarse r (hsub₃.subset hr)) h47 (hroom' hsub₃)
  obtain ⟨s₅, h₅, hB₅⟩ := update_room hB₄ b.harnessMap_fits hapart hcoarse h47 (hroom' (List.Sublist.refl _))
  refine ⟨(s.ptableBot, s₅), ?_, ?_⟩
  · have hbind : ∀ {α β : Type} (a : α) (f : α → Except String β), (.ok a >>= f) = f a := fun _ _ => rfl
    simp only [vmmAllocTable, vmAllocBaseMap, h₁, h₂, h₃, h₄, h₅, hbind, pure_bind]
    rfl
  · have hlast : s₅.ptableBot.toNat ≤ s.ptableBot.toNat + 4096 * (82 + 2 * (b.regions isTest cpu).length) :=
      ptableBot_le hB₅.kept.toOwnPages hB₅.mapped hcoarse
    dsimp only
    omega

end Total

end Board

end LitmusHarness
