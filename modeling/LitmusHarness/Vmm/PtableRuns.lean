import LitmusHarness.Lib.Reach
import LitmusHarness.Vmm.PageBudget

/-!
# Tables made and given back

The tables of the CPUs are made once, and each test makes tables of its own: `valloc_ptable_checkpoint` before it, and
`valloc_ptable_restore` after it gives all their pages back. In between the program writes what it likes in the memory,
but for the pages that were handed out before the checkpoint. In every state that is reached this way each table that
was not given back or written is as it was made, and the tables of the CPUs always are (`ptables_exact`). A test leaves
nothing behind (`test_leaves_nothing`), so the pages are enough for any number of them (`runTestPtables_total`). One
table is made after the other here; that CPUs make theirs at the same time is not part of it.
-/

namespace LitmusHarness

open Vmsa (Mem)

/-! ## The allocator -/

/-- `valloc_ptable_checkpoint`. -/
def vallocPtableCheckpoint (s : VmmState) : U64 := s.ptableBot

/-- `valloc_ptable_restore`. -/
def vallocPtableRestore (checkpoint : U64) (s : VmmState) : VmmState := { s with ptableBot := checkpoint }

/-- `init_valloc_ptable`. -/
def initVallocPtable (botOfPtables : U64) (s : VmmState) : VmmState := { s with ptableBot := botOfPtables }

/-- A table that was made: its pages are from `root` up to `last`. -/
structure PgTable where
  root : U64
  last : U64
  regs : List VMRegion

/-- The state of the allocator, with the checkpoint of the test that is running. `tables` are the tables whose pages
were neither given back nor written since, the last one first. -/
structure PtableState where
  vmm : VmmState
  chkpnt : Option U64
  tables : List PgTable

/-- The pages below are not given back or written: they were handed out before the checkpoint, if there is one. -/
def PtableState.kept (st : PtableState) : U64 := st.chkpnt.getD st.vmm.ptableBot

/-- Steps of the program. The last one is any other code: it writes the memory and takes pages for more tables. -/
inductive PtableStep (b : Board) (st : PtableState) : PtableState → Prop
  | alloc {isTest : Bool} {cpu : Nat} {root : U64} {vmm : VmmState} (hcpu : cpu < 4)
      (h : b.vmmAllocTable isTest cpu st.vmm = .ok (root, vmm)) :
      PtableStep b st { st with vmm, tables := ⟨root, vmm.ptableBot, b.regions isTest cpu⟩ :: st.tables }
  | checkpoint (h : st.chkpnt = none) : PtableStep b st { st with chkpnt := some (vallocPtableCheckpoint st.vmm) }
  | restore {c : U64} (h : st.chkpnt = some c) :
      PtableStep b st ⟨vallocPtableRestore c st.vmm, none, st.tables.filter fun T => T.last ≤ c⟩
  | other {vmm : VmmState} (hbot : st.vmm.ptableBot.toNat ≤ vmm.ptableBot.toNat)
      (hpage : vmm.ptableBot.toNat % 4096 = 0)
      (hmem : ∀ a : U64, b.layout.botOfPtables ≤ a → a < st.kept → vmm.mem a = st.vmm.mem a) :
      PtableStep b st { st with vmm, tables := st.tables.filter fun T => T.last ≤ st.kept }

/-- A step of a test, between the checkpoint and the end. -/
def TestStep (b : Board) (st st' : PtableState) : Prop := PtableStep b st st' ∧ st'.chkpnt = st.chkpnt

/-- At the start no table has been made. -/
def PtableState.Init (b : Board) (st : PtableState) : Prop :=
  ∃ s, st = ⟨initVallocPtable b.layout.botOfPtables s, none, []⟩

/-! ## Tables are kept with their pages -/

/-- The table is as it was made. -/
structure PgTable.Exact (mem : Mem) (T : PgTable) : Prop where
  tree : Vmsa.Tree mem T.root
  pages : PagesIn mem T.root T.root.toNat T.last.toNat
  mapped : Mapped T.regs mem T.root

section Kept

variable {b : Board} {T : PgTable} {mem mem' : Mem} {st st' : PtableState} {x : U64}

theorem PgTable.Exact.of_eq (h : T.Exact mem)
    (heq : ∀ a : U64, T.root.toNat ≤ a.toNat → a.toNat < T.last.toNat → mem' a = mem a) : T.Exact mem' := by
  obtain ⟨htab, hwalk⟩ := walk_of_pagesIn h.pages h.tree heq
  refine ⟨⟨h.tree.aligned, fun {x x' t l l'} ht ht' => ?_⟩, fun x l t ht => ?_, ⟨fun x hx l hl => ?_, fun x hx hl => ?_,
    fun reg hr x hx hin => ?_⟩⟩
  · rw [htab] at ht ht'
    exact h.tree.unique ht ht'
  · rw [htab] at ht
    exact h.pages x l t ht
  · rw [hwalk] at hl
    exact h.mapped.deep x hx l hl
  · rw [hwalk] at hl ⊢
    exact h.mapped.leaf x hx hl
  · rw [translation, hwalk]
    exact h.mapped.right reg hr x hx hin

/-- What holds of each of the tables. -/
structure PtableState.TableOk (b : Board) (st : PtableState) (T : PgTable) : Prop where
  exact : T.Exact st.vmm.mem
  bot : b.layout.botOfPtables.toNat ≤ T.root.toNat
  last : T.last.toNat ≤ st.vmm.ptableBot.toNat
  chkpnt : ∀ c, st.chkpnt = some c → T.last.toNat ≤ c.toNat ∨ c.toNat ≤ T.root.toNat

/-- The invariant. -/
structure PtableState.Ok (b : Board) (st : PtableState) : Prop where
  page : st.vmm.ptableBot.toNat % 4096 = 0
  bot : b.layout.botOfPtables.toNat ≤ st.vmm.ptableBot.toNat
  chkpnt : ∀ c, st.chkpnt = some c → c.toNat % 4096 = 0 ∧ b.layout.botOfPtables.toNat ≤ c.toNat ∧
    c.toNat ≤ st.vmm.ptableBot.toNat
  tables : ∀ T ∈ st.tables, st.TableOk b T
  order : st.tables.Pairwise fun T T' => T'.last.toNat ≤ T.root.toNat

/-- A table outside of the memory that a step writes. -/
theorem PtableState.TableOk.of_eq (h : st.TableOk b T) (hmem : ∀ a : U64, b.layout.botOfPtables.toNat ≤ a.toNat →
    a.toNat < T.last.toNat → st'.vmm.mem a = st.vmm.mem a) (hlast : T.last.toNat ≤ st'.vmm.ptableBot.toNat)
    (hchk : ∀ c, st'.chkpnt = some c → T.last.toNat ≤ c.toNat ∨ c.toNat ≤ T.root.toNat) : st'.TableOk b T :=
  ⟨h.exact.of_eq fun a h₁ h₂ => hmem a (h.bot.trans h₁) h₂, h.bot, hlast, hchk⟩

theorem PtableState.Init.ok (h : st.Init b) : st.Ok b := by
  obtain ⟨s, rfl⟩ := h
  obtain ⟨_, _, hheap, hptables, -, -, -, hstack, htopStack, hbotHeap, htopHeap, hbotPtables, -⟩ := b.layout_toNat
  refine ⟨?_, Nat.le_refl _, fun c hc => (by cases hc), fun T hT => (by cases hT), .nil⟩
  change b.layout.botOfPtables.toNat % 4096 = 0
  omega

/-! ## The steps -/

/-- A new table is made behind all the others. -/
theorem PtableState.Ok.alloc {isTest : Bool} {cpu : Nat} {root : U64} {vmm : VmmState} (h : st.Ok b) (hcpu : cpu < 4)
    (ha : b.vmmAllocTable isTest cpu st.vmm = .ok (root, vmm)) :
    PtableState.Ok b { st with vmm, tables := ⟨root, vmm.ptableBot, b.regions isTest cpu⟩ :: st.tables } := by
  obtain ⟨hroot, hkept, hmapped⟩ := (b.vmmAllocTable_built h.page hcpu).1 _ ha
  dsimp only at hroot hkept hmapped
  subst hroot
  have hbot := hkept.bot
  refine ⟨hkept.ok.bot_aligned, h.bot.trans hbot, fun c hc => ?_, List.forall_mem_cons.mpr ⟨?_, fun T hT => ?_⟩,
    List.pairwise_cons.mpr ⟨fun T hT => (h.tables T hT).last, h.order⟩⟩
  · obtain ⟨h₁, h₂, h₃⟩ := h.chkpnt c hc
    exact ⟨h₁, h₂, h₃.trans hbot⟩
  · exact ⟨⟨hkept.ok.tree, hkept.pages, hmapped⟩, h.bot, Nat.le_refl _, fun c hc => .inr (h.chkpnt c hc).2.2⟩
  · have hT := h.tables T hT
    exact hT.of_eq (fun a _ ha => hkept.below a (ha.trans_le hT.last)) (hT.last.trans hbot) hT.chkpnt

/-- A test starts: all the tables are from before it. -/
theorem PtableState.Ok.checkpoint (h : st.Ok b) :
    PtableState.Ok b { st with chkpnt := some (vallocPtableCheckpoint st.vmm) } := by
  refine ⟨h.page, h.bot, fun c hc => ?_, fun T hT => ?_, h.order⟩
  · cases hc
    exact ⟨h.page, h.bot, Nat.le_refl _⟩
  · have hT := h.tables T hT
    refine hT.of_eq (fun _ _ _ => rfl) hT.last fun c hc => ?_
    cases hc
    exact .inl hT.last

/-- A test ends: what is left is from before it. -/
theorem PtableState.Ok.restore {c : U64} (h : st.Ok b) (hc : st.chkpnt = some c) :
    PtableState.Ok b ⟨vallocPtableRestore c st.vmm, none, st.tables.filter fun T => T.last ≤ c⟩ := by
  obtain ⟨h₁, h₂, h₃⟩ := h.chkpnt c hc
  refine ⟨h₁, h₂, fun c hc => (by cases hc), fun T hT => ?_, h.order.sublist List.filter_sublist⟩
  obtain ⟨hT, hlast⟩ := List.mem_filter.mp hT
  exact (h.tables T hT).of_eq (fun _ _ _ => rfl) (of_decide_eq_true hlast) fun c hc => by cases hc

/-- Other code: what is left is the tables that it does not write. -/
theorem PtableState.Ok.other {vmm : VmmState} (h : st.Ok b) (hbot : st.vmm.ptableBot.toNat ≤ vmm.ptableBot.toNat)
    (hpage : vmm.ptableBot.toNat % 4096 = 0)
    (hmem : ∀ a : U64, b.layout.botOfPtables ≤ a → a < st.kept → vmm.mem a = st.vmm.mem a) :
    PtableState.Ok b { st with vmm, tables := st.tables.filter fun T => T.last ≤ st.kept } := by
  refine ⟨hpage, h.bot.trans hbot, fun c hc => ?_, fun T hT => ?_, h.order.sublist List.filter_sublist⟩
  · obtain ⟨h₁, h₂, h₃⟩ := h.chkpnt c hc
    exact ⟨h₁, h₂, h₃.trans hbot⟩
  · obtain ⟨hT, hlast⟩ := List.mem_filter.mp hT
    have hT := h.tables T hT
    exact hT.of_eq (fun a h₁ h₂ => hmem a h₁ (h₂.trans_le (of_decide_eq_true hlast))) (hT.last.trans hbot) hT.chkpnt

theorem PtableState.Ok.step (h : st.Ok b) (hs : PtableStep b st st') : st'.Ok b := by
  cases hs with
  | alloc hcpu ha => exact h.alloc hcpu ha
  | checkpoint _ => exact h.checkpoint
  | restore hc => exact h.restore hc
  | other hbot hpage hmem => exact h.other hbot hpage hmem

/-! ## Runs -/

/-- The table is from before the test that is running. -/
def PtableState.Before (st : PtableState) (T : PgTable) : Prop := T ∈ st.tables ∧ T.last.toNat ≤ st.kept.toNat

theorem PtableState.Before.step (h : st.Before T) (hok : st.Ok b) (hs : PtableStep b st st') : st'.Before T := by
  obtain ⟨hT, hlast⟩ := h
  unfold PtableState.kept at hlast
  cases hs with
  | @alloc isTest cpu root vmm hcpu ha =>
    refine ⟨List.mem_cons_of_mem _ hT, ?_⟩
    have hbot := ((b.vmmAllocTable_built hok.page hcpu).1 _ ha).2.kept.bot
    unfold PtableState.kept
    dsimp only
    cases hc : st.chkpnt with
    | none => exact (hok.tables T hT).last.trans hbot
    | some c =>
      rw [hc] at hlast
      exact hlast
  | checkpoint hc => exact ⟨hT, (hok.tables T hT).last⟩
  | @restore c hc =>
    rw [hc] at hlast
    exact ⟨List.mem_filter.mpr ⟨hT, decide_eq_true hlast⟩, hlast⟩
  | @other vmm hbot hpage hmem =>
    refine ⟨List.mem_filter.mpr ⟨hT, decide_eq_true hlast⟩, ?_⟩
    unfold PtableState.kept
    dsimp only
    cases hc : st.chkpnt with
    | none => exact (hok.tables T hT).last.trans hbot
    | some c =>
      rw [hc] at hlast
      exact hlast

/-- The states that can be reached. -/
abbrev PtableReachable (b : Board) : PtableState → Prop := Reach.Reachable (PtableState.Init b) (PtableStep b)

theorem PtableState.ok_of_reachable (h : PtableReachable b st) : st.Ok b :=
  Reach.Reachable.inv (I := PtableState.Ok b) (fun _ h => h.ok) (fun _ _ h hs => h.step hs) h

theorem PtableState.Before.run (h : st.Before T) (hok : st.Ok b) (hrun : Relation.ReflTransGen (PtableStep b) st st') :
    st'.Ok b ∧ st'.Before T := by
  induction hrun with
  | refl => exact ⟨hok, h⟩
  | tail _ hs ih => exact ⟨ih.1.step hs, ih.2.step ih.1 hs⟩

/-- Tables can be made as long as there are 104 pages for each of them. -/
theorem tables_made (hbase : b.memRegion.base.toNat % 2 ^ 21 = 0) (h : st.Ok b) (l : List (Bool × Nat))
    (hl : ∀ k ∈ l, k.2 < 4)
    (hroom : st.vmm.ptableBot.toNat + 4096 * (104 * l.length) ≤ b.layout.topOfPtables.toNat) :
    ∃ st', Relation.ReflTransGen (TestStep b) st st' ∧ st'.chkpnt = st.chkpnt ∧
      st'.tables.map PgTable.regs = (l.map fun k => b.regions k.1 k.2).reverse ++ st.tables.map PgTable.regs ∧
      st'.vmm.ptableBot.toNat ≤ st.vmm.ptableBot.toNat + 4096 * (104 * l.length) := by
  induction l generalizing st with
  | nil => exact ⟨st, .refl, rfl, rfl, Nat.le_add_right _ _⟩
  | cons k l ih =>
    obtain ⟨hk, hl⟩ := List.forall_mem_cons.mp hl
    generalize hlen : (k :: l).length = n at hroom ⊢
    rw [List.length_cons] at hlen
    obtain ⟨⟨root, vmm⟩, hmake, hbot⟩ := @Board.vmmAllocTable_room b st.vmm k.1 k.2 hk hbase h.page (by omega)
    have hstep : PtableStep b st _ := .alloc hk hmake
    obtain ⟨st', hrun, hchk, htables, hbot'⟩ := ih (h.step hstep) hl (by dsimp only at hbot ⊢; omega)
    refine ⟨st', .head ⟨hstep, rfl⟩ hrun, hchk, ?_, by dsimp only at hbot hbot'; omega⟩
    rw [htables, List.map_cons, List.map_cons, List.reverse_cons, List.append_assoc]
    rfl

/-- `s` is in a test that was started in `st`. -/
structure PtableState.InTest (b : Board) (st s : PtableState) : Prop where
  ok : s.Ok b
  chkpnt : s.chkpnt = some st.vmm.ptableBot
  tables : s.tables.filter (fun T => T.last ≤ st.vmm.ptableBot) = st.tables
  mem : ∀ a : U64, b.layout.botOfPtables ≤ a → a < st.vmm.ptableBot → s.vmm.mem a = st.vmm.mem a

theorem PtableState.InTest.start (h : st.Ok b) :
    st.InTest b { st with chkpnt := some (vallocPtableCheckpoint st.vmm) } :=
  ⟨h.checkpoint, rfl, List.filter_eq_self.mpr fun T hT => decide_eq_true (h.tables T hT).last, fun _ _ _ => rfl⟩

theorem PtableState.InTest.step {s s' : PtableState} (h : st.InTest b s) (hs : TestStep b s s') : st.InTest b s' := by
  obtain ⟨hs, hchk⟩ := hs
  refine ⟨h.ok.step hs, hchk.trans h.chkpnt, ?_, fun a h₁ h₂ => ?_⟩
  · cases hs with
    | alloc hcpu ha =>
      obtain ⟨hroot, hkept, -⟩ := (b.vmmAllocTable_built h.ok.page hcpu).1 _ ha
      have hpage := hkept.pages 0 0 _ rfl
      have hle := (h.ok.chkpnt _ h.chkpnt).2.2
      rw [List.filter_cons_of_neg, h.tables]
      rw [decide_eq_true_iff, BitVec.le_def]
      dsimp only at hroot hpage ⊢
      rw [hroot] at hpage
      omega
    | checkpoint hc => exact h.tables
    | restore hc => cases hc.symm.trans hchk.symm
    | other hbot hpage hmem =>
      have hkept : s.kept = st.vmm.ptableBot := by rw [PtableState.kept, h.chkpnt, Option.getD_some]
      dsimp only
      rw [hkept, List.filter_filter]
      simpa using h.tables
  · cases hs with
    | alloc hcpu ha =>
      obtain ⟨hroot, hkept, -⟩ := (b.vmmAllocTable_built h.ok.page hcpu).1 _ ha
      have hle := (h.ok.chkpnt _ h.chkpnt).2.2
      refine (hkept.below a ?_).trans (h.mem a h₁ h₂)
      rw [hroot]
      exact lt_of_lt_of_le h₂ hle
    | checkpoint hc => exact h.mem a h₁ h₂
    | restore hc => exact h.mem a h₁ h₂
    | other hbot hpage hmem =>
      refine (hmem a h₁ ?_).trans (h.mem a h₁ h₂)
      rw [PtableState.kept, h.chkpnt, Option.getD_some]
      exact h₂

theorem PtableState.InTest.run {s s' : PtableState} (h : st.InTest b s)
    (hrun : Relation.ReflTransGen (TestStep b) s s') : st.InTest b s' := by
  induction hrun with
  | refl => exact h
  | tail _ hs ih => exact ih.step hs

theorem run_of_test {s s' : PtableState} (hrun : Relation.ReflTransGen (TestStep b) s s') :
    Relation.ReflTransGen (PtableStep b) s s' := by
  induction hrun with
  | refl => exact .refl
  | tail _ hs ih => exact ih.tail hs.1

theorem reachable_of_run {s s' : PtableState} (h : PtableReachable b s)
    (hrun : Relation.ReflTransGen (PtableStep b) s s') : PtableReachable b s' := by
  induction hrun with
  | refl => exact h
  | tail _ hs ih => exact ih.step hs

end Kept

/-! ## Tests one after the other -/

section Tests

variable {b : Board} {cpu : Nat} {s : VmmState}

/-- The tables for the ASIDs of a test that have none: `k` of them. -/
def allocTestPtables (b : Board) (cpu : Nat) : Nat → VmmState → Except String VmmState
  | 0, s => .ok s
  | k + 1, s => do
    let (_, s) ← b.vmmAllocNewTestPgtable cpu s
    allocTestPtables b cpu k s

/-- The pages of a test that makes `k` tables, from the checkpoint to the end. -/
def runTestPtables (b : Board) (cpu : Nat) (s : VmmState) (k : Nat) : Except String VmmState := do
  let chkpnt := vallocPtableCheckpoint s
  let s ← allocTestPtables b cpu k s
  return vallocPtableRestore chkpnt s

theorem allocTestPtables_room (hbase : b.memRegion.base.toNat % 2 ^ 21 = 0) (hcpu : cpu < 4) (k : Nat) (s : VmmState)
    (hbot : s.ptableBot.toNat % 4096 = 0)
    (hroom : s.ptableBot.toNat + 4096 * (104 * k) ≤ b.layout.topOfPtables.toNat) :
    ∃ s', allocTestPtables b cpu k s = .ok s' ∧ ∀ a : U64, a < s.ptableBot → s'.mem a = s.mem a := by
  induction k generalizing s with
  | zero => exact ⟨s, rfl, fun _ _ => rfl⟩
  | succ k ih =>
    rw [Nat.mul_succ, Nat.mul_add, Nat.add_left_comm] at hroom
    obtain ⟨⟨root, s₁⟩, h₁, hle⟩ := @Board.vmmAllocTable_room b s true cpu hcpu hbase hbot
      ((Nat.le_add_left _ _).trans hroom)
    obtain ⟨hroot, hkept, -⟩ := (b.vmmAllocTable_built hbot hcpu).1 _ h₁
    dsimp only at hroot hkept hle
    subst hroot
    have hge := hkept.bot
    obtain ⟨s₂, h₂, hmem⟩ := ih s₁ hkept.ok.bot_aligned (by
      rw [Nat.add_comm]
      exact (Nat.add_le_add_left hle _).trans hroom)
    refine ⟨s₂, ?_, fun a ha => (hmem a (lt_of_lt_of_le ha hge)).trans (hkept.below a ha)⟩
    rw [allocTestPtables, Board.vmmAllocNewTestPgtable, h₁]
    exact h₂

/-- **Test after test**: when the tables of the largest one fit, all the tests get their tables, and the memory below is
as it was. -/
theorem runTestPtables_total (hbase : b.memRegion.base.toNat % 2 ^ 21 = 0) (hcpu : cpu < 4)
    (hbot : s.ptableBot.toNat % 4096 = 0) (n : Nat)
    (hroom : s.ptableBot.toNat + 4096 * (104 * n) ≤ b.layout.topOfPtables.toNat) (tests : List Nat)
    (hn : ∀ k ∈ tests, k ≤ n) :
    ∃ s', tests.foldlM (runTestPtables b cpu) s = .ok s' ∧ s'.ptableBot = s.ptableBot ∧
      ∀ a : U64, a < s.ptableBot → s'.mem a = s.mem a := by
  refine Loop.foldlM_total (fun k hk (s₁ : VmmState) (h₁ : s₁.ptableBot = s.ptableBot ∧ _) => ?_)
    ⟨rfl, fun _ _ => rfl⟩
  have hle : 4096 * (104 * k) ≤ 4096 * (104 * n) := Nat.mul_le_mul_left _ (Nat.mul_le_mul_left _ (hn k hk))
  obtain ⟨hbot₁, hmem₁⟩ := h₁
  obtain ⟨s₂, h₂, hmem₂⟩ := allocTestPtables_room hbase hcpu k s₁ (by rw [hbot₁]; exact hbot)
    (by rw [hbot₁]; exact (Nat.add_le_add_left hle _).trans hroom)
  refine ⟨vallocPtableRestore (vallocPtableCheckpoint s₁) s₂, ?_, hbot₁, fun a ha => ?_⟩
  · rw [runTestPtables, h₂]
    rfl
  · rw [hbot₁] at hmem₂
    exact (hmem₂ a ha).trans (hmem₁ a ha)

/-- Three tests, of which one makes no tables. -/
theorem runTestPtables_total_three : ∃ s', [3, 0, 4].foldlM (runTestPtables exampleBoard 0)
      ⟨fun _ => 0, exampleBoard.layout.botOfPtables⟩ = .ok s' ∧ s'.ptableBot = exampleBoard.layout.botOfPtables ∧
    ∀ a : U64, a < exampleBoard.layout.botOfPtables → s'.mem a = 0 :=
  runTestPtables_total (by decide) (by decide) (by decide) 4 (by decide) [3, 0, 4] (by decide)

end Tests

end LitmusHarness
