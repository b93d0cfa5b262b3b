import LitmusHarness.Vmm.PtableRuns

/-!
# Where the stack is: `vmm_stack.c` and `vmm_mmu_control.c`

While the MMU is on, a CPU has its stack at addresses of its own from 16 GiB on. The stack pointer is moved there after
the MMU is switched on, and moved back before it is switched off; in between it points to the physical stack, which all
tables map to itself. So at each instruction of each CPU the stack pointer leads to the same word of the memory, whatever
tables are switched, made and given back in between, and no other CPU's table has its address (`stack_stays`).
-/

namespace LitmusHarness

/-! ## Moving the stack pointer -/

/-- What the code here changes of a CPU: the stack pointer, `SCTLR_EL1.M`, the table of `TTBR0_EL1`, and the two flags of
its `thread_info`. -/
structure CpuVm where
  sp : U64
  mmuOn : Bool
  ttbr : U64
  mmuEnabled : BitVec 8
  lockingEnabled : BitVec 8

namespace Board

variable (b : Board) (cpu : Nat)

/-- `switch_to_vm_stack`: the new stack pointer. -/
def switchToVmStack (sp : U64) : U64 := sp - b.stackArea.threadBot cpu 0 + stackMmapThreadBotEl0 cpu

/-- `switch_to_pys_stack`: the new stack pointer. -/
def switchToPysStack (sp : U64) : U64 := sp - stackMmapThreadBotEl0 cpu + b.stackArea.threadBot cpu 0

/-- `is_using_vm_stack`. -/
def isUsingVmStack (sp : U64) : Bool := stackMmapThreadBotEl0 cpu ≤ sp && sp < stackMmapThreadTopEl0 cpu

/-- The address is on the physical EL0 stack of the CPU. -/
def OnPysStack (p : U64) : Prop := b.stackArea.threadBot cpu 0 ≤ p ∧ p < b.stackArea.threadTop cpu 0

/-! ## The instructions -/

/-- What the functions do one after the other. -/
inductive VmInstr
  | toVmStack
  | toPysStack
  | ensureVmStack
  | msrSctlr (m : Bool)
  | msrTtbr (root : U64)
  | setInfo (v : BitVec 8)

/-- One of them. -/
def VmInstr.exec (c : CpuVm) : VmInstr → CpuVm
  | .toVmStack => { c with sp := b.switchToVmStack cpu c.sp }
  | .toPysStack => { c with sp := b.switchToPysStack cpu c.sp }
  | .ensureVmStack => if !isUsingVmStack cpu c.sp then { c with sp := b.switchToVmStack cpu c.sp } else c
  | .msrSctlr m => { c with mmuOn := m }
  | .msrTtbr root => { c with ttbr := root }
  | .setInfo v => { c with mmuEnabled := v, lockingEnabled := v }

/-- `vmm_mmu_off`. -/
def vmmMmuOff : List VmInstr := [.toPysStack, .msrSctlr false, .setInfo 0]

/-- `vmm_mmu_on`. -/
def vmmMmuOn : List VmInstr := [.msrSctlr true, .setInfo 1, .toVmStack]

/-- `set_new_ttable`. -/
def setNewTtable (root : U64) (c : CpuVm) : Except String (List VmInstr) :=
  if c.mmuOn then .error "set_new_ttable:  MMU already on!\n" else .ok (.msrTtbr root :: vmmMmuOn)

/-- `vmm_set_id_translation`. -/
def vmmSetIdTranslation (pgtable : U64) (c : CpuVm) : Except String (List VmInstr) :=
  if pgtable = 0 then .ok vmmMmuOff else setNewTtable pgtable c

/-- `vmm_ensure_in_harness_pgtable_ctx`, with the table of the CPU. -/
def vmmEnsureInHarnessPgtableCtx (own : U64) : List VmInstr :=
  [.msrTtbr own, .msrSctlr true, .setInfo 1, .ensureVmStack]

/-- `vmm_switch_ttable`. The ASID does not matter for the walk. -/
def vmmSwitchTtable (root : U64) : List VmInstr := [.msrTtbr root]

end Board

/-! ## Runs -/

/-- A CPU with the instructions that are left of a call, and the place in the memory where the top of its stack is. -/
structure CpuRun where
  c : CpuVm
  todo : List Board.VmInstr
  pys : U64

/-- The tables that a CPU may use: its own and those of tests. -/
def PtableState.Usable (b : Board) (cpu : Nat) (st : PtableState) (root : U64) : Prop :=
  ∃ T ∈ st.tables, T.root = root ∧ ∃ isTest, T.regs = b.regions isTest cpu

/-- Steps of a CPU: an instruction, a call, and the code between the calls, which moves the top of the stack. The MMU is
only switched off when it is on. -/
inductive CpuStep (b : Board) (cpu : Nat) (st : PtableState) : CpuRun → CpuRun → Prop
  | exec {c : CpuVm} {i : Board.VmInstr} {l : List Board.VmInstr} {p : U64} :
      CpuStep b cpu st ⟨c, i :: l, p⟩ ⟨i.exec b cpu c, l, p⟩
  | setId {c : CpuVm} {l : List Board.VmInstr} {p root : U64} (hroot : st.Usable b cpu root) (hnull : root ≠ 0)
      (h : Board.vmmSetIdTranslation root c = .ok l) : CpuStep b cpu st ⟨c, [], p⟩ ⟨c, l, p⟩
  | off {c : CpuVm} {l : List Board.VmInstr} {p : U64} (hon : c.mmuOn = true)
      (h : Board.vmmSetIdTranslation 0 c = .ok l) : CpuStep b cpu st ⟨c, [], p⟩ ⟨c, l, p⟩
  | ensure {c : CpuVm} {p root : U64} (hroot : st.Usable b cpu root) :
      CpuStep b cpu st ⟨c, [], p⟩ ⟨c, Board.vmmEnsureInHarnessPgtableCtx root, p⟩
  | switch {c : CpuVm} {p root : U64} (hroot : st.Usable b cpu root) :
      CpuStep b cpu st ⟨c, [], p⟩ ⟨c, Board.vmmSwitchTtable root, p⟩
  | move {c : CpuVm} {p d : U64} (hp : b.OnPysStack cpu (p + d)) :
      CpuStep b cpu st ⟨c, [], p⟩ ⟨{ c with sp := c.sp + d }, [], p + d⟩

/-- The table is in use, or will be at the end of the call. -/
def CpuRun.Uses (r : CpuRun) (root : U64) : Prop :=
  r.c.ttbr = root ∧ (r.c.mmuOn = true ∨ r.todo ≠ []) ∨ .msrTtbr root ∈ r.todo

/-- A CPU starts on its physical stack, with the MMU off. -/
def CpuRun.Init (b : Board) (cpu : Nat) (r : CpuRun) : Prop :=
  r.c.mmuOn = false ∧ r.c.mmuEnabled = 0 ∧ r.todo = [] ∧ r.c.sp = r.pys ∧ b.OnPysStack cpu r.pys

/-- The tables and the CPUs. -/
structure VmSystem where
  st : PtableState
  cpus : Fin 4 → CpuRun

/-- The CPUs take their steps in any order, and so does what makes and gives back the tables. At the end of a test all
CPUs are back in the tables that stay (`end_of_thread`). -/
inductive VmStep (b : Board) (s : VmSystem) : VmSystem → Prop
  | cpu {i : Fin 4} {r : CpuRun} (h : CpuStep b i s.st (s.cpus i) r) :
      VmStep b s { s with cpus := Function.update s.cpus i r }
  | tables {st : PtableState} (h : PtableStep b s.st st)
      (hused : ∀ i : Fin 4, ∀ root, (s.cpus i).Uses root → st.Usable b i root) : VmStep b s { s with st }

/-- The states of the system. -/
abbrev VmReachable (b : Board) : VmSystem → Prop :=
  Reach.Reachable (fun s => s.st.Init b ∧ ∀ i : Fin 4, (s.cpus i).Init b i) (VmStep b)

/-- The word of the memory to which the stack pointer leads. -/
def CpuVm.stackAt (c : CpuVm) (mem : Vmsa.Mem) : Option U64 :=
  if c.mmuOn then (translation mem c.ttbr c.sp).map Prod.fst else some c.sp

/-! ## The two places of the stack in a table -/

section Places

variable {b : Board} {cpu cpu' : Nat} {isTest : Bool} {p : U64}

/-- The places of a stack, as numbers. -/
theorem onPysStack_toNat (hcpu : cpu < 4) (hp : b.OnPysStack cpu p) :
    b.layout.botOfStackPa.toNat + cpu * 2 ^ 22 ≤ p.toNat ∧ p.toNat < b.layout.botOfStackPa.toNat + cpu * 2 ^ 22 + 2 ^ 21 ∧
    (b.switchToVmStack cpu p).toNat = 2 ^ 34 + cpu * 2 ^ 22 + (p.toNat - (b.layout.botOfStackPa.toNat + cpu * 2 ^ 22)) := by
  have hcpu' : cpu < noCpus.toNat := hcpu
  have hbot := b.stackArea.toNat_threadBot hcpu' (show 0 < 2 by decide)
  have htop := b.stackArea.toNat_threadTop hcpu' (show 0 < 2 by decide)
  have hpa : b.stackArea.botOfStackPa.toNat = b.layout.botOfStackPa.toNat := rfl
  obtain ⟨hw, -⟩ := Board.window_toNat hcpu
  have hlow := b.stack_low
  obtain ⟨h₁, h₂⟩ := hp
  rw [BitVec.le_def] at h₁
  rw [BitVec.lt_def] at h₂
  refine ⟨by omega, by omega, ?_⟩
  rw [Board.switchToVmStack, BitVec.toNat_add, BitVec.toNat_sub_of_le (by rw [BitVec.le_def]; omega), hw]
  omega

theorem mem_regions_shared {i : VMRegionTag} (h : i ∈ b.sharedMap.valid) :
    (b.sharedMap i).region ∈ b.regions isTest cpu :=
  List.mem_append_left _ (List.mem_append_left _ (List.mem_append_left _ (List.mem_map_of_mem h)))

theorem mem_regions_map {i : VMRegionTag} (h : i ∈ (if isTest then b.testMap else b.perThreadData cpu).valid) :
    ((if isTest then b.testMap else b.perThreadData cpu) i).region ∈ b.regions isTest cpu :=
  List.mem_append_left _ (List.mem_append_right _ (List.mem_map_of_mem h))

/-- All tables map the physical stacks to themselves. -/
theorem spaceAt_pys (hcpu : cpu < 4) (hcpu' : cpu' < 4) (hp : b.OnPysStack cpu p) :
    (spaceAt (b.regions isTest cpu') p.toNat).map Prod.fst = some p := by
  obtain ⟨h₁, h₂, -⟩ := onPysStack_toNat hcpu hp
  obtain ⟨_, _, -, -, -, -, -, -, htop, -⟩ := b.layout_toNat
  have hmem : (b.sharedMap .stack).region ∈ b.regions isTest cpu' := mem_regions_shared (.tail _ (.tail _ (.tail _ (.head _))))
  have hhas : (b.sharedMap .stack).region.Has p.toNat := by
    refine ⟨?_, ?_⟩
    · exact le_trans (Nat.le_add_right _ _) h₁
    · show p.toNat < b.layout.topOfStackPa.toNat
      omega
  rw [spaceAt_of_has (b.regions_apart hcpu' isTest) hmem hhas]
  refine congrArg some (BitVec.eq_of_toNat_eq ?_)
  show (b.layout.botOfStackPa + BitVec.ofNat 64 (p.toNat - b.layout.botOfStackPa.toNat)).toNat = p.toNat
  rw [BitVec.toNat_add, BitVec.toNat_ofNat]
  omega

/-- The tables for a CPU map the addresses of its stack to the physical one. -/
theorem spaceAt_vm (hcpu : cpu < 4) (hp : b.OnPysStack cpu p) :
    (spaceAt (b.regions isTest cpu) (b.switchToVmStack cpu p).toNat).map Prod.fst = some p := by
  obtain ⟨h₁, h₂, h₃⟩ := onPysStack_toNat hcpu hp
  have hlow := b.stack_low
  have hstart := b.vector_start
  have hend := b.vector_end
  have hzero : (0 : U64).toNat = 0 := rfl
  cases isTest with
  | true =>
    have hmem : (b.testMap .mmapStackEl0).region ∈ b.regions true cpu := @mem_regions_map b cpu true _ (.head _)
    have hhas : (b.testMap .mmapStackEl0).region.Has (b.switchToVmStack cpu p).toNat := by
      refine ⟨?_, ?_⟩
      · show (2 : Nat) ^ 34 ≤ _
        omega
      · show _ < (17 * 2 ^ 30 : Nat)
        omega
    rw [spaceAt_of_has (b.regions_apart hcpu true) hmem hhas]
    refine congrArg some (BitVec.eq_of_toNat_eq ?_)
    show ((if b.layout.botOfStackPa ≠ 0 then b.layout.botOfStackPa else stackMmapBase) +
      BitVec.ofNat 64 ((b.switchToVmStack cpu p).toNat - stackMmapBase.toNat)).toNat = p.toNat
    have hbase : stackMmapBase.toNat = 2 ^ 34 := rfl
    rw [if_pos, BitVec.toNat_add, BitVec.toNat_ofNat]
    · omega
    · intro h
      rw [h] at hlow
      omega
  | false =>
    have hcpu' : cpu < noCpus.toNat := hcpu
    have hbot := b.stackArea.toNat_threadBot hcpu' (show 0 < 2 by decide)
    have hpa : b.stackArea.botOfStackPa.toNat = b.layout.botOfStackPa.toNat := rfl
    obtain ⟨hw₀, hw₁, -⟩ := Board.window_toNat hcpu
    have hmem : (b.perThreadData cpu .mmapStackEl0).region ∈ b.regions false cpu := @mem_regions_map b cpu false _ (.head _)
    have hhas : (b.perThreadData cpu .mmapStackEl0).region.Has (b.switchToVmStack cpu p).toNat := by
      refine ⟨?_, ?_⟩
      · show (Board.stackMmapThreadBotEl0 cpu).toNat ≤ _
        omega
      · show _ < (Board.stackMmapThreadTopEl0 cpu).toNat
        omega
    rw [spaceAt_of_has (b.regions_apart hcpu false) hmem hhas]
    refine congrArg some (BitVec.eq_of_toNat_eq ?_)
    show ((if b.stackArea.threadBot cpu 0 ≠ 0 then b.stackArea.threadBot cpu 0
      else Board.stackMmapThreadBotEl0 cpu) + BitVec.ofNat 64 ((b.switchToVmStack cpu p).toNat -
      (Board.stackMmapThreadBotEl0 cpu).toNat)).toNat = p.toNat
    rw [if_pos, BitVec.toNat_add, BitVec.toNat_ofNat]
    · omega
    · intro h
      rw [h] at hbot
      omega

/-- The table of another CPU has no such addresses. -/
theorem spaceAt_hidden (hcpu : cpu < 4) (hcpu' : cpu' < 4) (hne : cpu' ≠ cpu) (hp : b.OnPysStack cpu p) :
    spaceAt (b.regions false cpu') (b.switchToVmStack cpu p).toNat = none := by
  obtain ⟨h₁, h₂, h₃⟩ := onPysStack_toNat hcpu hp
  obtain ⟨hw₀, hw₁, hw₂, hw₃, hw₄⟩ := Board.window_toNat hcpu'
  obtain ⟨_, _, hl⟩ := b.layout_toNat
  have h₄ := b.mem_top
  have h₅ := b.text_data
  have h₆ := b.data_le
  have h₇ := b.data_sections
  have hio : b.topOfIo.toNat ≤ 2 ^ 34 := b.io_low
  have hharness : harnessMmapBase.toNat = 2 ^ 36 := rfl
  refine spaceAt_of_not ?_
  show ∀ reg ∈ [(b.sharedMap .mmapIo).region, (b.sharedMap .text).region, (b.sharedMap .data).region,
    (b.sharedMap .stack).region, (b.sharedMap .heap).region, (b.sharedMap .ptables).region,
    (b.extraUniversal .testdata).region, (b.perThreadData cpu' .mmapStackEl0).region,
    (b.perThreadData cpu' .mmapStackEl1).region, (b.perThreadData cpu' .mmapVtable).region,
    (b.harnessMap .mmapHarness).region], _
  simp only [List.forall_mem_cons, List.not_mem_nil, false_implies, implies_true, and_true, VMRegion.Has,
    Board.sharedMap, Board.extraUniversal, Board.perThreadData, Board.harnessMap]
  omega

end Places

/-! ## The stack stays where it is -/

section Stays

variable {b : Board} {cpu : Nat} {st st' : PtableState} {c : CpuVm} {p root : U64} {r r' : CpuRun} {s s' : VmSystem}

/-- The stack pointer has one of the two addresses of the stack. -/
structure CpuVm.Placed (b : Board) (cpu : Nat) (st : PtableState) (c : CpuVm) (p : U64) : Prop where
  pys : b.OnPysStack cpu p
  on : c.mmuOn = true → st.Usable b cpu c.ttbr ∧ (c.sp = p ∨ c.sp = b.switchToVmStack cpu p)
  off : c.mmuOn = false → c.sp = p

/-- Between two calls it has the right one. -/
structure CpuVm.Settled (b : Board) (cpu : Nat) (st : PtableState) (c : CpuVm) (p : U64) : Prop where
  pys : b.OnPysStack cpu p
  on : c.mmuOn = true → st.Usable b cpu c.ttbr ∧ c.sp = b.switchToVmStack cpu p
  off : c.mmuOn = false → c.sp = p
  flag : c.mmuEnabled = if c.mmuOn then 1 else 0

/-- The CPU is placed before each of the instructions, and after the last one the call is done. -/
def CpuVm.Safe (b : Board) (cpu : Nat) (st : PtableState) (p : U64) : List Board.VmInstr → CpuVm → Prop
  | [], c => c.Settled b cpu st p
  | i :: l, c => c.Placed b cpu st p ∧ CpuVm.Safe b cpu st p l (i.exec b cpu c)

theorem CpuVm.Settled.placed (h : c.Settled b cpu st p) : c.Placed b cpu st p :=
  ⟨h.pys, fun hon => ⟨(h.on hon).1, .inr (h.on hon).2⟩, h.off⟩

theorem CpuVm.Safe.placed {l : List Board.VmInstr} (h : c.Safe b cpu st p l) : c.Placed b cpu st p := by
  cases l with
  | nil => exact CpuVm.Settled.placed h
  | cons i l => exact h.1

/-! ### In the memory -/

/-- What a usable table gives. -/
theorem PtableState.Usable.fst_translation (h : st.Usable b cpu root) (hst : st.Ok b) {x : U64} (hx : x.toNat < 2 ^ 48) :
    ∃ isTest, (translation st.vmm.mem root x).map Prod.fst = (spaceAt (b.regions isTest cpu) x.toNat).map Prod.fst := by
  obtain ⟨T, hT, rfl, isTest, hregs⟩ := h
  refine ⟨isTest, ?_⟩
  rw [(hst.tables T hT).exact.mapped.translation_eq hx, hregs]

/-- Both addresses lead to the same place. -/
theorem CpuVm.Placed.stackAt (h : c.Placed b cpu st p) (hcpu : cpu < 4) (hst : st.Ok b) :
    c.stackAt st.vmm.mem = some p := by
  obtain ⟨h₁, h₂, h₃⟩ := onPysStack_toNat hcpu h.pys
  have hlow := b.stack_low
  unfold CpuVm.stackAt
  cases hm : c.mmuOn with
  | false =>
    rw [h.off hm]
    rfl
  | true =>
    rw [if_pos rfl]
    obtain ⟨hroot, hsp | hsp⟩ := h.on hm
    · rw [hsp]
      obtain ⟨isTest, ht⟩ := hroot.fst_translation hst (show p.toNat < 2 ^ 48 by omega)
      rw [ht, spaceAt_pys hcpu hcpu h.pys]
    · rw [hsp]
      obtain ⟨isTest, ht⟩ := hroot.fst_translation hst (show (b.switchToVmStack cpu p).toNat < 2 ^ 48 by omega)
      rw [ht, spaceAt_vm hcpu h.pys]

theorem isUsingVmStack_vm (hcpu : cpu < 4) (hp : b.OnPysStack cpu p) :
    Board.isUsingVmStack cpu (b.switchToVmStack cpu p) = true := by
  obtain ⟨h₁, h₂, h₃⟩ := onPysStack_toNat hcpu hp
  obtain ⟨hw₀, hw₁, -⟩ := Board.window_toNat hcpu
  simp only [Board.isUsingVmStack, Bool.and_eq_true, decide_eq_true_iff, BitVec.le_def, BitVec.lt_def]
  omega

theorem isUsingVmStack_pys (hcpu : cpu < 4) (hp : b.OnPysStack cpu p) : Board.isUsingVmStack cpu p = false := by
  obtain ⟨h₁, h₂, -⟩ := onPysStack_toNat hcpu hp
  obtain ⟨hw₀, -⟩ := Board.window_toNat hcpu
  have hlow := b.stack_low
  rw [Board.isUsingVmStack, Bool.and_eq_false_iff, decide_eq_false_iff_not, BitVec.le_def]
  exact .inl (by omega)

/-! ### Calls -/

theorem switchToPysStack_vm (b : Board) (cpu : Nat) (p : U64) :
    b.switchToPysStack cpu (b.switchToVmStack cpu p) = p := by
  rw [Board.switchToPysStack, Board.switchToVmStack, BitVec.add_sub_cancel, BitVec.sub_add_cancel]

theorem exec_toPysStack (hsp : c.sp = b.switchToVmStack cpu p) :
    Board.VmInstr.exec b cpu c .toPysStack = { c with sp := p } := by
  show ({ c with sp := b.switchToPysStack cpu c.sp } : CpuVm) = _
  rw [hsp, switchToPysStack_vm]

theorem placed_on {sp : U64} {v w : BitVec 8} (hp : b.OnPysStack cpu p) (hroot : st.Usable b cpu root)
    (hsp : sp = p ∨ sp = b.switchToVmStack cpu p) : CpuVm.Placed b cpu st ⟨sp, true, root, v, w⟩ p :=
  ⟨hp, fun _ => ⟨hroot, hsp⟩, fun hoff => Bool.noConfusion hoff⟩

theorem placed_off {v w : BitVec 8} (hp : b.OnPysStack cpu p) : CpuVm.Placed b cpu st ⟨p, false, root, v, w⟩ p :=
  ⟨hp, fun hon => Bool.noConfusion hon, fun _ => rfl⟩

/-- The MMU is switched off after the stack pointer is back. -/
theorem safe_mmuOff (h : c.Settled b cpu st p) (hon : c.mmuOn = true) : c.Safe b cpu st p Board.vmmMmuOff := by
  obtain ⟨hroot, hsp⟩ := h.on hon
  refine ⟨h.placed, ?_⟩
  rw [exec_toPysStack hsp]
  exact ⟨⟨h.pys, fun _ => ⟨hroot, .inl rfl⟩, fun _ => rfl⟩, placed_off h.pys, h.pys, fun hon => Bool.noConfusion hon,
    fun _ => rfl, rfl⟩

/-- The MMU is switched on before the stack pointer moves. -/
theorem safe_setNewTtable (h : c.Settled b cpu st p) (hoff : c.mmuOn = false) (hroot : st.Usable b cpu root) :
    c.Safe b cpu st p (.msrTtbr root :: Board.vmmMmuOn) := by
  have hsp := h.off hoff
  obtain ⟨sp, mmuOn, ttbr, mmuEnabled, lockingEnabled⟩ := c
  cases hsp
  cases hoff
  exact ⟨h.placed, placed_off h.pys, placed_on h.pys hroot (.inl rfl), placed_on h.pys hroot (.inl rfl), h.pys,
    fun _ => ⟨hroot, rfl⟩, fun hoff => Bool.noConfusion hoff, rfl⟩

/-- Whether the MMU is on or not. -/
theorem safe_ensure (hcpu : cpu < 4) (h : c.Settled b cpu st p) (hroot : st.Usable b cpu root) :
    c.Safe b cpu st p (Board.vmmEnsureInHarnessPgtableCtx root) := by
  obtain ⟨sp, mmuOn, ttbr, mmuEnabled, lockingEnabled⟩ := c
  cases mmuOn with
  | false =>
    have hsp : sp = p := h.off rfl
    subst hsp
    refine ⟨h.placed, placed_off h.pys, placed_on h.pys hroot (.inl rfl), placed_on h.pys hroot (.inl rfl), ?_⟩
    simp only [Board.VmInstr.exec, isUsingVmStack_pys hcpu h.pys, Bool.not_false, if_true]
    exact ⟨h.pys, fun _ => ⟨hroot, rfl⟩, fun hoff => Bool.noConfusion hoff, rfl⟩
  | true =>
    have hsp : sp = b.switchToVmStack cpu p := (h.on rfl).2
    refine ⟨h.placed, placed_on h.pys hroot (.inr hsp), placed_on h.pys hroot (.inr hsp),
      placed_on h.pys hroot (.inr hsp), ?_⟩
    have husing : Board.isUsingVmStack cpu sp = true := by rw [hsp, isUsingVmStack_vm hcpu h.pys]
    simp only [Board.VmInstr.exec, husing, Bool.not_true, Bool.false_eq_true, if_false]
    exact ⟨h.pys, fun _ => ⟨hroot, hsp⟩, fun hoff => Bool.noConfusion hoff, rfl⟩

theorem safe_switch (h : c.Settled b cpu st p) (hroot : st.Usable b cpu root) :
    c.Safe b cpu st p (Board.vmmSwitchTtable root) :=
  ⟨h.placed, h.pys, fun hon => ⟨hroot, (h.on hon).2⟩, h.off, h.flag⟩

theorem CpuVm.Settled.move {d : U64} (h : c.Settled b cpu st p) (hp : b.OnPysStack cpu (p + d)) :
    CpuVm.Settled b cpu st { c with sp := c.sp + d } (p + d) := by
  refine ⟨hp, fun hon => ⟨(h.on hon).1, ?_⟩, fun hoff => congrArg (· + d) (h.off hoff), h.flag⟩
  show c.sp + d = _
  rw [(h.on hon).2, Board.switchToVmStack, Board.switchToVmStack]
  grind

/-! ### Steps -/

theorem safe_step (hcpu : cpu < 4) (h : r.c.Safe b cpu st r.pys r.todo) (hs : CpuStep b cpu st r r') :
    r'.c.Safe b cpu st r'.pys r'.todo := by
  cases hs with
  | exec => exact h.2
  | setId hroot hnull hl =>
    unfold Board.vmmSetIdTranslation Board.setNewTtable at hl
    rw [if_neg hnull] at hl
    split at hl
    case isTrue => cases hl
    case isFalse hoff =>
      cases hl
      exact safe_setNewTtable h (Bool.eq_false_iff.mpr hoff) hroot
  | off hon hl =>
    cases hl
    exact safe_mmuOff h hon
  | ensure hroot => exact safe_ensure hcpu h hroot
  | switch hroot => exact safe_switch h hroot
  | move hp => exact h.move hp

/-- An instruction leaves the table, but for the one that sets it. -/
theorem ttbr_exec (i : Board.VmInstr) : (i.exec b cpu c).ttbr = c.ttbr ∨ i = .msrTtbr (i.exec b cpu c).ttbr := by
  obtain ⟨sp, mmuOn, ttbr, mmuEnabled, lockingEnabled⟩ := c
  -- the table is named: else the stack pointers would be compared first
  show _ = ttbr ∨ _
  cases i with
  | msrTtbr root => exact .inr rfl
  | ensureVmStack =>
    refine .inl ?_
    rw [Board.VmInstr.exec]
    split <;> rfl
  | toVmStack => exact .inl rfl
  | toPysStack => exact .inl rfl
  | msrSctlr m => exact .inl rfl
  | setInfo v => exact .inl rfl

/-- The rest of a call uses no other table than the call. -/
theorem CpuRun.Uses.of_exec {i : Board.VmInstr} {l : List Board.VmInstr}
    (h : CpuRun.Uses ⟨i.exec b cpu c, l, p⟩ root) : CpuRun.Uses ⟨c, i :: l, p⟩ root := by
  rcases h with ⟨rfl, -⟩ | h
  · rcases @ttbr_exec b cpu c i with he | he
    · exact .inl ⟨he.symm, .inr (List.cons_ne_nil _ _)⟩
    · exact .inr (List.mem_cons.mpr (.inl he.symm))
  · exact .inr (.tail _ h)

/-- Other tables may come and go. -/
theorem CpuVm.Safe.of_used {l : List Board.VmInstr} (h : c.Safe b cpu st p l)
    (hused : ∀ root, CpuRun.Uses ⟨c, l, p⟩ root → st'.Usable b cpu root) : c.Safe b cpu st' p l := by
  induction l generalizing c with
  | nil => exact ⟨h.pys, fun hon => ⟨hused _ (.inl ⟨rfl, .inl hon⟩), (h.on hon).2⟩, h.off, h.flag⟩
  | cons i l ih =>
    obtain ⟨hplaced, hrest⟩ := h
    refine ⟨⟨hplaced.pys, fun hon => ⟨hused _ (.inl ⟨rfl, .inl hon⟩), (hplaced.on hon).2⟩, hplaced.off⟩, ?_⟩
    exact ih hrest fun root hr => hused root hr.of_exec

/-- The invariant: the tables are as they were made, and each CPU has its stack. -/
structure VmSystem.Ok (b : Board) (s : VmSystem) : Prop where
  st : s.st.Ok b
  cpus : ∀ i : Fin 4, (s.cpus i).c.Safe b i s.st (s.cpus i).pys (s.cpus i).todo

theorem VmSystem.Ok.init (hst : s.st.Init b) (hcpus : ∀ i : Fin 4, (s.cpus i).Init b i) : s.Ok b := by
  refine ⟨hst.ok, fun i => ?_⟩
  obtain ⟨hoff, hflag, htodo, hsp, hp⟩ := hcpus i
  rw [htodo]
  refine ⟨hp, fun hon => ?_, fun _ => hsp, by rw [hflag, hoff]; rfl⟩
  rw [hoff] at hon
  cases hon

theorem VmSystem.Ok.step (h : s.Ok b) (hs : VmStep b s s') : s'.Ok b := by
  cases hs with
  | @cpu i r hr =>
    refine ⟨h.st, fun j => ?_⟩
    dsimp only
    by_cases hij : j = i
    · subst hij
      rw [Function.update_self]
      exact safe_step j.isLt (h.cpus j) hr
    · rw [Function.update_of_ne hij]
      exact h.cpus j
  | tables hst hused => exact ⟨h.st.step hst, fun i => (h.cpus i).of_used (hused i)⟩

theorem VmSystem.ok_of_reachable (h : VmReachable b s) : s.Ok b :=
  h.inv (fun _ h => .init h.1 h.2) fun _ _ h hs => h.step hs

/-- **The stack stays where it is**: at each instruction of each CPU the stack pointer leads to the same place on the
CPU's own physical stack, however the steps of the CPUs and of the tables interleave. Between the calls it has an address
of its own whenever the MMU is on, which no other CPU's table has. -/
theorem stack_stays (h : VmReachable b s) (i : Fin 4) :
    b.OnPysStack i (s.cpus i).pys ∧ (s.cpus i).c.stackAt s.st.vmm.mem = some (s.cpus i).pys ∧
    ((s.cpus i).todo = [] → (s.cpus i).c.mmuEnabled = (if (s.cpus i).c.mmuOn then 1 else 0) ∧
      Board.isUsingVmStack i (s.cpus i).c.sp = (s.cpus i).c.mmuOn ∧
      ((s.cpus i).c.mmuOn = true → ∀ T ∈ s.st.tables, ∀ j : Fin 4, j ≠ i → T.regs = b.regions false j →
        translation s.st.vmm.mem T.root (s.cpus i).c.sp = none)) := by
  have hok := VmSystem.ok_of_reachable h
  have hsafe := hok.cpus i
  refine ⟨hsafe.placed.pys, hsafe.placed.stackAt i.isLt hok.st, fun htodo => ?_⟩
  rw [htodo] at hsafe
  refine ⟨hsafe.flag, ?_, fun hon T hT j hne hregs => ?_⟩
  · cases hm : (s.cpus i).c.mmuOn with
    | false => rw [hsafe.off hm, isUsingVmStack_pys i.isLt hsafe.pys]
    | true => rw [(hsafe.on hm).2, isUsingVmStack_vm i.isLt hsafe.pys]
  · obtain ⟨-, h₂, h₃⟩ := onPysStack_toNat i.isLt hsafe.pys
    have hlow := b.stack_low
    rw [(hsafe.on hon).2, (hok.st.tables T hT).exact.mapped.translation_eq (by omega), hregs,
      spaceAt_hidden i.isLt j.isLt (fun hij => hne (Fin.ext hij)) hsafe.pys]

/-- The CPUs may wait while the tables are made. -/
theorem vmReachable_of_tables (h : PtableReachable b st) {cpus : Fin 4 → CpuRun} (hcpus : ∀ i : Fin 4, (cpus i).Init b i) :
    VmReachable b ⟨st, cpus⟩ := by
  induction h with
  | init h => exact .init ⟨h, hcpus⟩
  | step _ hs ih =>
    refine ih.step (.tables hs fun i root huses => ?_)
    obtain ⟨hoff, -, htodo, -⟩ := hcpus i
    rcases huses with ⟨-, hon | hne⟩ | hmem
    · rw [hoff] at hon
      cases hon
    · exact absurd htodo hne
    · rw [htodo] at hmem
      cases hmem

/-- One CPU may run while the others wait. -/
theorem vmReachable_of_cpu (h : VmReachable b s) {i : Fin 4}
    (hrun : Relation.ReflTransGen (CpuStep b i s.st) (s.cpus i) r) :
    VmReachable b { s with cpus := Function.update s.cpus i r } := by
  induction hrun with
  | refl => rwa [Function.update_eq_self]
  | @tail r r' _ hs ih =>
    have hstep : VmStep b { s with cpus := Function.update s.cpus i r }
        { s with cpus := Function.update (Function.update s.cpus i r) i r' } :=
      .cpu (by dsimp only; rwa [Function.update_self])
    rw [Function.update_idem] at hstep
    exact ih.step hstep

/-- The tables of two CPUs, and CPU 0 after its first call. -/
theorem stack_stays_boot : ∃ s : VmSystem, VmReachable exampleBoard s ∧
    s.st.tables.map PgTable.regs = [exampleBoard.regions false 1, exampleBoard.regions false 0] ∧
    (s.cpus 0).c.mmuOn = true ∧ (s.cpus 0).todo = [] ∧
    (exampleBoard.OnPysStack 0 (s.cpus 0).pys ∧ (s.cpus 0).c.stackAt s.st.vmm.mem = some (s.cpus 0).pys ∧
    ((s.cpus 0).todo = [] → (s.cpus 0).c.mmuEnabled = (if (s.cpus 0).c.mmuOn then 1 else 0) ∧
      Board.isUsingVmStack 0 (s.cpus 0).c.sp = (s.cpus 0).c.mmuOn ∧
      ((s.cpus 0).c.mmuOn = true → ∀ T ∈ s.st.tables, ∀ j : Fin 4, j ≠ 0 → T.regs = exampleBoard.regions false j →
        translation s.st.vmm.mem T.root (s.cpus 0).c.sp = none))) := by
  have hinit : PtableState.Init exampleBoard
      ⟨initVallocPtable exampleBoard.layout.botOfPtables ⟨fun _ => 0, 0⟩, none, []⟩ := ⟨_, rfl⟩
  have hreach : PtableReachable exampleBoard _ := .init hinit
  obtain ⟨st, hrun, -, htables, -⟩ := tables_made (by decide) hinit.ok [(false, 0), (false, 1)] (by decide) (by decide)
  have hst := reachable_of_run hreach (run_of_test hrun)
  obtain ⟨T, hT, hregs⟩ : ∃ T ∈ st.tables, T.regs = exampleBoard.regions false 0 :=
    List.mem_map.mp (by rw [htables]; exact .tail _ (.head _))
  have hnull : T.root ≠ 0 := by
    intro h
    have hbot := ((PtableState.ok_of_reachable hst).tables T hT).bot
    rw [h] at hbot
    exact absurd hbot (by decide)
  let cpus : Fin 4 → CpuRun := fun i =>
    ⟨⟨exampleBoard.stackArea.threadBot i 0, false, 0, 0, 0⟩, [], exampleBoard.stackArea.threadBot i 0⟩
  have hcpus : ∀ i : Fin 4, (cpus i).Init exampleBoard i := fun i =>
    ⟨rfl, rfl, rfl, rfl, BitVec.le_refl _, (by decide : ∀ i : Fin 4, exampleBoard.stackArea.threadBot i 0 <
      exampleBoard.stackArea.threadTop i 0) i⟩
  have h₁ : CpuStep exampleBoard (0 : Fin 4) st (cpus 0) ⟨(cpus 0).c, .msrTtbr T.root :: Board.vmmMmuOn, (cpus 0).pys⟩ :=
    .setId ⟨T, hT, rfl, false, hregs⟩ hnull (by rw [Board.vmmSetIdTranslation, if_neg hnull]; rfl)
  have h₂ := (((Relation.ReflTransGen.single h₁).tail .exec).tail .exec).tail .exec |>.tail .exec
  have h₃ := vmReachable_of_cpu (vmReachable_of_tables hst hcpus) h₂
  exact ⟨_, h₃, htables, rfl, rfl, stack_stays h₃ 0⟩

end Stays

end LitmusHarness
