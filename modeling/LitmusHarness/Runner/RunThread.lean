import LitmusHarness.Sync.Barrier
import LitmusHarness.Vmm.EnsureLevel
import Mathlib.Logic.Equiv.Defs

/-!
# The threads of a test: `run_thread` of `litmus_test.c`

`step` is one access of one CPU to what the CPUs share, in any order with those of the others; `stepTo_of_step` lists
what it can be. The code of a test is not fixed: while its functions are called, a thread writes any values anywhere.
`pretest` and `pretestBatch` are not in the source: they remember the page tables as `allocate_data_for_batch` left them,
and the batch for which it did.
-/

namespace LitmusHarness

open Vmsa (Mem)

/-! ## The entries of a batch -/

/-- A test, and how it is run. -/
structure RunConfig where
  noThreads : Nat
  noRuns : Nat
  batchSize : Nat
  noHeapVars : Nat
  /-- `ptable_from_run(ctx, i)`, by the run count -/
  root : Nat → U64
  /-- `ctx_heap_var_va(ctx, v, i)`, by the run count and the variable -/
  va : Nat → Nat → U64

namespace RunConfig

variable (cfg : RunConfig)

/-- `batch_end_idx`. -/
def batchEnd (batchStart : Nat) : Nat := min (batchStart + cfg.batchSize) cfg.noRuns

/-- How many entries are saved for a batch: for each run and variable the four levels. -/
def noSaved (batchStart : Nat) : Nat := (cfg.batchEnd batchStart - batchStart) * (cfg.noHeapVars * 4)

/-! The saved entries are numbered in the order in which `setup_run_data` goes through them. -/

/-- The run of the `k`-th entry. -/
def savedRun (batchStart k : Nat) : Nat := batchStart + k / (cfg.noHeapVars * 4)

/-- Its page table. -/
def savedRoot (batchStart k : Nat) : U64 := cfg.root (cfg.savedRun batchStart k)

/-- The address of its variable. -/
def savedVa (batchStart k : Nat) : U64 := cfg.va (cfg.savedRun batchStart k) (k % (cfg.noHeapVars * 4) / 4)

/-- `vmm_pte_at_level` for the `k`-th entry, in tables that already go down to level 3. -/
def savedEntry (mem : Mem) (batchStart k : Nat) : U64 :=
  (vmmTranslationWalkToLevel mem (cfg.savedRoot batchStart k) (cfg.savedVa batchStart k) (k % 4)).src.getD 0

end RunConfig

/-- The walk from the table `t` of level `l` on finds `n` more tables. -/
def hasTables (mem : Mem) (va : U64) : Nat → Nat → U64 → Bool
  | 0, _, _ => true
  | n + 1, l, t =>
    let desc := readDesc (mem (entryPtr t va l)) l
    decide (desc.type = .table) && hasTables mem va n (l + 1) desc.addr

/-- The tables of a batch, as `set_init_pte` leaves them: each variable has its level-3 entry. -/
def RunConfig.Mapped (cfg : RunConfig) (mem : Mem) (batchStart : Nat) : Prop :=
  ∀ k < cfg.noSaved batchStart,
    hasTables mem (cfg.savedVa batchStart k) 3 0 (cfg.savedRoot batchStart k) = true

instance (cfg : RunConfig) (mem : Mem) (batchStart : Nat) : Decidable (cfg.Mapped mem batchStart) := by
  unfold RunConfig.Mapped
  infer_instance

/-! ## The state -/

/-- The place in `vmm_update_pte`. -/
inductive UpdatePc
  /-- `*pte > 0` -/
  | test
  /-- `write_release(pte, 0)` -/
  | zero
  /-- `write_release(pte, new_val)` -/
  | write
  deriving DecidableEq, Repr

/-- The place of a CPU in its thread. -/
inductive Pc
  /-- `BWAIT` of `start_of_thread` -/
  | startOfThread
  /-- `j < ctx->no_runs` -/
  | loop
  /-- `ensure_new_affinity` on CPU 0 -/
  | newAffinity
  | waitAffinity
  | getAffinity
  /-- `allocate_data_for_batch` -/
  | allocate
  | waitAllocate
  /-- The loops of `setup_run_data`, at the `k`-th entry -/
  | setup (k : Nat)
  /-- `LOCK(&_vmm_lock)` of `vmm_ensure_level` -/
  | ensureLock (k : Nat)
  /-- `read_desc(*p, level)` -/
  | ensure (k level : Nat) (current : U64)
  /-- `zalloc_ptable`, for a missing table -/
  | ensureAlloc (k level : Nat) (current : U64) (desc : Desc)
  /-- `vmm_update_pte` of its `i`-th entry -/
  | ensureFill (k level : Nat) (current : U64) (desc : Desc) (pg : U64) (i : Nat) (u : UpdatePc)
  /-- `vmm_update_pte` of the entry for it -/
  | ensureLink (k level : Nat) (current pg : U64) (u : UpdatePc)
  | ensureUnlock (k : Nat)
  /-- `read_desc(*p, level)` of `vmm_translation_walk_to_level` -/
  | walk (k level : Nat) (root : U64)
  /-- `*run->tt_entries[v][lvl]` -/
  | setupDesc (k : Nat)
  /-- `j < batch_end_idx` -/
  | runLoop
  /-- `start_of_run` and `pre` -/
  | pre
  /-- `BWAIT` on `start_barriers[bi]` -/
  | waitStart
  | func
  | post
  /-- `BWAIT` on `generic_vcpu_barrier` -/
  | waitEnd
  /-- `BWAIT` at `run_thread_after_execution` -/
  | waitRun
  /-- The loops of `clean_run_data` -/
  | clean (k : Nat)
  | cleanUpdate (k : Nat) (u : UpdatePc)
  /-- `BWAIT` of `end_of_thread` -/
  | endOfThread
  | done
  deriving DecidableEq, Repr

/-- The local state of a CPU. `bw` is its place in `bwait`, while it is in one. -/
structure Cpu where
  pc : Pc := .startOfThread
  bw : BwaitPc := .acquire
  vcpu : Nat := 0
  j : Nat := 0
  batchStart : Nat := 0
  ttEntries : Nat → U64 := fun _ => 0
  ttDescs : Nat → U64 := fun _ => 0

/-- The barriers of a test. -/
inductive BarId
  | cpu
  | vcpu
  | start (bi : Nat)
  deriving DecidableEq, Repr

/-- The CPUs and what they share. `lock` and `vmmLock` are the holders of `bwait_lock` and `_vmm_lock`. -/
structure RunState (n : Nat) where
  mem : Mem
  bars : BarId → Bar := fun _ => emptyBar
  lock : Option (Fin n) := none
  vmmLock : Option (Fin n) := none
  affinity : Equiv.Perm (Fin n) := Equiv.refl _
  cpus : Fin n → Cpu := fun _ => {}
  pretest : Mem := mem
  pretestBatch : Nat := 0

/-- The CPUs before they start, on any tables. -/
def RunInit {n : Nat} (s : RunState n) : Prop := ∃ mem, s = { mem := mem }

/-! ## Steps of a CPU on its own -/

namespace Cpu

variable (cfg : RunConfig) (mem : Mem) (cpu : Cpu)

/-- The barrier at which a CPU of `n` waits, and for how many. -/
def waitsAt (n : Nat) : Option (BarId × Nat) :=
  match cpu.pc with
  | .startOfThread | .waitAffinity | .waitAllocate | .waitRun | .endOfThread => some (.cpu, n)
  | .waitStart => some (.start (cpu.j - cpu.batchStart), cfg.noThreads)
  | .waitEnd => some (.vcpu, cfg.noThreads)
  | _ => none

/-- The call of `bwait`. -/
def enter (pc : Pc) : Cpu := { cpu with pc := pc, bw := .acquire }

/-- The CPU after it returned from `bwait`. -/
def afterWait : Cpu :=
  match cpu.pc with
  | .startOfThread => { cpu with pc := .loop }
  | .waitAffinity => { cpu with pc := .getAffinity }
  | .waitAllocate => { cpu with pc := .setup 0 }
  | .waitStart => { cpu with pc := .func }
  | .waitEnd => cpu.enter .waitRun
  | .waitRun => { cpu with pc := .runLoop, j := cpu.j + 1 }
  | .endOfThread => { cpu with pc := .done }
  | _ => cpu

/-- The CPU after the code of the test returned. -/
def afterTest : Option Cpu :=
  match cpu.pc with
  | .pre => some (cpu.enter .waitStart)
  | .func => some { cpu with pc := .post }
  | .post => some (cpu.enter .waitEnd)
  | _ => none

/-- One access of `vmm_update_pte`: the word that it stores, and its next access. -/
def updateStep (pte newVal : U64) : UpdatePc → Option (U64 × U64) × Option UpdatePc
  | .test => (none, some (if mem pte > 0 then .zero else .write))
  | .zero => (some (pte, 0), some .write)
  | .write => (some (pte, newVal), none)

/-- A step that depends on the CPU and the page tables only: the CPU after it, and the word that it stores. -/
def step : Option (Cpu × Option (U64 × U64)) :=
  match cpu.pc with
  | .loop =>
    if cpu.j < cfg.noRuns then some ({ cpu with pc := .newAffinity, batchStart := cpu.j }, none)
    else some (cpu.enter .endOfThread, none)
  | .setup k =>
    if k < cfg.noSaved cpu.batchStart then some ({ cpu with pc := .ensureLock k }, none)
    else some ({ cpu with pc := .runLoop }, none)
  | .ensure k level current =>
    if level < 3 then
      let desc := readDesc (mem (entryPtr current (cfg.savedVa cpu.batchStart k) level)) level
      if desc.type = .table then some ({ cpu with pc := .ensure k (level + 1) desc.addr }, none)
      else some ({ cpu with pc := .ensureAlloc k level current desc }, none)
    else some ({ cpu with pc := .ensureUnlock k }, none)
  | .ensureFill k level current desc pg i u =>
    if i < 512 then
      let (w, next) := updateStep mem (pg + 8 * BitVec.ofNat 64 i) (writeDesc desc) u
      match next with
      | some u => some ({ cpu with pc := .ensureFill k level current desc pg i u }, w)
      | none => some ({ cpu with pc := .ensureFill k level current desc pg (i + 1) .test }, w)
    else some ({ cpu with pc := .ensureLink k level current pg .test }, none)
  | .ensureLink k level current pg u =>
    let (w, next) := updateStep mem (entryPtr current (cfg.savedVa cpu.batchStart k) level)
      (writeDesc { type := .table, level := level, addr := pg }) u
    match next with
    | some u => some ({ cpu with pc := .ensureLink k level current pg u }, w)
    | none => some ({ cpu with pc := .ensure k (level + 1) pg }, w)
  | .walk k level root =>
    let p := entryPtr root (cfg.savedVa cpu.batchStart k) level
    let desc := readDesc (mem p) level
    if desc.type = .invalid ∨ desc.type = .block ∨ level = k % 4 then
      some ({ cpu with pc := .setupDesc k, ttEntries := Function.update cpu.ttEntries k p }, none)
    else some ({ cpu with pc := .walk k (level + 1) desc.addr }, none)
  | .setupDesc k =>
    some ({ cpu with
      pc := .setup (k + 1), ttDescs := Function.update cpu.ttDescs k (mem (cpu.ttEntries k)) }, none)
  | .runLoop =>
    if cpu.j < cfg.batchEnd cpu.batchStart then
      if cpu.vcpu ≥ cfg.noThreads then some (cpu.enter .waitRun, none) else some ({ cpu with pc := .pre }, none)
    else some ({ cpu with pc := .clean 0 }, none)
  | .clean k =>
    if k < cfg.noSaved cpu.batchStart then some ({ cpu with pc := .cleanUpdate k .test }, none)
    else some ({ cpu with pc := .loop }, none)
  | .cleanUpdate k u =>
    let (w, next) := updateStep mem (cpu.ttEntries k) (cpu.ttDescs k) u
    match next with
    | some u => some ({ cpu with pc := .cleanUpdate k u }, w)
    | none => some ({ cpu with pc := .clean (k + 1) }, w)
  | _ => none

end Cpu

/-- The code of the test is being called. -/
def Pc.inTest : Pc → Bool
  | .pre | .func | .post => true
  | _ => false

/-! ## Steps of the system -/

/-- What a step leaves open. -/
inductive RunAction (n : Nat)
  /-- Nothing: the step is given by the state. -/
  | tick
  /-- The shuffled `ctx->affinity` (with `AFF_NONE` it is the identity). -/
  | affinity (σ : Equiv.Perm (Fin n))
  /-- The tables with the initial state of the batch. -/
  | allocate (mem : Mem)
  /-- The page that `zalloc_ptable` returns. -/
  | page (pg : U64)
  /-- A write of the code of the test. -/
  | write (addr val : U64)
  /-- The return from the code of the test. -/
  | return

section Step

variable {n : Nat} (cfg : RunConfig) (s : RunState n) (c : Fin n)

/-- The CPU `c` goes on as `cpu`. -/
def RunState.setCpu (s : RunState n) (c : Fin n) (cpu : Cpu) : RunState n :=
  { s with cpus := Function.update s.cpus c cpu }

/-- The word of a step is stored. -/
def RunState.store (s : RunState n) (w : Option (U64 × U64)) : RunState n :=
  match w with
  | none => s
  | some (addr, val) => { s with mem := LitmusHarness.store s.mem addr val }

/-- A step in `bwait(_, b, sz)`. -/
def waitStep (b : BarId) (sz : Nat) : Option (RunState n) :=
  let cpu := s.cpus c
  if cpu.bw = .done then some (s.setCpu c cpu.afterWait)
  else
    let (bar, op, bw) := bwaitStep true sz (s.bars b) cpu.bw
    if op = .acquire ∧ s.lock ≠ none then none
    else some { s.setCpu c { cpu with bw := bw } with
      bars := Function.update s.bars b bar, lock := op.apply c s.lock }

/-- A step that the state gives. -/
def tickStep : Option (RunState n) :=
  let cpu := s.cpus c
  match cpu.waitsAt cfg n with
  | some (b, sz) => waitStep s c b sz
  | none =>
    match cpu.pc with
    | .newAffinity => if c.val = 0 then none else some (s.setCpu c (cpu.enter .waitAffinity))
    | .getAffinity => some (s.setCpu c { cpu with pc := .allocate, vcpu := s.affinity c })
    | .allocate => if cpu.vcpu = 0 then none else some (s.setCpu c (cpu.enter .waitAllocate))
    | .ensureLock k =>
      if s.vmmLock = none then
        some { s.setCpu c { cpu with pc := .ensure k 0 (cfg.savedRoot cpu.batchStart k) } with vmmLock := some c }
      else none
    | .ensureUnlock k =>
      some { s.setCpu c { cpu with pc := .walk k 0 (cfg.savedRoot cpu.batchStart k) } with vmmLock := none }
    | _ =>
      match cpu.step cfg s.mem with
      | some (cpu, w) => some ((s.store w).setCpu c cpu)
      | none => none

/-- One access of the CPU `c`. -/
def step (a : RunAction n) : Option (RunState n) :=
  let cpu := s.cpus c
  match a with
  | .tick => tickStep cfg s c
  | .affinity σ =>
    if cpu.pc = .newAffinity ∧ c.val = 0 then some { s.setCpu c (cpu.enter .waitAffinity) with affinity := σ } else none
  | .allocate mem =>
    if cpu.pc = .allocate ∧ cpu.vcpu = 0 ∧ cfg.Mapped mem cpu.batchStart then
      some { s.setCpu c (cpu.enter .waitAllocate) with
        mem := mem, pretest := mem, pretestBatch := cpu.batchStart }
    else none
  | .page pg =>
    match cpu.pc with
    | .ensureAlloc k level current desc =>
      some { s.setCpu c { cpu with pc := .ensureFill k level current desc pg 0 .test } with
        mem := fun a => if (a - pg).toNat < 4096 then 0 else s.mem a }
    | _ => none
  | .write addr val => if cpu.pc.inTest then some (s.store (some (addr, val))) else none
  | .return =>
    match cpu.afterTest with
    | some cpu => some (s.setCpu c cpu)
    | none => none

/-- What a step of the CPU `c` can be. -/
inductive StepTo : RunState n → Prop
  | wait {b : BarId} {sz : Nat} (hb : (s.cpus c).waitsAt cfg n = some (b, sz)) (hbw : (s.cpus c).bw ≠ .done)
      (hlock : (bwaitStep true sz (s.bars b) (s.cpus c).bw).2.1 = .acquire → s.lock = none) :
      StepTo { s.setCpu c { s.cpus c with bw := (bwaitStep true sz (s.bars b) (s.cpus c).bw).2.2 } with
        bars := Function.update s.bars b (bwaitStep true sz (s.bars b) (s.cpus c).bw).1
        lock := (bwaitStep true sz (s.bars b) (s.cpus c).bw).2.1.apply c s.lock }
  | leave {b : BarId} {sz : Nat} (hb : (s.cpus c).waitsAt cfg n = some (b, sz)) (hbw : (s.cpus c).bw = .done) :
      StepTo (s.setCpu c (s.cpus c).afterWait)
  | own {cpu : Cpu} {w : Option (U64 × U64)} (h : (s.cpus c).step cfg s.mem = some (cpu, w)) :
      StepTo ((s.store w).setCpu c cpu)
  | keepAffinity (hpc : (s.cpus c).pc = .newAffinity) : StepTo (s.setCpu c ((s.cpus c).enter .waitAffinity))
  | affinity (hpc : (s.cpus c).pc = .newAffinity) (σ : Equiv.Perm (Fin n)) :
      StepTo { s.setCpu c ((s.cpus c).enter .waitAffinity) with affinity := σ }
  | getAffinity (hpc : (s.cpus c).pc = .getAffinity) :
      StepTo (s.setCpu c { s.cpus c with pc := .allocate, vcpu := s.affinity c })
  | keepTables (hpc : (s.cpus c).pc = .allocate) (hv : (s.cpus c).vcpu ≠ 0) :
      StepTo (s.setCpu c ((s.cpus c).enter .waitAllocate))
  | allocate (hpc : (s.cpus c).pc = .allocate) (hv : (s.cpus c).vcpu = 0) {mem : Mem}
      (hm : cfg.Mapped mem (s.cpus c).batchStart) :
      StepTo { s.setCpu c ((s.cpus c).enter .waitAllocate) with
        mem := mem, pretest := mem, pretestBatch := (s.cpus c).batchStart }
  | ensureLock {k : Nat} (hpc : (s.cpus c).pc = .ensureLock k) :
      StepTo { s.setCpu c { s.cpus c with pc := .ensure k 0 (cfg.savedRoot (s.cpus c).batchStart k) } with
        vmmLock := some c }
  | ensureUnlock {k : Nat} (hpc : (s.cpus c).pc = .ensureUnlock k) :
      StepTo { s.setCpu c { s.cpus c with pc := .walk k 0 (cfg.savedRoot (s.cpus c).batchStart k) } with
        vmmLock := none }
  | page {k level : Nat} {current : U64} {desc : Desc} (hpc : (s.cpus c).pc = .ensureAlloc k level current desc)
      (pg : U64) :
      StepTo { s.setCpu c { s.cpus c with pc := .ensureFill k level current desc pg 0 .test } with
        mem := fun a => if (a - pg).toNat < 4096 then 0 else s.mem a }
  | write (hpc : (s.cpus c).pc.inTest = true) (addr val : U64) : StepTo (s.store (some (addr, val)))
  | return {cpu : Cpu} (h : (s.cpus c).afterTest = some cpu) : StepTo (s.setCpu c cpu)

variable {cfg s c} {s' : RunState n}

theorem stepTo_of_waitStep {b : BarId} {sz : Nat} (hb : (s.cpus c).waitsAt cfg n = some (b, sz))
    (h : waitStep s c b sz = some s') : StepTo cfg s c s' := by
  unfold waitStep at h
  dsimp only at h
  by_cases hbw : (s.cpus c).bw = .done
  · rw [if_pos hbw] at h
    cases h
    exact .leave hb hbw
  · rw [if_neg hbw] at h
    split at h
    · cases h
    · next hl =>
      cases h
      exact .wait hb hbw fun hop => Classical.byContradiction fun hne => hl ⟨hop, hne⟩

theorem stepTo_of_tickStep (h : tickStep cfg s c = some s') : StepTo cfg s c s' := by
  unfold tickStep at h
  dsimp only at h
  split at h
  · next b sz hb => exact stepTo_of_waitStep hb h
  · split at h
    · next hpc =>
      split at h
      · cases h
      · cases h
        exact .keepAffinity hpc
    · next hpc =>
      cases h
      exact .getAffinity hpc
    · next hpc =>
      split at h
      · cases h
      · next hv =>
        cases h
        exact .keepTables hpc hv
    · next k hpc =>
      split at h
      · cases h
        exact .ensureLock hpc
      · cases h
    · next k hpc =>
      cases h
      exact .ensureUnlock hpc
    · split at h
      · next hstep =>
        cases h
        exact .own hstep
      · cases h

/-- A step of the CPU `c` is one of the steps of `StepTo`. -/
theorem stepTo_of_step {a : RunAction n} (h : step cfg s c a = some s') : StepTo cfg s c s' := by
  unfold step at h
  dsimp only at h
  cases a with
  | tick => exact stepTo_of_tickStep h
  | affinity σ =>
    dsimp only at h
    split at h
    · next hpc =>
      cases h
      exact .affinity hpc.1 σ
    · cases h
  | allocate mem =>
    dsimp only at h
    split at h
    · next hpc =>
      cases h
      exact .allocate hpc.1 hpc.2.1 hpc.2.2
    · cases h
  | page pg =>
    dsimp only at h
    split at h
    · next hpc =>
      cases h
      exact .page hpc pg
    · cases h
  | write addr val =>
    dsimp only at h
    split at h
    · next hpc =>
      cases h
      exact .write hpc addr val
    · cases h
  | «return» =>
    dsimp only at h
    split at h
    · next hr =>
      cases h
      exact .return hr
    · cases h

end Step

end LitmusHarness
