import LitmusHarness.Runner.RunThread
import LitmusHarness.Sync.Rounds

/-!
# The phases of a test

The waits on `generic_cpu_barrier` cut the thread of every CPU into the same stages (`RunConfig.stageAt`), and no CPU
is ahead of another by more than one of them (`SyncInv.near`). When all CPUs take part in the tests, the barrier at
the start of a run says more: nobody is past the start of the first run of a batch before all have set it up
(`SyncInv.not_beforeRuns_of_pastStart`). Both follow from `SyncInv`, which every step keeps, whatever the tests write
(`syncInv_step`).
-/

namespace LitmusHarness

/-! ## Stages -/

/-- The wait on `generic_cpu_barrier` that is next. -/
inductive Stage
  | start
  | affinity (batchStart : Nat)
  | allocate (batchStart : Nat)
  | run (batchStart j : Nat)
  | finish
  | over
  deriving DecidableEq, Repr

/-- The first run of a batch. -/
def Stage.isFirst : Stage → Bool
  | .run batchStart j => j ≤ batchStart
  | _ => false

namespace RunConfig

variable (cfg : RunConfig)

/-- The stage at the head of the outer loop. -/
def loopStage (j : Nat) : Stage := if j < cfg.noRuns then .affinity j else .finish

/-- The stage at the head of the inner loop. -/
def runStage (batchStart j : Nat) : Stage := if j < cfg.batchEnd batchStart then .run batchStart j else cfg.loopStage j

def nextStage : Stage → Stage
  | .start => cfg.loopStage 0
  | .affinity b => .allocate b
  | .allocate b => .run b b
  | .run b j => cfg.runStage b (j + 1)
  | .finish => .over
  | .over => .over

/-- The stage after `u` waits. -/
def stageAt : Nat → Stage
  | 0 => .start
  | u + 1 => cfg.nextStage (stageAt u)

/-- In how many of the first `u` stages a batch has its first run. -/
def firstRuns : Nat → Nat
  | 0 => 0
  | u + 1 => firstRuns u + if (cfg.stageAt u).isFirst then 1 else 0

end RunConfig

/-- It waits on `generic_cpu_barrier`. -/
def Pc.waitsCpu : Pc → Bool
  | .startOfThread | .waitAffinity | .waitAllocate | .waitRun | .endOfThread => true
  | _ => false

/-- It sets up the data of a batch. -/
def Pc.inSetup : Pc → Bool
  | .setup _ | .ensureLock _ | .ensure .. | .ensureAlloc .. | .ensureFill .. | .ensureLink .. | .ensureUnlock _
  | .walk .. | .setupDesc _ => true
  | _ => false

/-- It is about to do that, or does it. -/
def Pc.beforeRuns : Pc → Bool
  | .waitAllocate => true
  | pc => pc.inSetup

/-- It is in one of the runs of a batch. -/
def Pc.inRun : Pc → Bool
  | .pre | .waitStart | .func | .post | .waitEnd | .waitRun => true
  | _ => false

namespace Cpu

variable (cfg : RunConfig) (st : Stage) (cpu : Cpu)

/-- What a CPU in stage `st` is doing. -/
def AtStage : Prop :=
  match cpu.pc with
  | .startOfThread => st = .start ∧ cpu.j = 0
  | .loop => st = cfg.loopStage cpu.j
  | .newAffinity | .waitAffinity => st = .affinity cpu.j ∧ cpu.batchStart = cpu.j ∧ cpu.j < cfg.noRuns
  | .getAffinity | .allocate | .waitAllocate => st = .allocate cpu.j ∧ cpu.batchStart = cpu.j ∧ cpu.j < cfg.noRuns
  | .setup _ | .ensureLock _ | .ensure .. | .ensureAlloc .. | .ensureFill .. | .ensureLink .. | .ensureUnlock _
  | .walk .. | .setupDesc _ => st = .run cpu.j cpu.j ∧ cpu.batchStart = cpu.j ∧ cpu.j < cfg.noRuns
  | .runLoop => st = cfg.runStage cpu.batchStart cpu.j
  | .pre | .waitStart | .func | .post | .waitEnd | .waitRun =>
    st = .run cpu.batchStart cpu.j ∧ cpu.j < cfg.batchEnd cpu.batchStart
  | .clean _ | .cleanUpdate .. => st = cfg.loopStage cpu.j
  | .endOfThread => st = .finish
  | .done => st = .over

/-- It waits for the first run of a batch. -/
def waitsStart : Bool := cpu.pc = .waitStart ∧ cpu.j ≤ cpu.batchStart

/-- It is in the first run of a batch, past its start. -/
def pastStart : Bool :=
  match cpu.pc with
  | .func | .post | .waitEnd | .waitRun => cpu.j ≤ cpu.batchStart
  | _ => false

/-- The CPU at `generic_cpu_barrier`. -/
def cpuLoc (u : Nat) : Loc := ⟨u, if cpu.pc.waitsCpu then some cpu.bw else none⟩

/-- The CPU at the barrier for the first run of a batch. -/
def startLoc (u : Nat) : Loc :=
  ⟨cfg.firstRuns u + if cpu.pastStart then 1 else 0, if cpu.waitsStart then some cpu.bw else none⟩

end Cpu

/-- **The invariant of the barriers.** `u` says how many waits on `generic_cpu_barrier` each CPU has behind it. -/
structure SyncInv {n : Nat} (cfg : RunConfig) (u : Fin n → Nat) (s : RunState n) : Prop where
  stage : ∀ c, (s.cpus c).AtStage cfg (cfg.stageAt (u c))
  cpuBar : BarrierOk true n (s.bars .cpu) fun c => (s.cpus c).cpuLoc (u c)
  startBar : cfg.noThreads = n → BarrierOk true cfg.noThreads (s.bars (.start 0)) fun c => (s.cpus c).startLoc cfg (u c)
  lock : ∀ c, s.lock = some c ↔ (s.cpus c).bw.critical = true
  idle : ∀ c, (s.cpus c).waitsAt cfg n = none → (s.cpus c).bw.critical = false
  vcpu : ∀ c, (s.cpus c).vcpu < n

section Steps

variable {n : Nat} {cfg : RunConfig} {u : Fin n → Nat} {s s' : RunState n} {c d : Fin n} {cpu : Cpu}

theorem syncInv_init (hs : RunInit s) : SyncInv cfg (fun _ => 0) s := by
  obtain ⟨mem, rfl⟩ := hs
  refine ⟨fun c => ⟨rfl, rfl⟩, ?_, fun _ => barrierOk_init, fun c => ?_, fun c h => rfl, fun c => c.pos⟩
  · refine ⟨0, fun _ => rfl, ?_, .inl rfl, fun i j hi => by simp [Loc.critical, Cpu.cpuLoc, Pc.waitsCpu, BwaitPc.critical] at hi⟩
    simp [emptyBar, Loc.inside, Cpu.cpuLoc, Pc.waitsCpu, BwaitPc.inside]
  · simp [BwaitPc.critical]

/-- The barrier at which a CPU waits. -/
theorem waitsCpu_iff : cpu.pc.waitsCpu = true ↔ cpu.waitsAt cfg n = some (.cpu, n) := by
  unfold Cpu.waitsAt Pc.waitsCpu
  cases cpu.pc <;> simp

/-- A function of the CPUs after one of them goes on. -/
theorem update_cpu {β : Type} (f : Cpu → Nat → β) (cpus : Fin n → Cpu) (u : Fin n → Nat) (cpu : Cpu) (v : Nat) :
    (fun d => f (Function.update cpus c cpu d) (Function.update u c v d)) =
      Function.update (fun d => f (cpus d) (u d)) c (f cpu v) := by
  funext d
  by_cases hd : d = c
  · subst hd
    simp
  · simp [hd]

/-- What holds of the CPU that goes on and of the others holds of all. -/
theorem forall_update {P : Fin n → Cpu → Prop} {cpus : Fin n → Cpu} (hc : P c cpu) (h : ∀ d, P d (cpus d)) (d : Fin n) :
    P d (Function.update cpus c cpu d) :=
  (Function.forall_update_iff cpus P).mpr ⟨hc, fun d _ => h d⟩ d

/-- **A step between the barriers**, which may enter one. -/
theorem SyncInv.move (h : SyncInv cfg u s) (hcpus : s'.cpus = Function.update s.cpus c cpu) (hbars : s'.bars = s.bars)
    (hlock : s'.lock = s.lock) (hst : cpu.AtStage cfg (cfg.stageAt (u c))) (hcpu : (s.cpus c).pc.waitsCpu = false)
    (hstart : (s.cpus c).waitsStart = false) (hcrit : (s.cpus c).bw.critical = false)
    (hbw : cpu.bw = .acquire ∨ cpu.pc.waitsCpu = false ∧ cpu.waitsStart = false ∧ cpu.bw.critical = false)
    (hpast : cfg.noThreads = n → cpu.pastStart = (s.cpus c).pastStart) (hv : cpu.vcpu < n) : SyncInv cfg u s' := by
  have hu : u = Function.update u c (u c) := (Function.update_eq_self c u).symm
  have hcrit' : cpu.bw.critical = false := by
    rcases hbw with hbw | hbw
    · rw [hbw]
      rfl
    · exact hbw.2.2
  refine ⟨?_, ?_, fun hn => ?_, ?_, ?_, ?_⟩
  · rw [hcpus]
    exact forall_update (P := fun d cpu => cpu.AtStage cfg (cfg.stageAt (u d))) hst h.stage
  · have hloc : (s.cpus c).cpuLoc (u c) = ⟨u c, none⟩ := by simp [Cpu.cpuLoc, hcpu]
    rw [hcpus, hbars, hu, update_cpu Cpu.cpuLoc]
    cases hw : cpu.pc.waitsCpu with
    | false =>
      rw [show cpu.cpuLoc (u c) = (s.cpus c).cpuLoc (u c) by simp [Cpu.cpuLoc, hw, hcpu]]
      rw [Function.update_eq_self c fun d => (s.cpus d).cpuLoc (u d)]
      exact h.cpuBar
    | true =>
      have hacq : cpu.bw = .acquire := hbw.resolve_right fun hbw => by simp [hw] at hbw
      rw [show cpu.cpuLoc (u c) = ⟨u c, some .acquire⟩ by simp [Cpu.cpuLoc, hw, hacq]]
      exact h.cpuBar.enter hloc
  · have hloc : (s.cpus c).startLoc cfg (u c) = ⟨((s.cpus c).startLoc cfg (u c)).uses, none⟩ := by
      simp [Cpu.startLoc, hstart]
    rw [hcpus, hbars, hu, update_cpu (Cpu.startLoc cfg)]
    cases hw : cpu.waitsStart with
    | false =>
      rw [show cpu.startLoc cfg (u c) = (s.cpus c).startLoc cfg (u c) by simp [Cpu.startLoc, hw, hstart, hpast hn]]
      rw [Function.update_eq_self c fun d => (s.cpus d).startLoc cfg (u d)]
      exact h.startBar hn
    | true =>
      have hacq : cpu.bw = .acquire := hbw.resolve_right fun hbw => by simp [hw] at hbw
      rw [show cpu.startLoc cfg (u c) = ⟨((s.cpus c).startLoc cfg (u c)).uses, some .acquire⟩ by
        simp [Cpu.startLoc, hw, hacq, hpast hn]]
      exact (h.startBar hn).enter hloc
  · rw [hcpus, hlock]
    exact forall_update (P := fun d cpu => s.lock = some d ↔ cpu.bw.critical = true) (by rw [h.lock c, hcrit, hcrit'])
      h.lock
  · rw [hcpus]
    exact forall_update (P := fun _ cpu => cpu.waitsAt cfg n = none → cpu.bw.critical = false) (fun _ => hcrit') h.idle
  · rw [hcpus]
    exact forall_update (P := fun _ cpu => cpu.vcpu < n) hv h.vcpu

/-- **An access in `bwait`.** -/
theorem SyncInv.wait (h : SyncInv cfg u s) {b : BarId} {sz : Nat} (hb : (s.cpus c).waitsAt cfg n = some (b, sz))
    (hlock : (bwaitStep true sz (s.bars b) (s.cpus c).bw).2.1 = .acquire → s.lock = none) :
    SyncInv cfg u { s.setCpu c { s.cpus c with bw := (bwaitStep true sz (s.bars b) (s.cpus c).bw).2.2 } with
      bars := Function.update s.bars b (bwaitStep true sz (s.bars b) (s.cpus c).bw).1
      lock := (bwaitStep true sz (s.bars b) (s.cpus c).bw).2.1.apply c s.lock } := by
  have hu : u = Function.update u c (u c) := (Function.update_eq_self c u).symm
  -- nobody holds the lock that is taken
  have hfree : ∀ f : Cpu → Nat → Loc, (∀ cpu v, (f cpu v).critical = true → cpu.bw.critical = true) →
      (bwaitStep true sz (s.bars b) (s.cpus c).bw).2.1 = .acquire → ∀ d, (f (s.cpus d) (u d)).critical = false := by
    intro f hf hop d
    rw [← Bool.not_eq_true]
    intro hc
    have := (h.lock d).mpr (hf _ _ hc)
    rw [hlock hop] at this
    cases this
  have hcase : (s.cpus c).pc.waitsCpu = true ∧ b = .cpu ∧ sz = n ∨ (s.cpus c).pc.waitsCpu = false ∧ b ≠ .cpu := by
    cases hw : (s.cpus c).pc.waitsCpu with
    | true =>
      rw [waitsCpu_iff.mp hw] at hb
      cases hb
      exact .inl ⟨rfl, rfl, rfl⟩
    | false =>
      refine .inr ⟨rfl, ?_⟩
      rintro rfl
      unfold Cpu.waitsAt at hb
      split at hb <;> rename_i hpc <;> simp [hpc, Pc.waitsCpu] at hb hw
  have hstart : (s.cpus c).waitsStart = true ∧ b = .start 0 ∧ sz = cfg.noThreads ∨
      (s.cpus c).waitsStart = false ∧ b ≠ .start 0 := by
    cases hw : (s.cpus c).waitsStart with
    | true =>
      simp only [Cpu.waitsStart, decide_eq_true_eq] at hw
      obtain ⟨hpc, hj⟩ := hw
      simp only [Cpu.waitsAt, hpc, Option.some.injEq, Prod.mk.injEq] at hb
      exact .inl ⟨rfl, by rw [← hb.1, Nat.sub_eq_zero_of_le hj], hb.2.symm⟩
    | false =>
      refine .inr ⟨rfl, ?_⟩
      rintro rfl
      simp only [Cpu.waitsStart, decide_eq_false_iff_not, not_and] at hw
      unfold Cpu.waitsAt at hb
      split at hb <;> simp only [Option.some.injEq, Prod.mk.injEq, reduceCtorEq, false_and, BarId.start.injEq] at hb
      · rename_i hpc
        have := hw hpc
        omega
  refine ⟨?_, ?_, fun hn => ?_, ?_, ?_, ?_⟩
  · exact forall_update (P := fun d cpu => cpu.AtStage cfg (cfg.stageAt (u d))) (h.stage c) h.stage
  · dsimp only [RunState.setCpu]
    rw [hu, update_cpu Cpu.cpuLoc]
    rcases hcase with ⟨hw, rfl, rfl⟩ | ⟨hw, hne⟩
    · rw [Function.update_self]
      have hloc : (s.cpus c).cpuLoc (u c) = ⟨u c, some (s.cpus c).bw⟩ := by simp [Cpu.cpuLoc, hw]
      have := h.cpuBar.step (Fintype.card_fin _).symm hloc (hfree Cpu.cpuLoc fun cpu v hc => by
        unfold Cpu.cpuLoc Loc.critical at hc
        split at hc
        · exact hc
        · cases hc)
      simpa [Cpu.cpuLoc, hw] using this
    · rw [Function.update_of_ne hne.symm]
      have hloc : ∀ bw, Cpu.cpuLoc { s.cpus c with bw := bw } (u c) = (s.cpus c).cpuLoc (u c) := fun bw => by
        simp [Cpu.cpuLoc, hw]
      rw [hloc, Function.update_eq_self c fun d => (s.cpus d).cpuLoc (u d)]
      exact h.cpuBar
  · dsimp only [RunState.setCpu]
    rw [hu, update_cpu (Cpu.startLoc cfg)]
    rcases hstart with ⟨hw, rfl, rfl⟩ | ⟨hw, hne⟩
    · rw [Function.update_self]
      have hloc : (s.cpus c).startLoc cfg (u c) = ⟨((s.cpus c).startLoc cfg (u c)).uses, some (s.cpus c).bw⟩ := by
        simp [Cpu.startLoc, hw]
      have := (h.startBar hn).step (by rw [hn, Fintype.card_fin]) hloc (hfree (Cpu.startLoc cfg) fun cpu v hc => by
        unfold Cpu.startLoc Loc.critical at hc
        dsimp only at hc
        split at hc
        · exact hc
        · cases hc)
      have hw' : ∀ bw, Cpu.waitsStart { s.cpus c with bw := bw } = true := fun bw => hw
      have hp' : ∀ bw, Cpu.pastStart { s.cpus c with bw := bw } = (s.cpus c).pastStart := fun bw => rfl
      simpa [Cpu.startLoc, hw', hp'] using this
    · rw [Function.update_of_ne hne.symm]
      have hloc : ∀ bw, Cpu.startLoc cfg { s.cpus c with bw := bw } (u c) = (s.cpus c).startLoc cfg (u c) := fun bw => by
        have hw' : Cpu.waitsStart { s.cpus c with bw := bw } = false := hw
        have hp' : Cpu.pastStart { s.cpus c with bw := bw } = (s.cpus c).pastStart := rfl
        simp [Cpu.startLoc, hw, hw', hp']
      rw [hloc, Function.update_eq_self c fun d => (s.cpus d).startLoc cfg (u d)]
      exact h.startBar hn
  · intro i
    have hstep := @lock_step n true c s.lock (fun d => ⟨0, some (s.cpus d).bw⟩) h.lock 0 sz (s.bars b) (s.cpus c).bw rfl
      hlock i
    dsimp only [RunState.setCpu]
    rw [hstep]
    by_cases hi : i = c
    · subst hi
      simp [Loc.critical]
    · simp [hi, Loc.critical]
  · refine forall_update (P := fun _ cpu => cpu.waitsAt cfg n = none → cpu.bw.critical = false) (fun hnone => ?_) h.idle
    have : (s.cpus c).waitsAt cfg n = none := hnone
    rw [hb] at this
    cases this
  · exact forall_update (P := fun _ cpu => cpu.vcpu < n) (h.vcpu c) h.vcpu

/-- What a CPU does after a wait on `generic_cpu_barrier`. -/
theorem Cpu.AtStage.afterWait {st : Stage} (h : cpu.AtStage cfg st) (hw : cpu.pc.waitsCpu = true) :
    cpu.afterWait.AtStage cfg (cfg.nextStage st) ∧ cpu.afterWait.pc.waitsCpu = false ∧
      cpu.afterWait.waitsStart = false ∧ cpu.waitsStart = false ∧ cpu.afterWait.pastStart = false ∧
      cpu.afterWait.bw = cpu.bw ∧ cpu.afterWait.vcpu = cpu.vcpu ∧ cpu.pastStart = st.isFirst := by
  unfold Cpu.AtStage at h
  split at h <;> rename_i hpc <;> simp only [hpc, Pc.waitsCpu, Bool.false_eq_true] at hw
  · obtain ⟨rfl, hj⟩ := h
    simp [Cpu.afterWait, hpc, Cpu.AtStage, RunConfig.nextStage, hj, Pc.waitsCpu, Cpu.waitsStart, Cpu.pastStart,
      Stage.isFirst]
  · obtain ⟨rfl, hb, hj⟩ := h
    simp [Cpu.afterWait, hpc, Cpu.AtStage, RunConfig.nextStage, hb, hj, Pc.waitsCpu, Cpu.waitsStart, Cpu.pastStart,
      Stage.isFirst]
  · obtain ⟨rfl, hb, hj⟩ := h
    simp [Cpu.afterWait, hpc, Cpu.AtStage, RunConfig.nextStage, hb, hj, Pc.waitsCpu, Cpu.waitsStart, Cpu.pastStart,
      Stage.isFirst]
  · obtain ⟨rfl, hj⟩ := h
    simp [Cpu.afterWait, hpc, Cpu.AtStage, RunConfig.nextStage, Pc.waitsCpu, Cpu.waitsStart, Cpu.pastStart,
      Stage.isFirst]
  · subst h
    simp [Cpu.afterWait, hpc, Cpu.AtStage, RunConfig.nextStage, Pc.waitsCpu, Cpu.waitsStart, Cpu.pastStart,
      Stage.isFirst]

/-- **A return from `generic_cpu_barrier`.** -/
theorem SyncInv.leaveCpu (h : SyncInv cfg u s) (hw : (s.cpus c).pc.waitsCpu = true) (hbw : (s.cpus c).bw = .done) :
    SyncInv cfg (Function.update u c (u c + 1)) (s.setCpu c (s.cpus c).afterWait) := by
  obtain ⟨hst, hw', hstart', hstart, hpast', hbw', hv, hpast⟩ := (h.stage c).afterWait hw
  refine ⟨fun d => ?_, ?_, fun hn => ?_, ?_, ?_, ?_⟩
  · by_cases hd : d = c
    · subst hd
      simpa [RunState.setCpu, RunConfig.stageAt] using hst
    · simpa [RunState.setCpu, hd] using h.stage d
  · dsimp only [RunState.setCpu]
    rw [update_cpu Cpu.cpuLoc, show (s.cpus c).afterWait.cpuLoc (u c + 1) = ⟨u c + 1, none⟩ by simp [Cpu.cpuLoc, hw']]
    exact h.cpuBar.leave (by simp [Cpu.cpuLoc, hw, hbw])
  · dsimp only [RunState.setCpu]
    -- who was in the first run of a batch was past its start
    have hsame : (s.cpus c).afterWait.startLoc cfg (u c + 1) = (s.cpus c).startLoc cfg (u c) := by
      simp [Cpu.startLoc, hstart, hstart', hpast', hpast, RunConfig.firstRuns]
    rw [update_cpu (Cpu.startLoc cfg), hsame, Function.update_eq_self c fun d => (s.cpus d).startLoc cfg (u d)]
    exact h.startBar hn
  · exact forall_update (P := fun d cpu => s.lock = some d ↔ cpu.bw.critical = true) (by rw [hbw', h.lock c]) h.lock
  · refine forall_update (P := fun _ cpu => cpu.waitsAt cfg n = none → cpu.bw.critical = false) (fun _ => ?_) h.idle
    rw [hbw', hbw]
    rfl
  · exact forall_update (P := fun _ cpu => cpu.vcpu < n) (hv ▸ h.vcpu c) h.vcpu

/-- **A return from the barrier at the start of a run.** -/
theorem SyncInv.leaveStart (h : SyncInv cfg u s) (hpc : (s.cpus c).pc = .waitStart) (hbw : (s.cpus c).bw = .done) :
    SyncInv cfg u (s.setCpu c (s.cpus c).afterWait) := by
  have hu : u = Function.update u c (u c) := (Function.update_eq_self c u).symm
  have hafter : (s.cpus c).afterWait = { s.cpus c with pc := .func } := by simp [Cpu.afterWait, hpc]
  have hst := h.stage c
  simp only [Cpu.AtStage, hpc] at hst
  rw [hafter]
  refine ⟨?_, ?_, fun hn => ?_, ?_, ?_, ?_⟩
  · exact forall_update (P := fun d cpu => cpu.AtStage cfg (cfg.stageAt (u d))) hst h.stage
  · dsimp only [RunState.setCpu]
    have hsame : Cpu.cpuLoc { s.cpus c with pc := .func } (u c) = (s.cpus c).cpuLoc (u c) := by
      simp [Cpu.cpuLoc, hpc, Pc.waitsCpu]
    rw [hu, update_cpu Cpu.cpuLoc, hsame, Function.update_eq_self c fun d => (s.cpus d).cpuLoc (u d)]
    exact h.cpuBar
  · dsimp only [RunState.setCpu]
    rw [hu, update_cpu (Cpu.startLoc cfg)]
    by_cases hj : (s.cpus c).j ≤ (s.cpus c).batchStart
    · have hnew : Cpu.startLoc cfg { s.cpus c with pc := .func } (u c) = ⟨cfg.firstRuns (u c) + 1, none⟩ := by
        simp [Cpu.startLoc, Cpu.pastStart, Cpu.waitsStart, hj]
      rw [hnew]
      exact (h.startBar hn).leave (by simp [Cpu.startLoc, Cpu.pastStart, Cpu.waitsStart, hpc, hj, hbw])
    · have hsame : Cpu.startLoc cfg { s.cpus c with pc := .func } (u c) = (s.cpus c).startLoc cfg (u c) := by
        simp [Cpu.startLoc, Cpu.pastStart, Cpu.waitsStart, hpc, hj]
      rw [hsame, Function.update_eq_self c fun d => (s.cpus d).startLoc cfg (u d)]
      exact h.startBar hn
  · exact forall_update (P := fun d cpu => s.lock = some d ↔ cpu.bw.critical = true) (h.lock c) h.lock
  · refine forall_update (P := fun _ cpu => cpu.waitsAt cfg n = none → cpu.bw.critical = false) (fun _ => ?_) h.idle
    show (s.cpus c).bw.critical = false
    rw [hbw]
    rfl
  · exact forall_update (P := fun _ cpu => cpu.vcpu < n) (h.vcpu c) h.vcpu

/-- **A return from the barrier at the end of a run**, which is followed by another wait. -/
theorem SyncInv.leaveEnd (h : SyncInv cfg u s) (hpc : (s.cpus c).pc = .waitEnd) (hbw : (s.cpus c).bw = .done) :
    SyncInv cfg u (s.setCpu c (s.cpus c).afterWait) := by
  have hst := h.stage c
  simp only [Cpu.AtStage, hpc] at hst
  have hafter : (s.cpus c).afterWait = (s.cpus c).enter .waitRun := by simp [Cpu.afterWait, hpc]
  refine SyncInv.move h rfl rfl rfl ?_ (by simp [hpc, Pc.waitsCpu]) (by simp [Cpu.waitsStart, hpc])
    (by rw [hbw]; rfl) ?_ ?_ ?_
  · rw [hafter]
    exact hst
  · rw [hafter]
    exact .inl rfl
  · intro _
    rw [hafter, show (s.cpus c).pastStart = decide ((s.cpus c).j ≤ (s.cpus c).batchStart) by
      simp [Cpu.pastStart, hpc]]
    rfl
  · rw [hafter]
    exact h.vcpu c

/-- **A return from `bwait`.** -/
theorem SyncInv.leave (h : SyncInv cfg u s) {b : BarId} {sz : Nat} (hb : (s.cpus c).waitsAt cfg n = some (b, sz))
    (hbw : (s.cpus c).bw = .done) : ∃ u', SyncInv cfg u' (s.setCpu c (s.cpus c).afterWait) := by
  cases hw : (s.cpus c).pc.waitsCpu with
  | true => exact ⟨_, h.leaveCpu hw hbw⟩
  | false =>
    unfold Cpu.waitsAt at hb
    split at hb <;> rename_i hpc <;> simp only [hpc, Pc.waitsCpu, Bool.true_eq_false, reduceCtorEq] at hw hb
    · exact ⟨u, h.leaveStart hpc hbw⟩
    · exact ⟨u, h.leaveEnd hpc hbw⟩

/-! ## The steps between the barriers -/

theorem runStage_self (hb : 0 < cfg.batchSize) {j : Nat} (hj : j < cfg.noRuns) : cfg.runStage j j = .run j j := by
  have : j < cfg.batchEnd j := by
    unfold RunConfig.batchEnd
    omega
  rw [RunConfig.runStage, if_pos this]

/-- A step of `setup_run_data` stays in it or ends it. -/
theorem Cpu.step_setup {mem : Vmsa.Mem} {cpu' : Cpu} {w : Option (U64 × U64)} (hpc : cpu.pc.inSetup = true)
    (h : cpu.step cfg mem = some (cpu', w)) :
    (cpu'.pc.inSetup = true ∨ cpu'.pc = .runLoop) ∧ cpu'.bw = cpu.bw ∧ cpu'.vcpu = cpu.vcpu ∧ cpu'.j = cpu.j ∧
      cpu'.batchStart = cpu.batchStart := by
  unfold Cpu.step at h
  split at h <;> rename_i hpc' <;> simp only [hpc', Pc.inSetup, Bool.false_eq_true] at hpc <;>
    (try dsimp only at h) <;> (repeat' (split at h)) <;> cases h <;> simp [Pc.inSetup]

theorem inSetup_stage {st : Stage} (hpc : cpu.pc.inSetup = true) :
    cpu.AtStage cfg st ↔ st = .run cpu.j cpu.j ∧ cpu.batchStart = cpu.j ∧ cpu.j < cfg.noRuns := by
  unfold Cpu.AtStage
  split <;> rename_i hpc' <;> first | rfl | simp [hpc', Pc.inSetup] at hpc

theorem inSetup_out (hpc : cpu.pc.inSetup = true) : cpu.pc.waitsCpu = false ∧ cpu.waitsStart = false ∧
    cpu.pastStart = false ∧ cpu.waitsAt cfg n = none := by
  unfold Pc.inSetup at hpc
  split at hpc <;> rename_i hpc' <;>
    simp_all [Pc.waitsCpu, Cpu.waitsStart, Cpu.pastStart, Cpu.waitsAt]

/-- A stored word is in the page tables only. -/
theorem store_frame (s : RunState n) (w : Option (U64 × U64)) : (s.store w).cpus = s.cpus ∧ (s.store w).bars = s.bars ∧
    (s.store w).lock = s.lock ∧ (s.store w).affinity = s.affinity ∧ (s.store w).pretest = s.pretest ∧
    (s.store w).pretestBatch = s.pretestBatch := by
  cases w <;> exact ⟨rfl, rfl, rfl, rfl, rfl, rfl⟩

/-- A step between the barriers, for the CPU that takes it. -/
structure Cpu.Moves (cfg : RunConfig) (n : Nat) (st : Stage) (cpu cpu' : Cpu) : Prop where
  stage : cpu'.AtStage cfg st
  idle : cpu.waitsAt cfg n = none
  bw : cpu'.bw = .acquire ∨ cpu'.waitsAt cfg n = none ∧ cpu'.bw = cpu.bw
  past : cpu.vcpu < cfg.noThreads → cpu'.pastStart = cpu.pastStart

theorem idle_out (h : cpu.waitsAt cfg n = none) : cpu.pc.waitsCpu = false ∧ cpu.waitsStart = false := by
  unfold Cpu.waitsAt at h
  unfold Cpu.waitsStart Pc.waitsCpu
  split at h <;> simp_all

theorem SyncInv.moves (h : SyncInv cfg u s) (hm : Cpu.Moves cfg n (cfg.stageAt (u c)) (s.cpus c) cpu)
    (hv : cpu.vcpu < n) (hcpus : s'.cpus = Function.update s.cpus c cpu) (hbars : s'.bars = s.bars)
    (hlock : s'.lock = s.lock) : SyncInv cfg u s' := by
  obtain ⟨hcpu, hstart⟩ := idle_out hm.idle
  have hcrit := h.idle c hm.idle
  refine h.move hcpus hbars hlock hm.stage hcpu hstart hcrit ?_ (fun hn => hm.past (hn ▸ h.vcpu c)) hv
  refine hm.bw.imp_right fun ⟨hidle, hbw⟩ => ?_
  obtain ⟨hcpu', hstart'⟩ := idle_out hidle
  exact ⟨hcpu', hstart', hbw ▸ hcrit⟩

/-- A step inside `setup_run_data`. -/
theorem Cpu.setup_moves {st : Stage} {cpu' : Cpu} (hst : cpu.AtStage cfg st) (hpc : cpu.pc.inSetup = true)
    (hpc' : cpu'.pc.inSetup = true) (hbw : cpu'.bw = cpu.bw) (hj : cpu'.j = cpu.j)
    (hbs : cpu'.batchStart = cpu.batchStart) : Cpu.Moves cfg n st cpu cpu' := by
  obtain ⟨-, -, hpast, hidle⟩ := @inSetup_out n cfg cpu hpc
  obtain ⟨-, -, hpast', hidle'⟩ := @inSetup_out n cfg cpu' hpc'
  refine ⟨(inSetup_stage hpc').mpr ?_, hidle, .inr ⟨hidle', hbw⟩, fun _ => by rw [hpast, hpast']⟩
  rw [hj, hbs]
  exact (inSetup_stage hpc).mp hst

/-- The steps of a CPU on its own. -/
theorem Cpu.step_moves (hb : 0 < cfg.batchSize) {st : Stage} {mem : Vmsa.Mem} {cpu' : Cpu} {w : Option (U64 × U64)}
    (hst : cpu.AtStage cfg st) (h : cpu.step cfg mem = some (cpu', w)) :
    Cpu.Moves cfg n st cpu cpu' ∧ cpu'.vcpu = cpu.vcpu := by
  by_cases hset : cpu.pc.inSetup = true
  · obtain ⟨hpc, hbw, hv, hj, hbs⟩ := Cpu.step_setup hset h
    rcases hpc with hpc | hpc
    · exact ⟨Cpu.setup_moves hst hset hpc hbw hj hbs, hv⟩
    · obtain ⟨-, -, hpast, hidle⟩ := @inSetup_out n cfg cpu hset
      obtain ⟨rfl, h1, h2⟩ := (inSetup_stage hset).mp hst
      refine ⟨⟨?_, hidle, .inr ⟨by simp [Cpu.waitsAt, hpc], hbw⟩, fun _ => by rw [hpast]; simp [Cpu.pastStart, hpc]⟩, hv⟩
      rw [Cpu.AtStage, hpc, hbs, hj, h1]
      exact (runStage_self hb h2).symm
  · unfold Cpu.step at h
    unfold Cpu.AtStage at hst
    split at h <;> rename_i hpc <;> simp only [hpc, Pc.inSetup, not_true_eq_false, Bool.false_eq_true,
      not_false_eq_true] at hset hst
    · -- the outer loop
      split at h <;> rename_i hj <;> cases h
      · refine ⟨⟨?_, by simp [Cpu.waitsAt, hpc], .inr ⟨rfl, rfl⟩, fun _ => by simp [Cpu.pastStart, hpc]⟩, rfl⟩
        exact ⟨hst.trans (if_pos hj), rfl, hj⟩
      · refine ⟨⟨?_, by simp [Cpu.waitsAt, hpc], .inl rfl, fun _ => by simp [Cpu.pastStart, Cpu.enter, hpc]⟩, rfl⟩
        exact hst.trans (if_neg hj)
    · -- the inner loop
      split at h <;> rename_i hj
      · have hst' : st = .run cpu.batchStart cpu.j := hst.trans (if_pos hj)
        split at h <;> rename_i hv <;> cases h
        · exact ⟨⟨⟨hst', hj⟩, by simp [Cpu.waitsAt, hpc], .inl rfl, fun hlt => absurd hv (Nat.not_le_of_lt hlt)⟩, rfl⟩
        · refine ⟨⟨⟨hst', hj⟩, by simp [Cpu.waitsAt, hpc], .inr ⟨rfl, rfl⟩, fun _ => ?_⟩, rfl⟩
          simp [Cpu.pastStart, hpc]
      · cases h
        refine ⟨⟨?_, by simp [Cpu.waitsAt, hpc], .inr ⟨rfl, rfl⟩, fun _ => by simp [Cpu.pastStart, hpc]⟩, rfl⟩
        exact hst.trans (if_neg hj)
    · -- `clean_run_data`
      split at h <;> cases h
      · exact ⟨⟨hst, by simp [Cpu.waitsAt, hpc], .inr ⟨rfl, rfl⟩, fun _ => by simp [Cpu.pastStart, hpc]⟩, rfl⟩
      · exact ⟨⟨hst, by simp [Cpu.waitsAt, hpc], .inr ⟨rfl, rfl⟩, fun _ => by simp [Cpu.pastStart, hpc]⟩, rfl⟩
    · dsimp only at h
      split at h <;> cases h
      · exact ⟨⟨hst, by simp [Cpu.waitsAt, hpc], .inr ⟨rfl, rfl⟩, fun _ => by simp [Cpu.pastStart, hpc]⟩, rfl⟩
      · exact ⟨⟨hst, by simp [Cpu.waitsAt, hpc], .inr ⟨rfl, rfl⟩, fun _ => by simp [Cpu.pastStart, hpc]⟩, rfl⟩
    · cases h

/-- The return from the code of a test. -/
theorem Cpu.afterTest_moves {st : Stage} {cpu' : Cpu} (hst : cpu.AtStage cfg st) (h : cpu.afterTest = some cpu') :
    Cpu.Moves cfg n st cpu cpu' ∧ cpu'.vcpu = cpu.vcpu := by
  unfold Cpu.afterTest at h
  unfold Cpu.AtStage at hst
  split at h <;> rename_i hpc <;> simp only [hpc] at hst <;> cases h
  · exact ⟨⟨hst, by simp [Cpu.waitsAt, hpc], .inl rfl, fun _ => by simp [Cpu.pastStart, Cpu.enter, hpc]⟩, rfl⟩
  · refine ⟨⟨hst, by simp [Cpu.waitsAt, hpc], .inr ⟨rfl, rfl⟩, fun _ => ?_⟩, rfl⟩
    unfold Cpu.pastStart
    simp only [hpc]
  · refine ⟨⟨hst, by simp [Cpu.waitsAt, hpc], .inl rfl, fun _ => ?_⟩, rfl⟩
    rw [show cpu.pastStart = decide (cpu.j ≤ cpu.batchStart) by simp [Cpu.pastStart, hpc]]
    rfl

/-- A call of `BWAIT` before the batch is set up. -/
theorem Cpu.enter_moves {st : Stage} {pc : Pc} (hst : cpu.AtStage cfg st)
    (hpc : cpu.pc = .newAffinity ∧ pc = .waitAffinity ∨ cpu.pc = .allocate ∧ pc = .waitAllocate) :
    Cpu.Moves cfg n st cpu (cpu.enter pc) := by
  rcases hpc with ⟨hpc, rfl⟩ | ⟨hpc, rfl⟩ <;> simp only [Cpu.AtStage, hpc] at hst <;>
    exact ⟨hst, by simp [Cpu.waitsAt, hpc], .inl rfl, fun _ => by simp [Cpu.pastStart, Cpu.enter, hpc]⟩

/-- A CPU goes on inside `setup_run_data`. -/
theorem SyncInv.setPc (h : SyncInv cfg u s) {pc : Pc} (hpc : (s.cpus c).pc.inSetup = true) (hpc' : pc.inSetup = true)
    (hcpus : s'.cpus = Function.update s.cpus c { s.cpus c with pc := pc }) (hbars : s'.bars = s.bars)
    (hlock : s'.lock = s.lock) : SyncInv cfg u s' := by
  refine h.moves ?_ ?_ hcpus hbars hlock
  · exact Cpu.setup_moves (h.stage c) hpc hpc' rfl rfl rfl
  · exact h.vcpu c

/-- **What every step keeps.** -/
theorem syncInv_step (hb : 0 < cfg.batchSize) (h : SyncInv cfg u s) (hstep : StepTo cfg s c s') :
    ∃ u', SyncInv cfg u' s' := by
  have hst := h.stage c
  have hv := h.vcpu c
  cases hstep with
  | wait hbar _ hlock => exact ⟨u, h.wait hbar hlock⟩
  | leave hbar hbw => exact h.leave hbar hbw
  | @own cpu w hown =>
    obtain ⟨hm, hv'⟩ := Cpu.step_moves (n := n) hb hst hown
    obtain ⟨hcpus, hbars, hlock, -⟩ := store_frame s w
    exact ⟨u, h.moves hm (hv' ▸ hv) (by rw [RunState.setCpu, hcpus]) hbars hlock⟩
  | keepAffinity hpc => exact ⟨u, h.moves (Cpu.enter_moves hst (.inl ⟨hpc, rfl⟩)) hv rfl rfl rfl⟩
  | affinity hpc σ => exact ⟨u, h.moves (Cpu.enter_moves hst (.inl ⟨hpc, rfl⟩)) hv rfl rfl rfl⟩
  | getAffinity hpc =>
    simp only [Cpu.AtStage, hpc] at hst
    have hm : Cpu.Moves cfg n (cfg.stageAt (u c)) (s.cpus c) { s.cpus c with pc := .allocate, vcpu := s.affinity c } :=
      ⟨hst, by simp [Cpu.waitsAt, hpc], .inr ⟨rfl, rfl⟩, fun _ => by simp [Cpu.pastStart, hpc]⟩
    exact ⟨u, h.moves hm (s.affinity c).isLt rfl rfl rfl⟩
  | keepTables hpc _ => exact ⟨u, h.moves (Cpu.enter_moves hst (.inr ⟨hpc, rfl⟩)) hv rfl rfl rfl⟩
  | allocate hpc _ _ => exact ⟨u, h.moves (Cpu.enter_moves hst (.inr ⟨hpc, rfl⟩)) hv rfl rfl rfl⟩
  | ensureLock hpc => exact ⟨u, h.setPc (by rw [hpc]; rfl) rfl rfl rfl rfl⟩
  | ensureUnlock hpc => exact ⟨u, h.setPc (by rw [hpc]; rfl) rfl rfl rfl rfl⟩
  | page hpc pg => exact ⟨u, h.setPc (by rw [hpc]; rfl) rfl rfl rfl rfl⟩
  | write _ addr val => exact ⟨u, h.stage, h.cpuBar, h.startBar, h.lock, h.idle, h.vcpu⟩
  | «return» hret =>
    obtain ⟨hm, hv'⟩ := Cpu.afterTest_moves (n := n) hst hret
    exact ⟨u, h.moves hm (hv' ▸ hv) rfl rfl rfl⟩

/-! ## How far the CPUs are from each other -/

theorem Cpu.cpuLoc_arrived (cpu : Cpu) (v : Nat) :
    (cpu.cpuLoc v).arrived ≤ v ∨ (cpu.cpuLoc v).arrived = v + 1 ∧ cpu.pc.waitsCpu = true := by
  unfold Cpu.cpuLoc Loc.arrived
  by_cases hw : cpu.pc.waitsCpu = true
  · by_cases ha : (Loc.inside ⟨v, some cpu.bw⟩ || Loc.after ⟨v, some cpu.bw⟩) = true
    · simp [hw, ha]
    · simp [hw, ha]
  · simp [hw, Loc.inside, Loc.after]

theorem Cpu.le_cpuLoc_departed (cpu : Cpu) (v : Nat) : v ≤ (cpu.cpuLoc v).departed := by
  unfold Loc.departed
  split <;> simp [Cpu.cpuLoc]

/-- **No CPU is more than one stage ahead**, and then the other one waits. -/
theorem SyncInv.near (h : SyncInv cfg u s) (c d : Fin n) : u c ≤ u d ∨ u c = u d + 1 ∧ (s.cpus d).pc.waitsCpu = true := by
  have hle : u c ≤ ((s.cpus d).cpuLoc (u d)).arrived :=
    ((s.cpus c).le_cpuLoc_departed (u c)).trans (h.cpuBar.departed_le_arrived c d)
  rcases (s.cpus d).cpuLoc_arrived (u d) with hd | ⟨hd, hw⟩
  · exact .inl (hle.trans hd)
  · rcases Nat.lt_or_ge (u d) (u c) with hlt | hge
    · exact .inr ⟨by omega, hw⟩
    · exact .inl hge

/-- The stage of the others, when one does not wait. -/
theorem SyncInv.stage_of_idle (h : SyncInv cfg u s) (hc : (s.cpus c).pc.waitsCpu = false) (d : Fin n) :
    u d = u c ∨ u c = u d + 1 ∧ (s.cpus d).pc.waitsCpu = true := by
  rcases h.near c d with hle | hd
  · rcases h.near d c with hge | ⟨-, hw⟩
    · exact .inl (Nat.le_antisymm hge hle)
    · rw [hc] at hw
      cases hw
  · exact .inr hd

/-! ## What the stages exclude -/

theorem loopStage_cases (j : Nat) : cfg.loopStage j = .affinity j ∨ cfg.loopStage j = .finish := by
  unfold RunConfig.loopStage
  split <;> simp

theorem runStage_cases (b j : Nat) : cfg.runStage b j = .run b j ∨ cfg.runStage b j = .affinity j ∨
    cfg.runStage b j = .finish := by
  unfold RunConfig.runStage
  split
  · exact .inl rfl
  · exact .inr (loopStage_cases j)

/-! The loops do not lead into the middle of a batch. -/

@[simp] theorem allocate_ne_loopStage (b j : Nat) : Stage.allocate b ≠ cfg.loopStage j := by
  rcases @loopStage_cases cfg j with h | h <;> simp [h]

@[simp] theorem run_ne_loopStage (b j j' : Nat) : Stage.run b j ≠ cfg.loopStage j' := by
  rcases @loopStage_cases cfg j' with h | h <;> simp [h]

@[simp] theorem allocate_ne_runStage (b b' j : Nat) : Stage.allocate b ≠ cfg.runStage b' j := by
  rcases @runStage_cases cfg b' j with h | h | h <;> simp [h]

theorem run_eq_runStage {b j b' j' : Nat} (h : Stage.run b j = cfg.runStage b' j') : b' = b := by
  rcases @runStage_cases cfg b' j' with h' | h' | h' <;> rw [h'] at h <;> cases h
  rfl

/-- A CPU that waits is at its own stage. -/
theorem Cpu.AtStage.waitsCpu {st : Stage} (h : cpu.AtStage cfg st) (hw : cpu.pc.waitsCpu = true) :
    cpu.pc = .startOfThread ∧ st = .start ∨ cpu.pc = .waitAffinity ∧ st = .affinity cpu.j ∨
      cpu.pc = .waitAllocate ∧ st = .allocate cpu.batchStart ∨ cpu.pc = .waitRun ∧ st = .run cpu.batchStart cpu.j ∨
      cpu.pc = .endOfThread ∧ st = .finish := by
  unfold Cpu.AtStage at h
  split at h <;> rename_i hpc <;> simp_all [Pc.waitsCpu]

/-- What a CPU does while a batch is allocated. -/
theorem Cpu.AtStage.of_allocate {b : Nat} (h : cpu.AtStage cfg (.allocate b)) :
    cpu.pc = .getAffinity ∨ cpu.pc = .allocate ∨ cpu.pc = .waitAllocate := by
  unfold Cpu.AtStage at h
  split at h <;> simp_all

/-- What a CPU does in a run. -/
theorem Cpu.AtStage.of_run {b j : Nat} (h : cpu.AtStage cfg (.run b j)) :
    cpu.batchStart = b ∧ (cpu.pc.inSetup = true ∨ cpu.pc = .runLoop ∨ cpu.pc.inRun = true) := by
  unfold Cpu.AtStage at h
  split at h <;> simp_all [Pc.inSetup, Pc.inRun]
  exact run_eq_runStage h

theorem Cpu.AtStage.of_beforeRuns {st : Stage} (h : cpu.AtStage cfg st) (hpc : cpu.pc.beforeRuns = true) :
    st = .allocate cpu.batchStart ∨ cpu.pc.waitsCpu = false ∧ st = .run cpu.batchStart cpu.batchStart := by
  by_cases hset : cpu.pc.inSetup = true
  · obtain ⟨hst, hb, -⟩ := (inSetup_stage hset).mp h
    exact .inr ⟨(@inSetup_out 0 cfg cpu hset).1, by rw [hst, hb]⟩
  · have hwait : cpu.pc = .waitAllocate := by
      unfold Pc.beforeRuns at hpc
      split at hpc
      · assumption
      · exact absurd hpc hset
    simp only [Cpu.AtStage, hwait] at h
    exact .inl (by rw [h.1, h.2.1])

/-- Nobody sets up a batch, unless the others are about to start its first run. -/
theorem SyncInv.stage_of_beforeRuns (h : SyncInv cfg u s) (hc : (s.cpus c).pc.waitsCpu = false)
    (hd : (s.cpus d).pc.beforeRuns = true) : (cfg.stageAt (u c) = .allocate (s.cpus d).batchStart ∨
      cfg.stageAt (u c) = .run (s.cpus d).batchStart (s.cpus d).batchStart) ∧ u d ≤ u c := by
  have hst := (h.stage d).of_beforeRuns hd
  rcases h.stage_of_idle hc d with hu | ⟨hu, hw⟩
  · rw [← hu]
    exact ⟨hst.imp_right And.right, le_rfl⟩
  · rcases hst with hst | ⟨hidle, -⟩
    · rw [hu, RunConfig.stageAt, hst]
      exact ⟨.inr rfl, Nat.le_succ _⟩
    · rw [hw] at hidle
      cases hidle

/-- While tables are allocated, nobody has saved an entry of the batch. -/
theorem SyncInv.of_allocate (h : SyncInv cfg u s) (hc : (s.cpus c).pc = .allocate) (d : Fin n) :
    (s.cpus d).pc = .waitAffinity ∨ (s.cpus d).pc = .getAffinity ∨ (s.cpus d).pc = .allocate ∨
      (s.cpus d).pc = .waitAllocate := by
  have hst := h.stage c
  simp only [Cpu.AtStage, hc] at hst
  have hd := h.stage d
  rcases h.stage_of_idle (by rw [hc]; rfl) d with hu | ⟨hu, hw⟩
  · rw [hu, hst.1] at hd
    exact .inr hd.of_allocate
  · rw [hu, RunConfig.stageAt] at hst
    have hst' := hst.1.symm
    rcases hd.waitsCpu hw with ⟨-, h'⟩ | ⟨hpc, -⟩ | ⟨-, h'⟩ | ⟨-, h'⟩ | ⟨-, h'⟩ <;>
      first | exact .inl hpc | simp [h', RunConfig.nextStage] at hst'

/-- While the affinities change, nobody uses those of the last batch. -/
theorem SyncInv.of_newAffinity (h : SyncInv cfg u s) (hc : (s.cpus c).pc = .newAffinity) (d : Fin n) :
    (s.cpus d).pc ≠ .allocate ∧ (s.cpus d).pc ≠ .waitAllocate := by
  have hst := h.stage c
  simp only [Cpu.AtStage, hc] at hst
  refine ⟨fun hd => ?_, fun hd => ?_⟩
  · have := h.of_allocate hd c
    simp [hc] at this
  · obtain ⟨hst', -⟩ := h.stage_of_beforeRuns (by rw [hc]; rfl) (show (s.cpus d).pc.beforeRuns = true by rw [hd]; rfl)
    rw [hst.1] at hst'
    rcases hst' with h' | h' <;> cases h'

/-- Who returns from the wait for the tables finds the others in the same batch. -/
theorem SyncInv.of_waitAllocate (h : SyncInv cfg u s) (hc : (s.cpus c).pc = .waitAllocate) (hbw : (s.cpus c).bw = .done)
    (d : Fin n) : (s.cpus d).batchStart = (s.cpus c).batchStart ∧ ((s.cpus d).pc = .waitAllocate ∨
      (s.cpus d).pc.inSetup = true ∨ (s.cpus d).pc = .runLoop ∨ (s.cpus d).pc.inRun = true) := by
  have hst := h.stage c
  simp only [Cpu.AtStage, hc] at hst
  have hd := h.stage d
  have hle : u c + 1 ≤ ((s.cpus d).cpuLoc (u d)).arrived := by
    have := h.cpuBar.departed_le_arrived c d
    simpa [Cpu.cpuLoc, hc, Pc.waitsCpu, Loc.departed, Loc.after, hbw, BwaitPc.after] using this
  rcases h.near d c with hle' | ⟨hu, -⟩
  · -- the other one waits, too
    rcases (s.cpus d).cpuLoc_arrived (u d) with ha | ⟨ha, hw⟩
    · omega
    · have hu : u d = u c := by omega
      rw [hu, hst.1] at hd
      obtain ⟨hb, hpc⟩ : (s.cpus c).j = (s.cpus d).batchStart ∧ (s.cpus d).pc = .waitAllocate := by
        rcases hd.waitsCpu hw with ⟨-, h'⟩ | ⟨-, h'⟩ | ⟨hpc, h'⟩ | ⟨-, h'⟩ | ⟨-, h'⟩ <;>
          first | exact ⟨Stage.allocate.inj h', hpc⟩ | cases h'
      exact ⟨hb.symm.trans hst.2.1.symm, .inl hpc⟩
  · rw [hu, RunConfig.stageAt, hst.1] at hd
    obtain ⟨hb, hpc⟩ := hd.of_run
    exact ⟨hb.trans hst.2.1.symm, .inr hpc⟩

/-- While one CPU cleans up, nobody sets up a batch. -/
theorem SyncInv.not_beforeRuns_of_clean (h : SyncInv cfg u s) {k : Nat}
    (hc : (s.cpus c).pc = .clean k ∨ ∃ v, (s.cpus c).pc = .cleanUpdate k v) (d : Fin n) :
    (s.cpus d).pc.beforeRuns = false := by
  rw [← Bool.not_eq_true]
  intro hd
  have hst := h.stage c
  have hw : (s.cpus c).pc.waitsCpu = false ∧ cfg.stageAt (u c) = cfg.loopStage (s.cpus c).j := by
    rcases hc with hc | ⟨v, hc⟩ <;> simp only [Cpu.AtStage, hc] at hst <;> exact ⟨by rw [hc]; rfl, hst⟩
  obtain ⟨hst', -⟩ := h.stage_of_beforeRuns hw.1 hd
  rw [hw.2] at hst'
  rcases hst' with h' | h'
  · exact allocate_ne_loopStage _ _ h'.symm
  · exact run_ne_loopStage _ _ _ h'.symm

theorem firstRuns_mono {v w : Nat} (h : v ≤ w) : cfg.firstRuns v ≤ cfg.firstRuns w := by
  induction h with
  | refl => exact le_rfl
  | step _ ih => exact ih.trans (Nat.le_add_right _ _)

theorem inTest_out (hc : cpu.pc.inTest = true) : cpu.pc.waitsCpu = false ∧ ∀ st, cpu.AtStage cfg st →
    st = .run cpu.batchStart cpu.j := by
  unfold Pc.inTest at hc
  split at hc <;> rename_i hpc <;> simp_all [Pc.waitsCpu, Cpu.AtStage]

/-- After the first run of a batch nobody sets it up. -/
theorem SyncInv.not_beforeRuns_of_later (h : SyncInv cfg u s) (hc : (s.cpus c).pc.inTest = true)
    (hj : (s.cpus c).batchStart < (s.cpus c).j) (d : Fin n) : (s.cpus d).pc.beforeRuns = false := by
  rw [← Bool.not_eq_true]
  intro hd
  obtain ⟨hw, hst⟩ := @inTest_out cfg _ hc
  obtain ⟨hst', -⟩ := h.stage_of_beforeRuns hw hd
  rw [hst _ (h.stage c)] at hst'
  rcases hst' with h' | h'
  · cases h'
  · injection h' with h1 h2
    omega

/-- **Behind a start barrier of all CPUs nobody sets up the batch.** -/
theorem SyncInv.not_beforeRuns_of_pastStart (h : SyncInv cfg u s) (hn : cfg.noThreads = n)
    (hc : (s.cpus c).pc.inTest = true) (hpre : (s.cpus c).pc ≠ .pre) (d : Fin n) :
    (s.cpus d).pc.beforeRuns = false := by
  by_cases hj : (s.cpus c).batchStart < (s.cpus c).j
  · exact h.not_beforeRuns_of_later hc hj d
  rw [← Bool.not_eq_true]
  intro hd
  obtain ⟨hw, -⟩ := @inTest_out cfg _ hc
  obtain ⟨-, hu⟩ := h.stage_of_beforeRuns hw hd
  have hle := (h.startBar hn).departed_le_arrived c d
  have hpast : (s.cpus c).pastStart = true := by
    unfold Pc.inTest at hc
    unfold Cpu.pastStart
    split at hc <;> rename_i hpc <;> simp_all
  have hstart : (s.cpus c).waitsStart = false := by
    unfold Pc.inTest at hc
    unfold Cpu.waitsStart
    split at hc <;> rename_i hpc <;> simp_all
  have hd' : (s.cpus d).pastStart = false ∧ (s.cpus d).waitsStart = false := by
    unfold Pc.beforeRuns at hd
    split at hd
    · rename_i hpc
      simp [Cpu.pastStart, Cpu.waitsStart, hpc]
    · obtain ⟨-, h1, h2, -⟩ := @inSetup_out n cfg (s.cpus d) hd
      exact ⟨h2, h1⟩
  have : cfg.firstRuns (u c) + 1 ≤ cfg.firstRuns (u d) := by
    simpa [Cpu.startLoc, hpast, hstart, hd'.1, hd'.2, Loc.departed, Loc.arrived, Loc.after, Loc.inside] using hle
  have := @firstRuns_mono cfg _ _ hu
  omega

end Steps

end LitmusHarness
