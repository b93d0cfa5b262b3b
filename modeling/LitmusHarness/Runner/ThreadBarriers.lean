import LitmusHarness.Runner.Restore

/-!
# The barriers of the test threads

The CPUs that execute the threads of a test meet twice in each run, at a barrier of the run before the functions of
the threads are called and at `generic_vcpu_barrier` after them, and which CPUs these are changes from batch to batch.
So the invariant of such a barrier is about the threads, and says by `σ` which CPU executes which of them (`MeetInv`).
The main result is `runs_apart`: who is in the code of the test is in the same run, and results are collected when
nobody is.
-/

namespace LitmusHarness

/-! ## Meeting at a barrier -/

/-- What a step of one thread does to a barrier and to the place of the thread. -/
inductive LocMove (sz : Nat) (free : Prop) (bar : Bar) : Bar → Loc → Loc → Prop
  | same {l : Loc} : LocMove sz free bar bar l l
  | enter {m : Nat} : LocMove sz free bar bar ⟨m, none⟩ ⟨m, some .acquire⟩
  | access {m : Nat} {pc : BwaitPc} (hfree : (bwaitStep true sz bar pc).2.1 = .acquire → free) :
      LocMove sz free bar (bwaitStep true sz bar pc).1 ⟨m, some pc⟩ ⟨m, some (bwaitStep true sz bar pc).2.2⟩
  | leave {m : Nat} : LocMove sz free bar bar ⟨m, some .done⟩ ⟨m + 1, none⟩

/-- **A step of one thread keeps a barrier.** -/
theorem BarrierOk.move {ι : Type} [Fintype ι] [DecidableEq ι] {sz : Nat} {bar bar' : Bar} {loc : ι → Loc} {t : ι}
    {l : Loc} {free : Prop} (h : BarrierOk true sz bar loc) (hsz : sz = Fintype.card ι)
    (hfree : free → ∀ i, (loc i).critical = false) (hm : LocMove sz free bar bar' (loc t) l) :
    BarrierOk true sz bar' (Function.update loc t l) := by
  generalize ht : loc t = l₀ at hm
  cases hm with
  | same =>
    rw [← ht, Function.update_eq_self]
    exact h
  | enter => exact h.enter ht
  | leave => exact h.leave ht
  | access hacq => exact h.step hsz ht fun hop => hfree (hacq hop)

/-! ## The places of a CPU at the barriers -/

/-- How often a thread uses a barrier in a stage. -/
def Stage.uses : BarId → Stage → Nat
  | .cpu, _ => 1
  | .vcpu, .run _ _ => 1
  | .start bi, .run batchStart j => if j - batchStart = bi then 1 else 0
  | _, _ => 0

/-- How often it does in the first `u` stages. -/
def RunConfig.usesBefore (cfg : RunConfig) (b : BarId) : Nat → Nat
  | 0 => 0
  | u + 1 => cfg.usesBefore b u + (cfg.stageAt u).uses b

namespace Cpu

variable (cpu : Cpu)

/-- It waits at the barrier. -/
def atBar : BarId → Bool
  | .cpu => cpu.pc.waitsCpu
  | .vcpu => cpu.pc = .waitEnd
  | .start bi => cpu.pc = .waitStart ∧ cpu.j - cpu.batchStart = bi

/-- It has used the barrier in its stage. -/
def passed : BarId → Bool
  | .cpu => false
  | .vcpu => cpu.pc = .waitRun
  | .start bi => (cpu.pc = .func ∨ cpu.pc = .post ∨ cpu.pc = .waitEnd ∨ cpu.pc = .waitRun) ∧ cpu.j - cpu.batchStart = bi

/-- Its place at the barrier, after `u` waits on `generic_cpu_barrier`. -/
def locAt (cfg : RunConfig) (b : BarId) (u : Nat) : Loc where
  uses := cfg.usesBefore b u + if cpu.passed b then 1 else 0
  pc := if cpu.atBar b then some cpu.bw else none

/-- It executes a thread in the runs of a batch, or will. -/
def assigned (cfg : RunConfig) : Bool :=
  match cpu.pc with
  | .allocate | .waitAllocate => true
  | .runLoop => cpu.j < cfg.batchEnd cpu.batchStart
  | pc => pc.inSetup || pc.inRun

/-- It is in a run that its thread takes part in. -/
def inThread : Bool :=
  match cpu.pc with
  | .pre | .waitStart | .func | .post | .waitEnd => true
  | _ => false

end Cpu

/-- The CPU of a thread. -/
def threadCpu {n : Nat} {cfg : RunConfig} (hn : cfg.noThreads ≤ n) (σ : Equiv.Perm (Fin n)) (v : Fin cfg.noThreads) :
    Fin n := σ.symm (v.castLE hn)

/-- The CPUs `who` meet at the barrier. -/
def MeetsAt {ι : Type} [Fintype ι] {n : Nat} (cfg : RunConfig) (sz : Nat) (b : BarId) (who : ι → Fin n)
    (u : Fin n → Nat) (s : RunState n) : Prop :=
  BarrierOk true sz (s.bars b) fun i => (s.cpus (who i)).locAt cfg b (u (who i))

/-- **The invariant of all barriers.** `σ` is the assignment of the batch. -/
structure MeetInv {n : Nat} {cfg : RunConfig} (hn : cfg.noThreads ≤ n) (u : Fin n → Nat) (σ : Equiv.Perm (Fin n))
    (s : RunState n) : Prop where
  sync : SyncInv cfg u s
  thread : ∀ b, b ≠ .cpu → MeetsAt cfg cfg.noThreads b (threadCpu hn σ) u s
  vcpu : ∀ c, (s.cpus c).assigned cfg = true → (s.cpus c).vcpu = σ c
  runs : ∀ c, (s.cpus c).inThread = true → (s.cpus c).vcpu < cfg.noThreads
  fresh : ∀ c, (s.cpus c).pc = .allocate ∨ (s.cpus c).pc = .waitAllocate → σ = s.affinity

section Steps

variable {n : Nat} {cfg : RunConfig} {hn : cfg.noThreads ≤ n} {u u' : Fin n → Nat} {σ : Equiv.Perm (Fin n)}
  {s s' : RunState n} {c d : Fin n} {cpu : Cpu} {b : BarId} {v : Nat}

theorem threadCpu_injective (hn : cfg.noThreads ≤ n) (σ : Equiv.Perm (Fin n)) : Function.Injective (threadCpu hn σ) :=
  fun _ _ h => Fin.castLE_injective hn (σ.symm.injective h)

/-- The CPU executes a thread. -/
theorem exists_threadCpu (h : (σ c).val < cfg.noThreads) : ∃ v, threadCpu hn σ v = c :=
  ⟨⟨σ c, h⟩, σ.symm_apply_apply c⟩

theorem lt_of_threadCpu {v : Fin cfg.noThreads} (h : threadCpu hn σ v = c) : (σ c).val < cfg.noThreads := by
  rw [← h, threadCpu, Equiv.apply_symm_apply]
  exact v.isLt

/-- Where a CPU waits. -/
theorem waitsAt_iff {sz : Nat} : cpu.waitsAt cfg n = some (b, sz) ↔
    cpu.atBar b = true ∧ sz = if b = .cpu then n else cfg.noThreads := by
  unfold Cpu.waitsAt Cpu.atBar
  cases b <;> cases cpu.pc <;> simp [Pc.waitsCpu, eq_comm]

/-- Nobody at the barrier holds the lock while it is free. -/
theorem SyncInv.locAt_critical (h : SyncInv cfg u s) (hl : s.lock = none) (d : Fin n) :
    ((s.cpus d).locAt cfg b (u d)).critical = false := by
  rw [← Bool.not_eq_true]
  intro hc
  unfold Loc.critical Cpu.locAt at hc
  dsimp only at hc
  split at hc
  · have := (h.lock d).mpr hc
    rw [hl] at this
    cases this
  · cases hc

/-- A step of a CPU, for those that meet at a barrier. -/
theorem MeetsAt.move {ι : Type} [Fintype ι] [DecidableEq ι] {sz : Nat} {who : ι → Fin n}
    (hsync : SyncInv cfg u s) (h : MeetsAt cfg sz b who u s) (hsz : sz = Fintype.card ι) (hwho : Function.Injective who)
    (hcpus : s'.cpus = Function.update s.cpus c cpu) (hu : u' = Function.update u c v)
    (hin : ∀ i, who i = c →
      LocMove sz (s.lock = none) (s.bars b) (s'.bars b) ((s.cpus c).locAt cfg b (u c)) (cpu.locAt cfg b v))
    (hout : (∀ i, who i ≠ c) → s'.bars b = s.bars b) : MeetsAt cfg sz b who u' s' := by
  by_cases hc : ∃ i, who i = c
  · obtain ⟨i, hi⟩ := hc
    have hmove := hin i hi
    rw [← hi] at hmove
    have hnew : (fun j => (s'.cpus (who j)).locAt cfg b (u' (who j))) =
        Function.update (fun j => (s.cpus (who j)).locAt cfg b (u (who j))) i (cpu.locAt cfg b v) := by
      funext j
      by_cases hj : j = i
      · rw [hj, hcpus, hu, hi, Function.update_self, Function.update_self, Function.update_self]
      · have hne : who j ≠ c := fun h => hj (hwho (h.trans hi.symm))
        rw [hcpus, hu, Function.update_of_ne hne, Function.update_of_ne hne, Function.update_of_ne hj]
    unfold MeetsAt
    rw [hnew]
    exact BarrierOk.move h hsz (fun hl j => hsync.locAt_critical hl (who j)) hmove
  · have hne : ∀ i, who i ≠ c := fun i hi => hc ⟨i, hi⟩
    unfold MeetsAt
    rw [hout hne, show (fun i => (s'.cpus (who i)).locAt cfg b (u' (who i))) =
      fun i => (s.cpus (who i)).locAt cfg b (u (who i)) by
        funext i
        rw [hcpus, hu, Function.update_of_ne (hne i), Function.update_of_ne (hne i)]]
    exact h

/-- **A step of a CPU**, by its place at the barriers. -/
theorem MeetInv.move (h : MeetInv hn u σ s) (hsync : SyncInv cfg u' s') (hcpus : s'.cpus = Function.update s.cpus c cpu)
    (hu : u' = Function.update u c v) (haff : s'.affinity = s.affinity)
    (hthread : ∀ b, b ≠ .cpu → (σ c).val < cfg.noThreads → LocMove cfg.noThreads (s.lock = none) (s.bars b) (s'.bars b)
      ((s.cpus c).locAt cfg b (u c)) (cpu.locAt cfg b v))
    (hidle : ∀ b, b ≠ .cpu → cfg.noThreads ≤ (σ c).val → s'.bars b = s.bars b)
    (hvcpu : cpu.assigned cfg = true → cpu.vcpu = σ c) (hruns : cpu.inThread = true → cpu.vcpu < cfg.noThreads)
    (hfresh : cpu.pc = .allocate ∨ cpu.pc = .waitAllocate → σ = s.affinity) : MeetInv hn u' σ s' := by
  refine ⟨hsync, fun b hb => ?_, ?_, ?_, ?_⟩
  · refine MeetsAt.move h.sync (h.thread b hb) (Fintype.card_fin _).symm (threadCpu_injective hn σ) hcpus hu
      (fun i hi => hthread b hb (lt_of_threadCpu hi)) fun hne => hidle b hb ?_
    rw [← not_lt]
    intro hlt
    obtain ⟨i, hi⟩ := @exists_threadCpu n cfg hn σ c hlt
    exact hne i hi
  · rw [hcpus]
    exact forall_update (P := fun d cpu => cpu.assigned cfg = true → cpu.vcpu = σ d) hvcpu h.vcpu
  · rw [hcpus]
    exact forall_update (P := fun _ cpu => cpu.inThread = true → cpu.vcpu < cfg.noThreads) hruns h.runs
  · rw [hcpus, haff]
    exact forall_update (P := fun _ cpu => cpu.pc = .allocate ∨ cpu.pc = .waitAllocate → σ = s.affinity) hfresh h.fresh

/-! ## The steps between the barriers -/

/-- What a step between the barriers is, for the barriers of the threads. -/
structure Cpu.Quiet (cfg : RunConfig) (cpu cpu' : Cpu) : Prop where
  assigned : cpu'.assigned cfg = true → cpu.assigned cfg = true ∧ cpu'.vcpu = cpu.vcpu
  runs : cpu'.inThread = true → cpu.inThread = true ∧ cpu'.vcpu = cpu.vcpu ∨ cpu'.vcpu < cfg.noThreads
  passed : (cpu.assigned cfg = true → cpu.vcpu < cfg.noThreads) → ∀ b, cpu'.passed b = cpu.passed b

theorem passed_eq_false (h : cpu.pc ≠ .func ∧ cpu.pc ≠ .post ∧ cpu.pc ≠ .waitEnd ∧ cpu.pc ≠ .waitRun) (b : BarId) :
    cpu.passed b = false := by
  obtain ⟨h₁, h₂, h₃, h₄⟩ := h
  cases b <;> simp [Cpu.passed, h₁, h₂, h₃, h₄]

/-- Setting up a batch is neither. -/
theorem assigned_of_inSetup (hpc : cpu.pc.inSetup = true) : cpu.assigned cfg = true ∧ cpu.inThread = false ∧
    ∀ b, cpu.passed b = false := by
  unfold Pc.inSetup at hpc
  split at hpc <;> rename_i hpc' <;> (try cases hpc) <;>
    exact ⟨by simp [Cpu.assigned, hpc', Pc.inSetup], by simp [Cpu.inThread, hpc'],
      passed_eq_false (by simp [hpc'])⟩

/-- A step outside of the runs. -/
theorem Cpu.Quiet.out {cpu' : Cpu} (ha : cpu'.assigned cfg = false) (hin : cpu'.inThread = false)
    (hpc : cpu'.pc ≠ .func ∧ cpu'.pc ≠ .post ∧ cpu'.pc ≠ .waitEnd ∧ cpu'.pc ≠ .waitRun)
    (hp : ∀ b, cpu.passed b = false) : Cpu.Quiet cfg cpu cpu' := by
  refine ⟨fun h => ?_, fun h => ?_, fun _ b => (passed_eq_false hpc b).trans (hp b).symm⟩
  · rw [ha] at h
    cases h
  · rw [hin] at h
    cases h

theorem Cpu.step_quiet {mem : Vmsa.Mem} {cpu' : Cpu} {w : Option (U64 × U64)} (h : cpu.step cfg mem = some (cpu', w)) :
    Cpu.Quiet cfg cpu cpu' := by
  by_cases hset : cpu.pc.inSetup = true
  · obtain ⟨hpc, -, hv, -, -⟩ := Cpu.step_setup hset h
    obtain ⟨ha, -, hp⟩ := @assigned_of_inSetup cfg cpu hset
    have hnew : cpu'.inThread = false ∧ ∀ b, cpu'.passed b = false := by
      rcases hpc with hpc | hpc
      · exact (@assigned_of_inSetup cfg cpu' hpc).2
      · exact ⟨by simp [Cpu.inThread, hpc], passed_eq_false (by simp [hpc])⟩
    refine ⟨fun _ => ⟨ha, hv⟩, fun hin => ?_, fun _ b => by rw [hp, hnew.2]⟩
    rw [hnew.1] at hin
    cases hin
  unfold Cpu.step at h
  split at h <;> rename_i hpc <;> simp only [hpc, Pc.inSetup, not_true_eq_false, Bool.false_eq_true,
    not_false_eq_true] at hset
  · -- the outer loop
    have hp := @passed_eq_false cpu (by simp [hpc])
    split at h <;> cases h <;> exact .out rfl rfl (by simp [Cpu.enter]) hp
  · -- the inner loop
    have hp := @passed_eq_false cpu (by simp [hpc])
    split at h
    · rename_i hj
      have ha : cpu.assigned cfg = true := by simp [Cpu.assigned, hpc, hj]
      split at h <;> rename_i hv <;> cases h
      · exact ⟨fun _ => ⟨ha, rfl⟩, fun hin => Bool.noConfusion hin, fun hlt => absurd (hlt ha) (Nat.not_lt.mpr hv)⟩
      · exact ⟨fun _ => ⟨ha, rfl⟩, fun _ => .inr (Nat.not_le.mp hv),
          fun _ b => (passed_eq_false (by simp) b).trans (hp b).symm⟩
    · cases h
      exact .out rfl rfl (by simp) hp
  · -- `clean_run_data`
    have hp := @passed_eq_false cpu (by simp [hpc])
    split at h <;> cases h <;> exact .out rfl rfl (by simp) hp
  · have hp := @passed_eq_false cpu (by simp [hpc])
    dsimp only at h
    split at h <;> cases h <;> exact .out rfl rfl (by simp) hp
  · cases h

theorem Cpu.afterTest_quiet {cpu' : Cpu} (h : cpu.afterTest = some cpu') : Cpu.Quiet cfg cpu cpu' := by
  have ha : cpu.assigned cfg = true ∧ cpu.inThread = true ∧ cpu'.vcpu = cpu.vcpu := by
    unfold Cpu.afterTest at h
    split at h <;> rename_i hpc <;> cases h <;>
      exact ⟨by simp [Cpu.assigned, hpc, Pc.inSetup, Pc.inRun], by simp [Cpu.inThread, hpc], rfl⟩
  refine ⟨fun _ => ⟨ha.1, ha.2.2⟩, fun _ => .inl ha.2, fun _ b => ?_⟩
  unfold Cpu.afterTest at h
  split at h <;> rename_i hpc <;> cases h <;> cases b <;> simp [Cpu.passed, Cpu.enter, hpc]

theorem atBar_of_idle (h : cpu.waitsAt cfg n = none) (b : BarId) : cpu.atBar b = false := by
  rw [← Bool.not_eq_true]
  intro hb
  rw [waitsAt_iff.mpr ⟨hb, rfl⟩] at h
  cases h

/-- A CPU that was at no barrier may enter one. -/
theorem locMove_quiet {sz : Nat} {free : Prop} {bar : Bar} {cpu' : Cpu} (hidle : cpu.atBar b = false)
    (hpass : cpu'.passed b = cpu.passed b) (hbw : cpu'.atBar b = true → cpu'.bw = .acquire) :
    LocMove sz free bar bar (cpu.locAt cfg b v) (cpu'.locAt cfg b v) := by
  unfold Cpu.locAt
  rw [hidle, hpass]
  cases hat : cpu'.atBar b with
  | false => exact .same
  | true =>
    rw [hbw hat]
    exact .enter

/-- **A step between the barriers.** -/
theorem MeetInv.between (h : MeetInv hn u σ s) (hm : Cpu.Moves cfg n (cfg.stageAt (u c)) (s.cpus c) cpu)
    (hpassed : (σ c).val < cfg.noThreads → ∀ b, cpu.passed b = (s.cpus c).passed b)
    (hvcpu : cpu.assigned cfg = true → cpu.vcpu = σ c) (hruns : cpu.inThread = true → cpu.vcpu < cfg.noThreads)
    (hfresh : cpu.pc = .allocate ∨ cpu.pc = .waitAllocate → σ = s.affinity) (hv : cpu.vcpu < n)
    (hcpus : s'.cpus = Function.update s.cpus c cpu) (hbars : s'.bars = s.bars) (hlock : s'.lock = s.lock)
    (haff : s'.affinity = s.affinity) : MeetInv hn u σ s' := by
  have hidle := atBar_of_idle hm.idle
  have hbw : ∀ b, cpu.atBar b = true → cpu.bw = .acquire := by
    intro b hb
    refine hm.bw.resolve_right fun ⟨hnone, _⟩ => ?_
    rw [atBar_of_idle hnone b] at hb
    cases hb
  refine h.move (h.sync.moves hm hv hcpus hbars hlock) hcpus (Function.update_eq_self c u).symm haff
    (fun b hb hc => ?_) (fun b _ _ => by rw [hbars]) hvcpu hruns hfresh
  rw [hbars]
  exact locMove_quiet (hidle b) (hpassed hc b) (hbw b)

theorem MeetInv.quiet (h : MeetInv hn u σ s) (hm : Cpu.Moves cfg n (cfg.stageAt (u c)) (s.cpus c) cpu)
    (hq : Cpu.Quiet cfg (s.cpus c) cpu) (hfresh : cpu.pc = .allocate ∨ cpu.pc = .waitAllocate → σ = s.affinity)
    (hv : cpu.vcpu < n) (hcpus : s'.cpus = Function.update s.cpus c cpu) (hbars : s'.bars = s.bars)
    (hlock : s'.lock = s.lock) (haff : s'.affinity = s.affinity) : MeetInv hn u σ s' := by
  refine h.between hm (fun hc b => hq.passed (fun ha => by rw [h.vcpu c ha]; exact hc) b) (fun ha => ?_) (fun hin => ?_)
    hfresh hv hcpus hbars hlock haff
  · obtain ⟨ha, hvc⟩ := hq.assigned ha
    rw [hvc, h.vcpu c ha]
  · rcases hq.runs hin with ⟨hin, hvc⟩ | hlt
    · rw [hvc]
      exact h.runs c hin
    · exact hlt

/-! ## New affinities -/

/-- They may change while nobody reads them. -/
theorem MeetInv.newAffinity (h : MeetInv hn u σ s)
    (hno : ∀ d, (s.cpus d).pc ≠ .allocate ∧ (s.cpus d).pc ≠ .waitAllocate) (τ : Equiv.Perm (Fin n)) : MeetInv hn u σ { s with affinity := τ } :=
  ⟨⟨h.sync.stage, h.sync.cpuBar, h.sync.startBar, h.sync.lock, h.sync.idle, h.sync.vcpu⟩, h.thread, h.vcpu, h.runs,
    fun d hd => (hd.elim (hno d).1 (hno d).2).elim⟩

/-- While the CPUs get their threads, nobody is in a run. -/
theorem SyncInv.of_getAffinity (h : SyncInv cfg u s) (hc : (s.cpus c).pc = .getAffinity) (d : Fin n) :
    ((s.cpus d).pc = .waitAffinity ∨ (s.cpus d).pc = .getAffinity ∨ (s.cpus d).pc = .allocate ∨
      (s.cpus d).pc = .waitAllocate) ∧ ∀ b, b ≠ .cpu → cfg.usesBefore b (u d) = cfg.usesBefore b (u c) := by
  have hst := h.stage c
  simp only [Cpu.AtStage, hc] at hst
  have hd := h.stage d
  rcases h.stage_of_idle (by rw [hc]; rfl) d with hu | ⟨hu, hw⟩
  · rw [hu, hst.1] at hd
    exact ⟨.inr hd.of_allocate, fun b _ => by rw [hu]⟩
  · rw [hu, RunConfig.stageAt] at hst
    have hst' := hst.1.symm
    rcases hd.waitsCpu hw with ⟨-, h'⟩ | ⟨hpc, h'⟩ | ⟨-, h'⟩ | ⟨-, h'⟩ | ⟨-, h'⟩
    case inr.inr.inl =>
      refine ⟨.inl hpc, fun b hb => ?_⟩
      rw [hu, RunConfig.usesBefore, h']
      cases b with
      | cpu => exact absurd rfl hb
      | vcpu => rfl
      | start bi => rfl
    all_goals simp [h', RunConfig.nextStage] at hst'

/-- **The threads are assigned anew.** -/
theorem MeetInv.reassign (h : MeetInv hn u σ s) (hc : (s.cpus c).pc = .getAffinity) : MeetInv hn u s.affinity s := by
  have hall := h.sync.of_getAffinity hc
  refine ⟨h.sync, fun b hb => ?_, fun d ha => ?_, h.runs, fun _ _ => rfl⟩
  · -- all of them are at the same place
    have hloc : ∀ d, (s.cpus d).locAt cfg b (u d) = ⟨cfg.usesBefore b (u c), none⟩ := by
      intro d
      obtain ⟨hpc, huses⟩ := hall d
      have hpass : (s.cpus d).passed b = false := passed_eq_false (by rcases hpc with h | h | h | h <;> simp [h]) b
      have hat : (s.cpus d).atBar b = false := by
        cases b with
        | cpu => exact absurd rfl hb
        | vcpu => rcases hpc with h | h | h | h <;> simp [Cpu.atBar, h]
        | start bi => rcases hpc with h | h | h | h <;> simp [Cpu.atBar, h]
      rw [Cpu.locAt, hpass, hat, huses b hb]
      rfl
    have hmeet := h.thread b hb
    unfold MeetsAt at hmeet ⊢
    simp only [hloc] at hmeet ⊢
    exact hmeet
  · obtain ⟨hpc, -⟩ := hall d
    have hpc' : (s.cpus d).pc = .allocate ∨ (s.cpus d).pc = .waitAllocate := by
      rcases hpc with h' | h' | h' | h'
      · simp [Cpu.assigned, h', Pc.inSetup, Pc.inRun] at ha
      · simp [Cpu.assigned, h', Pc.inSetup, Pc.inRun] at ha
      · exact .inl h'
      · exact .inr h'
    rw [h.vcpu d ha, h.fresh d hpc']

/-! ## The waits -/

/-- A CPU that waits at a barrier of the threads executes one. -/
theorem inThread_of_atBar (hb : b ≠ .cpu) (hat : cpu.atBar b = true) :
    cpu.inThread = true ∧ cpu.assigned cfg = true ∧ cpu.pc.waitsCpu = false := by
  cases b with
  | cpu => exact absurd rfl hb
  | vcpu =>
    simp only [Cpu.atBar, decide_eq_true_eq] at hat
    simp [Cpu.inThread, Cpu.assigned, hat, Pc.inSetup, Pc.inRun, Pc.waitsCpu]
  | start bi =>
    simp only [Cpu.atBar, decide_eq_true_eq] at hat
    simp [Cpu.inThread, Cpu.assigned, hat.1, Pc.inSetup, Pc.inRun, Pc.waitsCpu]

/-- A CPU in a run of its thread has its place in the assignment. -/
theorem MeetInv.lt_of_inThread (h : MeetInv hn u σ s) (ha : (s.cpus c).assigned cfg = true)
    (hin : (s.cpus c).inThread = true) : (σ c).val < cfg.noThreads := by
  rw [← h.vcpu c ha]
  exact h.runs c hin

theorem MeetInv.lt_of_atBar (h : MeetInv hn u σ s) (hb : b ≠ .cpu) (hat : (s.cpus c).atBar b = true) :
    (σ c).val < cfg.noThreads := by
  obtain ⟨hin, ha, -⟩ := @inThread_of_atBar cfg _ _ hb hat
  exact h.lt_of_inThread ha hin

/-- A CPU waits at one barrier only. -/
theorem atBar_unique (cfg : RunConfig) {b' : BarId} (h : cpu.atBar b = true) (h' : cpu.atBar b' = true) : b = b' := by
  have h₁ := (@waitsAt_iff 0 cfg cpu b _).mpr ⟨h, rfl⟩
  rw [(@waitsAt_iff 0 cfg cpu b' _).mpr ⟨h', rfl⟩] at h₁
  exact ((Prod.mk.inj (Option.some.inj h₁)).1).symm

theorem locAt_bw (cfg : RunConfig) (cpu : Cpu) (b : BarId) (v : Nat) (bw : BwaitPc) :
    Cpu.locAt { cpu with bw := bw } cfg b v =
      ⟨(cpu.locAt cfg b v).uses, if cpu.atBar b then some bw else none⟩ := by
  cases b <;> rfl

/-- **An access in `bwait`.** -/
theorem MeetInv.wait (h : MeetInv hn u σ s) {sz : Nat} (hb : (s.cpus c).waitsAt cfg n = some (b, sz))
    (hlock : (bwaitStep true sz (s.bars b) (s.cpus c).bw).2.1 = .acquire → s.lock = none) :
    MeetInv hn u σ { s.setCpu c { s.cpus c with bw := (bwaitStep true sz (s.bars b) (s.cpus c).bw).2.2 } with
      bars := Function.update s.bars b (bwaitStep true sz (s.bars b) (s.cpus c).bw).1
      lock := (bwaitStep true sz (s.bars b) (s.cpus c).bw).2.1.apply c s.lock } := by
  obtain ⟨hat, hsz⟩ := waitsAt_iff.mp hb
  refine h.move (h.sync.wait hb hlock) rfl (Function.update_eq_self c u).symm rfl (fun b' hb' _ => ?_)
    (fun b' hb' hc => ?_) (h.vcpu c) (h.runs c) (h.fresh c)
  · show LocMove cfg.noThreads (s.lock = none) (s.bars b') (Function.update s.bars b _ b') _ _
    rw [locAt_bw cfg (s.cpus c) b' (u c) (bwaitStep true sz (s.bars b) (s.cpus c).bw).2.2]
    by_cases he : b' = b
    · subst he
      have hold : (s.cpus c).locAt cfg b' (u c) = ⟨((s.cpus c).locAt cfg b' (u c)).uses, some (s.cpus c).bw⟩ := by
        rw [Cpu.locAt, hat]
        rfl
      rw [if_neg hb'] at hsz
      rw [Function.update_self, if_pos hat, ← hsz]
      generalize ((s.cpus c).locAt cfg b' (u c)).uses = m at hold ⊢
      rw [hold]
      exact .access hlock
    · have hno : (s.cpus c).atBar b' = false := by
        rw [← Bool.not_eq_true]
        exact fun h' => he (atBar_unique cfg h' hat)
      have hold : (s.cpus c).locAt cfg b' (u c) = ⟨((s.cpus c).locAt cfg b' (u c)).uses, none⟩ := by
        rw [Cpu.locAt, hno]
        rfl
      rw [Function.update_of_ne he, hno, if_neg Bool.false_ne_true, ← hold]
      exact .same
  · refine Function.update_of_ne ?_ _ _
    rintro rfl
    exact absurd (h.lt_of_atBar hb' hat) (Nat.not_lt.mpr hc)

/-- After a wait on `generic_cpu_barrier`. -/
theorem Cpu.afterWait_cpu (hw : cpu.pc.waitsCpu = true) :
    (cpu.afterWait.assigned cfg = true → cpu.assigned cfg = true) ∧ cpu.afterWait.inThread = false ∧
    cpu.afterWait.pc ≠ .allocate ∧ cpu.afterWait.pc ≠ .waitAllocate := by
  unfold Pc.waitsCpu at hw
  split at hw <;> rename_i hpc <;>
    simp_all [Cpu.afterWait, Cpu.assigned, Cpu.inThread, Pc.inSetup, Pc.inRun]

/-- What it has used in its stage counts for the next one. -/
theorem Cpu.AtStage.locAt_afterWait (hst : cpu.AtStage cfg (cfg.stageAt v)) (hw : cpu.pc.waitsCpu = true)
    (hb : b ≠ .cpu) : cpu.afterWait.locAt cfg b (v + 1) = cpu.locAt cfg b v := by
  unfold Cpu.locAt
  rw [RunConfig.usesBefore]
  rcases hst.waitsCpu hw with ⟨hpc, hst⟩ | ⟨hpc, hst⟩ | ⟨hpc, hst⟩ | ⟨hpc, hst⟩ | ⟨hpc, hst⟩ <;> rw [hst] <;>
    cases b <;> simp_all [Cpu.afterWait, Cpu.atBar, Cpu.passed, Stage.uses]

/-- **A return from `generic_cpu_barrier`.** -/
theorem MeetInv.leaveCpu (h : MeetInv hn u σ s) (hw : (s.cpus c).pc.waitsCpu = true) (hbw : (s.cpus c).bw = .done) :
    MeetInv hn (Function.update u c (u c + 1)) σ (s.setCpu c (s.cpus c).afterWait) := by
  obtain ⟨-, -, -, -, -, -, hv, -⟩ := (h.sync.stage c).afterWait hw
  obtain ⟨hassigned, hthread, hne⟩ := @Cpu.afterWait_cpu cfg _ hw
  refine h.move (h.sync.leaveCpu hw hbw) rfl rfl rfl (fun b hb _ => ?_) (fun b _ _ => rfl) (fun ha => ?_)
    (fun hin => ?_) fun hpc => (hpc.elim hne.1 hne.2).elim
  · rw [(h.sync.stage c).locAt_afterWait hw hb]
    exact .same
  · rw [hv, h.vcpu c (hassigned ha)]
  · rw [hthread] at hin
    cases hin

/-- After a wait at a barrier of the threads. -/
theorem Cpu.afterWait_thread (hpc : cpu.pc = .waitStart ∨ cpu.pc = .waitEnd) :
    (∀ b, b ≠ .cpu → cpu.afterWait.atBar b = false ∧ cpu.afterWait.passed b = (cpu.passed b || cpu.atBar b) ∧
      (cpu.atBar b = true → cpu.passed b = false)) ∧
    cpu.afterWait.vcpu = cpu.vcpu ∧ cpu.assigned cfg = true ∧ cpu.inThread = true ∧ cpu.afterWait.pc ≠ .allocate ∧
    cpu.afterWait.pc ≠ .waitAllocate := by
  refine ⟨fun b hb => ?_, ?_⟩
  · cases b with
    | cpu => exact absurd rfl hb
    | vcpu => rcases hpc with hpc | hpc <;> simp [Cpu.afterWait, Cpu.atBar, Cpu.passed, Cpu.enter, hpc]
    | start bi => rcases hpc with hpc | hpc <;> simp [Cpu.afterWait, Cpu.atBar, Cpu.passed, Cpu.enter, hpc]
  · rcases hpc with hpc | hpc <;>
      simp [Cpu.afterWait, Cpu.assigned, Cpu.inThread, Cpu.enter, Pc.inSetup, Pc.inRun, hpc]

/-- A CPU that leaves a barrier has passed it. -/
theorem locMove_leave {sz : Nat} {free : Prop} {bar : Bar} {cpu' : Cpu} (hbw : cpu.bw = .done)
    (hout : cpu'.atBar b = false) (hpass : cpu'.passed b = (cpu.passed b || cpu.atBar b))
    (hnot : cpu.atBar b = true → cpu.passed b = false) :
    LocMove sz free bar bar (cpu.locAt cfg b v) (cpu'.locAt cfg b v) := by
  unfold Cpu.locAt
  rw [hout, hpass]
  cases hat : cpu.atBar b with
  | false =>
    rw [Bool.or_false]
    exact .same
  | true =>
    rw [hnot hat, hbw]
    exact .leave

/-- **A return from a barrier of the threads.** -/
theorem MeetInv.leaveThread (h : MeetInv hn u σ s) (hpc : (s.cpus c).pc = .waitStart ∨ (s.cpus c).pc = .waitEnd)
    (hbw : (s.cpus c).bw = .done) : MeetInv hn u σ (s.setCpu c (s.cpus c).afterWait) := by
  obtain ⟨hbars, hv, ha, hin, hne⟩ := @Cpu.afterWait_thread cfg _ hpc
  have hsync : SyncInv cfg u (s.setCpu c (s.cpus c).afterWait) := by
    rcases hpc with hpc | hpc
    · exact h.sync.leaveStart hpc hbw
    · exact h.sync.leaveEnd hpc hbw
  refine h.move hsync rfl (Function.update_eq_self c u).symm rfl (fun b hb _ => ?_) (fun _ _ _ => rfl) (fun _ => ?_)
    (fun _ => ?_) fun hpc => (hpc.elim hne.1 hne.2).elim
  · obtain ⟨hout, hpass, hnot⟩ := hbars b hb
    exact locMove_leave hbw hout hpass hnot
  · rw [hv, h.vcpu c ha]
  · rw [hv]
    exact h.runs c hin

/-! ## All steps -/

theorem meetInv_init (hn : cfg.noThreads ≤ n) (hs : RunInit s) : MeetInv hn (fun _ => 0) (Equiv.refl _) s := by
  have hsync := @syncInv_init n cfg s hs
  obtain ⟨mem, rfl⟩ := hs
  refine ⟨hsync, fun b hb => ?_, fun c ha => Bool.noConfusion ha, fun c hin => Bool.noConfusion hin, fun _ _ => rfl⟩
  cases b with
  | cpu => exact absurd rfl hb
  | vcpu => exact barrierOk_init
  | start bi => exact barrierOk_init

/-- A step inside `setup_run_data`. -/
theorem Cpu.Quiet.setup {cpu' : Cpu} (hpc : cpu.pc.inSetup = true) (hpc' : cpu'.pc.inSetup = true)
    (hv : cpu'.vcpu = cpu.vcpu) : Cpu.Quiet cfg cpu cpu' := by
  obtain ⟨ha, -, hp⟩ := @assigned_of_inSetup cfg cpu hpc
  obtain ⟨-, hin', hp'⟩ := @assigned_of_inSetup cfg cpu' hpc'
  refine ⟨fun _ => ⟨ha, hv⟩, fun hin => ?_, fun _ b => by rw [hp, hp']⟩
  rw [hin'] at hin
  cases hin

theorem inSetup_fresh (hpc : cpu.pc.inSetup = true) : ¬(cpu.pc = .allocate ∨ cpu.pc = .waitAllocate) := by
  rintro (h | h) <;> rw [h] at hpc <;> cases hpc

theorem Cpu.step_fresh {mem : Vmsa.Mem} {cpu' : Cpu} {w : Option (U64 × U64)} (h : cpu.step cfg mem = some (cpu', w)) :
    ¬(cpu'.pc = .allocate ∨ cpu'.pc = .waitAllocate) := by
  unfold Cpu.step at h
  split at h <;> (try dsimp only at h) <;> (repeat' (split at h)) <;> cases h <;> simp [Cpu.enter]

theorem Cpu.afterTest_fresh {cpu' : Cpu} (h : cpu.afterTest = some cpu') :
    ¬(cpu'.pc = .allocate ∨ cpu'.pc = .waitAllocate) := by
  unfold Cpu.afterTest at h
  split at h <;> cases h <;> simp [Cpu.enter]

/-- A CPU goes on inside `setup_run_data`. -/
theorem MeetInv.setPc (h : MeetInv hn u σ s) {pc : Pc} (hpc : (s.cpus c).pc.inSetup = true) (hpc' : pc.inSetup = true)
    (hcpus : s'.cpus = Function.update s.cpus c { s.cpus c with pc := pc }) (hbars : s'.bars = s.bars)
    (hlock : s'.lock = s.lock) (haff : s'.affinity = s.affinity) : MeetInv hn u σ s' := by
  have hm : Cpu.Moves cfg n (cfg.stageAt (u c)) (s.cpus c) { s.cpus c with pc := pc } :=
    Cpu.setup_moves (h.sync.stage c) hpc hpc' rfl rfl rfl
  exact h.quiet hm (.setup hpc hpc' rfl) (fun hf => (inSetup_fresh hpc' hf).elim) (h.sync.vcpu c) hcpus hbars hlock haff

/-- A call of `BWAIT` while the threads are assigned. -/
theorem Cpu.Quiet.enter {pc : Pc}
    (hpc : cpu.pc = .newAffinity ∧ pc = .waitAffinity ∨ cpu.pc = .allocate ∧ pc = .waitAllocate) :
    Cpu.Quiet cfg cpu (cpu.enter pc) := by
  have hp : ∀ b, cpu.passed b = false := passed_eq_false (by rcases hpc with ⟨hpc, -⟩ | ⟨hpc, -⟩ <;> simp [hpc])
  rcases hpc with ⟨hpc, rfl⟩ | ⟨hpc, rfl⟩
  · exact .out rfl rfl (by simp [Cpu.enter]) hp
  · refine ⟨fun _ => ⟨by simp [Cpu.assigned, hpc], rfl⟩, fun hin => Bool.noConfusion hin, fun _ b => ?_⟩
    rw [hp, passed_eq_false (by simp [Cpu.enter])]

/-- **What every step keeps.** The assignment only changes when a CPU gets its thread. -/
theorem meetInv_step (hb : 0 < cfg.batchSize) (h : MeetInv hn u σ s) (hstep : StepTo cfg s c s') :
    ∃ u' σ', MeetInv hn u' σ' s' ∧ (σ' = σ ∨ (s.cpus c).pc = .getAffinity ∧ σ' = s.affinity) := by
  have hst := h.sync.stage c
  have hv := h.sync.vcpu c
  cases hstep with
  | wait hbar _ hlock => exact ⟨u, σ, h.wait hbar hlock, .inl rfl⟩
  | leave hbar hbw =>
    cases hw : (s.cpus c).pc.waitsCpu with
    | true => exact ⟨_, σ, h.leaveCpu hw hbw, .inl rfl⟩
    | false =>
      refine ⟨u, σ, h.leaveThread ?_ hbw, .inl rfl⟩
      unfold Cpu.waitsAt at hbar
      split at hbar <;> rename_i hpc <;> simp only [hpc, Pc.waitsCpu, Bool.true_eq_false, reduceCtorEq] at hw hbar
      · exact .inl hpc
      · exact .inr hpc
  | @own cpu w hown =>
    obtain ⟨hm, hv'⟩ := Cpu.step_moves (n := n) hb hst hown
    obtain ⟨hcpus, hbars, hlock, haff, -⟩ := store_frame s w
    exact ⟨u, σ, h.quiet hm (Cpu.step_quiet hown) (fun hf => (Cpu.step_fresh hown hf).elim) (hv' ▸ hv)
      (by rw [RunState.setCpu, hcpus]) hbars hlock haff, .inl rfl⟩
  | keepAffinity hpc =>
    exact ⟨u, σ, h.quiet (Cpu.enter_moves hst (.inl ⟨hpc, rfl⟩)) (.enter (.inl ⟨hpc, rfl⟩))
      (fun hf => by simp [Cpu.enter] at hf) hv rfl rfl rfl rfl, .inl rfl⟩
  | affinity hpc τ =>
    have hnew := h.newAffinity (fun d => h.sync.of_newAffinity hpc d) τ
    exact ⟨u, σ, hnew.quiet (Cpu.enter_moves hst (.inl ⟨hpc, rfl⟩)) (.enter (.inl ⟨hpc, rfl⟩))
      (fun hf => by simp [Cpu.enter] at hf) hv rfl rfl rfl rfl, .inl rfl⟩
  | getAffinity hpc =>
    simp only [Cpu.AtStage, hpc] at hst
    have hm : Cpu.Moves cfg n (cfg.stageAt (u c)) (s.cpus c) { s.cpus c with pc := .allocate, vcpu := s.affinity c } :=
      ⟨hst, by simp [Cpu.waitsAt, hpc], .inr ⟨rfl, rfl⟩, fun _ => by simp [Cpu.pastStart, hpc]⟩
    refine ⟨u, s.affinity, (h.reassign hpc).between hm (fun _ b => ?_) (fun _ => rfl) (fun hin => Bool.noConfusion hin)
      (fun _ => rfl) (s.affinity c).isLt rfl rfl rfl rfl, .inr ⟨hpc, rfl⟩⟩
    rw [@passed_eq_false (s.cpus c) (by simp [hpc]), passed_eq_false (by simp)]
  | keepTables hpc _ =>
    exact ⟨u, σ, h.quiet (Cpu.enter_moves hst (.inr ⟨hpc, rfl⟩)) (.enter (.inr ⟨hpc, rfl⟩))
      (fun _ => h.fresh c (.inl hpc)) hv rfl rfl rfl rfl, .inl rfl⟩
  | allocate hpc _ _ =>
    exact ⟨u, σ, h.quiet (Cpu.enter_moves hst (.inr ⟨hpc, rfl⟩)) (.enter (.inr ⟨hpc, rfl⟩))
      (fun _ => h.fresh c (.inl hpc)) hv rfl rfl rfl rfl, .inl rfl⟩
  | ensureLock hpc => exact ⟨u, σ, h.setPc (by rw [hpc]; rfl) rfl rfl rfl rfl rfl, .inl rfl⟩
  | ensureUnlock hpc => exact ⟨u, σ, h.setPc (by rw [hpc]; rfl) rfl rfl rfl rfl rfl, .inl rfl⟩
  | page hpc pg => exact ⟨u, σ, h.setPc (by rw [hpc]; rfl) rfl rfl rfl rfl rfl, .inl rfl⟩
  | write _ addr val =>
    have hs := h.sync
    exact ⟨u, σ, ⟨⟨hs.stage, hs.cpuBar, hs.startBar, hs.lock, hs.idle, hs.vcpu⟩, h.thread, h.vcpu, h.runs, h.fresh⟩,
      .inl rfl⟩
  | «return» hret =>
    obtain ⟨hm, hv'⟩ := Cpu.afterTest_moves (n := n) hst hret
    exact ⟨u, σ, h.quiet hm (Cpu.afterTest_quiet hret) (fun hf => (Cpu.afterTest_fresh hret hf).elim) (hv' ▸ hv)
      rfl rfl rfl rfl, .inl rfl⟩

theorem meetInv_reachable (hn : cfg.noThreads ≤ n) (hb : 0 < cfg.batchSize)
    (h : Reach.Reachable RunInit (fun s s' => ∃ c a, step cfg s c a = some s') s) : ∃ u σ, MeetInv hn u σ s :=
  h.inv (I := fun s => ∃ u σ, MeetInv hn u σ s) (fun _ hs => ⟨_, _, meetInv_init hn hs⟩)
    fun _ _ ⟨_, _, hinv⟩ ⟨_, _, hstep⟩ =>
      let ⟨_, _, hinv', _⟩ := meetInv_step hb hinv (stepTo_of_step hstep)
      ⟨_, _, hinv'⟩

end Steps

/-! ## Runs are apart -/

/-- Two CPUs are in the same run. -/
def Cpu.SameRun (cpu cpu' : Cpu) : Prop := cpu'.batchStart = cpu.batchStart ∧ cpu'.j = cpu.j

/-- It is in `end_of_run`: it returns from the barrier after the run, and has not begun to wait for the next one. -/
def Cpu.collects (cfg : RunConfig) (cpu : Cpu) : Bool :=
  match cpu.pc with
  | .waitEnd => cpu.bw = .done
  | .waitRun => cpu.bw = .acquire ∧ cpu.vcpu < cfg.noThreads
  | _ => false

section Apart

variable {n : Nat} {cfg : RunConfig} {hn : cfg.noThreads ≤ n} {u : Fin n → Nat} {σ : Equiv.Perm (Fin n)}
  {s : RunState n} {c d : Fin n} {cpu : Cpu} {b : BarId} {v w : Nat} {st : Stage}

theorem usesBefore_mono (h : v ≤ w) : cfg.usesBefore b v ≤ cfg.usesBefore b w := by
  induction h with
  | refl => exact le_rfl
  | step _ ih => exact ih.trans (Nat.le_add_right _ _)

/-- A CPU comes to a barrier as often as its stage says. -/
theorem Cpu.AtStage.uses_le (hst : cpu.AtStage cfg st) (hb : b ≠ .cpu) :
    (if cpu.passed b then 1 else 0) + (if cpu.atBar b then 1 else 0) ≤ st.uses b := by
  cases b with
  | cpu => exact absurd rfl hb
  | vcpu =>
    unfold Cpu.AtStage at hst
    split at hst <;> rename_i hpc <;> simp [Cpu.passed, Cpu.atBar, hpc] <;> simp [hst.1, Stage.uses]
  | start bi =>
    unfold Cpu.AtStage at hst
    split at hst <;> rename_i hpc <;> simp [Cpu.passed, Cpu.atBar, hpc] <;> simp [hst.1, Stage.uses]

theorem Cpu.locAt_arrived (cfg : RunConfig) (cpu : Cpu) (b : BarId) (v : Nat) : (cpu.locAt cfg b v).arrived ≤
    cfg.usesBefore b v + ((if cpu.passed b then 1 else 0) + (if cpu.atBar b then 1 else 0)) := by
  have hle : ∀ l : Loc, l.arrived ≤ l.uses + 1 := fun l => by
    unfold Loc.arrived
    split <;> omega
  unfold Cpu.locAt
  cases hat : cpu.atBar b with
  | false => simp [Loc.arrived, Loc.inside, Loc.after]
  | true => exact (hle _).trans (by simp [Nat.add_assoc])

theorem Cpu.AtStage.arrived_le (hst : cpu.AtStage cfg (cfg.stageAt v)) (hb : b ≠ .cpu) :
    (cpu.locAt cfg b v).arrived ≤ cfg.usesBefore b (v + 1) :=
  (cpu.locAt_arrived cfg b v).trans (Nat.add_le_add_left (hst.uses_le hb) _)

/-- It has come to the barrier in its stage. -/
theorem Cpu.of_lt_arrived (h : cfg.usesBefore b v < (cpu.locAt cfg b v).arrived) :
    cpu.atBar b = true ∨ cpu.passed b = true := by
  have hle := cpu.locAt_arrived cfg b v
  cases hat : cpu.atBar b with
  | true => exact .inl rfl
  | false =>
    cases hp : cpu.passed b with
    | true => exact .inr rfl
    | false =>
      simp only [hat, hp, Bool.false_eq_true, if_false] at hle
      omega

/-- It has left the barrier in its stage. -/
theorem Cpu.lt_departed (h : cpu.passed b = true ∨ cpu.atBar b = true ∧ cpu.bw = .done) :
    cfg.usesBefore b v < (cpu.locAt cfg b v).departed := by
  rcases h with h | ⟨h, hbw⟩
  · have hle : ∀ l : Loc, l.uses ≤ l.departed := fun l => by
      unfold Loc.departed
      split <;> omega
    refine Nat.lt_of_lt_of_le ?_ (hle _)
    rw [Cpu.locAt, h]
    exact Nat.lt_succ_self _
  · rw [Cpu.locAt, h, hbw]
    exact Nat.lt_succ_of_le (Nat.le_add_right _ _)

/-- **No thread is past a barrier before all of them have come to it.** -/
theorem MeetInv.arrived (h : MeetInv hn u σ s) (hb : b ≠ .cpu) (ha : (s.cpus c).assigned cfg = true)
    (hlt : (s.cpus c).vcpu < cfg.noThreads)
    (hleft : (s.cpus c).passed b = true ∨ (s.cpus c).atBar b = true ∧ (s.cpus c).bw = .done)
    (hle : ∀ d, u d ≤ u c) (i : Fin cfg.noThreads) : u (threadCpu hn σ i) = u c ∧
      ((s.cpus (threadCpu hn σ i)).atBar b = true ∨ (s.cpus (threadCpu hn σ i)).passed b = true) := by
  rw [h.vcpu c ha] at hlt
  obtain ⟨k, rfl⟩ := @exists_threadCpu n cfg hn σ c hlt
  have hlt' := (Cpu.lt_departed hleft).trans_le ((h.thread b hb).departed_le_arrived k i)
  have hu : u (threadCpu hn σ i) = u (threadCpu hn σ k) := by
    refine le_antisymm (hle _) (Nat.not_lt.mp fun hd => ?_)
    have harr := (h.sync.stage (threadCpu hn σ i)).arrived_le hb
    have hmono := @usesBefore_mono cfg b _ _ (Nat.succ_le_of_lt hd)
    exact absurd (hlt'.trans_le (harr.trans hmono)) (Nat.lt_irrefl _)
  exact ⟨hu, Cpu.of_lt_arrived (hu ▸ hlt')⟩

theorem inRun_of_atBar (hb : b ≠ .cpu) (h : cpu.atBar b = true ∨ cpu.passed b = true) : cpu.pc.inRun = true := by
  cases b with
  | cpu => exact absurd rfl hb
  | vcpu =>
    simp only [Cpu.atBar, Cpu.passed, decide_eq_true_eq] at h
    rcases h with h | h <;> rw [h] <;> rfl
  | start bi =>
    simp only [Cpu.atBar, Cpu.passed, decide_eq_true_eq] at h
    rcases h with ⟨h, -⟩ | ⟨h | h | h | h, -⟩ <;> rw [h] <;> rfl

theorem Cpu.AtStage.of_inRun (hst : cpu.AtStage cfg st) (h : cpu.pc.inRun = true) :
    st = .run cpu.batchStart cpu.j := by
  unfold Pc.inRun at h
  split at h <;> rename_i hpc <;> simp only [Cpu.AtStage, hpc] at hst <;> first | exact hst.1 | cases h

theorem assigned_of_inRun (h : cpu.pc.inRun = true) : cpu.assigned cfg = true := by
  unfold Pc.inRun at h
  split at h <;> rename_i hpc <;> simp_all [Cpu.assigned, Pc.inRun]

theorem SyncInv.sameRun (h : SyncInv cfg u s) (hu : u d = u c) (hc : (s.cpus c).pc.inRun = true)
    (hd : (s.cpus d).pc.inRun = true) : (s.cpus c).SameRun (s.cpus d) := by
  have hstc := (h.stage c).of_inRun hc
  have hstd := (h.stage d).of_inRun hd
  rw [hu, hstc] at hstd
  injection hstd with hbatch hj
  exact ⟨hbatch.symm, hj.symm⟩

theorem MeetInv.vcpu_threadCpu (h : MeetInv hn u σ s) {i : Fin cfg.noThreads}
    (ha : (s.cpus (threadCpu hn σ i)).assigned cfg = true) : (s.cpus (threadCpu hn σ i)).vcpu = i := by
  rw [h.vcpu _ ha, threadCpu, Equiv.apply_symm_apply]
  rfl

/-- All threads have come to the barrier in the run of the CPU. -/
theorem MeetInv.together (h : MeetInv hn u σ s) (hb : b ≠ .cpu) (hc : (s.cpus c).pc.inRun = true)
    (hlt : (s.cpus c).vcpu < cfg.noThreads)
    (hleft : (s.cpus c).passed b = true ∨ (s.cpus c).atBar b = true ∧ (s.cpus c).bw = .done)
    (hle : ∀ d, u d ≤ u c) (i : Fin cfg.noThreads) : (s.cpus (threadCpu hn σ i)).vcpu = i ∧
      (s.cpus c).SameRun (s.cpus (threadCpu hn σ i)) ∧ u (threadCpu hn σ i) = u c ∧
      ((s.cpus (threadCpu hn σ i)).atBar b = true ∨ (s.cpus (threadCpu hn σ i)).passed b = true) := by
  obtain ⟨hu, hat⟩ := h.arrived hb (assigned_of_inRun hc) hlt hleft hle i
  have hd := inRun_of_atBar hb hat
  exact ⟨h.vcpu_threadCpu (assigned_of_inRun hd), h.sync.sameRun hu hc hd, hu, hat⟩

/-- A CPU in the code of a test executes a thread. -/
theorem inTest_cases (hc : cpu.pc.inTest = true) :
    cpu.pc.waitsCpu = false ∧ cpu.pc.inRun = true ∧ cpu.inThread = true := by
  unfold Pc.inTest at hc
  split at hc <;> rename_i hpc <;>
    first | exact ⟨by rw [hpc]; rfl, by rw [hpc]; rfl, by simp [Cpu.inThread, hpc]⟩ | cases hc

/-- Nobody is ahead of a CPU that does not wait. -/
theorem SyncInv.le_of_idle (h : SyncInv cfg u s) (hc : (s.cpus c).pc.waitsCpu = false) (d : Fin n) : u d ≤ u c := by
  rcases h.stage_of_idle hc d with hu | ⟨hu, -⟩ <;> omega

/-- Nor of one that has only called `BWAIT`. -/
theorem SyncInv.le_of_acquire (h : SyncInv cfg u s) (hbw : (s.cpus c).bw = .acquire) (d : Fin n) : u d ≤ u c := by
  have hle := ((s.cpus d).le_cpuLoc_departed (u d)).trans (h.cpuBar.departed_le_arrived d c)
  refine hle.trans ?_
  unfold Loc.arrived Cpu.cpuLoc
  rw [hbw]
  cases hw : (s.cpus c).pc.waitsCpu <;> simp [Loc.inside, Loc.after, BwaitPc.inside, BwaitPc.after]

theorem MeetInv.collects (h : MeetInv hn u σ s) (hc : (s.cpus c).collects cfg = true) :
    (s.cpus c).pc.inRun = true ∧ (s.cpus c).vcpu < cfg.noThreads ∧ (∀ d, u d ≤ u c) ∧
      ((s.cpus c).passed .vcpu = true ∨ (s.cpus c).atBar .vcpu = true ∧ (s.cpus c).bw = .done) := by
  unfold Cpu.collects at hc
  split at hc
  · next hpc =>
    exact ⟨by rw [hpc]; rfl, h.runs c (by simp [Cpu.inThread, hpc]), h.sync.le_of_idle (by rw [hpc]; rfl),
      .inr ⟨by simp [Cpu.atBar, hpc], of_decide_eq_true hc⟩⟩
  · next hpc =>
    obtain ⟨hbw, hlt⟩ := of_decide_eq_true hc
    exact ⟨by rw [hpc]; rfl, hlt, h.sync.le_of_acquire hbw, .inl (by simp [Cpu.passed, hpc])⟩
  · cases hc

/-- **The runs of a test are apart**, however the CPUs interleave. All CPUs in the code of the test are in the same run,
each with a thread of its own. While the function of a thread is called, or what comes after it, each of the other
threads waits for the start of the run, is in it, or waits for its end. And while results are collected, nobody is in
the code of the test. -/
theorem runs_apart (hn : cfg.noThreads ≤ n) (hb : 0 < cfg.batchSize)
    (h : Reach.Reachable RunInit (fun s s' => ∃ c a, step cfg s c a = some s') s) :
    (∀ c d, (s.cpus c).pc.inTest = true → (s.cpus d).pc.inTest = true →
      (s.cpus c).SameRun (s.cpus d) ∧ ((s.cpus c).vcpu = (s.cpus d).vcpu → c = d)) ∧
    (∀ c, (s.cpus c).pc = .func ∨ (s.cpus c).pc = .post → ∀ i < cfg.noThreads, ∃ d, (s.cpus d).vcpu = i ∧
      (s.cpus c).SameRun (s.cpus d) ∧
      ((s.cpus d).pc = .waitStart ∨ (s.cpus d).pc = .func ∨ (s.cpus d).pc = .post ∨ (s.cpus d).pc = .waitEnd)) ∧
    ∀ c, (s.cpus c).collects cfg = true → (∀ d, (s.cpus d).pc.inTest = false) ∧ ∀ i < cfg.noThreads,
      ∃ d, (s.cpus d).vcpu = i ∧ (s.cpus c).SameRun (s.cpus d) ∧
        ((s.cpus d).pc = .waitEnd ∨ (s.cpus d).pc = .waitRun) := by
  obtain ⟨u, σ, hinv⟩ := meetInv_reachable hn hb h
  refine ⟨fun c d hc hd => ?_, fun c hc i hi => ?_, fun c hc => ?_⟩
  · obtain ⟨hwc, hrc, -⟩ := inTest_cases hc
    obtain ⟨hwd, hrd, -⟩ := inTest_cases hd
    have hu : u d = u c := le_antisymm (hinv.sync.le_of_idle hwc d) (hinv.sync.le_of_idle hwd c)
    refine ⟨hinv.sync.sameRun hu hrc hrd, fun hv => ?_⟩
    rw [hinv.vcpu c (assigned_of_inRun hrc), hinv.vcpu d (assigned_of_inRun hrd)] at hv
    exact σ.injective (Fin.ext hv)
  · have htest : (s.cpus c).pc.inTest = true := by rcases hc with hc | hc <;> rw [hc] <;> rfl
    obtain ⟨hw, hr, hin⟩ := inTest_cases htest
    have hpass : (s.cpus c).passed (.start ((s.cpus c).j - (s.cpus c).batchStart)) = true := by
      rcases hc with hc | hc <;> simp [Cpu.passed, hc]
    have hle := hinv.sync.le_of_idle hw
    obtain ⟨hv, hsame, hu, hat⟩ := hinv.together (by simp) hr (hinv.runs c hin) (.inl hpass) hle ⟨i, hi⟩
    refine ⟨_, hv, hsame, ?_⟩
    simp only [Cpu.atBar, Cpu.passed, decide_eq_true_eq] at hat
    rcases hat with ⟨hpc, -⟩ | ⟨hpc | hpc | hpc | hpc, -⟩
    · exact .inl hpc
    · exact .inr (.inl hpc)
    · exact .inr (.inr (.inl hpc))
    · exact .inr (.inr (.inr hpc))
    · -- who has left the barrier after the run has met the CPU there
      obtain ⟨k, hk⟩ := @exists_threadCpu n cfg hn σ c (hinv.lt_of_inThread (assigned_of_inRun hr) hin)
      have hrd : (s.cpus (threadCpu hn σ ⟨i, hi⟩)).pc.inRun = true := by rw [hpc]; rfl
      obtain ⟨-, hback⟩ := hinv.arrived (show BarId.vcpu ≠ .cpu by simp) (assigned_of_inRun hrd) (by rw [hv]; exact hi)
        (.inl (by simp [Cpu.passed, hpc])) (fun d => hu ▸ hle d) k
      rw [hk] at hback
      simp only [Cpu.atBar, Cpu.passed, decide_eq_true_eq] at hback
      rcases hc with hc | hc <;> simp [hc] at hback
  · obtain ⟨hr, hlt, hle, hleft⟩ := hinv.collects hc
    have hall := hinv.together (by simp) hr hlt hleft hle
    have hpcs : ∀ i, (s.cpus (threadCpu hn σ i)).pc = .waitEnd ∨ (s.cpus (threadCpu hn σ i)).pc = .waitRun := by
      intro i
      simpa [Cpu.atBar, Cpu.passed] using (hall i).2.2.2
    refine ⟨fun d => ?_, fun i hi => ?_⟩
    · rw [← Bool.not_eq_true]
      intro hd
      obtain ⟨-, hrd, hin⟩ := inTest_cases hd
      obtain ⟨k, rfl⟩ := @exists_threadCpu n cfg hn σ d (hinv.lt_of_inThread (assigned_of_inRun hrd) hin)
      rcases hpcs k with hpc | hpc <;> rw [hpc] at hd <;> cases hd
    · obtain ⟨hv, hsame, -⟩ := hall ⟨i, hi⟩
      exact ⟨_, hv, hsame, hpcs ⟨i, hi⟩⟩

/-- CPU 0 executes the only thread, and CPU 1 waits at the end of the run. -/
theorem runs_apart_one : ∃ s : RunState 2, (s.cpus 0).pc = .func ∧ ∀ i < onePage.noThreads, ∃ d, (s.cpus d).vcpu = i ∧
    (s.cpus 0).SameRun (s.cpus d) ∧
    ((s.cpus d).pc = .waitStart ∨ (s.cpus d).pc = .func ∨ (s.cpus d).pc = .post ∨ (s.cpus d).pc = .waitEnd) := by
  obtain ⟨s, hs, hpc⟩ := @onePage_reaches false (onePageStart ++ onePageTest) (fun s => (s.cpus 0).pc = .func)
    (by decide +kernel)
  have hs' : Reach.Reachable RunInit (fun s s' => ∃ c a, step onePage s c a = some s') s :=
    hs.mono fun _ _ ⟨l, h⟩ => ⟨l.1, l.2, h⟩
  have hfunc := of_decide_eq_true hpc
  exact ⟨s, hfunc, (@runs_apart 2 onePage s (by decide) (by decide) hs').2.1 0 (.inl hfunc)⟩

end Apart

end LitmusHarness
