import LitmusHarness.Runner.ThreadBarriers

/-!
# Every result once

The CPU of thread 0 hands on the result of a run in `end_of_run`. `collected` remembers of which runs, in this order.
Every run is collected exactly once, one after the other, also when the threads are assigned anew (`results_once`).
-/

namespace LitmusHarness

/-- The CPUs, and the runs of which `handle_new_result` was called. -/
structure CollectState (n : Nat) where
  run : RunState n
  collected : List Nat := []

/-- The run of which the CPU calls `handle_new_result` in its next step. -/
def Cpu.handsOn (cpu : Cpu) : Option Nat :=
  if cpu.pc = .waitEnd ∧ cpu.bw = .done ∧ cpu.vcpu = 0 then some cpu.j else none

/-- One access of a CPU. -/
def collectStep {n : Nat} (cfg : RunConfig) (s : CollectState n) (l : Fin n × RunAction n) : Option (CollectState n) :=
  match step cfg s.run l.1 l.2 with
  | none => none
  | some run => some { run := run, collected := s.collected ++ (s.run.cpus l.1).handsOn.toList }

/-- The states in all interleavings. -/
def CollectReachable {n : Nat} (cfg : RunConfig) : CollectState n → Prop :=
  Reach.Reachable (fun s => RunInit s.run ∧ s.collected = []) fun s s' => ∃ l, collectStep cfg s l = some s'

/-! ## The runs behind a CPU -/

namespace Cpu

/-- How many runs it has behind it. -/
def runsDone (cpu : Cpu) : Nat := if cpu.pc = .waitRun then cpu.j + 1 else cpu.j

/-- It counts to the number of runs. -/
def Counts (cfg : RunConfig) (cpu : Cpu) : Prop :=
  cpu.j ≤ cfg.noRuns ∧ (cpu.pc = .endOfThread ∨ cpu.pc = .done → cpu.j = cfg.noRuns)

/-- What a step does to the count. -/
structure Advances (cfg : RunConfig) (cpu cpu' : Cpu) : Prop where
  counts : cpu.Counts cfg → cpu'.Counts cfg
  runsDone : (cpu.assigned cfg = true → cpu.vcpu < cfg.noThreads) →
    cpu'.runsDone = cpu.runsDone + if cpu.pc = .waitEnd ∧ cpu.bw = .done then 1 else 0

end Cpu

section Steps

variable {n : Nat} {cfg : RunConfig} {s s' : RunState n} {c : Fin n} {cpu cpu' : Cpu} {st : Stage}

/-- A step that neither begins nor ends a wait after a run. -/
theorem Cpu.Advances.same (hj : cpu'.j = cpu.j) (hpc : cpu.pc ≠ .waitRun ∧ cpu.pc ≠ .waitEnd)
    (hpc' : cpu'.pc ≠ .waitRun ∧ cpu'.pc ≠ .endOfThread ∧ cpu'.pc ≠ .done) : Cpu.Advances cfg cpu cpu' where
  counts h := ⟨hj ▸ h.1, fun h' => (h'.elim hpc'.2.1 hpc'.2.2).elim⟩
  runsDone _ := by simp [Cpu.runsDone, hj, hpc, hpc']

theorem inSetup_ne (h : cpu.pc.inSetup = true) : (cpu.pc ≠ .waitRun ∧ cpu.pc ≠ .waitEnd) ∧
    cpu.pc ≠ .waitRun ∧ cpu.pc ≠ .endOfThread ∧ cpu.pc ≠ .done := by
  refine ⟨⟨?_, ?_⟩, ?_, ?_, ?_⟩ <;> intro hpc <;> rw [hpc] at h <;> cases h

theorem Cpu.step_advances {mem : Vmsa.Mem} {w : Option (U64 × U64)} (h : cpu.step cfg mem = some (cpu', w)) :
    Cpu.Advances cfg cpu cpu' := by
  by_cases hset : cpu.pc.inSetup = true
  · obtain ⟨hpc, -, -, hj, -⟩ := Cpu.step_setup hset h
    refine .same hj (inSetup_ne hset).1 ?_
    rcases hpc with hpc | hpc
    · exact (inSetup_ne hpc).2
    · simp [hpc]
  unfold Cpu.step at h
  split at h <;> rename_i hpc <;> simp only [hpc, Pc.inSetup, not_true_eq_false, Bool.false_eq_true,
    not_false_eq_true] at hset
  · -- the outer loop
    split at h <;> rename_i hj <;> cases h
    · exact .same rfl (by simp [hpc]) (by simp)
    · exact ⟨fun hc => ⟨hc.1, fun _ => le_antisymm hc.1 (Nat.not_lt.mp hj)⟩,
        fun _ => by simp [Cpu.runsDone, Cpu.enter, hpc]⟩
  · -- the inner loop
    split at h
    · rename_i hj
      have ha : cpu.assigned cfg = true := by simp [Cpu.assigned, hpc, hj]
      split at h <;> rename_i hv <;> cases h
      · exact ⟨fun hc => ⟨hc.1, fun h' => by simp [Cpu.enter] at h'⟩,
          fun hlt => absurd (hlt ha) (Nat.not_lt.mpr hv)⟩
      · exact .same rfl (by simp [hpc]) (by simp)
    · cases h
      exact .same rfl (by simp [hpc]) (by simp)
  · -- `clean_run_data`
    split at h <;> cases h <;> exact .same rfl (by simp [hpc]) (by simp)
  · dsimp only at h
    split at h <;> cases h <;> exact .same rfl (by simp [hpc]) (by simp)
  · cases h

theorem Cpu.afterTest_advances (h : cpu.afterTest = some cpu') : Cpu.Advances cfg cpu cpu' := by
  unfold Cpu.afterTest at h
  split at h <;> rename_i hpc <;> cases h <;> exact .same rfl (by simp [hpc]) (by simp [Cpu.enter])

/-- **A return from a barrier**: behind the one after a run the run is done. -/
theorem Cpu.AtStage.afterWait_advances (hst : cpu.AtStage cfg st) {b : BarId} {sz : Nat}
    (hb : cpu.waitsAt cfg n = some (b, sz)) (hbw : cpu.bw = .done) : Cpu.Advances cfg cpu cpu.afterWait := by
  unfold Cpu.waitsAt at hb
  split at hb <;> rename_i hpc <;> simp only [Cpu.AtStage, hpc] at hst
  case h_4 =>
    -- the wait after the run
    have hj : cpu.j < cfg.noRuns := hst.2.trans_le (Nat.min_le_right _ _)
    have hj' : cpu.afterWait.j = cpu.j + 1 := by simp [Cpu.afterWait, hpc]
    exact ⟨fun _ => ⟨hj' ▸ hj, fun h' => by simp [Cpu.afterWait, hpc] at h'⟩,
      fun _ => by simp [Cpu.runsDone, Cpu.afterWait, hpc]⟩
  case h_5 =>
    exact ⟨fun hc => ⟨by simpa [Cpu.afterWait, hpc] using hc.1,
        fun _ => by simpa [Cpu.afterWait, hpc] using hc.2 (.inl hpc)⟩,
      fun _ => by simp [Cpu.runsDone, Cpu.afterWait, hpc]⟩
  case h_7 =>
    exact ⟨fun hc => ⟨by simpa [Cpu.afterWait, Cpu.enter, hpc] using hc.1,
        fun h' => by simp [Cpu.afterWait, Cpu.enter, hpc] at h'⟩,
      fun _ => by simp [Cpu.runsDone, Cpu.afterWait, Cpu.enter, hpc, hbw]⟩
  case h_8 => cases hb
  all_goals exact .same (by simp [Cpu.afterWait, hpc]) (by simp [hpc]) (by simp [Cpu.afterWait, hpc])

/-- **What a step does to the counts.** -/
theorem StepTo.advances (h : StepTo cfg s c s') (hst : (s.cpus c).AtStage cfg st) :
    ∃ cpu', s'.cpus = Function.update s.cpus c cpu' ∧ Cpu.Advances cfg (s.cpus c) cpu' := by
  cases h with
  | wait hb hbw _ => exact ⟨_, rfl, fun hc => hc, fun _ => by simp [Cpu.runsDone, hbw]⟩
  | leave hb hbw => exact ⟨_, rfl, hst.afterWait_advances hb hbw⟩
  | @own cpu w hown => exact ⟨cpu, by rw [RunState.setCpu, (store_frame s w).1], Cpu.step_advances hown⟩
  | keepAffinity hpc => exact ⟨_, rfl, .same rfl (by simp [hpc]) (by simp [Cpu.enter])⟩
  | affinity hpc τ => exact ⟨_, rfl, .same rfl (by simp [hpc]) (by simp [Cpu.enter])⟩
  | getAffinity hpc => exact ⟨_, rfl, .same rfl (by simp [hpc]) (by simp)⟩
  | keepTables hpc _ => exact ⟨_, rfl, .same rfl (by simp [hpc]) (by simp [Cpu.enter])⟩
  | allocate hpc _ _ => exact ⟨_, rfl, .same rfl (by simp [hpc]) (by simp [Cpu.enter])⟩
  | ensureLock hpc => exact ⟨_, rfl, .same rfl (by simp [hpc]) (by simp)⟩
  | ensureUnlock hpc => exact ⟨_, rfl, .same rfl (by simp [hpc]) (by simp)⟩
  | page hpc pg => exact ⟨_, rfl, .same rfl (by simp [hpc]) (by simp)⟩
  | write hpc addr val =>
    refine ⟨s.cpus c, (Function.update_eq_self c s.cpus).symm, .same rfl ?_ ?_⟩ <;>
      (unfold Pc.inTest at hpc; split at hpc <;> rename_i hpc' <;> simp_all)
  | «return» hret => exact ⟨_, rfl, Cpu.afterTest_advances hret⟩

/-- While the CPUs get their threads, they have the same runs behind them. -/
theorem SyncInv.j_of_getAffinity {u : Fin n → Nat} (h : SyncInv cfg u s) (hc : (s.cpus c).pc = .getAffinity)
    (d : Fin n) : (s.cpus d).j = (s.cpus c).j := by
  have hst := h.stage c
  simp only [Cpu.AtStage, hc] at hst
  have hd := h.stage d
  rcases h.stage_of_idle (by rw [hc]; rfl) d with hu | ⟨hu, hw⟩
  · rw [hu, hst.1] at hd
    rcases hd.of_allocate with hpc | hpc | hpc <;> simp only [Cpu.AtStage, hpc] at hd <;>
      exact (Stage.allocate.inj hd.1).symm
  · rw [hu, RunConfig.stageAt] at hst
    have hst' := hst.1.symm
    rcases hd.waitsCpu hw with ⟨-, h'⟩ | ⟨-, h'⟩ | ⟨-, h'⟩ | ⟨-, h'⟩ | ⟨-, h'⟩ <;> rw [h'] at hst' <;>
      first | exact (Stage.allocate.inj hst').symm | simp [RunConfig.nextStage] at hst'

end Steps

/-! ## The results -/

/-- What was collected are the runs behind the CPU of thread 0. -/
structure CollectInv {n : Nat} {cfg : RunConfig} (hn : cfg.noThreads ≤ n) (h0 : 0 < cfg.noThreads) (u : Fin n → Nat)
    (σ : Equiv.Perm (Fin n)) (s : CollectState n) : Prop where
  meet : MeetInv hn u σ s.run
  counts : ∀ c, (s.run.cpus c).Counts cfg
  collected : s.collected = List.range (s.run.cpus (threadCpu hn σ ⟨0, h0⟩)).runsDone

section Collect

variable {n : Nat} {cfg : RunConfig} {hn : cfg.noThreads ≤ n} {h0 : 0 < cfg.noThreads} {u : Fin n → Nat}
  {σ : Equiv.Perm (Fin n)} {s s' : CollectState n} {c : Fin n} {cpu' : Cpu}

theorem collectInv_init (hn : cfg.noThreads ≤ n) (h0 : 0 < cfg.noThreads) (hs : RunInit s.run) (hc : s.collected = []) :
    CollectInv hn h0 (fun _ => 0) (Equiv.refl _) s := by
  have hmeet := meetInv_init hn hs
  obtain ⟨mem, hmem⟩ := hs
  refine ⟨hmeet, fun c => ?_, ?_⟩
  · rw [hmem]
    exact ⟨Nat.zero_le _, fun h => by simp at h⟩
  · rw [hc, hmem]
    rfl

/-- A step, for the thread that collects. -/
theorem CollectInv.collect (h : CollectInv hn h0 u σ s) (hadv : Cpu.Advances cfg (s.run.cpus c) cpu')
    (hcpus : s'.run.cpus = Function.update s.run.cpus c cpu')
    (hlog : s'.collected = s.collected ++ (s.run.cpus c).handsOn.toList) :
    s'.collected = List.range (s'.run.cpus (threadCpu hn σ ⟨0, h0⟩)).runsDone := by
  have hassigned : (s.run.cpus c).pc = .waitEnd → (s.run.cpus c).assigned cfg = true := fun hpc => by
    simp [Cpu.assigned, hpc, Pc.inSetup, Pc.inRun]
  rw [hlog, h.collected, hcpus]
  by_cases hc : threadCpu hn σ ⟨0, h0⟩ = c
  · have hv : (s.run.cpus c).assigned cfg = true → (s.run.cpus c).vcpu = 0 := fun ha => by
      rw [h.meet.vcpu c ha, ← hc, threadCpu, Equiv.apply_symm_apply]
      rfl
    rw [hc, Function.update_self, hadv.runsDone fun ha => by rw [hv ha]; exact h0]
    unfold Cpu.handsOn
    by_cases he : (s.run.cpus c).pc = .waitEnd ∧ (s.run.cpus c).bw = .done
    · rw [if_pos he, if_pos ⟨he.1, he.2, hv (hassigned he.1)⟩, List.range_succ]
      simp [Cpu.runsDone, he.1]
    · rw [if_neg he, if_neg fun h' => he ⟨h'.1, h'.2.1⟩]
      simp
  · have hnone : (s.run.cpus c).handsOn = none := by
      refine if_neg ?_
      rintro ⟨hpc, -, hv⟩
      rw [h.meet.vcpu c (hassigned hpc)] at hv
      exact hc ((Equiv.symm_apply_eq σ).mpr (Fin.ext hv.symm))
    rw [Function.update_of_ne hc, hnone]
    simp

/-- **What every step keeps.** -/
theorem collectInv_step (hb : 0 < cfg.batchSize) (h : CollectInv hn h0 u σ s) {l : Fin n × RunAction n}
    (hs : collectStep cfg s l = some s') : ∃ u' σ', CollectInv hn h0 u' σ' s' := by
  obtain ⟨c, a⟩ := l
  unfold collectStep at hs
  split at hs
  · cases hs
  rename_i run hstep
  cases hs
  have hto := stepTo_of_step hstep
  obtain ⟨u', σ', hmeet, hσ⟩ := meetInv_step hb h.meet hto
  obtain ⟨cpu', hcpus, hadv⟩ := hto.advances (h.meet.sync.stage c)
  have hsame := @CollectInv.collect n cfg hn h0 u σ s
    { run := run, collected := s.collected ++ (s.run.cpus c).handsOn.toList } c cpu' h hadv hcpus rfl
  refine ⟨u', σ', hmeet, fun d => ?_, ?_⟩
  · dsimp only
    rw [hcpus]
    exact forall_update (P := fun _ cpu => cpu.Counts cfg) (hadv.counts (h.counts c)) h.counts d
  · rcases hσ with rfl | ⟨hpc, rfl⟩
    · exact hsame
    · -- the CPUs have the same runs behind them, whoever executes thread 0
      have hold : ∀ d, (s.run.cpus d).runsDone = (s.run.cpus c).j := by
        intro d
        obtain ⟨hd, -⟩ := h.meet.sync.of_getAffinity hpc d
        rw [← h.meet.sync.j_of_getAffinity hpc d]
        rcases hd with hd | hd | hd | hd <;> simp [Cpu.runsDone, hd]
      have hnew : ∀ d, (run.cpus d).runsDone = (s.run.cpus c).j := by
        rw [hcpus]
        refine forall_update (P := fun _ cpu => cpu.runsDone = (s.run.cpus c).j) ?_ hold
        rw [hadv.runsDone fun ha => by simp [Cpu.assigned, hpc, Pc.inSetup, Pc.inRun] at ha, hold]
        simp [hpc]
      rw [hsame]
      dsimp only
      rw [hnew, hnew]

/-- **Every result once.** However the CPUs interleave, the results are collected in the order of the runs, each of them
once, and at the end there is one of every run. -/
theorem results_once (hn : cfg.noThreads ≤ n) (h0 : 0 < cfg.noThreads) (hb : 0 < cfg.batchSize)
    (h : CollectReachable cfg s) : s.collected = List.range s.collected.length ∧ s.collected.length ≤ cfg.noRuns ∧
      ((∀ c, (s.run.cpus c).pc = .done) → s.collected = List.range cfg.noRuns) := by
  obtain ⟨u, σ, hinv⟩ : ∃ u σ, CollectInv hn h0 u σ s :=
    h.inv (I := fun s => ∃ u σ, CollectInv hn h0 u σ s) (fun _ hs => ⟨_, _, collectInv_init hn h0 hs.1 hs.2⟩)
      fun _ _ ⟨_, _, hinv⟩ ⟨_, hs⟩ => collectInv_step hb hinv hs
  have hlog := hinv.collected
  generalize threadCpu hn σ ⟨0, h0⟩ = c at hlog
  have hcounts := hinv.counts c
  refine ⟨?_, ?_, fun hdone => ?_⟩
  · rw [hlog, List.length_range]
  · rw [hlog, List.length_range]
    unfold Cpu.runsDone
    split
    · next hpc =>
      have hst := hinv.meet.sync.stage c
      simp only [Cpu.AtStage, hpc] at hst
      exact hst.2.trans_le (Nat.min_le_right _ _)
    · exact hcounts.1
  · rw [hlog, Cpu.runsDone, if_neg (by rw [hdone c]; simp), hcounts.2 (.inr (hdone c))]

/-- One thread and one run, from the start to the end. -/
theorem results_once_one : ∃ s : CollectState 2, CollectReachable onePage s ∧ (∀ c, (s.run.cpus c).pc = .done) ∧
    s.collected = List.range onePage.noRuns := by
  have hrun : (Reach.run (collectStep onePage) { run := { mem := onePageMem } } (onePageStart ++ onePageTest ++
      onePageIdle ++ onePageEnd ++ ticks 0 11 ++ ticks 1 14 ++ ticks 0 5 ++ ticks 1 3)).any
      (fun s => ∀ c, (s.run.cpus c).pc = .done) = true := by
    decide +kernel
  obtain ⟨s, hs, hdone⟩ := (Option.any_eq_true _ _).mp hrun
  have hreach : CollectReachable onePage s := Reach.reachable_run (.init ⟨⟨onePageMem, rfl⟩, rfl⟩) hs
  have hall := of_decide_eq_true hdone
  exact ⟨s, hreach, hall, (results_once (by decide) (by decide) (by decide) hreach).2.2 hall⟩

end Collect

end LitmusHarness
