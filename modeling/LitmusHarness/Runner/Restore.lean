import LitmusHarness.Runner.Phases
import LitmusHarness.Lib.Reach

/-!
# The page tables after the tests: `setup_run_data` and `clean_run_data`

`setup_run_data` saves the entries of the variables, on every CPU, and `clean_run_data` writes them back. The saved
values are those before the tests, and the tables have these values again after the tests, if no test thread writes to
the tables while a CPU still saves entries (`run_restores`). That is so after the first run of a batch, and behind the
start barrier of its first run when every CPU has a test thread. A CPU without one does not wait at that barrier
(`run_not_restored`).
-/

namespace LitmusHarness

open Vmsa (Mem)

/-! ## Saved and restored entries -/

/-- `setup_run_data` has saved the `k`-th entry of the batch, and `clean_run_data` has not returned. -/
def Pc.saved (k : Nat) : Pc → Bool
  | .setup i | .ensureLock i | .ensure i .. | .ensureAlloc i .. | .ensureFill i .. | .ensureLink i .. | .ensureUnlock i
  | .walk i .. | .setupDesc i => k < i
  | .runLoop | .pre | .waitStart | .func | .post | .waitEnd | .waitRun | .clean _ | .cleanUpdate .. => true
  | _ => false

/-- It is between the returns from `setup_run_data` and from `clean_run_data`. -/
def Pc.usesTables : Pc → Bool
  | .runLoop | .pre | .waitStart | .func | .post | .waitEnd | .waitRun | .clean _ | .cleanUpdate .. => true
  | _ => false

/-- **The entries are saved and restored.** -/
structure Restored {n : Nat} (cfg : RunConfig) (s : RunState n) : Prop where
  saved : ∀ c, ∀ k < cfg.noSaved (s.cpus c).batchStart, (s.cpus c).pc.saved k = true →
    (s.cpus c).batchStart = s.pretestBatch ∧ (s.cpus c).ttEntries k = cfg.savedEntry s.pretest s.pretestBatch k ∧
      (s.cpus c).ttDescs k = s.pretest ((s.cpus c).ttEntries k)
  restored : (∀ c, (s.cpus c).pc.usesTables = false) → ∀ k < cfg.noSaved s.pretestBatch,
    s.mem (cfg.savedEntry s.pretest s.pretestBatch k) = s.pretest (cfg.savedEntry s.pretest s.pretestBatch k)

/-- No CPU is still to save entries, or the barriers make sure of it. -/
def WritesLate {n : Nat} (cfg : RunConfig) (s : RunState n) (c : Fin n) : Prop :=
  (∀ d, (s.cpus d).pc.beforeRuns = false) ∨ (s.cpus c).batchStart < (s.cpus c).j ∨
    cfg.noThreads = n ∧ (s.cpus c).pc ≠ .pre

/-- A test thread changes a word only then. -/
def StepOk {n : Nat} (cfg : RunConfig) (s : RunState n) (c : Fin n) : RunAction n → Prop
  | .write addr val => s.mem addr = val ∨ WritesLate cfg s c
  | _ => True

instance {n : Nat} (cfg : RunConfig) (s : RunState n) (c : Fin n) : Decidable (WritesLate cfg s c) :=
  inferInstanceAs (Decidable (_ ∨ _ ∨ _))

instance {n : Nat} (cfg : RunConfig) (s : RunState n) (c : Fin n) : (a : RunAction n) → Decidable (StepOk cfg s c a)
  | .write .. => inferInstanceAs (Decidable (_ ∨ _))
  | .tick | .affinity _ | .allocate _ | .page _ | .return => .isTrue trivial

/-! ## The invariant -/

namespace Cpu

variable (cfg : RunConfig) (mem : Mem) (cpu : Cpu)

/-- The tables of its batch have been allocated. -/
def Allocated : Prop := cpu.pc = .waitAllocate ∧ cpu.vcpu = 0 ∨ cpu.pc.inSetup = true ∨ cpu.pc.usesTables = true

/-- Its place in `setup_run_data`, on tables `mem` that go down to level 3, or in `clean_run_data`. -/
def SetupOk : Prop :=
  match cpu.pc with
  | .ensureLock k | .ensureUnlock k => k < cfg.noSaved cpu.batchStart
  | .ensure k level current =>
    k < cfg.noSaved cpu.batchStart ∧ level ≤ 3 ∧
      hasTables mem (cfg.savedVa cpu.batchStart k) (3 - level) level current = true
  | .ensureAlloc .. | .ensureFill .. | .ensureLink .. => False
  | .walk k level root =>
    k < cfg.noSaved cpu.batchStart ∧ level ≤ k % 4 ∧
      (walkLoop mem (cfg.savedVa cpu.batchStart k) (k % 4 + 1 - level) level root {}).src.getD 0 =
        cfg.savedEntry mem cpu.batchStart k
  | .setupDesc k =>
    k < cfg.noSaved cpu.batchStart ∧ cpu.ttEntries k = cfg.savedEntry mem cpu.batchStart k
  | .cleanUpdate k _ => k < cfg.noSaved cpu.batchStart
  | _ => True

/-- What it has saved of the tables `mem`. -/
def SavedOk : Prop :=
  ∀ k < cfg.noSaved cpu.batchStart, cpu.pc.saved k = true →
    cpu.ttEntries k = cfg.savedEntry mem cpu.batchStart k ∧ cpu.ttDescs k = mem (cfg.savedEntry mem cpu.batchStart k)

/-- It will write the entry at `a` back. -/
def Pending (a : U64) : Prop :=
  match cpu.pc with
  | .clean i | .cleanUpdate i _ =>
    ∃ k, i ≤ k ∧ k < cfg.noSaved cpu.batchStart ∧ cfg.savedEntry mem cpu.batchStart k = a
  | pc => pc.usesTables = true

end Cpu

/-- What the steps keep. -/
structure RestoreInv {n : Nat} (cfg : RunConfig) (s : RunState n) : Prop where
  vcpu : ∀ c, (s.cpus c).pc = .allocate ∨ (s.cpus c).pc = .waitAllocate → (s.cpus c).vcpu = s.affinity c
  batch : ∀ c, (s.cpus c).Allocated → (s.cpus c).batchStart = s.pretestBatch
  tables : (∃ d, (s.cpus d).pc.beforeRuns = true) → (∃ c, (s.cpus c).Allocated) →
    s.mem = s.pretest ∧ cfg.Mapped s.pretest s.pretestBatch
  setup : ∀ c, (s.cpus c).SetupOk cfg s.pretest
  saved : ∀ c, (s.cpus c).SavedOk cfg s.pretest
  restore : ∀ k < cfg.noSaved s.pretestBatch,
    s.mem (cfg.savedEntry s.pretest s.pretestBatch k) = s.pretest (cfg.savedEntry s.pretest s.pretestBatch k) ∨
      ∃ c, (s.cpus c).Pending cfg s.pretest (cfg.savedEntry s.pretest s.pretestBatch k)

section Steps

variable {n : Nat} {cfg : RunConfig} {u : Fin n → Nat} {s s' : RunState n} {c d : Fin n} {cpu : Cpu}

theorem restoreInv_init (hs : RunInit s) : RestoreInv cfg s := by
  obtain ⟨mem, rfl⟩ := hs
  refine ⟨?_, ?_, ?_, fun c => trivial, ?_, fun k _ => .inl rfl⟩
  · rintro c (h | h) <;> cases h
  · rintro c (⟨h, -⟩ | h | h) <;> cases h
  · rintro ⟨d, h⟩
    cases h
  · intro c k _ h
    cases h

/-- The invariant gives what is claimed of the entries. -/
theorem RestoreInv.restored (h : RestoreInv cfg s) : Restored cfg s := by
  refine ⟨fun c k hk hsaved => ?_, fun hnone k hk => ?_⟩
  · have halloc : (s.cpus c).Allocated := by
      unfold Pc.saved at hsaved
      unfold Cpu.Allocated
      split at hsaved <;> rename_i hpc <;> simp_all [Pc.inSetup, Pc.usesTables]
    have hb := h.batch c halloc
    obtain ⟨he, hd⟩ := h.saved c k hk hsaved
    rw [← hb, he]
    exact ⟨rfl, rfl, hd⟩
  · refine (h.restore k hk).resolve_right ?_
    rintro ⟨c, hc⟩
    have hc' := hnone c
    unfold Cpu.Pending at hc
    split at hc <;> simp_all [Pc.usesTables]

/-! ## Steps that leave the tables alone -/

/-- The tables, and what is known of them. -/
structure SameTables (s s' : RunState n) : Prop where
  mem : s'.mem = s.mem
  pretest : s'.pretest = s.pretest
  pretestBatch : s'.pretestBatch = s.pretestBatch

theorem exists_of_update {P : Cpu → Prop} {cpus : Fin n → Cpu} (h : P cpu → P (cpus c))
    (hex : ∃ d, P (Function.update cpus c cpu d)) : ∃ d, P (cpus d) := by
  obtain ⟨d, hd⟩ := hex
  by_cases hdc : d = c
  · subst hdc
    rw [Function.update_self] at hd
    exact ⟨d, h hd⟩
  · rw [Function.update_of_ne hdc] at hd
    exact ⟨d, hd⟩

/-- A CPU goes on as `cpu`, and may write to the tables. -/
theorem RestoreInv.change (h : RestoreInv cfg s) (hcpus : s'.cpus = Function.update s.cpus c cpu)
    (hpre : s'.pretest = s.pretest) (hpreb : s'.pretestBatch = s.pretestBatch)
    (haff : ∀ d, (s'.cpus d).pc = .allocate ∨ (s'.cpus d).pc = .waitAllocate → (s'.cpus d).vcpu = s'.affinity d)
    (hbatch : cpu.Allocated → cpu.batchStart = s.pretestBatch)
    (htables : (∃ d, (Function.update s.cpus c cpu d).pc.beforeRuns = true) →
      (∃ d, (Function.update s.cpus c cpu d).Allocated) →
        s'.mem = s.pretest ∧ cfg.Mapped s.pretest s.pretestBatch)
    (hset : cpu.SetupOk cfg s.pretest) (hsaved : cpu.SavedOk cfg s.pretest)
    (hrest : ∀ k < cfg.noSaved s.pretestBatch, ∀ a, cfg.savedEntry s.pretest s.pretestBatch k = a →
      s.mem a = s.pretest a ∨ (s.cpus c).Pending cfg s.pretest a →
        s'.mem a = s.pretest a ∨ cpu.Pending cfg s.pretest a) : RestoreInv cfg s' := by
  refine ⟨haff, ?_, ?_, ?_, ?_, ?_⟩
  · rw [hcpus, hpreb]
    exact forall_update (P := fun _ cpu => cpu.Allocated → cpu.batchStart = s.pretestBatch) hbatch h.batch
  · rw [hcpus, hpre, hpreb]
    exact htables
  · rw [hcpus, hpre]
    exact forall_update (P := fun _ cpu => cpu.SetupOk cfg s.pretest) hset h.setup
  · rw [hcpus, hpre]
    exact forall_update (P := fun _ cpu => cpu.SavedOk cfg s.pretest) hsaved h.saved
  · rw [hcpus, hpre, hpreb]
    intro k hk
    have hself : s'.mem (cfg.savedEntry s.pretest s.pretestBatch k) =
        s.pretest (cfg.savedEntry s.pretest s.pretestBatch k) ∨
          cpu.Pending cfg s.pretest (cfg.savedEntry s.pretest s.pretestBatch k) →
        _ ∨ ∃ d, (Function.update s.cpus c cpu d).Pending cfg s.pretest (cfg.savedEntry s.pretest s.pretestBatch k) :=
      Or.imp_right fun hp => ⟨c, by rw [Function.update_self]; exact hp⟩
    rcases h.restore k hk with hm | ⟨d, hd⟩
    · exact hself (hrest k hk _ rfl (.inl hm))
    · by_cases hdc : d = c
      · subst hdc
        exact hself (hrest k hk _ rfl (.inr hd))
      · exact .inr ⟨d, by rw [Function.update_of_ne hdc]; exact hd⟩

/-- A CPU goes on as `cpu`, on the same tables. -/
theorem RestoreInv.move (h : RestoreInv cfg s) (hcpus : s'.cpus = Function.update s.cpus c cpu) (ht : SameTables s s')
    (haff : ∀ d, (s'.cpus d).pc = .allocate ∨ (s'.cpus d).pc = .waitAllocate → (s'.cpus d).vcpu = s'.affinity d)
    (hbatch : cpu.Allocated → cpu.batchStart = s.pretestBatch)
    (htables : (∃ d, (Function.update s.cpus c cpu d).pc.beforeRuns = true) →
      (∃ d, (Function.update s.cpus c cpu d).Allocated) →
        (∃ d, (s.cpus d).pc.beforeRuns = true) ∧ ∃ d, (s.cpus d).Allocated)
    (hset : cpu.SetupOk cfg s.pretest) (hsaved : cpu.SavedOk cfg s.pretest)
    (hpend : ∀ k < cfg.noSaved s.pretestBatch, ∀ a, cfg.savedEntry s.pretest s.pretestBatch k = a →
      (s.cpus c).Pending cfg s.pretest a → s.mem a = s.pretest a ∨ cpu.Pending cfg s.pretest a) : RestoreInv cfg s' := by
  refine h.change hcpus ht.pretest ht.pretestBatch haff hbatch (fun hd ha => ?_) hset hsaved fun k hk a he hm => ?_
  · rw [ht.mem]
    exact h.tables (htables hd ha).1 (htables hd ha).2
  · rw [ht.mem]
    exact hm.elim .inl (hpend k hk a he)

/-- The CPUs that read the affinities, after one of them went on. -/
theorem RestoreInv.vcpu_update (h : RestoreInv cfg s) (hcpus : s'.cpus = Function.update s.cpus c cpu)
    (haff : s'.affinity = s.affinity) (hv : cpu.pc = .allocate ∨ cpu.pc = .waitAllocate → cpu.vcpu = s.affinity c)
    (d : Fin n) (hd : (s'.cpus d).pc = .allocate ∨ (s'.cpus d).pc = .waitAllocate) :
    (s'.cpus d).vcpu = s'.affinity d := by
  rw [hcpus] at hd ⊢
  rw [haff]
  exact forall_update (P := fun d cpu => cpu.pc = .allocate ∨ cpu.pc = .waitAllocate → cpu.vcpu = s.affinity d) hv
    h.vcpu d hd

/-- It is in the runs of a batch. -/
def Pc.running (pc : Pc) : Bool := pc.inRun || pc = .runLoop

/-- What holds of a CPU in the runs of a batch. -/
theorem running_facts (h : cpu.pc.running = true) : cpu.pc.beforeRuns = false ∧ cpu.Allocated ∧ cpu.pc.usesTables = true ∧
    (∀ k, cpu.pc.saved k = true) ∧ (∀ mem, cpu.SetupOk cfg mem) ∧ ∀ mem a, cpu.Pending cfg mem a := by
  unfold Pc.running Pc.inRun at h
  unfold Cpu.Allocated Cpu.SetupOk Cpu.Pending
  split at h <;> rename_i hpc <;>
    simp_all [Pc.beforeRuns, Pc.inSetup, Pc.usesTables, Pc.saved]

theorem running_pc (h : cpu.pc.running = true) : cpu.pc ≠ .allocate ∧ cpu.pc ≠ .waitAllocate := by
  constructor <;> intro hpc <;> rw [hpc] at h <;> cases h

/-- A step in the runs of a batch. -/
theorem RestoreInv.run (h : RestoreInv cfg s) (hcpus : s'.cpus = Function.update s.cpus c cpu) (ht : SameTables s s')
    (haff : s'.affinity = s.affinity) (hpc : (s.cpus c).pc.running = true) (hpc' : cpu.pc.running = true)
    (hb : cpu.batchStart = (s.cpus c).batchStart) (hdata : cpu.ttEntries = (s.cpus c).ttEntries ∧
      cpu.ttDescs = (s.cpus c).ttDescs) : RestoreInv cfg s' := by
  obtain ⟨-, halloc, -, hsaved, -⟩ := @running_facts cfg _ hpc
  obtain ⟨hbefore', -, -, -, hset', hpend'⟩ := @running_facts cfg _ hpc'
  refine h.move hcpus ht (h.vcpu_update hcpus haff ?_) (fun _ => hb ▸ h.batch c halloc) (fun hd ha => ⟨?_, ?_⟩)
    (hset' _) (fun k hk _ => ?_) (fun k _ a _ _ => .inr (hpend' _ a))
  · rintro (h' | h')
    · exact absurd h' (running_pc hpc').1
    · exact absurd h' (running_pc hpc').2
  · exact exists_of_update (P := fun cpu => cpu.pc.beforeRuns = true) (fun h' => by rw [hbefore'] at h'; cases h') hd
  · exact exists_of_update (P := Cpu.Allocated) (fun _ => halloc) ha
  · rw [hb] at hk ⊢
    rw [hdata.1, hdata.2]
    exact h.saved c k hk (hsaved k)

/-- It is in no batch. -/
def Pc.outside : Pc → Bool
  | .startOfThread | .loop | .newAffinity | .waitAffinity | .getAffinity | .allocate | .endOfThread | .done => true
  | _ => false

/-- What holds of a CPU that is in no batch. -/
theorem outside_facts (h : cpu.pc.outside = true) : cpu.pc.beforeRuns = false ∧ ¬cpu.Allocated ∧
    (∀ k, cpu.pc.saved k = false) ∧ (∀ mem, cpu.SetupOk cfg mem) ∧ ∀ mem a, ¬cpu.Pending cfg mem a := by
  unfold Pc.outside at h
  unfold Cpu.Allocated Cpu.SetupOk Cpu.Pending
  split at h <;> rename_i hpc <;>
    simp_all [Pc.beforeRuns, Pc.inSetup, Pc.usesTables, Pc.saved]

/-- A step to a place outside of the batches, from another one or from the end of `clean_run_data`. -/
theorem RestoreInv.out (h : RestoreInv cfg s) (hcpus : s'.cpus = Function.update s.cpus c cpu) (ht : SameTables s s')
    (haff : ∀ d, (s'.cpus d).pc = .allocate ∨ (s'.cpus d).pc = .waitAllocate → (s'.cpus d).vcpu = s'.affinity d)
    (hpc' : cpu.pc.outside = true)
    (hpend : ∀ a, ¬(s.cpus c).Pending cfg s.pretest a) : RestoreInv cfg s' := by
  obtain ⟨hbefore', halloc', hsaved', hset', -⟩ := @outside_facts cfg _ hpc'
  refine h.move hcpus ht haff (fun ha => absurd ha halloc') (fun hd ha => ⟨?_, ?_⟩) (hset' _)
    (fun k hk hs => ?_) (fun k _ a _ hp => absurd hp (hpend a))
  · exact exists_of_update (P := fun cpu => cpu.pc.beforeRuns = true) (fun h' => by rw [hbefore'] at h'; cases h') hd
  · exact exists_of_update (P := Cpu.Allocated) (fun h' => absurd h' halloc') ha
  · rw [hsaved' k] at hs
    cases hs

/-- A step outside of the batches. -/
theorem RestoreInv.stayOut (h : RestoreInv cfg s) (hcpus : s'.cpus = Function.update s.cpus c cpu)
    (ht : SameTables s s') (haff : s'.affinity = s.affinity) (hpc : (s.cpus c).pc.outside = true)
    (hpc' : cpu.pc.outside = true) (hv : cpu.pc = .allocate → cpu.vcpu = s.affinity c) : RestoreInv cfg s' := by
  refine h.out hcpus ht (h.vcpu_update hcpus haff ?_) hpc' ((outside_facts hpc).2.2.2.2 _)
  rintro (h' | h')
  · exact hv h'
  · rw [h'] at hpc'
    cases hpc'

/-! ## `setup_run_data` -/

/-- The loop of the walk starts with the descriptor of the level before, which it does not read. -/
theorem walkLoop_succ (mem : Mem) (va root : U64) (m level : Nat) (desc : Desc) :
    walkLoop mem va (m + 1) level root desc =
      if (readDesc (mem (entryPtr root va level)) level).type = .invalid ∨
          (readDesc (mem (entryPtr root va level)) level).type = .block then
        { readDesc (mem (entryPtr root va level)) level with src := some (entryPtr root va level) }
      else walkLoop mem va m (level + 1) (readDesc (mem (entryPtr root va level)) level).addr
        { readDesc (mem (entryPtr root va level)) level with src := some (entryPtr root va level) } := rfl

/-- One level of the walk. -/
theorem walk_src {mem : Mem} {va root : U64} {m level : Nat} (hl : level ≤ m) {a : U64}
    (h : (walkLoop mem va (m + 1 - level) level root {}).src.getD 0 = a) :
    let desc := readDesc (mem (entryPtr root va level)) level
    if desc.type = .invalid ∨ desc.type = .block ∨ level = m then entryPtr root va level = a
    else level + 1 ≤ m ∧ (walkLoop mem va (m + 1 - (level + 1)) (level + 1) desc.addr {}).src.getD 0 = a := by
  dsimp only
  obtain ⟨i, rfl⟩ := Nat.exists_eq_add_of_le hl
  rw [show level + i + 1 - level = i + 1 by omega, walkLoop_succ] at h
  cases i with
  | zero =>
    rw [if_pos (.inr (.inr (Nat.add_zero level).symm))]
    split at h <;> exact h
  | succ i =>
    rw [show level + (i + 1) + 1 - (level + 1) = i + 1 by omega]
    split at h <;> rename_i hd
    · rw [if_pos (by tauto)]
      exact h
    · rw [if_neg]
      · exact ⟨by omega, h⟩
      · rintro (h' | h' | h')
        · exact hd (.inl h')
        · exact hd (.inr h')
        · omega

/-- One level of `vmm_ensure_level`, on tables that go down to level 3. -/
theorem hasTables_step {mem : Mem} {va t : U64} {level : Nat} (hl : level < 3)
    (h : hasTables mem va (3 - level) level t = true) :
    (readDesc (mem (entryPtr t va level)) level).type = .table ∧
      hasTables mem va (3 - (level + 1)) (level + 1) (readDesc (mem (entryPtr t va level)) level).addr = true := by
  rw [show 3 - level = 3 - (level + 1) + 1 by omega, hasTables] at h
  simpa using h

/-- **A step of `setup_run_data` on tables that go down to level 3 stores nothing there.** -/
theorem Cpu.step_setupOk {mem : Mem} {cpu' : Cpu} {w : Option (U64 × U64)} (hset : cpu.pc.inSetup = true)
    (hok : cpu.SetupOk cfg mem) (hsaved : cpu.SavedOk cfg mem) (h : cpu.step cfg mem = some (cpu', w)) :
    w = none ∧ cpu'.SetupOk cfg mem ∧ cpu'.SavedOk cfg mem := by
  unfold Cpu.step at h
  unfold Cpu.SetupOk at hok
  unfold Cpu.SavedOk at hsaved
  split at h <;> rename_i hpc <;> simp only [hpc, Pc.inSetup, Bool.false_eq_true, Pc.saved] at hset hok hsaved
  · -- the next entry
    split at h <;> rename_i hk <;> cases h
    · exact ⟨rfl, hk, hsaved⟩
    · exact ⟨rfl, trivial, fun k' hk' _ => hsaved k' hk' (decide_eq_true (by dsimp only at hk'; omega))⟩
  · -- `vmm_ensure_level`
    obtain ⟨hk, hl, htab⟩ := hok
    dsimp only at h
    split at h <;> rename_i hl3
    · obtain ⟨htype, htab'⟩ := hasTables_step hl3 htab
      rw [if_pos htype] at h
      cases h
      exact ⟨rfl, ⟨hk, hl3, htab'⟩, hsaved⟩
    · cases h
      exact ⟨rfl, hk, hsaved⟩
  · -- `vmm_translation_walk_to_level`
    obtain ⟨hk, hl, hsrc⟩ := hok
    have hstep := walk_src hl hsrc
    dsimp only at h hstep
    split at h <;> rename_i hd <;> cases h
    · rw [if_pos hd] at hstep
      refine ⟨rfl, ⟨hk, ?_⟩, fun k' hk' hs => ?_⟩
      · dsimp only
        rw [Function.update_self]
        exact hstep
      · have hlt : k' < _ := of_decide_eq_true hs
        dsimp only
        rw [Function.update_of_ne (Nat.ne_of_lt hlt)]
        exact hsaved k' hk' hs
    · rw [if_neg hd] at hstep
      exact ⟨rfl, ⟨hk, hstep⟩, hsaved⟩
  · -- the descriptor
    cases h
    refine ⟨rfl, trivial, fun k' hk' hs => ?_⟩
    have hlt : k' < _ := of_decide_eq_true hs
    dsimp only
    rcases Nat.lt_succ_iff_lt_or_eq.mp hlt with hlt | rfl
    · rw [Function.update_of_ne (Nat.ne_of_lt hlt)]
      exact hsaved k' hk' (decide_eq_true hlt)
    · rw [Function.update_self, hok.2]
      exact ⟨rfl, rfl⟩
  · cases h

theorem beforeRuns_of_inSetup (h : cpu.pc.inSetup = true) : cpu.pc.beforeRuns = true := by
  unfold Pc.beforeRuns
  split
  · rfl
  · exact h

/-- The tables while a CPU saves entries. -/
theorem RestoreInv.setup_tables (h : RestoreInv cfg s) (hpc : (s.cpus c).pc.inSetup = true) :
    s.mem = s.pretest ∧ cfg.Mapped s.pretest (s.cpus c).batchStart := by
  have halloc : (s.cpus c).Allocated := .inr (.inl hpc)
  rw [h.batch c halloc]
  exact h.tables ⟨c, beforeRuns_of_inSetup hpc⟩ ⟨c, halloc⟩

/-- It goes on in `setup_run_data`, on the same tables. -/
theorem RestoreInv.setupStep (h : RestoreInv cfg s) (hcpus : s'.cpus = Function.update s.cpus c cpu)
    (ht : SameTables s s') (haff : s'.affinity = s.affinity) (hpc : (s.cpus c).pc.inSetup = true)
    (hpc' : cpu.pc.inSetup = true ∨ cpu.pc = .runLoop) (hb : cpu.batchStart = (s.cpus c).batchStart)
    (hset : cpu.SetupOk cfg s.pretest) (hsaved : cpu.SavedOk cfg s.pretest) : RestoreInv cfg s' := by
  have halloc : (s.cpus c).Allocated := .inr (.inl hpc)
  have hbefore := beforeRuns_of_inSetup hpc
  refine h.move hcpus ht (h.vcpu_update hcpus haff ?_) (fun _ => hb ▸ h.batch c halloc)
    (fun _ _ => ⟨⟨c, hbefore⟩, c, halloc⟩) hset hsaved fun k _ a _ hp => ?_
  · rintro (h' | h') <;> rcases hpc' with hpc' | hpc' <;> rw [h'] at hpc' <;> cases hpc'
  · unfold Cpu.Pending at hp
    unfold Pc.inSetup at hpc
    split at hpc <;> rename_i hpc'' <;> simp_all [Pc.usesTables]

/-! ## `clean_run_data` -/

/-- What holds of a CPU in `clean_run_data`. -/
theorem cleaning_facts {k : Nat} (h : cpu.pc = .clean k ∨ ∃ v, cpu.pc = .cleanUpdate k v) :
    cpu.pc.beforeRuns = false ∧ cpu.Allocated ∧ (∀ k, cpu.pc.saved k = true) ∧
      (cpu.pc ≠ .allocate ∧ cpu.pc ≠ .waitAllocate) ∧ ∀ mem a, cpu.Pending cfg mem a ↔
        ∃ i, k ≤ i ∧ i < cfg.noSaved cpu.batchStart ∧ cfg.savedEntry mem cpu.batchStart i = a := by
  unfold Cpu.Allocated Cpu.Pending
  rcases h with hpc | ⟨v, hpc⟩ <;> simp [hpc, Pc.beforeRuns, Pc.inSetup, Pc.usesTables, Pc.saved]

/-- **A step in `clean_run_data`.** It writes to entries that are restored by it later, or restores one. -/
theorem RestoreInv.cleanStep (h : RestoreInv cfg s) (hnone : ∀ d, (s.cpus d).pc.beforeRuns = false) {i : Nat} {pc : Pc}
    (hcpus : s'.cpus = Function.update s.cpus c { s.cpus c with pc := pc }) (hpre : s'.pretest = s.pretest)
    (hpreb : s'.pretestBatch = s.pretestBatch) (haff : s'.affinity = s.affinity)
    (hpc : (s.cpus c).pc.usesTables = true)
    (hpc' : pc = .clean i ∨ ∃ v, pc = .cleanUpdate i v ∧ i < cfg.noSaved (s.cpus c).batchStart)
    (hrest : ∀ k < cfg.noSaved s.pretestBatch, ∀ a, cfg.savedEntry s.pretest s.pretestBatch k = a →
      s.mem a = s.pretest a ∨ (s.cpus c).Pending cfg s.pretest a →
        s'.mem a = s.pretest a ∨ ∃ k, i ≤ k ∧ k < cfg.noSaved (s.cpus c).batchStart ∧
          cfg.savedEntry s.pretest (s.cpus c).batchStart k = a) : RestoreInv cfg s' := by
  have hb := h.batch c (.inr (.inr hpc))
  have hsaved : ∀ k, (s.cpus c).pc.saved k = true := by
    unfold Pc.usesTables at hpc
    split at hpc <;> rename_i hpc'' <;> simp_all [Pc.saved]
  obtain ⟨hbefore', halloc', hsaved', ⟨hne, hne'⟩, hpend'⟩ :=
    @cleaning_facts cfg { s.cpus c with pc := pc } i (hpc'.imp_right fun ⟨v, hv, _⟩ => ⟨v, hv⟩)
  refine h.change hcpus hpre hpreb (h.vcpu_update hcpus haff fun h' => (h'.elim hne hne').elim) (fun _ => hb)
    (fun hd _ => ?_) ?_ (fun k hk _ => h.saved c k hk (hsaved k)) fun k hk a he hm => ?_
  · obtain ⟨d, hd⟩ := exists_of_update (P := fun cpu => cpu.pc.beforeRuns = true)
      (fun h' => by rw [hbefore'] at h'; cases h') hd
    rw [hnone d] at hd
    cases hd
  · rcases hpc' with rfl | ⟨v, rfl, hi⟩
    · trivial
    · exact hi
  · rw [hpend']
    exact hrest k hk a he hm

/-- The accesses of `vmm_update_pte` to a saved entry. -/
theorem updateStep_cases (mem : Mem) (pte newVal : U64) (v : UpdatePc) :
    (Cpu.updateStep mem pte newVal v = (some (pte, newVal), none)) ∨
      ∃ v', Cpu.updateStep mem pte newVal v = (none, some v') ∨
        Cpu.updateStep mem pte newVal v = (some (pte, 0), some v') := by
  cases v with
  | test => exact .inr ⟨_, .inl rfl⟩
  | zero => exact .inr ⟨_, .inr rfl⟩
  | write => exact .inl rfl

/-- The steps of `clean_run_data`. -/
theorem RestoreInv.clean (h : RestoreInv cfg s) (hnone : ∀ d, (s.cpus d).pc.beforeRuns = false) {k : Nat}
    (hpc : (s.cpus c).pc = .clean k ∨ ∃ v, (s.cpus c).pc = .cleanUpdate k v) {w : Option (U64 × U64)}
    (hstep : (s.cpus c).step cfg s.mem = some (cpu, w)) : RestoreInv cfg ((s.store w).setCpu c cpu) := by
  obtain ⟨-, halloc, hsaved, -, hpend⟩ := @cleaning_facts cfg _ _ hpc
  have huse : (s.cpus c).pc.usesTables = true := by
    rcases hpc with hpc | ⟨v, hpc⟩ <;> rw [hpc] <;> rfl
  have hb := h.batch c halloc
  rcases hpc with hpc | ⟨v, hpc⟩ <;> simp only [Cpu.step, hpc] at hstep
  · split at hstep <;> rename_i hk <;> cases hstep
    · exact h.cleanStep hnone rfl rfl rfl rfl huse (.inr ⟨_, rfl, hk⟩) fun _ _ a _ hm =>
        hm.imp_right (hpend s.pretest a).mp
    · refine h.out rfl ⟨rfl, rfl, rfl⟩ (h.vcpu_update rfl rfl ?_) rfl fun a ha => ?_
      · rintro (h' | h') <;> cases h'
      · obtain ⟨i, h1, h2, -⟩ := (hpend s.pretest a).mp ha
        omega
  · have hk := h.setup c
    simp only [Cpu.SetupOk, hpc] at hk
    obtain ⟨he, hd⟩ := h.saved c k hk (hsaved k)
    rcases updateStep_cases s.mem ((s.cpus c).ttEntries k) ((s.cpus c).ttDescs k) v with
      hu | ⟨v', hu | hu⟩ <;> rw [hu] at hstep <;> cases hstep
    · -- the entry is restored
      refine h.cleanStep hnone rfl rfl rfl rfl huse (.inl rfl) fun j hj a hja hm => ?_
      by_cases hae : a = (s.cpus c).ttEntries k
      · refine .inl ?_
        show LitmusHarness.store s.mem _ _ a = _
        rw [hae, store_self, hd, he]
      · show LitmusHarness.store s.mem _ _ a = _ ∨ _
        rw [store_of_ne hae]
        refine hm.imp_right fun hp => ?_
        obtain ⟨i, h1, h2, h3⟩ := (hpend s.pretest a).mp hp
        refine ⟨i, ?_, h2, h3⟩
        rcases Nat.lt_or_eq_of_le h1 with hlt | rfl
        · exact hlt
        · exact absurd (h3.symm.trans he.symm) hae
    · exact h.cleanStep hnone rfl rfl rfl rfl huse (.inr ⟨_, rfl, hk⟩) fun _ _ a _ hm =>
        hm.imp_right (hpend s.pretest a).mp
    · refine h.cleanStep hnone rfl rfl rfl rfl huse (.inr ⟨_, rfl, hk⟩) fun j hj a hja hm => ?_
      by_cases hae : a = (s.cpus c).ttEntries k
      · exact .inr ⟨k, le_rfl, hk, he.symm.trans hae.symm⟩
      · show LitmusHarness.store s.mem _ _ a = _ ∨ _
        rw [store_of_ne hae]
        exact hm.imp_right (hpend s.pretest a).mp

/-! ## The start of a batch -/

/-- A CPU that waits for the tables. -/
theorem waitAllocate_facts (h : cpu.pc = .waitAllocate) : (cpu.Allocated ↔ cpu.vcpu = 0) ∧
    (∀ k, cpu.pc.saved k = false) ∧ (∀ mem, cpu.SetupOk cfg mem) ∧ ∀ mem a, ¬cpu.Pending cfg mem a := by
  unfold Cpu.Allocated Cpu.SetupOk Cpu.Pending
  simp [h, Pc.inSetup, Pc.usesTables, Pc.saved]

theorem outside_of_allocate (h : (s.cpus d).pc = .waitAffinity ∨ (s.cpus d).pc = .getAffinity ∨
    (s.cpus d).pc = .allocate ∨ (s.cpus d).pc = .waitAllocate) : (s.cpus d).pc.outside = true ∨
      (s.cpus d).pc = .waitAllocate := by
  rcases h with h | h | h | h <;> simp [h, Pc.outside]

/-- **The tables of a batch are allocated**, for nobody else has them, nor uses the old ones. -/
theorem RestoreInv.allocate (h : RestoreInv cfg s) (hs : SyncInv cfg u s) (hpc : (s.cpus c).pc = .allocate)
    (hv : (s.cpus c).vcpu = 0) {mem : Mem} (hm : cfg.Mapped mem (s.cpus c).batchStart) :
    RestoreInv cfg { s.setCpu c ((s.cpus c).enter .waitAllocate) with
      mem := mem, pretest := mem, pretestBatch := (s.cpus c).batchStart } := by
  have hself : ((s.cpus c).enter .waitAllocate).pc = .waitAllocate := rfl
  obtain ⟨-, hsaved', hset', -⟩ := @waitAllocate_facts cfg _ hself
  have hout := fun d => outside_of_allocate (hs.of_allocate hpc d)
  -- only the test thread 0 allocates
  have hother : ∀ d, d ≠ c → ¬(s.cpus d).Allocated := by
    intro d hd ha
    rcases hout d with ho | hw
    · exact (@outside_facts cfg _ ho).2.1 ha
    · have h0 := (@waitAllocate_facts cfg _ hw).1.mp ha
      have hd' := h.vcpu d (.inr hw)
      have hc' := h.vcpu c (.inl hpc)
      rw [h0] at hd'
      rw [hv] at hc'
      exact hd (s.affinity.injective (Fin.ext (hd'.symm.trans hc')))
  refine ⟨h.vcpu_update rfl rfl fun _ => h.vcpu c (.inl hpc), fun d ha => ?_, fun _ _ => ⟨rfl, hm⟩, ?_, ?_,
    fun k _ => .inl rfl⟩
  · dsimp only [RunState.setCpu] at ha ⊢
    by_cases hd : d = c
    · subst hd
      rw [Function.update_self]
      rfl
    · rw [Function.update_of_ne hd] at ha
      exact absurd ha (hother d hd)
  · refine forall_update (P := fun _ cpu => cpu.SetupOk cfg mem) (hset' mem) fun d => ?_
    rcases hout d with ho | hw
    · exact (outside_facts ho).2.2.2.1 mem
    · exact (waitAllocate_facts hw).2.2.1 mem
  · refine forall_update (P := fun _ cpu => cpu.SavedOk cfg mem) (fun k _ hk => ?_) fun d k _ hk => ?_
    · rw [hsaved'] at hk
      cases hk
    · rcases hout d with ho | hw
      · rw [(@outside_facts cfg _ ho).2.2.1] at hk
        cases hk
      · rw [(@waitAllocate_facts cfg _ hw).2.1] at hk
        cases hk

/-- The other CPUs leave them to it. -/
theorem RestoreInv.keepTables (h : RestoreInv cfg s) (hs : SyncInv cfg u s) (hpc : (s.cpus c).pc = .allocate)
    (hv : (s.cpus c).vcpu ≠ 0) : RestoreInv cfg (s.setCpu c ((s.cpus c).enter .waitAllocate)) := by
  have hself : ((s.cpus c).enter .waitAllocate).pc = .waitAllocate := rfl
  obtain ⟨halloc', hsaved', hset', -⟩ := @waitAllocate_facts cfg _ hself
  have hnot : ¬((s.cpus c).enter .waitAllocate).Allocated := fun ha => hv (halloc'.mp ha)
  refine h.move rfl ⟨rfl, rfl, rfl⟩ (h.vcpu_update rfl rfl fun _ => h.vcpu c (.inl hpc)) (fun ha => absurd ha hnot)
    (fun _ ha => ?_) (hset' _) (fun k _ hk => ?_) fun k _ a _ hp => ?_
  · obtain ⟨d, ha⟩ := exists_of_update (P := Cpu.Allocated) (fun ha => absurd ha hnot) ha
    rcases outside_of_allocate (hs.of_allocate hpc d) with ho | hw
    · exact absurd ha (@outside_facts cfg _ ho).2.1
    · exact ⟨⟨d, by rw [hw]; rfl⟩, d, ha⟩
  · rw [hsaved'] at hk
    cases hk
  · exact absurd hp ((outside_facts (by rw [hpc]; rfl)).2.2.2.2 _ _)

/-- **A CPU starts to save entries** after the tables of the batch have been allocated. -/
theorem RestoreInv.startSetup (h : RestoreInv cfg s) (hs : SyncInv cfg u s) (hpc : (s.cpus c).pc = .waitAllocate)
    (hbw : (s.cpus c).bw = .done) : RestoreInv cfg (s.setCpu c { s.cpus c with pc := .setup 0 }) := by
  -- the CPU with the test thread 0 has allocated them
  obtain ⟨d, hd, hb⟩ : ∃ d, (s.cpus d).Allocated ∧ (s.cpus d).batchStart = (s.cpus c).batchStart := by
    obtain ⟨hb, hd⟩ := hs.of_waitAllocate hpc hbw (s.affinity.symm ⟨0, c.pos⟩)
    refine ⟨_, ?_, hb⟩
    rcases hd with hd | hd | hd | hd
    · refine (@waitAllocate_facts cfg _ hd).1.mpr ?_
      rw [h.vcpu _ (.inr hd), Equiv.apply_symm_apply]
    · exact .inr (.inl hd)
    · exact .inr (.inr (by rw [hd]; rfl))
    · exact (@running_facts cfg _ (by simp [Pc.running, hd])).2.1
  refine h.move rfl ⟨rfl, rfl, rfl⟩ (h.vcpu_update rfl rfl ?_) (fun _ => ?_) (fun _ _ => ⟨⟨c, by rw [hpc]; rfl⟩, d, hd⟩)
    trivial (fun k _ hk => ?_) fun k _ a _ hp => ?_
  · rintro (h' | h') <;> cases h'
  · exact hb.symm.trans (h.batch d hd)
  · simp [Pc.saved] at hk
  · exact absurd hp ((waitAllocate_facts hpc).2.2.2 _ _)

/-! ## Runs -/

theorem running_of_inTest (h : cpu.pc.inTest = true) : cpu.pc.running = true := by
  unfold Pc.inTest at h
  split at h <;> rename_i hpc <;> simp_all [Pc.running, Pc.inRun]

/-- The barriers that `WritesLate` names keep a test thread from writing early. -/
theorem SyncInv.not_beforeRuns (hs : SyncInv cfg u s) (hpc : (s.cpus c).pc.inTest = true) (hw : WritesLate cfg s c)
    (d : Fin n) : (s.cpus d).pc.beforeRuns = false := by
  rcases hw with hw | hj | ⟨hn, hpre⟩
  · exact hw d
  · exact hs.not_beforeRuns_of_later hpc hj d
  · exact hs.not_beforeRuns_of_pastStart hn hpc hpre d

/-- A write of a test thread. -/
theorem RestoreInv.write (h : RestoreInv cfg s) (hpc : (s.cpus c).pc.inTest = true)
    (hnone : ∀ d, (s.cpus d).pc.beforeRuns = false) (addr val : U64) : RestoreInv cfg (s.store (some (addr, val))) := by
  obtain ⟨-, -, -, -, -, hpend⟩ := @running_facts cfg _ (running_of_inTest hpc)
  have hcpus : (s.store (some (addr, val))).cpus = Function.update s.cpus c (s.cpus c) :=
    (Function.update_eq_self c s.cpus).symm
  refine h.change hcpus rfl rfl h.vcpu (h.batch c)
    (fun hd _ => ?_) (h.setup c) (h.saved c) fun _ _ a _ _ => .inr (hpend _ a)
  obtain ⟨d, hd⟩ := hd
  rw [Function.update_eq_self, hnone d] at hd
  cases hd

/-- A step of a CPU on its own. -/
theorem RestoreInv.own (h : RestoreInv cfg s) (hs : SyncInv cfg u s) {w : Option (U64 × U64)}
    (hstep : (s.cpus c).step cfg s.mem = some (cpu, w)) : RestoreInv cfg ((s.store w).setCpu c cpu) := by
  by_cases hset : (s.cpus c).pc.inSetup = true
  · obtain ⟨hpc', -, -, -, hb⟩ := Cpu.step_setup hset hstep
    rw [(h.setup_tables hset).1] at hstep
    obtain ⟨rfl, hok', hsaved'⟩ := Cpu.step_setupOk hset (h.setup c) (h.saved c) hstep
    exact h.setupStep rfl ⟨rfl, rfl, rfl⟩ rfl hset hpc' hb hok' hsaved'
  by_cases hclean : ∃ k, (s.cpus c).pc = .clean k ∨ ∃ v, (s.cpus c).pc = .cleanUpdate k v
  · obtain ⟨k, hpc⟩ := hclean
    exact h.clean (hs.not_beforeRuns_of_clean hpc) hpc hstep
  unfold Cpu.step at hstep
  split at hstep <;> rename_i hpc <;> simp only [hpc, Pc.inSetup, not_true_eq_false, Bool.false_eq_true] at hset
  · -- the outer loop
    split at hstep <;> cases hstep
    · exact h.stayOut rfl ⟨rfl, rfl, rfl⟩ rfl (by rw [hpc]; rfl) rfl (fun h' => by cases h')
    · exact h.stayOut rfl ⟨rfl, rfl, rfl⟩ rfl (by rw [hpc]; rfl) rfl (fun h' => by cases h')
  · -- the inner loop
    have hrun : (s.cpus c).pc.running = true := by simp [hpc, Pc.running]
    split at hstep
    · split at hstep <;> cases hstep
      · exact h.run rfl ⟨rfl, rfl, rfl⟩ rfl hrun rfl rfl ⟨rfl, rfl⟩
      · exact h.run rfl ⟨rfl, rfl, rfl⟩ rfl hrun rfl rfl ⟨rfl, rfl⟩
    · cases hstep
      obtain ⟨-, halloc, -, hsaved, -⟩ := @running_facts cfg _ hrun
      have hb := h.batch c halloc
      refine h.move rfl ⟨rfl, rfl, rfl⟩ (h.vcpu_update rfl rfl ?_) (fun _ => hb) (fun hd _ => ⟨?_, c, halloc⟩) trivial
        (fun k hk _ => h.saved c k hk (hsaved k)) fun k hk a he _ => .inr ⟨k, Nat.zero_le k, ?_, ?_⟩
      · rintro (h' | h') <;> cases h'
      · exact exists_of_update (P := fun cpu => cpu.pc.beforeRuns = true) (fun h' => by cases h') hd
      · rw [hb]
        exact hk
      · rw [hb]
        exact he
  · exact absurd ⟨_, .inl hpc⟩ hclean
  · exact absurd ⟨_, .inr ⟨_, hpc⟩⟩ hclean
  · cases hstep

/-- A return from `bwait`. -/
theorem RestoreInv.leave (h : RestoreInv cfg s) (hs : SyncInv cfg u s) {b : BarId} {sz : Nat}
    (hb : (s.cpus c).waitsAt cfg n = some (b, sz)) (hbw : (s.cpus c).bw = .done) :
    RestoreInv cfg (s.setCpu c (s.cpus c).afterWait) := by
  unfold Cpu.waitsAt at hb
  split at hb <;> rename_i hpc <;> simp only [Cpu.afterWait, hpc, reduceCtorEq] at hb ⊢
  · exact h.stayOut rfl ⟨rfl, rfl, rfl⟩ rfl (by rw [hpc]; rfl) rfl (fun h' => by cases h')
  · exact h.stayOut rfl ⟨rfl, rfl, rfl⟩ rfl (by rw [hpc]; rfl) rfl (fun h' => by cases h')
  · exact h.startSetup hs hpc hbw
  · exact h.run rfl ⟨rfl, rfl, rfl⟩ rfl (by simp [hpc, Pc.running, Pc.inRun]) rfl rfl ⟨rfl, rfl⟩
  · exact h.stayOut rfl ⟨rfl, rfl, rfl⟩ rfl (by rw [hpc]; rfl) rfl (fun h' => by cases h')
  · exact h.run rfl ⟨rfl, rfl, rfl⟩ rfl (by simp [hpc, Pc.running, Pc.inRun]) rfl rfl ⟨rfl, rfl⟩
  · exact h.run rfl ⟨rfl, rfl, rfl⟩ rfl (by simp [hpc, Pc.running, Pc.inRun]) rfl rfl ⟨rfl, rfl⟩

/-- A wait, in which a CPU does nothing else. -/
theorem RestoreInv.wait (h : RestoreInv cfg s) {bw : BwaitPc} (hcpus : s'.cpus = Function.update s.cpus c
    { s.cpus c with bw := bw }) (ht : SameTables s s') (haff : s'.affinity = s.affinity) : RestoreInv cfg s' := by
  refine h.move hcpus ht (h.vcpu_update hcpus haff (h.vcpu c)) (h.batch c) (fun hd ha => ⟨?_, ?_⟩) (h.setup c)
    (h.saved c) fun _ _ _ _ hp => .inr hp
  · refine exists_of_update (P := fun cpu => cpu.pc.beforeRuns = true) ?_ hd
    exact id
  · refine exists_of_update (P := Cpu.Allocated) ?_ ha
    exact id

/-- **What every step keeps**, if the test threads write late. -/
theorem restoreInv_step (h : RestoreInv cfg s) (hs : SyncInv cfg u s) (hstep : StepTo cfg s c s')
    (hok : (s.cpus c).pc.inTest = true → s'.mem = s.mem ∨ WritesLate cfg s c) : RestoreInv cfg s' := by
  cases hstep with
  | wait _ _ _ => exact h.wait rfl ⟨rfl, rfl, rfl⟩ rfl
  | leave hbar hbw => exact h.leave hs hbar hbw
  | own hown => exact h.own hs hown
  | keepAffinity hpc =>
    exact h.stayOut rfl ⟨rfl, rfl, rfl⟩ rfl (by rw [hpc]; rfl) rfl (fun h' => by cases h')
  | affinity hpc σ =>
    -- nobody uses the old affinities any more
    have hout := @outside_facts cfg (s.cpus c) (by rw [hpc]; rfl)
    refine h.out rfl ⟨rfl, rfl, rfl⟩ (forall_update (P := fun d cpu => cpu.pc = .allocate ∨ cpu.pc = .waitAllocate →
      cpu.vcpu = σ d) ?_ fun d h' => ?_) rfl (hout.2.2.2.2 _)
    · rintro (h' | h') <;> cases h'
    · exact (h'.elim (hs.of_newAffinity hpc d).1 (hs.of_newAffinity hpc d).2).elim
  | getAffinity hpc => exact h.stayOut rfl ⟨rfl, rfl, rfl⟩ rfl (by rw [hpc]; rfl) rfl fun _ => rfl
  | keepTables hpc hv => exact h.keepTables hs hpc hv
  | allocate hpc hv hm => exact h.allocate hs hpc hv hm
  | @ensureLock k hpc =>
    have hset : (s.cpus c).pc.inSetup = true := by rw [hpc]; rfl
    have hk := h.setup c
    simp only [Cpu.SetupOk, hpc] at hk
    refine h.setupStep rfl ⟨rfl, rfl, rfl⟩ rfl hset (.inl rfl) rfl ⟨hk, Nat.zero_le 3, ?_⟩ fun i hi hs => ?_
    · exact (h.setup_tables hset).2 k hk
    · exact h.saved c i hi (by rw [hpc]; exact hs)
  | @ensureUnlock k hpc =>
    have hset : (s.cpus c).pc.inSetup = true := by rw [hpc]; rfl
    have hk := h.setup c
    simp only [Cpu.SetupOk, hpc] at hk
    refine h.setupStep rfl ⟨rfl, rfl, rfl⟩ rfl hset (.inl rfl) rfl ⟨hk, Nat.zero_le _, rfl⟩ fun i hi hs => ?_
    exact h.saved c i hi (by rw [hpc]; exact hs)
  | page hpc pg =>
    have hk := h.setup c
    simp only [Cpu.SetupOk, hpc] at hk
  | write hpc addr val =>
    rcases hok hpc with hmem | hw
    · have hsame : s.store (some (addr, val)) = s := by
        have hmem' : LitmusHarness.store s.mem addr val = s.mem := hmem
        show { s with mem := LitmusHarness.store s.mem addr val } = s
        rw [hmem']
      rw [hsame]
      exact h
    · exact h.write hpc (hs.not_beforeRuns hpc hw) addr val
  | «return» hret =>
    unfold Cpu.afterTest at hret
    split at hret <;> rename_i hpc <;> cases hret
    · exact h.run rfl ⟨rfl, rfl, rfl⟩ rfl (by simp [hpc, Pc.running, Pc.inRun]) rfl rfl ⟨rfl, rfl⟩
    · exact h.run rfl ⟨rfl, rfl, rfl⟩ rfl (by simp [hpc, Pc.running, Pc.inRun]) rfl rfl ⟨rfl, rfl⟩
    · exact h.run rfl ⟨rfl, rfl, rfl⟩ rfl (by simp [hpc, Pc.running, Pc.inRun]) rfl rfl ⟨rfl, rfl⟩

/-- Only a write of its code changes the tables while a test thread is in it. -/
theorem mem_of_inTest {a : RunAction n} (hpc : (s.cpus c).pc.inTest = true) (ha : ∀ addr val, a ≠ .write addr val)
    (h : step cfg s c a = some s') : s'.mem = s.mem := by
  have hpc' : (s.cpus c).pc = .pre ∨ (s.cpus c).pc = .func ∨ (s.cpus c).pc = .post := by
    unfold Pc.inTest at hpc
    split at hpc <;> simp_all
  cases a with
  | write addr val => exact absurd rfl (ha addr val)
  | «return» =>
    rcases hpc' with hpc' | hpc' | hpc' <;> simp only [step, Cpu.afterTest, hpc', Option.some.injEq] at h <;> rw [← h] <;>
      rfl
  | tick =>
    rcases hpc' with hpc' | hpc' | hpc' <;> simp [step, tickStep, Cpu.waitsAt, Cpu.step, hpc'] at h
  | affinity σ => rcases hpc' with hpc' | hpc' | hpc' <;> simp [step, hpc'] at h
  | allocate mem => rcases hpc' with hpc' | hpc' | hpc' <;> simp [step, hpc'] at h
  | page pg => rcases hpc' with hpc' | hpc' | hpc' <;> simp [step, hpc'] at h

theorem mem_or_writesLate {a : RunAction n} (hok : StepOk cfg s c a) (h : step cfg s c a = some s')
    (hpc : (s.cpus c).pc.inTest = true) : s'.mem = s.mem ∨ WritesLate cfg s c := by
  cases a with
  | write addr val =>
    refine hok.imp_left fun hval => ?_
    simp only [step, hpc, if_true, Option.some.injEq] at h
    rw [← h]
    funext a
    by_cases ha : a = addr
    · subst ha
      exact (store_self s.mem a val).trans hval.symm
    · exact store_of_ne ha
  | _ => exact .inl (mem_of_inTest hpc (fun _ _ => by simp) h)

/-- The steps that are taken, each of a CPU. -/
def OkStep (cfg : RunConfig) (s s' : RunState n) : Prop := ∃ c a, StepOk cfg s c a ∧ step cfg s c a = some s'

end Steps

/-- **The saved entries are those before the tests, and `clean_run_data` restores them**, in every state that is reached
while the test threads change the tables only when no CPU is still to save entries. -/
theorem run_restores {n : Nat} {cfg : RunConfig} {s : RunState n} (h : Reach.Reachable RunInit (OkStep cfg) s) :
    Restored cfg s := by
  rcases Nat.eq_zero_or_pos cfg.batchSize with hb | hb
  · -- there are no entries
    have hnone : ∀ b, cfg.noSaved b = 0 := fun b => by simp [RunConfig.noSaved, RunConfig.batchEnd, hb]
    refine ⟨fun c k hk => ?_, fun _ k hk => ?_⟩ <;> rw [hnone] at hk <;> cases hk
  · have hinv : (∃ u, SyncInv cfg u s) ∧ RestoreInv cfg s := by
      refine Reach.Reachable.inv (I := fun s => (∃ u, SyncInv cfg u s) ∧ RestoreInv cfg s)
        (fun s hs => ⟨⟨_, syncInv_init hs⟩, restoreInv_init hs⟩) ?_ h
      rintro s s' ⟨⟨u, hs⟩, hr⟩ ⟨c, a, hok, hstep⟩
      exact ⟨syncInv_step hb hs (stepTo_of_step hstep),
        restoreInv_step hr hs (stepTo_of_step hstep) (mem_or_writesLate hok hstep)⟩
    exact hinv.2.restored

/-! ## A CPU without a test thread -/

/-- One test thread for two CPUs, and one run with one variable. -/
def onePage : RunConfig :=
  { noThreads := 1, noRuns := 1, batchSize := 1, noHeapVars := 1, root := fun _ => 0x1000, va := fun _ _ => 0 }

/-- Its tables, with the level-3 entry of the variable at `0x4000`. -/
def onePageMem : Mem := fun a =>
  if a = 0x1000 then 0x2003 else if a = 0x2000 then 0x3003 else if a = 0x3000 then 0x4003
  else if a = 0x4000 then 0x5003 else 0

/-- A step of one of its CPUs, and whether the test thread changes the tables only late. -/
def onePageStep (late : Bool) (s : RunState 2) (l : Fin 2 × RunAction 2) : Option (RunState 2) :=
  if late = true → StepOk onePage s l.1 l.2 then step onePage s l.1 l.2 else none

/-- `k` accesses of a CPU. -/
def ticks (c : Fin 2) (k : Nat) : List (Fin 2 × RunAction 2) := List.replicate k (c, .tick)

/-- Both CPUs start, and CPU 0 sets up the batch. -/
def onePageStart : List (Fin 2 × RunAction 2) :=
  ticks 0 7 ++ ticks 1 10 ++ ticks 0 6 ++ [(0, .affinity (Equiv.refl _))] ++ ticks 0 11 ++ ticks 1 14 ++ ticks 0 6 ++
    [(0, .allocate onePageMem)] ++ ticks 0 11 ++ ticks 1 14 ++ ticks 0 49

/-- CPU 1 sets up the batch. -/
def onePageIdle : List (Fin 2 × RunAction 2) := ticks 1 46

/-- The test thread unmaps the variable. -/
def onePageTest : List (Fin 2 × RunAction 2) := [(0, .return)] ++ ticks 0 13 ++ [(0, .write 0x4000 0)]

/-- The test ends, and both CPUs restore the tables. -/
def onePageEnd : List (Fin 2 × RunAction 2) :=
  [(0, .return), (0, .return)] ++ ticks 0 24 ++ ticks 1 11 ++ ticks 0 23 ++ ticks 1 22

/-- What such a run reaches. -/
theorem onePage_reaches {late : Bool} {l : List (Fin 2 × RunAction 2)} {P : RunState 2 → Bool}
    (h : (Reach.run (onePageStep late) { mem := onePageMem } l).any P = true) :
    ∃ s, Reach.Reachable RunInit (fun s s' => ∃ l, onePageStep late s l = some s') s ∧ P s = true := by
  obtain ⟨s, hs, hP⟩ := (Option.any_eq_true _ _).mp h
  exact ⟨s, Reach.reachable_run (.init ⟨onePageMem, rfl⟩) hs, hP⟩

theorem okStep_of_onePageStep {s s' : RunState 2} (h : ∃ l, onePageStep true s l = some s') : OkStep onePage s s' := by
  obtain ⟨⟨c, a⟩, h⟩ := h
  unfold onePageStep at h
  split at h
  · next hok => exact ⟨c, a, hok rfl, h⟩
  · cases h

/-- The test thread waits for both CPUs to set up the batch. -/
theorem run_restores_late : ∃ s : RunState 2, Reach.Reachable RunInit (OkStep onePage) s ∧ (∀ c, (s.cpus c).pc = .endOfThread) ∧
    Restored onePage s := by
  obtain ⟨s, hs, hpc⟩ := @onePage_reaches true (onePageStart ++ onePageIdle ++ onePageTest ++ onePageEnd)
    (fun s => ∀ c, (s.cpus c).pc = .endOfThread) (by decide +kernel)
  have hs' := hs.mono fun _ _ => okStep_of_onePageStep
  exact ⟨s, hs', of_decide_eq_true hpc, run_restores hs'⟩

/-- A CPU without a test thread saves what the test thread has written, and that is what it writes back. -/
theorem run_not_restored :
    (∃ s : RunState 2, Reach.Reachable RunInit (fun s s' => ∃ c a, step onePage s c a = some s') s ∧
      (s.cpus 1).pc = .runLoop ∧ (s.cpus 1).ttDescs 3 ≠ s.pretest ((s.cpus 1).ttEntries 3) ∧ ¬Restored onePage s) ∧
    ∃ s : RunState 2, Reach.Reachable RunInit (fun s s' => ∃ c a, step onePage s c a = some s') s ∧
      (∀ c, (s.cpus c).pc = .endOfThread) ∧ ¬Restored onePage s := by
  have hmono : ∀ s s' : RunState 2, (∃ l, onePageStep false s l = some s') → ∃ c a, step onePage s c a = some s' :=
    fun _ _ ⟨l, h⟩ => ⟨l.1, l.2, h⟩
  constructor
  · obtain ⟨s, hs, hP⟩ := @onePage_reaches false (onePageStart ++ onePageTest ++ onePageIdle)
      (fun s => (s.cpus 1).pc = .runLoop ∧ (s.cpus 1).ttDescs 3 ≠ s.pretest ((s.cpus 1).ttEntries 3) ∧
        3 < onePage.noSaved (s.cpus 1).batchStart) (by decide +kernel)
    obtain ⟨hpc, hne, hk⟩ := of_decide_eq_true hP
    refine ⟨s, hs.mono hmono, hpc, hne, fun h => ?_⟩
    exact hne (h.saved 1 3 hk (by rw [hpc]; rfl)).2.2
  · obtain ⟨s, hs, hP⟩ := @onePage_reaches false (onePageStart ++ onePageTest ++ onePageIdle ++ onePageEnd)
      (fun s => (∀ c, (s.cpus c).pc = .endOfThread) ∧ 3 < onePage.noSaved s.pretestBatch ∧
        s.mem (onePage.savedEntry s.pretest s.pretestBatch 3) ≠ s.pretest (onePage.savedEntry s.pretest s.pretestBatch 3))
      (by decide +kernel)
    obtain ⟨hpc, hk, hne⟩ := of_decide_eq_true hP
    refine ⟨s, hs.mono hmono, hpc, fun h => ?_⟩
    exact hne (h.restored (fun c => by rw [hpc c]; rfl) 3 hk)

end LitmusHarness
