import LitmusHarness.Sync.Remote
import Mathlib.Algebra.BigOperators.Fin
import Mathlib.Data.List.Infix

/-!
# What is executed remotely

In every reachable state each CPU has executed, in order, the functions of the calls that have returned, with their
arguments, and perhaps that of the call in progress, if it is a target of it; and all calls can return
(`remote_execution`). While a call is in progress, the controlling CPU or a CPU that it waits for can take a step that
lowers a measure (`Inv.progress`).
-/

namespace LitmusHarness.CpuBoot

section Invariant

variable {Fn : Type} {me : Fin 4} {calls rest : List (Call Fn)} {call : Call Fn} {s s' : State Fn}

/-! ## What the CPUs have executed -/

/-- What a CPU has executed at a stage of a call. -/
theorem CpuState.At.executed {E : List (Fn × U64)} {x : Fn × U64} {w : CpuState Fn} {st : Stage} (h : w.At E x st) :
    (w.begun = E ∧ w.done = E) ∨ st ≠ .fresh ∧ w.begun = E ++ [x] ∧ (w.done = E ∨ w.done = E ++ [x]) := by
  cases st with
  | fresh => exact .inl ⟨h.begun, h.done⟩
  | cleared | ready => exact .inl ⟨h.1.begun, h.1.done⟩
  | executing => exact .inr ⟨by simp, h.begun, .inl h.done⟩
  | executed => exact .inr ⟨by simp, h.begun, .inr h.done⟩
  | done => exact .inr ⟨by simp, h.1.begun, .inr h.1.done⟩
  | posted =>
    rcases h with ⟨-, h⟩ | h
    · split at h
      · exact .inl h.2.2
      · exact .inl h.2.2
      · exact .inl h.2.2
      · exact .inl h.2.2.2
      · exact .inl h.2.2
      · exact .inr ⟨by simp, h.2.2.1, .inl h.2.2.2⟩
      · exact .inr ⟨by simp, h.2.1, .inr h.2.2⟩
      · exact h.elim
    · exact .inr ⟨by simp, h.1.begun, .inr h.1.done⟩

/-- A CPU has executed the calls that have returned, and may have executed the one in progress, if it is a target. -/
theorem Inv.executed (h : Inv me calls s) (c : Fin 4) :
    expected c s.returned <+: (s.cpu c).done ∧ (s.cpu c).done <+: (s.cpu c).begun ∧
      (s.cpu c).begun <+: expected c (s.returned ++ s.todo.take 1) := by
  cases ht : s.todo with
  | nil =>
    have hidle := (h.quiet ht).2 c
    simp [hidle.begun, hidle.done]
  | cons call rest =>
    simp only [List.take_succ_cons, List.take_zero, expected_append]
    obtain ⟨hb, hd⟩ | ⟨hst, hb, hd⟩ := ((h.call _ _ ht).2 c).executed
    · rw [hb, hd]
      exact ⟨List.prefix_refl _, List.prefix_refl _, List.prefix_append _ _⟩
    · rw [hb, targets_of_stage hst, if_pos rfl]
      rcases hd with hd | hd <;> rw [hd]
      · exact ⟨List.prefix_refl _, List.prefix_append _ _, List.prefix_refl _⟩
      · exact ⟨List.prefix_append _ _, List.prefix_refl _, List.prefix_refl _⟩

/-- Between two calls every CPU has executed the calls that have returned, and is idle. -/
theorem Inv.between (h : Inv me calls s) (hpc : s.pc = .start) (c : Fin 4) :
    (s.cpu c).Idle (expected c s.returned) (expected c s.returned) := by
  cases ht : s.todo with
  | nil => exact (h.quiet ht).2 c
  | cons call rest =>
    have hat := (h.call _ _ ht).2 c
    rwa [hpc, stage_start] at hat

/-! ## The calls can return -/

/-- The steps that `run_on_cpu_async` still takes. -/
def AsyncPc.left : AsyncPc → Nat
  | .await => 3
  | .clearFinished => 2
  | .setArg => 1
  | .setFn => 0

/-- A bound on the steps that a call still takes. -/
def Pc.left : Pc → Nat
  | .start => 35
  | .awaitStarted i => 30 + (4 - i)
  | .post i => 9 + 5 * (4 - i)
  | .async k pc => 10 + 5 * (3 - k) + pc.left
  | .callSelf => 8
  | .inSelf => 7
  | .setFinished => 6
  | .collect i => 1 + (4 - i)
  | .waitFor _ => 1
  | .failed => 0

/-- The steps that the idle loop still takes for what is posted. -/
def CpuState.left (w : CpuState Fn) : Nat :=
  match w.pc with
  | .test => if w.toExecute.isSome then 7 else 0
  | .load => 6
  | .clear _ => 5
  | .loadArg _ => 4
  | .call _ _ => 3
  | .running _ _ => 2
  | .finish => 1
  | .crashed => 0

/-- A measure of what is to be done: a step of a call can post one function. -/
def State.left (s : State Fn) : Nat :=
  (match s.todo with
    | [] => 0
    | _ :: rest => rest.length * 36 + s.pc.left) * 8 + ∑ c, (s.cpu c).left

theorem sum_left_update (cpu : Fin 4 → CpuState Fn) (k : Fin 4) (w : CpuState Fn) :
    (∑ c, (Function.update cpu k w c).left) + (cpu k).left = (∑ c, (cpu c).left) + w.left := by
  have h := Finset.add_sum_erase Finset.univ (fun c => (cpu c).left) (Finset.mem_univ k)
  have h' := Finset.add_sum_erase Finset.univ (fun c => (Function.update cpu k w c).left) (Finset.mem_univ k)
  have hrest : ∑ c ∈ Finset.univ.erase k, (Function.update cpu k w c).left = ∑ c ∈ Finset.univ.erase k, (cpu c).left :=
    Finset.sum_congr rfl fun c hc => by rw [Function.update_of_ne (Finset.ne_of_mem_erase hc)]
  simp only [Function.update_self] at h'
  omega

/-- The idle loop makes progress with what is posted. -/
theorem CpuState.Handles.left_lt {E : List (Fn × U64)} {x : Fn × U64} {w : CpuState Fn} (h : w.Handles E x) :
    w.idleStep.left < w.left := by
  obtain ⟨toExecute, arg, started, finished, pc, begun, done⟩ := w
  obtain ⟨-, h⟩ := h
  cases pc with
  | test | load =>
    obtain ⟨rfl, -⟩ := h
    simp [CpuState.idleStep, CpuState.left]
  | clear fn => simp [CpuState.idleStep, CpuState.left]
  | loadArg fn => simp [CpuState.idleStep, CpuState.left]
  | call fn arg => simp [CpuState.idleStep, CpuState.left]
  | running fn arg => simp [CpuState.idleStep, CpuState.left]
  | finish =>
    obtain ⟨rfl, -⟩ := h
    simp [CpuState.idleStep, CpuState.left]
  | crashed => exact h.elim

theorem State.left_cons (ht : s.todo = call :: rest) :
    s.left = (rest.length * 36 + s.pc.left) * 8 + ∑ c, (s.cpu c).left := by
  simp only [State.left, ht]

theorem State.left_move (ht : s.todo = call :: rest) {pc : Pc} (hlt : pc.left < s.pc.left) :
    State.left { s with pc := pc } < s.left := by
  simp only [State.left, ht]
  omega

theorem State.left_set (ht : s.todo = call :: rest) {k : Fin 4} {w : CpuState Fn} {pc : Pc} (hlt : pc.left < s.pc.left)
    (hw : w.left ≤ (s.cpu k).left + 7) : (s.set k w pc).left < s.left := by
  have := sum_left_update s.cpu k w
  simp only [State.left, State.set, ht]
  omega

theorem State.left_return (ht : s.todo = call :: rest) (hpos : 0 < s.pc.left) : (s.return call rest).left < s.left := by
  rw [State.left_cons ht]
  cases rest with
  | nil =>
    simp only [State.left, State.return, List.length_nil]
    omega
  | cons call' rest =>
    simp only [State.left, State.return, List.length_cons, Pc.left]
    omega

/-- **A step that makes progress** in a call that does not fail: of the controlling CPU, or of one it waits for. -/
theorem Inv.progress (h : Inv me calls s) (ht : s.todo = call :: rest) (hok : call.fails = false) :
    ∃ s', Step me s s' ∧ s'.left < s.left := by
  obtain ⟨hpcOk, hat⟩ := h.call _ _ ht
  have hcall (hlt : (s.callStep me call rest).left < s.left) : ∃ s', Step me s s' ∧ s'.left < s.left :=
    ⟨_, step_call ht, hlt⟩
  have hidle {c : Fin 4} (hc : c ≠ me) (hh : (s.cpu c).Handles (expected c s.returned) call.work) :
      ∃ s', Step me s s' ∧ s'.left < s.left := by
    refine ⟨_, step_idle s hc, ?_⟩
    have := sum_left_update s.cpu c (s.cpu c).idleStep
    have := hh.left_lt
    simp only [State.left, State.set, ht]
    omega
  cases hpc : s.pc with
  | start =>
    apply hcall
    unfold State.callStep
    simp only [hpc]
    cases call with
    | runOnCpus fn arg =>
      simp only [Call.fails] at hok
      simp only [hok, Bool.false_eq_true, if_false]
      exact State.left_move ht (by simp [hpc, Pc.left])
    | runOnCpu cpu fn arg =>
      dsimp only
      split
      · exact State.left_move ht (by simp [hpc, Pc.left])
      · apply State.left_move ht
        simp only [hpc, Pc.left, AsyncPc.left]
        omega
  | awaitStarted i =>
    apply hcall
    unfold State.callStep
    simp only [hpc]
    split
    · rw [if_pos (h.started _)]
      apply State.left_move ht
      simp only [hpc, Pc.left]
      omega
    · apply State.left_move ht
      simp only [hpc, Pc.left]
      omega
  | post i =>
    apply hcall
    unfold State.callStep
    simp only [hpc]
    split
    · apply State.left_move ht
      split <;> simp only [hpc, Pc.left, AsyncPc.left] <;> omega
    · apply State.left_move ht
      simp only [hpc, Pc.left]
      omega
  | async k apc =>
    apply hcall
    have hatk := hat k
    rw [hpc, stage_async (hpc ▸ hpcOk)] at hatk
    unfold State.callStep
    simp only [hpc]
    cases apc with
    | await =>
      simp only [h.started k, if_true]
      exact State.left_move ht (by simp [hpc, Pc.left, AsyncPc.left])
    | clearFinished =>
      exact State.left_set ht (by simp [hpc, Pc.left, AsyncPc.left]) (by simp [CpuState.left])
    | setArg =>
      exact State.left_set ht (by simp [hpc, Pc.left, AsyncPc.left]) (by simp [CpuState.left])
    | setFn =>
      refine State.left_set ht ?_ (by simp [CpuState.left, hatk.1.pc])
      have := k.isLt
      split <;> simp only [hpc, Pc.left, AsyncPc.left] <;> omega
  | callSelf =>
    apply hcall
    unfold State.callStep
    simp only [hpc]
    exact State.left_set ht (by simp [hpc, Pc.left]) (by simp [CpuState.left])
  | inSelf =>
    apply hcall
    unfold State.callStep
    simp only [hpc]
    have hset (w : CpuState Fn) (hw : w.left = (s.cpu me).left) : (s.set me w .setFinished).left < s.left :=
      State.left_set ht (by simp [hpc, Pc.left]) (by omega)
    cases call with
    | runOnCpus fn arg => exact hset _ rfl
    | runOnCpu cpu fn arg =>
      exact lt_trans (State.left_return (s := s.set me _ .setFinished) ht (by simp [State.set, Pc.left])) (hset _ rfl)
  | setFinished =>
    apply hcall
    unfold State.callStep
    simp only [hpc]
    exact State.left_set ht (by simp [hpc, Pc.left]) (by simp [CpuState.left])
  | collect i =>
    cases call with
    | runOnCpu cpu fn arg => simp [PcOk, hpc] at hpcOk
    | runOnCpus fn arg =>
      by_cases hi : i < 4
      · cases hf : (s.cpu ⟨i, hi⟩).finished with
        | true =>
          apply hcall
          unfold State.callStep
          simp only [hpc, hi, dif_pos, hf, if_true]
          apply State.left_move ht
          simp only [hpc, Pc.left]
          omega
        | false =>
          have hati := hat ⟨i, hi⟩
          simp only [hpc, stage, stageAll, Nat.lt_irrefl, or_false] at hati
          split at hati
          · simp [hati.2] at hf
          · rename_i hme
            exact hidle hme (hati.resolve_right fun hd => by simp [hd.2] at hf)
      · apply hcall
        unfold State.callStep
        simp only [hpc, hi, dif_neg, not_false_eq_true]
        exact State.left_return ht (by simp [hpc, Pc.left])
  | waitFor k =>
    cases call with
    | runOnCpus fn arg => simp [PcOk, hpc] at hpcOk
    | runOnCpu cpu fn arg =>
      obtain ⟨rfl, hme⟩ : k = cpu ∧ cpu ≠ me := by simpa only [PcOk, hpc] using hpcOk
      cases hf : (s.cpu k).finished with
      | true =>
        apply hcall
        unfold State.callStep
        simp only [hpc, hf, if_true]
        exact State.left_return ht (by simp [hpc, Pc.left])
      | false =>
        have hatk := hat k
        simp only [hpc, stage, stageOne, if_true] at hatk
        exact hidle hme (hatk.resolve_right fun hd => by simp [hd.2] at hf)
  | failed =>
    cases call with
    | runOnCpus fn arg =>
      simp only [PcOk, hpc] at hpcOk
      simp [Call.fails, hpcOk] at hok
    | runOnCpu cpu fn arg => simp [PcOk, hpc] at hpcOk

/-- **Remote execution.** In every state that is reached, by any interleaving, each CPU has ended the functions of the
calls that have returned whose target it is, once each, in order and with their arguments, and besides these it has
started at most that of the call in progress, if it is a target of it. Between two calls nothing else is started. If no
call is given an argument on the stack, then all calls can still return. -/
theorem remote_execution (h : Reach.Reachable (Start calls) (Step me) s) :
    s.returned ++ s.todo = calls ∧
      (∀ c, expected c s.returned <+: (s.cpu c).done ∧ (s.cpu c).done <+: (s.cpu c).begun ∧
        (s.cpu c).begun <+: expected c (s.returned ++ s.todo.take 1)) ∧
      (s.pc = .start → ∀ c, (s.cpu c).begun = expected c s.returned ∧ (s.cpu c).done = expected c s.returned) ∧
      ((∀ call ∈ calls, call.fails = false) → ∃ s', Relation.ReflTransGen (Step me) s s' ∧ s'.todo = []) := by
  have hinv : Inv me calls s := h.inv (fun _ => inv_start) fun _ _ => inv_step
  refine ⟨hinv.split, hinv.executed, fun hpc c => ⟨(hinv.between hpc c).begun, (hinv.between hpc c).done⟩, fun hok => ?_⟩
  obtain ⟨s', hrun, -, hs'⟩ := @Reach.exists_of_measure _ (Step me) (Inv me calls) (fun s => s.todo = [])
    State.left (fun s hs hgoal => by
      obtain ⟨call, rest, ht⟩ := List.exists_cons_of_ne_nil hgoal
      have hmem : call ∈ calls := by simp [← hs.split, ht]
      obtain ⟨s', hstep, hlt⟩ := hs.progress ht (hok call hmem)
      exact ⟨s', hstep, inv_step hs hstep, hlt⟩) _ hinv
  exact ⟨s', hrun, hs'⟩

end Invariant

/-- All CPUs are idle, and CPU 0 calls function 7 on CPU 1. -/
def oneCall : State Nat where
  cpu _ := ⟨none, 0, true, false, .test, [], []⟩
  pc := .start
  returned := []
  todo := [.runOnCpu 1 7 5]

theorem remote_execution_oneCall : ∃ s, Reach.run (State.step 0) oneCall [0, 0, 0, 0, 0, 1, 1, 1, 1, 1, 1, 1, 0] = some s ∧
    s.pc = .start ∧ ∀ c, expected c s.returned <+: (s.cpu c).done ∧ (s.cpu c).done <+: (s.cpu c).begun ∧
      (s.cpu c).begun <+: expected c (s.returned ++ s.todo.take 1) := by
  have hrun : (Reach.run (State.step 0) oneCall [0, 0, 0, 0, 0, 1, 1, 1, 1, 1, 1, 1, 0]).any
      (fun s => decide (s.pc = .start ∧ (s.cpu 1).done = [(7, 5)])) = true := by decide +kernel
  obtain ⟨s, hs, hp⟩ := (Option.any_eq_true _ _).mp hrun
  have hstart : Reach.Reachable (Start oneCall.todo) (Step 0) oneCall :=
    .init ⟨fun _ => ⟨rfl, rfl, rfl, rfl, rfl⟩, rfl, rfl, rfl⟩
  exact ⟨s, hs, (of_decide_eq_true hp).1, (remote_execution (Reach.reachable_run hstart hs)).2.1⟩

end LitmusHarness.CpuBoot
