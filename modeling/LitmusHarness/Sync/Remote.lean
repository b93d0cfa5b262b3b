import LitmusHarness.Bitwise
import LitmusHarness.Lib.Reach
import Mathlib.Logic.Function.Basic

/-!
# Remote execution: `run_on_cpus`, `run_on_cpu`, `secondary_idle_loop`

One CPU makes calls, the others are in their idle loops. A step is an access to a word of `cpu_data` or the start or the
end of a function; waiting loops take steps that change nothing. What a CPU has started and ended to execute is
recorded.

The invariant says, from the place of the controlling CPU in its call, at which stage of the call each CPU is
(`stage`), and from the stage what its words, its place in the idle loop and its records are (`CpuState.At`). Every step
keeps it (`inv_step`).
-/

namespace LitmusHarness.CpuBoot

/-! ## The CPUs and the calls -/

/-- `IN_STACK_MMAP_SPACE`: at most 1 GiB above 16 GiB. -/
def inStackMmapSpace (va : U64) : Bool := 16 * 2 ^ 30 ≤ va.toNat && va.toNat ≤ 16 * 2 ^ 30 + 2 ^ 30

/-- The places in `secondary_idle_loop`, with what the CPU has read. -/
inductive IdlePc (Fn : Type)
  /-- reads `to_execute`, to test it -/
  | test
  /-- reads `to_execute` again -/
  | load
  /-- clears `to_execute` -/
  | clear (fn : Fn)
  /-- reads `arg` -/
  | loadArg (fn : Fn)
  /-- starts the function -/
  | call (fn : Fn) (arg : U64)
  /-- ends the function -/
  | running (fn : Fn) (arg : U64)
  /-- sets `finished` -/
  | finish
  /-- has called a null pointer -/
  | crashed

/-- A CPU: its words of `cpu_data`, a null `to_execute` as `none`, its place in the idle loop, and the functions that
it has started and ended to execute. -/
structure CpuState (Fn : Type) where
  toExecute : Option Fn
  arg : U64
  started : Bool
  finished : Bool
  pc : IdlePc Fn
  begun : List (Fn × U64)
  done : List (Fn × U64)

/-- A step of `secondary_idle_loop`. -/
def CpuState.idleStep {Fn : Type} (w : CpuState Fn) : CpuState Fn :=
  match w.pc with
  | .test => if w.toExecute.isSome then { w with pc := .load } else w
  | .load =>
    match w.toExecute with
    | some fn => { w with pc := .clear fn }
    | none => { w with pc := .crashed }
  | .clear fn => { w with toExecute := none, pc := .loadArg fn }
  | .loadArg fn => { w with pc := .call fn w.arg }
  | .call fn arg => { w with begun := w.begun ++ [(fn, arg)], pc := .running fn arg }
  | .running fn arg => { w with done := w.done ++ [(fn, arg)], pc := .finish }
  | .finish => { w with finished := true, pc := .test }
  | .crashed => w

/-- A call of the controlling CPU. -/
inductive Call (Fn : Type)
  | runOnCpus (fn : Fn) (arg : U64)
  | runOnCpu (cpu : Fin 4) (fn : Fn) (arg : U64)

/-- The function and the argument of a call. -/
def Call.work {Fn : Type} : Call Fn → Fn × U64
  | .runOnCpus fn arg => (fn, arg)
  | .runOnCpu _ fn arg => (fn, arg)

/-- Whether a CPU is a target of a call. -/
def Call.targets {Fn : Type} (c : Fin 4) : Call Fn → Bool
  | .runOnCpus _ _ => true
  | .runOnCpu cpu _ _ => cpu = c

/-- Whether a call fails: `run_on_cpus` must not be given an argument on the stack. -/
def Call.fails {Fn : Type} : Call Fn → Bool
  | .runOnCpus _ arg => inStackMmapSpace arg
  | .runOnCpu _ _ _ => false

/-- The places in `run_on_cpu_async`. -/
inductive AsyncPc
  | await
  | clearFinished
  | setArg
  | setFn
  deriving DecidableEq

/-- The places in `run_on_cpus` and `run_on_cpu`. -/
inductive Pc
  /-- has not started the next call -/
  | start
  /-- waits for the CPUs from `i` on to be started -/
  | awaitStarted (i : Nat)
  /-- posts to the CPUs from `i` on -/
  | post (i : Nat)
  /-- is in `run_on_cpu_async` -/
  | async (cpu : Fin 4) (pc : AsyncPc)
  /-- starts the function itself -/
  | callSelf
  /-- ends the function itself -/
  | inSelf
  /-- sets its own `finished` -/
  | setFinished
  /-- waits for the CPUs from `i` on to have finished -/
  | collect (i : Nat)
  /-- waits for the one CPU to have finished -/
  | waitFor (cpu : Fin 4)
  /-- has failed -/
  | failed
  deriving DecidableEq

/-- The CPUs, and the controlling CPU's calls: those that have returned, and the others, the one in progress first. -/
structure State (Fn : Type) where
  cpu : Fin 4 → CpuState Fn
  pc : Pc
  returned : List (Call Fn)
  todo : List (Call Fn)

section Steps

variable {Fn : Type}

/-- A CPU's state is changed, and the place of the controlling CPU. -/
def State.set (s : State Fn) (c : Fin 4) (w : CpuState Fn) (pc : Pc) : State Fn :=
  { s with cpu := Function.update s.cpu c w, pc := pc }

/-- The call in progress returns. -/
def State.return (s : State Fn) (call : Call Fn) (rest : List (Call Fn)) : State Fn :=
  { s with pc := .start, returned := s.returned ++ [call], todo := rest }

/-- A step of the controlling CPU `me` in a call. -/
def State.callStep (me : Fin 4) (s : State Fn) (call : Call Fn) (rest : List (Call Fn)) : State Fn :=
  match s.pc with
  | .start =>
    match call with
    | .runOnCpus _ arg => { s with pc := if inStackMmapSpace arg then .failed else .awaitStarted 0 }
    | .runOnCpu cpu _ _ => { s with pc := if cpu = me then .callSelf else .async cpu .await }
  | .awaitStarted i =>
    if h : i < 4 then { s with pc := if (s.cpu ⟨i, h⟩).started then .awaitStarted (i + 1) else s.pc }
    else { s with pc := .post 0 }
  | .post i =>
    if h : i < 4 then { s with pc := if ⟨i, h⟩ ≠ me then .async ⟨i, h⟩ .await else .post (i + 1) }
    else { s with pc := .callSelf }
  | .async cpu .await => { s with pc := if (s.cpu cpu).started then .async cpu .clearFinished else s.pc }
  | .async cpu .clearFinished => s.set cpu { s.cpu cpu with finished := false } (.async cpu .setArg)
  | .async cpu .setArg => s.set cpu { s.cpu cpu with arg := call.work.2 } (.async cpu .setFn)
  | .async cpu .setFn =>
    s.set cpu { s.cpu cpu with toExecute := some call.work.1 }
      (match call with
        | .runOnCpus _ _ => .post (cpu + 1)
        | .runOnCpu _ _ _ => .waitFor cpu)
  | .callSelf => s.set me { s.cpu me with begun := (s.cpu me).begun ++ [call.work] } .inSelf
  | .inSelf =>
    let s := s.set me { s.cpu me with done := (s.cpu me).done ++ [call.work] } .setFinished
    match call with
    | .runOnCpus _ _ => s
    | .runOnCpu _ _ _ => s.return call rest
  | .setFinished => s.set me { s.cpu me with finished := true } (.collect 0)
  | .collect i =>
    if h : i < 4 then { s with pc := if (s.cpu ⟨i, h⟩).finished then .collect (i + 1) else s.pc }
    else s.return call rest
  | .waitFor cpu => if (s.cpu cpu).finished then s.return call rest else s
  | .failed => s

/-- A step of the CPU `c`: of the controlling CPU, if it has a call to make, or of an idle loop. -/
def State.step (me : Fin 4) (s : State Fn) (c : Fin 4) : Option (State Fn) :=
  if c = me then
    match s.todo with
    | [] => none
    | call :: rest => some (s.callStep me call rest)
  else some (s.set c (s.cpu c).idleStep s.pc)

/-- A step of some CPU. -/
def Step (me : Fin 4) (s s' : State Fn) : Prop := ∃ c, s.step me c = some s'

theorem step_call {me : Fin 4} {s : State Fn} {call : Call Fn} {rest : List (Call Fn)} (ht : s.todo = call :: rest) :
    Step me s (s.callStep me call rest) := ⟨me, by simp [State.step, ht]⟩

theorem step_idle {me : Fin 4} (s : State Fn) {c : Fin 4} (hc : c ≠ me) :
    Step me s (s.set c (s.cpu c).idleStep s.pc) := ⟨c, by simp [State.step, hc]⟩

/-- What a step is. -/
theorem Step.cases {me : Fin 4} {s s' : State Fn} (h : Step me s s') :
    (∃ call rest, s.todo = call :: rest ∧ s' = s.callStep me call rest) ∨
      ∃ c, c ≠ me ∧ s' = s.set c (s.cpu c).idleStep s.pc := by
  obtain ⟨c, h⟩ := h
  unfold State.step at h
  split at h
  · split at h
    · cases h
    · rename_i call rest ht
      exact .inl ⟨call, rest, ht, (Option.some.inj h).symm⟩
  · rename_i hc
    exact .inr ⟨c, hc, (Option.some.inj h).symm⟩

/-- All CPUs have started, nothing is posted or executed, and the calls are to be made. -/
structure Start (calls : List (Call Fn)) (s : State Fn) : Prop where
  cpu : ∀ c, (s.cpu c).started = true ∧ (s.cpu c).toExecute = none ∧ (s.cpu c).pc = .test ∧ (s.cpu c).begun = [] ∧
    (s.cpu c).done = []
  pc : s.pc = .start
  returned : s.returned = []
  todo : s.todo = calls

/-- What a CPU is to execute for some calls. -/
def expected (c : Fin 4) (calls : List (Call Fn)) : List (Fn × U64) := (calls.filter (Call.targets c)).map Call.work

end Steps

/-! ## The stages of a call -/

/-- The stages of a call for one CPU. -/
inductive Stage
  /-- nothing has been done -/
  | fresh
  /-- `finished` is cleared -/
  | cleared
  /-- `arg` is set too -/
  | ready
  /-- the function is posted -/
  | posted
  /-- the controlling CPU is in the function -/
  | executing
  /-- the controlling CPU has ended the function -/
  | executed
  /-- the CPU has finished -/
  | done

/-- The stage of the CPU whose words are being written. -/
def AsyncPc.stage : AsyncPc → Stage
  | .await => .fresh
  | .clearFinished => .fresh
  | .setArg => .cleared
  | .setFn => .ready

/-- The stage of the CPU `c` where `run_on_cpus` is at `pc`. -/
def stageAll (me : Fin 4) (pc : Pc) (c : Fin 4) : Stage :=
  match pc with
  | .post i => if c ≠ me ∧ c.val < i then .posted else .fresh
  | .async k pc => if c = me then .fresh else if c < k then .posted else if c = k then pc.stage else .fresh
  | .callSelf => if c = me then .fresh else .posted
  | .inSelf => if c = me then .executing else .posted
  | .setFinished => if c = me then .executed else .posted
  | .collect i => if c = me ∨ c.val < i then .done else .posted
  | _ => .fresh

/-- The stage of the CPU `c` where `run_on_cpu` for `cpu` is at `pc`. -/
def stageOne (cpu : Fin 4) (pc : Pc) (c : Fin 4) : Stage :=
  if c = cpu then
    match pc with
    | .async _ pc => pc.stage
    | .inSelf => .executing
    | .waitFor _ => .posted
    | _ => .fresh
  else .fresh

/-- The stage of the CPU `c` in a call. -/
def stage {Fn : Type} (me : Fin 4) (call : Call Fn) : Pc → Fin 4 → Stage :=
  match call with
  | .runOnCpus _ _ => stageAll me
  | .runOnCpu cpu _ _ => stageOne cpu

/-- The places that a call has. -/
def PcOk {Fn : Type} (me : Fin 4) (call : Call Fn) (pc : Pc) : Prop :=
  match call, pc with
  | _, .start => True
  | .runOnCpus _ _, .waitFor _ => False
  | .runOnCpus _ _, .async k _ => k ≠ me
  | .runOnCpus _ arg, .failed => inStackMmapSpace arg
  | .runOnCpus _ _, _ => True
  | .runOnCpu cpu _ _, .async k _ => k = cpu ∧ cpu ≠ me
  | .runOnCpu cpu _ _, .waitFor k => k = cpu ∧ cpu ≠ me
  | .runOnCpu cpu _ _, .callSelf => cpu = me
  | .runOnCpu cpu _ _, .inSelf => cpu = me
  | .runOnCpu _ _ _, _ => False

section Stages

variable {Fn : Type} {me : Fin 4} {E : List (Fn × U64)} {x : Fn × U64} {w : CpuState Fn}

/-- Nothing is posted and nothing is being executed by the idle loop. -/
structure CpuState.Idle (begun done : List (Fn × U64)) (w : CpuState Fn) : Prop where
  pc : w.pc = .test
  toExecute : w.toExecute = none
  begun : w.begun = begun
  done : w.done = done

/-- A posted function `x` is being handled, after those of `E`. -/
def CpuState.Handles (E : List (Fn × U64)) (x : Fn × U64) (w : CpuState Fn) : Prop :=
  w.finished = false ∧
  match w.pc with
  | .test | .load => w.toExecute = some x.1 ∧ w.arg = x.2 ∧ w.begun = E ∧ w.done = E
  | .clear fn => fn = x.1 ∧ w.arg = x.2 ∧ w.begun = E ∧ w.done = E
  | .loadArg fn => w.toExecute = none ∧ fn = x.1 ∧ w.arg = x.2 ∧ w.begun = E ∧ w.done = E
  | .call fn arg => w.toExecute = none ∧ (fn, arg) = x ∧ w.begun = E ∧ w.done = E
  | .running fn arg => w.toExecute = none ∧ (fn, arg) = x ∧ w.begun = E ++ [x] ∧ w.done = E
  | .finish => w.toExecute = none ∧ w.begun = E ++ [x] ∧ w.done = E ++ [x]
  | .crashed => False

/-- The CPU has finished the function `x`. -/
def CpuState.Finished (E : List (Fn × U64)) (x : Fn × U64) (w : CpuState Fn) : Prop :=
  w.Idle (E ++ [x]) (E ++ [x]) ∧ w.finished = true

/-- What holds of a CPU at a stage of a call with the work `x`, after the work `E`. -/
def CpuState.At (E : List (Fn × U64)) (x : Fn × U64) (w : CpuState Fn) : Stage → Prop
  | .fresh => w.Idle E E
  | .cleared => w.Idle E E ∧ w.finished = false
  | .ready => w.Idle E E ∧ w.finished = false ∧ w.arg = x.2
  | .posted => w.Handles E x ∨ w.Finished E x
  | .executing => w.Idle (E ++ [x]) E
  | .executed => w.Idle (E ++ [x]) (E ++ [x])
  | .done => w.Finished E x

theorem CpuState.Idle.idleStep {b d : List (Fn × U64)} (h : w.Idle b d) : w.idleStep = w := by
  simp only [CpuState.idleStep, h.pc, h.toExecute, Option.isSome_none, Bool.false_eq_true, if_false]

/-- The steps of the idle loop for a posted function. -/
theorem CpuState.Handles.idleStep (h : w.Handles E x) : w.idleStep.Handles E x ∨ w.idleStep.Finished E x := by
  obtain ⟨toExecute, arg, started, finished, pc, begun, done⟩ := w
  obtain ⟨hf, h⟩ := h
  cases pc with
  | test =>
    obtain ⟨rfl, h⟩ := h
    exact .inl ⟨hf, rfl, h⟩
  | load =>
    obtain ⟨rfl, h⟩ := h
    exact .inl ⟨hf, rfl, h⟩
  | clear fn => exact .inl ⟨hf, rfl, h⟩
  | loadArg fn =>
    obtain ⟨hnone, rfl, rfl, h⟩ := h
    exact .inl ⟨hf, hnone, rfl, h⟩
  | call fn arg =>
    obtain ⟨hnone, rfl, rfl, hd⟩ := h
    exact .inl ⟨hf, hnone, rfl, rfl, hd⟩
  | running fn arg =>
    obtain ⟨hnone, rfl, hb, rfl⟩ := h
    exact .inl ⟨hf, hnone, hb, rfl⟩
  | finish =>
    obtain ⟨hnone, hb, hd⟩ := h
    exact .inr ⟨⟨rfl, hnone, hb, hd⟩, rfl⟩
  | crashed => exact h.elim

/-- **A step of the idle loop keeps the stage.** -/
theorem CpuState.At.idleStep {st : Stage} (h : w.At E x st) : w.idleStep.At E x st := by
  cases st with
  | posted =>
    rcases h with h | h
    · exact h.idleStep
    · exact .inr (by rwa [h.1.idleStep])
  | fresh | executing | executed => rwa [CpuState.Idle.idleStep h]
  | cleared | ready | done => rwa [CpuState.Idle.idleStep h.1]

/-- Who has finished is done. -/
theorem CpuState.At.of_finished (h : w.At E x .posted) (hf : w.finished = true) : w.At E x .done :=
  h.resolve_left fun h => by simp [h.1] at hf

theorem CpuState.idleStep_started (w : CpuState Fn) : w.idleStep.started = w.started := by
  unfold CpuState.idleStep
  repeat' split
  all_goals rfl

end Stages

/-! ## The invariant -/

section Invariant

variable {Fn : Type} {me : Fin 4} {calls rest : List (Call Fn)} {call : Call Fn} {s s' : State Fn}

/-- The invariant: what is known of the calls and of every CPU, from the place of the controlling CPU. -/
structure Inv (me : Fin 4) (calls : List (Call Fn)) (s : State Fn) : Prop where
  split : s.returned ++ s.todo = calls
  started : ∀ c, (s.cpu c).started = true
  quiet : s.todo = [] → s.pc = .start ∧ ∀ c, (s.cpu c).Idle (expected c s.returned) (expected c s.returned)
  call : ∀ call rest, s.todo = call :: rest → PcOk me call s.pc ∧
    ∀ c, (s.cpu c).At (expected c s.returned) call.work (stage me call s.pc c)

theorem stage_start (me : Fin 4) (call : Call Fn) (c : Fin 4) : stage me call .start c = .fresh := by
  cases call <;> simp [stage, stageAll, stageOne]

theorem pcOk_start (me : Fin 4) (call : Call Fn) : PcOk me call .start := by
  cases call <;> exact trivial

theorem expected_append (c : Fin 4) (calls : List (Call Fn)) (call : Call Fn) : expected c (calls ++ [call]) =
    expected c calls ++ if call.targets c then [call.work] else [] := by
  cases h : call.targets c <;> simp [expected, h]

/-- Between two calls. -/
theorem Inv.of_idle (hsplit : s.returned ++ s.todo = calls) (hstarted : ∀ c, (s.cpu c).started = true)
    (hpc : s.pc = .start) (hidle : ∀ c, (s.cpu c).Idle (expected c s.returned) (expected c s.returned)) :
    Inv me calls s where
  split := hsplit
  started := hstarted
  quiet _ := ⟨hpc, hidle⟩
  call call _ _ := by
    rw [hpc]
    exact ⟨pcOk_start me call, fun c => by rw [stage_start]; exact hidle c⟩

theorem inv_start (h : Start calls s) : Inv me calls s := by
  refine .of_idle (by rw [h.returned, h.todo, List.nil_append]) (fun c => (h.cpu c).1) h.pc fun c => ?_
  obtain ⟨-, hexec, hpc, hb, hd⟩ := h.cpu c
  rw [h.returned]
  exact ⟨hpc, hexec, hb, hd⟩

/-- A step of an idle loop. -/
theorem Inv.idle (h : Inv me calls s) (c : Fin 4) : Inv me calls (s.set c (s.cpu c).idleStep s.pc) := by
  refine ⟨h.split, fun d => ?_, fun ht => ⟨(h.quiet ht).1, fun d => ?_⟩, fun call rest ht => ⟨(h.call _ _ ht).1, fun d => ?_⟩⟩
  all_goals
    simp only [State.set]
    by_cases hd : d = c
  · rw [hd, Function.update_self, CpuState.idleStep_started]
    exact h.started c
  · rw [Function.update_of_ne hd]
    exact h.started d
  · rw [hd, Function.update_self, ((h.quiet ht).2 c).idleStep]
    exact (h.quiet ht).2 c
  · rw [Function.update_of_ne hd]
    exact (h.quiet ht).2 d
  · rw [hd, Function.update_self]
    exact ((h.call _ _ ht).2 c).idleStep
  · rw [Function.update_of_ne hd]
    exact (h.call _ _ ht).2 d

/-- A step in a call that changes no memory. -/
theorem Inv.move (h : Inv me calls s) (ht : s.todo = call :: rest) {pc : Pc} (hpc : PcOk me call pc)
    (hat : ∀ c, (s.cpu c).At (expected c s.returned) call.work (stage me call s.pc c) →
      (s.cpu c).At (expected c s.returned) call.work (stage me call pc c)) : Inv me calls { s with pc := pc } where
  split := h.split
  started := h.started
  quiet hnil := by simp [ht] at hnil
  call call' rest' ht' := by
    obtain ⟨rfl, rfl⟩ := List.cons.inj (ht.symm.trans ht')
    exact ⟨hpc, fun c => hat c ((h.call _ _ ht).2 c)⟩

/-- A step in a call that changes the state of one CPU. -/
theorem Inv.set (h : Inv me calls s) (ht : s.todo = call :: rest) {k : Fin 4} {w : CpuState Fn} {pc : Pc}
    (hpc : PcOk me call pc) (hstarted : w.started = true)
    (hk : w.At (expected k s.returned) call.work (stage me call pc k))
    (hne : ∀ c, c ≠ k → stage me call pc c = stage me call s.pc c) : Inv me calls (s.set k w pc) where
  split := h.split
  started c := by
    by_cases hc : c = k
    · simpa only [State.set, hc, Function.update_self] using hstarted
    · simpa only [State.set, Function.update_of_ne hc] using h.started c
  quiet hnil := by simp [State.set, ht] at hnil
  call call' rest' ht' := by
    obtain ⟨rfl, rfl⟩ := List.cons.inj (ht.symm.trans ht')
    refine ⟨hpc, fun c => ?_⟩
    by_cases hc : c = k
    · simpa only [State.set, hc, Function.update_self] using hk
    · simpa only [State.set, Function.update_of_ne hc, hne c hc] using (h.call _ _ ht).2 c

/-- The call returns. -/
theorem Inv.return (h : Inv me calls s) (ht : s.todo = call :: rest)
    (hdone : ∀ c, (s.cpu c).Idle (expected c (s.returned ++ [call])) (expected c (s.returned ++ [call]))) :
    Inv me calls (s.return call rest) :=
  .of_idle (by simp [State.return, ← h.split, ht]) h.started rfl hdone

/-- The CPUs that a call has changed are its targets. -/
theorem targets_of_stage {pc : Pc} {c : Fin 4} (hst : stage me call pc c ≠ .fresh) :
    call.targets c = true := by
  cases call with
  | runOnCpus fn arg => rfl
  | runOnCpu cpu fn arg =>
    by_contra hne
    have hc : c ≠ cpu := by
      rintro rfl
      simp [Call.targets] at hne
    exact hst (by simp [stage, stageOne, hc])

theorem ne_of_pcOk_async {k : Fin 4} {pc : AsyncPc} (h : PcOk me call (.async k pc)) : k ≠ me := by
  cases call with
  | runOnCpus fn arg => exact h
  | runOnCpu cpu fn arg =>
    obtain ⟨rfl, hme⟩ := h
    exact hme

theorem stage_async {k : Fin 4} {pc : AsyncPc} (h : PcOk me call (.async k pc)) :
    stage me call (.async k pc) k = pc.stage := by
  cases call with
  | runOnCpus fn arg =>
    have hk : k ≠ me := h
    simp [stage, stageAll, hk]
  | runOnCpu cpu fn arg =>
    obtain ⟨rfl, -⟩ := h
    simp [stage, stageOne]

theorem stage_async_ne {k c : Fin 4} {pc : AsyncPc} (h : PcOk me call (.async k pc)) (pc' : AsyncPc) (hc : c ≠ k) :
    stage me call (.async k pc') c = stage me call (.async k pc) c := by
  cases call with
  | runOnCpus fn arg => simp [stage, stageAll, hc]
  | runOnCpu cpu fn arg =>
    obtain ⟨rfl, -⟩ := h
    simp [stage, stageOne, hc]

/-- **A step of the controlling CPU keeps the invariant.** -/
theorem Inv.callStep (h : Inv me calls s) (ht : s.todo = call :: rest) : Inv me calls (s.callStep me call rest) := by
  obtain ⟨hok, hat⟩ := h.call _ _ ht
  unfold State.callStep
  cases hpc : s.pc with
  | start =>
    cases call with
    | runOnCpus fn arg =>
      dsimp only
      split
      · rename_i hfail
        exact h.move ht hfail fun c hc => by simpa [hpc, stage, stageAll] using hc
      · exact h.move ht trivial fun c hc => by simpa [hpc, stage, stageAll] using hc
    | runOnCpu cpu fn arg =>
      dsimp only
      split
      · rename_i hme
        exact h.move ht hme fun c hc => by simpa [hpc, stage, stageOne] using hc
      · rename_i hme
        exact h.move ht ⟨rfl, hme⟩ fun c hc => by simpa [hpc, stage, stageOne, AsyncPc.stage] using hc
  | awaitStarted i =>
    cases call with
    | runOnCpus fn arg =>
      dsimp only
      split
      · rw [if_pos (h.started _)]
        exact h.move ht trivial fun c hc => by simpa [hpc, stage, stageAll] using hc
      · exact h.move ht trivial fun c hc => by simpa [hpc, stage, stageAll] using hc
    | runOnCpu cpu fn arg => simp [PcOk, hpc] at hok
  | post i =>
    cases call with
    | runOnCpus fn arg =>
      dsimp only
      split
      · rename_i hi
        split
        · rename_i hme
          refine h.move ht hme fun c hc => ?_
          by_cases hcm : c = me <;> by_cases hci : c.val < i <;>
            simpa [hpc, stage, stageAll, Fin.lt_def, hcm, hci, AsyncPc.stage] using hc
        · rename_i hme
          refine h.move ht trivial fun c hc => ?_
          have hiff : c ≠ me ∧ c.val < i + 1 ↔ c ≠ me ∧ c.val < i := by
            have : me.val = i := by rw [← not_not.mp hme]
            omega
          simpa only [hpc, stage, stageAll, hiff] using hc
      · refine h.move ht trivial fun c hc => ?_
        have hci : c.val < i := by omega
        by_cases hcm : c = me <;> simpa [hpc, stage, stageAll, hcm, hci] using hc
    | runOnCpu cpu fn arg => simp [PcOk, hpc] at hok
  | async k apc =>
    rw [hpc] at hok
    have hk := ne_of_pcOk_async hok
    have hatk := hat k
    rw [hpc, stage_async hok] at hatk
    have hok' (pc' : AsyncPc) : PcOk me call (.async k pc') := by
      cases call <;> exact hok
    have hst (pc' : AsyncPc) (c : Fin 4) (hc : c ≠ k) : stage me call (.async k pc') c = stage me call s.pc c := by
      rw [hpc, stage_async_ne hok pc' hc]
    cases apc with
    | await =>
      dsimp only
      rw [if_pos (h.started k)]
      refine h.move ht (hok' _) fun c hc => ?_
      by_cases hck : c = k
      · rw [hck, stage_async (hok' _)]
        exact hatk
      · rwa [hst _ c hck]
    | clearFinished =>
      refine h.set ht (hok' _) (h.started k) ?_ (hst _)
      rw [stage_async (hok' _)]
      exact ⟨⟨hatk.pc, hatk.toExecute, hatk.begun, hatk.done⟩, rfl⟩
    | setArg =>
      refine h.set ht (hok' _) (h.started k) ?_ (hst _)
      rw [stage_async (hok' _)]
      exact ⟨⟨hatk.1.pc, hatk.1.toExecute, hatk.1.begun, hatk.1.done⟩, hatk.2, rfl⟩
    | setFn =>
      have hposted : ({ s.cpu k with toExecute := some call.work.1 } : CpuState Fn).At (expected k s.returned) call.work
          .posted := by
        refine .inl ⟨hatk.2.1, ?_⟩
        simp only [hatk.1.pc]
        exact ⟨trivial, hatk.2.2, hatk.1.begun, hatk.1.done⟩
      cases call with
      | runOnCpus fn arg =>
        refine h.set ht trivial (h.started k) ?_ fun c hc => ?_
        · simpa [stage, stageAll, hk] using hposted
        · have hiff : c.val < k.val + 1 ↔ c < k := by
            have := Fin.val_ne_of_ne hc
            rw [Fin.lt_def]
            omega
          by_cases hcm : c = me <;> simp [hpc, stage, stageAll, hcm, hc, hiff]
      | runOnCpu cpu fn arg =>
        obtain ⟨rfl, hme⟩ := hok
        refine h.set ht ⟨rfl, hme⟩ (h.started k) ?_ fun c hc => ?_
        · simpa [stage, stageOne] using hposted
        · simp [stage, stageOne, hc]
  | callSelf =>
    have hme : stage me call .callSelf me = .fresh := by
      cases call <;> simp [stage, stageAll, stageOne]
    have hatme := hat me
    rw [hpc, hme] at hatme
    have hbegun : ({ s.cpu me with begun := (s.cpu me).begun ++ [call.work] } : CpuState Fn).At (expected me s.returned)
        call.work .executing := ⟨hatme.pc, hatme.toExecute, by rw [hatme.begun], hatme.done⟩
    cases call with
    | runOnCpus fn arg =>
      refine h.set ht trivial (h.started me) (by simpa [stage, stageAll] using hbegun) fun c hc => ?_
      simp [hpc, stage, stageAll, hc]
    | runOnCpu cpu fn arg =>
      obtain rfl : cpu = me := by simpa only [PcOk, hpc] using hok
      refine h.set ht rfl (h.started cpu) (by simpa [stage, stageOne] using hbegun) fun c hc => ?_
      simp [stage, stageOne, hc]
  | inSelf =>
    cases call with
    | runOnCpus fn arg =>
      have hatme := hat me
      simp only [hpc, stage, stageAll, if_true] at hatme
      refine h.set ht trivial (h.started me) ?_ fun c hc => ?_
      · simp only [stage, stageAll, if_true]
        exact ⟨hatme.pc, hatme.toExecute, hatme.begun, by rw [hatme.done]⟩
      · simp [hpc, stage, stageAll, hc]
    | runOnCpu cpu fn arg =>
      obtain rfl : cpu = me := by simpa only [PcOk, hpc] using hok
      refine .of_idle (by simp [State.return, State.set, ← h.split, ht]) (fun c => ?_) rfl fun c => ?_
      all_goals
        simp only [State.return, State.set]
        by_cases hc : c = cpu
      · rw [hc, Function.update_self]
        exact h.started cpu
      · rw [Function.update_of_ne hc]
        exact h.started c
      · have hatc := hat cpu
        simp only [hpc, stage, stageOne, if_true] at hatc
        rw [hc, Function.update_self, expected_append]
        simp only [Call.targets, decide_true, if_true]
        exact ⟨hatc.pc, hatc.toExecute, hatc.begun, by rw [hatc.done]⟩
      · have hatc := hat c
        simp only [hpc, stage, stageOne, hc, if_false] at hatc
        rw [Function.update_of_ne hc, expected_append]
        simp only [Call.targets, Ne.symm hc, decide_false, Bool.false_eq_true, if_false, List.append_nil]
        exact hatc
  | setFinished =>
    cases call with
    | runOnCpus fn arg =>
      have hatme := hat me
      simp only [hpc, stage, stageAll, if_true] at hatme
      refine h.set ht trivial (h.started me) ?_ fun c hc => ?_
      · simp only [stage, stageAll, true_or, if_true]
        exact ⟨⟨hatme.pc, hatme.toExecute, hatme.begun, hatme.done⟩, rfl⟩
      · simp [hpc, stage, stageAll, hc]
    | runOnCpu cpu fn arg => simp [PcOk, hpc] at hok
  | collect i =>
    cases call with
    | runOnCpus fn arg =>
      dsimp only
      split
      · rename_i hi
        split
        · rename_i hf
          refine h.move ht trivial fun c hc => ?_
          by_cases hcm : c = me
          · simpa only [hpc, stage, stageAll, hcm, true_or, if_true] using hc
          by_cases hci : c.val = i
          · obtain rfl : c = ⟨i, hi⟩ := Fin.ext hci
            simp only [hpc, stage, stageAll, hcm, false_or, Nat.lt_irrefl, if_false] at hc
            simpa only [stage, stageAll, Nat.lt_succ_self, or_true, if_true] using hc.of_finished hf
          · have hiff : c.val < i + 1 ↔ c.val < i := by omega
            simpa only [hpc, stage, stageAll, hiff] using hc
        · exact h.move ht (hpc ▸ hok) fun c hc => by simpa only [hpc] using hc
      · refine h.return ht fun c => ?_
        have hatc := hat c
        have hci : c.val < i := by omega
        simp only [hpc, stage, stageAll, hci, or_true, if_true] at hatc
        rw [expected_append]
        exact hatc.1
    | runOnCpu cpu fn arg => simp [PcOk, hpc] at hok
  | waitFor k =>
    cases call with
    | runOnCpus fn arg => simp [PcOk, hpc] at hok
    | runOnCpu cpu fn arg =>
      obtain ⟨rfl, hme⟩ : k = cpu ∧ cpu ≠ me := by simpa only [PcOk, hpc] using hok
      dsimp only
      split
      · rename_i hf
        refine h.return ht fun c => ?_
        have hatc := hat c
        rw [expected_append]
        by_cases hc : c = k
        · subst hc
          simp only [hpc, stage, stageOne, if_true] at hatc
          simpa [Call.targets] using (hatc.of_finished hf).1
        · simp only [hpc, stage, stageOne, hc, if_false] at hatc
          simp only [Call.targets, Ne.symm hc, decide_false, Bool.false_eq_true, if_false, List.append_nil]
          exact hatc
      · exact h
  | failed => exact h

theorem inv_step (h : Inv me calls s) (hs : Step me s s') : Inv me calls s' := by
  obtain ⟨call, rest, ht, rfl⟩ | ⟨c, -, rfl⟩ := hs.cases
  · exact h.callStep ht
  · exact h.idle c

end Invariant

end LitmusHarness.CpuBoot
