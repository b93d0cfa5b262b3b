import LitmusHarness.Lib.Reach
import Mathlib.Logic.Function.Basic

/-!
# Atomic updates by load and store exclusive

CPUs that update one word by a loop of a load exclusive and a store exclusive, which sleeps until an event (`wfe`) when
the update does not apply or the store fails, and signals one (`sev`) after its store. A step is one instruction.

* The loop is atomic: its store is a step of `Abs`, in which an update is one action, and the other instructions do
  nothing (`State.step_abs_of_stores`, `State.step_abs_eq`, `Reachable.abs`). Here a CPU may lose its reservation and
  wake up at any time.
* No wake-up is lost: a CPU that sleeps has an update that does not apply to the word as it is, or its event is set, or
  some CPU is about to signal (`Live`). So what `Abs` can do from a reachable state can be done
  (`ReachableKept.exists_run_abs`). For this the reservations must only be lost to the stores of other CPUs.
-/

namespace Exclusives

open Function

/-- The next instruction of a CPU, with the values it has read. -/
inductive Pc (V : Type)
  /-- `sevl` -/
  | start
  | wfe
  | ldxr
  /-- what is computed from the value that was read -/
  | test (x : V)
  | clrex
  | stxr (x v : V)
  | sev
  deriving DecidableEq, Repr

/-- What the CPUs do: the update at a location of the program, if it applies to a value, and the location behind it. -/
structure Prog (V L : Type) where
  update : L → V → Option V
  next : L → L

/-- The word, and for each CPU the location, the exclusive monitor, the event register and the next instruction. -/
structure State (ι V L : Type) where
  val : V
  loc : ι → L
  monitor : ι → Bool := fun _ => false
  event : ι → Bool := fun _ => false
  pc : ι → Pc V := fun _ => .start

/-- The word and the locations, with updates as single actions. -/
@[ext] structure Abs (ι V L : Type) where
  val : V
  loc : ι → L

section System

variable {ι V L : Type} [DecidableEq ι] (P : Prog V L)

/-- One update of CPU `i` as an action. -/
def Abs.step (a : Abs ι V L) (i : ι) : Option (Abs ι V L) :=
  match P.update (a.loc i) a.val with
  | none => none
  | some v => some { val := v, loc := update a.loc i (P.next (a.loc i)) }

/-- The instruction behind the test. -/
def Prog.branch (l : L) (x : V) : Pc V :=
  match P.update l x with
  | none => .clrex
  | some v => .stxr x v

/-- One instruction of CPU `i`, if it does not sleep. -/
def State.step (s : State ι V L) (i : ι) : Option (State ι V L) :=
  match s.pc i with
  | .start => some { s with event := update s.event i true, pc := update s.pc i .wfe }
  | .wfe =>
    if s.event i then some { s with event := update s.event i false, pc := update s.pc i .ldxr } else none
  | .ldxr => some { s with monitor := update s.monitor i true, pc := update s.pc i (.test s.val) }
  | .test x => some { s with pc := update s.pc i (P.branch (s.loc i) x) }
  | .clrex => some { s with monitor := update s.monitor i false, pc := update s.pc i .wfe }
  | .stxr _ v =>
    -- a store that succeeds takes the reservations of all CPUs
    if s.monitor i then some { s with val := v, monitor := fun _ => false, pc := update s.pc i .sev }
    else some { s with pc := update s.pc i .wfe }
  | .sev =>
    some { s with
      event := fun _ => true
      loc := update s.loc i (P.next (s.loc i))
      pc := update s.pc i .start }

/-- What can happen. -/
inductive Act (ι : Type)
  | step (i : ι)
  /-- CPU `i` loses its reservation -/
  | lose (i : ι)
  /-- an event from elsewhere for CPU `i` -/
  | wake (i : ι)

def State.act (s : State ι V L) : Act ι → Option (State ι V L)
  | .step i => s.step P i
  | .lose i => some { s with monitor := update s.monitor i false }
  | .wake i => some { s with event := update s.event i true }

/-- All CPUs are about to start, with any monitors and event registers. -/
def Starts (a : Abs ι V L) (s : State ι V L) : Prop := s.val = a.val ∧ s.loc = a.loc ∧ ∀ i, s.pc i = .start

/-- Reached by any interleaving. -/
def Reachable (a : Abs ι V L) : State ι V L → Prop :=
  Reach.Reachable (Starts a) fun s s' => ∃ x, s.act P x = some s'

/-- Reached by an interleaving in which reservations are only lost to stores. -/
def ReachableKept (a : Abs ι V L) : State ι V L → Prop :=
  Reach.Reachable (Starts a) fun s s' => ∃ x, (∀ i, x ≠ .lose i) ∧ s.act P x = some s'

/-- Steps of the CPUs. -/
def Run : State ι V L → State ι V L → Prop :=
  Relation.ReflTransGen fun s s' => ∃ i, s.step P i = some s'

/-- The CPU has stored, but not yet signalled. -/
def Pc.stored : Pc V → Bool
  | .sev => true
  | _ => false

/-- The locations, where a CPU that has stored is behind its update. -/
def State.abs (s : State ι V L) : Abs ι V L where
  val := s.val
  loc i := if (s.pc i).stored then P.next (s.loc i) else s.loc i

end System

/-! ## Updates are atomic -/

section Atomic

variable {ι V L : Type} [DecidableEq ι] {P : Prog V L} {s s' : State ι V L} {i j : ι}

/-- What CPU `i` has read is still there while it has its reservation. -/
def Fresh (P : Prog V L) (s : State ι V L) (i : ι) : Prop :=
  match s.pc i with
  | .test x => s.monitor i = true → x = s.val
  | .stxr x v => P.update (s.loc i) x = some v ∧ (s.monitor i = true → x = s.val)
  | _ => True

theorem Prog.branch_stored (P : Prog V L) (l : L) (x : V) : (P.branch l x).stored = false := by
  unfold branch
  split <;> rfl

/-- CPU `i` is about to store, and will succeed. -/
def State.stores (s : State ι V L) (i : ι) : Bool :=
  match s.pc i with
  | .stxr _ _ => s.monitor i
  | _ => false

/-- What a step of CPU `i` is to the word: it does nothing, it stores and takes all reservations, or it signals. -/
theorem State.step_cases (h : s.step P i = some s') :
    (s'.val = s.val ∧ s'.loc = s.loc ∧ (s.pc i).stored = false ∧ (s'.pc i).stored = false ∧
      ∀ k, k ≠ i → s'.monitor k = s.monitor k ∧ s'.event k = s.event k) ∨
    (∃ x v, s.pc i = .stxr x v ∧ s.monitor i = true ∧ s'.pc i = .sev ∧ s'.val = v ∧ s'.loc = s.loc ∧
      s'.event = s.event ∧ ∀ k, s'.monitor k = false) ∨
    (s.pc i = .sev ∧ s'.pc i = .start ∧ s'.val = s.val ∧ s'.loc = update s.loc i (P.next (s.loc i)) ∧
      s'.monitor = s.monitor ∧ ∀ k, s'.event k = true) := by
  unfold step at h
  cases hp : s.pc i with
  | start =>
    simp only [hp, Option.some.injEq] at h
    subst h
    exact .inl ⟨rfl, rfl, rfl, by simp [Pc.stored], fun k hk => by simp [hk]⟩
  | wfe =>
    simp only [hp, Option.ite_none_right_eq_some, Option.some.injEq] at h
    obtain ⟨-, rfl⟩ := h
    exact .inl ⟨rfl, rfl, rfl, by simp [Pc.stored], fun k hk => by simp [hk]⟩
  | ldxr =>
    simp only [hp, Option.some.injEq] at h
    subst h
    exact .inl ⟨rfl, rfl, rfl, by simp [Pc.stored], fun k hk => by simp [hk]⟩
  | test x =>
    simp only [hp, Option.some.injEq] at h
    subst h
    exact .inl ⟨rfl, rfl, rfl, by simp [Prog.branch_stored], fun k hk => ⟨rfl, rfl⟩⟩
  | clrex =>
    simp only [hp, Option.some.injEq] at h
    subst h
    exact .inl ⟨rfl, rfl, rfl, by simp [Pc.stored], fun k hk => by simp [hk]⟩
  | stxr x v =>
    simp only [hp] at h
    split at h
    · obtain rfl := Option.some.inj h
      exact .inr (.inl ⟨x, v, rfl, ‹_›, by simp, rfl, rfl, rfl, fun _ => rfl⟩)
    · obtain rfl := Option.some.inj h
      exact .inl ⟨rfl, rfl, rfl, by simp [Pc.stored], fun k hk => ⟨rfl, rfl⟩⟩
  | sev =>
    simp only [hp, Option.some.injEq] at h
    subst h
    exact .inr (.inr ⟨rfl, by simp, rfl, rfl, rfl, fun _ => rfl⟩)

theorem State.step_pc_other (h : s.step P i = some s') (hj : j ≠ i) : s'.pc j = s.pc j := by
  unfold step at h
  cases hp : s.pc i <;> simp only [hp] at h <;> (try split at h) <;> cases h <;> exact update_of_ne hj ..

/-- A step of CPU `i` keeps what `Fresh` says of another CPU. -/
theorem Fresh.step_other (hf : Fresh P s j) (h : s.step P i = some s') (hj : j ≠ i) : Fresh P s' j := by
  have hpc := State.step_pc_other h hj
  unfold Fresh at hf ⊢
  rw [hpc]
  rcases State.step_cases h with ⟨hv, hl, -, -, hk⟩ | ⟨x, v, -, -, -, -, hl, -, hm⟩ | ⟨-, -, hv, hl, hm, -⟩
  · rwa [hv, hl, (hk j hj).1]
  · cases hp : s.pc j with
    | test y => simp [hm j]
    | stxr y w =>
      simp only [hp] at hf
      simp [hm j, hl, hf.1]
    | _ => trivial
  · rwa [hv, hl, hm, update_of_ne hj]

/-- A step of CPU `i` establishes `Fresh` for the CPU. -/
theorem Fresh.step_self (hf : Fresh P s i) (h : s.step P i = some s') : Fresh P s' i := by
  unfold State.step at h
  unfold Fresh at hf
  cases hp : s.pc i with
  | ldxr =>
    simp only [hp, Option.some.injEq] at h
    subst h
    simp [Fresh]
  | test x =>
    simp only [hp, Option.some.injEq] at h
    simp only [hp] at hf
    subst h
    cases hu : P.update (s.loc i) x with
    | none => simp [Fresh, Prog.branch, hu]
    | some v => simpa [Fresh, Prog.branch, hu] using hf
  | start | clrex | sev =>
    simp only [hp, Option.some.injEq] at h
    subst h
    simp [Fresh]
  | wfe =>
    simp only [hp, Option.ite_none_right_eq_some, Option.some.injEq] at h
    obtain ⟨-, rfl⟩ := h
    simp [Fresh]
  | stxr x v =>
    simp only [hp] at h
    split at h <;> cases h <;> simp [Fresh]

/-- **An update is one action.** The store of CPU `i` is the update of the CPU. -/
theorem State.step_abs_of_stores (hf : Fresh P s i) (h : s.step P i = some s') (hst : s.stores i = true) :
    (s.abs P).step P i = some (s'.abs P) := by
  rcases State.step_cases h with ⟨-, -, h₁, h₂, -⟩ | ⟨x, v, hp, hm, hp', hv, hl, -⟩ | ⟨hp, -⟩
  · exfalso
    unfold step at h
    cases hp : s.pc i <;> simp only [stores, hp, Bool.false_eq_true] at hst
    simp only [hp, hst, if_true, Option.some.injEq] at h
    subst h
    simp [Pc.stored] at h₂
  · simp only [Fresh, hp] at hf
    obtain ⟨hu, hx⟩ := hf
    have hloc : (s.abs P).loc i = s.loc i := by simp [abs, hp, Pc.stored]
    have hval : (s.abs P).val = x := (hx hm).symm
    simp only [Abs.step, hloc, hval, hu, Option.some.injEq]
    refine Abs.ext hv.symm (funext fun k => ?_)
    by_cases hk : k = i
    · subst hk
      simp [abs, hp', hl, Pc.stored]
    · simp [abs, State.step_pc_other h hk, hl, hk]
  · simp [stores, hp] at hst

/-- The other instructions do nothing to the word. -/
theorem State.step_abs_eq (h : s.step P i = some s') (hst : s.stores i = false) : s'.abs P = s.abs P := by
  rcases State.step_cases h with ⟨hv, hl, h₁, h₂, -⟩ | ⟨x, v, hp, hm, -⟩ | ⟨hp, hp', hv, hl, -⟩
  · refine Abs.ext hv (funext fun k => ?_)
    by_cases hk : k = i
    · subst hk
      simp [abs, h₁, h₂, hl]
    · simp [abs, State.step_pc_other h hk, hl]
  · simp [stores, hp, hm] at hst
  · refine Abs.ext hv (funext fun k => ?_)
    by_cases hk : k = i
    · subst hk
      simp [abs, hp, hp', hl, Pc.stored]
    · simp [abs, State.step_pc_other h hk, hl, hk]

/-- Losing a reservation and waking up keep `Fresh` and do nothing to the word. -/
theorem State.act_other {x : Act ι} (hx : ∀ i, x ≠ .step i) (h : s.act P x = some s') :
    s'.abs P = s.abs P ∧ ∀ k, Fresh P s k → Fresh P s' k := by
  cases x with
  | step i => exact absurd rfl (hx i)
  | lose i =>
    obtain rfl := Option.some.inj h
    refine ⟨rfl, fun k hf => ?_⟩
    have hm : update s.monitor i false k = true → s.monitor k = true := by
      by_cases hk : k = i <;> simp [hk]
    unfold Fresh at hf ⊢
    cases hp : s.pc k with
    | test y =>
      simp only [hp] at hf ⊢
      exact fun h => hf (hm h)
    | stxr y w =>
      simp only [hp] at hf ⊢
      exact ⟨hf.1, fun h => hf.2 (hm h)⟩
    | _ => trivial
  | wake i =>
    obtain rfl := Option.some.inj h
    exact ⟨rfl, fun k hf => hf⟩

/-- The atomic system has made the same updates, and what the CPUs have read with a reservation is still there. -/
theorem Reachable.abs {a : Abs ι V L} (h : Reachable P a s) :
    Reach.Reachable (· = a) (fun b b' => ∃ i, b.step P i = some b') (s.abs P) ∧ ∀ i, Fresh P s i := by
  refine Reach.Reachable.inv (I := fun s => Reach.Reachable (· = a) (fun b b' => ∃ i, b.step P i = some b') (s.abs P) ∧
    ∀ i, Fresh P s i) ?_ ?_ h
  · rintro s ⟨hv, hl, hp⟩
    refine ⟨.init (Abs.ext hv (funext fun i => ?_)), fun i => ?_⟩
    · simp [State.abs, hp, Pc.stored, hl]
    · simp [Fresh, hp]
  · rintro s s' ⟨hr, hf⟩ ⟨x, hx⟩
    cases x with
    | step i =>
      refine ⟨?_, fun k => ?_⟩
      · cases hst : s.stores i with
        | true => exact hr.step ⟨i, State.step_abs_of_stores (hf i) hx hst⟩
        | false => rwa [State.step_abs_eq hx hst]
      · by_cases hk : k = i
        · subst hk
          exact (hf k).step_self hx
        · exact (hf k).step_other hx hk
    | lose i | wake i =>
      obtain ⟨he, hk⟩ := State.act_other (by simp) hx
      rw [he]
      exact ⟨hr, fun k => hk k (hf k)⟩

end Atomic

/-! ## No wake-up is lost -/

section Live

variable {ι V L : Type} [DecidableEq ι] {P : Prog V L} {s s' : State ι V L} {i j : ι}

/-- CPU `i` does not sleep for long: its event is set or about to be. -/
def Woken (s : State ι V L) (i : ι) : Prop := s.event i = true ∨ ∃ j, s.pc j = .sev

/-- CPU `i` sleeps only for an update that does not apply, and has lost its reservation only to a store. -/
def Live (P : Prog V L) (s : State ι V L) (i : ι) : Prop :=
  match s.pc i with
  | .wfe | .clrex => Woken s i ∨ P.update (s.loc i) s.val = none
  | .test _ | .stxr _ _ => s.monitor i = true ∨ Woken s i
  | _ => True

/-- A CPU stays awake until it sleeps. -/
theorem Woken.step (hw : Woken s j) (h : s.step P i = some s') (hj : j = i → s.pc i ≠ .wfe) : Woken s' j := by
  rcases State.step_cases h with ⟨-, -, h₁, -, hk⟩ | ⟨x, v, hp, -, hp', -, -, he, -⟩ | ⟨-, -, -, -, -, he⟩
  · rcases hw with he | ⟨k, hs⟩
    · refine .inl ?_
      by_cases hji : j = i
      · subst hji
        have hne := hj rfl
        unfold State.step at h
        cases hp : s.pc j with
        | wfe => exact absurd hp hne
        | stxr x v =>
          simp only [hp] at h
          split at h <;> cases h <;> exact he
        | _ =>
          simp only [hp, Option.some.injEq] at h
          subst h
          simp [he]
      · rw [(hk j hji).2, he]
    · have hki : k ≠ i := by
        rintro rfl
        rw [hs] at h₁
        cases h₁
      exact .inr ⟨k, by rw [State.step_pc_other h hki, hs]⟩
  · exact .inr ⟨i, hp'⟩
  · exact .inl (he j)

omit [DecidableEq ι] in
/-- `Live` is kept when what it says of the event, the monitor and the word stays true or a wake-up is due. -/
theorem Live.mono (hl : Live P s j) (hpc : s'.pc j = s.pc j) (hw : Woken s j → Woken s' j)
    (hm : s.monitor j = true → s'.monitor j = true ∨ Woken s' j)
    (hu : P.update (s.loc j) s.val = none → Woken s' j ∨ P.update (s'.loc j) s'.val = none) : Live P s' j := by
  unfold Live at hl ⊢
  rw [hpc]
  cases hp : s.pc j with
  | wfe | clrex =>
    simp only [hp] at hl
    exact hl.elim (fun h => .inl (hw h)) hu
  | test | stxr =>
    simp only [hp] at hl
    exact hl.elim hm (fun h => .inr (hw h))
  | _ => trivial

/-- A step of CPU `i` keeps `Live` for another CPU. -/
theorem Live.step_other (hl : Live P s j) (h : s.step P i = some s') (hj : j ≠ i) : Live P s' j := by
  refine hl.mono (State.step_pc_other h hj) (fun hw => hw.step h fun e => absurd e hj) ?_ ?_ <;>
    rcases State.step_cases h with ⟨hv, hloc, -, -, hk⟩ | ⟨x, v, -, -, hp', -⟩ | ⟨-, -, -, -, -, he⟩
  · exact fun hm => .inl ((hk j hj).1.trans hm)
  · exact fun _ => .inr (.inr ⟨i, hp'⟩)
  · exact fun _ => .inr (.inl (he j))
  · exact fun hu => .inr (by rwa [hv, hloc])
  · exact fun _ => .inl (.inr ⟨i, hp'⟩)
  · exact fun _ => .inl (.inl (he j))

/-- A step of CPU `i` establishes `Live` for the CPU. -/
theorem Live.step_self (hl : Live P s i) (hf : Fresh P s i) (h : s.step P i = some s') : Live P s' i := by
  have hw := fun (hw : Woken s i) (hp : s.pc i ≠ .wfe) => hw.step h (fun _ => hp)
  unfold State.step at h
  cases hp : s.pc i with
  | start =>
    simp only [hp, Option.some.injEq] at h
    subst h
    simp [Live, Woken]
  | wfe =>
    simp only [hp, Option.ite_none_right_eq_some, Option.some.injEq] at h
    obtain ⟨-, rfl⟩ := h
    simp [Live]
  | ldxr =>
    simp only [hp, Option.some.injEq] at h
    subst h
    simp [Live]
  | test x =>
    have hw' := fun h => hw h (by simp [hp])
    simp only [hp, Option.some.injEq] at h
    simp only [Live, Fresh, hp] at hl hf
    subst h
    unfold Live
    simp only [update_self]
    cases hu : P.update (s.loc i) x with
    | none =>
      rw [show P.branch (s.loc i) x = .clrex by simp [Prog.branch, hu]] at hw' ⊢
      exact hl.symm.imp hw' fun hm => by rw [← hf hm, hu]
    | some v =>
      rw [show P.branch (s.loc i) x = .stxr x v by simp [Prog.branch, hu]] at hw' ⊢
      exact hl.imp id hw'
  | clrex =>
    have hw' := fun h => hw h (by simp [hp])
    simp only [hp, Option.some.injEq] at h
    simp only [Live, hp] at hl
    subst h
    simp only [Live, update_self]
    exact hl.imp hw' id
  | stxr x v =>
    have hw' := fun h => hw h (by simp [hp])
    simp only [Live, hp] at hl
    simp only [hp] at h
    split at h
    · cases h
      simp [Live]
    · cases h
      simp only [Live, update_self]
      exact .inl (hw' (hl.resolve_left ‹_›))
  | sev =>
    simp only [hp, Option.some.injEq] at h
    subst h
    simp [Live]

/-- An event from elsewhere keeps `Live`. -/
theorem Live.wake (hl : Live P s j) : Live P { s with event := update s.event i true } j := by
  have hw : Woken s j → Woken { s with event := update s.event i true } j := by
    refine Or.imp (fun he => ?_) id
    by_cases hj : j = i
    · subst hj
      exact update_self ..
    · exact (update_of_ne hj ..).trans he
  exact hl.mono rfl hw .inl .inr

theorem ReachableKept.reachable {a : Abs ι V L} (h : ReachableKept P a s) : Reachable P a s :=
  h.mono fun _ _ ⟨x, _, hx⟩ => ⟨x, hx⟩

/-- Along runs in which reservations are only lost to stores, no wake-up is lost. -/
theorem ReachableKept.live {a : Abs ι V L} (h : ReachableKept P a s) : ∀ i, Live P s i := by
  refine (Reach.Reachable.inv (I := fun s => (∀ i, Fresh P s i) ∧ ∀ i, Live P s i) ?_ ?_ h).2
  · rintro s ⟨-, -, hp⟩
    exact ⟨fun i => by simp [Fresh, hp], fun i => by simp [Live, hp]⟩
  · rintro s s' ⟨hf, hl⟩ ⟨x, hne, hx⟩
    cases x with
    | step i =>
      refine ⟨fun k => ?_, fun k => ?_⟩
      all_goals by_cases hk : k = i
      · subst hk
        exact (hf k).step_self hx
      · exact (hf k).step_other hx hk
      · subst hk
        exact (hl k).step_self (hf k) hx
      · exact (hl k).step_other hx hk
    | lose i => exact absurd rfl (hne i)
    | wake i =>
      obtain rfl := Option.some.inj hx
      exact ⟨hf, fun k => (hl k).wake⟩

/-- How far CPU `i` is from its store. -/
def State.rank (s : State ι V L) (i : ι) : Nat :=
  match s.pc i with
  | .sev => 10
  | .start => 9
  | .test _ => if s.monitor i then 4 else 8
  | .clrex => 7
  | .stxr _ _ => if s.monitor i then 3 else 7
  | .wfe => 6
  | .ldxr => 5

/-- The steps that are left, with one for an event that is not set. -/
def State.left (s : State ι V L) (i : ι) : Nat := 2 * s.rank i + if s.event i then 0 else 1

/-- While the update of CPU `i` applies to the word, its steps bring it closer, until it stores. -/
theorem State.step_left {v : V} (hf : Fresh P s i) (hu : P.update ((s.abs P).loc i) s.val = some v)
    (h : s.step P i = some s') (hst : s.stores i = false) : s'.left i < s.left i := by
  unfold step at h
  unfold Fresh at hf
  cases hp : s.pc i with
  | start | ldxr | clrex | sev =>
    simp only [hp, Option.some.injEq] at h
    subst h
    simp only [left, rank, hp, update_self]
    grind
  | wfe =>
    simp only [hp, Option.ite_none_right_eq_some, Option.some.injEq] at h
    obtain ⟨he, rfl⟩ := h
    simp [left, rank, hp, he]
  | test x =>
    simp only [hp, Option.some.injEq] at h
    simp only [hp] at hf
    simp only [abs, hp, Pc.stored, Bool.false_eq_true, if_false] at hu
    subst h
    simp only [left, rank, hp, update_self, Prog.branch]
    cases hm : s.monitor i with
    | true =>
      rw [hf hm, hu]
      simp
    | false => cases P.update (s.loc i) x <;> simp
  | stxr x w =>
    simp only [stores, hp] at hst
    simp only [hp, hst, Bool.false_eq_true, if_false, Option.some.injEq] at h
    subst h
    simp [left, rank, hp, hst]

theorem State.step_eq_none (h : s.step P i = none) : s.pc i = .wfe ∧ s.event i = false := by
  unfold step at h
  cases hp : s.pc i with
  | wfe => simpa [hp] using h
  | stxr x v =>
    simp only [hp] at h
    split at h <;> cases h
  | _ => simp [hp] at h

/-- While the update of CPU `i` applies to the word, a step of the CPU, or one that wakes it, is the update or brings
it closer. -/
theorem exists_step_left {a' : Abs ι V L} (hf : ∀ k, Fresh P s k) (hl : Live P s i)
    (ha : (s.abs P).step P i = some a') :
    ∃ j s', s.step P j = some s' ∧ (s'.abs P = a' ∨ s'.abs P = s.abs P ∧ s'.left i < s.left i) := by
  obtain ⟨v, hu⟩ : ∃ v, P.update ((s.abs P).loc i) s.val = some v := by
    unfold Abs.step at ha
    split at ha
    · cases ha
    · exact ⟨_, ‹_›⟩
  cases hs : s.step P i with
  | some s' =>
    refine ⟨i, s', hs, ?_⟩
    cases hst : s.stores i with
    | true => exact .inl (Option.some.inj ((State.step_abs_of_stores (hf i) hs hst).symm.trans ha))
    | false => exact .inr ⟨State.step_abs_eq hs hst, State.step_left (hf i) hu hs hst⟩
  | none =>
    obtain ⟨hp, he⟩ := State.step_eq_none hs
    -- it sleeps, so that the event is about to come
    have hloc : (s.abs P).loc i = s.loc i := by simp [State.abs, hp, Pc.stored]
    simp only [Live, hp, ← hloc, hu, reduceCtorEq, or_false] at hl
    obtain ⟨j, hj⟩ := hl.resolve_left (by simp [he])
    have hji : i ≠ j := by
      rintro rfl
      rw [hp] at hj
      cases hj
    obtain ⟨s', hs'⟩ : ∃ s', s.step P j = some s' := by
      simp only [State.step, hj]
      exact ⟨_, rfl⟩
    refine ⟨j, s', hs', .inr ⟨State.step_abs_eq hs' (by simp [State.stores, hj]), ?_⟩⟩
    have hp' := State.step_pc_other hs' hji
    rcases State.step_cases hs' with ⟨-, -, h, -⟩ | ⟨x, w, h, -⟩ | ⟨-, -, -, -, -, hev⟩
    · rw [hj] at h
      cases h
    · rw [hj] at h
      cases h
    · simp [State.left, State.rank, hp, hp', he, hev]

/-- What an update does from a reachable state on can be done by steps. -/
theorem ReachableKept.exists_run {a a' : Abs ι V L} (h : ReachableKept P a s)
    (ha : (s.abs P).step P i = some a') : ∃ s', Run P s s' ∧ ReachableKept P a s' ∧ s'.abs P = a' := by
  induction hk : s.left i using Nat.strongRecOn generalizing s with
  | ind k ih =>
    obtain ⟨j, t, hs, hor⟩ := exists_step_left h.reachable.abs.2 (h.live i) ha
    have ht : ReachableKept P a t := h.step ⟨.step j, by simp, hs⟩
    rcases hor with he | ⟨he, hlt⟩
    · exact ⟨t, .single ⟨j, hs⟩, ht, he⟩
    · obtain ⟨s', hrun, hs', he'⟩ := ih (t.left i) (hk ▸ hlt) ht (he ▸ ha) rfl
      exact ⟨s', .head ⟨j, hs⟩ hrun, hs', he'⟩

/-- What the atomic system can do from a reachable state on can be done by steps. -/
theorem ReachableKept.exists_run_abs {a b : Abs ι V L} (h : ReachableKept P a s)
    (hb : Relation.ReflTransGen (fun b b' => ∃ i, b.step P i = some b') (s.abs P) b) :
    ∃ s', Run P s s' ∧ ReachableKept P a s' ∧ s'.abs P = b := by
  induction hb with
  | refl => exact ⟨s, .refl, h, rfl⟩
  | tail _ hstep ih =>
    obtain ⟨t, hrun, ht, rfl⟩ := ih
    obtain ⟨i, hi⟩ := hstep
    obtain ⟨s', hrun', hs', he⟩ := ht.exists_run hi
    exact ⟨s', hrun.trans hrun', hs', he⟩

end Live

end Exclusives
