import Mathlib.Algebra.Group.Nat.Defs
import Mathlib.Data.Finset.Card
import Mathlib.Data.Fintype.Card
import Mathlib.Logic.Function.Basic

/-!
# Barriers: `bwait` of `sync.c`

`bwaitStep` is one access of a thread inside `bwait`. The lock `bwait_lock` is not part of it: a step says what it does to
the lock, and the threads around it see to it that it is held by one at a time.

`BarrierOk` is what any interleaving of the threads of one barrier keeps (`BarrierOk.step`). It splits the life of the
barrier into generations, in which the threads are collected (`current_state` is 0) and then released (it is 1). The
consequence that the callers use is `BarrierOk.departed_le_arrived`: no thread leaves before all have arrived.
-/

namespace LitmusHarness

/-! ## The barrier -/

/-- `bar_t`. Neither counter comes near to 2^64 from below. -/
structure Bar where
  iteration : Nat := 0
  waiting : Nat := 0
  currentState : Bool := false
  deriving DecidableEq, Repr

/-- `EMPTY_BAR`. -/
def emptyBar : Bar := {}

/-- The next access of a thread in `bwait`, with the values it has read. -/
inductive BwaitPc
  /-- `LOCK(&bwait_lock)` -/
  | acquire
  /-- `if (bar->current_state == 1)` -/
  | checkState
  /-- `while (bar->waiting != 0)` -/
  | checkWaiting
  /-- `UNLOCK` in that loop -/
  | retryRelease
  /-- `LOCK` in that loop -/
  | retryAcquire
  /-- the read of `bar->iteration++` -/
  | readIteration
  | writeIteration (tmp : Nat)
  /-- `bar->current_state = 0` -/
  | clearState
  /-- the read of `bar->waiting++` -/
  | readWaiting
  | writeWaiting (tmp : Nat)
  /-- `if (bar->waiting == sz)` -/
  | checkFull
  /-- `bar->current_state = 1` -/
  | setState
  /-- `UNLOCK(&bwait_lock)` -/
  | release
  /-- `u64 iter = bar->iteration` -/
  | readIter
  /-- `while (bar->current_state == 0)` -/
  | spinState (iter : Nat)
  /-- `__atomic_dec(&bar->waiting)`, with page tables -/
  | decAtomic (iter : Nat)
  /-- `LOCK`, `bar->waiting--` and `UNLOCK`, without page tables -/
  | decAcquire (iter : Nat)
  | decRead (iter : Nat)
  | decWrite (iter tmp : Nat)
  | decRelease (iter : Nat)
  /-- `bar->iteration == iter` of the slow release -/
  | spinIteration (iter : Nat)
  /-- `bar->waiting != 0` of the slow release -/
  | spinWaiting (iter : Nat)
  | done
  deriving DecidableEq, Repr

/-- What a step does to `bwait_lock`. -/
inductive LockOp
  | keep
  | acquire
  | release
  deriving DecidableEq, Repr

/-- The holder of the lock after a step of the thread `t`. -/
def LockOp.apply {ι : Type} (t : ι) (lock : Option ι) : LockOp → Option ι
  | .keep => lock
  | .acquire => some t
  | .release => none

/-- One less, in a `u64`: below 0 it wraps around. -/
def predU64 (w : Nat) : Nat := if w = 0 then 2 ^ 64 - 1 else w - 1

theorem predU64_of_pos {w : Nat} (h : 0 < w) : predU64 w = w - 1 := if_neg (Nat.ne_of_gt h)

/-- One access of a thread in `bwait(_, bar, sz)`. -/
def bwaitStep (enablePgtable : Bool) (sz : Nat) (bar : Bar) : BwaitPc → Bar × LockOp × BwaitPc
  | .acquire => (bar, .acquire, .checkState)
  | .checkState => (bar, .keep, if bar.currentState then .checkWaiting else .readWaiting)
  | .checkWaiting => (bar, .keep, if bar.waiting ≠ 0 then .retryRelease else .readIteration)
  | .retryRelease => (bar, .release, .retryAcquire)
  | .retryAcquire => (bar, .acquire, .checkWaiting)
  | .readIteration => (bar, .keep, .writeIteration bar.iteration)
  | .writeIteration tmp => ({ bar with iteration := tmp + 1 }, .keep, .clearState)
  | .clearState => ({ bar with currentState := false }, .keep, .readWaiting)
  | .readWaiting => (bar, .keep, .writeWaiting bar.waiting)
  | .writeWaiting tmp => ({ bar with waiting := tmp + 1 }, .keep, .checkFull)
  | .checkFull => (bar, .keep, if bar.waiting = sz then .setState else .release)
  | .setState => ({ bar with currentState := true }, .keep, .release)
  | .release => (bar, .release, .readIter)
  | .readIter => (bar, .keep, .spinState bar.iteration)
  | .spinState iter =>
    (bar, .keep,
      if !bar.currentState then .spinState iter else if enablePgtable then .decAtomic iter else .decAcquire iter)
  | .decAtomic iter => ({ bar with waiting := predU64 bar.waiting }, .keep, .spinIteration iter)
  | .decAcquire iter => (bar, .acquire, .decRead iter)
  | .decRead iter => (bar, .keep, .decWrite iter bar.waiting)
  | .decWrite iter tmp => ({ bar with waiting := predU64 tmp }, .keep, .decRelease iter)
  | .decRelease iter => (bar, .release, .spinIteration iter)
  | .spinIteration iter => (bar, .keep, if bar.iteration = iter then .spinWaiting iter else .done)
  | .spinWaiting iter => (bar, .keep, if bar.waiting ≠ 0 then .spinIteration iter else .done)
  | .done => (bar, .keep, .done)

/-- The thread holds `bwait_lock`. -/
def BwaitPc.critical : BwaitPc → Bool
  | .checkState | .checkWaiting | .retryRelease | .readIteration | .writeIteration _ | .clearState | .readWaiting
  | .writeWaiting _ | .checkFull | .setState | .release | .decRead _ | .decWrite _ _ | .decRelease _ => true
  | _ => false

/-- The steps change the lock as they say. -/
theorem bwaitStep_critical (enablePgtable : Bool) (sz : Nat) (bar : Bar) (pc : BwaitPc) :
    match (bwaitStep enablePgtable sz bar pc).2.1 with
    | .keep => (bwaitStep enablePgtable sz bar pc).2.2.critical = pc.critical
    | .acquire => pc.critical = false ∧ (bwaitStep enablePgtable sz bar pc).2.2.critical = true
    | .release => pc.critical = true ∧ (bwaitStep enablePgtable sz bar pc).2.2.critical = false := by
  cases pc <;> dsimp only [bwaitStep] <;> (try split_ifs) <;> simp [BwaitPc.critical]

/-! ## A thread at a barrier -/

/-- Where a thread is at a barrier: how often it has returned from `bwait`, and its next access if it is inside. -/
structure Loc where
  uses : Nat
  pc : Option BwaitPc

/-- The thread has been counted in `waiting` and not yet taken out. -/
def BwaitPc.inside : BwaitPc → Bool
  | .checkFull | .setState | .release | .readIter | .spinState _ | .decAtomic _ | .decAcquire _ | .decRead _
  | .decWrite _ _ => true
  | _ => false

/-- The thread has been taken out of `waiting`. -/
def BwaitPc.after : BwaitPc → Bool
  | .decRelease _ | .spinIteration _ | .spinWaiting _ | .done => true
  | _ => false

namespace Loc

/-- The thread holds the lock. -/
def critical (l : Loc) : Bool := l.pc.elim false BwaitPc.critical

/-- The thread is counted in `waiting`. -/
def inside (l : Loc) : Bool := l.pc.elim false BwaitPc.inside

/-- The thread has left the barrier, but not returned. -/
def after (l : Loc) : Bool := l.pc.elim false BwaitPc.after

/-- How often the thread has arrived. -/
def arrived (l : Loc) : Nat := if l.inside || l.after then l.uses + 1 else l.uses

/-- How often the thread has left. -/
def departed (l : Loc) : Nat := if l.after then l.uses + 1 else l.uses

end Loc

/-! ## Generations -/

/-- A thread in generation `g` of the barrier. -/
def PcOk (enablePgtable : Bool) (sz g : Nat) (bar : Bar) (l : Loc) : Prop :=
  match bar.currentState, l.pc with
  -- the threads are collected
  | false, none => l.uses = g
  | false, some .acquire => l.uses = g
  | false, some .checkState => l.uses = g
  | false, some .readWaiting => l.uses = g
  | false, some (.writeWaiting tmp) => l.uses = g ∧ tmp = bar.waiting
  | false, some .checkFull => l.uses = g
  | false, some .setState => l.uses = g ∧ bar.waiting = sz
  | false, some .release => l.uses = g
  | false, some .readIter => l.uses = g
  | false, some (.spinState iter) => l.uses = g ∧ iter = g
  | false, some (.spinIteration iter) => l.uses + 1 = g ∧ iter + 1 = g
  | false, some (.spinWaiting iter) => l.uses + 1 = g ∧ iter + 1 = g
  | false, some .done => l.uses + 1 = g
  -- the threads are released
  | true, some .release => l.uses = g
  | true, some .readIter => l.uses = g
  | true, some (.spinState iter) => l.uses = g ∧ iter = g
  | true, some (.decAtomic iter) => enablePgtable = true ∧ l.uses = g ∧ iter = g
  | true, some (.decAcquire iter) => enablePgtable = false ∧ l.uses = g ∧ iter = g
  | true, some (.decRead iter) => enablePgtable = false ∧ l.uses = g ∧ iter = g
  | true, some (.decWrite iter tmp) => enablePgtable = false ∧ l.uses = g ∧ iter = g ∧ tmp = bar.waiting
  | true, some (.decRelease iter) => l.uses = g ∧ iter = g
  | true, some (.spinIteration iter) => l.uses = g ∧ iter = g
  | true, some (.spinWaiting iter) => l.uses = g ∧ iter = g
  | true, some .done => l.uses = g ∧ bar.waiting = 0
  | true, none => l.uses = g + 1 ∧ bar.waiting = 0
  | true, some .acquire => l.uses = g + 1 ∧ bar.waiting = 0
  | true, some .checkState => l.uses = g + 1 ∧ bar.waiting = 0
  | true, some .checkWaiting => l.uses = g + 1 ∧ bar.waiting = 0
  | true, some .readIteration => l.uses = g + 1 ∧ bar.waiting = 0 ∧ bar.iteration = g
  | true, some (.writeIteration tmp) => l.uses = g + 1 ∧ bar.waiting = 0 ∧ bar.iteration = g ∧ tmp = g
  | true, some .clearState => l.uses = g + 1 ∧ bar.waiting = 0 ∧ bar.iteration = g + 1
  | _, _ => False

/-- What the threads `loc` of one barrier and the barrier itself satisfy in generation `g`. -/
structure Generation {ι : Type} [Fintype ι] (enablePgtable : Bool) (sz g : Nat) (bar : Bar) (loc : ι → Loc) : Prop where
  pc : ∀ i, PcOk enablePgtable sz g bar (loc i)
  waiting : bar.waiting = (Finset.univ.filter fun i => (loc i).inside = true).card
  iteration : bar.iteration = g ∨
    bar.currentState = true ∧ bar.iteration = g + 1 ∧ bar.waiting = 0 ∧ ∃ i, (loc i).pc = some .clearState
  critical : ∀ i j, (loc i).critical = true → (loc j).critical = true → i = j

/-- The invariant of a barrier for `sz` threads. -/
def BarrierOk {ι : Type} [Fintype ι] (enablePgtable : Bool) (sz : Nat) (bar : Bar) (loc : ι → Loc) : Prop :=
  ∃ g, Generation enablePgtable sz g bar loc

section Barrier

variable {ι : Type} [Fintype ι] {enablePgtable : Bool} {sz g : Nat} {bar : Bar} {loc : ι → Loc}

/-- Every thread has left `g` times, or is released in generation `g` already. -/
theorem PcOk.counts {l : Loc} (h : PcOk enablePgtable sz g bar l) :
    g ≤ l.arrived ∧ l.departed ≤ g + 1 ∧ (bar.currentState = false → l.departed = g) ∧
      (bar.currentState = true → l.arrived = g + 1) := by
  obtain ⟨uses, pc⟩ := l
  cases hs : bar.currentState <;> cases pc with
  | none => simp_all [PcOk, Loc.arrived, Loc.departed, Loc.inside, Loc.after]
  | some pc =>
    cases pc <;> simp_all [PcOk, Loc.arrived, Loc.departed, Loc.inside, Loc.after, BwaitPc.inside, BwaitPc.after]

/-- **No thread leaves before all have arrived**, as often as it has left. -/
theorem BarrierOk.departed_le_arrived (h : BarrierOk enablePgtable sz bar loc) (i j : ι) :
    (loc i).departed ≤ (loc j).arrived := by
  obtain ⟨g, hg⟩ := h
  have hi := (hg.pc i).counts
  have hj := (hg.pc j).counts
  cases hs : bar.currentState with
  | false =>
    have := hi.2.2.1 hs
    omega
  | true =>
    have := hj.2.2.2 hs
    omega

/-- At the beginning no thread has used the barrier. -/
theorem barrierOk_init : BarrierOk enablePgtable sz emptyBar fun _ : ι => ⟨0, none⟩ :=
  ⟨0, fun _ => rfl, by simp [emptyBar, Loc.inside], .inl rfl, fun i j hi => by simp [Loc.critical] at hi⟩

/-! ## Steps -/

variable [DecidableEq ι] {t : ι} {l : Loc}

/-- The number of threads that are counted, when `t` was not and is. -/
theorem card_inside_add (h : (loc t).inside = false) (hl : l.inside = true) :
    (Finset.univ.filter fun i => (Function.update loc t l i).inside = true).card =
      (Finset.univ.filter fun i => (loc i).inside = true).card + 1 := by
  have : (Finset.univ.filter fun i => (Function.update loc t l i).inside = true) =
      insert t (Finset.univ.filter fun i => (loc i).inside = true) := by
    ext i
    by_cases hi : i = t
    · simp [hi, hl]
    · simp [hi]
  rw [this, Finset.card_insert_of_notMem (by simp [h])]

theorem card_inside_same (h : (loc t).inside = l.inside) :
    (Finset.univ.filter fun i => (Function.update loc t l i).inside = true).card =
      (Finset.univ.filter fun i => (loc i).inside = true).card := by
  congr 1
  ext i
  by_cases hi : i = t
  · simp [hi, h]
  · simp [hi]

theorem card_inside_sub (h : (loc t).inside = true) (hl : l.inside = false) :
    (Finset.univ.filter fun i => (Function.update loc t l i).inside = true).card + 1 =
      (Finset.univ.filter fun i => (loc i).inside = true).card := by
  have := @card_inside_add ι _ (Function.update loc t l) _ t (loc t) (by simp [hl]) h
  rw [Function.update_idem, Function.update_eq_self] at this
  exact this.symm

omit [Fintype ι] in
/-- The lock stays exclusive, when `t` only takes it when nobody has it. -/
theorem critical_update (h : ∀ i j, (loc i).critical = true → (loc j).critical = true → i = j)
    (hl : l.critical = true → (loc t).critical = true ∨ ∀ j, (loc j).critical = false) :
    ∀ i j, (Function.update loc t l i).critical = true → (Function.update loc t l j).critical = true → i = j := by
  intro i j hi hj
  by_cases hit : i = t <;> by_cases hjt : j = t
  · rw [hit, hjt]
  · subst hit
    rw [Function.update_self] at hi
    rw [Function.update_of_ne hjt] at hj
    rcases hl hi with hc | hc
    · exact h _ _ hc hj
    · rw [hc] at hj
      cases hj
  · subst hjt
    rw [Function.update_self] at hj
    rw [Function.update_of_ne hit] at hi
    rcases hl hj with hc | hc
    · exact h _ _ hi hc
    · rw [hc] at hi
      cases hi
  · rw [Function.update_of_ne hit] at hi
    rw [Function.update_of_ne hjt] at hj
    exact h _ _ hi hj

/-- A step that leaves the barrier as it is. -/
theorem Generation.quiet (h : Generation enablePgtable sz g bar loc) (hpc : PcOk enablePgtable sz g bar l)
    (hin : (loc t).inside = l.inside) (hclear : (loc t).pc ≠ some .clearState)
    (hl : l.critical = true → (loc t).critical = true ∨ ∀ j, (loc j).critical = false) :
    Generation enablePgtable sz g bar (Function.update loc t l) where
  pc i := by
    by_cases hi : i = t
    · rw [hi, Function.update_self]
      exact hpc
    · rw [Function.update_of_ne hi]
      exact h.pc i
  waiting := by
    rw [card_inside_same hin]
    exact h.waiting
  iteration := by
    refine h.iteration.imp_right fun ⟨h1, h2, h3, i, hi⟩ => ⟨h1, h2, h3, i, ?_⟩
    have hne : i ≠ t := by
      rintro rfl
      exact hclear hi
    rw [Function.update_of_ne hne]
    exact hi
  critical := critical_update h.critical hl

/-- A thread starts or ends a use of the barrier. -/
theorem BarrierOk.outside (h : BarrierOk enablePgtable sz bar loc) {l₀ : Loc} (ht : loc t = l₀)
    (hok : ∀ g, PcOk enablePgtable sz g bar l₀ → PcOk enablePgtable sz g bar l) (hin : l₀.inside = l.inside)
    (hclear : l₀.pc ≠ some .clearState) (hl : l.critical = false) :
    BarrierOk enablePgtable sz bar (Function.update loc t l) := by
  obtain ⟨g, hg⟩ := h
  subst ht
  exact ⟨g, hg.quiet (hok g (hg.pc t)) hin hclear fun hc => by rw [hl] at hc; cases hc⟩

/-- A thread enters `bwait`. -/
theorem BarrierOk.enter (h : BarrierOk enablePgtable sz bar loc) {n : Nat} (ht : loc t = ⟨n, none⟩) :
    BarrierOk enablePgtable sz bar (Function.update loc t ⟨n, some .acquire⟩) := by
  refine h.outside ht (fun g hpc => ?_) rfl (by simp) rfl
  cases hs : bar.currentState <;> simpa [PcOk, hs] using hpc

/-- A thread returns from `bwait`. -/
theorem BarrierOk.leave (h : BarrierOk enablePgtable sz bar loc) {n : Nat} (ht : loc t = ⟨n, some .done⟩) :
    BarrierOk enablePgtable sz bar (Function.update loc t ⟨n + 1, none⟩) := by
  refine h.outside ht (fun g hpc => ?_) rfl (by simp) rfl
  cases hs : bar.currentState <;> simpa [PcOk, hs] using hpc

omit [DecidableEq ι] in
/-- A thread that is counted sees that. -/
theorem Generation.waiting_pos (h : Generation enablePgtable sz g bar loc) (hin : (loc t).inside = true) :
    0 < bar.waiting := by
  rw [h.waiting]
  exact Finset.card_pos.mpr ⟨t, by simp [hin]⟩

omit [DecidableEq ι] in
/-- The iteration is the generation, for a thread that holds the lock, is counted, or is collected. -/
theorem Generation.iteration_eq (h : Generation enablePgtable sz g bar loc)
    (ht : bar.currentState = false ∨ (loc t).inside = true ∨
      (loc t).critical = true ∧ (loc t).pc ≠ some .clearState) : bar.iteration = g := by
  rcases h.iteration with heq | ⟨hs, -, hw, i, hi⟩
  · exact heq
  · rcases ht with hs' | hin | ⟨hc, hne⟩
    · rw [hs] at hs'
      cases hs'
    · have := h.waiting_pos hin
      omega
    · have hic : (loc i).critical = true := by simp [Loc.critical, hi, BwaitPc.critical]
      exact absurd (h.critical i t hic hc ▸ hi) hne

/-- The accesses that change the barrier. -/
def BwaitPc.writes : BwaitPc → Bool
  | .writeIteration _ | .clearState | .writeWaiting _ | .setState | .decAtomic _ | .decWrite _ _ => true
  | _ => false

omit [DecidableEq ι] in
/-- The other accesses. -/
theorem Generation.step_read (h : Generation enablePgtable sz g bar loc) {n : Nat} {pc : BwaitPc}
    (ht : loc t = ⟨n, some pc⟩) (hw : pc.writes = false) :
    (bwaitStep enablePgtable sz bar pc).1 = bar ∧
      PcOk enablePgtable sz g bar ⟨n, some (bwaitStep enablePgtable sz bar pc).2.2⟩ ∧
      (bwaitStep enablePgtable sz bar pc).2.2.inside = pc.inside := by
  have hpc := h.pc t
  have hcase := h.iteration
  have hiter := @Generation.iteration_eq _ _ _ _ _ _ _ t h
  rw [ht] at hpc hiter
  cases hs : bar.currentState <;> cases pc <;>
    simp only [BwaitPc.writes, PcOk, hs, Bool.true_eq_false] at hw hpc <;>
    simp only [bwaitStep, hs, PcOk, Loc.inside, Loc.critical, Option.elim, BwaitPc.inside, BwaitPc.critical] at * <;>
    (try split_ifs) <;> simp_all

/-! ### The others, when the barrier changes -/

/-- The iteration is written under the lock. -/
theorem PcOk.frame_iteration (h : PcOk enablePgtable sz g bar l) (hc : l.critical = false) (k : Nat) :
    PcOk enablePgtable sz g { bar with iteration := k } l := by
  obtain ⟨uses, _ | pc⟩ := l
  · cases hs : bar.currentState <;> simp_all [PcOk]
  · cases hs : bar.currentState <;> cases pc <;> simp_all [PcOk, Loc.critical, BwaitPc.critical]

/-- While threads are collected, `waiting` is written under the lock. -/
theorem PcOk.frame_collected (h : PcOk enablePgtable sz g bar l) (hs : bar.currentState = false)
    (hc : l.critical = false) (k : Nat) : PcOk enablePgtable sz g { bar with waiting := k } l := by
  obtain ⟨uses, _ | pc⟩ := l
  · simp_all [PcOk]
  · cases pc <;> simp_all [PcOk, Loc.critical, BwaitPc.critical]

/-- While they are released, it is only lowered, and nobody has seen it at 0 yet. -/
theorem PcOk.frame_released (h : PcOk enablePgtable sz g bar l) (hs : bar.currentState = true) (hw : 0 < bar.waiting)
    (hc : l.critical = false ∨ enablePgtable = true) (k : Nat) :
    PcOk enablePgtable sz g { bar with waiting := k } l := by
  have hne : bar.waiting ≠ 0 := by omega
  obtain ⟨uses, _ | pc⟩ := l
  · simp_all [PcOk]
  · cases pc <;> simp_all [PcOk, Loc.critical, BwaitPc.critical]

/-- The threads that are counted are released together. -/
theorem PcOk.frame_setState (h : PcOk enablePgtable sz g bar l) (hs : bar.currentState = false)
    (hin : l.inside = true) (hc : l.critical = false) :
    PcOk enablePgtable sz g { bar with currentState := true } l := by
  obtain ⟨uses, _ | pc⟩ := l
  · cases hin
  · cases pc <;> simp_all [PcOk, Loc.critical, Loc.inside, BwaitPc.critical, BwaitPc.inside]

/-- The next generation begins when all have left. -/
theorem PcOk.frame_clearState (h : PcOk enablePgtable sz g bar l) (hs : bar.currentState = true)
    (hin : l.inside = false) (hc : l.critical = false) :
    PcOk enablePgtable sz (g + 1) { bar with currentState := false } l := by
  obtain ⟨uses, _ | pc⟩ := l
  · simp_all [PcOk]
  · cases pc <;> simp_all [PcOk, Loc.critical, Loc.inside, BwaitPc.critical, BwaitPc.inside]

omit [Fintype ι] in
/-- What holds of `t` and of the others holds of all. -/
theorem pcOk_update {P : Loc → Prop} (ht : P l) (h : ∀ i, i ≠ t → P (loc i)) (i : ι) : P (Function.update loc t l i) := by
  by_cases hi : i = t
  · rw [hi, Function.update_self]
    exact ht
  · rw [Function.update_of_ne hi]
    exact h i hi

omit [DecidableEq ι] in
/-- Nobody else holds the lock. -/
theorem Generation.not_critical (h : Generation enablePgtable sz g bar loc) (ht : (loc t).critical = true) (i : ι)
    (hi : i ≠ t) : (loc i).critical = false := by
  rw [← Bool.not_eq_true]
  exact fun hc => hi (h.critical i t hc ht)

/-! ### The writes -/

section Writes

variable {n tmp iter : Nat}

/-- The accesses that change the barrier while the threads are released. -/
def BwaitPc.released : BwaitPc → Bool
  | .writeIteration _ | .clearState | .decAtomic _ | .decWrite _ _ => true
  | _ => false

omit [Fintype ι] [DecidableEq ι] in
/-- A thread that changes the barrier knows its state. -/
theorem PcOk.currentState_eq {pc : BwaitPc} (h : PcOk enablePgtable sz g bar ⟨n, some pc⟩) (hw : pc.writes = true) :
    bar.currentState = pc.released := by
  cases hs : bar.currentState <;> cases pc <;> simp_all [PcOk, BwaitPc.writes, BwaitPc.released]

omit [DecidableEq ι] in
/-- Where the thread is that makes the write, and the state of the barrier. -/
theorem Generation.writer (h : Generation enablePgtable sz g bar loc) {pc : BwaitPc} (ht : loc t = ⟨n, some pc⟩)
    (hw : pc.writes = true) : PcOk enablePgtable sz g bar ⟨n, some pc⟩ ∧ bar.currentState = pc.released := by
  have hpc := h.pc t
  rw [ht] at hpc
  exact ⟨hpc, hpc.currentState_eq hw⟩

/-- `bar->iteration++`: the next generation is announced. -/
theorem Generation.writeIteration (h : Generation enablePgtable sz g bar loc)
    (ht : loc t = ⟨n, some (.writeIteration tmp)⟩) :
    Generation enablePgtable sz g { bar with iteration := tmp + 1 } (Function.update loc t ⟨n, some .clearState⟩) := by
  have hc : (loc t).critical = true := by rw [ht]; rfl
  obtain ⟨hpc, hs : bar.currentState = true⟩ := h.writer ht rfl
  simp only [PcOk, hs] at hpc
  obtain ⟨hn, hwait, -, htmp⟩ := hpc
  refine ⟨pcOk_update (by simp [PcOk, hs, hn, hwait, htmp]) fun i hi =>
    (h.pc i).frame_iteration (h.not_critical hc i hi) _, ?_, .inr ⟨hs, by simp [htmp], hwait, t, by simp⟩,
    critical_update h.critical fun _ => .inl hc⟩
  rw [card_inside_same (by rw [ht]; rfl)]
  exact h.waiting

/-- `bar->current_state = 0`: the threads are collected again. -/
theorem Generation.clearState (h : Generation enablePgtable sz g bar loc) (ht : loc t = ⟨n, some .clearState⟩) :
    Generation enablePgtable sz (g + 1) { bar with currentState := false }
      (Function.update loc t ⟨n, some .readWaiting⟩) := by
  have hc : (loc t).critical = true := by rw [ht]; rfl
  obtain ⟨hpc, hs : bar.currentState = true⟩ := h.writer ht rfl
  simp only [PcOk, hs] at hpc
  obtain ⟨hn, hwait, hiter⟩ := hpc
  have hout : ∀ i, (loc i).inside = false := by
    intro i
    rw [← Bool.not_eq_true]
    intro hin
    have := h.waiting_pos hin
    omega
  refine ⟨pcOk_update (by simp [PcOk, hn]) fun i hi => (h.pc i).frame_clearState hs (hout i) (h.not_critical hc i hi),
    ?_, .inl hiter, critical_update h.critical fun _ => .inl hc⟩
  rw [card_inside_same (by rw [ht]; rfl)]
  exact h.waiting

/-- `bar->waiting++`: the thread arrives. -/
theorem Generation.writeWaiting (h : Generation enablePgtable sz g bar loc)
    (ht : loc t = ⟨n, some (.writeWaiting tmp)⟩) :
    Generation enablePgtable sz g { bar with waiting := tmp + 1 } (Function.update loc t ⟨n, some .checkFull⟩) := by
  have hc : (loc t).critical = true := by rw [ht]; rfl
  obtain ⟨hpc, hs : bar.currentState = false⟩ := h.writer ht rfl
  simp only [PcOk, hs] at hpc
  obtain ⟨hn, htmp⟩ := hpc
  have hiter : bar.iteration = g := h.iteration.resolve_right fun hr => by simp [hs] at hr
  refine ⟨pcOk_update (by simp [PcOk, hs, hn]) fun i hi => (h.pc i).frame_collected hs (h.not_critical hc i hi) _,
    ?_, .inl hiter, critical_update h.critical fun _ => .inl hc⟩
  rw [card_inside_add (by rw [ht]; rfl) rfl, ← h.waiting, htmp]

/-- `bar->current_state = 1`: all are counted, and released. -/
theorem Generation.setState (h : Generation enablePgtable sz g bar loc) (hsz : sz = Fintype.card ι)
    (ht : loc t = ⟨n, some .setState⟩) :
    Generation enablePgtable sz g { bar with currentState := true } (Function.update loc t ⟨n, some .release⟩) := by
  have hc : (loc t).critical = true := by rw [ht]; rfl
  obtain ⟨hpc, hs : bar.currentState = false⟩ := h.writer ht rfl
  simp only [PcOk, hs] at hpc
  obtain ⟨hn, hfull⟩ := hpc
  have hiter : bar.iteration = g := h.iteration.resolve_right fun hr => by simp [hs] at hr
  have hall : ∀ i, (loc i).inside = true := by
    have huniv : (Finset.univ.filter fun i => (loc i).inside = true) = Finset.univ := by
      rw [← Finset.card_eq_iff_eq_univ, ← h.waiting, hfull, hsz]
    intro i
    have := Finset.mem_univ i
    rw [← huniv] at this
    exact (Finset.mem_filter.mp this).2
  refine ⟨pcOk_update (by simp [PcOk, hn]) fun i hi => (h.pc i).frame_setState hs (hall i) (h.not_critical hc i hi),
    ?_, .inl hiter, critical_update h.critical fun _ => .inl hc⟩
  rw [card_inside_same (by rw [ht]; rfl)]
  exact h.waiting

/-- `bar->waiting` is lowered: the thread leaves. Either this is one atomic access or it is made under the lock. -/
theorem Generation.lowerWaiting (h : Generation enablePgtable sz g bar loc) {pc pc' : BwaitPc}
    (ht : loc t = ⟨n, some pc⟩) (hs : bar.currentState = true) (hin : pc.inside = true)
    (hpc' : ∀ w, PcOk enablePgtable sz g { bar with waiting := w } ⟨n, some pc'⟩) (hin' : pc'.inside = false)
    (hc : enablePgtable = true ∨ pc.critical = true) (hc' : pc'.critical = true → pc.critical = true) :
    Generation enablePgtable sz g { bar with waiting := predU64 bar.waiting }
      (Function.update loc t ⟨n, some pc'⟩) := by
  have hpos : 0 < bar.waiting := @Generation.waiting_pos _ _ _ _ _ _ _ t h (by rw [ht]; exact hin)
  have hiter : bar.iteration = g := h.iteration.resolve_right fun hr => by omega
  rw [predU64_of_pos hpos]
  refine ⟨pcOk_update (hpc' _) fun i hi => (h.pc i).frame_released hs hpos ?_ _, ?_, .inl hiter,
    critical_update h.critical fun hcr => .inl ?_⟩
  · rcases hc with he | hc
    · exact .inr he
    · exact .inl (h.not_critical (by rw [ht]; exact hc) i hi)
  · have hsub := @card_inside_sub ι _ loc _ t ⟨n, some pc'⟩ (by rw [ht]; exact hin) hin'
    rw [← h.waiting] at hsub
    dsimp only
    omega
  · rw [ht]
    exact hc' hcr

end Writes

omit [Fintype ι] [DecidableEq ι] in
/-- The lock stays exclusive in a step that takes it only if nobody has it. -/
theorem Generation.critical_step {n : Nat} {pc : BwaitPc} (ht : loc t = ⟨n, some pc⟩)
    (hfree : (bwaitStep enablePgtable sz bar pc).2.1 = .acquire → ∀ i, (loc i).critical = false) :
    (⟨n, some (bwaitStep enablePgtable sz bar pc).2.2⟩ : Loc).critical = true →
      (loc t).critical = true ∨ ∀ j, (loc j).critical = false := by
  intro hc
  have hstep := bwaitStep_critical enablePgtable sz bar pc
  change (bwaitStep enablePgtable sz bar pc).2.2.critical = true at hc
  cases hop : (bwaitStep enablePgtable sz bar pc).2.1 <;> rw [hop] at hstep
  · left
    rw [ht]
    exact hstep.symm.trans hc
  · exact .inr (hfree hop)
  · rw [hstep.2] at hc
    cases hc

/-- **A step of any thread keeps the invariant**, when it takes the lock only if nobody has it. -/
theorem BarrierOk.step (h : BarrierOk enablePgtable sz bar loc) (hsz : sz = Fintype.card ι) {n : Nat} {pc : BwaitPc}
    (ht : loc t = ⟨n, some pc⟩)
    (hfree : (bwaitStep enablePgtable sz bar pc).2.1 = .acquire → ∀ i, (loc i).critical = false) :
    BarrierOk enablePgtable sz (bwaitStep enablePgtable sz bar pc).1
      (Function.update loc t ⟨n, some (bwaitStep enablePgtable sz bar pc).2.2⟩) := by
  obtain ⟨g, hg⟩ := h
  cases hw : pc.writes with
  | false =>
    obtain ⟨hbar, hpc', hin⟩ := hg.step_read ht hw
    rw [hbar]
    refine ⟨g, hg.quiet hpc' ?_ ?_ (Generation.critical_step ht hfree)⟩
    · rw [ht]
      exact hin.symm
    · rw [ht]
      rintro ⟨⟩
      cases hw
  | true =>
    cases pc with
    | writeIteration tmp => exact ⟨g, hg.writeIteration ht⟩
    | clearState => exact ⟨g + 1, hg.clearState ht⟩
    | writeWaiting tmp => exact ⟨g, hg.writeWaiting ht⟩
    | setState => exact ⟨g, hg.setState hsz ht⟩
    | decAtomic iter =>
      obtain ⟨hpc, hs : bar.currentState = true⟩ := hg.writer ht rfl
      simp only [PcOk, hs] at hpc
      exact ⟨g, hg.lowerWaiting ht hs rfl (fun w => by simp [bwaitStep, PcOk, hs, hpc]) rfl (.inl hpc.1)
        (fun hc => by cases hc)⟩
    | decWrite iter tmp =>
      obtain ⟨hpc, hs : bar.currentState = true⟩ := hg.writer ht rfl
      simp only [PcOk, hs] at hpc
      obtain ⟨-, hn, hi, rfl⟩ := hpc
      exact ⟨g, hg.lowerWaiting ht hs rfl (fun w => by simp [bwaitStep, PcOk, hs, hn, hi]) rfl (.inr rfl)
        (fun _ => rfl)⟩
    | _ => cases hw

end Barrier

end LitmusHarness
