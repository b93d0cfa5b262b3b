import LitmusHarness.Lib.Reach
import LitmusHarness.Sync.Barrier
import Mathlib.Algebra.Order.BigOperators.Group.Finset

/-!
# Threads that meet at a barrier again and again

`N` threads that call `bwait` on one barrier for `N`, any number of times each, in any interleaving of their accesses.
The main result is `bwait_correct`: the calls are rounds in which all take part, `waiting` stays between 0 and `N`, and
once all have entered a round each of them can return from it.

For the last part, `BwaitPc.left` counts the accesses that a thread still has to make before it is out of the barrier.
As long as somebody has some left, one of them can go on (`RoundInv.progress`); when all are out, they return each on
its own (`RoundInv.exit`).
-/

namespace LitmusHarness

/-! ## The system -/

/-- The barrier, the holder of `bwait_lock`, and the threads. -/
structure BarrierState (N : Nat) where
  bar : Bar := emptyBar
  lock : Option (Fin N) := none
  loc : Fin N → Loc := fun _ => ⟨0, none⟩

section System

variable {N : Nat} (enablePgtable : Bool)

/-- The next step of the thread `t`: the call of `bwait`, an access in it, or the return. -/
def BarrierState.step (s : BarrierState N) (t : Fin N) : Option (BarrierState N) :=
  match (s.loc t).pc with
  | none => some { s with loc := Function.update s.loc t ⟨(s.loc t).uses, some .acquire⟩ }
  | some .done => some { s with loc := Function.update s.loc t ⟨(s.loc t).uses + 1, none⟩ }
  | some pc =>
    let (bar, op, pc) := bwaitStep enablePgtable N s.bar pc
    if op = .acquire ∧ s.lock ≠ none then none
    else some { bar := bar, lock := op.apply t s.lock, loc := Function.update s.loc t ⟨(s.loc t).uses, some pc⟩ }

/-- Some thread takes a step. -/
def BarrierStep (s s' : BarrierState N) : Prop := ∃ t, s.step enablePgtable t = some s'

/-- The states of all runs from `EMPTY_BAR`. -/
def BarrierReachable (s : BarrierState N) : Prop := Reach.Reachable (· = {}) (BarrierStep enablePgtable) s

end System

/-- How many calls of `bwait` the thread has made. -/
def Loc.entered (l : Loc) : Nat := if l.pc.isSome then l.uses + 1 else l.uses

/-! ## The invariant -/

/-- The invariant of the threads and their barrier. -/
structure RoundInv {N : Nat} (enablePgtable : Bool) (s : BarrierState N) : Prop where
  bar : BarrierOk enablePgtable N s.bar s.loc
  lock : ∀ t, s.lock = some t ↔ (s.loc t).critical = true
  /-- Who makes the barrier full has yet to open it. -/
  full : ∀ _ : Fin N, s.bar.currentState = false → s.bar.waiting = N →
    ∃ i, (s.loc i).pc = some .checkFull ∨ (s.loc i).pc = some .setState

section Inv

variable {N : Nat} {enablePgtable : Bool} {s s' : BarrierState N} {t : Fin N}

theorem roundInv_init : RoundInv (N := N) enablePgtable {} where
  bar := barrierOk_init
  lock t := by simp [Loc.critical]
  full i _ h := by
    have := i.pos
    simp only [emptyBar] at h
    omega

/-- What a step can be. -/
theorem BarrierState.step_cases (h : s.step enablePgtable t = some s') :
    ((s.loc t).pc = none ∧ s' = { s with loc := Function.update s.loc t ⟨(s.loc t).uses, some .acquire⟩ }) ∨
    ((s.loc t).pc = some .done ∧ s' = { s with loc := Function.update s.loc t ⟨(s.loc t).uses + 1, none⟩ }) ∨
    ∃ pc, (s.loc t).pc = some pc ∧ pc ≠ .done ∧
      ((bwaitStep enablePgtable N s.bar pc).2.1 = .acquire → s.lock = none) ∧
      s' = { bar := (bwaitStep enablePgtable N s.bar pc).1
             lock := (bwaitStep enablePgtable N s.bar pc).2.1.apply t s.lock
             loc := Function.update s.loc t ⟨(s.loc t).uses, some (bwaitStep enablePgtable N s.bar pc).2.2⟩ } := by
  unfold BarrierState.step at h
  split at h
  · next hpc => exact .inl ⟨hpc, (Option.some.inj h).symm⟩
  · next hpc => exact .inr (.inl ⟨hpc, (Option.some.inj h).symm⟩)
  · next pc hne hpc =>
    dsimp only at h
    split at h
    · cases h
    · next hl =>
      exact .inr (.inr ⟨pc, hpc, fun he => hne he,
        fun hop => Classical.byContradiction fun hn => hl ⟨hop, hn⟩, (Option.some.inj h).symm⟩)

/-- The lock is held by who is inside it. -/
theorem lock_step {lock : Option (Fin N)} {loc : Fin N → Loc} (h : ∀ i, lock = some i ↔ (loc i).critical = true)
    {n sz : Nat} {bar : Bar} {pc : BwaitPc} (ht : loc t = ⟨n, some pc⟩)
    (hfree : (bwaitStep enablePgtable sz bar pc).2.1 = .acquire → lock = none) (i : Fin N) :
    (bwaitStep enablePgtable sz bar pc).2.1.apply t lock = some i ↔
      (Function.update loc t ⟨n, some (bwaitStep enablePgtable sz bar pc).2.2⟩ i).critical = true := by
  have hstep := bwaitStep_critical enablePgtable sz bar pc
  have hpc : (loc t).critical = pc.critical := by rw [ht]; rfl
  have hself : ∀ pc' : BwaitPc, (⟨n, some pc'⟩ : Loc).critical = pc'.critical := fun _ => rfl
  by_cases hi : i = t
  · subst hi
    rw [Function.update_self, hself]
    cases hop : (bwaitStep enablePgtable sz bar pc).2.1 <;> rw [hop] at hstep
    · rw [LockOp.apply, h, hpc, hstep]
    · simp [LockOp.apply, hstep.2]
    · simp [LockOp.apply, hstep.2]
  · rw [Function.update_of_ne hi, ← h]
    cases hop : (bwaitStep enablePgtable sz bar pc).2.1 <;> rw [hop] at hstep
    · rfl
    · rw [hfree hop]
      simp [LockOp.apply, Ne.symm hi]
    · have : lock = some t := (h t).mpr (hpc.trans hstep.1)
      simp [LockOp.apply, this, Ne.symm hi]

/-- Whoever makes the barrier full opens it before anything else. -/
theorem full_step {sz g : Nat} {bar : Bar} {n : Nat} {pc : BwaitPc} (hsz : 0 < sz)
    (hok : PcOk enablePgtable sz g bar ⟨n, some pc⟩)
    (hs : (bwaitStep enablePgtable sz bar pc).1.currentState = false)
    (hw : (bwaitStep enablePgtable sz bar pc).1.waiting = sz) :
    (bwaitStep enablePgtable sz bar pc).2.2 = .checkFull ∨ (bwaitStep enablePgtable sz bar pc).2.2 = .setState ∨
      bar.currentState = false ∧ bar.waiting = sz ∧ pc ≠ .checkFull ∧ pc ≠ .setState := by
  cases hc : bar.currentState with
  | false => cases pc <;> simp_all [PcOk, bwaitStep]
  | true => cases pc <;> simp_all [PcOk, bwaitStep]

/-- A step outside of the lock that leaves the barrier as it is. -/
theorem RoundInv.quiet (hinv : RoundInv enablePgtable s) {l : Loc}
    (hbar : BarrierOk enablePgtable N s.bar (Function.update s.loc t l)) (ht : (s.loc t).critical = false)
    (hl : l.critical = false) : RoundInv enablePgtable { s with loc := Function.update s.loc t l } where
  bar := hbar
  lock i := by
    rw [hinv.lock i]
    by_cases hi : i = t
    · simp [hi, ht, hl]
    · simp [hi]
  full i hs hw := by
    obtain ⟨k, hk⟩ := hinv.full i hs hw
    have hkt : k ≠ t := by
      rintro rfl
      rcases hk with hk | hk <;> simp [Loc.critical, hk, BwaitPc.critical] at ht
    exact ⟨k, by simpa [hkt] using hk⟩

/-- A step keeps the invariant. -/
theorem roundInv_step (hinv : RoundInv enablePgtable s) (h : s.step enablePgtable t = some s') :
    RoundInv enablePgtable s' := by
  have hloc : ∀ pc, (s.loc t).pc = pc → s.loc t = ⟨(s.loc t).uses, pc⟩ := by
    rintro pc rfl
    rfl
  rcases BarrierState.step_cases h with ⟨hpc, rfl⟩ | ⟨hpc, rfl⟩ | ⟨pc, hpc, hne, hfree, rfl⟩
  · exact hinv.quiet (hinv.bar.enter (hloc _ hpc)) (by simp [Loc.critical, hpc]) rfl
  · exact hinv.quiet (hinv.bar.leave (hloc _ hpc)) (by simp [Loc.critical, hpc, BwaitPc.critical]) rfl
  · obtain ⟨g, hg⟩ := hinv.bar
    have hok := hg.pc t
    rw [hloc _ hpc] at hok
    refine ⟨hinv.bar.step (by simp) (hloc _ hpc) fun hop i => ?_, lock_step hinv.lock (hloc _ hpc) hfree,
      fun i hs hw => ?_⟩
    · have hl := hinv.lock i
      rw [hfree hop] at hl
      rw [← Bool.not_eq_true]
      exact fun hc => by cases hl.mpr hc
    · rcases full_step i.pos hok hs hw with hf | hf | ⟨hs', hw', hf, hset⟩
      · exact ⟨t, .inl (by simp [hf])⟩
      · exact ⟨t, .inr (by simp [hf])⟩
      · obtain ⟨k, hk⟩ := hinv.full i hs' hw'
        refine ⟨k, ?_⟩
        have hkt : k ≠ t := by
          rintro rfl
          rw [hpc] at hk
          simp [hf, hset] at hk
        simpa [hkt] using hk

/-- The invariant holds in every run. -/
theorem roundInv_reachable (h : BarrierReachable enablePgtable s) : RoundInv enablePgtable s :=
  h.inv (fun _ hs => hs ▸ roundInv_init) fun _ _ hi ⟨_, hs⟩ => roundInv_step hi hs

end Inv

/-! ## Progress -/

/-- How many accesses a thread has to make before it is out of the barrier, and of the lock. -/
def BwaitPc.left : BwaitPc → Nat
  | .acquire => 17
  | .checkState => 16
  | .retryRelease => 17
  | .retryAcquire => 16
  | .checkWaiting => 15
  | .readIteration => 14
  | .writeIteration _ => 13
  | .clearState => 12
  | .readWaiting => 11
  | .writeWaiting _ => 10
  | .checkFull => 9
  | .setState => 8
  | .release => 7
  | .readIter => 6
  | .spinState _ => 5
  | .decAcquire _ => 4
  | .decRead _ => 3
  | .decWrite _ _ => 2
  | .decAtomic _ | .decRelease _ => 1
  | .spinIteration _ | .spinWaiting _ | .done => 0

/-- The same for round `k`. -/
def Loc.left (k : Nat) (l : Loc) : Nat := if k ≤ l.uses then 0 else l.pc.elim 0 BwaitPc.left

section Progress

variable {N k : Nat} {enablePgtable : Bool} {s s' : BarrierState N} {t : Fin N} {sz g : Nat} {bar : Bar} {l : Loc}

/-- An access brings a thread nearer to its exit, unless it waits for the barrier to open. -/
theorem bwaitStep_left {n : Nat} {pc : BwaitPc} (hok : PcOk enablePgtable sz g bar ⟨n, some pc⟩) (hl : 0 < pc.left)
    (hopen : ∀ iter, pc = .spinState iter → bar.currentState = true) :
    (bwaitStep enablePgtable sz bar pc).2.2.left < pc.left := by
  cases hs : bar.currentState <;> cases pc <;> simp_all [PcOk, bwaitStep, BwaitPc.left] <;> split_ifs <;> simp

theorem BwaitPc.left_of_critical {pc : BwaitPc} (h : pc.critical = true) : 0 < pc.left := by
  cases pc <;> simp_all [BwaitPc.left, BwaitPc.critical]

/-- The round of a thread that holds the lock. -/
theorem PcOk.critical_uses (h : PcOk enablePgtable sz g bar l) (hc : l.critical = true) :
    l.uses = g ∨ bar.currentState = true ∧ l.uses = g + 1 ∧ bar.waiting = 0 := by
  obtain ⟨uses, _ | pc⟩ := l
  · cases hc
  · cases hs : bar.currentState <;> cases pc <;> simp_all [PcOk, Loc.critical, BwaitPc.critical]

/-- The round of a thread that is not out of the barrier. -/
theorem PcOk.left_uses {n : Nat} {pc : BwaitPc} (h : PcOk enablePgtable sz g bar ⟨n, some pc⟩) (hl : 0 < pc.left) :
    n = g ∧ (bar.currentState = true → pc.inside = true ∨ pc.critical = true) ∨
      bar.currentState = true ∧ n = g + 1 := by
  cases hs : bar.currentState <;> cases pc <;> simp_all [PcOk, BwaitPc.left, BwaitPc.inside, BwaitPc.critical]

/-- A thread that is to be collected in the generation. -/
theorem PcOk.collecting (h : PcOk enablePgtable sz g bar l) (hs : bar.currentState = false) (hent : g < l.entered) :
    l.uses = g ∧ ∃ pc, l.pc = some pc ∧ 0 < pc.left := by
  obtain ⟨uses, _ | pc⟩ := l
  · simp_all [PcOk, Loc.entered]
  · cases pc <;> simp_all [PcOk, Loc.entered, BwaitPc.left]

/-- A thread that is counted in the generation. -/
theorem PcOk.inside_left (h : PcOk enablePgtable sz g bar l) (hin : l.inside = true) :
    l.uses = g ∧ ∃ pc, l.pc = some pc ∧ 0 < pc.left := by
  obtain ⟨uses, _ | pc⟩ := l
  · cases hin
  · cases hs : bar.currentState <;> cases pc <;> simp_all [PcOk, Loc.inside, BwaitPc.inside, BwaitPc.left]

/-- A thread that is out of a barrier that is still open. -/
theorem PcOk.out_uses {n : Nat} {pc : BwaitPc} (h : PcOk enablePgtable sz g bar ⟨n, some pc⟩) (hl : pc.left = 0)
    (hs : bar.currentState = true) : n = g := by
  cases pc <;> simp_all [PcOk, BwaitPc.left]

theorem Loc.left_pos (h : 0 < l.left k) : l.uses < k ∧ ∃ pc, l.pc = some pc ∧ 0 < pc.left := by
  unfold Loc.left at h
  split at h
  · omega
  · next hk =>
    cases hpc : l.pc with
    | none => simp [hpc] at h
    | some pc =>
      rw [hpc] at h
      exact ⟨by omega, pc, rfl, h⟩

/-- While somebody holds the lock, it is somebody who is not out of the round either. -/
theorem RoundInv.holder (hinv : RoundInv enablePgtable s) {i : Fin N} (hi : 0 < (s.loc i).left k) (ht : s.lock = some t) : (s.loc t).uses < k := by
  obtain ⟨g, hg⟩ := hinv.bar
  have hc := (hinv.lock t).mp ht
  obtain ⟨huses, pc, hpc, hleft⟩ := Loc.left_pos hi
  have hok := hg.pc i
  have hloc : s.loc i = ⟨(s.loc i).uses, some pc⟩ := by rw [← hpc]
  rw [hloc] at hok
  by_contra hge
  have hround := (hg.pc t).critical_uses hc
  rcases hok.left_uses hleft with ⟨hgi, hin⟩ | ⟨hs, hgi⟩
  · obtain ⟨hs, -, hw⟩ : s.bar.currentState = true ∧ (s.loc t).uses = g + 1 ∧ s.bar.waiting = 0 :=
      hround.resolve_left (by omega)
    rcases hin hs with hin | hcrit
    · have : 0 < s.bar.waiting := hg.waiting_pos (t := i) (by rw [hloc]; exact hin)
      omega
    · obtain rfl : i = t := hg.critical i t (by rw [hloc]; exact hcrit) hc
      omega
  · omega

/-- The thread that can go on. -/
theorem RoundInv.exists_mover (hinv : RoundInv enablePgtable s) (hent : ∀ i, k ≤ (s.loc i).entered) {i : Fin N}
    (hi : 0 < (s.loc i).left k) :
    ∃ t pc, (s.loc t).uses < k ∧ (s.loc t).pc = some pc ∧ 0 < pc.left ∧
      (∀ iter, pc = .spinState iter → s.bar.currentState = true) ∧
      ((bwaitStep enablePgtable N s.bar pc).2.1 = .acquire → s.lock = none) := by
  cases hl : s.lock with
  | some t =>
    have hc := (hinv.lock t).mp hl
    unfold Loc.critical at hc
    cases hpc : (s.loc t).pc with
    | none => simp [hpc] at hc
    | some pc =>
      rw [hpc] at hc
      replace hc : pc.critical = true := hc
      refine ⟨t, pc, hinv.holder hi hl, hpc, BwaitPc.left_of_critical hc, ?_, fun hop => ?_⟩
      · rintro iter rfl
        cases hc
      · have := bwaitStep_critical enablePgtable N s.bar pc
        rw [hop] at this
        rw [hc] at this
        cases this.1
  | none =>
    obtain ⟨huses, pc, hpc, hleft⟩ := Loc.left_pos hi
    by_cases hspin : ∀ iter, pc = .spinState iter → s.bar.currentState = true
    · exact ⟨i, pc, huses, hpc, hleft, hspin, fun _ => rfl⟩
    -- `i` waits for the barrier to open: if all did, one of them would be about to open it
    simp only [not_forall, exists_prop, Bool.not_eq_true] at hspin
    obtain ⟨iter, rfl, hs⟩ := hspin
    obtain ⟨g, hg⟩ := hinv.bar
    have hgi : (s.loc i).uses = g := by
      rcases (hg.pc i).counts.2.2.1 hs with hd
      simpa [Loc.departed, Loc.after, hpc, BwaitPc.after] using hd
    have hcol : ∀ j, (s.loc j).uses = g ∧ ∃ pc, (s.loc j).pc = some pc ∧ 0 < pc.left := fun j =>
      (hg.pc j).collecting hs (by have := hent j; omega)
    by_contra hno
    have hall : ∀ j, ∃ iter, (s.loc j).pc = some (.spinState iter) := by
      intro j
      obtain ⟨hgj, pc, hpcj, hleftj⟩ := hcol j
      by_contra hne
      refine hno ⟨j, pc, by omega, hpcj, hleftj, fun iter he => ?_, fun _ => rfl⟩
      exact absurd ⟨iter, he ▸ hpcj⟩ hne
    have hwait : s.bar.waiting = N := by
      rw [hg.waiting, Finset.filter_true_of_mem, Finset.card_univ, Fintype.card_fin]
      intro j _
      obtain ⟨iter, hj⟩ := hall j
      simp [Loc.inside, hj, BwaitPc.inside]
    obtain ⟨j, hj⟩ := hinv.full i hs hwait
    obtain ⟨iter, hj'⟩ := hall j
    simp [hj'] at hj

/-- An access of the thread `t`. -/
theorem BarrierState.step_access {pc : BwaitPc} (hpc : (s.loc t).pc = some pc) (hdone : pc ≠ .done)
    (hop : (bwaitStep enablePgtable N s.bar pc).2.1 = .acquire → s.lock = none) :
    s.step enablePgtable t = some
      { bar := (bwaitStep enablePgtable N s.bar pc).1
        lock := (bwaitStep enablePgtable N s.bar pc).2.1.apply t s.lock
        loc := Function.update s.loc t ⟨(s.loc t).uses, some (bwaitStep enablePgtable N s.bar pc).2.2⟩ } := by
  unfold BarrierState.step
  rw [hpc]
  have hl : ¬((bwaitStep enablePgtable N s.bar pc).2.1 = .acquire ∧ s.lock ≠ none) := fun hn => hn.2 (hop hn.1)
  cases pc <;> first | exact absurd rfl hdone | exact if_neg hl

/-- A step does not undo that a round has been entered. -/
theorem BarrierState.entered_step (h : s.step enablePgtable t = some s') (i : Fin N) :
    (s.loc i).entered ≤ (s'.loc i).entered := by
  rcases BarrierState.step_cases h with ⟨hpc, rfl⟩ | ⟨hpc, rfl⟩ | ⟨pc, hpc, -, -, rfl⟩ <;> by_cases hi : i = t <;>
    simp_all [Loc.entered]

/-- **While not all threads are out of round `k`, one of them can go on.** -/
theorem RoundInv.progress (hinv : RoundInv enablePgtable s) (hent : ∀ i, k ≤ (s.loc i).entered)
    (hleft : ∃ i, 0 < (s.loc i).left k) :
    ∃ s', BarrierStep enablePgtable s s' ∧ RoundInv enablePgtable s' ∧
      ∑ i, (s'.loc i).left k < ∑ i, (s.loc i).left k := by
  obtain ⟨i, hi⟩ := hleft
  obtain ⟨t, pc, huses, hpc, hl, hspin, hop⟩ := hinv.exists_mover hent hi
  have hdone : pc ≠ .done := by
    rintro rfl
    cases hl
  have hstep := BarrierState.step_access hpc hdone hop
  obtain ⟨g, hg⟩ := hinv.bar
  have hok := hg.pc t
  have hloc : s.loc t = ⟨(s.loc t).uses, some pc⟩ := by rw [← hpc]
  rw [hloc] at hok
  have hlt := bwaitStep_left hok hl hspin
  have ht : (Loc.mk (s.loc t).uses (some (bwaitStep enablePgtable N s.bar pc).2.2)).left k < (s.loc t).left k := by
    rw [hloc]
    simpa [Loc.left, Nat.not_le.mpr huses] using hlt
  refine ⟨_, ⟨t, hstep⟩, roundInv_step hinv hstep, Finset.sum_lt_sum (fun j _ => ?_) ⟨t, Finset.mem_univ t, ?_⟩⟩
  · by_cases hj : j = t
    · subst hj
      simpa using ht.le
    · simp [hj]
  · simpa using ht

/-- The thread `i` can return from round `k`. -/
def CanReturn (enablePgtable : Bool) (k : Nat) (i : Fin N) (s : BarrierState N) : Prop :=
  ∃ s', Relation.ReflTransGen (BarrierStep enablePgtable) s s' ∧ k ≤ (s'.loc i).uses

/-- The loop of the slow release, from any of its places. -/
theorem canReturn_of_out {i : Fin N} {pc : BwaitPc} {n : Nat} (hi : s.loc i = ⟨n, some pc⟩) (hk : k ≤ n + 1)
    (hpc : pc.left = 0)
    (hout : s.bar.waiting = 0 ∨ ∀ iter, pc = .spinIteration iter ∨ pc = .spinWaiting iter → s.bar.iteration ≠ iter) :
    CanReturn enablePgtable k i s := by
  have hdone : ∀ s₁ : BarrierState N, s₁.loc i = ⟨n, some .done⟩ → CanReturn enablePgtable k i s₁ := by
    intro s₁ h₁
    refine ⟨_, .single ⟨i, by unfold BarrierState.step; rw [h₁]⟩, ?_⟩
    simpa using hk
  have hgo : ∀ (s₁ : BarrierState N) (pc₁ : BwaitPc), s₁.loc i = ⟨n, some pc₁⟩ → pc₁ ≠ .done →
      (bwaitStep enablePgtable N s₁.bar pc₁).2.1 = .keep →
      (∀ s₂ : BarrierState N, s₂.bar = (bwaitStep enablePgtable N s₁.bar pc₁).1 →
        s₂.loc i = ⟨n, some (bwaitStep enablePgtable N s₁.bar pc₁).2.2⟩ → CanReturn enablePgtable k i s₂) →
      CanReturn enablePgtable k i s₁ := by
    intro s₁ pc₁ h₁ hne hop h₂
    obtain ⟨s₂, hstep, hbar, hloc⟩ : ∃ s₂, s₁.step enablePgtable i = some s₂ ∧
        s₂.bar = (bwaitStep enablePgtable N s₁.bar pc₁).1 ∧
        s₂.loc i = ⟨n, some (bwaitStep enablePgtable N s₁.bar pc₁).2.2⟩ :=
      ⟨_, BarrierState.step_access (by rw [h₁]) hne (by simp [hop]), rfl, by simp [h₁]⟩
    obtain ⟨s', hrun, hk'⟩ := h₂ s₂ hbar hloc
    exact ⟨s', .head ⟨i, hstep⟩ hrun, hk'⟩
  cases pc with
  | done => exact hdone s hi
  | spinIteration iter =>
    refine hgo s _ hi (by simp) rfl fun s₁ hbar h₁ => ?_
    by_cases he : s.bar.iteration = iter
    · have hw : s.bar.waiting = 0 := hout.resolve_right fun h => h iter (.inl rfl) he
      simp only [bwaitStep, he, if_true] at h₁ hbar
      exact hgo s₁ _ h₁ (by simp) rfl fun s₂ _ h₂ => hdone s₂ (by simpa [bwaitStep, hbar, hw] using h₂)
    · exact hdone s₁ (by simpa [bwaitStep, he] using h₁)
  | spinWaiting iter =>
    refine hgo s _ hi (by simp) rfl fun s₁ hbar h₁ => ?_
    by_cases hw : s.bar.waiting = 0
    · exact hdone s₁ (by simpa [bwaitStep, hw] using h₁)
    · have he : s.bar.iteration ≠ iter := (hout.resolve_left hw) iter (.inr rfl)
      simp only [bwaitStep, hw, ne_eq, not_false_eq_true, if_true] at h₁ hbar
      exact hgo s₁ _ h₁ (by simp) rfl fun s₂ _ h₂ => hdone s₂ (by simpa [bwaitStep, hbar, he] using h₂)
  | _ => cases hpc

/-- **When all threads are out of round `k`, each can return from it.** -/
theorem RoundInv.exit (hinv : RoundInv enablePgtable s) (hent : ∀ i, k ≤ (s.loc i).entered)
    (hleft : ∀ i, (s.loc i).left k = 0) (i : Fin N) : CanReturn enablePgtable k i s := by
  by_cases hk : k ≤ (s.loc i).uses
  · exact ⟨s, .refl, hk⟩
  obtain ⟨g, hg⟩ := hinv.bar
  have hi := hent i
  cases hpc : (s.loc i).pc with
  | none =>
    simp only [Loc.entered, hpc, Option.isSome_none, Bool.false_eq_true, if_false] at hi
    exact absurd hi hk
  | some pc =>
    simp only [Loc.entered, hpc, Option.isSome_some, if_true] at hi
    have hloc : s.loc i = ⟨(s.loc i).uses, some pc⟩ := by rw [← hpc]
    have hl := hleft i
    simp only [Loc.left, hpc, hk, if_false, Option.elim_some] at hl
    have hok := hg.pc i
    rw [hloc] at hok
    apply canReturn_of_out hloc hi hl
    cases hs : s.bar.currentState with
    | false =>
      right
      have hiter : s.bar.iteration = g := hg.iteration_eq (t := i) (.inl hs)
      rintro iter (rfl | rfl)
      · simp only [PcOk, hs] at hok
        omega
      · simp only [PcOk, hs] at hok
        omega
    | true =>
      left
      have hgi : (s.loc i).uses = g := hok.out_uses hl hs
      rw [hg.waiting, Finset.card_eq_zero, Finset.filter_eq_empty_iff]
      intro j _ hin
      obtain ⟨hgj, pcj, hpcj, hlj⟩ := (hg.pc j).inside_left hin
      have hj := hleft j
      simp only [Loc.left, hpcj, Option.elim_some] at hj
      split at hj <;> omega

/-- **`bwait` is a reusable barrier.** A thread has returned from a call only if all have entered it, `waiting` counts
threads, and from every state in which all threads have entered round `k` each of them can return from it. -/
theorem bwait_correct (h : BarrierReachable enablePgtable s) :
    (∀ i j, (s.loc i).uses ≤ (s.loc j).entered) ∧ s.bar.waiting ≤ N ∧
      ∀ k, (∀ i, k ≤ (s.loc i).entered) → ∀ i, ∃ s',
        Relation.ReflTransGen (BarrierStep enablePgtable) s s' ∧ k ≤ (s'.loc i).uses := by
  have hinv := roundInv_reachable h
  refine ⟨fun i j => ?_, ?_, fun k hent i => ?_⟩
  · calc (s.loc i).uses ≤ (s.loc i).departed := by unfold Loc.departed; split <;> omega
      _ ≤ (s.loc j).arrived := hinv.bar.departed_le_arrived i j
      _ ≤ (s.loc j).entered := by
        obtain ⟨uses, _ | pc⟩ := s.loc j
        · simp [Loc.arrived, Loc.entered, Loc.inside, Loc.after]
        · simp only [Loc.arrived, Loc.entered, Option.isSome_some, if_true]
          split <;> omega
  · obtain ⟨g, hg⟩ := hinv.bar
    rw [hg.waiting]
    exact (Finset.card_le_univ _).trans_eq (Fintype.card_fin N)
  · have hstep : ∀ s : BarrierState N, RoundInv enablePgtable s ∧ (∀ i, k ≤ (s.loc i).entered) →
        ¬(∀ i, (s.loc i).left k = 0) → ∃ s', BarrierStep enablePgtable s s' ∧
          (RoundInv enablePgtable s' ∧ ∀ i, k ≤ (s'.loc i).entered) ∧
          ∑ i, (s'.loc i).left k < ∑ i, (s.loc i).left k := by
      rintro s ⟨hi, he⟩ hgoal
      obtain ⟨j, hj⟩ := not_forall.mp hgoal
      obtain ⟨s', ⟨t, ht⟩, hi', hlt⟩ := hi.progress he ⟨j, Nat.pos_of_ne_zero hj⟩
      exact ⟨s', ⟨t, ht⟩, ⟨hi', fun i => (he i).trans (BarrierState.entered_step ht i)⟩, hlt⟩
    obtain ⟨s₁, hrun, ⟨hinv₁, hent₁⟩, hleft⟩ := Reach.exists_of_measure _ hstep ⟨hinv, hent⟩
    obtain ⟨s₂, hrun₂, hk⟩ := hinv₁.exit hent₁ hleft i
    exact ⟨s₂, hrun.trans hrun₂, hk⟩

/-- One of two threads waits, the other has just called `bwait`: both can return. -/
theorem bwait_correct_two : ∃ s : BarrierState 2,
    Reach.run (BarrierState.step true) {} (List.replicate 9 0 ++ [1]) = some s ∧ s.bar.waiting = 1 ∧
      ∀ i, ∃ s', Relation.ReflTransGen (BarrierStep true) s s' ∧ 1 ≤ (s'.loc i).uses := by
  have hrun : (Reach.run (BarrierState.step true) ({} : BarrierState 2) (List.replicate 9 0 ++ [1])).any
      (fun s => decide (s.bar.waiting = 1 ∧ ∀ i, 1 ≤ (s.loc i).entered)) = true := by decide
  obtain ⟨s, hs, hp⟩ := (Option.any_eq_true _ _).mp hrun
  obtain ⟨hw, hent⟩ := of_decide_eq_true hp
  exact ⟨s, hs, hw, (bwait_correct (Reach.reachable_run (.init rfl) hs)).2.2 1 hent⟩

end Progress

end LitmusHarness
