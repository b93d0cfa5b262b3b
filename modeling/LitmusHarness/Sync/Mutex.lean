import LitmusHarness.Bitwise
import LitmusHarness.Lib.Exclusives
import Mathlib.Algebra.BigOperators.Group.Finset.Piecewise
import Mathlib.Algebra.Group.Nat.Defs
import Mathlib.Data.Fintype.Card

/-!
# The exclusive mutex: `mutex_lock` and `mutex_unlock` of `sync.c`

`__atomic_cas` and `__atomic_dec` are the loop of `Exclusives` with the update that each makes. A step is one
instruction; the `dsb` before the store is not one, as the accesses are in one order.

A CPU is inside from the store of its `mutex_lock` to the store of its `mutex_unlock`, and the word is 1 exactly as
long (`MutexAbsInv`). So no two are inside (`mutex_exclusive`), and as no wake-up is lost, each CPU can still get the
mutex from any state (`mutex_obtainable`).
-/

namespace LitmusHarness

open Exclusives

/-! ## The updates -/

/-- `__atomic_cas(va, old, new)`: what it stores at the value `x`, if it does not wait. -/
def atomicCas (old new x : U64) : Option U64 := if x = old then some new else none

/-- `__atomic_dec(va)`. -/
def atomicDec (x : U64) : Option U64 := some (x - 1)

def mutexLock : U64 → Option U64 := atomicCas 0 1

def mutexUnlock : U64 → Option U64 := atomicCas 1 0

/-- The next call of a CPU. -/
inductive MutexCall
  | lock
  | unlock
  deriving DecidableEq, Repr

/-- CPUs that lock and unlock one `mutex_t`, any number of times each. -/
def mutexProg : Prog U64 MutexCall where
  update
    | .lock => mutexLock
    | .unlock => mutexUnlock
  next
    | .lock => .unlock
    | .unlock => .lock

/-! ## The mutex -/

section Mutex

variable {ι : Type} [DecidableEq ι]

/-- A mutex that is not locked, and no CPU inside. -/
def mutexInit (ι : Type) : Abs ι U64 MutexCall where
  val := 0
  loc _ := .lock

/-- The states of the mutex in all interleavings. -/
def MutexReachable : State ι U64 MutexCall → Prop := Reachable mutexProg (mutexInit ι)

/-- The states in all interleavings in which reservations are only lost to stores. -/
def MutexReachableKept : State ι U64 MutexCall → Prop := ReachableKept mutexProg (mutexInit ι)

/-- `mutex_lock` of the CPU has stored, and no `mutex_unlock` after it. -/
def MutexInside (s : State ι U64 MutexCall) (i : ι) : Prop := (s.abs mutexProg).loc i = .unlock

/-- Nobody is inside and the word is 0, or one is and the word is 1. -/
def MutexAbsInv (a : Abs ι U64 MutexCall) : Prop :=
  (a.val = 0 ∧ ∀ i, a.loc i = .lock) ∨ a.val = 1 ∧ ∃ i, ∀ j, a.loc j = .unlock ↔ j = i

theorem mutexProg_update_eq_some {l : MutexCall} {x v : U64} (h : mutexProg.update l x = some v) :
    (l = .lock ∧ x = 0 ∧ v = 1) ∨ l = .unlock ∧ x = 1 ∧ v = 0 := by
  cases l with
  | lock =>
    simp only [mutexProg, mutexLock, atomicCas, Option.ite_none_right_eq_some, Option.some.injEq] at h
    exact .inl ⟨rfl, h.1, h.2.symm⟩
  | unlock =>
    simp only [mutexProg, mutexUnlock, atomicCas, Option.ite_none_right_eq_some, Option.some.injEq] at h
    exact .inr ⟨rfl, h.1, h.2.symm⟩

theorem MutexAbsInv.step {a a' : Abs ι U64 MutexCall} {i : ι} (hinv : MutexAbsInv a)
    (h : a.step mutexProg i = some a') : MutexAbsInv a' := by
  unfold Abs.step at h
  split at h
  · cases h
  · rename_i v hv
    obtain rfl := Option.some.inj h
    rcases mutexProg_update_eq_some hv with ⟨hl, hx, rfl⟩ | ⟨hl, hx, rfl⟩
    · have hall : ∀ j, a.loc j = .lock := by
        rcases hinv with ⟨-, h⟩ | ⟨h, -⟩
        · exact h
        · simp [hx] at h
      refine .inr ⟨rfl, i, fun j => ?_⟩
      by_cases hj : j = i <;> simp [hj, hall, mutexProg]
    · obtain ⟨k, hk⟩ : ∃ k, ∀ j, a.loc j = .unlock ↔ j = k := by
        rcases hinv with ⟨h, -⟩ | ⟨-, h⟩
        · simp [hx] at h
        · exact h
      obtain rfl := (hk i).mp hl
      refine .inl ⟨rfl, fun j => ?_⟩
      by_cases hj : j = i
      · simp [hj, hl, mutexProg]
      · cases hlj : a.loc j with
        | lock => simp [hj, hlj]
        | unlock => exact absurd ((hk j).mp hlj) hj

theorem mutexAbsInv_reachable {s : State ι U64 MutexCall} (h : MutexReachable s) :
    MutexAbsInv (s.abs mutexProg) :=
  Reach.Reachable.inv (fun _ h => h ▸ .inl ⟨rfl, fun _ => rfl⟩) (fun _ _ hi ⟨_, hs⟩ => hi.step hs) h.abs.1

variable {s s' : State ι U64 MutexCall} {i j : ι}

/-- While a CPU is inside, the word is 1 and the other CPUs are not inside. -/
theorem MutexReachable.of_inside (h : MutexReachable s) (hi : MutexInside s i) :
    s.val = 1 ∧ ∀ j, MutexInside s j ↔ j = i := by
  rcases mutexAbsInv_reachable h with ⟨-, hall⟩ | ⟨hv, k, hk⟩
  · rw [MutexInside, hall i] at hi
    cases hi
  · obtain rfl := (hk i).mp hi
    exact ⟨hv, hk⟩

/-- A CPU that is inside has read nothing but 1 in its `mutex_unlock`. -/
def UnlockReads (s : State ι U64 MutexCall) (i : ι) : Prop :=
  s.loc i = .unlock → s.pc i ≠ .clrex ∧ ∀ x, s.pc i = .test x → x = 1

omit [DecidableEq ι] in
theorem inside_of_unlock (hl : s.loc i = .unlock) (hp : s.pc i ≠ .sev) : MutexInside s i := by
  have : (s.pc i).stored = false := by
    cases h : s.pc i <;> first | rfl | exact absurd h hp
  simp [MutexInside, State.abs, this, hl]

theorem UnlockReads.step_self (hr : MutexReachable s) (hu : UnlockReads s i) (h : s.step mutexProg i = some s') :
    UnlockReads s' i := by
  intro hl
  unfold State.step at h
  cases hp : s.pc i with
  | ldxr =>
    simp only [hp, Option.some.injEq] at h
    subst h
    have hval := (hr.of_inside (inside_of_unlock hl (by simp [hp]))).1
    simp [hval]
  | test x =>
    simp only [hp, Option.some.injEq] at h
    subst h
    have hx := (hu hl).2 x hp
    subst hx
    have hb : mutexProg.branch (s.loc i) 1 = .stxr 1 0 := by
      rw [show s.loc i = .unlock from hl]
      rfl
    simp only [Function.update_self, hb, reduceCtorEq, ne_eq, not_false_eq_true, false_implies, implies_true, and_self]
  | wfe =>
    simp only [hp, Option.ite_none_right_eq_some, Option.some.injEq] at h
    obtain ⟨-, rfl⟩ := h
    simp
  | stxr x v =>
    simp only [hp] at h
    split at h <;> cases h <;> simp
  | start | clrex | sev =>
    simp only [hp, Option.some.injEq] at h
    subst h
    simp

theorem unlockReads_reachable (h : MutexReachable s) : ∀ i, UnlockReads s i := by
  refine (Reach.Reachable.inv (I := fun s => MutexReachable s ∧ ∀ i, UnlockReads s i) ?_ ?_ h).2
  · intro s hs
    exact ⟨.init hs, fun i _ => by simp [hs.2.2]⟩
  · rintro s s' ⟨hr, hu⟩ ⟨x, hx⟩
    refine ⟨hr.step ⟨x, hx⟩, fun k => ?_⟩
    cases x with
    | step i =>
      by_cases hk : k = i
      · subst hk
        exact (hu k).step_self hr hx
      · have hpc := State.step_pc_other hx hk
        intro hl
        rw [hpc]
        refine hu k ?_
        rcases State.step_cases hx with ⟨-, hloc, -⟩ | ⟨x, v, -, -, -, -, hloc, -⟩ | ⟨-, -, -, hloc, -⟩
        · rwa [hloc] at hl
        · rwa [hloc] at hl
        · rwa [hloc, Function.update_of_ne hk] at hl
    | lose i | wake i =>
      obtain rfl := Option.some.inj hx
      exact hu k

/-- **Mutual exclusion.** While a CPU is inside no other one is, the word is 1, and its `mutex_unlock` does not wait
for another value. -/
theorem mutex_exclusive (h : MutexReachable s) (hi : MutexInside s i) :
    s.val = 1 ∧ (∀ j, MutexInside s j → j = i) ∧ (s.loc i = .unlock → s.pc i ≠ .clrex) :=
  ⟨(h.of_inside hi).1, fun j hj => ((h.of_inside hi).2 j).mp hj, fun hl => (unlockReads_reachable h i hl).1⟩

/-- Nobody has to be inside for ever. -/
theorem MutexAbsInv.exists_lock {a : Abs ι U64 MutexCall} (hinv : MutexAbsInv a) (i : ι) :
    ∃ b, Relation.ReflTransGen (fun b b' => ∃ i, b.step mutexProg i = some b') a b ∧ b.loc i = .unlock := by
  have hlock : ∀ a : Abs ι U64 MutexCall, a.val = 0 → (∀ j, a.loc j = .lock) →
      ∃ b, (∃ i, a.step mutexProg i = some b) ∧ b.loc i = .unlock := fun a hv hl =>
    ⟨_, ⟨i, by simp only [Abs.step, hl, hv]; rfl⟩, by simp [mutexProg]⟩
  rcases hinv with ⟨hv, hl⟩ | ⟨hv, k, hk⟩
  · obtain ⟨b, hs, hb⟩ := hlock a hv hl
    exact ⟨b, .single hs, hb⟩
  · -- the CPU that is inside goes first
    have hk' := (hk k).mpr rfl
    obtain ⟨a', hs, hv₀⟩ : ∃ a', a.step mutexProg k = some a' ∧ a'.val = 0 := by
      simp only [Abs.step, hk', hv]
      exact ⟨_, rfl, rfl⟩
    rcases MutexAbsInv.step (.inr ⟨hv, k, hk⟩) hs with ⟨hv', hl'⟩ | ⟨hv', -⟩
    · obtain ⟨b, hs', hb⟩ := hlock a' hv' hl'
      exact ⟨b, .head ⟨k, hs⟩ (.single hs'), hb⟩
    · simp [hv₀] at hv'

/-- **No lost wake-up.** From every state of a run in which reservations are only lost to stores, every CPU can still
get the mutex: the CPUs have steps to a state in which its `mutex_lock` has returned. -/
theorem mutex_obtainable (h : MutexReachableKept s) (i : ι) :
    ∃ s', Run mutexProg s s' ∧ MutexInside s' i ∧ s'.loc i = .unlock := by
  obtain ⟨b, hb, hi⟩ := (mutexAbsInv_reachable h.reachable).exists_lock i
  obtain ⟨s', hrun, hs', rfl⟩ := ReachableKept.exists_run_abs h hb
  by_cases hp : s'.pc i = .sev
  · -- it has to signal before it returns
    have hl : s'.loc i = .lock := by
      cases hl : s'.loc i with
      | lock => rfl
      | unlock => simp [State.abs, hp, Pc.stored, hl, mutexProg] at hi
    refine ⟨_, hrun.tail ⟨i, by simp only [State.step, hp]; rfl⟩, ?_, ?_⟩
    · simp [MutexInside, State.abs, Pc.stored, hl, mutexProg]
    · simp [hl, mutexProg]
  · refine ⟨s', hrun, hi, ?_⟩
    have : (s'.pc i).stored = false := by
      cases h : s'.pc i <;> first | rfl | exact absurd h hp
    simpa [State.abs, this] using hi

/-- Two CPUs read 0; one of them stores, so that the other one has to wait. -/
theorem mutex_exclusive_two : ∃ s : State (Fin 2) U64 MutexCall, MutexReachable s ∧ MutexInside s 0 ∧
    s.pc 1 = .clrex ∧ s.val = 1 ∧ ∀ j, MutexInside s j → j = 0 := by
  have hrun : (Reach.run (State.act mutexProg)
      { val := 0, loc := fun _ => .lock : State (Fin 2) U64 MutexCall }
      ([0, 1, 0, 1, 0, 1, 0, 1, 0, 1, 0, 1, 1, 1].map .step)).any
      (fun s => decide (s.pc 1 = .clrex ∧ (s.abs mutexProg).loc 0 = .unlock)) = true := by decide
  obtain ⟨s, hs, hp⟩ := (Option.any_eq_true _ _).mp hrun
  obtain ⟨h₁, hi⟩ := of_decide_eq_true hp
  have hr : MutexReachable s := Reach.reachable_run (.init ⟨rfl, rfl, fun _ => rfl⟩) hs
  exact ⟨s, hr, hi, h₁, (mutex_exclusive hr hi).1, (mutex_exclusive hr hi).2.1⟩

/-- The second CPU sleeps, as it could not store; the first one has still to signal. -/
theorem mutex_obtainable_two : ∃ s : State (Fin 2) U64 MutexCall, MutexReachableKept s ∧
    s.step mutexProg 1 = none ∧ ∃ s', Run mutexProg s s' ∧ MutexInside s' 1 ∧ s'.loc 1 = .unlock := by
  have hrun : (Reach.run (State.step mutexProg) { val := 0, loc := fun _ => .lock : State (Fin 2) U64 MutexCall }
      [0, 1, 0, 1, 0, 1, 0, 1, 0, 1]).any (fun s => (s.step mutexProg 1).isNone) = true := by decide
  obtain ⟨s, hs, hp⟩ := (Option.any_eq_true _ _).mp hrun
  have hr : MutexReachableKept s :=
    (Reach.reachable_run (.init ⟨rfl, rfl, fun _ => rfl⟩) hs).mono fun _ _ ⟨i, h⟩ => ⟨.step i, by simp, h⟩
  exact ⟨s, hr, Option.isNone_iff_eq_none.mp hp, mutex_obtainable hr 1⟩

end Mutex

/-! ## Decrements -/

section Dec

variable {ι : Type} [DecidableEq ι]

/-- CPUs that call `__atomic_dec` for one word, any number of times each; the location is the number of calls. -/
def decProg : Prog U64 Nat where
  update _ := atomicDec
  next n := n + 1

def decInit (ι : Type) (v : U64) : Abs ι U64 Nat where
  val := v
  loc _ := 0

/-- How often `__atomic_dec` of the CPU has stored. -/
def decremented (s : State ι U64 Nat) (i : ι) : Nat := (s.abs decProg).loc i

theorem decProg_step (a : Abs ι U64 Nat) (i : ι) :
    a.step decProg i = some { val := a.val - 1, loc := Function.update a.loc i (a.loc i + 1) } := rfl

/-- In every interleaving the word is what it was before, less the number of decrements that have stored. -/
theorem decremented_sum [Fintype ι] {v : U64} {s : State ι U64 Nat} (h : Reachable decProg (decInit ι v) s) :
    s.val + BitVec.ofNat 64 (∑ i, decremented s i) = v := by
  refine Reach.Reachable.inv (I := fun a : Abs ι U64 Nat => a.val + BitVec.ofNat 64 (∑ i, a.loc i) = v) ?_ ?_ h.abs.1
  · rintro a rfl
    simp [decInit]
  · rintro a a' ha ⟨i, hs⟩
    rw [decProg_step, Option.some.injEq] at hs
    subst hs
    have hsum : ∑ j, Function.update a.loc i (a.loc i + 1) j = ∑ j, a.loc j + 1 := by
      rw [Finset.sum_update_of_mem (Finset.mem_univ i), ← Finset.add_sum_erase _ _ (Finset.mem_univ i)]
      simp [Finset.sdiff_singleton_eq_erase]
      omega
    rw [hsum, ← ha, BitVec.ofNat_add]
    simp only
    grind

/-- **No decrement is lost or made twice.** While the CPUs that are released from a barrier make one decrement each, in
any interleaving, the word is the number of CPUs that have not made theirs. -/
theorem atomicDec_release [Fintype ι] {s : State ι U64 Nat} (hn : Fintype.card ι < 2 ^ 64)
    (h : Reachable decProg (decInit ι (BitVec.ofNat 64 (Fintype.card ι))) s) (hone : ∀ i, decremented s i ≤ 1) :
    s.val.toNat = (Finset.univ.filter fun i => decremented s i = 0).card := by
  have hsum := decremented_sum h
  have hcard : ∑ i, decremented s i + (Finset.univ.filter fun i => decremented s i = 0).card = Fintype.card ι := by
    rw [Finset.card_filter, ← Finset.sum_add_distrib, ← Finset.card_univ, Finset.card_eq_sum_ones]
    refine Finset.sum_congr rfl fun i _ => ?_
    have := hone i
    split <;> omega
  rw [← hcard] at hsum hn
  have hval : s.val = BitVec.ofNat 64 (Finset.univ.filter fun i => decremented s i = 0).card := by
    rw [BitVec.ofNat_add] at hsum
    grind
  rw [hval, BitVec.toNat_ofNat, Nat.mod_eq_of_lt (by omega)]

/-- Of two CPUs that read 2 one stores and the other one is refused, so that 1 is left. -/
theorem atomicDec_release_two : ∃ s : State (Fin 2) U64 Nat, s.pc 0 = .sev ∧ s.pc 1 = .wfe ∧
    s.val.toNat = (Finset.univ.filter fun i => decremented s i = 0).card := by
  have hrun : (Reach.run (State.act decProg) { val := 2, loc := fun _ => 0 : State (Fin 2) U64 Nat }
      ([0, 1, 0, 1, 0, 1, 0, 1, 0, 1].map .step)).any
      (fun s => decide (s.pc 0 = .sev ∧ s.pc 1 = .wfe ∧ ∀ i, decremented s i ≤ 1)) = true := by decide
  obtain ⟨s, hs, hp⟩ := (Option.any_eq_true _ _).mp hrun
  obtain ⟨h₀, h₁, hone⟩ := of_decide_eq_true hp
  exact ⟨s, h₀, h₁, atomicDec_release (by decide) (Reach.reachable_run (.init ⟨rfl, rfl, fun _ => rfl⟩) hs) hone⟩

end Dec

end LitmusHarness
