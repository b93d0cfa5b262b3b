import Mathlib.Algebra.Group.Nat.Defs
import LitmusHarness.Lib.Reach
import Mathlib.Logic.Function.Basic

/-!
# The bakery lock: `lamport_lock` of `sync.c`

`N` CPUs that lock and unlock one `lamport_lock_t`, any number of times each. A step is one access to the lock; the
fences do nothing, as the accesses of all CPUs are in one order. The main result is `lamport_mutex`.

The invariant relates two CPUs. What `j` can rely on about the number of `k` is `LamportPc.Behind`; it is stable
because a number that `k` draws later is above that of `j`: once `j` has seen that `k` is not entering
(`LamportPc.seen`), the scan of `k` will have passed the number of `j` (`LamportPc.ScanOk`).
-/

namespace LitmusHarness

/-! ## The system -/

/-- The next access of a CPU, with the values it has read. -/
inductive LamportPc (N : Nat)
  /-- `entering[i] = 1`, if it calls `lamport_lock` -/
  | outside
  /-- `if (max_ticket < number[j])` of `get_ticket`, or behind its loop the write of `number[i]` -/
  | scan (j maxTicket : Nat)
  /-- `max_ticket = number[j]`, which reads it again -/
  | scanMax (j : Fin N)
  /-- `entering[i] = 0` -/
  | clearEntering
  /-- `while (entering[j])`, or behind the loop over `j` the return -/
  | waitEntering (j : Nat)
  /-- `number[j] != 0` -/
  | waitNumber (j : Fin N)
  /-- `number[j] < number[i]` of `lex_less` -/
  | lessLeft (j : Fin N)
  | lessRight (j : Fin N) (left : Nat)
  /-- `number[j] == number[i]` of `lex_less` -/
  | equalLeft (j : Fin N)
  | equalRight (j : Fin N) (left : Nat)
  /-- from the return of `lamport_lock` to `number[i] = 0` of `lamport_unlock` -/
  | critical
  deriving DecidableEq, Repr

/-- A `lamport_lock_t` and the CPUs. -/
structure LamportState (N : Nat) where
  entering : Fin N → Bool := fun _ => false
  number : Fin N → Nat := fun _ => 0
  pc : Fin N → LamportPc N := fun _ => .outside

section System

variable {N : Nat}

/-- The place after the access of CPU `i` at a place, if it is a read. -/
def LamportState.next (s : LamportState N) (i : Fin N) : LamportPc N → LamportPc N
  | .scan j maxTicket =>
    if h : j < N then
      if maxTicket < s.number ⟨j, h⟩ then .scanMax ⟨j, h⟩ else .scan (j + 1) maxTicket
    else .clearEntering
  | .scanMax j => .scan (j + 1) (s.number j)
  | .waitEntering j =>
    if h : j < N then
      if s.entering ⟨j, h⟩ then .waitEntering j else .waitNumber ⟨j, h⟩
    else .critical
  | .waitNumber j => if s.number j ≠ 0 then .lessLeft j else .waitEntering (j + 1)
  | .lessLeft j => .lessRight j (s.number j)
  | .lessRight j left => if left < s.number i then .waitNumber j else .equalLeft j
  | .equalLeft j => .equalRight j (s.number j)
  | .equalRight j left => if left = s.number i ∧ j < i then .waitNumber j else .waitEntering (j + 1)
  | .outside => .scan 0 0
  | .clearEntering => .waitEntering 0
  | .critical => .outside

/-- `entering` after the access of CPU `i`. -/
def LamportState.nextEntering (s : LamportState N) (i : Fin N) : Fin N → Bool :=
  match s.pc i with
  | .outside => Function.update s.entering i true
  | .clearEntering => Function.update s.entering i false
  | _ => s.entering

/-- `number` after the access of CPU `i`. -/
def LamportState.nextNumber (s : LamportState N) (i : Fin N) : Fin N → Nat :=
  match s.pc i with
  | .scan j maxTicket => if j < N then s.number else Function.update s.number i ((1 + maxTicket) % 2 ^ 32)
  | .critical => Function.update s.number i 0
  | _ => s.number

/-- The next access of CPU `i`. -/
def LamportState.step (s : LamportState N) (i : Fin N) : LamportState N where
  entering := s.nextEntering i
  number := s.nextNumber i
  pc := Function.update s.pc i (s.next i (s.pc i))

/-- The ticket that CPU `i` may be about to write is below 2^32. -/
def LamportState.noWrap (s : LamportState N) (i : Fin N) : Bool :=
  match s.pc i with
  | .scan j maxTicket => j < N || 1 + maxTicket < 2 ^ 32
  | _ => true

/-- The step of CPU `i`, if its ticket does not wrap. -/
def LamportState.stepNoWrap (s : LamportState N) (i : Fin N) : Option (LamportState N) :=
  if s.noWrap i then some (s.step i) else none

/-- The states of all runs in which no ticket wraps. -/
def LamportReachable (s : LamportState N) : Prop :=
  Reach.Reachable (· = {}) (fun s s' : LamportState N => ∃ i, s.stepNoWrap i = some s') s

end System

/-! ## What a CPU knows of another -/

section Know

variable {N : Nat}

namespace LamportPc

/-- The CPU is entering. -/
def doorway : LamportPc N → Bool
  | scan _ _ | scanMax _ | clearEntering => true
  | _ => false

/-- The CPU has a ticket. -/
def ticketed : LamportPc N → Bool
  | outside | scan _ _ | scanMax _ => false
  | _ => true

/-- With its ticket, the CPU has seen that `k` is not entering. -/
def seen (k : Fin N) : LamportPc N → Bool
  | waitEntering l => k < l
  | waitNumber l | lessLeft l | lessRight l _ | equalLeft l | equalRight l _ => k ≤ l
  | critical => true
  | _ => false

end LamportPc

/-- `j` with its ticket `nj` does not have to wait for `k`, whose number is `nk`. -/
def Before (j k : Fin N) (nj nk : Nat) : Prop := nk = 0 ∨ nj < nk ∨ nj = nk ∧ j < k

/-- What the CPU `j` with the ticket `nj` has found out about the number of `k`. -/
def LamportPc.Behind (j k : Fin N) (nj nk : Nat) : LamportPc N → Prop
  | waitEntering l => k < l → Before j k nj nk
  | waitNumber l | lessLeft l => k < l → Before j k nj nk
  | lessRight l left => (k < l → Before j k nj nk) ∧ (k = l → nk = left ∨ nk = 0 ∨ nj < nk)
  | equalLeft l => (k < l → Before j k nj nk) ∧ (k = l → nk = 0 ∨ nj ≤ nk)
  | equalRight l left =>
    (k < l → Before j k nj nk) ∧ (k = l → (nk = left ∨ nk = 0 ∨ nj < nk) ∧ (nk = 0 ∨ nj ≤ nk))
  | critical => Before j k nj nk
  | _ => True

/-- A CPU that draws its ticket does not miss the number of `j`. -/
def LamportPc.ScanOk (j : Fin N) (number : Fin N → Nat) : LamportPc N → Prop
  | scan l maxTicket => j < l → number j ≤ maxTicket
  | scanMax l => j < l → number j < number l
  | _ => True

/-- The invariant of the lock. -/
structure LamportInv (s : LamportState N) : Prop where
  entering : ∀ i, s.entering i = (s.pc i).doorway
  number : ∀ i, 0 < s.number i ↔ (s.pc i).ticketed = true
  behind : ∀ j k, j ≠ k → (s.pc j).Behind j k (s.number j) (s.number k)
  scan : ∀ j k, j ≠ k → (s.pc j).seen k = true → (s.pc k).ScanOk j s.number

theorem lamportInv_init : LamportInv (N := N) {} where
  entering _ := rfl
  number _ := by simp [LamportPc.ticketed]
  behind _ _ _ := trivial
  scan _ _ _ h := by cases h

/-- A CPU that has seen `k` has a ticket. -/
theorem LamportPc.ticketed_of_seen {k : Fin N} {p : LamportPc N} (h : p.seen k = true) : p.ticketed = true := by
  cases p <;> first | rfl | cases h

/-- What is known of a number stays true when it becomes 0 or goes above. -/
theorem LamportPc.Behind.mono {j k : Fin N} {nj nk nk' : Nat} {p : LamportPc N} (h : p.Behind j k nj nk)
    (hk : nk' = 0 ∨ nj < nk') : p.Behind j k nj nk' := by
  have hb : Before j k nj nk' := hk.imp_right .inl
  cases p <;> grind [Behind]

/-- What is known of `k` before it has been seen is nothing. -/
theorem LamportPc.behind_of_not_seen {j k : Fin N} {nj nk : Nat} {p : LamportPc N} (h : p.seen k = false) :
    p.Behind j k nj nk := by
  cases p <;> grind [seen, Behind]

end Know

/-! ## The invariant -/

section Inv

variable {N : Nat} {s : LamportState N} {i j k : Fin N}

@[simp] theorem LamportState.step_pc_self : (s.step i).pc i = s.next i (s.pc i) := Function.update_self ..

theorem LamportState.step_pc_other (h : j ≠ i) : (s.step i).pc j = s.pc j := Function.update_of_ne h ..

theorem LamportState.step_number_other (h : j ≠ i) : (s.step i).number j = s.number j := by
  cases hp : s.pc i with
  | scan l maxTicket => by_cases hl : l < N <;> simp [step, nextNumber, hp, hl, h]
  | critical => simp [step, nextNumber, hp, h]
  | _ => simp only [step, nextNumber, hp]

theorem LamportState.step_entering_other (h : j ≠ i) : (s.step i).entering j = s.entering j := by
  cases hp : s.pc i <;> simp [step, nextEntering, hp, h]

/-- What a step does to the numbers: the CPU draws a ticket, gives it back, or only reads. -/
theorem LamportState.step_cases (h : s.noWrap i = true) :
    (∃ l maxTicket, s.pc i = .scan l maxTicket ∧ N ≤ l ∧ (s.step i).pc i = .clearEntering ∧
      (s.step i).number i = 1 + maxTicket) ∨
    (s.pc i = .critical ∧ (s.step i).pc i = .outside ∧ (s.step i).number i = 0) ∨
    (s.step i).number = s.number ∧ ((s.step i).pc i).ticketed = (s.pc i).ticketed := by
  rw [step_pc_self]
  cases hp : s.pc i with
  | scan l maxTicket =>
    by_cases hl : l < N
    · refine .inr (.inr ?_)
      simp only [step, nextNumber, next, hp, hl, if_true, dif_pos]
      split <;> simp [LamportPc.ticketed]
    · refine .inl ⟨l, maxTicket, rfl, Nat.not_lt.mp hl, by simp [next, hl], ?_⟩
      simp only [noWrap, hp, hl, decide_false, Bool.false_or, decide_eq_true_eq] at h
      simp only [step, nextNumber, hp, hl, if_false, Function.update_self]
      exact Nat.mod_eq_of_lt h
  | critical => exact .inr (.inl (by simp [step, nextNumber, next, hp]))
  | _ =>
    refine .inr (.inr ?_)
    simp only [step, nextNumber, next, hp]
    refine ⟨trivial, ?_⟩
    repeat' split
    all_goals rfl

/-- The CPU that takes the step learns what it has to know. -/
theorem LamportState.behind_next (hne : j ≠ k) (h : (s.pc j).Behind j k (s.number j) (s.number k)) :
    (s.next j (s.pc j)).Behind j k (s.number j) (s.number k) := by
  have hlt : j < k ∨ k < j := by omega
  cases hp : s.pc j <;> rw [hp] at h <;> simp only [next] <;> grind [LamportPc.Behind, Before]

/-- A CPU sees that another is not entering when it reads that. -/
theorem LamportState.seen_next (h : (s.next j (s.pc j)).seen k = true) :
    (s.pc j).seen k = true ∨ s.entering k = false := by
  cases hp : s.pc j <;> rw [hp] at h <;> simp only [next] at h <;> grind [LamportPc.seen]

/-- The scan of `k` takes the number of `j` into account. -/
theorem LamportState.scanOk_next (h : (s.pc k).ScanOk j s.number) : (s.next k (s.pc k)).ScanOk j s.number := by
  cases hp : s.pc k <;> rw [hp] at h <;> simp only [next] <;> grind [LamportPc.ScanOk]

theorem LamportPc.scanOk_of_not_doorway {number : Fin N → Nat} {p : LamportPc N} (h : p.doorway = false) :
    p.ScanOk j number := by
  cases p <;> trivial

/-- A CPU that is in has no other one before it. -/
theorem LamportInv.before_of_critical (hinv : LamportInv s) (hi : s.pc i = .critical) (hne : i ≠ j) :
    Before i j (s.number i) (s.number j) := by
  have h := hinv.behind i j hne
  rwa [hi] at h

/-- The number that a scan is about to read again does not become smaller, while the CPU `j` has its ticket. -/
theorem LamportInv.scanMax_stable (hinv : LamportInv s) (hw : s.noWrap i = true) (hji : j ≠ i)
    (hj : 0 < s.number j) (h : s.number j < s.number i) : (s.step i).number i = s.number i := by
  rcases LamportState.step_cases hw with ⟨l, maxTicket, hp, -⟩ | ⟨hp, -⟩ | ⟨hn, -⟩
  · have := (hinv.number i).mp (by omega)
    rw [hp] at this
    cases this
  · have hb := hinv.before_of_critical hp hji.symm
    unfold Before at hb
    omega
  · rw [hn]

theorem lamportInv_step (hinv : LamportInv s) (hw : s.noWrap i = true) : LamportInv (s.step i) where
  entering k := by
    by_cases hk : k = i
    · subst hk
      have := hinv.entering k
      cases hp : s.pc k <;> simp only [hp] at this <;>
        simp only [LamportState.step, LamportState.nextEntering, LamportState.next, hp] <;>
        grind [LamportPc.doorway]
    · rw [LamportState.step_entering_other hk, LamportState.step_pc_other hk]
      exact hinv.entering k
  number k := by
    by_cases hk : k = i
    · subst hk
      rcases LamportState.step_cases hw with ⟨l, maxTicket, -, -, hp, hn⟩ | ⟨-, hp, hn⟩ | ⟨hn, ht⟩
      · rw [hp, hn]
        exact iff_of_true (by omega) rfl
      · rw [hp, hn]
        exact iff_of_false (Nat.lt_irrefl 0) Bool.false_ne_true
      · rw [hn, ht]
        exact hinv.number k
    · rw [LamportState.step_number_other hk, LamportState.step_pc_other hk]
      exact hinv.number k
  behind j k hne := by
    have h := hinv.behind j k hne
    by_cases hj : j = i
    · subst hj
      rw [LamportState.step_number_other hne.symm]
      rcases LamportState.step_cases hw with ⟨l, maxTicket, -, -, hp, -⟩ | ⟨-, hp, -⟩ | ⟨hn, -⟩
      · rw [hp]
        trivial
      · rw [hp]
        trivial
      · rw [hn, LamportState.step_pc_self]
        exact LamportState.behind_next hne h
    · rw [LamportState.step_pc_other hj, LamportState.step_number_other hj]
      by_cases hk : k = i
      · subst hk
        rcases LamportState.step_cases hw with ⟨l, maxTicket, hp, hl, -, hn⟩ | ⟨-, -, hn⟩ | ⟨hn, -⟩
        · cases hs : (s.pc j).seen k with
          | false => exact LamportPc.behind_of_not_seen hs
          | true =>
            -- the scan is complete, so that the new ticket is above the one of `j`
            have hscan := hinv.scan j k hne hs
            rw [hp] at hscan
            have : s.number j ≤ maxTicket := hscan (by omega)
            exact h.mono (.inr (by omega))
        · exact h.mono (.inl hn)
        · rwa [hn]
      · rwa [LamportState.step_number_other hk]
  scan j k hne hseen := by
    by_cases hj : j = i
    · subst hj
      rw [LamportState.step_pc_other hne.symm]
      rcases LamportState.step_cases hw with ⟨l, maxTicket, -, -, hp, -⟩ | ⟨-, hp, -⟩ | ⟨hn, -⟩
      · rw [hp] at hseen
        cases hseen
      · rw [hp] at hseen
        cases hseen
      · rw [hn]
        rw [LamportState.step_pc_self] at hseen
        rcases LamportState.seen_next hseen with hs | he
        · exact hinv.scan j k hne hs
        · exact LamportPc.scanOk_of_not_doorway ((hinv.entering k).symm.trans he)
    · rw [LamportState.step_pc_other hj] at hseen
      have h := hinv.scan j k hne hseen
      by_cases hk : k = i
      · subst hk
        rcases LamportState.step_cases hw with ⟨l, maxTicket, -, -, hp, -⟩ | ⟨-, hp, -⟩ | ⟨hn, -⟩
        · rw [hp]
          trivial
        · rw [hp]
          trivial
        · rw [hn, LamportState.step_pc_self]
          exact LamportState.scanOk_next h
      · rw [LamportState.step_pc_other hk]
        cases hp : s.pc k with
        | scan l maxTicket =>
          rw [hp] at h
          intro hl
          rw [LamportState.step_number_other hj]
          exact h hl
        | scanMax l =>
          rw [hp] at h
          intro hl
          have hlt : s.number j < s.number l := h hl
          have hpos := (hinv.number j).mpr (LamportPc.ticketed_of_seen hseen)
          rw [LamportState.step_number_other hj]
          by_cases hli : l = i
          · subst hli
            rwa [hinv.scanMax_stable hw hj hpos hlt]
          · rwa [LamportState.step_number_other hli]
        | _ => trivial

/-- Every run keeps the invariant. -/
theorem lamportInv_reachable (h : LamportReachable s) : LamportInv s := by
  refine Reach.Reachable.inv (fun s h => h ▸ lamportInv_init) (fun s s' hi hs => ?_) h
  obtain ⟨i, hs⟩ := hs
  rw [LamportState.stepNoWrap, Option.ite_none_right_eq_some, Option.some.injEq] at hs
  obtain ⟨hw, rfl⟩ := hs
  exact lamportInv_step hi hw

/-- **Mutual exclusion.** No two CPUs are between `lamport_lock` and `lamport_unlock` at a time. -/
theorem lamport_mutex (h : LamportReachable s) (hi : s.pc i = .critical) (hj : s.pc j = .critical) : i = j := by
  by_contra hne
  have hinv := lamportInv_reachable h
  have hij := hinv.before_of_critical hi hne
  have hji := hinv.before_of_critical hj (Ne.symm hne)
  have hposi := (hinv.number i).mpr (by rw [hi]; rfl)
  have hposj := (hinv.number j).mpr (by rw [hj]; rfl)
  -- each of the two would be before the other
  unfold Before at hij hji
  omega

/-- Two CPUs draw the same ticket; the second one is still waiting when the first one is in. -/
theorem lamport_mutex_two : ∃ s : LamportState 2, Reach.run LamportState.stepNoWrap {}
    ([0, 1, 0, 0, 1, 1, 0, 1, 0, 1] ++ List.replicate 13 0 ++ List.replicate 6 1) = some s ∧ s.number 0 = s.number 1 ∧
      s.pc 0 = .critical ∧ ∀ j, s.pc j = .critical → 0 = j := by
  have hrun : (Reach.run LamportState.stepNoWrap ({} : LamportState 2)
      ([0, 1, 0, 0, 1, 1, 0, 1, 0, 1] ++ List.replicate 13 0 ++ List.replicate 6 1)).any
      (fun s => decide (s.number 0 = s.number 1 ∧ s.pc 0 = .critical)) = true := by decide
  obtain ⟨s, hs, hp⟩ := (Option.any_eq_true _ _).mp hrun
  obtain ⟨hn, hc⟩ := of_decide_eq_true hp
  exact ⟨s, hs, hn, hc, fun j hj => lamport_mutex (Reach.reachable_run (.init rfl) hs) hc hj⟩

end Inv

end LitmusHarness
