import Mathlib.Order.Iterate
import Mathlib.Algebra.Group.Basic
import Mathlib.Algebra.Group.Nat.Defs

/-!
# Bump allocation

A bump allocator rounds its top up to the alignment of a request and moves it behind the block. The blocks of a list of
requests follow each other (`pairwise_blocks`), from the first top to the last (`mem_blocks`). If all alignments divide
a distance, then the same requests again move the top as far as from a top at that distance, so that they can be
repeated within that distance each if and only if they fit once (`repeat_le_iff`).
-/

namespace Bump

/-- `n` rounded up to a multiple of `2 ^ bits`. -/
def roundUp (n bits : Nat) : Nat := (n + (2 ^ bits - 1)) / 2 ^ bits * 2 ^ bits

/-- The distance to the next multiple of `2 ^ bits`. -/
def gap (n bits : Nat) : Nat := roundUp n bits - n

/-- `size` bytes at a multiple of `2 ^ bits`. -/
structure Request where
  bits : Nat
  size : Nat
  deriving DecidableEq

/-- The top after a request. -/
def after (top : Nat) (q : Request) : Nat := roundUp top q.bits + q.size

/-- The top after a list of requests. -/
def afterAll (qs : List Request) (top : Nat) : Nat := qs.foldl after top

/-- The start and the size of each block. -/
def blocks : List Request → Nat → List (Nat × Nat)
  | [], _ => []
  | q :: qs, top => (roundUp top q.bits, q.size) :: blocks qs (after top q)

/-! ## Rounding up -/

theorem le_roundUp (n bits : Nat) : n ≤ roundUp n bits := by
  have hpos := Nat.two_pow_pos bits
  have hdiv := Nat.div_add_mod (n + (2 ^ bits - 1)) (2 ^ bits)
  have hmod := Nat.mod_lt (n + (2 ^ bits - 1)) hpos
  rw [roundUp, Nat.mul_comm]
  omega

theorem roundUp_add_gap (n bits : Nat) : n + gap n bits = roundUp n bits :=
  Nat.add_sub_cancel' (le_roundUp n bits)

theorem dvd_roundUp (n bits : Nat) : 2 ^ bits ∣ roundUp n bits := Nat.dvd_mul_left _ _

theorem roundUp_of_dvd {n bits : Nat} (h : 2 ^ bits ∣ n) : roundUp n bits = n := by
  obtain ⟨k, rfl⟩ := h
  have hpos := Nat.two_pow_pos bits
  rw [roundUp, Nat.mul_add_div hpos, Nat.div_eq_of_lt (by omega), Nat.add_zero, Nat.mul_comm]

theorem roundUp_mono (bits : Nat) {n m : Nat} (h : n ≤ m) : roundUp n bits ≤ roundUp m bits :=
  Nat.mul_le_mul_right _ (Nat.div_le_div_right (Nat.add_le_add_right h _))

theorem roundUp_add {bits c : Nat} (h : 2 ^ bits ∣ c) (n : Nat) : roundUp (n + c) bits = roundUp n bits + c := by
  obtain ⟨k, rfl⟩ := h
  have hsum : n + 2 ^ bits * k + (2 ^ bits - 1) = n + (2 ^ bits - 1) + 2 ^ bits * k := by omega
  rw [roundUp, roundUp, hsum, Nat.add_mul_div_left _ _ (Nat.two_pow_pos bits), Nat.add_mul, Nat.mul_comm k]

/-- Rounding up within `2 ^ w` does not leave it on the way. -/
theorem add_lt_of_roundUp_lt {n bits w : Nat} (hbits : bits ≤ w) (h : roundUp n bits < 2 ^ w) :
    n + (2 ^ bits - 1) < 2 ^ w := by
  have hle := le_roundUp n bits
  obtain ⟨k, hk⟩ := dvd_roundUp n bits
  obtain ⟨m, hm⟩ := Nat.pow_dvd_pow 2 hbits
  rw [hk, hm] at h
  have hnext : 2 ^ bits * (k + 1) ≤ 2 ^ bits * m := Nat.mul_le_mul_left _ (Nat.lt_of_mul_lt_mul_left h)
  have hpos := Nat.two_pow_pos bits
  rw [Nat.mul_add_one, ← hk, ← hm] at hnext
  omega

/-! ## The top -/

theorem le_after (top : Nat) (q : Request) : top ≤ after top q := Nat.le_add_right_of_le (le_roundUp top q.bits)

theorem after_mono (q : Request) : Monotone (after · q) := fun _ _ h => Nat.add_le_add_right (roundUp_mono q.bits h) _

theorem after_add {q : Request} {c : Nat} (h : 2 ^ q.bits ∣ c) (top : Nat) : after (top + c) q = after top q + c := by
  rw [after, after, roundUp_add h, Nat.add_right_comm]

@[simp] theorem afterAll_nil (top : Nat) : afterAll [] top = top := rfl

@[simp] theorem afterAll_cons (q : Request) (qs : List Request) (top : Nat) :
    afterAll (q :: qs) top = afterAll qs (after top q) := rfl

theorem afterAll_append (qs qs' : List Request) (top : Nat) :
    afterAll (qs ++ qs') top = afterAll qs' (afterAll qs top) := List.foldl_append ..

theorem le_afterAll (qs : List Request) (top : Nat) : top ≤ afterAll qs top := by
  induction qs generalizing top with
  | nil => exact Nat.le_refl top
  | cons q qs ih => exact (le_after top q).trans (ih (after top q))

theorem afterAll_mono (qs : List Request) : Monotone (afterAll qs) := by
  induction qs with
  | nil => exact monotone_id
  | cons q qs ih => exact ih.comp (after_mono q)

theorem afterAll_add {c : Nat} {qs : List Request} (h : ∀ q ∈ qs, 2 ^ q.bits ∣ c) (top : Nat) :
    afterAll qs (top + c) = afterAll qs top + c := by
  induction qs generalizing top with
  | nil => rfl
  | cons q qs ih =>
    rw [afterAll_cons, after_add (h q List.mem_cons_self), afterAll_cons]
    exact ih (fun q hq => h q (List.mem_cons_of_mem _ hq)) (after top q)

/-- Blocks of a size that is a multiple of their alignment leave one gap. -/
theorem afterAll_replicate {bits size : Nat} (h : 2 ^ bits ∣ size) (k : Nat) (top : Nat) :
    afterAll (List.replicate (k + 1) ⟨bits, size⟩) top = roundUp top bits + (k + 1) * size := by
  induction k generalizing top with
  | zero => simp [after]
  | succ k ih =>
    rw [List.replicate_succ, afterAll_cons, ih, after,
      roundUp_of_dvd (Nat.dvd_add (dvd_roundUp top bits) h), Nat.add_one_mul (k + 1), Nat.add_assoc, Nat.add_comm size]

/-! ## The blocks -/

theorem mem_blocks {b : Nat × Nat} {qs : List Request} {top : Nat} (h : b ∈ blocks qs top) :
    top ≤ b.1 ∧ b.1 + b.2 ≤ afterAll qs top := by
  induction qs generalizing top with
  | nil => exact absurd h List.not_mem_nil
  | cons q qs ih =>
    rw [blocks, List.mem_cons] at h
    rcases h with rfl | h
    · exact ⟨le_roundUp top q.bits, le_afterAll qs (after top q)⟩
    · obtain ⟨hstart, hend⟩ := ih h
      exact ⟨(le_after top q).trans hstart, hend⟩

/-- **The blocks do not overlap.** -/
theorem pairwise_blocks (qs : List Request) (top : Nat) :
    (blocks qs top).Pairwise fun b b' => b.1 + b.2 ≤ b'.1 := by
  induction qs generalizing top with
  | nil => exact List.Pairwise.nil
  | cons q qs ih => exact List.pairwise_cons.2 ⟨fun _ hb => (mem_blocks hb).1, ih (after top q)⟩

/-! ## The same requests again -/

theorem afterAll_flatten_replicate (qs : List Request) (n top : Nat) :
    afterAll (List.replicate n qs).flatten top = (afterAll qs)^[n] top := by
  induction n generalizing top with
  | zero => rfl
  | succ n ih => rw [List.replicate_succ, List.flatten_cons, afterAll_append, ih, Function.iterate_succ_apply]

/-- **The requests can be repeated** within a distance each, from one top to the next, if and only if they fit once. -/
theorem repeat_le_iff {qs : List Request} {c : Nat} (h : ∀ q ∈ qs, 2 ^ q.bits ∣ c) {n : Nat} (hn : 0 < n) (top : Nat) :
    afterAll (List.replicate n qs).flatten top ≤ top + n * c ↔ afterAll qs top ≤ top + c := by
  have hcommute : Function.Commute (afterAll qs) (· + c) := fun top => afterAll_add h top
  have hstrict : StrictMono (· + c : Nat → Nat) := fun _ _ h => Nat.add_lt_add_right h c
  have hiterate := hcommute.iterate_pos_le_iff_map_le (afterAll_mono qs) hstrict hn (x := top)
  rwa [add_right_iterate_apply, Nat.nsmul_eq_mul, ← afterAll_flatten_replicate] at hiterate

end Bump
