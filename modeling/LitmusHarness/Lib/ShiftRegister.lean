import Mathlib.Data.Fintype.EquivFin
import Mathlib.Data.FinEnum
import Mathlib.Logic.Function.Iterate

/-!
# Feedback shift registers

A step of a register shifts its bits up by one and puts a bit of feedback in the lowest place. If the feedback tells
apart words that differ in their highest bit only, the step is a bijection (`step_bijective`). The words that it leaves
as they are have equal bits, which are also the feedback (`step_eq_self_iff`), and a word that is not one of them never
comes to stand still (`iterate_ne`).

`feedback taps b` is the parity of the bits at the taps, and of `b`.
-/

namespace ShiftRegister

variable {w : Nat}

/-- One step. -/
def step (g : BitVec w → Bool) (x : BitVec w) : BitVec w := x.shiftConcat (g x)

/-- The parity of the bits at the taps, from `b` on. -/
def feedback (taps : List Nat) (b : Bool) (x : BitVec w) : Bool := taps.foldl (fun b i => b ^^ x.getLsbD i) b

/-- The feedback tells apart words that differ in their highest bit only. -/
def SeesTop (g : BitVec w → Bool) : Prop :=
  ∀ x y, (∀ i, i + 1 < w → x.getLsbD i = y.getLsbD i) → g x = g y → x = y

variable {g : BitVec w → Bool} {x y : BitVec w} {taps : List Nat} {b : Bool}

theorem getLsbD_step_zero (hw : 0 < w) : (step g x).getLsbD 0 = g x := by
  rw [step, BitVec.getLsbD_shiftConcat, decide_eq_true hw, Bool.true_and, if_pos rfl]

theorem getLsbD_step_succ {i : Nat} (hi : i + 1 < w) : (step g x).getLsbD (i + 1) = x.getLsbD i := by
  rw [step, BitVec.getLsbD_shiftConcat, decide_eq_true hi, Bool.true_and, if_neg (Nat.succ_ne_zero i),
    Nat.add_sub_cancel]

/-! ## Bijections -/

theorem step_injective (hw : 0 < w) (hg : SeesTop g) : Function.Injective (step g) := by
  intro x y h
  refine hg x y (fun i hi => ?_) ?_
  · rw [← getLsbD_step_succ (g := g) (x := x) hi, h, getLsbD_step_succ hi]
  · rw [← getLsbD_step_zero (g := g) (x := x) hw, h, getLsbD_step_zero hw]

/-- **Every word is the next one of exactly one other.** -/
theorem step_bijective (hw : 0 < w) (hg : SeesTop g) : Function.Bijective (step g) :=
  Finite.injective_iff_bijective.mp (step_injective hw hg)

/-! ## Words that stay -/

/-- **A word stays as it is** if and only if all its bits are the feedback. -/
theorem step_eq_self_iff : step g x = x ↔ x = if g x then BitVec.allOnes w else 0 := by
  have hbits : step g x = x ↔ ∀ i < w, x.getLsbD i = g x := by
    constructor
    · intro h i hi
      induction i with
      | zero =>
        rw [← h, getLsbD_step_zero hi, h]
      | succ i ih =>
        rw [← ih (Nat.lt_of_succ_lt hi)]
        conv_lhs => rw [← h]
        exact getLsbD_step_succ hi
    · intro h
      apply BitVec.eq_of_getLsbD_eq
      intro i hi
      cases i with
      | zero => rw [getLsbD_step_zero hi, h 0 hi]
      | succ i => rw [getLsbD_step_succ hi, h i (Nat.lt_of_succ_lt hi), h (i + 1) hi]
  rw [hbits]
  constructor
  · intro h
    apply BitVec.eq_of_getLsbD_eq
    intro i hi
    rw [h i hi]
    cases g x with
    | true => rw [if_pos rfl, BitVec.getLsbD_allOnes, decide_eq_true hi]
    | false => exact BitVec.getLsbD_zero.symm
  · intro h i hi
    conv_lhs => rw [h]
    cases g x with
    | true => rw [if_pos rfl, BitVec.getLsbD_allOnes, decide_eq_true hi]
    | false => exact BitVec.getLsbD_zero

/-- **A register that changes in its first step never stands still.** -/
theorem iterate_ne {α : Type} {f : α → α} (hf : Function.Injective f) {a : α} :
    (∀ k, f^[k + 1] a ≠ f^[k] a) ↔ f a ≠ a := by
  constructor
  · exact fun h => h 0
  · intro h k heq
    rw [Function.iterate_succ_apply] at heq
    exact h (hf.iterate k heq)

/-! ## Taps -/

/-- Taps that are low do not see the highest bit. -/
theorem feedback_congr (h : ∀ i ∈ taps, x.getLsbD i = y.getLsbD i) : feedback taps b x = feedback taps b y := by
  unfold feedback
  induction taps generalizing b with
  | nil => rfl
  | cons i taps ih =>
    obtain ⟨hi, htaps⟩ := List.forall_mem_cons.mp h
    rw [List.foldl_cons, List.foldl_cons, hi, ih htaps]

/-- With a tap at the highest bit. -/
theorem feedback_seesTop (h : ∀ i ∈ taps, i + 1 < w) :
    SeesTop (feedback (taps ++ [w - 1]) b : BitVec w → Bool) := by
  intro x y hlow hg
  have htop : x.getLsbD (w - 1) = y.getLsbD (w - 1) := by
    have hrest : feedback taps b x = feedback taps b y := feedback_congr fun i hi => hlow i (h i hi)
    unfold feedback at hg hrest
    rw [List.foldl_append, List.foldl_append, hrest] at hg
    exact Bool.xor_right_inj.mp hg
  apply BitVec.eq_of_getLsbD_eq
  intro i hi
  by_cases hlast : i + 1 < w
  · exact hlow i hlast
  · rw [show i = w - 1 by omega]
    exact htop

end ShiftRegister
