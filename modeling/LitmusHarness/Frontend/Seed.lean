import LitmusHarness.Concretization.Random
import LitmusHarness.Frontend.Config
import LitmusHarness.Lib.ShiftRegister

/-!
# The states of the random generator: `rand.c` and `-s` of `config.c`

`randn` is a feedback shift register with 14 taps, whose feedback is also inverted (`randn_eq_step`). The tap at the
highest bit makes a step a bijection. As the number of taps is even, the word with all bits set is its own successor:
a generator never stands still if and only if it does not start there (`randn_neverStuck_iff`).
-/

namespace LitmusHarness

open ShiftRegister (step feedback)

/-! ## Seeds -/

/-- `init_seed`, where `read_clk` returns `clk`. -/
def initSeed (clk : U64) (cfg : Frontend.Config) : Frontend.Config := { cfg with initialSeed := clk }

/-- `SEED`, after `reset_seed` and `k` draws. -/
def seedAfter (cfg : Frontend.Config) (k : Nat) : U64 := (fun s => (randn s).2)^[k] cfg.initialSeed

/-- Two draws in a row are never equal. -/
def NeverStuck (cfg : Frontend.Config) : Prop := ∀ k, seedAfter cfg (k + 1) ≠ seedAfter cfg k

/-! ## The shift register -/

/-- The positions below the highest that `randn` looks at. -/
def randnTaps : List Nat := [0, 7, 13, 14, 21, 26, 28, 35, 39, 42, 49, 52, 56]

/-- The feedback of `randn`. -/
def randnFeedback : U64 → Bool := feedback (randnTaps ++ [64 - 1]) true

/-- A bit as a word. -/
def bitWord (b : Bool) : U64 := (BitVec.ofBool b).setWidth 64

theorem bitWord_xor (a b : Bool) : bitWord a ^^^ bitWord b = bitWord (a ^^ b) := by
  cases a <;> cases b <;> rfl

theorem and_one_eq_bitWord (seed : U64) (i : Nat) : (seed >>> i) &&& 1 = bitWord (seed.getLsbD i) := by
  rw [show (1 : U64) = 1#64 from rfl, BitVec.and_one_eq_setWidth_ofBool_getLsbD, BitVec.getLsbD_ushiftRight,
    Nat.add_zero]
  rfl

/-- The loop over the taps. -/
theorem foldl_taps (seed : U64) (taps : List Nat) (b : Bool) :
    taps.foldl (fun st i => st ^^^ ((seed >>> i) &&& 1)) (bitWord b) = bitWord (feedback taps b seed) := by
  induction taps generalizing b with
  | nil => rfl
  | cons i taps ih =>
    rw [List.foldl_cons, and_one_eq_bitWord, bitWord_xor, ih]
    rfl

theorem shiftLeft_add_bitWord (seed : U64) (b : Bool) : (seed <<< 1) + bitWord b = seed.shiftConcat b := by
  have hb : (bitWord b).toNat = b.toNat := by cases b <;> rfl
  apply BitVec.eq_of_toNat_eq
  rw [BitVec.toNat_shiftConcat, BitVec.toNat_add, BitVec.toNat_shiftLeft, hb, Nat.mod_add_mod]

/-- **`randn` is a step of a shift register.** -/
theorem randn_eq_step (seed : U64) : randn seed = (step randnFeedback seed, step randnFeedback seed) := by
  have htaps : ((List.range 64).filter fun i => i % 7 = 0 || i % 13 = 0) = randnTaps ++ [64 - 1] := by decide
  have hseed : (seed <<< 1) + (randnTaps ++ [64 - 1]).foldl (fun st i => st ^^^ ((seed >>> i) &&& 1)) 1 =
      step randnFeedback seed := by
    have hfold := foldl_taps seed (randnTaps ++ [64 - 1]) true
    rw [show bitWord true = 1 from rfl] at hfold
    rw [hfold, shiftLeft_add_bitWord]
    rfl
  unfold randn
  rw [htaps]
  dsimp only
  rw [hseed]

theorem randnFeedback_seesTop : ShiftRegister.SeesTop randnFeedback :=
  ShiftRegister.feedback_seesTop (by decide)

/-- **The next state.** -/
theorem nextSeed_bijective : Function.Bijective fun s : U64 => (randn s).2 := by
  simp only [randn_eq_step]
  exact ShiftRegister.step_bijective (by decide) randnFeedback_seesTop

/-- The only state that is its own successor has all bits set. -/
theorem nextSeed_eq_self_iff (seed : U64) : (randn seed).2 = seed ↔ seed = -1 := by
  rw [randn_eq_step]
  constructor
  · intro h
    have hseed := ShiftRegister.step_eq_self_iff.mp h
    cases hg : randnFeedback seed with
    | true => rwa [hg] at hseed
    | false =>
      -- the feedback of 0 is 1
      rw [hg] at hseed
      rw [show seed = 0 from hseed] at hg
      exact absurd hg (by decide)
  · rintro rfl
    decide

theorem neverStuck_iff (cfg : Frontend.Config) : NeverStuck cfg ↔ cfg.initialSeed ≠ -1 :=
  (ShiftRegister.iterate_ne nextSeed_bijective.1).trans (not_congr (nextSeed_eq_self_iff cfg.initialSeed))

/-! ## The option -/

theorem intToU64_eq_neg_one {n : BitVec 32} : intToU64 n = -1 ↔ n = -1 := by
  constructor
  · intro h
    have hnat := congrArg BitVec.toNat h
    have hlt := n.isLt
    rw [toNat_intToU64, show (-1 : U64).toNat = 2 ^ 64 - 1 from rfl] at hnat
    apply BitVec.eq_of_toNat_eq
    rw [show (-1 : BitVec 32).toNat = 2 ^ 32 - 1 from rfl]
    split at hnat <;> omega
  · rintro rfl
    rfl

/-- What `-s` sets. -/
theorem s_ok {x : List Char} {cfg cfg' : Frontend.Config} (h : Frontend.Config.s x cfg = .ok cfg') :
    ∃ v, atoi x = .ok v ∧ cfg'.initialSeed = intToU64 (v.truncate 32) := by
  unfold Frontend.Config.s Frontend.Config.readInt at h
  cases hv : atoi x with
  | error msg =>
    rw [hv] at h
    cases h
  | ok v =>
    rw [hv] at h
    cases h
    exact ⟨v, rfl, rfl⟩

/-- **The state update is a bijection, and a generator never stands still** if and only if it does not start with all
bits set: the clock does not read 2^64 - 1, and the low half of what `-s` reads is not 2^32 - 1. -/
theorem randn_neverStuck_iff (clk : U64) (x : List Char) (cfg : Frontend.Config) :
    (Function.Bijective fun s : U64 => (randn s).2) ∧ (NeverStuck (initSeed clk cfg) ↔ clk ≠ -1) ∧
      ∀ cfg', Frontend.Config.s x cfg = .ok cfg' →
        (NeverStuck cfg' ↔ ∀ v, atoi x = .ok v → v.truncate 32 ≠ -1) := by
  refine ⟨nextSeed_bijective, neverStuck_iff _, fun cfg' h => ?_⟩
  obtain ⟨v, hv, hseed⟩ := s_ok h
  rw [neverStuck_iff, hseed, Ne, intToU64_eq_neg_one]
  constructor
  · intro hne w hw
    obtain rfl := Except.ok.inj (hv.symm.trans hw)
    exact hne
  · exact fun hall => hall v hv

/-- With `-s4294967295` every draw is the same. -/
theorem randn_stuck : ∃ cfg', Frontend.Config.s "4294967295".toList {} = .ok cfg' ∧ ¬NeverStuck cfg' ∧
    ∀ k, seedAfter cfg' k = -1 := by
  have hfix : (fun s : U64 => (randn s).2) (-1) = -1 := (nextSeed_eq_self_iff (-1)).mpr rfl
  refine ⟨{ initialSeed := -1 }, rfl, fun h => ?_, fun k => ?_⟩
  · exact absurd rfl ((neverStuck_iff _).mp h)
  · exact Function.iterate_fixed hfix k

/-- With `-s1` the draws go on. -/
theorem randn_neverStuck_iff_one : ∃ cfg', Frontend.Config.s "1".toList {} = .ok cfg' ∧ NeverStuck cfg' := by
  refine ⟨{ initialSeed := 1 }, rfl, ?_⟩
  rw [(randn_neverStuck_iff 0 "1".toList {}).2.2 { initialSeed := 1 } rfl]
  rintro v hv
  obtain rfl := Except.ok.inj hv
  decide

end LitmusHarness
