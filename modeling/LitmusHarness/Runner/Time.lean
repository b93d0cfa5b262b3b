import LitmusHarness.Hash.FinalCond
import LitmusHarness.Lib.Decimal
import LitmusHarness.Runner.Asid

/-!
# The time of a test: `sprint_time` of `printer.c` and the last lines of `print_results_herd`

`sprint_time` takes a reading of the clock and subtracts `INIT_CLOCK`; `print_results_herd` passes a duration. What is
left over after the seconds is printed with as many digits as it has. So the printed number denotes the duration, in
milliseconds, if and only if `INIT_CLOCK` does not matter much and no leading zero is missing (`printTime_exact_iff`).
-/

namespace LitmusHarness

open Decimal (IsDigit value)
open TestHash (decDigits sputdec sprintf sprintf_ok BlitError)
open Fixed (Stream)

/-! ## The functions of the source -/

/-- `time_format_t`. -/
inductive TimeFormat
  | ssDotMs
  | ss
  | hhMmSs
  | hhMmSsClk
  deriving DecidableEq, Repr

/-- `INIT_CLOCK` and `TICKS_PER_SEC`, a whole number of kHz. -/
structure Clock where
  initClock : U64
  ticksPerSec : U64
  pos : 1000 ≤ ticksPerSec.toNat
  khz : 1000 ∣ ticksPerSec.toNat

/-- `%d` of a `u64` below 10 with a zero in front of it, and of another one as it is. -/
def sprintTwo (out : Stream) (n : U64) : Except BlitError Stream :=
  if n < 10 then sprintf out ('0' :: sputdec (intToU64 (n.truncate 32)))
  else sprintf out (sputdec (intToU64 (n.truncate 32)))

/-- `sprint_time`. -/
def sprintTime (clock : Clock) (out : Stream) (clk : U64) (mode : TimeFormat) : Except BlitError Stream :=
  let clk := clk - clock.initClock
  let totSecs := clk / clock.ticksPerSec
  let remTicks := clk % clock.ticksPerSec
  let remHours := totSecs / (60 * 60)
  let remMins := totSecs % (60 * 60) / 60
  let remSecs := totSecs % (60 * 60) % 60
  match mode with
  | .ss => sprintf out (sputdec totSecs)
  | .ssDotMs =>
    let remMs := remTicks / (clock.ticksPerSec / 1000)
    sprintf out (sputdec totSecs ++ '.' :: sputdec remMs)
  | _ => do
    let out ← sprintTwo out remHours
    let out ← sprintf out [':']
    let out ← sprintTwo out remMins
    let out ← sprintf out [':']
    let out ← sprintTwo out remSecs
    if mode = .hhMmSsClk then sprintf out (':' :: sputdec remTicks) else return out

/-- The line of `print_results_herd` with the time. -/
def printTime (clock : Clock) (name : List Char) (startClock endClock : U64) : Except BlitError (List Char) := do
  let out ← sprintTime clock ⟨[], 100⟩ (endClock - startClock) .ssDotMs
  return "Time ".toList ++ name ++ ' ' :: out.text ++ ['\n']

/-! ## What should be printed -/

/-- Ticks in milliseconds. -/
def Clock.millis (clock : Clock) (ticks : U64) : Nat := 1000 * ticks.toNat / clock.ticksPerSec.toNat

/-- The line has the duration in seconds, truncated to milliseconds. -/
def TimeExact (clock : Clock) (name : List Char) (startClock endClock : U64) : Prop :=
  ∃ time, printTime clock name startClock endClock = .ok ("Time ".toList ++ name ++ ' ' :: time ++ ['\n']) ∧
    Decimal.Denotes time
      (((1000 * (endClock.toNat - startClock.toNat) / clock.ticksPerSec.toNat : Nat) : ℚ) / 1000)

/-- The duration and the one that is printed are in the same second, and the milliseconds that are printed have three
digits, or are 0, or are what is left of the right ones without the zeros at their end. -/
def TimeAgrees (clock : Clock) (startClock endClock : U64) : Prop :=
  let t := clock.millis (endClock - startClock)
  let q := clock.millis (endClock - startClock - clock.initClock)
  t / 1000 = q / 1000 ∧
    (t % 1000 = q % 1000 ∧ 100 ≤ q % 1000 ∨ t % 1000 = 10 * (q % 1000) ∧ 10 ≤ q % 1000 ∧ q % 1000 < 100 ∨
      t % 1000 = 100 * (q % 1000) ∧ q % 1000 < 10)

/-! ## Decimal digits -/

section Digits

variable {k j : Nat} {n : U64}

theorem toNat_div_ten (n : U64) : (n / 10).toNat = n.toNat / 10 := BitVec.toNat_udiv

theorem decDigits_succ (k : Nat) (h : 0 < n.toNat) :
    decDigits (k + 1) n = Decimal.digitChar (n.toNat % 10) :: decDigits k (n / 10) := by
  have hpos : n > 0 := BitVec.lt_def.mpr h
  rw [decDigits, if_pos hpos, BitVec.toNat_umod]
  rfl

theorem decDigits_zero (k : Nat) (h : n.toNat = 0) : decDigits k n = [] := by
  cases k with
  | zero => rfl
  | succ k => exact if_neg (by rw [gt_iff_lt, BitVec.lt_def, h]; exact Nat.lt_irrefl 0)

/-- **The digits of a number are written for it.** -/
theorem value_decDigits (h : n.toNat < 10 ^ k) :
    value (decDigits k n).reverse = n.toNat ∧ ∀ c ∈ decDigits k n, IsDigit c := by
  induction k generalizing n with
  | zero =>
    rw [decDigits]
    exact ⟨(Nat.lt_one_iff.mp h).symm, fun c hc => absurd hc List.not_mem_nil⟩
  | succ k ih =>
    by_cases hn : n.toNat = 0
    · rw [decDigits_zero _ hn, hn]
      exact ⟨rfl, fun c hc => absurd hc List.not_mem_nil⟩
    · have hdiv := toNat_div_ten n
      obtain ⟨hvalue, hall⟩ := @ih (n / 10) (by rw [Nat.pow_succ] at h; omega)
      obtain ⟨hdigit, hnum⟩ := Decimal.isDigit_digitChar (Nat.mod_lt n.toNat (show 0 < 10 by decide))
      rw [decDigits_succ k (Nat.pos_of_ne_zero hn), List.reverse_cons, Decimal.value_concat, hvalue, hnum]
      exact ⟨by omega, List.forall_mem_cons.mpr ⟨hdigit, hall⟩⟩

/-- How many digits a number has. -/
theorem lt_length_decDigits_iff (h : j < k) : j < (decDigits k n).length ↔ 10 ^ j ≤ n.toNat := by
  induction k generalizing j n with
  | zero => exact absurd h (Nat.not_lt_zero j)
  | succ k ih =>
    by_cases hn : n.toNat = 0
    · rw [decDigits_zero _ hn, hn]
      exact iff_of_false (Nat.not_lt_zero j) (Nat.not_le.mpr (Nat.pow_pos (by decide)))
    · rw [decDigits_succ k (Nat.pos_of_ne_zero hn), List.length_cons]
      cases j with
      | zero => exact iff_of_true (Nat.succ_pos _) (Nat.pos_of_ne_zero hn)
      | succ j =>
        rw [Nat.succ_lt_succ_iff, ih (Nat.lt_of_succ_lt_succ h), toNat_div_ten, Nat.le_div_iff_mul_le (by decide),
          Nat.pow_succ]

theorem length_decDigits_le (k : Nat) (n : U64) : (decDigits k n).length ≤ k := by
  induction k generalizing n with
  | zero => exact Nat.le_refl 0
  | succ k ih =>
    rw [decDigits]
    split
    · exact Nat.succ_le_succ (ih _)
    · exact Nat.zero_le _

/-- **What `sputdec` writes.** -/
theorem sputdec_digits (n : U64) : value (sputdec n) = n.toNat ∧ sputdec n ≠ [] ∧ ∀ c ∈ sputdec n, IsDigit c := by
  unfold sputdec
  by_cases hn : n = 0
  · rw [if_pos hn, hn]
    exact ⟨rfl, List.cons_ne_nil _ _, List.forall_mem_singleton.mpr (by decide)⟩
  · have hpos : 0 < n.toNat := Nat.pos_of_ne_zero fun h => hn (BitVec.eq_of_toNat_eq h)
    have hlt : n.toNat < 10 ^ 20 := n.isLt.trans (by decide)
    obtain ⟨hvalue, hall⟩ := value_decDigits hlt
    rw [if_neg hn]
    refine ⟨hvalue, ?_, fun c hc => hall c (List.mem_reverse.mp hc)⟩
    rw [decDigits_succ 19 hpos]
    exact List.reverse_ne_nil_iff.mpr (List.cons_ne_nil _ _)

theorem length_sputdec_le (n : U64) : (sputdec n).length ≤ 20 := by
  unfold sputdec
  rw [List.length_reverse]
  split
  · decide
  · exact length_decDigits_le 20 n

/-- The number of digits of 0 to 999. -/
theorem length_sputdec (h : n.toNat < 1000) :
    (sputdec n).length = if n.toNat < 10 then 1 else if n.toNat < 100 then 2 else 3 := by
  unfold sputdec
  rw [List.length_reverse]
  by_cases hn : n = 0
  · rw [if_pos hn, hn]
    rfl
  · have hpos : 0 < n.toNat := Nat.pos_of_ne_zero fun h => hn (BitVec.eq_of_toNat_eq h)
    have h0 := @lt_length_decDigits_iff 20 0 n (by decide)
    have h1 := @lt_length_decDigits_iff 20 1 n (by decide)
    have h2 := @lt_length_decDigits_iff 20 2 n (by decide)
    have h3 := @lt_length_decDigits_iff 20 3 n (by decide)
    rw [if_neg hn]
    split_ifs <;> omega

end Digits

/-! ## What is printed -/

variable {clock : Clock} {startClock endClock : U64}

/-- Seconds and milliseconds of a reading. -/
theorem sprintTime_ssDotMs (clock : Clock) (clk : U64) : ∃ secs ms : U64,
    sprintTime clock ⟨[], 100⟩ clk .ssDotMs = .ok ⟨sputdec secs ++ '.' :: sputdec ms,
      100 - (sputdec secs ++ '.' :: sputdec ms).length⟩ ∧
    secs.toNat = clock.millis (clk - clock.initClock) / 1000 ∧
    ms.toNat = clock.millis (clk - clock.initClock) % 1000 := by
  generalize hd : clk - clock.initClock = d
  obtain ⟨k, hk⟩ := clock.khz
  have hpos := clock.pos
  have hmillis : clock.millis d = d.toNat / k := by
    rw [Clock.millis, hk, Nat.mul_div_mul_left _ _ (by decide)]
  have hkhz : (clock.ticksPerSec / 1000).toNat = k := by
    rw [BitVec.toNat_udiv, show (1000 : U64).toNat = 1000 from rfl, hk]
    exact Nat.mul_div_cancel_left k (by decide)
  refine ⟨d / clock.ticksPerSec, d % clock.ticksPerSec / (clock.ticksPerSec / 1000), ?_, ?_, ?_⟩
  · have h1 := length_sputdec_le (d / clock.ticksPerSec)
    have h2 := length_sputdec_le (d % clock.ticksPerSec / (clock.ticksPerSec / 1000))
    unfold sprintTime
    rw [hd]
    exact sprintf_ok (by simp only [List.length_append, List.length_cons]; omega)
  · rw [BitVec.toNat_udiv, hmillis, hk, Nat.mul_comm, Nat.div_div_eq_div_mul]
  · rw [BitVec.toNat_udiv, BitVec.toNat_umod, hkhz, hmillis, hk, Nat.mul_comm, Nat.mod_mul_right_div_self]

/-- How many places the digits of 0 to 999 miss, as a factor. -/
def missing (n : Nat) : Nat := if n < 10 then 100 else if n < 100 then 10 else 1

/-- The printed number is the duration if the digits are, with the missing places behind them. -/
theorem timeExact_millis_iff (clock : Clock) (name : List Char) (hle : startClock ≤ endClock) :
    TimeExact clock name startClock endClock ↔ clock.millis (endClock - startClock) =
      clock.millis (endClock - startClock - clock.initClock) / 1000 * 1000 +
        clock.millis (endClock - startClock - clock.initClock) % 1000 *
          missing (clock.millis (endClock - startClock - clock.initClock) % 1000) := by
  obtain ⟨secs, ms, hrun, hsecs, hms⟩ := sprintTime_ssDotMs clock (endClock - startClock)
  obtain ⟨hvs, hs⟩ := sputdec_digits secs
  obtain ⟨hvm, hm⟩ := sputdec_digits ms
  have hlen := @length_sputdec ms (hms ▸ Nat.mod_lt _ (by decide))
  have hplaces : 10 ^ (3 - (sputdec ms).length) = missing ms.toNat := by
    rw [hlen, missing]
    split_ifs <;> rfl
  have hdur : 1000 * (endClock.toNat - startClock.toNat) / clock.ticksPerSec.toNat =
      clock.millis (endClock - startClock) := by
    rw [Clock.millis, BitVec.toNat_sub_of_le hle]
  have hline : printTime clock name startClock endClock =
      .ok ("Time ".toList ++ name ++ ' ' :: (sputdec secs ++ '.' :: sputdec ms) ++ ['\n']) := by
    rw [printTime, hrun]
    rfl
  have hexact : TimeExact clock name startClock endClock ↔ Decimal.Denotes (sputdec secs ++ '.' :: sputdec ms)
      ((clock.millis (endClock - startClock) : ℚ) / 1000) := by
    unfold TimeExact
    rw [hline, hdur]
    constructor
    · rintro ⟨time, heq, hden⟩
      have htime := List.append_cancel_right (Except.ok.inj heq)
      rw [(List.cons.inj (List.append_cancel_left htime)).2]
      exact hden
    · exact fun hden => ⟨_, rfl, hden⟩
  rw [hexact, Decimal.denotes_thousandths_iff hs hm (by rw [hlen]; split_ifs <;> decide), hplaces, hvs, hvm, hsecs, hms]

/-- **The time is exact** if and only if the duration and what is left of it after `INIT_CLOCK` agree. -/
theorem printTime_exact_iff (clock : Clock) (name : List Char) (hle : startClock ≤ endClock) :
    TimeExact clock name startClock endClock ↔ TimeAgrees clock startClock endClock := by
  rw [timeExact_millis_iff clock name hle]
  unfold TimeAgrees missing
  dsimp only
  split_ifs <;> omega

/-- A clock of 1 MHz. -/
def mhzClock (initClock : U64) : Clock := ⟨initClock, 1000000, by decide, by decide⟩

/-- 7.05 s are printed as 7.50 s, and 7.5 s as 4.5 s if the clock was at 3 s when the harness started. -/
theorem printTime_not_exact : ¬TimeExact (mhzClock 0) "MP".toList 0 7050000 ∧
    ¬TimeExact (mhzClock 3000000) "MP".toList 4000000 11500000 := by
  constructor
  · rw [timeExact_millis_iff _ _ (by decide)]
    decide
  · rw [timeExact_millis_iff _ _ (by decide)]
    decide

/-- 7.5 s are printed as they are. -/
theorem printTime_exact_iff_sevenAndAHalf : TimeExact (mhzClock 0) "MP".toList 1000000 8500000 :=
  (printTime_exact_iff (mhzClock 0) "MP".toList (by decide)).mpr ⟨by decide, by decide⟩

end LitmusHarness
