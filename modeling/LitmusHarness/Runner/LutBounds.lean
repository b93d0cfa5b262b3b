import LitmusHarness.Runner.Results
import Mathlib.Data.Nat.Digits.Defs

/-!
# The bounds of `lut`

`ix_from_values` reads the values of the registers as the digits of a number, to the base 4, in an `int`. `lut` has 200
elements, however many registers the test has. The index is in `lut`, or is -1, if and only if a value is above 3 or the
last registers are small (`ixFromValuesInt_inLut_iff`). Where it is, it is the index that the histogram is modelled with
(`ixFromValuesInt_eq`).
-/

namespace LitmusHarness

/-! ## The functions of the source -/

/-- `hist->limit`, as `init_test_ctx` sets it. -/
def histLimit : Nat := 200

section Source

variable {noRegs : Nat} (values : Regs noRegs)

/-- The loop of `ix_from_values`, with the arithmetic of `int`. -/
def ixLoopInt : List U64 → BitVec 32 → BitVec 32
  | [], val => val
  | v :: vs, val => if v < 4 then ixLoopInt vs (val * 4 + (v % 4).setWidth 32) else -1

/-- `ix_from_values`, with the arithmetic of `int`. -/
def ixFromValuesInt : Int := (ixLoopInt (List.ofFn values) 0).toInt

/-- The indices at which `add_results` reads and writes `lut`. -/
def lutAccesses : List Int := if ixFromValuesInt values = -1 then [] else [ixFromValuesInt values]

/-- The `k`-th value from the last, or 0 if there are no so many registers. -/
def lastValue (k : Nat) : Nat := if h : k < noRegs then (values ⟨noRegs - 1 - k, by omega⟩).toNat else 0

/-- **The tuples whose index is in `lut`**: a value is above 3, or the last sixteen are 3, or the last four are below
3, 0, 2, 0 and the twelve before them are 0. -/
def InLut : Prop :=
  (∃ reg, ¬values reg < 4) ∨ (∀ k < 16, lastValue values k = 3) ∨
    (∀ k < 12, lastValue values (k + 4) = 0) ∧
      (lastValue values 3 < 3 ∨ lastValue values 2 = 0 ∧ lastValue values 1 < 2)

end Source

section Bounds

variable {noRegs : Nat} {values : Regs noRegs} {ds : List Nat}

/-! ## Digits -/

/-- The last digit of a number and the others. -/
theorem ofDigits_mod_pow_succ (h : ∀ d ∈ ds, d < 4) (n : Nat) :
    Nat.ofDigits 4 ds % 4 ^ (n + 1) = ds.getD 0 0 + 4 * (Nat.ofDigits 4 ds.tail % 4 ^ n) := by
  cases ds with
  | nil => simp
  | cons d ds =>
    have hd : d < 4 := h d List.mem_cons_self
    rw [Nat.ofDigits_cons, Nat.pow_succ', Nat.mod_mul, List.getD_cons_zero, List.tail_cons]
    have hmod : (d + 4 * Nat.ofDigits 4 ds) % 4 = d := by omega
    have hdiv : (d + 4 * Nat.ofDigits 4 ds) / 4 = Nat.ofDigits 4 ds := by omega
    rw [hmod, hdiv]

theorem getD_lt_four (h : ∀ d ∈ ds, d < 4) (k : Nat) : ds.getD k 0 < 4 := by
  by_cases hk : k < ds.length
  · rw [List.getD_eq_getElem _ _ hk]
    exact h _ (List.getElem_mem hk)
  · rw [List.getD_eq_default _ _ (Nat.le_of_not_lt hk)]
    exact Nat.zero_lt_succ 3

theorem getD_tail (k : Nat) : ds.tail.getD k 0 = ds.getD (k + 1) 0 := by
  cases ds <;> rfl

/-- The last `n` digits are all `c`. -/
theorem ofDigits_mod_pow_eq_replicate {c : Nat} (hc : c < 4) (n : Nat) : ∀ {ds : List Nat}, (∀ d ∈ ds, d < 4) →
    (Nat.ofDigits 4 ds % 4 ^ n = Nat.ofDigits 4 (List.replicate n c) ↔ ∀ k < n, ds.getD k 0 = c) := by
  induction n with
  | zero =>
    intro ds _
    simp [Nat.mod_one]
  | succ n ih =>
    intro ds h
    have hd := getD_lt_four h 0
    rw [ofDigits_mod_pow_succ h, List.replicate_succ, Nat.ofDigits_cons, Nat.forall_lt_succ_left]
    simp only [← getD_tail]
    rw [← ih fun d hd => h d (List.mem_of_mem_tail hd)]
    omega

/-! ## The index -/

/-- The number with the values as its digits. -/
theorem ixLoopInt_toNat {vs : List U64} {val : BitVec 32} (h : ∀ v ∈ vs, v < 4) :
    (ixLoopInt vs val).toNat =
      (val.toNat * 4 ^ vs.length + Nat.ofDigits 4 (vs.reverse.map BitVec.toNat)) % 2 ^ 32 := by
  induction vs generalizing val with
  | nil =>
    have := val.isLt
    simp only [ixLoopInt, List.length_nil, List.reverse_nil, List.map_nil, Nat.ofDigits_nil, Nat.pow_zero, Nat.mul_one,
      Nat.add_zero]
    exact (Nat.mod_eq_of_lt this).symm
  | cons v vs ih =>
    obtain ⟨hv, hvs⟩ := List.forall_mem_cons.mp h
    have hv4 : v.toNat < 4 := hv
    have hdigit : ((v % 4).setWidth 32).toNat = v.toNat := by
      rw [BitVec.toNat_setWidth, BitVec.toNat_umod]
      show v.toNat % 4 % 2 ^ 32 = v.toNat
      omega
    have hval : (val * 4 + (v % 4).setWidth 32).toNat = (val.toNat * 4 + v.toNat) % 2 ^ 32 := by
      rw [BitVec.toNat_add, hdigit, BitVec.toNat_mul, Nat.mod_add_mod]
      rfl
    rw [ixLoopInt, if_pos hv, ih hvs, hval, List.reverse_cons, List.map_append, Nat.ofDigits_append,
      List.length_map, List.length_reverse, List.map_singleton, Nat.ofDigits_singleton, List.length_cons]
    rw [Nat.add_mod, Nat.mod_mul_mod, ← Nat.add_mod]
    congr 1
    ring

theorem ixLoopInt_ge {vs : List U64} {val : BitVec 32} (h : ∃ v ∈ vs, ¬v < 4) : ixLoopInt vs val = -1 := by
  obtain ⟨w, hw, hw4⟩ := h
  induction vs generalizing val with
  | nil => exact absurd hw List.not_mem_nil
  | cons v vs ih =>
    rw [ixLoopInt]
    split
    · next hv =>
      rcases List.mem_cons.mp hw with rfl | hw
      · exact absurd hv hw4
      · exact ih hw
    · rfl

theorem ixLoop_eq_ofDigits {vs : List U64} {val : Int} (h : ∀ v ∈ vs, v < 4) :
    ixLoop vs val = val * 4 ^ vs.length + (Nat.ofDigits 4 (vs.reverse.map BitVec.toNat) : Nat) := by
  induction vs generalizing val with
  | nil => simp [ixLoop]
  | cons v vs ih =>
    obtain ⟨hv, hvs⟩ := List.forall_mem_cons.mp h
    have hv4 : v.toNat < 4 := hv
    rw [ixLoop, if_pos hv, ih hvs, List.reverse_cons, List.map_append, Nat.ofDigits_append,
      List.length_map, List.length_reverse, List.map_singleton, Nat.ofDigits_singleton, List.length_cons,
      Nat.mod_eq_of_lt hv4]
    push_cast
    ring

/-- `int` is wide enough for the indices of the histogram. -/
theorem ixFromValuesInt_eq (h : ixFromValues values < 2 ^ 31) : ixFromValuesInt values = ixFromValues values := by
  unfold ixFromValuesInt
  rcases @ixLoop_eq (List.ofFn values) 0 (le_refl _) with ⟨hix, v, hv, hv4⟩ | ⟨hvs, -⟩
  · rw [ixLoopInt_ge ⟨v, hv, hv4⟩, ixFromValues, hix]
    rfl
  · rw [ixFromValues, ixLoop_eq_ofDigits hvs, Int.zero_mul, Int.zero_add] at h ⊢
    have hlt : Nat.ofDigits 4 ((List.ofFn values).reverse.map BitVec.toNat) < 2 ^ 31 := by exact_mod_cast h
    rw [BitVec.toInt_eq_toNat_cond, ixLoopInt_toNat hvs, show (0 : BitVec 32).toNat = 0 from rfl, Nat.zero_mul,
      Nat.zero_add, Nat.mod_eq_of_lt (by omega), if_pos (by omega)]

/-- The digits from the last on. -/
theorem getD_reverse_ofFn (values : Regs noRegs) (k : Nat) :
    ((List.ofFn values).reverse.map BitVec.toNat).getD k 0 = lastValue values k := by
  unfold lastValue
  split
  · next h =>
    rw [List.getD_eq_getElem _ _ (by simpa using h), List.getElem_map, List.getElem_reverse, List.getElem_ofFn]
    simp
  · next h => rw [List.getD_eq_default _ _ (by simpa using h)]

/-- The last digits of the index. -/
theorem ixFromValuesInt_digits (h : ∀ reg, values reg < 4) :
    ∃ z, ((ixLoopInt (List.ofFn values) 0).toNat =
        lastValue values 0 + 4 * lastValue values 1 + 16 * lastValue values 2 + 64 * lastValue values 3 + 256 * z) ∧
      (z = 0 ↔ ∀ k < 12, lastValue values (k + 4) = 0) ∧
      ((ixLoopInt (List.ofFn values) 0).toNat = 2 ^ 32 - 1 ↔ ∀ k < 16, lastValue values k = 3) := by
  have hvs : ∀ v ∈ List.ofFn values, v < 4 := List.forall_mem_ofFn_iff.mpr h
  have hget := getD_reverse_ofFn values
  have hnat := @ixLoopInt_toNat _ 0 hvs
  generalize hds : (List.ofFn values).reverse.map BitVec.toNat = ds at hget hnat
  have hlt : ∀ d ∈ ds, d < 4 := by
    rw [← hds]
    intro d hd
    obtain ⟨v, hv, rfl⟩ := List.mem_map.mp hd
    exact hvs v (List.mem_reverse.mp hv)
  have htail : ∀ {ds : List Nat}, (∀ d ∈ ds, d < 4) → ∀ d ∈ ds.tail, d < 4 :=
    fun h d hd => h d (List.mem_of_mem_tail hd)
  have hx : (ixLoopInt (List.ofFn values) 0).toNat = Nat.ofDigits 4 ds % 4 ^ 16 := by
    rw [hnat, show (0 : BitVec 32).toNat = 0 from rfl, Nat.zero_mul, Nat.zero_add]
    rfl
  rw [hx]
  refine ⟨Nat.ofDigits 4 ds.tail.tail.tail.tail % 4 ^ 12, ?_, ?_, ?_⟩
  · rw [ofDigits_mod_pow_succ hlt, ofDigits_mod_pow_succ (htail hlt), ofDigits_mod_pow_succ (htail (htail hlt)),
      ofDigits_mod_pow_succ (htail (htail (htail hlt)))]
    simp only [getD_tail, hget, Nat.reduceAdd]
    omega
  · refine (ofDigits_mod_pow_eq_replicate (c := 0) (by decide) 12 (htail (htail (htail (htail hlt))))).trans ?_
    simp only [getD_tail, hget, Nat.add_assoc, Nat.reduceAdd]
  · refine (ofDigits_mod_pow_eq_replicate (c := 3) (by decide) 16 hlt).trans ?_
    simp only [hget]

/-- **When the index is in `lut`**, and with it the accesses of `add_results`. -/
theorem ixFromValuesInt_inLut_iff (values : Regs noRegs) :
    (ixFromValuesInt values = -1 ∨ 0 ≤ ixFromValuesInt values ∧ ixFromValuesInt values < histLimit) ∧
        (∀ ix ∈ lutAccesses values, 0 ≤ ix ∧ ix < (emptyHist noRegs histLimit).lut.length) ↔
      InLut values := by
  have haccess : (∀ ix ∈ lutAccesses values, 0 ≤ ix ∧ ix < (emptyHist noRegs histLimit).lut.length) ↔
      ixFromValuesInt values = -1 ∨ 0 ≤ ixFromValuesInt values ∧ ixFromValuesInt values < histLimit := by
    unfold lutAccesses emptyHist
    split
    · next h => simp [h]
    · next h => simp [h]
  rw [haccess, and_self]
  by_cases hbig : ∃ reg, ¬values reg < 4
  · -- the loop returns -1
    have hix : ixFromValuesInt values = -1 := by
      obtain ⟨reg, hreg⟩ := hbig
      unfold ixFromValuesInt
      rw [ixLoopInt_ge ⟨values reg, List.mem_ofFn.mpr ⟨reg, rfl⟩, hreg⟩]
      rfl
    exact ⟨fun _ => .inl hbig, fun _ => .inl hix⟩
  · obtain ⟨z, hz, hzero, hthree⟩ := ixFromValuesInt_digits fun reg => not_not.mp (not_exists.mp hbig reg)
    have hlast : ∀ k, lastValue values k < 4 := by
      intro k
      unfold lastValue
      split
      · exact not_not.mp (not_exists.mp hbig _)
      · exact Nat.zero_lt_succ 3
    have h0 := hlast 0
    have h1 := hlast 1
    have h2 := hlast 2
    have h3 := hlast 3
    have hlt := (ixLoopInt (List.ofFn values) 0).isLt
    unfold InLut ixFromValuesInt histLimit
    rw [BitVec.toInt_eq_toNat_cond, ← hzero, ← hthree]
    generalize (ixLoopInt (List.ofFn values) 0).toNat = x at hz hlt
    have hnone : (∃ reg, ¬values reg < 4) ↔ False := iff_false_intro hbig
    rw [hnone, false_or]
    split <;> omega

/-- Four registers with the value 3: the index is 255. -/
theorem ixFromValuesInt_four : ¬((ixFromValuesInt ![3, 3, 3, 3] = -1 ∨
    0 ≤ ixFromValuesInt ![3, 3, 3, 3] ∧ ixFromValuesInt ![3, 3, 3, 3] < histLimit) ∧
      ∀ ix ∈ lutAccesses ![3, 3, 3, 3], 0 ≤ ix ∧ ix < (emptyHist 4 histLimit).lut.length) := by
  decide

end Bounds

end LitmusHarness
