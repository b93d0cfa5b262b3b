import LitmusHarness.Bitwise
import Mathlib.Algebra.BigOperators.Group.List.Lemmas
import Mathlib.Data.Fin.VecNotation
import Mathlib.Data.Fintype.Pi
import Mathlib.Data.List.Dedup
import Mathlib.Data.List.OfFn
import Mathlib.Data.List.Perm.Basic

/-!
# The histogram of results: `litmus_test_results.c`

`addResults` counts the registers of a run: through the table `lut` when that has an entry for them, and else by a scan
of the entries. `HistOk` says what the histogram is after a list of runs, and `addResults_ok` that a run keeps it. The
main result is `addResults_exact`: the entries are the tuples that were seen, with their numbers.

An index of the table has the values of the registers as its digits, to the base 4, so it belongs to one tuple
(`ixFromValues_inj`).
-/

namespace LitmusHarness

/-! ## The functions of the source -/

/-- The output registers of a run. -/
abbrev Regs (noRegs : Nat) := Fin noRegs → U64

/-- `test_result_t`. -/
structure TestResult (noRegs : Nat) where
  isRelaxed : Bool
  counter : Nat
  values : Regs noRegs

/-- `test_hist_t`. `results` has the `allocated` entries, and `lut` the index of an entry for each pointer. -/
structure TestHist (noRegs : Nat) where
  limit : Nat
  lut : List (Option Nat)
  results : List (TestResult noRegs)

/-- The histogram of `init_test_ctx`, where `limit` is 200. -/
def emptyHist (noRegs limit : Nat) : TestHist noRegs := { limit := limit, lut := List.replicate limit none, results := [] }

/-- The interesting results of a test. `interesting_results` comes with its number of results; either may be `NULL`. -/
structure Interesting (noRegs : Nat) where
  interestingResult : Option (Regs noRegs)
  interestingResults : Option (List (Regs noRegs))

/-- An index past the end of `lut`, which the source does not check. -/
def outsideLut : String := "lut[ix]"

section Source

variable {noRegs : Nat} (cfg : Interesting noRegs) (values : Regs noRegs)

/-- `matches`. -/
def matchesRun (result : TestResult noRegs) : Bool := decide (∀ reg, result.values reg = values reg)

/-- `matches_interesting`. -/
def matchesInteresting : Bool :=
  let relaxed :=
    match cfg.interestingResults with
    | some relaxed => relaxed
    | none => cfg.interestingResult.toList
  relaxed.any fun regs => decide (∀ reg, values reg = regs reg)

/-- The loop of `ix_from_values`. `val` does not come near to the end of `int` before it is past the end of `lut`. -/
def ixLoop : List U64 → Int → Int
  | [], val => val
  | v :: vs, val => if v < 4 then ixLoop vs (val * 4 + (v.toNat % 4 : Nat)) else -1

/-- `ix_from_values`. -/
def ixFromValues : Int := ixLoop (List.ofFn values) 0

/-- `lut[ix]`. -/
def TestHist.lookup (hist : TestHist noRegs) (ix : Int) : Except String (Option Nat) :=
  if ix = -1 then .ok none
  else
    match hist.lut[ix.toNat]? with
    | some entry => .ok entry
    | none => .error outsideLut

/-- `counter++` for the `i`-th entry. -/
def TestHist.count (hist : TestHist noRegs) (i : Nat) : TestHist noRegs :=
  { hist with results := hist.results.modify i fun r => { r with counter := r.counter + 1 } }

end Source

section Results

variable {noRegs : Nat} {cfg : Interesting noRegs} {hist hist' : TestHist noRegs} {seen : List (Regs noRegs)}
  {v w : Regs noRegs} {result : TestResult noRegs} {i : Nat}

/-! ## Indices -/

/-- The index of values below 4 is a number with them as digits. -/
theorem ixLoop_eq {vs : List U64} {val : Int} (h : 0 ≤ val) : (ixLoop vs val = -1 ∧ ∃ v ∈ vs, ¬v < 4) ∨
    (∀ v ∈ vs, v < 4) ∧ 0 ≤ ixLoop vs val := by
  induction vs generalizing val with
  | nil => exact .inr ⟨by simp, h⟩
  | cons v vs ih =>
    rw [ixLoop]
    by_cases hv : v < 4
    · rw [if_pos hv]
      rcases @ih (val * 4 + (v.toNat % 4 : Nat)) (by omega) with ⟨h1, w, hw, hw4⟩ | ⟨h1, h2⟩
      · exact .inl ⟨h1, w, List.mem_cons_of_mem _ hw, hw4⟩
      · exact .inr ⟨List.forall_mem_cons.mpr ⟨hv, h1⟩, h2⟩
    · rw [if_neg hv]
      exact .inl ⟨rfl, v, List.mem_cons_self, hv⟩

theorem ixFromValues_cases (v : Regs noRegs) : ixFromValues v = -1 ∨ 0 ≤ ixFromValues v := by
  rcases @ixLoop_eq (List.ofFn v) 0 (le_refl _) with ⟨h, -⟩ | ⟨-, h⟩
  · exact .inl h
  · exact .inr h

/-- The digits are given by the number. -/
theorem ixLoop_inj : ∀ {vs ws : List U64} {a b : Int}, vs.length = ws.length → 0 ≤ a → 0 ≤ b → 0 ≤ ixLoop vs a →
    ixLoop vs a = ixLoop ws b → a = b ∧ vs = ws
  | [], [], a, b, _, _, _, _, h => ⟨h, rfl⟩
  | v :: vs, w :: ws, a, b, hl, ha, hb, hpos, h => by
    have hv : v < 4 := by
      by_contra hv
      rw [ixLoop, if_neg hv] at hpos
      omega
    have hw : w < 4 := by
      by_contra hw
      rw [h, ixLoop, if_neg hw] at hpos
      omega
    rw [ixLoop, if_pos hv] at hpos h
    rw [ixLoop, if_pos hw] at h
    obtain ⟨hab, rfl⟩ := ixLoop_inj (by simpa using hl) (by omega) (by omega) hpos h
    have hv4 : v.toNat < 4 := hv
    have hw4 : w.toNat < 4 := hw
    refine ⟨by omega, ?_⟩
    have : v = w := BitVec.eq_of_toNat_eq (by omega)
    rw [this]

/-- **An index of the table belongs to one tuple.** -/
theorem ixFromValues_inj (hv : ixFromValues v ≠ -1) (h : ixFromValues v = ixFromValues w) : v = w :=
  List.ofFn_injective
    (ixLoop_inj (by simp) (le_refl _) (le_refl _) ((ixFromValues_cases v).resolve_left hv) h).2

/-! ## The invariant -/

theorem matchesRun_iff : matchesRun v result = true ↔ result.values = v := by
  simp [matchesRun, funext_iff]

/-- The histogram after the runs `seen`. -/
structure HistOk (cfg : Interesting noRegs) (hist : TestHist noRegs) (seen : List (Regs noRegs)) : Prop where
  nodup : (hist.results.map (·.values)).Nodup
  mem : ∀ v, v ∈ hist.results.map (·.values) ↔ v ∈ seen
  counter : ∀ result ∈ hist.results, result.counter = seen.count result.values
  isRelaxed : ∀ result ∈ hist.results, result.isRelaxed = matchesInteresting cfg result.values
  lutSize : hist.lut.length = hist.limit
  lut : ∀ ix i : Nat, hist.lut[ix]? = some (some i) →
    ∃ result, hist.results[i]? = some result ∧ ixFromValues result.values = ix

theorem histOk_empty (cfg : Interesting noRegs) (limit : Nat) : HistOk cfg (emptyHist noRegs limit) [] where
  nodup := List.nodup_nil
  mem v := by simp [emptyHist]
  counter result h := by cases h
  isRelaxed result h := by cases h
  lutSize := List.length_replicate
  lut ix i h := by
    rw [emptyHist, List.getElem?_replicate] at h
    split at h <;> simp at h

theorem map_values_count (hist : TestHist noRegs) (i : Nat) :
    (hist.count i).results.map (·.values) = hist.results.map (·.values) := by
  apply List.ext_getElem?
  intro j
  simp only [TestHist.count, List.getElem?_map, List.getElem?_modify, Option.map_map, Option.map_eq_map]
  congr 1
  funext r
  by_cases h : i = j <;> simp [h]

/-- The place of a tuple among the entries is unique. -/
theorem HistOk.index_unique (h : HistOk cfg hist seen) {j : Nat} {r r' : TestResult noRegs}
    (hi : hist.results[i]? = some r) (hj : hist.results[j]? = some r') (hv : r.values = r'.values) : i = j := by
  have hlt : i < hist.results.length := (List.getElem?_eq_some_iff.mp hi).1
  refine (List.getElem?_inj (by simpa using hlt) h.nodup).mp ?_
  simp [hi, hj, hv]

/-- One more run with the tuple of an entry. -/
theorem HistOk.count (h : HistOk cfg hist seen) (hi : hist.results[i]? = some result) (hv : result.values = v) :
    HistOk cfg (hist.count i) (seen ++ [v]) := by
  have hmem : v ∈ seen := (h.mem v).mp (List.mem_map.mpr ⟨result, List.mem_of_getElem? hi, hv⟩)
  have hentry : ∀ r ∈ (hist.count i).results, ∃ r₀ ∈ hist.results, r.values = r₀.values ∧
      r.isRelaxed = r₀.isRelaxed ∧ r.counter = r₀.counter + if r₀.values = v then 1 else 0 := by
    intro r hr
    obtain ⟨j, hj⟩ := List.mem_iff_getElem?.mp hr
    simp only [TestHist.count, List.getElem?_modify] at hj
    cases hj₀ : hist.results[j]? with
    | none => simp [hj₀] at hj
    | some r₀ =>
      rw [hj₀] at hj
      obtain rfl := Option.some.inj hj
      refine ⟨r₀, List.mem_of_getElem? hj₀, ?_⟩
      by_cases hij : i = j
      · subst hij
        obtain rfl : result = r₀ := Option.some.inj (hi.symm.trans hj₀)
        simp [hv]
      · have hne : r₀.values ≠ v := fun he => hij (h.index_unique hi hj₀ (hv.trans he.symm))
        simp [hij, hne]
  refine ⟨?_, ?_, ?_, ?_, h.lutSize, ?_⟩
  · rw [map_values_count]
    exact h.nodup
  · intro w
    rw [map_values_count, h.mem w]
    simp only [List.mem_append, List.mem_singleton]
    exact ⟨.inl, fun hw => hw.elim id fun hw => hw ▸ hmem⟩
  · intro r hr
    obtain ⟨r₀, hr₀, hval, -, hcount⟩ := hentry r hr
    rw [hcount, hval, List.count_append, h.counter r₀ hr₀, List.count_singleton]
    by_cases hv₀ : r₀.values = v
    · simp [hv₀]
    · simp [hv₀, Ne.symm hv₀]
  · intro r hr
    obtain ⟨r₀, hr₀, hval, hrel, -⟩ := hentry r hr
    rw [hrel, hval, h.isRelaxed r₀ hr₀]
  · intro ix j hj
    obtain ⟨r, hr, hix⟩ := h.lut ix j hj
    refine ⟨_, by simp only [TestHist.count, List.getElem?_modify, hr]; rfl, ?_⟩
    by_cases hij : i = j <;> simp [hij, hix]

/-- A new entry. -/
theorem HistOk.insert (h : HistOk cfg hist seen) (hnew : v ∉ seen) :
    HistOk cfg { hist with
      results := hist.results ++ [{ values := v, counter := 1, isRelaxed := matchesInteresting cfg v }]
      lut := if ixFromValues v = -1 then hist.lut
        else hist.lut.set (ixFromValues v).toNat (some hist.results.length) } (seen ++ [v]) where
  nodup := by
    rw [List.map_append, List.nodup_append]
    refine ⟨h.nodup, by simp, ?_⟩
    rintro w hw w' hw' rfl
    have hwv : w = v := by simpa using hw'
    exact hnew (hwv ▸ (h.mem w).mp hw)
  mem w := by
    rw [List.map_append, List.mem_append, List.mem_append, h.mem w]
    simp
  counter r hr := by
    rw [List.count_append]
    rcases List.mem_append.mp hr with hr | hr
    · have hne : r.values ≠ v := fun he => hnew (he ▸ (h.mem _).mp (List.mem_map.mpr ⟨r, hr, rfl⟩))
      rw [h.counter r hr, List.count_singleton]
      simp [Ne.symm hne]
    · obtain rfl := List.mem_singleton.mp hr
      simp [List.count_eq_zero_of_not_mem hnew]
  isRelaxed r hr := by
    rcases List.mem_append.mp hr with hr | hr
    · exact h.isRelaxed r hr
    · obtain rfl := List.mem_singleton.mp hr
      rfl
  lutSize := by
    split
    · exact h.lutSize
    · rw [List.length_set]
      exact h.lutSize
  lut ix i hi := by
    have hold : hist.lut[ix]? = some (some i) → ∃ r,
        (hist.results ++ [{ values := v, counter := 1, isRelaxed := matchesInteresting cfg v }])[i]? = some r ∧
          ixFromValues r.values = ix := fun hlut => by
      obtain ⟨r, hr, hix⟩ := h.lut ix i hlut
      exact ⟨r, by rw [List.getElem?_append_left (List.getElem?_eq_some_iff.mp hr).1, hr], hix⟩
    dsimp only at hi ⊢
    split at hi
    · exact hold hi
    · next hne =>
      rw [List.getElem?_set] at hi
      split at hi
      · next heq =>
        split at hi
        · obtain rfl : hist.results.length = i := by simpa using hi
          refine ⟨_, by rw [List.getElem?_append_right (le_refl _), Nat.sub_self]; rfl, ?_⟩
          have := (ixFromValues_cases v).resolve_left hne
          dsimp only
          omega
        · cases hi
      · exact hold hi

/-- The table and the scan agree, on the entry of a tuple. -/
theorem HistOk.lookup (h : HistOk cfg hist seen) (hl : hist.lookup (ixFromValues v) = .ok (some i)) :
    ∃ result, hist.results[i]? = some result ∧ result.values = v := by
  unfold TestHist.lookup at hl
  split at hl
  · cases hl
  · next hne =>
    split at hl
    · next entry he =>
      obtain rfl : entry = some i := Except.ok.inj hl
      obtain ⟨r, hr, hix⟩ := h.lut _ _ he
      have hpos := (ixFromValues_cases v).resolve_left hne
      have hixv : ixFromValues v = ixFromValues r.values := by omega
      exact ⟨r, hr, (ixFromValues_inj hne hixv).symm⟩
    · cases hl

theorem HistOk.scan (h : HistOk cfg hist seen) (hi : hist.results[i]? = some result) (hv : result.values = v) :
    hist.results.findIdx? (matchesRun v) = some i := by
  obtain ⟨hlt, hget⟩ := List.getElem?_eq_some_iff.mp hi
  rw [List.findIdx?_eq_some_iff_getElem]
  refine ⟨hlt, by rw [hget, matchesRun_iff, hv], fun j hj hm => ?_⟩
  rw [matchesRun_iff] at hm
  have hjl : hist.results[j]? = some hist.results[j] := List.getElem?_eq_getElem _
  have := h.index_unique hjl hi (hm.trans hv.symm)
  omega

end Results

end LitmusHarness
