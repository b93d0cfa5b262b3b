import LitmusHarness.Runner.RunLoop

/-!
# The ASIDs of a batch: `sanity_check_test`, `asid_from_run_count`

The runs of a batch of a test that changes its page tables are numbered from 1 on; ASID 0 is that of the harness. There
are `1 + MAX_ASID` ASIDs with 0, and `sanity_check_test` lets a batch have as many runs: the last run of such a batch
gets the ASID behind `MAX_ASID` (`batch_asids_iff`).
-/

namespace LitmusHarness

/-- An `int` where a `u64` is needed. -/
def intToU64 (n : BitVec 32) : U64 := n.signExtend 64

theorem toNat_intToU64 (n : BitVec 32) :
    (intToU64 n).toNat = if n.toInt < 0 then n.toNat + (2 ^ 64 - 2 ^ 32) else n.toNat := by
  have hlt := n.isLt
  rw [intToU64, BitVec.toNat_signExtend, BitVec.toNat_setWidth, Nat.mod_eq_of_lt (by omega)]
  by_cases hneg : n.toInt < 0
  · rw [if_pos hneg, if_pos (BitVec.msb_eq_toInt.trans (decide_eq_true hneg))]
  · rw [if_neg hneg, if_neg fun h => hneg (of_decide_eq_true (BitVec.msb_eq_toInt.symm.trans h)), Nat.add_zero]

/-- A number that is not negative stays as it is. -/
theorem intToU64_nonneg {n : BitVec 32} (h : 0 ≤ n.toInt) :
    (intToU64 n).toNat < 2 ^ 31 ∧ (n.toInt : Int) = (intToU64 n).toNat := by
  have hlt := n.isLt
  rw [toNat_intToU64, if_neg (by omega)]
  rw [BitVec.toInt_eq_toNat_cond] at h ⊢
  split at h
  · rw [if_pos ‹_›]
    omega
  · omega

/-- A negative number becomes a large one. -/
theorem intToU64_neg {n : BitVec 32} (h : n.toInt < 0) : 2 ^ 64 - 2 ^ 31 ≤ (intToU64 n).toNat := by
  have hlt := n.isLt
  rw [toNat_intToU64, if_pos h]
  rw [BitVec.toInt_eq_toNat_cond] at h
  split at h
  · omega
  · omega

/-! ## The functions of the source -/

/-- `REQUIRES_PGTABLE`, of the flags in `requires`. -/
def requiresPgtable : BitVec 32 := 1#32 <<< 3

/-- `MAX_ASID`. -/
def maxAsid : U64 := bitmask 8

/-- `cfg->requires & REQUIRES_PGTABLE`. -/
def needsPgtable (requires : BitVec 32) : Bool := requires &&& requiresPgtable ≠ 0

/-- `sanity_check_test`. -/
def sanityCheckTest (requires : BitVec 32) (_noRuns runsInBatch : BitVec 32) : Except String Unit :=
  if needsPgtable requires ∧ intToU64 runsInBatch > 1 + maxAsid then
    .error "cannot have more than the number of possible ASIDs (256) as runs in a batch with --pgtable.\n"
  else .ok ()

/-- The number of entries of `ptables`. -/
def noPtables (runsInBatch : BitVec 32) : U64 := intToU64 (1 + runsInBatch)

/-- A division by zero. -/
inductive DivByZero
  | divByZero
  deriving DecidableEq, Repr

/-- `x % y`. -/
def remU64 (x y : U64) : Except DivByZero U64 := if y = 0 then .error .divByZero else .ok (x % y)

/-- `asid_from_run_count`. -/
def asidFromRunCount (requires : BitVec 32) (batchSize r : U64) : Except DivByZero U64 := do
  if needsPgtable requires then
    let k ← remU64 r batchSize
    return 1 + k
  else return 1

/-! ## Batches -/

/-- The runs of a batch have ASIDs of their own, none of them that of the harness, and each of them an ASID and the
index of a page table. -/
def ThreadBatch.AsidsOk (b : ThreadBatch) (requires : BitVec 32) (batchSize : U64) (runsInBatch : BitVec 32) : Prop :=
  ∃ asids, b.visits.mapM (fun v => asidFromRunCount requires batchSize v.j) = .ok asids ∧ asids.Nodup ∧
    ∀ asid ∈ asids, asid ≠ 0 ∧ asid ≤ maxAsid ∧ asid.toNat < (noPtables runsInBatch).toNat

namespace ThreadCtx

variable {ctx : ThreadCtx} {requires : BitVec 32} {noRuns runsInBatch : BitVec 32}

/-- The ASID of the `k`-th run of a batch. -/
theorem asidFromRunCount_batch (hreq : needsPgtable requires) (hpos : 0 < ctx.batchSize.toNat) {q k : Nat}
    (hfit : q * ctx.batchSize.toNat + k < 2 ^ 64) (hk : k < ctx.batchSize.toNat) :
    asidFromRunCount requires ctx.batchSize (BitVec.ofNat 64 (q * ctx.batchSize.toNat + k)) =
      .ok (1 + BitVec.ofNat 64 k) := by
  have hne : ctx.batchSize ≠ 0 := fun h => by simp [h] at hpos
  have hmod : BitVec.ofNat 64 (q * ctx.batchSize.toNat + k) % ctx.batchSize = BitVec.ofNat 64 k := by
    apply BitVec.eq_of_toNat_eq
    rw [BitVec.toNat_umod, BitVec.toNat_ofNat, BitVec.toNat_ofNat, Nat.mod_eq_of_lt hfit,
      Nat.mod_eq_of_lt (lt_trans hk ctx.batchSize.isLt), Nat.mul_comm, Nat.mul_add_mod, Nat.mod_eq_of_lt hk]
  rw [asidFromRunCount, if_pos hreq, remU64, if_neg hne, hmod]
  rfl

/-- The ASIDs of a batch are the numbers from 1 on. -/
theorem mapM_asids (hreq : needsPgtable requires) (hruns : ctx.noRuns.toNat < 2 ^ 31) (hpos : 0 < ctx.batchSize.toNat)
    (affinity : U64 → U64) {q : Nat} (hq : q * ctx.batchSize.toNat < ctx.noRuns.toNat) :
    (ctx.batchAt affinity (q * ctx.batchSize.toNat)).visits.mapM
        (fun v => asidFromRunCount requires ctx.batchSize v.j) =
      .ok ((List.range (ctx.runsIn (q * ctx.batchSize.toNat))).map fun k => 1 + BitVec.ofNat 64 k) := by
  have hstart : (BitVec.ofNat 64 (q * ctx.batchSize.toNat)).toNat = q * ctx.batchSize.toNat := by
    rw [BitVec.toNat_ofNat]
    exact Nat.mod_eq_of_lt (by omega)
  rw [batchAt, List.mapM_map]
  refine Loop.mapM_ok fun k hk => ?_
  have hlt := List.mem_range.mp hk
  unfold runsIn at hlt
  rw [Function.comp_apply, visitAt, hstart]
  exact asidFromRunCount_batch hreq hpos (by omega) (by omega)

/-- The numbers from 1 on are ASIDs, as far as they go. -/
theorem asids_ok_iff {n : Nat} {size : U64} (hn : n ≤ 256) (hsize : n < size.toNat) :
    (((List.range n).map fun k => 1 + BitVec.ofNat 64 k).Nodup ∧
      ∀ asid ∈ (List.range n).map fun k => 1 + BitVec.ofNat 64 k,
        asid ≠ 0 ∧ asid ≤ maxAsid ∧ asid.toNat < size.toNat) ↔ n ≤ 255 := by
  have hnat : ∀ k < n, (1 + BitVec.ofNat 64 k : U64).toNat = 1 + k := by
    intro k hk
    rw [BitVec.toNat_add, BitVec.toNat_ofNat, Nat.mod_eq_of_lt (a := k) (by omega)]
    exact Nat.mod_eq_of_lt (show 1 + k < 2 ^ 64 by omega)
  have hmax : maxAsid.toNat = 255 := rfl
  constructor
  · rintro ⟨-, hall⟩
    by_contra hgt
    obtain ⟨-, hle, -⟩ := hall _ (List.mem_map.mpr ⟨255, List.mem_range.mpr (by omega), rfl⟩)
    rw [BitVec.le_def, hnat 255 (by omega), hmax] at hle
    omega
  · intro hle
    refine ⟨List.nodup_range.map_on fun i hi j hj heq => ?_, fun asid hasid => ?_⟩
    · have := congrArg BitVec.toNat heq
      rw [hnat i (List.mem_range.mp hi), hnat j (List.mem_range.mp hj)] at this
      omega
    · obtain ⟨k, hk, rfl⟩ := List.mem_map.mp hasid
      have hk' := hnat k (List.mem_range.mp hk)
      have hlt := List.mem_range.mp hk
      refine ⟨fun h0 => ?_, ?_, ?_⟩
      · rw [h0, show (0 : U64).toNat = 0 from rfl] at hk'
        omega
      · rw [BitVec.le_def, hk', hmax]
        omega
      · omega

/-- A context for a number of runs that is an `int`: the tables fit into the address space, so it is not negative. -/
theorem noRuns_lt {noRuns : BitVec 32} (hruns : ctx.noRuns = intToU64 noRuns) :
    0 ≤ noRuns.toInt ∧ ctx.noRuns.toNat < 2 ^ 31 := by
  have hfits := ctx.fits
  by_cases hneg : noRuns.toInt < 0
  · have hge := intToU64_neg hneg
    rw [hruns] at hfits
    omega
  · rw [hruns]
    exact ⟨by omega, (intToU64_nonneg (by omega)).1⟩

/-- What `sanity_check_test` accepts. -/
theorem sanityCheckTest_ok_iff (noRuns : BitVec 32) :
    sanityCheckTest requires noRuns runsInBatch = .ok () ↔
      (needsPgtable requires → (intToU64 runsInBatch).toNat ≤ 256) := by
  have hgt : intToU64 runsInBatch > 1 + maxAsid ↔ 256 < (intToU64 runsInBatch).toNat := BitVec.lt_def
  unfold sanityCheckTest
  split_ifs with h
  · exact iff_of_false nofun fun hle => absurd (hgt.mp h.2) (Nat.not_lt.mpr (hle h.1))
  · exact iff_of_true rfl fun hreq => Nat.le_of_not_lt fun hlt => h ⟨hreq, hgt.mpr hlt⟩

/-- **The batches with the ASIDs they need**: those of less than 256 runs. -/
theorem batch_asids_iff (ctx : ThreadCtx) {requires noRuns runsInBatch : BitVec 32} (hreq : needsPgtable requires)
    (hruns : ctx.noRuns = intToU64 noRuns) (hbatch : ctx.batchSize = intToU64 runsInBatch) (hpos : 1 ≤ runsInBatch.toInt)
    (haccepted : sanityCheckTest requires noRuns runsInBatch = .ok ()) {fuel : Nat} (hfuel : ctx.noRuns.toNat ≤ fuel)
    {affinity : U64 → U64} {batches : List ThreadBatch} (hrun : ctx.runThread fuel affinity = .ok batches)
    {b : ThreadBatch} (hb : b ∈ batches) :
    b.AsidsOk requires ctx.batchSize runsInBatch ↔ b.visits.length ≤ 255 := by
  have hle := (sanityCheckTest_ok_iff noRuns).mp haccepted hreq
  obtain ⟨-, hint⟩ := intToU64_nonneg (n := runsInBatch) (by omega)
  rw [← hbatch] at hle hint
  have hpos' : 0 < ctx.batchSize.toNat := by omega
  have hlt := (noRuns_lt hruns).2
  have hptables : (noPtables runsInBatch).toNat = 1 + ctx.batchSize.toNat := by
    have hnat : runsInBatch.toNat = ctx.batchSize.toNat := by
      rw [hbatch, toNat_intToU64, if_neg (by omega)]
    have hsucc : (1 + runsInBatch).toNat = 1 + ctx.batchSize.toNat := by
      rw [BitVec.toNat_add, hnat]
      exact Nat.mod_eq_of_lt (show 1 + ctx.batchSize.toNat < 2 ^ 32 by omega)
    rw [noPtables, toNat_intToU64, if_neg (by rw [BitVec.toInt_eq_toNat_cond, if_pos (by omega)]; omega), hsucc]
  rw [runThread_eq hlt hpos' (by omega) hfuel] at hrun
  cases hrun
  obtain ⟨q, hq, rfl⟩ := List.mem_map.mp hb
  have hstart := (lt_noBatches_iff hpos').mp (List.mem_range.mp hq)
  have hn : ctx.runsIn (q * ctx.batchSize.toNat) ≤ ctx.batchSize.toNat := Nat.min_le_left _ _
  have hlen : (ctx.batchAt affinity (q * ctx.batchSize.toNat)).visits.length =
      ctx.runsIn (q * ctx.batchSize.toNat) := by
    rw [batchAt, List.length_map, List.length_range]
  rw [hlen, ← @asids_ok_iff _ (noPtables runsInBatch) (by omega) (by omega)]
  unfold ThreadBatch.AsidsOk
  rw [mapM_asids hreq hlt hpos' affinity hstart]
  constructor
  · rintro ⟨asids, heq, hok⟩
    cases heq
    exact hok
  · exact fun hok => ⟨_, rfl, hok⟩

/-- A test of `noRuns` runs, without variables and registers, and its tables one after the other. -/
def noVars (noRuns batchSize noThreads : U64) (fits : noRuns.toNat * 8 < 2 ^ 64) : ThreadCtx where
  noRuns := noRuns
  outRegs := []
  shuffledIxs := 0
  shuffledIxsInverse := 2 ^ 64
  affinity := 2 ^ 65
  fits := fits
  outRegs_shuffled := nofun
  shuffled_inverse := .inl (by omega)
  shuffled_affinity := .inl (by omega)
  inverse_affinity := .inl (by omega)
  shuffleType := .none
  mem := fun _ => 0
  batchSize := batchSize
  noThreads := noThreads
  noHeapVars := 0
  heapVarVa := fun _ _ _ => 0

/-- Two runs in batches of two. -/
theorem batch_asids_two : ((noVars 2 2 1 (by decide)).batchAt (fun _ => 0) 0).AsidsOk requiresPgtable 2 2 :=
  (@batch_asids_iff (noVars 2 2 1 (by decide)) requiresPgtable 2 2 rfl rfl rfl (by decide) rfl 2 (Nat.le_refl 2) _ _
    (runThread_eq (by decide) (by decide) (by decide) (Nat.le_refl 2)) _ List.mem_cons_self).mpr (by decide)

/-- A batch of 256 runs is accepted, and its last run gets ASID 256. -/
theorem batch_asids_overflow : sanityCheckTest requiresPgtable 256 256 = .ok () ∧
    ∃ batches, (noVars 256 256 1 (by decide)).runThread 256 (fun _ => 0) = .ok batches ∧
      ∃ b ∈ batches, ¬b.AsidsOk requiresPgtable 256 256 := by
  have hone : 0 < (noVars 256 256 1 (by decide)).noBatches := by decide
  refine ⟨rfl, _, runThread_eq (by decide) (by decide) (by decide) (Nat.le_refl 256), _,
    List.mem_map.mpr ⟨0, List.mem_range.mpr hone, rfl⟩, ?_⟩
  rintro ⟨asids, heq, hok⟩
  have hasids := @mapM_asids (noVars 256 256 1 (by decide)) requiresPgtable (by decide) (by decide) (by decide)
    (fun _ => 0) 0 (by decide)
  cases hasids.symm.trans heq
  exact absurd ((@asids_ok_iff _ (noPtables 256) (Nat.le_refl 256) (by decide)).mp hok) (by decide)

end ThreadCtx

end LitmusHarness
