import LitmusHarness.Runner.TestCtx
import LitmusHarness.Valloc.Arena

/-!
# The data of the runs of a batch: `run_data_size` and `setup_run_data`

`run_data_size` rounds the bytes of the arrays of one run up to a power of two, and the arena of a batch has that many
bytes for each run. What rounding up leaves has to hold the gaps in front of the arrays, and nothing makes it large
enough: with two variables and six registers it is 16 bytes. The arena is large enough if and only if the gaps of the
first run fit, whatever the size of the batch (`runDataFits_iff`).
-/

namespace LitmusHarness

open Bump (Request roundUp gap after afterAll)

/-- `run_data_size`. A shift by 64, which C leaves open, is a shift by 0 on this machine. -/
def runDataSize (noHeapVars noRegs : U64) : U64 :=
  let actualSize := 8 * noHeapVars + 8 * noHeapVars + 8 * noRegs + 8 * noHeapVars * 4 + 8 * noHeapVars * 4 +
    8 * noHeapVars * 2
  let bits := log2 actualSize
  alignUp actualSize ((bits + 1) % 64)

/-- The pointers of `litmus_test_run` into the arena. -/
structure RunPointers where
  va : U64
  pa : U64
  outReg : U64
  ttDescs : U64
  ttEntries : U64
  /-- `tt_descs[v]` and `tt_entries[v]`. -/
  levels : List (U64 × U64)

/-- The body of the first loop of `setup_run_data`. -/
def setupRun (noHeapVars noRegs : U64) : StateT Arena Option RunPointers := do
  let va ← allocArena (8 * noHeapVars)
  let pa ← allocArena (8 * noHeapVars)
  let outReg ← allocArena (8 * noRegs)
  let ttDescs ← allocArena (8 * noHeapVars)
  let ttEntries ← allocArena (8 * noHeapVars)
  let levels ← (List.range noHeapVars.toNat).mapM fun _ => do
    let descs ← allocArena (8 * 4)
    let entries ← allocArena (8 * 4)
    return (descs, entries)
  return { va, pa, outReg, ttDescs, ttEntries, levels }

/-- The first loop of `setup_run_data`. The second one fills the arrays and allocates nothing. -/
def setupRunData (noHeapVars noRegs batchStartIdx batchEndIdx : U64) : StateT Arena Option (List RunPointers) :=
  (List.range' batchStartIdx.toNat (batchEndIdx.toNat - batchStartIdx.toNat)).mapM fun _ => setupRun noHeapVars noRegs

/-- The arrays of a run: their addresses, and the bytes of their elements. -/
def RunPointers.blocks (noHeapVars noRegs : U64) (run : RunPointers) : List (U64 × Nat) :=
  [(run.va, 8 * noHeapVars.toNat), (run.pa, 8 * noHeapVars.toNat), (run.outReg, 8 * noRegs.toNat),
    (run.ttDescs, 8 * noHeapVars.toNat), (run.ttEntries, 8 * noHeapVars.toNat)] ++
  run.levels.flatMap fun level => [(level.1, 32), (level.2, 32)]

/-- The arena of a batch is large enough: no allocation for its runs fails, and their arrays are in its data and do not
overlap. -/
def RunDataFits (noHeapVars noRegs batchSize arena : U64) : Prop :=
  ∀ batchStartIdx batchEndIdx : U64, batchEndIdx.toNat - batchStartIdx.toNat ≤ batchSize.toNat →
    ∃ runs a', setupRunData noHeapVars noRegs batchStartIdx batchEndIdx
        (arenaInit arena (runDataSize noHeapVars noRegs * batchSize)) = some (runs, a') ∧
      (∀ b ∈ runs.flatMap (·.blocks noHeapVars noRegs), arena.toNat + 16 ≤ b.1.toNat ∧
        b.1.toNat + b.2 ≤ arena.toNat + 16 + (runDataSize noHeapVars noRegs * batchSize).toNat) ∧
      (runs.flatMap (·.blocks noHeapVars noRegs)).Pairwise fun b b' => Apart b.1.toNat b.2 b'.1.toNat b'.2

/-! ## The condition -/

/-- The bytes of the arrays of a run. -/
def runBytes (noHeapVars noRegs : Nat) : Nat := 96 * noHeapVars + 8 * noRegs

/-- The bytes that the arena has for a run. -/
def runSpace (noHeapVars noRegs : Nat) : Nat :=
  roundUp (runBytes noHeapVars noRegs) (((runBytes noHeapVars noRegs).log2 + 1) % 64)

/-- The gaps in front of the arrays of a run, from an address on. -/
def runGaps (noHeapVars noRegs data : Nat) : Nat :=
  let vars := (request (8 * noHeapVars)).bits
  let regs := (request (8 * noRegs)).bits
  let outReg := roundUp data vars + roundUp (8 * noHeapVars) vars + 8 * noHeapVars
  let ttDescs := roundUp outReg regs + 8 * noRegs
  let levels := roundUp ttDescs vars + roundUp (8 * noHeapVars) vars + 8 * noHeapVars
  gap data vars + gap (8 * noHeapVars) vars + gap outReg regs + gap ttDescs vars + gap (8 * noHeapVars) vars +
    if noHeapVars = 0 then 0 else gap levels 5

/-! ## The allocations -/

/-- The sizes of the arrays of a run, in the order of their allocation. -/
def runSizes (noHeapVars noRegs : Nat) : List Nat :=
  [8 * noHeapVars, 8 * noHeapVars, 8 * noRegs, 8 * noHeapVars, 8 * noHeapVars] ++
    (List.replicate noHeapVars [32, 32]).flatten

/-- The pointers of a run into the arena, in the order of their allocation. -/
def RunPointers.list (run : RunPointers) : List U64 :=
  [run.va, run.pa, run.outReg, run.ttDescs, run.ttEntries] ++ run.levels.flatMap fun level => [level.1, level.2]

variable (noHeapVars noRegs : U64)

theorem ofNat_words (n : U64) : BitVec.ofNat 64 (8 * n.toNat) = 8 * n := by
  rw [BitVec.ofNat_mul, BitVec.ofNat_toNat, BitVec.setWidth_eq]
  rfl

/-- The allocations of a run, as one list. -/
theorem setupRun_pointers : RunPointers.list <$> setupRun noHeapVars noRegs =
    ((runSizes noHeapVars.toNat noRegs.toNat).map (BitVec.ofNat 64)).mapM allocArena := by
  have hlevel : ((fun level : U64 × U64 => [level.1, level.2]) <$> (do
      let descs ← allocArena (8 * 4)
      let entries ← allocArena (8 * 4)
      return (descs, entries))) = [8 * 4, 8 * 4].mapM allocArena := by
    simp only [List.mapM_cons, List.mapM_nil, map_eq_pure_bind, bind_assoc, pure_bind]
  have hlevels := Loop.flatMap_mapM hlevel (List.range noHeapVars.toNat)
  rw [List.length_range] at hlevels
  have hsizes : ((List.replicate noHeapVars.toNat [32, 32]).flatten).map (BitVec.ofNat 64) =
      (List.replicate noHeapVars.toNat [8 * 4, 8 * 4]).flatten := by
    rw [List.map_flatten, List.map_replicate]
    rfl
  rw [runSizes, List.map_append, List.mapM_append, hsizes, ← hlevels]
  simp only [setupRun, RunPointers.list, List.map_cons, List.map_nil, ofNat_words, List.mapM_cons, List.mapM_nil,
    map_eq_pure_bind, bind_assoc, pure_bind]

/-- Every variable has its levels. -/
theorem levels_of_setupRun {a a' : Arena} {run : RunPointers} (h : setupRun noHeapVars noRegs a = some (run, a')) :
    run.levels.length = noHeapVars.toNat := by
  simp only [setupRun, Loop.bind_apply_iff, Loop.pure_apply] at h
  obtain ⟨va, a₁, -, pa, a₂, -, outReg, a₃, -, ttDescs, a₄, -, ttEntries, a₅, -, levels, a₆, hlevels, heq⟩ := h
  cases heq
  exact (Loop.mapM_some (P := fun _ => True) (fun _ _ _ _ _ => trivial) hlevels).1.trans List.length_range

/-! ## The arrays -/

variable {noHeapVars noRegs}

theorem flatten_replicate_succ {α : Type} (n : Nat) (l : List α) :
    (List.replicate (n + 1) l).flatten = l ++ (List.replicate n l).flatten := by
  rw [List.replicate_succ, List.flatten_cons]

theorem levels_placed (levels : List (U64 × U64)) :
    (levels.flatMap fun level => [level.1, level.2]).length = (List.replicate levels.length [32, 32]).flatten.length ∧
    (levels.flatMap fun level => [((level.1).toNat, 32), ((level.2).toNat, 32)]) =
      placed (levels.flatMap fun level => [level.1, level.2]) (List.replicate levels.length [32, 32]).flatten := by
  induction levels with
  | nil => exact ⟨rfl, rfl⟩
  | cons level levels ih =>
    obtain ⟨hlength, hplaced⟩ := ih
    rw [List.length_cons, flatten_replicate_succ, List.flatMap_cons, List.flatMap_cons, placed_append rfl, ← hplaced,
      List.length_append, List.length_append, hlength]
    exact ⟨rfl, rfl⟩

/-- The arrays of a run are what it has allocated. -/
theorem blocks_placed {run : RunPointers} (h : run.levels.length = noHeapVars.toNat) :
    run.list.length = (runSizes noHeapVars.toNat noRegs.toNat).length ∧
    (run.blocks noHeapVars noRegs).map (fun b => (b.1.toNat, b.2)) =
      placed run.list (runSizes noHeapVars.toNat noRegs.toNat) := by
  obtain ⟨hlength, hplaced⟩ := levels_placed run.levels
  rw [h] at hlength hplaced
  rw [RunPointers.list, runSizes, placed_append rfl, ← hplaced, RunPointers.blocks, List.map_append,
    List.map_flatMap, List.length_append, List.length_append, hlength]
  exact ⟨rfl, rfl⟩

theorem flatMap_blocks_placed {runs : List RunPointers} (h : ∀ run ∈ runs, run.levels.length = noHeapVars.toNat) :
    (runs.flatMap (·.blocks noHeapVars noRegs)).map (fun b => (b.1.toNat, b.2)) =
      placed (runs.flatMap RunPointers.list)
        (List.replicate runs.length (runSizes noHeapVars.toNat noRegs.toNat)).flatten := by
  induction runs with
  | nil => rfl
  | cons run runs ih =>
    rw [List.forall_mem_cons] at h
    obtain ⟨hlength, hplaced⟩ := @blocks_placed noHeapVars noRegs run h.1
    rw [List.flatMap_cons, List.map_append, hplaced, ih h.2, List.flatMap_cons, List.length_cons,
      flatten_replicate_succ, placed_append hlength]

/-- The requests of a run. -/
def runRequests (noHeapVars noRegs : Nat) : List Request := (runSizes noHeapVars noRegs).map request

theorem map_flatten_replicate (n r k : Nat) : (List.replicate k (runSizes n r)).flatten.map request =
    (List.replicate k (runRequests n r)).flatten := by
  rw [List.map_flatten, List.map_replicate, runRequests]

theorem setupRunData_pointers (batchStartIdx batchEndIdx : U64) :
    List.flatMap RunPointers.list <$> setupRunData noHeapVars noRegs batchStartIdx batchEndIdx =
      ((List.replicate (batchEndIdx.toNat - batchStartIdx.toNat)
        (runSizes noHeapVars.toNat noRegs.toNat)).flatten.map (BitVec.ofNat 64)).mapM allocArena := by
  rw [setupRunData, Loop.flatMap_mapM (setupRun_pointers noHeapVars noRegs), List.length_range', List.map_flatten,
    List.map_replicate]

/-- **The arrays of the runs of a batch are as they should be** if and only if the requests fit. -/
theorem setupRunData_iff {a : Arena} (ha : a.Valid) (batchStartIdx batchEndIdx : U64) :
    (∃ runs a', setupRunData noHeapVars noRegs batchStartIdx batchEndIdx a = some (runs, a') ∧
      (∀ b ∈ runs.flatMap (·.blocks noHeapVars noRegs), a.data.toNat ≤ b.1.toNat ∧
        b.1.toNat + b.2 ≤ a.data.toNat + a.size.toNat) ∧
      (runs.flatMap (·.blocks noHeapVars noRegs)).Pairwise fun b b' => Apart b.1.toNat b.2 b'.1.toNat b'.2) ↔
    afterAll (List.replicate (batchEndIdx.toNat - batchStartIdx.toNat)
      (runRequests noHeapVars.toNat noRegs.toNat)).flatten a.top.toNat ≤ a.data.toNat + a.size.toNat := by
  have hpointers := congrFun (@setupRunData_pointers noHeapVars noRegs batchStartIdx batchEndIdx) a
  rw [← map_flatten_replicate]
  have hblocks : ∀ {runs a'}, setupRunData noHeapVars noRegs batchStartIdx batchEndIdx a = some (runs, a') →
      (runs.flatMap (·.blocks noHeapVars noRegs)).map (fun b => (b.1.toNat, b.2)) =
        placed (runs.flatMap RunPointers.list) (List.replicate (batchEndIdx.toNat - batchStartIdx.toNat)
          (runSizes noHeapVars.toNat noRegs.toNat)).flatten := by
    intro runs a' h
    obtain ⟨hlength, hlevels⟩ := Loop.mapM_some
      (P := fun run : RunPointers => run.levels.length = noHeapVars.toNat)
      (fun _ _ _ _ hrun => levels_of_setupRun noHeapVars noRegs hrun) h
    rw [List.length_range'] at hlength
    rw [flatMap_blocks_placed hlevels, hlength]
  constructor
  · rintro ⟨runs, a', h, hin, -⟩
    have hrun : (List.flatMap RunPointers.list <$> setupRunData noHeapVars noRegs batchStartIdx batchEndIdx) a =
        some (runs.flatMap RunPointers.list, a') := by
      change (setupRunData noHeapVars noRegs batchStartIdx batchEndIdx a).bind _ = _
      rw [h]
      rfl
    rw [hpointers] at hrun
    apply afterAll_le_of_mapM_allocArena ha hrun
    rw [← hblocks h, List.forall_mem_map]
    exact hin
  · intro h
    obtain ⟨ps, a', hrun, -, hplaced⟩ := mapM_allocArena_of_le ha h
    rw [← hpointers] at hrun
    obtain ⟨⟨runs, _⟩, hruns, heq⟩ := Option.bind_eq_some_iff.1
      (show (setupRunData noHeapVars noRegs batchStartIdx batchEndIdx a).bind _ = _ from hrun)
    cases heq
    have hall := (hblocks hruns).trans hplaced
    refine ⟨runs, a', hruns, ?_, ?_⟩
    · rw [← List.forall_mem_map (f := fun b : U64 × Nat => (b.1.toNat, b.2))
        (P := fun b => a.data.toNat ≤ b.1 ∧ b.1 + b.2 ≤ a.data.toNat + a.size.toNat), hall]
      intro b hb
      obtain ⟨hstart, hend⟩ := Bump.mem_blocks hb
      exact ⟨ha.data_le.trans hstart, hend.trans h⟩
    · have hpairwise := hall ▸ Bump.pairwise_blocks _ a.top.toNat
      exact (List.pairwise_map.1 hpairwise).imp fun hle => .inl hle

/-! ## The gaps -/

theorem afterAll_levels (n top : Nat) : afterAll ((List.replicate n [32, 32]).flatten.map request) top =
    top + 64 * n + if n = 0 then 0 else gap top 5 := by
  rw [show [32, 32] = List.replicate 2 32 from rfl, List.flatten_replicate_replicate, List.map_replicate]
  cases n with
  | zero => rfl
  | succ n =>
    have hlast : (n + 1) * 2 = (2 * n + 1) + 1 := by omega
    have hgap := Bump.roundUp_add_gap top 5
    rw [hlast, show request 32 = ⟨5, 32⟩ from rfl, Bump.afterAll_replicate (show 2 ^ 5 ∣ 32 from ⟨1, rfl⟩), if_neg (Nat.succ_ne_zero n)]
    omega

/-- The arrays of a run take their bytes and the gaps. -/
theorem afterAll_runRequests (n r data : Nat) :
    afterAll (runRequests n r) data = data + runBytes n r + runGaps n r data := by
  have hvars : ∀ top : Nat, roundUp (roundUp top (request (8 * n)).bits + 8 * n) (request (8 * n)).bits =
      roundUp top (request (8 * n)).bits + roundUp (8 * n) (request (8 * n)).bits := fun top => by
    rw [Nat.add_comm, Bump.roundUp_add (Bump.dvd_roundUp _ _), Nat.add_comm]
  have hgap := fun top bits => (Bump.roundUp_add_gap top bits).symm
  rw [runRequests, runSizes, List.map_append, Bump.afterAll_append, afterAll_levels]
  simp only [List.map_cons, List.map_nil, Bump.afterAll_cons, Bump.afterAll_nil, after, runGaps, runBytes, hvars,
    show ∀ size, (request size).size = size from fun _ => rfl]
  simp only [hgap]
  omega

/-! ## The space of a run -/

theorem runBytes_le_runSpace (n r : Nat) : runBytes n r ≤ runSpace n r := Bump.le_roundUp _ _

/-- Rounding up at most doubles. -/
theorem runSpace_le (n r : Nat) : runSpace n r ≤ 2 * runBytes n r := by
  unfold runSpace
  by_cases hzero : runBytes n r = 0
  · rw [hzero]
    decide
  · have hlog := Nat.log2_self_le hzero
    have hlt := @Nat.lt_log2_self (runBytes n r)
    have hround : roundUp (runBytes n r) (((runBytes n r).log2 + 1) % 64) ≤
        roundUp (2 ^ ((runBytes n r).log2 + 1)) (((runBytes n r).log2 + 1) % 64) := Bump.roundUp_mono _ hlt.le
    rw [Bump.roundUp_of_dvd (Nat.pow_dvd_pow 2 (Nat.mod_le _ 64)), Nat.pow_succ] at hround
    omega

/-- The alignment of an array divides the space of a run. -/
theorem dvd_runSpace {n r : Nat} (h : runBytes n r < 2 ^ 63) : ∀ q ∈ runRequests n r, 2 ^ q.bits ∣ runSpace n r := by
  have hsize : ∀ size ∈ runSizes n r, size ≤ runBytes n r := by
    intro size hsize
    simp only [runSizes, List.mem_append, List.mem_cons, List.not_mem_nil, or_false, List.mem_flatten,
      List.mem_replicate] at hsize
    unfold runBytes
    rcases hsize with hsize | ⟨level, ⟨hn, rfl⟩, hsize⟩
    · omega
    · simp only [List.mem_cons, List.not_mem_nil, or_false, or_self] at hsize
      omega
  intro q hq
  obtain ⟨size, hmem, rfl⟩ := List.mem_map.1 hq
  refine (Nat.pow_dvd_pow 2 ?_).trans (Bump.dvd_roundUp _ _)
  by_cases hzero : size = 0
  · subst hzero
    exact Nat.zero_le _
  · have hbytes := hsize size hmem
    have hlog : size.log2 ≤ (runBytes n r).log2 :=
      (Nat.le_log2 (by omega)).2 ((Nat.log2_self_le hzero).trans hbytes)
    have hlt : (runBytes n r).log2 < 63 := (Nat.log2_lt (by omega)).2 h
    have hbits : (request size).bits ≤ size.log2 := Nat.min_le_right 8 size.log2
    omega

theorem toNat_runDataSize (h : runBytes noHeapVars.toNat noRegs.toNat < 2 ^ 64) :
    (runDataSize noHeapVars noRegs).toNat = runSpace noHeapVars.toNat noRegs.toNat := by
  have hactual : (8 * noHeapVars + 8 * noHeapVars + 8 * noRegs + 8 * noHeapVars * 4 + 8 * noHeapVars * 4 +
      8 * noHeapVars * 2).toNat = runBytes noHeapVars.toNat noRegs.toNat := by
    unfold runBytes at h ⊢
    simp only [BitVec.toNat_add, BitVec.toNat_mul, show (8 : U64).toNat = 8 from rfl,
      show (4 : U64).toNat = 4 from rfl, show (2 : U64).toNat = 2 from rfl]
    omega
  have hround : runBytes noHeapVars.toNat noRegs.toNat +
      (2 ^ (((runBytes noHeapVars.toNat noRegs.toNat).log2 + 1) % 64) - 1) < 2 ^ 64 := by
    by_cases hhalf : runBytes noHeapVars.toNat noRegs.toNat < 2 ^ 63
    · have hpow : 2 ^ (((runBytes noHeapVars.toNat noRegs.toNat).log2 + 1) % 64) ≤ 2 ^ 63 :=
        Nat.pow_le_pow_right (by decide) (Nat.lt_succ_iff.1 (Nat.mod_lt _ (by decide)))
      omega
    · have hlog : (runBytes noHeapVars.toNat noRegs.toNat).log2 = 63 :=
        (Nat.log2_eq_iff (by omega)).2 ⟨by omega, h⟩
      rw [hlog]
      exact h
  simp only [runDataSize]
  rw [log2_eq, toNat_alignUp _ (Nat.mod_lt _ (by decide)) (by rwa [hactual]), hactual]
  rfl

/-! ## The arena of a batch -/

theorem valid_arenaInit {arena size : U64} (h : arena.toNat + 16 + size.toNat < 2 ^ 64) :
    (arenaInit arena size).data.toNat = arena.toNat + 16 ∧ (arenaInit arena size).Valid := by
  have hdata : (arena + 16).toNat = arena.toNat + 16 := by
    rw [BitVec.toNat_add, show (16 : U64).toNat = 16 from rfl, Nat.mod_eq_of_lt (by omega)]
  refine ⟨hdata, ?_, Nat.le_refl _, Nat.le_add_right _ _, ?_⟩
  · exact hdata ▸ Nat.succ_pos _
  · change (arena + 16).toNat + size.toNat < 2 ^ 64
    rwa [hdata]

/-- The batches with the most runs decide. -/
theorem runDataFits_iff_requests {batchSize arena : U64}
    (h : arena.toNat + 16 + (runDataSize noHeapVars noRegs * batchSize).toNat < 2 ^ 64) :
    RunDataFits noHeapVars noRegs batchSize arena ↔
      afterAll (List.replicate batchSize.toNat (runRequests noHeapVars.toNat noRegs.toNat)).flatten
        (arena.toNat + 16) ≤ arena.toNat + 16 + (runDataSize noHeapVars noRegs * batchSize).toNat := by
  obtain ⟨hdata, hvalid⟩ := valid_arenaInit h
  have hiff := @setupRunData_iff noHeapVars noRegs _ hvalid
  rw [show (arenaInit arena (runDataSize noHeapVars noRegs * batchSize)).top = (arenaInit arena _).data from rfl,
    show (arenaInit arena (runDataSize noHeapVars noRegs * batchSize)).size = _ from rfl, hdata] at hiff
  constructor
  · intro hfits
    have hall := (hiff 0 batchSize).1 (hfits 0 batchSize (Nat.sub_le _ _))
    exact hall
  · intro hall batchStartIdx batchEndIdx hle
    refine (hiff batchStartIdx batchEndIdx).2 (Nat.le_trans ?_ hall)
    obtain ⟨more, hmore⟩ := Nat.exists_eq_add_of_le hle
    rw [hmore, List.replicate_add, List.flatten_append, Bump.afterAll_append]
    exact Bump.le_afterAll _ _

theorem le_afterAll_runs (n r k data : Nat) :
    data + runBytes n r * k ≤ afterAll (List.replicate k (runRequests n r)).flatten data := by
  induction k generalizing data with
  | zero => exact Nat.le_refl data
  | succ k ih =>
    have hrest := ih (afterAll (runRequests n r) data)
    rw [afterAll_runRequests] at hrest
    rw [flatten_replicate_succ, Bump.afterAll_append, afterAll_runRequests, Nat.mul_add_one]
    omega

/-- All runs fit into their spaces if and only if the first one does. -/
theorem afterAll_runs_le_iff {n r k : Nat} (hk : 0 < k) (hspace : runSpace n r * k < 2 ^ 64) (data : Nat) :
    afterAll (List.replicate k (runRequests n r)).flatten data ≤ data + runSpace n r * k ↔
      runBytes n r + runGaps n r data ≤ runSpace n r := by
  have hone : afterAll (runRequests n r) data ≤ data + runSpace n r ↔
      runBytes n r + runGaps n r data ≤ runSpace n r := by
    rw [afterAll_runRequests]
    omega
  by_cases hhalf : runBytes n r < 2 ^ 63
  · rw [Nat.mul_comm (runSpace n r), Bump.repeat_le_iff (dvd_runSpace hhalf) hk, hone]
  · -- there is space for one run only
    have hbytes := runBytes_le_runSpace n r
    have hk1 : k = 1 := by
      by_contra hne
      have htwo := Nat.mul_le_mul_left (runSpace n r) (show 2 ≤ k by omega)
      omega
    rw [hk1, flatten_replicate_succ, List.replicate_zero, List.flatten_nil, List.append_nil, Nat.mul_one, hone]

/-- **The arena of a batch is large enough** if and only if the gaps of a run from its data on fit into what rounding up
leaves, and the size is a 64-bit number. -/
theorem runDataFits_iff (noHeapVars noRegs batchSize arena : U64) (hbatch : 0 < batchSize)
    (harena : arena.toNat + 16 + (runDataSize noHeapVars noRegs * batchSize).toNat < 2 ^ 64) :
    RunDataFits noHeapVars noRegs batchSize arena ↔
      runSpace noHeapVars.toNat noRegs.toNat * batchSize.toNat < 2 ^ 64 ∧
      runBytes noHeapVars.toNat noRegs.toNat + runGaps noHeapVars.toNat noRegs.toNat (arena.toNat + 16) ≤
        runSpace noHeapVars.toNat noRegs.toNat := by
  have hpos : 0 < batchSize.toNat := hbatch
  have hbytes := le_afterAll_runs noHeapVars.toNat noRegs.toNat batchSize.toNat (arena.toNat + 16)
  have hle := runBytes_le_runSpace noHeapVars.toNat noRegs.toNat
  -- a size that wraps around is too small
  have hsize : runBytes noHeapVars.toNat noRegs.toNat * batchSize.toNat < 2 ^ 64 →
      (runDataSize noHeapVars noRegs * batchSize).toNat =
        runSpace noHeapVars.toNat noRegs.toNat * batchSize.toNat % 2 ^ 64 := by
    intro hlt
    rw [BitVec.toNat_mul, toNat_runDataSize ((Nat.le_mul_of_pos_right _ hpos).trans_lt hlt)]
  rw [runDataFits_iff_requests harena]
  constructor
  · intro hfits
    have hlt : runBytes noHeapVars.toNat noRegs.toNat * batchSize.toNat < 2 ^ 64 := by omega
    have hdouble := Nat.mul_le_mul_right batchSize.toNat (runSpace_le noHeapVars.toNat noRegs.toNat)
    rw [Nat.mul_assoc] at hdouble
    rw [hsize hlt] at hfits
    have hspace : runSpace noHeapVars.toNat noRegs.toNat * batchSize.toNat < 2 ^ 64 := by omega
    rw [Nat.mod_eq_of_lt hspace, afterAll_runs_le_iff hpos hspace] at hfits
    exact ⟨hspace, hfits⟩
  · rintro ⟨hspace, hgaps⟩
    have hlt := (Nat.mul_le_mul_right batchSize.toNat hle).trans_lt hspace
    rw [hsize hlt, Nat.mod_eq_of_lt hspace]
    exact (afterAll_runs_le_iff hpos hspace _).2 hgaps

theorem runDataFits_two : RunDataFits 2 2 10 0x40001000 :=
  (runDataFits_iff 2 2 10 0x40001000 (by decide) (by decide)).2 (by decide)

/-- `MP.times+pos` has 2 variables and 6 registers. -/
theorem runDataFits_overAllocated : (0 : U64) < 1 ∧ (0x40001000 : U64).toNat % 8 = 0 ∧
    (0x40001000 : U64).toNat + 16 + (runDataSize 2 6 * 1).toNat < 2 ^ 64 ∧ ¬ RunDataFits 2 6 1 0x40001000 := by
  refine ⟨by decide, by decide, by decide, fun h => ?_⟩
  rw [runDataFits_iff_requests (by decide)] at h
  revert h
  decide

/-- With 5 variables and up to 3 registers no address is good enough. -/
example : ∀ r < 4, runSpace 5 r < runBytes 5 r + runGaps 5 r 0 := by decide

end LitmusHarness
