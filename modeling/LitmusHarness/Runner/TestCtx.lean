import LitmusHarness.Concretization.Batch
import LitmusHarness.Device.Layout
import LitmusHarness.Lib.Reach
import LitmusHarness.Shuffle

/-!
# The tables of a test context: `init_test_ctx`, `count_to_run_index`, `run_count_from_idx`

The two tables that translate between run counts and run indices, and the table of the affinities, which every batch
shuffles again. The other data of the context is left out, except for the output registers, which the loop that fills
the first table writes too. After any number of batches the tables of the runs are inverse to each other and the
affinities are a permutation of the CPUs (`shuffled_tables`).
-/

namespace LitmusHarness

open Bytes (Mem)

/-! ## The functions of the source -/

/-- `aff_type_t`. -/
inductive AffType
  | none | rand
  deriving DecidableEq, Repr

/-- Bytes that do not overlap: `n` from `a` on and `k` from `b` on. -/
def Apart (a n b k : Nat) : Prop := a + n ≤ b ∨ b + k ≤ a

instance (a n b k : Nat) : Decidable (Apart a n b k) := inferInstanceAs (Decidable (_ ∨ _))

/-- The fields of `test_ctx_t` for the tables. They come from the allocator: the tables fit into the address space
and do not overlap. -/
structure TestCtx where
  noRuns : U64
  /-- The arrays of the output registers, of `no_runs` words each. -/
  outRegs : List Nat
  shuffledIxs : Nat
  shuffledIxsInverse : Nat
  affinity : Nat
  fits : noRuns.toNat * 8 < 2 ^ 64
  outRegs_shuffled : ∀ a ∈ outRegs, Apart a (noRuns.toNat * 8) shuffledIxs (noRuns.toNat * 8)
  shuffled_inverse : Apart shuffledIxs (noRuns.toNat * 8) shuffledIxsInverse (noRuns.toNat * 8)
  shuffled_affinity : Apart shuffledIxs (noRuns.toNat * 8) affinity (noCpus.toNat * 4)
  inverse_affinity : Apart shuffledIxsInverse (noRuns.toNat * 8) affinity (noCpus.toNat * 4)

namespace TestCtx

variable (ctx : TestCtx)

/-- The loop of `init_test_ctx` that clears the output registers and numbers the runs. -/
def initShuffled (m : Mem) : Mem :=
  Loop.forRange 0 ctx.noRuns.toNat (fun i m =>
    let m := ctx.outRegs.foldl (fun m a => Bytes.store64 m (a + i * 8) 0) m
    Bytes.store64 m (ctx.shuffledIxs + i * 8) (BitVec.ofNat 64 i)) m

/-- The loop of `init_test_ctx` that fills `rev_lookup`. -/
def initInverse (m : Mem) : Mem :=
  Loop.forRange 0 ctx.noRuns.toNat (fun i m =>
    Bytes.store64 m (ctx.shuffledIxsInverse + (Bytes.load64 m (ctx.shuffledIxs + i * 8)).toNat * 8)
      (BitVec.ofNat 64 i)) m

/-- The loop of `init_test_ctx` that fills `affinity`. -/
def initAffinity (m : Mem) : Mem :=
  Loop.forRange 0 noCpus.toNat (fun i m => Bytes.store32 m (ctx.affinity + i * 4) (BitVec.ofNat 32 i)) m

/-- `init_test_ctx`, for the tables, from the seed and the memory. `datum` is the buffer of `shuffle` on the stack. -/
def initTestCtx (datum : Nat) (st : U64 × Mem) : U64 × Mem :=
  let m := ctx.initShuffled st.2
  let (seed, m) := Shuffle.shuffle randn datum ctx.shuffledIxs 8 ctx.noRuns (st.1, m)
  let m := ctx.initInverse m
  let m := ctx.initAffinity m
  (seed, m)

/-- `count_to_run_index`. -/
def countToRunIndex (shuffleType : ShuffleType) (m : Mem) (i : U64) : U64 :=
  match shuffleType with
  | .none => i
  | .rand => Bytes.load64 m (ctx.shuffledIxs + i.toNat * 8)

/-- `run_count_from_idx`. -/
def runCountFromIdx (shuffleType : ShuffleType) (m : Mem) (idx : U64) : U64 :=
  match shuffleType with
  | .none => idx
  | .rand => Bytes.load64 m (ctx.shuffledIxsInverse + idx.toNat * 8)

/-- `allocate_affinities`. -/
def allocateAffinities (affType : AffType) (datum : Nat) (st : U64 × Mem) : U64 × Mem :=
  match affType with
  | .none => st
  | .rand => Shuffle.shuffle randn datum ctx.affinity 4 noCpus st

/-- `ensure_new_affinity`. -/
def ensureNewAffinity (affType : AffType) (datum : Nat) (st : U64 × Mem) : U64 × Mem :=
  match affType with
  | .none => st
  | .rand => ctx.allocateAffinities affType datum st

/-- `get_affinity`. -/
def getAffinity (affType : AffType) (m : Mem) (cpu : U64) : U64 :=
  match affType with
  | .none => cpu
  | .rand => (Bytes.load32 m (ctx.affinity + cpu.toNat * 4)).signExtend 64

/-! ## Batches -/

/-- An address in one of the tables. -/
def OnTables (a : Nat) : Prop :=
  (ctx.shuffledIxs ≤ a ∧ a < ctx.shuffledIxs + ctx.noRuns.toNat * 8) ∨
    (ctx.shuffledIxsInverse ≤ a ∧ a < ctx.shuffledIxsInverse + ctx.noRuns.toNat * 8) ∨
      (ctx.affinity ≤ a ∧ a < ctx.affinity + noCpus.toNat * 4)

/-- Some place of the stack: none of the tables is there. -/
structure OnStack (datum size : Nat) : Prop where
  shuffled : Apart datum size ctx.shuffledIxs (ctx.noRuns.toNat * 8)
  inverse : Apart datum size ctx.shuffledIxsInverse (ctx.noRuns.toNat * 8)
  affinity : Apart datum size ctx.affinity (noCpus.toNat * 4)

/-- From one batch to the next: CPU 0 gives out affinities, in a memory and with a seed that other code has changed in
between, but for the tables. -/
inductive Batch (affType : AffType) : U64 × Mem → U64 × Mem → Prop
  | batch {st st' : U64 × Mem} {datum : Nat} (hstack : ctx.OnStack datum 4)
      (hsame : ∀ a, ctx.OnTables a → st'.2 a = st.2 a) : Batch affType st (ctx.ensureNewAffinity affType datum st')

/-! ## The tables that are built -/

variable {ctx} {m m' : Mem} {datum : Nat}

/-- The tables of the runs: the first has the runs in the order `τ`, the second is its inverse. -/
structure Tables (ctx : TestCtx) (τ : Equiv.Perm (Fin ctx.noRuns.toNat)) (m : Mem) : Prop where
  shuffled : ∀ i : Fin ctx.noRuns.toNat, Bytes.load64 m (ctx.shuffledIxs + i * 8) = BitVec.ofNat 64 (τ i)
  inverse : ∀ i : Fin ctx.noRuns.toNat,
    Bytes.load64 m (ctx.shuffledIxsInverse + i * 8) = BitVec.ofNat 64 (τ.symm i)

/-- The CPUs in the order `π`. -/
def Affinities (ctx : TestCtx) (π : Equiv.Perm (Fin noCpus.toNat)) (m : Mem) : Prop :=
  ∀ i : Fin noCpus.toNat, Bytes.load32 m (ctx.affinity + i * 4) = BitVec.ofNat 32 (π i)

theorem load64_foldl_store64 {a : Nat} {l : List Nat} {i : Nat} (h : ∀ b ∈ l, a + 8 ≤ b + i * 8 ∨ b + i * 8 + 8 ≤ a) :
    Bytes.load64 (l.foldl (fun m b => Bytes.store64 m (b + i * 8) 0) m) a = Bytes.load64 m a := by
  induction l generalizing m with
  | nil => rfl
  | cons b l ih =>
    obtain ⟨hb, hl⟩ := List.forall_mem_cons.mp h
    rw [List.foldl_cons, ih hl, Bytes.load64_store64_of_disjoint hb]

theorem initShuffled_load (ctx : TestCtx) (m : Mem) (i : Fin ctx.noRuns.toNat) :
    Bytes.load64 (ctx.initShuffled m) (ctx.shuffledIxs + i * 8) = BitVec.ofNat 64 i := by
  have hinv : ∀ i < ctx.noRuns.toNat,
      Bytes.load64 (ctx.initShuffled m) (ctx.shuffledIxs + i * 8) = BitVec.ofNat 64 i := by
    refine Loop.forRange_inv (I := fun k (m : Mem) => ∀ i < k,
      Bytes.load64 m (ctx.shuffledIxs + i * 8) = BitVec.ofNat 64 i) ?_ (Nat.zero_le _) ?_
    · intro k m _ hk hm i hi
      by_cases hik : i = k
      · rw [hik, Bytes.load64_store64]
      · rw [Bytes.load64_store64_of_disjoint (by omega), load64_foldl_store64, hm i (by omega)]
        intro b hb
        have := ctx.outRegs_shuffled b hb
        unfold Apart at this
        omega
    · intro i hi
      omega
  exact hinv i i.isLt

/-- The second table is the inverse of a permutation in the first one, and nothing else is written. -/
theorem initInverse_tables {τ : Equiv.Perm (Fin ctx.noRuns.toNat)}
    (h : ∀ i : Fin ctx.noRuns.toNat, Bytes.load64 m (ctx.shuffledIxs + i * 8) = BitVec.ofNat 64 (τ i)) :
    Tables ctx τ (ctx.initInverse m) := by
  have hn := ctx.fits
  have hapart := ctx.shuffled_inverse
  unfold Apart at hapart
  have hinv : (∀ i : Fin ctx.noRuns.toNat,
        Bytes.load64 (ctx.initInverse m) (ctx.shuffledIxs + i * 8) = BitVec.ofNat 64 (τ i)) ∧
      ∀ i : Fin ctx.noRuns.toNat, i < ctx.noRuns.toNat →
        Bytes.load64 (ctx.initInverse m) (ctx.shuffledIxsInverse + τ i * 8) = BitVec.ofNat 64 i := by
    refine Loop.forRange_inv (I := fun k (m' : Mem) =>
      (∀ i : Fin ctx.noRuns.toNat, Bytes.load64 m' (ctx.shuffledIxs + i * 8) = BitVec.ofNat 64 (τ i)) ∧
      ∀ i : Fin ctx.noRuns.toNat, i < k →
        Bytes.load64 m' (ctx.shuffledIxsInverse + τ i * 8) = BitVec.ofNat 64 i) ?_ (Nat.zero_le _) ?_
    · rintro k m' - hk ⟨h1, h2⟩
      have hidx : (BitVec.ofNat 64 (τ ⟨k, hk⟩)).toNat = τ ⟨k, hk⟩ := by
        rw [BitVec.toNat_ofNat]
        exact Nat.mod_eq_of_lt (by omega)
      rw [h1 ⟨k, hk⟩, hidx]
      refine ⟨fun i => ?_, fun i hi => ?_⟩
      · rw [Bytes.load64_store64_of_disjoint (by omega), h1]
      · by_cases hik : i = ⟨k, hk⟩
        · rw [hik, Bytes.load64_store64]
        · have hne : (τ i : Nat) ≠ τ ⟨k, hk⟩ := fun h => hik (τ.injective (Fin.ext h))
          have hlt : (i : Nat) < k := by
            have := Fin.val_ne_of_ne hik
            simp only at this
            omega
          rw [Bytes.load64_store64_of_disjoint (by omega), h2 i hlt]
    · exact ⟨h, fun i hi => by omega⟩
  refine ⟨hinv.1, fun i => ?_⟩
  have := hinv.2 (τ.symm i) (τ.symm i).isLt
  rwa [Equiv.apply_symm_apply] at this

theorem initAffinity_frame (ctx : TestCtx) (m : Mem) {a : Nat}
    (h : ¬(ctx.affinity ≤ a ∧ a < ctx.affinity + noCpus.toNat * 4)) : ctx.initAffinity m a = m a := by
  refine Loop.forRange_inv (I := fun _ (m' : Mem) => m' a = m a) ?_ (Nat.zero_le _) rfl
  intro k m' _ hk hm'
  rw [Bytes.store32_of_not_mem (by omega), hm']

theorem initAffinity_affinities (ctx : TestCtx) (m : Mem) : Affinities ctx (Equiv.refl _) (ctx.initAffinity m) := by
  have hinv : ∀ i < noCpus.toNat,
      Bytes.load32 (ctx.initAffinity m) (ctx.affinity + i * 4) = BitVec.ofNat 32 i := by
    refine Loop.forRange_inv (I := fun k (m : Mem) => ∀ i < k,
      Bytes.load32 m (ctx.affinity + i * 4) = BitVec.ofNat 32 i) ?_ (Nat.zero_le _) ?_
    · intro k m _ hk hm i hi
      by_cases hik : i = k
      · rw [hik, Bytes.load32_store32]
      · rw [Bytes.load32_store32_of_disjoint (by omega), hm i (by omega)]
    · intro i hi
      omega
  exact fun i => hinv i i.isLt

/-! ## What keeps the tables -/

/-- The tables depend on their bytes only. -/
theorem Tables.congr {τ : Equiv.Perm (Fin ctx.noRuns.toNat)} (h : Tables ctx τ m)
    (hshuffled : ∀ a, ctx.shuffledIxs ≤ a → a < ctx.shuffledIxs + ctx.noRuns.toNat * 8 → m' a = m a)
    (hinverse : ∀ a, ctx.shuffledIxsInverse ≤ a → a < ctx.shuffledIxsInverse + ctx.noRuns.toNat * 8 → m' a = m a) :
    Tables ctx τ m' where
  shuffled i := (Bytes.load64_congr fun j hj => hshuffled _ (by omega) (by omega)).trans (h.shuffled i)
  inverse i := (Bytes.load64_congr fun j hj => hinverse _ (by omega) (by omega)).trans (h.inverse i)

theorem Affinities.congr {π : Equiv.Perm (Fin noCpus.toNat)} (h : Affinities ctx π m)
    (hsame : ∀ a, ctx.affinity ≤ a → a < ctx.affinity + noCpus.toNat * 4 → m' a = m a) : Affinities ctx π m' :=
  fun i => (Bytes.load32_eq fun j hj => hsame _ (by omega) (by omega)).trans (h i)

/-- What holds of the tables from `init_test_ctx` on. -/
def Shuffled (ctx : TestCtx) (m : Mem) : Prop :=
  (∃ τ, Tables ctx τ m) ∧ ∃ π, Affinities ctx π m

theorem initTestCtx_shuffled (hstack : ctx.OnStack datum 8) (st : U64 × Mem) :
    Shuffled ctx (ctx.initTestCtx datum st).2 := by
  obtain ⟨hs, -, -⟩ := hstack
  obtain ⟨τ, hτ, -⟩ := @Shuffle.shuffle_permuted U64 randn datum ctx.shuffledIxs 8 ctx.noRuns ctx.fits hs
    (st.1, ctx.initShuffled st.2)
  have h := initInverse_tables fun i => (hτ.load64 i).trans (initShuffled_load ctx st.2 (τ i))
  have h1 := ctx.shuffled_affinity
  have h2 := ctx.inverse_affinity
  unfold Apart at h1 h2
  refine ⟨⟨τ, h.congr (fun a _ _ => ?_) (fun a _ _ => ?_)⟩, _, initAffinity_affinities ctx _⟩
  · exact initAffinity_frame ctx _ (by omega)
  · exact initAffinity_frame ctx _ (by omega)

theorem Batch.shuffled {affType : AffType} {st st' : U64 × Mem} (h : ctx.Batch affType st st')
    (hI : Shuffled ctx st.2) : Shuffled ctx st'.2 := by
  obtain @⟨⟨seed', m'⟩, datum, hstack, hsame⟩ := h
  obtain ⟨⟨τ, hτ⟩, π, hπ⟩ := hI
  have hτ' : Tables ctx τ m' := hτ.congr (fun a h1 h2 => hsame a (.inl ⟨h1, h2⟩))
    (fun a h1 h2 => hsame a (.inr (.inl ⟨h1, h2⟩)))
  have hπ' : Affinities ctx π m' := hπ.congr fun a h1 h2 => hsame a (.inr (.inr ⟨h1, h2⟩))
  cases affType with
  | none => exact ⟨⟨τ, hτ'⟩, π, hπ'⟩
  | rand =>
    obtain ⟨h1, h2, h3⟩ := hstack
    have h4 := ctx.shuffled_affinity
    have h5 := ctx.inverse_affinity
    obtain ⟨υ, hυ, hframe⟩ : ∃ υ : Equiv.Perm (Fin noCpus.toNat),
        Shuffle.Permuted ctx.affinity 4 υ m' (Shuffle.shuffle randn datum ctx.affinity 4 noCpus (seed', m')).2 ∧
        Shuffle.SameElsewhere datum ctx.affinity 4 noCpus.toNat m' (Shuffle.shuffle randn datum ctx.affinity 4 noCpus (seed', m')).2 :=
      @Shuffle.shuffle_permuted U64 randn datum ctx.affinity 4 noCpus (by decide) h3 (seed', m')
    unfold Apart at h1 h2 h4 h5
    refine ⟨⟨τ, hτ'.congr (fun a _ _ => ?_) (fun a _ _ => ?_)⟩, υ.trans π, fun i => ?_⟩
    · exact hframe a (by omega) (by omega)
    · exact hframe a (by omega) (by omega)
    · exact (hυ.load32 i).trans (hπ' (υ i))

/-! ## The lookups -/

theorem Tables.countToRunIndex {τ : Equiv.Perm (Fin ctx.noRuns.toNat)} (h : Tables ctx τ m) {r : U64}
    (hr : r.toNat < ctx.noRuns.toNat) : ctx.countToRunIndex .rand m r = BitVec.ofNat 64 (τ ⟨r.toNat, hr⟩) :=
  h.shuffled ⟨r.toNat, hr⟩

theorem Tables.runCountFromIdx {τ : Equiv.Perm (Fin ctx.noRuns.toNat)} (h : Tables ctx τ m) {i : U64}
    (hi : i.toNat < ctx.noRuns.toNat) : ctx.runCountFromIdx .rand m i = BitVec.ofNat 64 (τ.symm ⟨i.toNat, hi⟩) :=
  h.inverse ⟨i.toNat, hi⟩

/-- An entry of a table is in range. -/
theorem toNat_entry (k : Fin ctx.noRuns.toNat) : (BitVec.ofNat 64 k).toNat = k := by
  rw [BitVec.toNat_ofNat]
  exact Nat.mod_eq_of_lt (by omega)

/-- The two lookups are inverse to each other, on the numbers of the runs. -/
theorem Tables.lookups {τ : Equiv.Perm (Fin ctx.noRuns.toNat)} (h : Tables ctx τ m) (shuffleType : ShuffleType)
    {r : U64} (hr : r < ctx.noRuns) :
    (ctx.countToRunIndex shuffleType m r < ctx.noRuns ∧
        ctx.runCountFromIdx shuffleType m (ctx.countToRunIndex shuffleType m r) = r) ∧
      ctx.runCountFromIdx shuffleType m r < ctx.noRuns ∧
        ctx.countToRunIndex shuffleType m (ctx.runCountFromIdx shuffleType m r) = r := by
  cases shuffleType with
  | none => exact ⟨⟨hr, rfl⟩, hr, rfl⟩
  | rand =>
    have hr' : r.toNat < ctx.noRuns.toNat := hr
    rw [h.countToRunIndex hr', h.runCountFromIdx hr']
    have hback : ∀ k : Fin ctx.noRuns.toNat, k = ⟨r.toNat, hr'⟩ → BitVec.ofNat 64 (k : Nat) = r := by
      rintro k rfl
      exact (BitVec.ofNat_toNat 64 r).trans (BitVec.setWidth_eq r)
    refine ⟨⟨?_, ?_⟩, ?_, ?_⟩
    · exact (toNat_entry (τ ⟨r.toNat, hr'⟩)).trans_lt (Fin.isLt _)
    · rw [h.runCountFromIdx ((toNat_entry _).trans_lt (Fin.isLt _))]
      refine hback _ ((Equiv.symm_apply_eq τ).mpr (Fin.ext ?_))
      exact toNat_entry _
    · exact (toNat_entry (τ.symm ⟨r.toNat, hr'⟩)).trans_lt (Fin.isLt _)
    · rw [h.countToRunIndex ((toNat_entry _).trans_lt (Fin.isLt _))]
      refine hback _ ((Equiv.eq_symm_apply τ).mp (Fin.ext ?_))
      exact toNat_entry _

/-- Every CPU gets a thread of its own. -/
theorem Affinities.getAffinity_injective {π : Equiv.Perm (Fin noCpus.toNat)} (h : Affinities ctx π m)
    (affType : AffType) {c d : U64} (hc : c < noCpus) (hd : d < noCpus)
    (heq : ctx.getAffinity affType m c = ctx.getAffinity affType m d) : c = d := by
  cases affType with
  | none => exact heq
  | rand =>
    have hentry : ∀ k : Fin noCpus.toNat, ((BitVec.ofNat 32 k).signExtend 64).toNat = k := by decide
    change (Bytes.load32 m (ctx.affinity + (⟨c.toNat, hc⟩ : Fin noCpus.toNat) * 4)).signExtend 64 =
      (Bytes.load32 m (ctx.affinity + (⟨d.toNat, hd⟩ : Fin noCpus.toNat) * 4)).signExtend 64 at heq
    rw [h, h] at heq
    have hπ := congrArg BitVec.toNat heq
    rw [hentry, hentry] at hπ
    exact BitVec.eq_of_toNat_eq (Fin.mk.inj_iff.mp (π.injective (Fin.ext hπ)))

/-- **The tables after any number of batches**: the table of the shuffled runs is a permutation and the other one its
inverse, the two lookups are inverse to each other under both shuffle types, and the affinities are a permutation of the
CPUs. -/
theorem shuffled_tables (ctx : TestCtx) (affType : AffType) {datum : Nat} (hstack : ctx.OnStack datum 8) (seed : U64)
    (m : Mem) {st : U64 × Mem}
    (hrun : Reach.Reachable (· = ctx.initTestCtx datum (seed, m)) (ctx.Batch affType) st) :
    (∃ τ, Tables ctx τ st.2) ∧
      (∀ shuffleType r, r < ctx.noRuns →
        (ctx.countToRunIndex shuffleType st.2 r < ctx.noRuns ∧
            ctx.runCountFromIdx shuffleType st.2 (ctx.countToRunIndex shuffleType st.2 r) = r) ∧
          ctx.runCountFromIdx shuffleType st.2 r < ctx.noRuns ∧
            ctx.countToRunIndex shuffleType st.2 (ctx.runCountFromIdx shuffleType st.2 r) = r) ∧
      ∃ π, Affinities ctx π st.2 := by
  obtain ⟨⟨τ, hτ⟩, haff⟩ : Shuffled ctx st.2 := by
    refine Reach.Reachable.inv (I := fun st => Shuffled ctx st.2) ?_ ?_ hrun
    · rintro st rfl
      exact initTestCtx_shuffled hstack (seed, m)
    · intro st st' hI hb
      exact hb.shuffled hI
  exact ⟨⟨τ, hτ⟩, fun shuffleType r hr => hτ.lookups shuffleType hr, haff⟩

/-- Three runs, with the tables one after the other. -/
def threeRuns : TestCtx where
  noRuns := 3
  outRegs := [0x2000]
  shuffledIxs := 0x1000
  shuffledIxsInverse := 0x1018
  affinity := 0x1030
  fits := by decide
  outRegs_shuffled := by decide
  shuffled_inverse := by decide
  shuffled_affinity := by decide
  inverse_affinity := by decide

/-- The seed and the memory of three runs after one batch. -/
def threeRunsBatch : U64 × Mem :=
  threeRuns.ensureNewAffinity .rand 0x3000 (threeRuns.initTestCtx 0x3000 (5, fun _ => 0))

/-- The lookups of the last of three runs. -/
theorem shuffled_tables_three :
    threeRuns.runCountFromIdx .rand threeRunsBatch.2 (threeRuns.countToRunIndex .rand threeRunsBatch.2 2) = 2 := by
  have hrun : Reach.Reachable (· = threeRuns.initTestCtx 0x3000 (5, fun _ => 0)) (threeRuns.Batch .rand)
      threeRunsBatch := .step (.init rfl) (.batch ⟨by decide, by decide, by decide⟩ fun _ _ => rfl)
  exact ((shuffled_tables threeRuns .rand ⟨by decide, by decide, by decide⟩ 5 (fun _ => 0) hrun).2.1 .rand 2
    (by decide)).1.2

end TestCtx

end LitmusHarness
