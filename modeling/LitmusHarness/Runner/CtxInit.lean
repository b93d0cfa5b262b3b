import LitmusHarness.Runner.CtxBlocks

/-!
# A context is set up

For numbers that are not negative `init_test_ctx` either rejects the test or ends with a layout of blocks, with all
pointers where `free_test_ctx` looks for them (`initTestCtx_post`).
-/

namespace LitmusHarness

open Mempool

variable {area : HeapArea} {m : Mempool} {cfg : CtxTest} {noRuns runsInBatch : BitVec 32} {bs : List Chunk}

/-! ## The allocations -/

/-- The blocks of some fields are allocated. -/
structure CtxPlaced (area : HeapArea) (size : CtxBlock → Nat) (m : Mempool) (bs : List Chunk) (chunk : CtxBlock → Chunk)
    (l : List CtxBlock) (s : Mempool × (CtxBlock → U64)) : Prop where
  start : ∀ b ∈ l, (chunk b).start = s.2 b ∧ size b ≤ (chunk b).size.toNat
  blocks : Blocks area s.1 (l.map chunk ++ bs)
  same : SameBytes m s.1 bs

/-- **The fields get their blocks**, or an allocation fails. -/
theorem allocBlocks_placed {l : List CtxBlock} (hl : l.Nodup)
    (hsize : ∀ b ∈ l, (b.elemSize * b.count cfg noRuns runsInBatch).toNat < 2 ^ 64 - 512) (h : Blocks area m bs)
    (block : CtxBlock → U64) :
    Loop.Post (fun s => ∃ chunk,
      CtxPlaced area (fun b => (b.elemSize * b.count cfg noRuns runsInBatch).toNat) m bs chunk l s)
      (fun e => e.1 ≠ .loop) (allocBlocks area cfg noRuns runsInBatch l (m, block)) := by
  refine Loop.post_foldlM (I := fun pre s => ∃ chunk,
    CtxPlaced area (fun b => (b.elemSize * b.count cfg noRuns runsInBatch).toNat) m bs chunk pre s) ?_
    ⟨fun _ => ⟨0, 0⟩, nofun, h, SameBytes.refl m bs⟩
  rintro pre b post ⟨s, block⟩ rfl ⟨chunk, hstart, hblocks, hsame⟩
  refine Loop.post_bind (allocMany_allocates b.elemSize_le (hsize b (by simp)) s _ hblocks) ?_
  rintro ⟨s₁, p⟩ ⟨c, rfl, hle, h₁, hsame₁⟩
  have hne : ∀ d ∈ pre, d ≠ b := fun d hd => (List.nodup_append.mp hl).2.2 d hd b List.mem_cons_self
  have hold : ∀ d ∈ pre, Function.update chunk b c d = chunk d := fun d hd => Function.update_of_ne (hne d hd) c chunk
  refine ⟨Function.update chunk b c, fun d hd => ?_, ?_, hsame.trans (hsame₁.subset (List.subset_append_right _ _))⟩
  · dsimp only
    rcases List.mem_append.mp hd with hd | hd
    · rw [hold d hd, Function.update_of_ne (hne d hd)]
      exact hstart d hd
    · rw [List.mem_singleton.mp hd, Function.update_self, Function.update_self]
      exact ⟨rfl, hle⟩
  · refine h₁.perm ?_
    rw [List.map_append, List.map_congr_left hold, List.map_singleton, Function.update_self, List.append_assoc]
    exact List.perm_middle.symm

/-- An error of a check or an allocation. -/
def CtxFault.IsRejected (e : CtxFault) : Prop := ∃ msg, e = .rejected msg

theorem orFail_post {α : Type} {Q : α → Prop} {x : VallocResult α} (h : Loop.Post Q (fun e => e.1 ≠ .loop) x) :
    Loop.Post Q CtxFault.IsRejected (orFail x) := by
  match x with
  | .ok a => exact h
  | .error (.loop, _) => exact absurd rfl h
  | .error (.tooLarge _ _, _) | .error (.noFreeSpace, _) | .error (.noChunks, _) | .error (.notAllocated _, _) |
    .error (.notListed _, _) | .error (.cannotSplit, _) => exact ⟨_, rfl⟩

theorem orFail_ok {α : Type} {x : VallocResult α} {a : α} (h : orFail x = .ok a) : x = .ok a := by
  unfold orFail at h
  split at h <;> cases h
  rfl

/-- What is allocated for a context. -/
structure CtxLayout where
  chunk : CtxBlock → Chunk
  values : List Chunk
  outRegs : List Chunk
  hist : Chunk
  lut : Chunk
  results : List Chunk

/-- All of it. -/
def CtxLayout.blocks (lay : CtxLayout) : List Chunk :=
  lay.results ++ lay.lut :: lay.hist :: (lay.outRegs ++ (lay.values ++ CtxBlock.allocOrder.map lay.chunk))

/-- The blocks of a context, next to the blocks `bs`, and the pointers in them. -/
structure CtxLayout.Holds (area : HeapArea) (cfg : CtxTest) (bs : List Chunk) (lay : CtxLayout) (m : Mempool)
    (ctx : CtxPtrs) : Prop where
  blocks : Blocks area m (lay.blocks ++ bs)
  start : ∀ b, (lay.chunk b).start = ctx.block b
  hist : lay.hist.start = ctx.hist
  values_length : lay.values.length = cfg.heapVarNames.length
  outRegs_length : lay.outRegs.length = cfg.noRegs
  results_length : lay.results.length = histLimit
  valuesIn : Within (lay.chunk .heapVars) (CtxPtrs.valuesAt ctx.block) 120 lay.values.length
  outRegsIn : Within (lay.chunk .outRegs) (ctx.block .outRegs).toNat 8 lay.outRegs.length
  resultsIn : Within lay.hist (resultsAt ctx.hist) 8 lay.results.length
  values : Table m (CtxPtrs.valuesAt ctx.block) 120 lay.values
  outRegs : Table m (ctx.block .outRegs).toNat 8 lay.outRegs
  results : Table m (resultsAt ctx.hist) 8 lay.results
  limit : Bytes.load64 m.heap (limitAt ctx.hist) = BitVec.ofNat 64 histLimit
  lut : Bytes.load64 m.heap (lutAt ctx.hist) = lay.lut.start

/-- A table that fills its block from `off` on. -/
theorem within_of_size {t : Chunk} {off stride n : Nat} (h : off + 8 ≤ stride) (hsize : stride * n ≤ t.size.toNat) :
    Within t (t.start.toNat + off) stride n := by
  intro i hi
  have hmul : i * stride + stride ≤ n * stride := by
    rw [← Nat.succ_mul]
    exact Nat.mul_le_mul_right stride hi
  rw [Nat.mul_comm] at hsize
  rw [Chunk.hi_eq, Chunk.lo]
  omega

theorem resultSize_lt (cfg : CtxTest) : (16 + 8 * BitVec.ofNat 64 cfg.noRegs : U64).toNat < 2 ^ 62 := by
  obtain ⟨h1, h2⟩ := @toNat_mul_ofNat 8 _ cfg.regNames_fit (by decide)
  rw [BitVec.toNat_add, h1, show (16 : U64).toNat = 16 from rfl]
  omega

/-- **The histogram is allocated**, or an allocation fails. -/
theorem allocHist_post (h : Blocks area m bs) : Loop.Post (fun r => ∃ (hist lut : Chunk) (rs : List Chunk),
    hist.start = r.2 ∧ rs.length = histLimit ∧ Blocks area r.1 (rs ++ lut :: hist :: bs) ∧ SameBytes m r.1 bs ∧
      Within hist (resultsAt r.2) 8 rs.length ∧ Table r.1 (resultsAt r.2) 8 rs ∧
      Bytes.load64 r.1.heap (limitAt r.2) = BitVec.ofNat 64 histLimit ∧
      Bytes.load64 r.1.heap (lutAt r.2) = lut.start) (fun e => e.1 ≠ .loop) (allocHist area cfg m) := by
  unfold allocHist
  refine Loop.post_bind (alloc_allocates (by decide) m _ h) ?_
  rintro ⟨m₁, -⟩ ⟨hist, rfl, hsize, h₁, hsame₁⟩
  dsimp only
  replace hsize : 3224 ≤ hist.size.toNat := hsize
  have hhi := hist.hi_eq
  have hlimitAt : limitAt hist.start = hist.lo + 8 := rfl
  have hlutAt : lutAt hist.start = hist.lo + 16 := rfl
  have hresultsAt : resultsAt hist.start = hist.lo + 24 := rfl
  -- `hist->limit`
  obtain ⟨h₂, hsame₂, hlimit⟩ := h₁.store_head (a := limitAt hist.start) (by omega) (by omega)
    (BitVec.ofNat 64 histLimit)
  generalize m₁.store (limitAt hist.start) (BitVec.ofNat 64 histLimit) = m₂ at h₂ hsame₂ hlimit ⊢
  rw [hlimit]
  refine Loop.post_bind (allocMany_allocates (by decide) (by decide) m₂ _ h₂) ?_
  rintro ⟨m₃, -⟩ ⟨lut, rfl, -, h₃, hsame₃⟩
  dsimp only
  rw [← hsame₃.load64 List.mem_cons_self (by omega) (by omega)] at hlimit
  -- `hist->lut`
  obtain ⟨h₄, hsame₄, hlut⟩ := (h₃.perm (List.Perm.swap _ _ _)).store_head (a := lutAt hist.start) (by omega)
    (by omega) lut.start
  have hlimit₄ : Bytes.load64 (m₃.store (lutAt hist.start) lut.start).heap (limitAt hist.start) =
      BitVec.ofNat 64 histLimit :=
    (Bytes.load64_store64_of_disjoint (by omega)).trans hlimit
  generalize m₃.store (lutAt hist.start) lut.start = m₄ at h₄ hsame₄ hlut hlimit₄ ⊢
  rw [hlimit₄, show (BitVec.ofNat 64 histLimit).toNat = histLimit from rfl]
  -- `hist->results`
  have hin : Within hist (resultsAt hist.start) 8 histLimit := by
    intro i hi
    unfold histLimit at hi
    omega
  refine Loop.post_bind
    (allocTable_filled ((alloc_allocates (resultSize_lt cfg)).mono (Nat.zero_le _)) (Nat.le_refl 8) hin h₄) ?_
  rintro m₅ ⟨rs, hlen, hfilled⟩
  have hword : ∀ a, hist.lo ≤ a → a + 8 ≤ resultsAt hist.start → Bytes.load64 m₅.heap a = Bytes.load64 m₄.heap a :=
    fun a h1 h2 => Bytes.load64_congr fun i hi => hfilled.below _ (by omega) (by omega)
  have hsub : bs ⊆ lut :: bs := List.subset_cons_self _ _
  have hsame : SameBytes m m₅ bs := hsame₁.trans (hsame₂.trans ((hsame₃.subset (List.subset_cons_self _ _)).trans
    ((hsame₄.subset hsub).trans (hfilled.same.subset hsub))))
  exact ⟨hist, lut, rs, rfl, hlen, hfilled.blocks.perm ((List.Perm.swap _ _ _).append_left rs), hsame, hlen ▸ hin,
    hfilled.table, (hword (limitAt hist.start) (by omega) (by omega)).trans hlimit₄,
    (hword (lutAt hist.start) (by omega) (by omega)).trans hlut⟩

/-! ## `init_test_ctx` -/

/-- The arrays of the variables or of the registers. -/
theorem allocRuns_allocates (h : 0 ≤ noRuns.toInt) : Allocates area 0 (allocRuns area noRuns) :=
  (allocMany_allocates (by decide) (intToU64_mul_lt (by decide) h)).mono (Nat.zero_le _)

/-- **For numbers that are not negative a context is set up**, or the test is rejected. -/
theorem initTestCtx_post (hread : checkVarInfos cfg = .ok ()) (hruns : 0 ≤ noRuns.toInt) (hbatch : 0 ≤ runsInBatch.toInt)
    (h : Blocks area m bs) : Loop.Post (fun r => ∃ lay : CtxLayout, lay.Holds area cfg bs r.1 r.2) CtxFault.IsRejected
      (initTestCtx area cfg noRuns runsInBatch m) := by
  have hcheck : Loop.Post (fun _ => True) CtxFault.IsRejected (checkTest cfg noRuns runsInBatch) := by
    unfold checkTest
    split
    · exact ⟨_, rfl⟩
    · trivial
  have hfit : checkRuns noRuns = .ok () := by
    obtain ⟨hlt, -⟩ := intToU64_nonneg hruns
    exact if_neg (by omega)
  unfold initTestCtx
  refine Loop.post_bind hcheck fun _ _ => ?_
  refine Loop.post_bind (orFail_post (allocBlocks_placed (by decide)
    (fun b _ => b.size_lt (fun _ => hruns) fun _ => hbatch) h fun _ => 0)) ?_
  rintro ⟨m₁, block⟩ ⟨chunk, hstart, h₁, -⟩
  dsimp only at hstart h₁ ⊢
  have hmem : ∀ b, chunk b ∈ CtxBlock.allocOrder.map chunk ++ bs := fun b =>
    List.mem_append_left _ (List.mem_map_of_mem b.mem_allocOrder)
  have hne : chunk .heapVars ≠ chunk .outRegs := fun heq => absurd (List.inj_on_of_nodup_map
    (List.nodup_append.mp h₁.nodup).1 (CtxBlock.mem_allocOrder _) (CtxBlock.mem_allocOrder _) heq) (by decide)
  -- `var_infos[v].values`
  obtain ⟨hvstart, hvsize⟩ := hstart .heapVars (CtxBlock.mem_allocOrder _)
  have hvin : Within (chunk .heapVars) (CtxPtrs.valuesAt block) 120 cfg.heapVarNames.length := by
    rw [CtxPtrs.valuesAt, ← hvstart]
    exact within_of_size (by decide) ((toNat_mul_ofNat cfg.varNames_fit (by decide)).1.symm.trans_le hvsize)
  refine Loop.post_bind (orFail_post
    (allocTable_mem (allocRuns_allocates hruns) (by decide) hvin (hmem .heapVars) h₁)) ?_
  rintro m₂ ⟨values, hvlen, h₂, -, hvalues⟩
  refine Loop.post_bind (Q := fun _ => True) (by rw [hread]; trivial) fun _ _ => ?_
  -- `out_regs[r]`
  obtain ⟨hostart, hosize⟩ := hstart .outRegs (CtxBlock.mem_allocOrder _)
  have hoin : Within (chunk .outRegs) (block .outRegs).toNat 8 cfg.noRegs := by
    rw [← hostart]
    exact @within_of_size _ 0 8 _ (by decide) ((toNat_mul_ofNat cfg.regNames_fit (by decide)).1.symm.trans_le hosize)
  refine Loop.post_bind (orFail_post
    (allocTable_mem (allocRuns_allocates hruns) (by decide) hoin (List.mem_append_right _ (hmem .outRegs)) h₂)) ?_
  rintro m₃ ⟨outRegs, holen, h₃, hsame₃, houtRegs⟩
  have hvmem : chunk .heapVars ∈ (values ++ (CtxBlock.allocOrder.map chunk ++ bs)).erase (chunk .outRegs) :=
    (List.mem_erase_of_ne hne).mpr (List.mem_append_right _ (hmem .heapVars))
  replace hvalues := hvalues.sameBytes (hvlen ▸ hvin) hvmem hsame₃
  refine Loop.post_bind (Q := fun _ => True) (by rw [hfit]; trivial) fun _ _ => ?_
  -- `hist`
  refine Loop.post_bind (orFail_post (allocHist_post h₃)) ?_
  rintro ⟨m₄, -⟩ ⟨hist, lut, results, rfl, hrlen, h₄, hsame₄, hrin, hresults, hlimit, hlut⟩
  have hmem₄ : ∀ b, chunk b ∈ outRegs ++ (values ++ (CtxBlock.allocOrder.map chunk ++ bs)) := fun b =>
    List.mem_append_right _ (List.mem_append_right _ (hmem b))
  refine ⟨⟨chunk, values, outRegs, hist, lut, results⟩, ?_, fun b => (hstart b b.mem_allocOrder).1, rfl, hvlen, holen,
    hrlen, hvlen ▸ hvin, holen ▸ hoin, hrin, hvalues.sameBytes (hvlen ▸ hvin) (hmem₄ .heapVars) hsame₄,
    houtRegs.sameBytes (holen ▸ hoin) (hmem₄ .outRegs) hsame₄, hresults, hlimit, hlut⟩
  simpa only [CtxLayout.blocks, List.append_assoc, List.cons_append] using h₄

end LitmusHarness
