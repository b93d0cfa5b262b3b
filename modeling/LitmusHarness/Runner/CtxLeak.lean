import LitmusHarness.Runner.CtxInit

/-!
# A context is freed

`free_test_ctx` frees all blocks of a layout, each once (`CtxLayout.Holds.free`). A negative number of runs in a batch
gives a block that wraps, which is still there at the end. Together: a context does not leak if and only if neither number
is negative (`testCtx_noLeak_iff`).
-/

namespace LitmusHarness

open Mempool
open Bytes (Mem)

variable {area : HeapArea} {m m' : Mempool} {cfg : CtxTest} {noRuns runsInBatch : BitVec 32} {bs : List Chunk} {c : Chunk}
  {p : U64}

/-! ## `free_test_ctx` -/

/-- Writes to other data do not matter. -/
theorem CtxLayout.Holds.write {lay : CtxLayout} {ctx : CtxPtrs} {heap : Mem} (h : lay.Holds area cfg bs m ctx)
    (hw : DataWrite m (ctx.words cfg) heap) : lay.Holds area cfg bs { m with heap := heap } ctx := by
  have hword : ∀ a ∈ ctx.words cfg, ∀ x, a ≤ x → x < a + 8 → heap x = m.heap x := fun a ha x h1 h2 =>
    Classical.byContradiction fun hne => (hw x hne).2 a ha ⟨h1, h2⟩
  have hload : ∀ a ∈ ctx.words cfg, Bytes.load64 heap a = Bytes.load64 m.heap a := fun a ha =>
    Bytes.load64_congr fun i _ => hword a ha _ (Nat.le_add_right a i) (by omega)
  have hblocks : Blocks area { m with heap := heap } (lay.blocks ++ bs) := by
    refine h.blocks.write fun x hx => ?_
    obtain ⟨start, size, hlive, h1, h2⟩ := (hw x hx).1
    exact ⟨⟨start, size⟩, h.blocks.live_iff.mp hlive, h1, h2⟩
  have hentry : ∀ {n i : Nat} (a stride : Nat), i < n → a + i * stride ∈ (List.range n).map (a + · * stride) :=
    fun a stride hi => List.mem_map.mpr ⟨_, List.mem_range.mpr hi, rfl⟩
  exact {
    h with
    blocks := hblocks
    values := h.values.congr fun i hi => hword _ (List.mem_append_right _ (hentry _ _ (h.values_length ▸ hi)))
    outRegs := h.outRegs.congr fun i hi =>
      hword _ (List.mem_append_left _ (List.mem_append_right _ (hentry _ _ (h.outRegs_length ▸ hi))))
    results := h.results.congr fun i hi => hword _ (List.mem_append_left _ (List.mem_append_left _
      (List.mem_cons_of_mem _ (List.mem_cons_of_mem _ (hentry _ _ (h.results_length ▸ hi))))))
    limit := (hload _ (List.mem_append_left _ (List.mem_append_left _ List.mem_cons_self))).trans h.limit
    lut := (hload _ (List.mem_append_left _ (List.mem_append_left _
      (List.mem_cons_of_mem _ List.mem_cons_self)))).trans h.lut }

/-- **All blocks of a context are freed**, each once. -/
theorem CtxLayout.Holds.free {lay : CtxLayout} {ctx : CtxPtrs} (h : lay.Holds area cfg bs m ctx) : ∃ m' freed,
    freeTestCtx area cfg ctx m = .ok (m', freed) ∧ freed.Perm (lay.blocks.map Chunk.start) ∧ Blocks area m' bs := by
  have hb := h.blocks
  simp only [CtxLayout.blocks, List.append_assoc, List.cons_append] at hb
  have hchunk : ∀ b, lay.chunk b ∈ CtxBlock.allocOrder.map lay.chunk ++ bs := fun b =>
    List.mem_append_left _ (List.mem_map_of_mem b.mem_allocOrder)
  have hlo : lutAt ctx.hist = lay.hist.lo + 16 := by rw [lutAt, ← h.hist, Chunk.lo]
  have hhi := lay.hist.hi_eq
  have hsize := hb.size (show lay.hist ∈ _ by simp)
  -- `hist->results`, `hist->lut`, `hist`
  obtain ⟨m₁, l₁, hrun₁, hp₁, hb₁, hs₁⟩ := @freeTable_ok _ _ _ _ lay.hist _ _ [] hb h.results h.resultsIn (by simp)
  have hlut₁ : Bytes.load64 m₁.heap (lutAt ctx.hist) = lay.lut.start :=
    (hs₁.load64 (t := lay.hist) (by simp) (by omega) (by omega)).trans h.lut
  obtain ⟨m₂, hf₂, hb₂, hs₂⟩ := hb₁.free
  obtain ⟨m₃, hf₃, hb₃, hs₃⟩ := hb₂.free
  have hs₀₃ : SameBytes m m₃ (lay.outRegs ++ (lay.values ++ (CtxBlock.allocOrder.map lay.chunk ++ bs))) :=
    (hs₁.subset (by simp)).trans ((hs₂.subset (by simp)).trans hs₃)
  -- `out_regs[r]`, `heap_vars[v].values`
  have houtRegs := h.outRegs.sameBytes h.outRegsIn
    (List.mem_append_right _ (List.mem_append_right _ (hchunk .outRegs))) hs₀₃
  obtain ⟨m₄, l₄, hrun₄, hp₄, hb₄, hs₄⟩ := @freeTable_ok _ _ _ _ (lay.chunk .outRegs) _ _
    (lay.hist.start :: lay.lut.start :: l₁) hb₃ houtRegs h.outRegsIn (List.mem_append_right _ (hchunk .outRegs))
  have hvalues := h.values.sameBytes h.valuesIn (List.mem_append_right _ (hchunk .heapVars))
    ((hs₀₃.subset (List.subset_append_right _ _)).trans hs₄)
  obtain ⟨m₅, l₅, hrun₅, hp₅, hb₅, -⟩ := @freeTable_ok _ _ _ _ (lay.chunk .heapVars) _ _ l₄ hb₄ hvalues h.valuesIn
    (hchunk .heapVars)
  -- the fields
  have horder : (CtxBlock.allocOrder.map lay.chunk).Perm (CtxBlock.freeOrder.map lay.chunk) :=
    List.Perm.map _ (by decide)
  obtain ⟨m₆, l₆, hrun₆, hp₆, hb₆, -⟩ := @freeBlocks_ok _ _ _ _ l₅ (hb₅.perm (horder.append_right bs))
  have hstarts : (CtxBlock.freeOrder.map lay.chunk).map Chunk.start = CtxBlock.freeOrder.map ctx.block := by
    rw [List.map_map]
    exact List.map_congr_left fun b _ => h.start b
  refine ⟨m₆, l₆, ?_, ?_, hb₆⟩
  · rw [h.values_length] at hrun₅
    rw [h.outRegs_length] at hrun₄
    rw [h.results_length] at hrun₁
    rw [hstarts] at hrun₆
    unfold freeTestCtx
    rw [h.limit, show (BitVec.ofNat 64 histLimit).toNat = histLimit from rfl, hrun₁]
    rw [h.hist] at hf₃ hrun₄
    simp only [bind, Except.bind, hlut₁, freeBlock_ok hf₂, freeBlock_ok hf₃, hrun₄, hrun₅]
    exact hrun₆
  · refine List.perm_iff_count.mpr fun p => ?_
    have h1 := hp₁.count_eq p
    have h4 := hp₄.count_eq p
    have h5 := hp₅.count_eq p
    have h6 := hp₆.count_eq p
    have ho := (horder.map Chunk.start).count_eq p
    simp only [List.count_append, List.count_cons, List.count_nil] at h1 h4 h5 h6
    simp only [CtxLayout.blocks, List.map_append, List.map_cons, List.count_append, List.count_cons]
    omega

/-! ## Negative sizes -/

theorem allocMany_hasBlock {e n : U64} (h : allocMany area e n m = .ok (m', p)) (hc : HasBlock m c) : HasBlock m' c :=
  allocZeroed_hasBlock h hc

theorem allocBlocks_hasBlock {l : List CtxBlock} {s s' : Mempool × (CtxBlock → U64)}
    (h : allocBlocks area cfg noRuns runsInBatch l s = .ok s') (hc : HasBlock s.1 c) : HasBlock s'.1 c := by
  refine Loop.foldlM_inv (I := fun s : Mempool × (CtxBlock → U64) => HasBlock s.1 c) ?_ hc h
  rintro b - s s' hs hstep
  obtain ⟨⟨m₁, p⟩, hcall, hstep⟩ := Loop.bind_ok hstep
  cases hstep
  exact allocMany_hasBlock hcall hs

theorem allocHist_hasBlock (h : allocHist area cfg m = .ok (m', p)) (hc : HasBlock m c) : HasBlock m' c := by
  obtain ⟨⟨m₁, hist⟩, h₁, h⟩ := Loop.bind_ok h
  obtain ⟨⟨m₂, lut⟩, h₂, h⟩ := Loop.bind_ok h
  obtain ⟨m₃, h₃, h⟩ := Loop.bind_ok h
  cases h
  refine allocTable_hasBlock (fun _ _ _ hcall hs => allocZeroed_hasBlock hcall hs) h₃ (store_hasBlock _ _ ?_)
  exact allocMany_hasBlock h₂ (store_hasBlock _ _ (allocZeroed_hasBlock h₁ hc))

/-- The start barriers of a negative number of runs. -/
theorem startBarriers_size (h : runsInBatch.toInt < 0) : 2 ^ 63 ≤ (24 * intToU64 runsInBatch).toNat := by
  have h1 := intToU64_neg h
  have h2 := (intToU64 runsInBatch).isLt
  obtain ⟨k, hk⟩ : ∃ k, (intToU64 runsInBatch).toNat + k = 2 ^ 64 := ⟨_, Nat.add_sub_of_le (Nat.le_of_lt h2)⟩
  rw [BitVec.toNat_mul, show (24 : U64).toNat = 24 from rfl,
    show 24 * (intToU64 runsInBatch).toNat = 2 ^ 64 - 24 * k + 2 ^ 64 * 23 by omega, Nat.add_mul_mod_self_left,
    Nat.mod_eq_of_lt (by omega)]
  omega

/-- **A negative number of runs in a batch gives a block that wraps**, if the allocation succeeds. -/
theorem allocBlocks_wraps (h : Blocks area m bs) (hbatch : runsInBatch.toInt < 0) {block : CtxBlock → U64}
    {s : Mempool × (CtxBlock → U64)}
    (hrun : allocBlocks area cfg noRuns runsInBatch CtxBlock.allocOrder (m, block) = .ok s) :
    ∃ c, HasBlock s.1 c ∧ 2 ^ 64 ≤ c.hi := by
  -- the fields before this one do not depend on the numbers
  rw [show CtxBlock.allocOrder = [.heapVars, .outRegs, .systemState, .genericCpuBarrier, .genericVcpuBarrier] ++
    .startBarriers :: [.shuffledIxs, .shuffledIxsInverse, .affinity, .ptables] from rfl, allocBlocks,
    List.foldlM_append] at hrun
  obtain ⟨⟨m₁, block₁⟩, h₁, hrun⟩ := Loop.bind_ok hrun
  rw [List.foldlM_cons] at hrun
  obtain ⟨⟨m₂, block₂⟩, h₂, hrun⟩ := Loop.bind_ok hrun
  obtain ⟨chunk, -, hblocks, -⟩ := (@allocBlocks_placed area m cfg noRuns runsInBatch bs _ (by decide)
    (fun b hb => b.size_lt (by rintro (rfl | rfl) <;> exact absurd hb (by decide))
      (by rintro (rfl | rfl) <;> exact absurd hb (by decide))) h block).ok h₁
  obtain ⟨⟨m₃, p⟩, hcall, h₂⟩ := Loop.bind_ok h₂
  cases h₂
  obtain ⟨h1, -, h3, h4⟩ := alignmentRequest_bounds (24 * intToU64 runsInBatch) 24
  obtain ⟨c, hc, hwrap⟩ := hblocks.allocZeroed_wraps ((startBarriers_size hbatch).trans h1) h3
    (h4.trans (by decide)) hcall
  exact ⟨c, allocBlocks_hasBlock hrun hc, hwrap⟩

/-- What a context starts with, for numbers of any sign. -/
theorem initTestCtx_nonneg {ctx : CtxPtrs} (h : Blocks area m bs)
    (hrun : initTestCtx area cfg noRuns runsInBatch m = .ok (m', ctx)) :
    0 ≤ noRuns.toInt ∧ (runsInBatch.toInt < 0 → ∃ c, HasBlock m' c ∧ 2 ^ 64 ≤ c.hi) := by
  unfold initTestCtx at hrun
  obtain ⟨-, -, hrun⟩ := Loop.bind_ok hrun
  obtain ⟨⟨m₁, block⟩, h₁, hrun⟩ := Loop.bind_ok hrun
  obtain ⟨m₂, h₂, hrun⟩ := Loop.bind_ok hrun
  obtain ⟨-, -, hrun⟩ := Loop.bind_ok hrun
  obtain ⟨m₃, h₃, hrun⟩ := Loop.bind_ok hrun
  obtain ⟨_, hfit, hrun⟩ := Loop.bind_ok hrun
  obtain ⟨⟨m₄, hist⟩, h₄, hrun⟩ := Loop.bind_ok hrun
  cases hrun
  constructor
  · by_contra hneg
    have := intToU64_neg (Int.lt_of_not_ge hneg)
    unfold checkRuns at hfit
    rw [if_pos (by omega)] at hfit
    cases hfit
  · intro hbatch
    obtain ⟨c, hc, hwrap⟩ := allocBlocks_wraps h hbatch (orFail_ok h₁)
    have hruns : ∀ m m' p, allocRuns area noRuns m = .ok (m', p) → HasBlock m c → HasBlock m' c := fun _ _ _ hcall hs =>
      allocMany_hasBlock hcall hs
    have hc₃ := allocTable_hasBlock hruns (orFail_ok h₃) (allocTable_hasBlock hruns (orFail_ok h₂) hc)
    exact ⟨c, allocHist_hasBlock (orFail_ok h₄) hc₃, hwrap⟩

/-- `free_test_ctx` does not free a block that wraps. -/
theorem freeTestCtx_hasBlock {ctx : CtxPtrs} {freed : List U64} (h : freeTestCtx area cfg ctx m = .ok (m', freed))
    (hwrap : 2 ^ 64 ≤ c.hi) (hc : HasBlock m c) : HasBlock m' c := by
  obtain ⟨s₁, h₁, h⟩ := Loop.bind_ok h
  obtain ⟨s₂, h₂, h⟩ := Loop.bind_ok h
  obtain ⟨s₃, h₃, h⟩ := Loop.bind_ok h
  obtain ⟨s₄, h₄, h⟩ := Loop.bind_ok h
  obtain ⟨s₅, h₅, h⟩ := Loop.bind_ok h
  have hc₃ := freeBlock_hasBlock h₃ hwrap (freeBlock_hasBlock h₂ hwrap (freeTable_hasBlock h₁ hwrap hc))
  have hc₅ := freeTable_hasBlock h₅ hwrap (freeTable_hasBlock h₄ hwrap hc₃)
  exact Loop.foldlM_inv (I := fun s : Mempool × List U64 => HasBlock s.1 c)
    (fun _ _ _ _ hs hstep => freeBlock_hasBlock hstep hwrap hs) hc₅ h

/-! ## When nothing leaks -/

/-- A context that is set up does not leak. -/
theorem CtxLayout.Holds.noLeak {lay : CtxLayout} {m₁ : Mempool} {ctx : CtxPtrs} (h : Blocks area m bs)
    (hrun : initTestCtx area cfg noRuns runsInBatch m = .ok (m₁, ctx)) (hlay : lay.Holds area cfg bs m₁ ctx) :
    NoLeak area m cfg noRuns runsInBatch := by
  refine ⟨m₁, ctx, hrun, fun heap hw => ?_⟩
  obtain ⟨m₂, freed, hfree, hperm, h₂⟩ := (hlay.write hw).free
  have hnodup := hlay.blocks.nodup_start
  rw [List.map_append] at hnodup
  refine ⟨m₂, freed, hfree, fun start size => h₂.live_iff.trans h.live_iff.symm,
    hperm.nodup_iff.mpr (List.nodup_append.mp hnodup).1, fun p => ?_⟩
  rw [hperm.mem_iff]
  constructor
  · intro hp
    obtain ⟨c, hc, rfl⟩ := List.mem_map.mp hp
    refine ⟨c.size, hlay.blocks.live_iff.mpr (List.mem_append_left _ hc), fun hlive => ?_⟩
    exact (List.nodup_append.mp hlay.blocks.nodup).2.2 c hc c (h.live_iff.mp hlive) rfl
  · rintro ⟨size, hlive, hnot⟩
    rcases List.mem_append.mp (hlay.blocks.live_iff.mp hlive) with hc | hc
    · exact List.mem_map_of_mem hc
    · exact absurd (h.live_iff.mpr hc) hnot

/-- The numbers of a context that does not leak. -/
theorem NoLeak.nonneg (h : Blocks area m bs) (hleak : NoLeak area m cfg noRuns runsInBatch) :
    0 ≤ noRuns.toInt ∧ 0 ≤ runsInBatch.toInt := by
  obtain ⟨m₁, ctx, hrun, hall⟩ := hleak
  obtain ⟨hruns, hwraps⟩ := initTestCtx_nonneg h hrun
  refine ⟨hruns, ?_⟩
  by_contra hneg
  obtain ⟨c, hc, hwrap⟩ := hwraps (Int.lt_of_not_ge hneg)
  obtain ⟨m₂, freed, hfree, hlive, -⟩ := hall m₁.heap fun _ hx => absurd rfl hx
  have hmem := h.live_iff.mp ((hlive _ _).mp (freeTestCtx_hasBlock hfree hwrap hc).live)
  exact absurd (h.hi_lt hmem) (Nat.not_lt.mpr hwrap)

variable {heap : Mem} {steps : List (Mempool × VallocOp)}

theorem vallocRun_blocks (hrun : VallocRun area heap steps m) (hfits : ∀ s ∈ steps, s.2.Fits area s.1) :
    ∃ bs, Blocks area m bs := by
  obtain ⟨la, lu, free, last, hheap, -⟩ := vallocRun_heap hrun hfits
  exact ⟨m.live la, last, la, lu, free, hheap, List.Perm.refl _⟩

/-- **A test context does not leak**, once the test is accepted, if and only if neither the number of runs nor the number
of runs in a batch is negative. -/
theorem testCtx_noLeak_iff (hrun : VallocRun area heap steps m) (hfits : ∀ s ∈ steps, s.2.Fits area s.1)
    (hacc : CtxAccepted area m cfg noRuns runsInBatch) :
    NoLeak area m cfg noRuns runsInBatch ↔ 0 ≤ noRuns.toInt ∧ 0 ≤ runsInBatch.toInt := by
  obtain ⟨bs, hblocks⟩ := vallocRun_blocks hrun hfits
  refine ⟨NoLeak.nonneg hblocks, ?_⟩
  rintro ⟨hruns, hbatch⟩
  have hpost := initTestCtx_post hacc.1 hruns hbatch hblocks
  cases hinit : initTestCtx area cfg noRuns runsInBatch m with
  | error e =>
    obtain ⟨msg, rfl⟩ := hpost.error hinit
    exact absurd hinit (hacc.2 msg)
  | ok r =>
    obtain ⟨lay, hlay⟩ := hpost.ok hinit
    exact hlay.noLeak hblocks hinit

/-- A heap of 64 KiB. -/
def largeArea : HeapArea := { smallArea with
  topOfHeap := 0x20000
  le := by decide
  fits := by decide }

/-- A test with one variable and one register. -/
def oneVarTest : CtxTest where
  name := "W"
  heapVarNames := ["x"]
  initStates := [.heap "x" 0]
  requires := 0
  noRegs := 1
  varNames_fit := by decide
  regNames_fit := by decide

theorem CtxAccepted.of_ok {r : Mempool × CtxPtrs} (hread : checkVarInfos cfg = .ok ())
    (h : initTestCtx area cfg noRuns runsInBatch m = .ok r) : CtxAccepted area m cfg noRuns runsInBatch :=
  ⟨hread, fun msg hmsg => by rw [h] at hmsg; cases hmsg⟩

/-- One run in batches of one. -/
theorem testCtx_noLeak_iff_oneRun : NoLeak largeArea (initValloc largeArea fun _ => 0) oneVarTest 1 1 := by
  have hrun : (initTestCtx largeArea oneVarTest 1 1 (initValloc largeArea fun _ => 0)).toOption.isSome := by
    decide +kernel
  cases hinit : initTestCtx largeArea oneVarTest 1 1 (initValloc largeArea fun _ => 0) with
  | error e =>
    rw [hinit] at hrun
    cases hrun
  | ok r => exact (testCtx_noLeak_iff .init nofun (.of_ok rfl hinit)).mpr ⟨by decide, by decide⟩

/-- A test with three registers. -/
def threeRegsTest : CtxTest where
  name := "R"
  heapVarNames := []
  initStates := []
  requires := 0
  noRegs := 3
  varNames_fit := by decide
  regNames_fit := by decide

/-- A block of 72 bytes is freed below which there is another one. -/
def leakOps : List VallocOp := [.allocWithAlignment 72 72, .alloc 64, .free 0x1ffb8]

/-- With -1 runs in a batch the start barriers stay allocated. -/
theorem testCtx_leak : ∃ steps m, VallocRun largeArea (fun _ => 0) steps m ∧ (∀ s ∈ steps, s.2.Fits largeArea s.1) ∧
    CtxAccepted largeArea m threeRegsTest 10 (-1) ∧ (∃ r, initTestCtx largeArea threeRegsTest 10 (-1) m = .ok r) ∧
      ¬NoLeak largeArea m threeRegsTest 10 (-1) := by
  have hrun : ((Reach.run (fun m op => op.exec largeArea m) (initValloc largeArea fun _ => 0) leakOps).bind
      fun m => (initTestCtx largeArea threeRegsTest 10 (-1) m).toOption).isSome := by
    decide +kernel
  obtain ⟨r, hr⟩ := Option.isSome_iff_exists.mp hrun
  obtain ⟨m, hm, hr⟩ := Option.bind_eq_some_iff.mp hr
  obtain ⟨steps, hsteps, -, hmem⟩ := vallocRun_exec hm
  have hfits : ∀ s ∈ steps, s.2.Fits largeArea s.1 := by
    intro s hs req hreq
    have hall : ∀ op ∈ leakOps, op.request.all (fun req => decide (0 < req.2.toNat ∧
        req.1.toNat + 2 * req.2.toNat < 2 ^ 64)) = true := by
      decide
    obtain ⟨h1, h2⟩ := of_decide_eq_true ((Option.all_eq_true _ _).mp (hall s.2 (hmem s hs)) req hreq)
    exact fits_of_lt h1 h2
  obtain ⟨bs, hblocks⟩ := vallocRun_blocks hsteps hfits
  cases hinit : initTestCtx largeArea threeRegsTest 10 (-1) m with
  | error e =>
    rw [hinit] at hr
    cases hr
  | ok r =>
    refine ⟨steps, m, hsteps, hfits, .of_ok rfl hinit, ⟨r, hinit⟩, fun hleak => ?_⟩
    exact absurd (hleak.nonneg hblocks).2 (by decide)

end LitmusHarness
