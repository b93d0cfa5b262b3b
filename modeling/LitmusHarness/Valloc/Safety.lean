import LitmusHarness.Valloc.Drain

/-!
# The allocator is safe

The calls of a caller who keeps to the heap (`VallocOp.Proper`) never ask for 2^64 bytes (`proper_fits`), so a run of
them keeps the heap. Hence the chunks that the loops over the two lists visit are apart and lie in the heap, and what a
call returns is zero and apart from all that was allocated before (`valloc_safe`).
-/

namespace LitmusHarness

/-! ## Powers of two -/

/-- The loop of `next_largest_pow2` counts the bits. -/
theorem countBits_loop {k n : Nat} {i : U64} (hi : i.toNat < 2 ^ k) : ∃ r, r ≤ k ∧ Loop.untilReturn
    (fun s : Nat × U64 => if s.2 = 0 then Sum.inr s.1 else .inl (s.1 + 1, s.2 >>> 1)) (k + 1) (n, i) = some (n + r) ∧
      i.toNat < 2 ^ r ∧ (0 < r → 2 ^ (r - 1) ≤ i.toNat) := by
  induction k generalizing n i with
  | zero =>
    obtain rfl : i = 0 := BitVec.eq_of_toNat_eq (Nat.lt_one_iff.mp hi)
    exact ⟨0, Nat.le_refl 0, rfl, by decide, fun h => absurd h (Nat.lt_irrefl 0)⟩
  | succ k ih =>
    rw [Loop.untilReturn]
    by_cases h0 : i = 0
    · rw [if_pos h0, h0]
      exact ⟨0, Nat.zero_le _, rfl, by decide, fun h => absurd h (Nat.lt_irrefl 0)⟩
    · rw [if_neg h0]
      have hpos : 0 < i.toNat := Nat.pos_of_ne_zero fun h => h0 (BitVec.eq_of_toNat_eq h)
      have hhalf : (i >>> 1).toNat = i.toNat / 2 := by
        rw [BitVec.toNat_ushiftRight, Nat.shiftRight_eq_div_pow]
      rw [Nat.pow_succ] at hi
      obtain ⟨r, hr, hrun, hlt, hge⟩ := @ih (n + 1) (i >>> 1) (by omega)
      rw [hhalf] at hlt hge
      refine ⟨r + 1, by omega, hrun.trans (congrArg some (by omega)), by rw [Nat.pow_succ]; omega, fun _ => ?_⟩
      rw [Nat.add_sub_cancel]
      cases r with
      | zero => exact hpos
      | succ r =>
        have := hge (Nat.succ_pos r)
        rw [Nat.add_sub_cancel] at this
        rw [Nat.pow_succ]
        omega

/-- `next_largest_pow2` of a number below 2^63 is larger, and at most twice as large. -/
theorem nextLargestPow2_bounds {i : U64} (hi : i.toNat < 2 ^ 63) : i.toNat < (Mempool.nextLargestPow2 i).toNat ∧
    ((Mempool.nextLargestPow2 i).toNat ≤ 2 * i.toNat ∨ (Mempool.nextLargestPow2 i).toNat = 1) := by
  obtain ⟨r, -, hrun, hlt, hge⟩ := @countBits_loop 64 0 i i.isLt
  have hcount : Mempool.countBits i = r := by
    unfold Mempool.countBits
    dsimp only
    rw [hrun]
    exact Nat.zero_add r
  have hr : r < 64 := by
    by_contra hno
    have h1 := hge (by omega)
    have h2 := Nat.pow_le_pow_right (show 0 < 2 by decide) (show 63 ≤ r - 1 by omega)
    omega
  have hpow : (Mempool.nextLargestPow2 i).toNat = 2 ^ r := by
    rw [Mempool.nextLargestPow2, hcount, Nat.mod_eq_of_lt hr, BitVec.toNat_shiftLeft, Nat.shiftLeft_eq]
    have := Nat.pow_lt_pow_right (show 1 < 2 by decide) hr
    simpa using this
  rw [hpow]
  refine ⟨hlt, ?_⟩
  cases r with
  | zero => exact .inr rfl
  | succ r =>
    have := hge (Nat.succ_pos r)
    rw [Nat.add_sub_cancel] at this
    rw [Nat.pow_succ]
    omega

/-! ## What the calls ask for -/

/-- A size and an alignment that are far from 2^64. -/
structure Moderate (req : U64 × U64) : Prop where
  size : req.1.toNat ≤ 2 ^ 49
  pos : 0 < req.2.toNat
  align : req.2.toNat ≤ 2 ^ 48

theorem nextLargestPow2_sizeofFreeChunk : Mempool.nextLargestPow2 sizeofFreeChunk = 32#64 := by decide

theorem lt_sizeofFreeChunk {size : U64} : size < sizeofFreeChunk ↔ size.toNat < 24 := Iff.rfl

/-- What `alloc` asks for: the rounded size, or 32 bytes if that is less than a header, at a multiple of 8. -/
theorem allocRequest_eq {size s : U64} (hs : (if Mempool.isPow2 size then size else Mempool.nextLargestPow2 size) = s) :
    Mempool.allocRequest size = (if s.toNat < 24 then 32#64 else s, 8#64) := by
  unfold Mempool.allocRequest
  dsimp only
  rw [hs, nextLargestPow2_sizeofFreeChunk]
  by_cases hlt : s < sizeofFreeChunk
  · rw [if_pos hlt, if_pos (lt_sizeofFreeChunk.mp hlt)]
    rfl
  · have hle : ¬s ≤ 8 := by
      rw [lt_sizeofFreeChunk] at hlt
      rw [BitVec.le_def, show (8 : U64).toNat = 8 from rfl]
      omega
    rw [if_neg hlt, if_neg hle, if_neg fun h => hlt (lt_sizeofFreeChunk.mpr h)]
    rfl

theorem allocRequest_moderate {size : U64} (hsize : size.toNat ≤ 2 ^ 48) :
    size.toNat ≤ (Mempool.allocRequest size).1.toNat ∧ Moderate (Mempool.allocRequest size) := by
  obtain ⟨h1, h2⟩ := nextLargestPow2_bounds (show size.toNat < 2 ^ 63 by omega)
  obtain ⟨s, hs, h3, h4⟩ : ∃ s : U64, (if Mempool.isPow2 size then size else Mempool.nextLargestPow2 size) = s ∧
      size.toNat ≤ s.toNat ∧ s.toNat ≤ 2 ^ 49 := by
    refine ⟨_, rfl, ?_⟩
    split <;> omega
  have halign : 0 < (8#64).toNat ∧ (8#64).toNat ≤ 2 ^ 48 := by decide
  have hmin : (32#64).toNat = 32 := rfl
  rw [allocRequest_eq hs]
  split
  · exact ⟨by dsimp only; omega, ⟨by dsimp only; omega, halign.1, halign.2⟩⟩
  · exact ⟨h3, ⟨h4, halign.1, halign.2⟩⟩

theorem alignmentRequest_moderate {size alignment : U64} (hsize : size.toNat ≤ 2 ^ 48)
    (halign : alignment.toNat ≤ 2 ^ 48) : size.toNat ≤ (Mempool.alignmentRequest size alignment).1.toNat ∧
      Moderate (Mempool.alignmentRequest size alignment) := by
  have hmin : (32#64).toNat = 32 := rfl
  have hround : ∀ a : U64, a.toNat ≤ 2 ^ 48 →
      0 < (if a < sizeofAllocChunk then Mempool.nextLargestPow2 sizeofAllocChunk else a).toNat ∧
        (if a < sizeofAllocChunk then Mempool.nextLargestPow2 sizeofAllocChunk else a).toNat ≤ 2 ^ 48 := by
    intro a ha
    have hmin' : (Mempool.nextLargestPow2 sizeofAllocChunk).toNat = 64 := by decide
    split
    · omega
    · rename_i hlt
      rw [BitVec.lt_def, show sizeofAllocChunk.toNat = 32 from rfl] at hlt
      omega
  unfold Mempool.alignmentRequest
  rw [nextLargestPow2_sizeofFreeChunk]
  by_cases hlt : size < sizeofFreeChunk
  · simp only [hlt, if_true]
    obtain ⟨h1, h2⟩ := hround 8 (by decide)
    rw [lt_sizeofFreeChunk] at hlt
    exact ⟨by omega, ⟨by dsimp only; omega, h1, h2⟩⟩
  · simp only [hlt, if_false]
    obtain ⟨h1, h2⟩ := hround alignment halign
    exact ⟨Nat.le_refl _, ⟨by dsimp only; omega, h1, h2⟩⟩

/-- The padding is less than twice the alignment. -/
theorem padding_le (c : U64) {alignment : U64} (hpos : 0 < alignment.toNat) :
    (Mempool.padding c alignment).toNat ≤ 2 * alignment.toNat := by
  unfold Mempool.padding alignUpTo
  split
  · simp
  · have heq : c + -c % alignment + alignment - c = -c % alignment + alignment := by bv_omega
    rw [heq, BitVec.toNat_add, BitVec.toNat_umod]
    have h1 := Nat.mod_le ((-c).toNat % alignment.toNat + alignment.toNat) (2 ^ 64)
    have h2 := Nat.mod_lt (-c).toNat hpos
    omega

variable {area : HeapArea} {heap : Bytes.Mem} {m m' : Mempool} {steps : List (Mempool × VallocOp)} {op : VallocOp}

theorem Moderate.fits {req : U64 × U64} (h : Moderate req) : Mempool.Fits area m req.1 req.2 := by
  intro c _
  have h1 := padding_le c h.pos
  have h2 := h.size
  have h3 := h.align
  omega

/-- What a caller may ask for: sizes and alignments up to the size of the heap, and alignments that are powers of two. -/
def VallocOp.Proper (area : HeapArea) : VallocOp → Prop
  | .alloc size => size ≤ area.topOfHeap - area.botOfHeap
  | .allocWithAlignment size alignment => size ≤ area.topOfHeap - area.botOfHeap ∧
    alignment ≤ area.topOfHeap - area.botOfHeap ∧ ∃ k, k < 64 ∧ alignment = 1#64 <<< k
  | .free _ => True
  | .write => True

theorem le_of_le_heap {n : U64} (h : n ≤ area.topOfHeap - area.botOfHeap) : n.toNat ≤ 2 ^ 48 := by
  have h1 : (area.topOfHeap - area.botOfHeap).toNat = area.topOfHeap.toNat - area.botOfHeap.toNat :=
    BitVec.toNat_sub_of_le (BitVec.le_def.mpr area.le)
  have h2 := area.fits
  rw [BitVec.le_def, h1] at h
  omega

theorem VallocOp.Proper.fits (h : op.Proper area) : op.Fits area m := by
  intro req hreq
  cases op with
  | «alloc» size =>
    cases hreq
    exact (allocRequest_moderate (le_of_le_heap h)).2.fits
  | «allocWithAlignment» size alignment =>
    cases hreq
    exact (alignmentRequest_moderate (le_of_le_heap h.1) (le_of_le_heap h.2.1)).2.fits
  | «free» p => cases hreq
  | «write» => cases hreq

/-! ## Safety -/

/-- The allocated blocks and the free chunks, as loops over the two lists visit them. -/
def Mempool.allChunks (area : HeapArea) (m : Mempool) : VallocResult (List Chunk) := do
  let la ← m.allocChunks
  let lf ← m.freeChunks area
  return la.map m.block ++ lf.map fun c => ⟨c, m.chunkSize c⟩

/-- All chunks are apart and lie in the heap, from the top on. -/
def Mempool.Safe (area : HeapArea) (m : Mempool) : Prop :=
  area.botOfHeap ≤ m.top ∧ ∃ l, m.allChunks area = .ok l ∧ l.Pairwise Chunk.Apart ∧
    ∀ c ∈ l, m.top.toNat ≤ c.lo ∧ c.hi ≤ area.topOfHeap.toNat

/-- A block of at least `size` bytes that was not allocated, with zeros. -/
def Mempool.Fresh (m m' : Mempool) (p size : U64) : Prop :=
  ∃ n, m'.Live p n ∧ size.toNat ≤ n.toNat ∧ (∀ x, p.toNat ≤ x → x < p.toNat + size.toNat → m'.heap x = 0) ∧
    ∀ start len, m.Live start len → Chunk.Apart ⟨p, n⟩ ⟨start, len⟩

theorem Mempool.Heap.safe {la lu : List Nat} {free : List Chunk} {last : Nat} (h : Heap area last m la lu free) :
    m.Safe area := by
  have hfree : (free.map Chunk.start).map (fun c => (⟨c, m.chunkSize c⟩ : Chunk)) = free := by
    rw [List.map_map]
    refine (List.map_congr_left fun c hc => ?_).trans (List.map_id free)
    rw [Function.comp_apply, h.headers.size c hc]
    rfl
  refine ⟨BitVec.le_def.mpr h.layout.bot, m.live la ++ free, ?_, ?_, fun c hc => ?_⟩
  · rw [allChunks, allocChunks_ok h.nodes, freeChunks_ok h.headers h.layout.length_lt]
    exact congrArg (fun l => Except.ok (m.live la ++ l)) hfree
  · exact (apart_perm List.perm_append_comm).mp h.layout.apart
  · obtain ⟨h1, h2⟩ := h.layout.inside c (List.perm_append_comm.mem_iff.mp hc)
    exact ⟨h1, h2.trans h.layout.lastLe⟩

theorem Mempool.Heap.fresh {la lu : List Nat} {free : List Chunk} {last : Nat} {p size : U64} {req : U64 × U64}
    (h : Heap area last m la lu free) (hsize : 24 ≤ req.1.toNat) (hreq : Moderate req) (hle : size.toNat ≤ req.1.toNat)
    (hrun : m.allocZeroed area req = .ok (m', p)) : Fresh m m' p size := by
  obtain ⟨i, lu', free', last', hheap, hstart, hblock, hother, hzero, -, -⟩ := allocZeroed_ok h hsize hreq.fits hrun
  have hi : m'.block i ∈ m'.live (i :: la) := List.mem_map_of_mem List.mem_cons_self
  have hpi : m'.block i = ⟨p, (m'.block i).size⟩ := by rw [← hstart]
  refine ⟨(m'.block i).size, (live_iff hheap.nodes).mpr (hpi ▸ hi), hle.trans hblock, fun x h1 h2 => ?_, ?_⟩
  · exact hzero x h1 (by omega)
  · intro start len hlive
    obtain ⟨j, hj, heq⟩ := List.mem_map.mp ((live_iff h.nodes).mp hlive)
    have hpairs := (List.pairwise_append.mp hheap.layout.apart).2.1
    rw [live, List.map_cons] at hpairs
    have hapart := (List.pairwise_cons.mp hpairs).1 (m'.block j) (List.mem_map_of_mem hj)
    rw [hother j hj, heq, hpi] at hapart
    exact hapart

/-- **In every state that proper calls reach, the chunks are apart and in the heap**, and a call returns a fresh block of
the size that is asked for, if it returns. -/
theorem valloc_safe (hrun : VallocRun area heap steps m) (hproper : ∀ s ∈ steps, s.2.Proper area) : m.Safe area ∧
    (∀ size m' p, (VallocOp.alloc size).Proper area → m.alloc area size = .ok (m', p) → m.Fresh m' p size) ∧
    (∀ size alignment m' p, (VallocOp.allocWithAlignment size alignment).Proper area →
      m.allocWithAlignment area size alignment = .ok (m', p) → m.Fresh m' p size) := by
  obtain ⟨la, lu, free, last, hheap, -⟩ := vallocRun_heap hrun fun s hs => (hproper s hs).fits
  refine ⟨hheap.safe, fun size m' p hp hcall => ?_, fun size alignment m' p hp hcall => ?_⟩
  · obtain ⟨hle, hmod⟩ := allocRequest_moderate (le_of_le_heap hp)
    exact hheap.fresh (Mempool.allocRequest_size size) hmod hle hcall
  · obtain ⟨hle, hmod⟩ := alignmentRequest_moderate (le_of_le_heap hp.1) (le_of_le_heap hp.2.1)
    exact hheap.fresh (Mempool.alignmentRequest_size size alignment) hmod hle hcall

/-- A block of 64 bytes, and then one of 41. -/
theorem valloc_safe_twoBlocks : ∃ steps m m' p, VallocRun smallArea (fun _ => 0) steps m ∧ steps.length = 1 ∧
    m.Safe smallArea ∧ m.allocWithAlignment smallArea 41 8 = .ok (m', p) ∧ m.Fresh m' p 41 := by
  have hrun : (((VallocOp.alloc 64).exec smallArea (initValloc smallArea fun _ => 0)).bind fun m =>
      (m.allocWithAlignment smallArea 41 8).toOption).map (fun r => r.2) = some 0x11f80 := by
    decide +kernel
  obtain ⟨⟨m', p⟩, hr, -⟩ := Option.map_eq_some_iff.mp hrun
  obtain ⟨m, hm, hcall⟩ := Option.bind_eq_some_iff.mp hr
  have hsteps := VallocRun.init.step (VallocOp.exec_step hm)
  obtain ⟨hsafe, -, hfresh⟩ := valloc_safe hsteps
    (List.forall_mem_cons.mpr ⟨(by decide : (64 : U64) ≤ smallArea.topOfHeap - smallArea.botOfHeap),
      fun s hs => absurd hs List.not_mem_nil⟩)
  exact ⟨_, m, m', p, hsteps, rfl, hsafe, ok_of_toOption hcall,
    hfresh 41 8 m' p ⟨by decide, by decide, 3, by decide, by decide⟩ (ok_of_toOption hcall)⟩

end LitmusHarness
