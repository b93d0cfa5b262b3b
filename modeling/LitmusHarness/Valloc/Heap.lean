import LitmusHarness.Valloc.Take

/-!
# The calls keep the heap

`init_valloc` makes a `Heap` with nothing in it (`initValloc_heap`). An allocation gives a heap with a zeroed block more
(`allocZeroed_ok`), a free of a block always returns and gives one with a block less (`free_ok`), and what the program
writes to its blocks does not matter (`Heap.write`). The other blocks keep their bytes, and a block is found again by its
address (`Heap.findAllocChunk`).
-/

namespace LitmusHarness

namespace Mempool

variable {area : HeapArea} {m m' : Mempool} {la lu : List Nat} {free : List Chunk} {last : Nat} {p : U64}

/-! ## The start -/

theorem seg_initValloc (area : HeapArea) (heap : Bytes.Mem) {n i : Nat} (hn : i + n = numAllocChunks) :
    Dll.Seg (nodeLinks (initValloc area heap).chunks) (if i = 0 then none else some (i - 1)) (List.range' i n) none := by
  induction n generalizing i with
  | zero => trivial
  | succ n ih =>
    rw [List.range'_succ, Dll.Seg]
    refine ⟨rfl, ?_, ?_⟩
    · cases n with
      | zero =>
        have hi : i = numAllocChunks - 1 := by omega
        simp [nodeLinks, initValloc, hi]
      | succ n =>
        have hi : i ≠ numAllocChunks - 1 := by omega
        simp [nodeLinks, initValloc, hi, List.range'_succ]
    · have := ih (show i + 1 + n = numAllocChunks by omega)
      rwa [if_neg (Nat.succ_ne_zero i), Nat.add_sub_cancel] at this

/-- **After `init_valloc` nothing is allocated and nothing is in the freelist.** -/
theorem initValloc_heap (area : HeapArea) (heap : Bytes.Mem) :
    Heap area area.topOfHeap.toNat (initValloc area heap) [] (List.range numAllocChunks) [] := by
  refine ⟨⟨⟨.empty, ⟨?_, ?_, List.nodup_range⟩, ?_⟩, ⟨.empty, ?_, ?_, ?_⟩, ?_, ?_⟩, ?_⟩
  · rw [List.head?_range]
    rfl
  · rw [List.range_eq_range']
    exact seg_initValloc area heap (Nat.zero_add numAllocChunks)
  · rw [List.nil_append]
  · exact fun c hc => absurd hc List.not_mem_nil
  · exact fun c hc => absurd hc List.not_mem_nil
  · exact fun c hc => absurd hc List.not_mem_nil
  · exact ⟨area.le, Nat.le_refl _, Nat.le_refl _, fun c hc => absurd hc List.not_mem_nil,
      fun c hc => absurd hc List.not_mem_nil, List.Pairwise.nil, .inl rfl⟩
  · exact fun f hf => absurd hf List.not_mem_nil
  · exact fun c hc => absurd hc List.not_mem_nil

/-! ## Writes to the blocks -/

/-- **What is written to the blocks does not matter.** -/
theorem Heap.write (h : Heap area last m la lu free) {heap : Bytes.Mem}
    (hw : ∀ x, heap x ≠ m.heap x → ∃ b ∈ m.live la, b.lo ≤ x ∧ x < b.hi) :
    Heap area last { m with heap := heap } la lu free := by
  refine ⟨⟨⟨h.nodes.alloc, h.nodes.unalloc, h.nodes.perm⟩, ?_, h.layout, h.sep⟩, h.below⟩
  refine h.headers.congr rfl fun c hc => .of_heap fun x h1 h2 => ?_
  by_contra hne
  obtain ⟨b, hb, h3, h4⟩ := hw x hne
  have hapart := h.layout.free_live hc hb
  have hsize := h.layout.size c (List.mem_append_left _ hc)
  unfold Chunk.Apart Chunk.hi Chunk.lo at *
  omega

theorem live_iff (hn : Nodes m la lu) {start size : U64} : m.Live start size ↔ ⟨start, size⟩ ∈ m.live la := by
  rw [Live, allocChunks_ok hn]
  constructor
  · rintro ⟨l, heq, i, hi, rfl, rfl⟩
    cases heq
    exact List.mem_map_of_mem hi
  · intro hmem
    obtain ⟨i, hi, heq⟩ := List.mem_map.mp hmem
    exact ⟨la, rfl, i, hi, congrArg Chunk.start heq, congrArg Chunk.size heq⟩

/-! ## Allocations -/

theorem alignmentRequest_size (size alignment : U64) : 24 ≤ (alignmentRequest size alignment).1.toNat := by
  unfold alignmentRequest
  by_cases h : size < sizeofFreeChunk
  · simp only [h, if_true]
    decide
  · simp only [h, if_false]
    exact Nat.le_of_not_lt fun hlt => h (BitVec.lt_def.mpr hlt)

theorem allocRequest_size (size : U64) : 24 ≤ (allocRequest size).1.toNat := by
  unfold allocRequest
  dsimp only
  generalize (if isPow2 size then size else nextLargestPow2 size) = size
  split
  · decide
  · rename_i h
    exact Nat.le_of_not_lt fun hlt => h (BitVec.lt_def.mpr hlt)

/-- **An allocation**: the new block is zero, and the other blocks are what they were. -/
theorem allocZeroed_ok {req : U64 × U64} (h : Heap area last m la lu free) (hsize : 24 ≤ req.1.toNat)
    (hfits : Fits area m req.1 req.2) (hrun : m.allocZeroed area req = .ok (m', p)) :
    ∃ i lu' free' last', Heap area last' m' (i :: la) lu' free' ∧ (m'.block i).start = p ∧
      req.1.toNat ≤ (m'.block i).size.toNat ∧ (∀ j ∈ la, m'.block j = m.block j) ∧
      (∀ x, p.toNat ≤ x → x < p.toNat + req.1.toNat → m'.heap x = 0) ∧ SameBytes m m' (m.live la) ∧
      (last' = area.topOfHeap.toNat ↔ last = area.topOfHeap.toNat ∧ ¬LosesEnd area m req.1 req.2) := by
  unfold allocZeroed at hrun
  cases haux : m.allocWithAlignmentAux area req.1 req.2 with
  | error e =>
    rw [haux] at hrun
    cases hrun
  | ok r =>
    obtain ⟨m₁, p₁⟩ := r
    rw [haux] at hrun
    cases hrun
    obtain ⟨i, lu', free', last', hheap, hstart, hle, hother, hbytes, hlast⟩ :=
      allocWithAlignmentAux_ok h hsize hfits haux
    have hmem : m₁.block i ∈ m₁.live (i :: la) := List.mem_map_of_mem List.mem_cons_self
    have hhi := hheap.layout.hi_lt (List.mem_append_right _ hmem)
    have hlo : (m₁.block i).lo = p.toNat := congrArg BitVec.toNat hstart
    rw [Chunk.hi_eq, hlo] at hhi
    have hlen : (p + req.1).toNat - p.toNat = req.1.toNat := by
      rw [BitVec.toNat_add, Nat.mod_eq_of_lt (by omega)]
      omega
    refine ⟨i, lu', free', last', hheap.write fun x hx => ⟨m₁.block i, hmem, ?_⟩, hstart, hle, hother, ?_, ?_, hlast⟩
    · by_contra hout
      refine hx (Bytes.fill_of_not_mem ?_)
      rw [hlen]
      rw [Chunk.hi_eq, hlo] at hout
      omega
    · intro x h1 h2
      exact Bytes.fill_of_mem (by rw [hlen]; exact ⟨h1, h2⟩)
    · intro b hb x h1 h2
      refine (Bytes.fill_of_not_mem ?_).trans (hbytes b hb x h1 h2)
      -- the block is apart from the new one
      obtain ⟨j, hj, rfl⟩ := List.mem_map.mp hb
      have hpairs := (List.pairwise_append.mp hheap.layout.apart).2.1
      rw [live, List.map_cons] at hpairs
      have hapart := (List.pairwise_cons.mp hpairs).1 (m₁.block j) (List.mem_map_of_mem hj)
      rw [hother j hj, Chunk.Apart, Chunk.hi_eq (m₁.block i), hlo] at hapart
      rw [hlen]
      omega

/-! ## `free` -/

/-- The blocks of two nodes are apart. -/
theorem Heap.blocks_apart {i j : Nat} (h : Heap area last m la lu free) (hi : i ∈ la) (hj : j ∈ la) (hne : i ≠ j) :
    (m.block i).Apart (m.block j) := by
  have hpairs := (List.pairwise_append.mp h.layout.apart).2.1
  rw [live, List.pairwise_map] at hpairs
  have : Std.Symm fun a b => (m.block a).Apart (m.block b) := ⟨fun _ _ h => h.symm⟩
  exact hpairs.forall hi hj hne

/-- A block is found by its first address. -/
theorem Heap.findAllocChunk {i : Nat} (h : Heap area last m la lu free) (hi : i ∈ la) :
    m.findAllocChunk (m.block i).start = .ok (some i) := by
  have hall : ∀ j ∈ la, m.block j ∈ free ++ m.live la := fun j hj =>
    List.mem_append_right _ (List.mem_map_of_mem hj)
  have hsize := h.layout.size (m.block i) (hall i hi)
  refine findAllocChunk_ok h.nodes hi (Nat.le_refl _) ?_ (fun j hj => h.layout.hi_lt (hall j hj)) ?_
  · rw [Chunk.hi_eq]
    exact Nat.lt_add_of_pos_right (by omega)
  · intro j hj h1 h2
    by_contra hne
    have hapart := h.blocks_apart hj hi hne
    rw [Chunk.Apart, Chunk.hi_eq (m.block i)] at hapart
    have hlo : (m.block i).lo = (m.block i).start.toNat := rfl
    omega

/-- **A free of a block returns**, and the block is not allocated any more. -/
theorem free_ok {i : Nat} {l₁ l₂ : List Nat} (h : Heap area last m (l₁ ++ i :: l₂) lu free) :
    ∃ m' free', m.free area (m.block i).start = .ok m' ∧ Heap area last m' (l₁ ++ l₂) (i :: lu) free' ∧
      (∀ j, m'.block j = m.block j) ∧ SameBytes m m' (m.live (l₁ ++ l₂)) := by
  have hlive : m.live (l₁ ++ i :: l₂) = l₁.map m.block ++ m.block i :: l₂.map m.block := by simp [live]
  have hmem : m.block i ∈ m.live (l₁ ++ i :: l₂) := by simp [live]
  have hsize := h.layout.size (m.block i) (List.mem_append_right _ hmem)
  have hfind := h.findAllocChunk (show i ∈ l₁ ++ i :: l₂ by simp)
  obtain ⟨hnodes, hblocks, hsame⟩ := moveToDealloc_ok h.nodes
  have hfree₁ : Free (m.moveToDealloc i) free := h.headers.congr hsame.freelist fun d _ => .of_heap fun x _ _ => by
    rw [hsame.heap]
  have hl : Layout area m.top.toNat last (m.block i :: free) (l₁.map m.block ++ l₂.map m.block) :=
    Layout.release (hlive ▸ h.layout)
  have hlive' : ∀ m' : Mempool, SameNodes (m.moveToDealloc i) m' →
      m'.live (l₁ ++ l₂) = l₁.map m.block ++ l₂.map m.block := by
    intro m' hm'
    rw [hm'.live, live, List.map_append, List.map_congr_left fun j _ => hblocks j,
      List.map_congr_left (l := l₂) fun j _ => hblocks j]
  have hpos : (m.block i).start ≠ 0 := by
    have := h.layout.lo_pos (List.mem_append_right _ hmem)
    intro h0
    rw [Chunk.lo, h0] at this
    exact Nat.lt_irrefl 0 this
  have hfree₂ := allocateFreeChunk_ok (c := m.block i) hfree₁ hpos fun d hd => by
    have h1 := h.layout.free_live hd hmem
    have h2 := h.layout.size d (List.mem_append_left _ hd)
    unfold Chunk.Apart Chunk.hi Chunk.lo at h1
    unfold HeadersApart
    omega
  obtain ⟨hsame₂, htop₂⟩ := allocateFreeChunk_frame (m.moveToDealloc i) (m.block i).start (m.block i).size
  have hcompacting : Compacting area last ((m.moveToDealloc i).allocateFreeChunk (m.block i).start (m.block i).size)
      (l₁ ++ l₂) (i :: lu) (m.block i) (m.block i :: free) := by
    refine ⟨(hsame₂.nodes hnodes).1, hfree₂, ?_, ?_, List.mem_cons_self⟩
    · rw [hlive' _ hsame₂, htop₂, hsame.top]
      exact hl
    · rw [hlive' _ hsame₂]
      exact Separated.release (hlive ▸ h.layout) (hlive ▸ h.sep)
  obtain ⟨m', free', hrun, hheap, hsame₃, hbytes⟩ := compactChunk_ok hcompacting
  refine ⟨m', free', ?_, hheap, fun j => ?_, fun b hb x h1 h2 => ?_⟩
  · have hdealloc : m.alloclistDealloc (m.block i).start = .ok (m.moveToDealloc i) := by
      rw [alloclistDealloc, hfind]
      rfl
    unfold Mempool.free
    simp only [bind, Except.bind, hfind, hdealloc]
    exact hrun
  · exact (hsame₃.nodes (hsame₂.nodes hnodes).1).2 j |>.trans ((hsame₂.nodes hnodes).2 j |>.trans (hblocks j))
  · have hb' : b ∈ l₁.map m.block ++ l₂.map m.block := by rwa [live, List.map_append] at hb
    rw [hlive' _ hsame₂] at hbytes
    refine (hbytes b hb' x h1 h2).trans ((allocateFreeChunk_heap hfree₁ ?_).trans (congrFun hsame.heap x))
    exact outOfHeaders hl hb' h1 h2

end Mempool

end LitmusHarness
