import LitmusHarness.Valloc.Safety

/-!
# What is free: `valloc_is_free` and `valloc_free_size`

In every state that a run reaches, `valloc_is_free` is right about all bytes of the heap but one for each free chunk with
a block directly behind it: it counts the first byte of that block as free (`isFree_exact_iff`).

`valloc_free_size` subtracts the sizes of the blocks from the space below the top, from which they are taken already. So
it is right exactly if there is no block, and no step has lost the end of the heap (`freeSize_exact_iff`).
-/

namespace LitmusHarness

namespace Mempool

/-! ## The functions of the source -/

/-- `valloc_is_free`. -/
def isFree (area : HeapArea) (m : Mempool) (va : U64) : VallocResult Bool :=
  if va < m.top then .ok true
  else do
    let l ← m.freeChunks area
    return l.any fun fblk => fblk ≤ va && va ≤ fblk + m.chunkSize fblk

/-- `valloc_free_size`. -/
def freeSize (area : HeapArea) (m : Mempool) : VallocResult U64 := do
  let l ← m.allocChunks
  let usedSpace := l.foldl (fun usedSpace chk => usedSpace + (m.chunks chk).size) 0
  return (m.top - area.botOfHeap) - usedSpace

/-! ## What they are for -/

/-- A byte of a block. -/
def InBlock (m : Mempool) (p : U64) : Prop :=
  ∃ start size, m.Live start size ∧ start.toNat ≤ p.toNat ∧ p.toNat < start.toNat + size.toNat

/-- A chunk of the freelist. -/
def FreeChunk (area : HeapArea) (m : Mempool) (start size : U64) : Prop :=
  ∃ l, m.freeChunks area = .ok l ∧ start ∈ l ∧ m.chunkSize start = size

/-- A byte of a free chunk. -/
def InFreeChunk (area : HeapArea) (m : Mempool) (p : U64) : Prop :=
  ∃ start size, m.FreeChunk area start size ∧ start.toNat ≤ p.toNat ∧ p.toNat < start.toNat + size.toNat

/-- `valloc_is_free` is right about an address. -/
def IsFreeExact (area : HeapArea) (m : Mempool) (p : U64) : Prop :=
  (m.InBlock p → m.isFree area p = .ok false) ∧ (p < m.top ∨ m.InFreeChunk area p → m.isFree area p = .ok true)

/-- A block starts at `p`, directly behind a free chunk. -/
def BehindFree (area : HeapArea) (m : Mempool) (p : U64) : Prop :=
  (∃ size, m.Live p size) ∧ ∃ start size, m.FreeChunk area start size ∧ start.toNat + size.toNat = p.toNat

/-- The total size of the blocks. -/
def liveSize (m : Mempool) : Nat := ((m.allocChunks.toOption.getD []).map fun i => (m.chunks i).size.toNat).sum

/-- `valloc_free_size` is what the blocks leave of the heap. -/
def FreeSizeExact (area : HeapArea) (m : Mempool) : Prop :=
  ∃ n, m.freeSize area = .ok n ∧ n.toNat + m.liveSize = area.topOfHeap.toNat - area.botOfHeap.toNat

/-! ## `valloc_is_free` -/

section IsFree

variable {area : HeapArea} {m : Mempool} {la lu : List Nat} {free : List Chunk} {last : Nat} {p : U64}

theorem freeChunk_iff (h : Heap area last m la lu free) {start size : U64} :
    m.FreeChunk area start size ↔ ⟨start, size⟩ ∈ free := by
  rw [FreeChunk, freeChunks_ok h.headers h.layout.length_lt]
  constructor
  · rintro ⟨l, hl, hmem, hsize⟩
    cases hl
    obtain ⟨c, hc, rfl⟩ := List.mem_map.mp hmem
    rw [← hsize, h.headers.size c hc]
    exact hc
  · exact fun hc => ⟨free.map Chunk.start, rfl, List.mem_map.mpr ⟨_, hc, rfl⟩, h.headers.size ⟨start, size⟩ hc⟩

/-- What `valloc_is_free` tells: the end of a free chunk is taken for a byte of it. -/
theorem isFree_iff (h : Heap area last m la lu free) :
    ∃ b, m.isFree area p = .ok b ∧ (b = true ↔ p < m.top ∨ ∃ c ∈ free, c.lo ≤ p.toNat ∧ p.toNat ≤ c.hi) := by
  unfold isFree
  by_cases htop : p < m.top
  · exact ⟨true, if_pos htop, by simp [htop]⟩
  · rw [if_neg htop, freeChunks_ok h.headers h.layout.length_lt]
    refine ⟨_, rfl, ?_⟩
    rw [or_iff_right htop, List.any_map, List.any_eq_true]
    refine exists_congr fun c => and_congr_right fun hc => ?_
    have hend := toNat_end (h.layout.hi_lt (List.mem_append_left _ hc))
    rw [Function.comp_apply, h.headers.size c hc, Bool.and_eq_true, decide_eq_true_iff, decide_eq_true_iff,
      BitVec.le_def, BitVec.le_def, hend]
    exact Iff.rfl

/-- A byte of a block is not below the top, and in no free chunk. -/
theorem Heap.inBlock (h : Heap area last m la lu free) (hp : m.InBlock p) :
    ¬p < m.top ∧ ∀ c ∈ free, c.lo ≤ p.toNat → p.toNat ≤ c.hi → c.hi = p.toNat ∧ ∃ size, m.Live p size := by
  obtain ⟨start, size, hlive, h1, h2⟩ := hp
  have hb := (live_iff h.nodes).mp hlive
  have hin := (h.layout.inside _ (List.mem_append_right _ hb)).1
  refine ⟨fun hlt => ?_, fun c hc h3 h4 => ?_⟩
  · rw [BitVec.lt_def] at hlt
    exact absurd (hin.trans h1) (Nat.not_le.mpr hlt)
  · have hapart := h.layout.free_live hc hb
    have hlo : start.toNat = c.hi ∧ c.hi = p.toNat := by
      unfold Chunk.Apart Chunk.hi Chunk.lo at *
      dsimp only at hapart
      omega
    obtain rfl : start = p := BitVec.eq_of_toNat_eq (hlo.1.trans hlo.2)
    exact ⟨hlo.2, size, hlive⟩

theorem isFree_exact (h : Heap area last m la lu free) : m.IsFreeExact area p ↔ ¬m.BehindFree area p := by
  obtain ⟨b, hb, hiff⟩ := @isFree_iff area m la lu free last p h
  have hfree : p < m.top ∨ m.InFreeChunk area p → b = true := by
    rw [hiff]
    refine Or.imp_right ?_
    rintro ⟨start, size, hc, h1, h2⟩
    exact ⟨_, (freeChunk_iff h).mp hc, h1, Nat.le_of_lt h2⟩
  unfold IsFreeExact
  simp only [hb, Except.ok.injEq]
  constructor
  · rintro ⟨hlive, -⟩ ⟨⟨size, hl⟩, start, size', hc, hend⟩
    have hsize := h.layout.size _ (List.mem_append_right _ ((live_iff h.nodes).mp hl))
    have hfalse := hlive ⟨p, size, hl, Nat.le_refl _, Nat.lt_add_of_pos_right (by dsimp only at hsize; omega)⟩
    have htrue := hiff.mpr (.inr ⟨_, (freeChunk_iff h).mp hc, Nat.le.intro hend, Nat.le_of_eq hend.symm⟩)
    rw [hfalse] at htrue
    cases htrue
  · refine fun hno => ⟨fun hin => ?_, hfree⟩
    rw [← Bool.not_eq_true, hiff]
    obtain ⟨htop, hchunk⟩ := h.inBlock hin
    rintro (hlt | ⟨c, hc, h1, h2⟩)
    · exact htop hlt
    · obtain ⟨hend, hlive⟩ := hchunk c hc h1 h2
      exact hno ⟨hlive, c.start, c.size, (freeChunk_iff h).mpr hc, hend⟩

end IsFree

/-! ## `valloc_free_size` -/

section FreeSize

variable {area : HeapArea} {m : Mempool} {la lu : List Nat} {free : List Chunk} {last : Nat}

theorem toNat_usedSpace (m : Mempool) (l : List Nat) (a : U64) :
    (l.foldl (fun usedSpace chk => usedSpace + (m.chunks chk).size) a).toNat =
      (a.toNat + (l.map fun i => (m.chunks i).size.toNat).sum) % 2 ^ 64 := by
  induction l generalizing a with
  | nil => exact (Nat.mod_eq_of_lt a.isLt).symm
  | cons i l ih =>
    rw [List.foldl_cons, ih, BitVec.toNat_add, List.map_cons, List.sum_cons, Nat.mod_add_mod, Nat.add_assoc]

/-- The number is right exactly at the top of the heap. -/
theorem freeSize_exact_iff_top (h : Heap area last m la lu free) : m.FreeSizeExact area ↔ m.top = area.topOfHeap := by
  have hbot := h.layout.bot
  have htop := h.layout.topLe.trans h.layout.lastLe
  have hfits := area.fits
  have hlist : m.allocChunks = .ok la := allocChunks_ok h.nodes
  have hused := toNat_usedSpace m la 0
  unfold FreeSizeExact freeSize liveSize
  rw [hlist]
  simp only [bind, Except.bind, pure, Except.pure, Except.ok.injEq, exists_eq_left', Except.toOption, Option.getD_some]
  rw [← BitVec.toNat_inj, BitVec.toNat_sub, BitVec.toNat_sub, hused]
  constructor
  · intro heq
    change (2 ^ 64 - (0 + _) % 2 ^ 64 + _) % 2 ^ 64 + _ = _ at heq
    omega
  · intro heq
    -- a block would be above the top of the heap
    have hnil : la = [] := List.eq_nil_iff_forall_not_mem.mpr fun i hi => by
      have hmem : m.block i ∈ free ++ m.live la := List.mem_append_right _ (List.mem_map_of_mem hi)
      have hsize := h.layout.size _ hmem
      have hin := h.layout.inside _ hmem
      have := h.layout.lastLe
      rw [Chunk.hi_eq] at hin
      omega
    subst hnil
    rw [heq]
    change (2 ^ 64 - 0 % 2 ^ 64 + _) % 2 ^ 64 + 0 = _
    omega

/-- **Nothing is allocated at the top of the heap**, and then the top is where the space in use ends. -/
theorem top_eq_iff (h : Heap area last m la lu free) :
    m.top = area.topOfHeap ↔ (∀ start size, ¬m.Live start size) ∧ last = area.topOfHeap.toNat := by
  constructor
  · intro heq
    have hlast : last = area.topOfHeap.toNat := by
      have h1 := h.layout.topLe
      have h2 := h.layout.lastLe
      rw [heq] at h1
      omega
    refine ⟨fun start size hlive => ?_, hlast⟩
    have hmem := List.mem_append_right free ((live_iff h.nodes).mp hlive)
    have hsize := h.layout.size _ hmem
    have hin := h.layout.inside _ hmem
    rw [Chunk.hi_eq, heq, hlast] at hin
    dsimp only at hsize hin
    omega
  · rintro ⟨hnone, hlast⟩
    exact BitVec.eq_of_toNat_eq ((h.drained hnone).2.trans hlast)

end FreeSize

end Mempool

/-! ## Runs -/

section Runs

variable {area : HeapArea} {heap : Bytes.Mem} {m : Mempool} {steps : List (Mempool × VallocOp)}

/-- **`valloc_is_free` is exact** on exactly the addresses that are not the start of a block behind a free chunk. -/
theorem isFree_exact_iff (hrun : VallocRun area heap steps m) (hfits : ∀ s ∈ steps, s.2.Fits area s.1) (p : U64) :
    m.IsFreeExact area p ↔ ¬m.BehindFree area p := by
  obtain ⟨la, lu, free, last, hheap, -⟩ := vallocRun_heap hrun hfits
  exact Mempool.isFree_exact hheap

/-- Three blocks of 64 bytes, of which the one in the middle is freed. -/
def middleOps : List VallocOp := [.alloc 64, .alloc 64, .alloc 64, .free 0x11f80]

theorem middleOps_proper : ∀ op ∈ middleOps, op.Proper smallArea := by
  simp only [middleOps, List.forall_mem_cons, VallocOp.Proper]
  exact ⟨by decide, by decide, by decide, trivial, fun op h => absurd h List.not_mem_nil⟩

/-- After a run of proper calls. -/
theorem exec_proper {ops : List VallocOp} (hproper : ∀ op ∈ ops, op.Proper smallArea) {m : Mempool}
    (h : Reach.run (fun m op => op.exec smallArea m) (initValloc smallArea fun _ => 0) ops = some m) :
    ∃ steps, VallocRun smallArea (fun _ => 0) steps m ∧ ∀ s ∈ steps, s.2.Proper smallArea := by
  obtain ⟨steps, hsteps, -, hmem⟩ := vallocRun_exec h
  exact ⟨steps, hsteps, fun s hs => hproper _ (hmem s hs)⟩

theorem live_of_blocks {p n : U64} (h : (⟨p, n⟩ : Chunk) ∈ (m.allocChunks.toOption.getD []).map m.block) :
    m.Live p n := by
  obtain ⟨i, hi, heq⟩ := List.mem_map.mp h
  cases hl : m.allocChunks with
  | error e =>
    rw [hl] at hi
    exact absurd hi List.not_mem_nil
  | ok l =>
    rw [hl] at hi
    exact ⟨l, hl, i, hi, congrArg Chunk.start heq, congrArg Chunk.size heq⟩

/-- What is evaluated of the three blocks: the upper one is there, and counts as free. -/
theorem exec_middleOps : ∃ steps m, VallocRun smallArea (fun _ => 0) steps m ∧
    (∀ s ∈ steps, s.2.Proper smallArea) ∧ m.isFree smallArea 0x11fc0 = .ok true ∧ m.Live 0x11fc0 64 := by
  have hrun : ((Reach.run (fun m op => op.exec smallArea m) (initValloc smallArea fun _ => 0) middleOps).map fun m =>
      ((m.isFree smallArea 0x11fc0).toOption, (m.allocChunks.toOption.getD []).map m.block)) =
        some (some true, [⟨0x11f40, 64⟩, ⟨0x11fc0, 64⟩]) := by
    decide +kernel
  obtain ⟨m, hm, heq⟩ := Option.map_eq_some_iff.mp hrun
  obtain ⟨hfree, hblocks⟩ := Prod.mk.inj heq
  obtain ⟨steps, hsteps, hproper⟩ := exec_proper middleOps_proper hm
  exact ⟨steps, m, hsteps, hproper, ok_of_toOption hfree, live_of_blocks (by rw [hblocks]; simp)⟩

/-- The first byte of the free chunk is reported right. -/
theorem isFree_exact_iff_middle : ∃ steps m, VallocRun smallArea (fun _ => 0) steps m ∧
    m.Live 0x11fc0 64 ∧ (m.IsFreeExact smallArea 0x11f80 ↔ ¬m.BehindFree smallArea 0x11f80) := by
  obtain ⟨steps, m, hsteps, hproper, -, hlive⟩ := exec_middleOps
  exact ⟨steps, m, hsteps, hlive, isFree_exact_iff hsteps (fun s hs => (hproper s hs).fits) 0x11f80⟩

/-- The upper block is directly behind the free chunk: its first byte counts as free. -/
theorem isFree_middle_wrong : ∃ steps m, VallocRun smallArea (fun _ => 0) steps m ∧
    (∀ s ∈ steps, s.2.Proper smallArea) ∧ ¬m.IsFreeExact smallArea 0x11fc0 := by
  obtain ⟨steps, m, hsteps, hproper, hfree, hlive⟩ := exec_middleOps
  refine ⟨steps, m, hsteps, hproper, fun hexact => ?_⟩
  have hfalse := hexact.1 ⟨_, _, hlive, Nat.le_refl _, by decide⟩
  rw [hfree] at hfalse
  cases hfalse

/-- **`valloc_free_size` is exact** exactly when nothing is allocated and no step has lost the end of the heap. -/
theorem freeSize_exact_iff (hrun : VallocRun area heap steps m) (hfits : ∀ s ∈ steps, s.2.Fits area s.1) :
    m.FreeSizeExact area ↔ (∀ start size, ¬m.Live start size) ∧ ∀ s ∈ steps, ¬s.2.LosesEnd area s.1 := by
  obtain ⟨la, lu, free, last, hheap, hlast⟩ := vallocRun_heap hrun hfits
  rw [Mempool.freeSize_exact_iff_top hheap, Mempool.top_eq_iff hheap, hlast]

/-- A block of 64 bytes. -/
theorem exec_oneBlock : ∃ steps m, VallocRun smallArea (fun _ => 0) steps m ∧ (∀ s ∈ steps, s.2.Proper smallArea) ∧
    m.freeSize smallArea = .ok 0x1f80 ∧ m.liveSize = 64 := by
  have hrun : ((Reach.run (fun m (op : VallocOp) => op.exec smallArea m) (initValloc smallArea fun _ => 0)
      [.alloc 64]).map fun m => ((m.freeSize smallArea).toOption, m.liveSize)) = some (some 0x1f80, 64) := by
    decide +kernel
  obtain ⟨m, hm, heq⟩ := Option.map_eq_some_iff.mp hrun
  obtain ⟨hsize, hlive⟩ := Prod.mk.inj heq
  obtain ⟨steps, hsteps, hproper⟩ := exec_proper (fun op hop => by
    rw [List.mem_singleton.mp hop]
    exact (by decide : (64 : U64) ≤ smallArea.topOfHeap - smallArea.botOfHeap)) hm
  exact ⟨steps, m, hsteps, hproper, ok_of_toOption hsize, hlive⟩

theorem freeSize_exact_iff_oneBlock : ∃ steps m, VallocRun smallArea (fun _ => 0) steps m ∧ m.liveSize = 64 ∧
    (m.FreeSizeExact smallArea ↔ (∀ start size, ¬m.Live start size) ∧ ∀ s ∈ steps, ¬s.2.LosesEnd smallArea s.1) := by
  obtain ⟨steps, m, hsteps, hproper, -, hlive⟩ := exec_oneBlock
  exact ⟨steps, m, hsteps, hlive, freeSize_exact_iff hsteps fun s hs => (hproper s hs).fits⟩

/-- The heap has 8192 bytes and 64 of them are in use, but 8064 are reported free. -/
theorem freeSize_oneBlock_wrong : ∃ steps m, VallocRun smallArea (fun _ => 0) steps m ∧
    (∀ s ∈ steps, s.2.Proper smallArea) ∧ ¬m.FreeSizeExact smallArea := by
  obtain ⟨steps, m, hsteps, hproper, hsize, hlive⟩ := exec_oneBlock
  refine ⟨steps, m, hsteps, hproper, ?_⟩
  rintro ⟨n, hn, heq⟩
  obtain rfl : 0x1f80 = n := Except.ok.inj (hsize.symm.trans hn)
  rw [hlive] at heq
  exact absurd heq (by decide)

end Runs

end LitmusHarness
