import LitmusHarness.Valloc.Lists

/-!
# The blocks of a heap

Who uses the heap sees the blocks that are allocated, and no lists or headers. `Blocks area m bs` says that the heap is in
order and that its blocks are `bs`, in any order. A request that fits puts a block in front of them
(`allocZeroed_allocates`), a free of the block in front returns and takes it away (`Blocks.free`), and the bytes of the
others stay (`SameBytes`).

A table is a block with pointers to other blocks at equal distances (`Table`). It is filled by allocating a block for each
entry (`allocTable_filled`), and the blocks are freed by reading the entries again (`freeTable_ok`).
-/

namespace LitmusHarness

namespace Mempool

/-- The heap is in order, and these are its blocks. -/
def Blocks (area : HeapArea) (m : Mempool) (bs : List Chunk) : Prop :=
  ∃ last la lu free, Heap area last m la lu free ∧ (m.live la).Perm bs

variable {area : HeapArea} {m m' : Mempool} {bs cs : List Chunk} {c t : Chunk} {p : U64} {req : U64 × U64}

theorem Blocks.perm (h : Blocks area m bs) (hp : bs.Perm cs) : Blocks area m cs := by
  obtain ⟨last, la, lu, free, hheap, hlive⟩ := h
  exact ⟨last, la, lu, free, hheap, hlive.trans hp⟩

theorem Blocks.live_iff (h : Blocks area m bs) {start size : U64} : m.Live start size ↔ ⟨start, size⟩ ∈ bs := by
  obtain ⟨last, la, lu, free, hheap, hlive⟩ := h
  exact (Mempool.live_iff hheap.nodes).trans hlive.mem_iff

theorem Blocks.apart (h : Blocks area m bs) : bs.Pairwise Chunk.Apart := by
  obtain ⟨last, la, lu, free, hheap, hlive⟩ := h
  exact (apart_perm hlive).mp (List.pairwise_append.mp hheap.layout.apart).2.1

theorem Blocks.size (h : Blocks area m bs) (hc : c ∈ bs) : 24 ≤ c.size.toNat := by
  obtain ⟨last, la, lu, free, hheap, hlive⟩ := h
  exact hheap.layout.size c (List.mem_append_right _ (hlive.mem_iff.mpr hc))

theorem Blocks.hi_lt (h : Blocks area m bs) (hc : c ∈ bs) : c.hi < 2 ^ 64 := by
  obtain ⟨last, la, lu, free, hheap, hlive⟩ := h
  exact hheap.layout.hi_lt (List.mem_append_right _ (hlive.mem_iff.mpr hc))

/-- The blocks start at different addresses. -/
theorem Blocks.nodup_start (h : Blocks area m bs) : (bs.map Chunk.start).Nodup := by
  rw [List.Nodup, List.pairwise_map]
  refine h.apart.imp_of_mem fun {c d} hc hd hcd heq => ?_
  have h1 := h.size hc
  have h2 := h.size hd
  have h3 : c.lo = d.lo := congrArg BitVec.toNat heq
  rw [Chunk.Apart, c.hi_eq, d.hi_eq] at hcd
  omega

theorem Blocks.nodup (h : Blocks area m bs) : bs.Nodup := List.Nodup.of_map _ h.nodup_start

/-- What is written to the blocks does not matter. -/
theorem Blocks.write (h : Blocks area m bs) {heap : Bytes.Mem}
    (hw : ∀ x, heap x ≠ m.heap x → ∃ b ∈ bs, b.lo ≤ x ∧ x < b.hi) : Blocks area { m with heap := heap } bs := by
  obtain ⟨last, la, lu, free, hheap, hlive⟩ := h
  refine ⟨last, la, lu, free, hheap.write fun x hx => ?_, hlive⟩
  obtain ⟨b, hb, hx⟩ := hw x hx
  exact ⟨b, hlive.mem_iff.mpr hb, hx⟩

/-! ## Allocations and frees -/

theorem SameBytes.subset {bs cs : List Chunk} (h : SameBytes m m' bs) (hsub : cs ⊆ bs) : SameBytes m m' cs :=
  fun b hb => h b (hsub hb)

/-- A request that is far enough from 2^64 for every padding. -/
theorem fits_of_lt (hpos : 0 < req.2.toNat) (hlt : req.1.toNat + 2 * req.2.toNat < 2 ^ 64) :
    Fits area m req.1 req.2 := fun c _ => by
  have := padding_le c hpos
  omega

/-- A request that gives a block of at least `size` bytes more, without any change to the bytes of the others, or fails. -/
def Allocates (area : HeapArea) (size : Nat) (request : Mempool → VallocResult (Mempool × U64)) : Prop :=
  ∀ m bs, Blocks area m bs → Loop.Post (fun r => ∃ c : Chunk, c.start = r.2 ∧ size ≤ c.size.toNat ∧
    Blocks area r.1 (c :: bs) ∧ SameBytes m r.1 bs) (fun e => e.1 ≠ .loop) (request m)

/-- **A request that fits** gives a block. -/
theorem allocZeroed_allocates (hsize : 24 ≤ req.1.toNat) (hfits : ∀ m, Fits area m req.1 req.2) :
    Allocates area req.1.toNat fun m => m.allocZeroed area req := by
  rintro m bs ⟨last, la, lu, free, hheap, hlive⟩
  refine Loop.post_of ?_ ?_
  · rintro ⟨m', p⟩ hrun
    obtain ⟨i, lu', free', last', hheap', hstart, hle, hother, -, hbytes, -⟩ :=
      allocZeroed_ok hheap hsize (hfits m) hrun
    have hlive' : m'.live (i :: la) = m'.block i :: m.live la := congrArg _ (List.map_congr_left hother)
    refine ⟨m'.block i, hstart, hle, ⟨last', i :: la, lu', free', hheap', ?_⟩, hbytes.subset hlive.symm.subset⟩
    rw [hlive']
    exact hlive.cons _
  · rintro ⟨e, m'⟩ herr rfl
    exact hheap.allocZeroed_ends req herr

theorem Allocates.mono {size size' : Nat} {request : Mempool → VallocResult (Mempool × U64)}
    (h : Allocates area size request) (hle : size' ≤ size) : Allocates area size' request := fun m bs hm =>
  (h m bs hm).mono fun _ ⟨c, hstart, hsize, hblocks⟩ => ⟨c, hstart, hle.trans hsize, hblocks⟩

/-- **A free** of a block returns, and the others are what they were. -/
theorem Blocks.free (h : Blocks area m (c :: bs)) :
    ∃ m', m.free area c.start = .ok m' ∧ Blocks area m' bs ∧ SameBytes m m' bs := by
  obtain ⟨last, la, lu, free, hheap, hlive⟩ := h
  obtain ⟨i, hi, rfl⟩ := List.mem_map.mp (hlive.mem_iff.mpr List.mem_cons_self)
  obtain ⟨l₁, l₂, rfl⟩ := List.append_of_mem hi
  obtain ⟨m', free', hrun, hheap', hblocks, hbytes⟩ := free_ok hheap
  have hperm : (m.live (l₁ ++ l₂)).Perm bs := by
    refine List.Perm.cons_inv (a := m.block i) (List.Perm.trans ?_ hlive)
    simp only [live, List.map_append, List.map_cons]
    exact List.perm_middle.symm
  refine ⟨m', hrun, ⟨last, l₁ ++ l₂, i :: lu, free', hheap', ?_⟩, hbytes.subset hperm.symm.subset⟩
  rw [live, List.map_congr_left fun j _ => hblocks j]
  exact hperm

/-! ## Calls in a loop -/

/-- `FREE(p)`, with the addresses that were freed before, the latest first. -/
def freeBlock (area : HeapArea) (p : U64) (s : Mempool × List U64) : VallocResult (Mempool × List U64) := do
  let m ← s.1.free area p
  return (m, p :: s.2)

/-- A pointer is written. -/
def store (m : Mempool) (a : Nat) (v : U64) : Mempool := { m with heap := Bytes.store64 m.heap a v }

/-- A loop that allocates a block for each of the `n` pointers from `a` on. -/
def allocTable (request : Mempool → VallocResult (Mempool × U64)) (a stride n : Nat) (m : Mempool) :
    VallocResult Mempool :=
  Loop.forRangeM 0 n (fun i m => do
    let (m, p) ← request m
    return m.store (a + i * stride) p) m

/-- A loop that frees what each of the `n` pointers from `a` on points to. -/
def freeTable (area : HeapArea) (a stride n : Nat) (s : Mempool × List U64) : VallocResult (Mempool × List U64) :=
  Loop.forRangeM 0 n (fun i s => freeBlock area (Bytes.load64 s.1.heap (a + i * stride)) s) s

/-- A table of `n` pointers is inside of a block. -/
def Within (t : Chunk) (a stride n : Nat) : Prop := ∀ i < n, t.lo ≤ a + i * stride ∧ a + i * stride + 8 ≤ t.hi

/-- The pointers to the blocks. -/
def Table (m : Mempool) (a stride : Nat) (cs : List Chunk) : Prop :=
  ∀ i (h : i < cs.length), Bytes.load64 m.heap (a + i * stride) = (cs.get ⟨i, h⟩).start

variable {a stride n : Nat} {l : List U64}

/-- A table depends on its pointers only. -/
theorem Table.congr (h : Table m a stride cs)
    (hsame : ∀ i < cs.length, ∀ x, a + i * stride ≤ x → x < a + i * stride + 8 → m'.heap x = m.heap x) :
    Table m' a stride cs := fun i hi =>
  (Bytes.load64_congr fun j hj => hsame i hi _ (by omega) (by omega)).trans (h i hi)

theorem Table.sameBytes (h : Table m a stride cs) (hin : Within t a stride cs.length) (ht : t ∈ bs)
    (hsame : SameBytes m m' bs) : Table m' a stride cs :=
  h.congr fun i hi x h1 h2 => hsame t ht x (by have := hin i hi; omega) (by have := hin i hi; omega)

/-- A word of a block. -/
theorem SameBytes.load64 (h : SameBytes m m' bs) (ht : t ∈ bs) (hlo : t.lo ≤ a) (hhi : a + 8 ≤ t.hi) :
    Bytes.load64 m'.heap a = Bytes.load64 m.heap a :=
  Bytes.load64_congr fun i _ => h t ht (a + i) (by omega) (by omega)

/-- A pointer is written to a block. -/
theorem Blocks.store (h : Blocks area m bs) (ht : t ∈ bs) (hlo : t.lo ≤ a) (hhi : a + 8 ≤ t.hi) (v : U64) :
    Blocks area (m.store a v) bs := by
  refine h.write fun x hx => ⟨t, ht, ?_⟩
  by_contra hout
  exact hx (Bytes.store64_of_not_mem (by omega))

/-- A pointer in a block that is apart. -/
theorem store_sameBytes (ht : ∀ b ∈ bs, t.Apart b) (hlo : t.lo ≤ a) (hhi : a + 8 ≤ t.hi) (v : U64) :
    SameBytes m (m.store a v) bs := fun b hb x h1 h2 =>
  Bytes.store64_of_not_mem (by
    have := ht b hb
    rw [Chunk.Apart] at this
    omega)

/-- A pointer in the first block. -/
theorem Blocks.store_head (h : Blocks area m (t :: bs)) (hlo : t.lo ≤ a) (hhi : a + 8 ≤ t.hi) (v : U64) :
    Blocks area (m.store a v) (t :: bs) ∧ SameBytes m (m.store a v) bs ∧ Bytes.load64 (m.store a v).heap a = v :=
  ⟨h.store List.mem_cons_self hlo hhi v, store_sameBytes (List.pairwise_cons.mp h.apart).1 hlo hhi v,
    Bytes.load64_store64⟩

/-- A table in the block `t`, which points to `cs`, is filled from the state `m` on. -/
structure Filled (area : HeapArea) (m : Mempool) (t : Chunk) (bs : List Chunk) (a stride : Nat) (cs : List Chunk)
    (m' : Mempool) : Prop where
  blocks : Blocks area m' (cs ++ t :: bs)
  same : SameBytes m m' bs
  table : Table m' a stride cs
  /-- What is below the table stays. -/
  below : ∀ x, t.lo ≤ x → x < a → m'.heap x = m.heap x

/-- An entry more. -/
theorem Filled.step {s s₁ : Mempool} (h : Filled area m t bs a stride cs s) (hstride : 8 ≤ stride)
    (hin : Within t a stride (cs.length + 1)) (h₁ : Blocks area s₁ (c :: (cs ++ t :: bs)))
    (hsame₁ : SameBytes s s₁ (cs ++ t :: bs)) :
    Filled area m t bs a stride (cs ++ [c]) (s₁.store (a + cs.length * stride) c.start) := by
  obtain ⟨hlo, hhi⟩ := hin cs.length (Nat.lt_succ_self _)
  have hperm : (c :: (cs ++ t :: bs)).Perm (t :: (c :: cs ++ bs)) := @List.perm_middle _ t (c :: cs) bs
  obtain ⟨hblocks, hstore, hnew⟩ := (h₁.perm hperm).store_head hlo hhi c.start
  have ht : t ∈ cs ++ t :: bs := List.mem_append_right _ List.mem_cons_self
  refine ⟨?_, ?_, fun i hi => ?_, fun x h1 h2 => ?_⟩
  · refine (hblocks.perm hperm.symm).perm ?_
    rw [List.append_assoc]
    exact List.perm_middle.symm
  · exact h.same.trans ((hsame₁.subset (by simp)).trans (hstore.subset (List.subset_append_right _ _)))
  · rw [List.length_append, List.length_singleton] at hi
    rcases Nat.lt_succ_iff_lt_or_eq.mp hi with hlt | rfl
    · -- an entry that was written before
      have hmul : i * stride + stride ≤ cs.length * stride := by
        rw [← Nat.succ_mul]
        exact Nat.mul_le_mul_right stride hlt
      have hold := h.table.sameBytes (fun j hj => hin j (by omega)) ht hsame₁ i hlt
      rw [List.get_eq_getElem, List.getElem_append_left hlt]
      exact (Bytes.load64_store64_of_disjoint (by omega)).trans hold
    · rw [List.get_eq_getElem, List.getElem_concat_length rfl]
      exact hnew
  · exact (Bytes.store64_of_not_mem (by omega)).trans ((hsame₁ t ht x h1 (by omega)).trans (h.below x h1 h2))

/-- **A table is filled** with blocks. -/
theorem allocTable_filled {request : Mempool → VallocResult (Mempool × U64)} (hreq : Allocates area 0 request)
    (hstride : 8 ≤ stride) (hin : Within t a stride n) (h : Blocks area m (t :: bs)) :
    Loop.Post (fun m' => ∃ cs, cs.length = n ∧ Filled area m t bs a stride cs m') (fun e => e.1 ≠ .loop)
      (allocTable request a stride n m) := by
  refine Loop.post_forRangeM (I := fun i s => ∃ cs, cs.length = i ∧ Filled area m t bs a stride cs s) ?_ (Nat.zero_le n)
    ⟨[], rfl, h, SameBytes.refl m bs, fun i hi => absurd hi (Nat.not_lt_zero i), fun _ _ _ => rfl⟩
  rintro i s - hi ⟨cs, rfl, hs⟩
  refine Loop.post_bind (hreq s _ hs.blocks) ?_
  rintro ⟨s₁, p⟩ ⟨c, rfl, -, h₁, hsame₁⟩
  exact ⟨cs ++ [c], List.length_append, hs.step hstride (fun j hj => hin j (by omega)) h₁ hsame₁⟩

/-- The same for a table in any of the blocks. -/
theorem allocTable_mem {request : Mempool → VallocResult (Mempool × U64)} (hreq : Allocates area 0 request)
    (hstride : 8 ≤ stride) (hin : Within t a stride n) (ht : t ∈ bs) (h : Blocks area m bs) :
    Loop.Post (fun m' => ∃ cs, cs.length = n ∧ Blocks area m' (cs ++ bs) ∧ SameBytes m m' (bs.erase t) ∧
      Table m' a stride cs) (fun e => e.1 ≠ .loop) (allocTable request a stride n m) := by
  have hperm := List.perm_cons_erase ht
  refine (allocTable_filled hreq hstride hin (h.perm hperm)).mono ?_
  rintro m' ⟨cs, hlen, hfilled⟩
  exact ⟨cs, hlen, hfilled.blocks.perm (hperm.symm.append_left cs), hfilled.same, hfilled.table⟩

theorem freeBlock_ok (h : m.free area p = .ok m') (l : List U64) : freeBlock area p (m, l) = .ok (m', p :: l) := by
  rw [freeBlock, h]
  rfl

/-- **The blocks of a table are freed**, each once. -/
theorem freeTable_ok (h : Blocks area m (cs ++ bs)) (htable : Table m a stride cs) (hin : Within t a stride cs.length)
    (ht : t ∈ bs) : ∃ m' l', freeTable area a stride cs.length (m, l) = .ok (m', l') ∧
      l'.Perm (cs.map Chunk.start ++ l) ∧ Blocks area m' bs ∧ SameBytes m m' bs := by
  -- the invariant: the first blocks are freed, the others are still there
  have hrule : ∃ s, freeTable area a stride cs.length (m, l) = .ok s ∧ Blocks area s.1 (cs.drop cs.length ++ bs) ∧
      SameBytes m s.1 bs ∧ s.2.Perm ((cs.take cs.length).map Chunk.start ++ l) := by
    refine Loop.forRangeM_total (I := fun i (s : Mempool × List U64) => Blocks area s.1 (cs.drop i ++ bs) ∧
      SameBytes m s.1 bs ∧ s.2.Perm ((cs.take i).map Chunk.start ++ l)) ?_ (Nat.zero_le _)
      ⟨h, SameBytes.refl m bs, List.Perm.refl l⟩
    rintro i ⟨s, l₁⟩ - hi ⟨hs, hsame, hperm⟩
    have hentry := htable.sameBytes hin ht hsame i hi
    rw [List.drop_eq_getElem_cons hi, List.cons_append] at hs
    obtain ⟨s', hfree, hs', hsame'⟩ := hs.free
    refine ⟨(s', cs[i].start :: l₁), ?_, hs', hsame.trans (hsame'.subset (List.subset_append_right _ _)), ?_⟩
    · dsimp only
      rw [hentry]
      exact freeBlock_ok hfree l₁
    · rw [List.take_succ_eq_append_getElem hi, List.map_append, List.append_assoc]
      exact (hperm.cons _).trans List.perm_middle.symm
  obtain ⟨⟨m', l'⟩, hrun, hblocks, hsame, hperm⟩ := hrule
  rw [List.drop_length] at hblocks
  rw [List.take_length] at hperm
  exact ⟨m', l', hrun, hperm, hblocks, hsame⟩

/-- **Blocks are freed** one after the other. -/
theorem freeBlocks_ok (h : Blocks area m (cs ++ bs)) : ∃ m' l',
    (cs.map Chunk.start).foldlM (fun s p => freeBlock area p s) (m, l) = .ok (m', l') ∧
      l'.Perm (cs.map Chunk.start ++ l) ∧ Blocks area m' bs ∧ SameBytes m m' bs := by
  induction cs generalizing m l with
  | nil => exact ⟨m, l, rfl, List.Perm.refl l, h, SameBytes.refl m bs⟩
  | cons c cs ih =>
    obtain ⟨m₁, hfree, h₁, hsame₁⟩ := h.free
    obtain ⟨m', l', hrun, hperm, h', hsame'⟩ := @ih m₁ (c.start :: l) h₁
    refine ⟨m', l', ?_, hperm.trans List.perm_middle, h',
      (hsame₁.subset (List.subset_append_right _ _)).trans hsame'⟩
    rw [List.map_cons, List.foldlM_cons, freeBlock_ok hfree]
    exact hrun

end Mempool

end LitmusHarness
