import LitmusHarness.Valloc.AllocList

/-!
# The free chunks: `valloc_freelist.c`

`Free m free` says that the chunks `free` are linked in `mem.freelist`, each by the header at its start. Headers are
apart, so a write to one of them leaves the others as they are. Pushing, removing and resizing a chunk are described by
the list (`allocateFreeChunk_ok`, `removeChunk_ok`, `setSize_ok`), and change the memory in the headers only
(`allocateFreeChunk_heap`, `removeChunk_heap`).
-/

namespace LitmusHarness

theorem ptr_eq_some {a b : U64} : ptr a = some b ↔ a = b ∧ b ≠ 0 := by
  unfold ptr
  split
  · rename_i h
    subst h
    simp only [false_iff, not_and_or, not_not, reduceCtorEq]
    by_cases hb : b = 0
    · exact .inr hb
    · exact .inl fun h => hb h.symm
  · rename_i h
    simp only [Option.some.injEq]
    constructor
    · rintro rfl
      exact ⟨rfl, h⟩
    · exact fun h => h.1

theorem ptr_eq_none {a : U64} : ptr a = none ↔ a = 0 := by
  unfold ptr
  split <;> simp_all

namespace Mempool

/-- The links of the free chunks. -/
def freeLinks (m : Mempool) : Dll.Links U64 := ⟨fun c => ptr (m.chunkPrev c), fun c => ptr (m.chunkNext c)⟩

/-- Two headers have no byte in common. -/
def HeadersApart (a b : U64) : Prop := a.toNat + 24 ≤ b.toNat ∨ b.toNat + 24 ≤ a.toNat

/-- The chunks in the freelist. -/
structure Free (m : Mempool) (free : List Chunk) : Prop where
  linked : Dll.Linked m.freeLinks (ptr m.freelist) (free.map Chunk.start)
  size : ∀ c ∈ free, m.chunkSize c.start = c.size
  apart : ∀ c ∈ free, ∀ d ∈ free, c ≠ d → HeadersApart c.start d.start
  pos : ∀ c ∈ free, c.start ≠ 0

/-- The nodes and their lists are the same. -/
structure SameNodes (m m' : Mempool) : Prop where
  chunks : m'.chunks = m.chunks
  unalloc : m'.chunkUnallocList = m.chunkUnallocList
  alloc : m'.chunkAllocList = m.chunkAllocList

theorem SameNodes.refl (m : Mempool) : SameNodes m m := ⟨rfl, rfl, rfl⟩

theorem SameNodes.trans {m m₁ m' : Mempool} (h : SameNodes m m₁) (h' : SameNodes m₁ m') : SameNodes m m' :=
  ⟨h'.chunks.trans h.chunks, h'.unalloc.trans h.unalloc, h'.alloc.trans h.alloc⟩

theorem SameNodes.nodes {m m' : Mempool} (h : SameNodes m m') {la lu : List Nat} (hn : Nodes m la lu) :
    Nodes m' la lu ∧ ∀ i, m'.block i = m.block i := by
  refine ⟨⟨?_, ?_, hn.perm⟩, fun i => by rw [block, h.chunks]; rfl⟩
  · rw [h.chunks, h.alloc]
    exact hn.alloc
  · rw [h.chunks, h.unalloc]
    exact hn.unalloc

section Free

variable {m : Mempool} {free l₁ l₂ : List Chunk} {c d : Chunk}

/-- A chunk in the freelist is known by its start. -/
theorem Free.eq_of_start (h : Free m free) (hc : c ∈ free) (hd : d ∈ free) (heq : c.start = d.start) : c = d :=
  List.inj_on_of_nodup_map h.linked.nodup hc hd heq

/-- The fields of a header that another pool has in the same place. -/
structure SameHeader (m m' : Mempool) (a : U64) : Prop where
  size : m'.chunkSize a = m.chunkSize a
  prev : m'.chunkPrev a = m.chunkPrev a
  next : m'.chunkNext a = m.chunkNext a

theorem SameHeader.of_heap {m m' : Mempool} {a : U64} (h : ∀ x, a.toNat ≤ x → x < a.toNat + 24 → m'.heap x = m.heap x) :
    SameHeader m m' a :=
  ⟨Bytes.load64_congr fun i hi => h _ (by omega) (by omega), Bytes.load64_congr fun i hi => h _ (by omega) (by omega),
    Bytes.load64_congr fun i hi => h _ (by omega) (by omega)⟩

/-- The freelist depends on its headers. -/
theorem Free.congr {m' : Mempool} (h : Free m free) (hlist : m'.freelist = m.freelist)
    (hhdr : ∀ c ∈ free, SameHeader m m' c.start) : Free m' free := by
  refine ⟨?_, fun c hc => (hhdr c hc).size.trans (h.size c hc), h.apart, h.pos⟩
  rw [hlist]
  refine h.linked.congr fun a ha => ?_
  obtain ⟨c, hc, rfl⟩ := List.mem_map.mp ha
  exact ⟨congrArg ptr (hhdr c hc).prev, congrArg ptr (hhdr c hc).next⟩

/-! ## One write -/

theorem setSize_size (m : Mempool) (a v : U64) : (m.setSize a v).chunkSize a = v := Bytes.load64_store64

theorem setPrev_prev (m : Mempool) (a v : U64) : (m.setPrev a v).chunkPrev a = v := Bytes.load64_store64

theorem setNext_next (m : Mempool) (a v : U64) : (m.setNext a v).chunkNext a = v := Bytes.load64_store64

theorem setSize_links (m : Mempool) (a v : U64) :
    (m.setSize a v).chunkPrev a = m.chunkPrev a ∧ (m.setSize a v).chunkNext a = m.chunkNext a :=
  ⟨Bytes.load64_store64_of_disjoint (by omega), Bytes.load64_store64_of_disjoint (by omega)⟩

theorem setPrev_other (m : Mempool) (a v : U64) :
    (m.setPrev a v).chunkSize a = m.chunkSize a ∧ (m.setPrev a v).chunkNext a = m.chunkNext a :=
  ⟨Bytes.load64_store64_of_disjoint (by omega), Bytes.load64_store64_of_disjoint (by omega)⟩

theorem setNext_other (m : Mempool) (a v : U64) :
    (m.setNext a v).chunkSize a = m.chunkSize a ∧ (m.setNext a v).chunkPrev a = m.chunkPrev a :=
  ⟨Bytes.load64_store64_of_disjoint (by omega), Bytes.load64_store64_of_disjoint (by omega)⟩

theorem setSize_apart {a b : U64} (h : HeadersApart a b) (v : U64) : SameHeader m (m.setSize a v) b :=
  .of_heap fun x h1 h2 => Bytes.store64_of_not_mem (by unfold HeadersApart at h; omega)

theorem setPrev_apart {a b : U64} (h : HeadersApart a b) (v : U64) : SameHeader m (m.setPrev a v) b :=
  .of_heap fun x h1 h2 => Bytes.store64_of_not_mem (by unfold HeadersApart at h; omega)

theorem setNext_apart {a b : U64} (h : HeadersApart a b) (v : U64) : SameHeader m (m.setNext a v) b :=
  .of_heap fun x h1 h2 => Bytes.store64_of_not_mem (by unfold HeadersApart at h; omega)

/-- The address is in none of the headers. -/
def OutOfHeaders (free : List Chunk) (x : Nat) : Prop := ∀ c ∈ free, ¬(c.lo ≤ x ∧ x < c.lo + 24)

theorem setSize_heap {a v : U64} {x : Nat} (hx : ¬(a.toNat ≤ x ∧ x < a.toNat + 24)) :
    (m.setSize a v).heap x = m.heap x := Bytes.store64_of_not_mem (by omega)

theorem setPrev_heap {a v : U64} {x : Nat} (hx : ¬(a.toNat ≤ x ∧ x < a.toNat + 24)) :
    (m.setPrev a v).heap x = m.heap x := Bytes.store64_of_not_mem (by omega)

theorem setNext_heap {a v : U64} {x : Nat} (hx : ¬(a.toNat ≤ x ∧ x < a.toNat + 24)) :
    (m.setNext a v).heap x = m.heap x := Bytes.store64_of_not_mem (by omega)

theorem HeadersApart.symm {a b : U64} (h : HeadersApart a b) : HeadersApart b a := Or.symm h

/-! ## Pushing, removing and resizing -/

/-- The first free chunk. -/
theorem Free.head (h : Free m free) : m.freelist = 0 ∧ free = [] ∨ ∃ c l, free = c :: l ∧ m.freelist = c.start := by
  have hhead := h.linked.head
  cases free with
  | nil => exact .inl ⟨ptr_eq_none.mp hhead, rfl⟩
  | cons c l => exact .inr ⟨c, l, rfl, (ptr_eq_some.mp hhead).1⟩

/-- A header after `SET(x, prev, v)`. -/
theorem setPrev_header {x b : U64} (v : U64) (hb : x = 0 ∨ x = b ∨ HeadersApart x b) (hpos : b ≠ 0) :
    let m' := if x = 0 then m else m.setPrev x v
    m'.chunkSize b = m.chunkSize b ∧ m'.chunkNext b = m.chunkNext b ∧
      m'.chunkPrev b = if x = b then v else m.chunkPrev b := by
  by_cases h0 : x = 0
  · rw [if_pos h0, h0, if_neg (Ne.symm hpos)]
    exact ⟨rfl, rfl, rfl⟩
  · simp only [h0, if_false]
    by_cases hxb : x = b
    · rw [if_pos hxb, hxb]
      exact ⟨(setPrev_other m b v).1, (setPrev_other m b v).2, setPrev_prev m b v⟩
    · rw [if_neg hxb]
      obtain ⟨h1, h2, h3⟩ := @setPrev_apart m x b ((hb.resolve_left h0).resolve_left hxb) v
      exact ⟨h1, h3, h2⟩

/-- A header after `SET(x, next, v)`. -/
theorem setNext_header {x b : U64} (v : U64) (hb : x = 0 ∨ x = b ∨ HeadersApart x b) (hpos : b ≠ 0) :
    let m' := if x = 0 then m else m.setNext x v
    m'.chunkSize b = m.chunkSize b ∧ m'.chunkPrev b = m.chunkPrev b ∧
      m'.chunkNext b = if x = b then v else m.chunkNext b := by
  by_cases h0 : x = 0
  · rw [if_pos h0, h0, if_neg (Ne.symm hpos)]
    exact ⟨rfl, rfl, rfl⟩
  · simp only [h0, if_false]
    by_cases hxb : x = b
    · rw [if_pos hxb, hxb]
      exact ⟨(setNext_other m b v).1, (setNext_other m b v).2, setNext_next m b v⟩
    · rw [if_neg hxb]
      obtain ⟨h1, h2, h3⟩ := @setNext_apart m x b ((hb.resolve_left h0).resolve_left hxb) v
      exact ⟨h1, h2, h3⟩

/-- The headers after a push. -/
theorem allocateFreeChunk_header {a b size : U64} (hb : m.freelist = 0 ∨ m.freelist = b ∨ HeadersApart m.freelist b)
    (hpos : b ≠ 0) (hab : HeadersApart a b) :
    (m.allocateFreeChunk a size).chunkSize b = m.chunkSize b ∧
      (m.allocateFreeChunk a size).chunkNext b = m.chunkNext b ∧
      (m.allocateFreeChunk a size).chunkPrev b = if m.freelist = b then a else m.chunkPrev b := by
  obtain ⟨h1, h2, h3⟩ := @setSize_apart m a b hab size
  obtain ⟨h4, h5, h6⟩ := @setPrev_header (m.setSize a size) (m.setSize a size).freelist b a hb hpos
  rw [h1] at h4
  rw [h3] at h5
  rw [h2] at h6
  unfold allocateFreeChunk
  dsimp only
  generalize (if (m.setSize a size).freelist = 0 then m.setSize a size
    else (m.setSize a size).setPrev (m.setSize a size).freelist a) = m₂ at h4 h5 h6 ⊢
  obtain ⟨h7, h8, h9⟩ := @setNext_apart m₂ a b hab m₂.freelist
  obtain ⟨h10, h11, h12⟩ := @setPrev_apart (m₂.setNext a m₂.freelist) a b hab 0
  exact ⟨h10.trans (h7.trans h4), h12.trans (h9.trans h5), h11.trans (h8.trans h6)⟩

/-- The new header after a push. -/
theorem allocateFreeChunk_self {a size : U64} (ha : m.freelist = 0 ∨ HeadersApart m.freelist a) (hpos : a ≠ 0) :
    (m.allocateFreeChunk a size).chunkSize a = size ∧ (m.allocateFreeChunk a size).chunkNext a = m.freelist ∧
      (m.allocateFreeChunk a size).chunkPrev a = 0 := by
  obtain ⟨h1, -, -⟩ := @setPrev_header (m.setSize a size) (m.setSize a size).freelist a a (ha.imp_right .inr) hpos
  have hlist : (if (m.setSize a size).freelist = 0 then m.setSize a size
      else (m.setSize a size).setPrev (m.setSize a size).freelist a).freelist = m.freelist := by
    split <;> rfl
  unfold allocateFreeChunk
  dsimp only
  generalize (if (m.setSize a size).freelist = 0 then m.setSize a size
    else (m.setSize a size).setPrev (m.setSize a size).freelist a) = m₂ at h1 hlist ⊢
  obtain ⟨h2, -⟩ := setNext_other m₂ a m₂.freelist
  obtain ⟨h3, h4⟩ := setPrev_other (m₂.setNext a m₂.freelist) a 0
  refine ⟨h3.trans (h2.trans (h1.trans (setSize_size m a size))), h4.trans ((setNext_next m₂ a _).trans hlist), ?_⟩
  exact setPrev_prev _ a 0

theorem allocateFreeChunk_frame (m : Mempool) (a size : U64) :
    SameNodes m (m.allocateFreeChunk a size) ∧ (m.allocateFreeChunk a size).top = m.top := by
  unfold allocateFreeChunk
  dsimp only
  split <;> exact ⟨⟨rfl, rfl, rfl⟩, rfl⟩

/-- **A free chunk is pushed.** -/
theorem allocateFreeChunk_ok (h : Free m free) (hpos : c.start ≠ 0)
    (hapart : ∀ d ∈ free, HeadersApart c.start d.start) : Free (m.allocateFreeChunk c.start c.size) (c :: free) := by
  have hself : c ∉ free := fun hc => by
    have := hapart c hc
    unfold HeadersApart at this
    omega
  -- the first chunk, if there is one, is the only one whose header is written
  have hlist : ∀ d ∈ free, m.freelist = 0 ∨ m.freelist = d.start ∨ HeadersApart m.freelist d.start := by
    intro d hd
    rcases h.head with ⟨h0, -⟩ | ⟨e, l, rfl, he⟩
    · exact .inl h0
    · by_cases hed : e = d
      · exact .inr (.inl (hed ▸ he))
      · exact .inr (.inr (he ▸ h.apart e List.mem_cons_self d hd hed))
  have hlistc : m.freelist = 0 ∨ HeadersApart m.freelist c.start := by
    rcases h.head with ⟨h0, -⟩ | ⟨e, l, rfl, he⟩
    · exact .inl h0
    · exact .inr (he ▸ (hapart e List.mem_cons_self).symm)
  obtain ⟨hsize, hnext, hprev⟩ := @allocateFreeChunk_self m c.start c.size hlistc hpos
  have hother := fun d hd => @allocateFreeChunk_header m c.start d.start c.size (hlist d hd) (h.pos d hd) (hapart d hd)
  refine ⟨?_, ?_, ?_, ?_⟩
  · rw [List.map_cons, show ptr (m.allocateFreeChunk c.start c.size).freelist = some c.start from if_neg hpos]
    refine h.linked.push (fun hc => ?_) (by simp [freeLinks, hprev, ptr]) (by simp [freeLinks, hnext]) fun a ha => ?_
    · obtain ⟨d, hd, heq⟩ := List.mem_map.mp hc
      have := hapart d hd
      rw [heq] at this
      unfold HeadersApart at this
      omega
    · obtain ⟨d, hd, rfl⟩ := List.mem_map.mp ha
      obtain ⟨-, h2, h3⟩ := hother d hd
      refine ⟨congrArg ptr h2, (congrArg ptr h3).trans ?_⟩
      have hiff : ptr m.freelist = some d.start ↔ m.freelist = d.start :=
        ptr_eq_some.trans (and_iff_left (h.pos d hd))
      by_cases hf : m.freelist = d.start
      · rw [if_pos hf, if_pos (hiff.mpr hf)]
        exact if_neg hpos
      · rw [if_neg hf, if_neg (hf ∘ hiff.mp)]
        rfl
  · exact List.forall_mem_cons.mpr ⟨hsize, fun d hd => (hother d hd).1.trans (h.size d hd)⟩
  · intro x hx' y hy' hxy
    rcases List.mem_cons.mp hx' with rfl | hx <;> rcases List.mem_cons.mp hy' with rfl | hy
    · exact absurd rfl hxy
    · exact hapart y hy
    · exact (hapart x hx).symm
    · exact h.apart x hx y hy hxy
  · exact List.forall_mem_cons.mpr ⟨hpos, h.pos⟩

/-- The headers and the head after a removal. -/
theorem removeChunk_header {a b : U64} (ha : a ≠ 0) (hb : b ≠ 0)
    (hpa : m.chunkPrev a = 0 ∨ HeadersApart (m.chunkPrev a) a) (hna : m.chunkNext a = 0 ∨ HeadersApart (m.chunkNext a) a)
    (hpb : m.chunkPrev a = 0 ∨ m.chunkPrev a = b ∨ HeadersApart (m.chunkPrev a) b)
    (hnb : m.chunkNext a = 0 ∨ m.chunkNext a = b ∨ HeadersApart (m.chunkNext a) b) :
    (m.removeChunk a).chunkSize b = m.chunkSize b ∧
      (m.removeChunk a).chunkNext b = (if m.chunkPrev a = b then m.chunkNext a else m.chunkNext b) ∧
      (m.removeChunk a).chunkPrev b = (if m.chunkNext a = b then m.chunkPrev a else m.chunkPrev b) ∧
      (m.removeChunk a).freelist = if m.chunkPrev a = 0 then m.chunkNext a else m.freelist := by
  have hne : ∀ {x : U64}, x = 0 ∨ HeadersApart x a → x ≠ a := by
    rintro x (rfl | hx) rfl
    · exact ha rfl
    · unfold HeadersApart at hx
      omega
  -- the header of `a` itself is not written
  obtain ⟨-, h1, h2⟩ := @setNext_header m (m.chunkPrev a) a (m.chunkNext a) (hpa.imp_right .inr) ha
  obtain ⟨h3, h4, h5⟩ := @setNext_header m (m.chunkPrev a) b (m.chunkNext a) hpb hb
  have hlist₁ : (if m.chunkPrev a = 0 then m else m.setNext (m.chunkPrev a) (m.chunkNext a)).freelist = m.freelist := by
    split <;> rfl
  rw [if_neg (hne hpa)] at h2
  unfold removeChunk
  dsimp only
  generalize (if m.chunkPrev a = 0 then m else m.setNext (m.chunkPrev a) (m.chunkNext a)) = m₁
    at h1 h2 h3 h4 h5 hlist₁ ⊢
  rw [h1, h2]
  obtain ⟨-, h6, h7⟩ := @setPrev_header m₁ (m.chunkNext a) a (m.chunkPrev a) (hna.imp_right .inr) ha
  obtain ⟨h8, h9, h10⟩ := @setPrev_header m₁ (m.chunkNext a) b (m.chunkPrev a) hnb hb
  have hlist₂ : (if m.chunkNext a = 0 then m₁ else m₁.setPrev (m.chunkNext a) (m.chunkPrev a)).freelist = m.freelist := by
    rw [← hlist₁]
    split <;> rfl
  rw [if_neg (hne hna), h1] at h7
  generalize (if m.chunkNext a = 0 then m₁ else m₁.setPrev (m.chunkNext a) (m.chunkPrev a)) = m₂
    at h6 h7 h8 h9 h10 hlist₂ ⊢
  rw [h6, h7, h2]
  rw [h3] at h8
  rw [h5] at h9
  rw [h4] at h10
  split
  · exact ⟨h8, h9, h10, rfl⟩
  · exact ⟨h8, h9, h10, hlist₂⟩

theorem removeChunk_frame (m : Mempool) (a : U64) :
    SameNodes m (m.removeChunk a) ∧ (m.removeChunk a).top = m.top := by
  have hnext : ∀ m : Mempool, ∀ x v, SameNodes m (if x = 0 then m else m.setNext x v) ∧
      (if x = 0 then m else m.setNext x v).top = m.top := by
    intro m x v
    split <;> exact ⟨⟨rfl, rfl, rfl⟩, rfl⟩
  have hprev : ∀ m : Mempool, ∀ x v, SameNodes m (if x = 0 then m else m.setPrev x v) ∧
      (if x = 0 then m else m.setPrev x v).top = m.top := by
    intro m x v
    split <;> exact ⟨⟨rfl, rfl, rfl⟩, rfl⟩
  obtain ⟨h1, h2⟩ := hnext m (m.chunkPrev a) (m.chunkNext a)
  unfold removeChunk
  dsimp only
  generalize (if m.chunkPrev a = 0 then m else m.setNext (m.chunkPrev a) (m.chunkNext a)) = m₁ at h1 h2 ⊢
  obtain ⟨h3, h4⟩ := hprev m₁ (m₁.chunkNext a) (m₁.chunkPrev a)
  generalize (if m₁.chunkNext a = 0 then m₁ else m₁.setPrev (m₁.chunkNext a) (m₁.chunkPrev a)) = m₂ at h3 h4 ⊢
  obtain ⟨h5, h6⟩ := And.intro (h1.trans h3) (h4.trans h2)
  split
  · exact ⟨⟨h5.chunks, h5.unalloc, h5.alloc⟩, h6⟩
  · exact ⟨h5, h6⟩

/-- A push writes to the new header and to the first one. -/
theorem allocateFreeChunk_heap (h : Free m free) {size : U64} {x : Nat} (hx : OutOfHeaders (c :: free) x) :
    (m.allocateFreeChunk c.start size).heap x = m.heap x := by
  obtain ⟨hc, hfree⟩ := List.forall_mem_cons.mp hx
  have hhead : ∀ m' : Mempool, (if m.freelist = 0 then m' else m'.setPrev m.freelist c.start).heap x = m'.heap x := by
    intro m'
    rcases h.head with ⟨h0, -⟩ | ⟨d, l, rfl, hd⟩
    · rw [if_pos h0]
    · split
      · rfl
      · rw [hd]
        exact setPrev_heap (hfree d List.mem_cons_self)
  unfold allocateFreeChunk
  dsimp only
  exact (setPrev_heap hc).trans ((setNext_heap hc).trans ((hhead _).trans (setSize_heap hc)))

/-- The rest of the freelist without one of its chunks. -/
theorem Free.mem_rest (h : Free m (l₁ ++ c :: l₂)) : d ∈ l₁ ++ l₂ ↔ d ∈ l₁ ++ c :: l₂ ∧ d ≠ c := by
  have hlinked := h.linked
  rw [List.map_append, List.map_cons] at hlinked
  constructor
  · intro hd
    refine ⟨List.perm_middle.mem_iff.mpr (List.mem_cons_of_mem c hd), ?_⟩
    rintro rfl
    refine hlinked.ne_of_mem ?_ rfl
    rw [← List.map_append]
    exact List.mem_map_of_mem hd
  · rintro ⟨hd, hne⟩
    exact List.mem_of_ne_of_mem hne (List.perm_middle.mem_iff.mp hd)

/-- The neighbours of a free chunk are null or in the list. -/
theorem Free.neighbours (h : Free m (l₁ ++ c :: l₂)) :
    (m.chunkPrev c.start = 0 ∨ ∃ d ∈ l₁ ++ l₂, m.chunkPrev c.start = d.start) ∧
      (m.chunkNext c.start = 0 ∨ ∃ d ∈ l₁ ++ l₂, m.chunkNext c.start = d.start) := by
  have hlinked := h.linked
  rw [List.map_append, List.map_cons] at hlinked
  obtain ⟨hp, hn⟩ := hlinked.links
  constructor
  · by_cases h0 : m.chunkPrev c.start = 0
    · exact .inl h0
    · have hlast : (l₁.map Chunk.start).getLast? = some (m.chunkPrev c.start) := hp.symm.trans (if_neg h0)
      obtain ⟨d, hd, heq⟩ := List.mem_map.mp (List.mem_of_getLast? hlast)
      exact .inr ⟨d, List.mem_append_left _ hd, heq.symm⟩
  · by_cases h0 : m.chunkNext c.start = 0
    · exact .inl h0
    · have hhead : (l₂.map Chunk.start).head? = some (m.chunkNext c.start) := hn.symm.trans (if_neg h0)
      obtain ⟨d, hd, heq⟩ := List.mem_map.mp (List.mem_of_head? hhead)
      exact .inr ⟨d, List.mem_append_right _ hd, heq.symm⟩

/-- A neighbour and the header of another chunk. -/
theorem Free.neighbour_apart (h : Free m (l₁ ++ c :: l₂)) {a : U64} (ha : a = 0 ∨ ∃ d ∈ l₁ ++ l₂, a = d.start)
    {e : Chunk} (he : e ∈ l₁ ++ c :: l₂) : a = 0 ∨ a = e.start ∨ HeadersApart a e.start := by
  rcases ha with h0 | ⟨d, hd, rfl⟩
  · exact .inl h0
  · by_cases hde : d = e
    · exact .inr (.inl (by rw [hde]))
    · exact .inr (.inr (h.apart d (h.mem_rest.mp hd).1 e he hde))

/-- A neighbour and the header of the chunk. -/
theorem Free.neighbour_self (h : Free m (l₁ ++ c :: l₂)) {a : U64} (ha : a = 0 ∨ ∃ d ∈ l₁ ++ l₂, a = d.start) :
    a = 0 ∨ HeadersApart a c.start := by
  rcases ha with h0 | ⟨d, hd, rfl⟩
  · exact .inl h0
  · obtain ⟨hmem, hne⟩ := h.mem_rest.mp hd
    exact .inr (h.apart d hmem c (by simp) hne)

/-- The headers and the head after the removal of a chunk of the list. -/
theorem Free.removeChunk_header (h : Free m (l₁ ++ c :: l₂)) {e : Chunk} (he : e ∈ l₁ ++ c :: l₂) :
    (m.removeChunk c.start).chunkSize e.start = e.size ∧
      (m.removeChunk c.start).chunkNext e.start =
        (if m.chunkPrev c.start = e.start then m.chunkNext c.start else m.chunkNext e.start) ∧
      (m.removeChunk c.start).chunkPrev e.start =
        (if m.chunkNext c.start = e.start then m.chunkPrev c.start else m.chunkPrev e.start) ∧
      (m.removeChunk c.start).freelist = if m.chunkPrev c.start = 0 then m.chunkNext c.start else m.freelist := by
  obtain ⟨hprev, hnext⟩ := h.neighbours
  obtain ⟨h1, h2⟩ := @Mempool.removeChunk_header m c.start e.start (h.pos c (by simp)) (h.pos e he)
    (h.neighbour_self hprev) (h.neighbour_self hnext) (h.neighbour_apart hprev he) (h.neighbour_apart hnext he)
  exact ⟨h1.trans (h.size e he), h2⟩

/-- **A free chunk is removed.** -/
theorem removeChunk_ok (h : Free m (l₁ ++ c :: l₂)) : Free (m.removeChunk c.start) (l₁ ++ l₂) := by
  have hsub : ∀ d ∈ l₁ ++ l₂, d ∈ l₁ ++ c :: l₂ := fun d hd => (h.mem_rest.mp hd).1
  have hlinked := h.linked
  rw [List.map_append, List.map_cons] at hlinked
  refine ⟨?_, fun d hd => ?_, fun d hd e he => h.apart d (hsub d hd) e (hsub e he), fun d hd => h.pos d (hsub d hd)⟩
  · have hhead : ptr (m.removeChunk c.start).freelist =
        if m.freeLinks.prev c.start = none then m.freeLinks.next c.start else ptr m.freelist := by
      rw [(h.removeChunk_header (e := c) (by simp)).2.2.2]
      simp only [freeLinks, ptr_eq_none]
      split <;> rfl
    rw [hhead, List.map_append]
    refine hlinked.remove fun a ha => ?_
    rw [← List.map_append] at ha
    obtain ⟨d, hd, rfl⟩ := List.mem_map.mp ha
    obtain ⟨-, h2, h3, -⟩ := h.removeChunk_header (hsub d hd)
    have hd0 := h.pos d (hsub d hd)
    have hiff : ∀ x : U64, ptr x = some d.start ↔ x = d.start := fun x => ptr_eq_some.trans (and_iff_left hd0)
    simp only [freeLinks, h2, h3, hiff]
    constructor <;> split <;> rfl
  · exact (h.removeChunk_header (hsub d hd)).1

/-- A removal writes to the headers of the neighbours. -/
theorem removeChunk_heap (h : Free m (l₁ ++ c :: l₂)) {x : Nat} (hx : OutOfHeaders (l₁ ++ l₂) x) :
    (m.removeChunk c.start).heap x = m.heap x := by
  obtain ⟨hprev, hnext⟩ := h.neighbours
  have hout : ∀ {a : U64}, (a = 0 ∨ ∃ d ∈ l₁ ++ l₂, a = d.start) → a ≠ 0 → ¬(a.toNat ≤ x ∧ x < a.toNat + 24) := by
    rintro a (h0 | ⟨d, hd, rfl⟩) hne
    · exact absurd h0 hne
    · exact hx d hd
  have hpos := h.pos c (by simp)
  have hkeep := @setNext_header m (m.chunkPrev c.start) c.start (m.chunkNext c.start)
    ((h.neighbour_self hprev).imp_right .inr) hpos
  have hheap₁ : (if m.chunkPrev c.start = 0 then m else m.setNext (m.chunkPrev c.start) (m.chunkNext c.start)).heap x =
      m.heap x := by
    split
    · rfl
    · rename_i hne
      exact setNext_heap (hout hprev hne)
  -- the header of the chunk itself is not written
  have hself : m.chunkPrev c.start ≠ c.start := by
    rcases h.neighbour_self hprev with h0 | hapart
    · exact fun heq => hpos (heq.symm.trans h0)
    · intro heq
      rw [heq] at hapart
      unfold HeadersApart at hapart
      omega
  dsimp only at hkeep
  obtain ⟨-, h1, h2⟩ := hkeep
  rw [if_neg hself] at h2
  unfold removeChunk
  dsimp only
  generalize (if m.chunkPrev c.start = 0 then m else m.setNext (m.chunkPrev c.start) (m.chunkNext c.start)) = m₁
    at hheap₁ h1 h2 ⊢
  have hheap₂ : (if m₁.chunkNext c.start = 0 then m₁ else m₁.setPrev (m₁.chunkNext c.start) (m₁.chunkPrev c.start)).heap x =
      m.heap x := by
    rw [h2, ← hheap₁]
    split
    · rfl
    · rename_i hne
      exact setPrev_heap (hout hnext hne)
  generalize (if m₁.chunkNext c.start = 0 then m₁ else m₁.setPrev (m₁.chunkNext c.start) (m₁.chunkPrev c.start)) = m₂
    at hheap₂ ⊢
  split
  · exact hheap₂
  · exact hheap₂

/-- **A free chunk is resized.** -/
theorem setSize_ok (h : Free m (l₁ ++ c :: l₂)) (v : U64) : Free (m.setSize c.start v) (l₁ ++ ⟨c.start, v⟩ :: l₂) := by
  have hc : c ∈ l₁ ++ c :: l₂ := by simp
  have hmap : (l₁ ++ ⟨c.start, v⟩ :: l₂).map Chunk.start = (l₁ ++ c :: l₂).map Chunk.start := by simp
  have hsub : ∀ d ∈ l₁ ++ l₂, d ∈ l₁ ++ c :: l₂ := fun d hd => (h.mem_rest.mp hd).1
  have hne : ∀ d ∈ l₁ ++ l₂, d ≠ c := fun d hd => (h.mem_rest.mp hd).2
  have hcases : ∀ d ∈ l₁ ++ ⟨c.start, v⟩ :: l₂, d = ⟨c.start, v⟩ ∨ d ∈ l₁ ++ l₂ :=
    fun d hd => List.mem_cons.mp (List.perm_middle.mem_iff.mp hd)
  have hhdr : ∀ d ∈ l₁ ++ l₂, SameHeader m (m.setSize c.start v) d.start := fun d hd =>
    setSize_apart (h.apart c hc d (hsub d hd) (hne d hd).symm) v
  refine ⟨?_, fun d hd => ?_, fun d hd e he hde => ?_, fun d hd => ?_⟩
  · rw [hmap]
    refine h.linked.congr fun a ha => ?_
    obtain ⟨d, hd, rfl⟩ := List.mem_map.mp ha
    by_cases hdc : d = c
    · rw [hdc]
      exact ⟨congrArg ptr (setSize_links m c.start v).1, congrArg ptr (setSize_links m c.start v).2⟩
    · have hd' : d ∈ l₁ ++ l₂ := h.mem_rest.mpr ⟨hd, hdc⟩
      exact ⟨congrArg ptr (hhdr d hd').prev, congrArg ptr (hhdr d hd').next⟩
  · rcases hcases d hd with rfl | hd'
    · exact setSize_size m c.start v
    · exact (hhdr d hd').size.trans (h.size d (hsub d hd'))
  · rcases hcases d hd with rfl | hd' <;> rcases hcases e he with rfl | he'
    · exact absurd rfl hde
    · exact h.apart c hc e (hsub e he') (hne e he').symm
    · exact h.apart d (hsub d hd') c hc (hne d hd')
    · exact h.apart d (hsub d hd') e (hsub e he') hde
  · rcases hcases d hd with rfl | hd'
    · exact h.pos c hc
    · exact h.pos d (hsub d hd')

end Free

end Mempool

end LitmusHarness
