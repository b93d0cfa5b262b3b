import LitmusHarness.Valloc.Compact

/-!
# Taking a block: `__alloc_with_alignment`

`findBest` chooses a free chunk that is large enough (`findBest_ok`). The chunk is split into a lower part, the block and
an upper part, and of the other two those that can hold a header become free chunks (`splitAlignment_ok`). Without a
chunk that is large enough the block is taken from below the top (`takeTop_ok`). Either way there is a heap again with
the block in it, if the space that is asked for is less than 2^64 bytes (`allocWithAlignmentAux_ok`). It ends where it
ended before, except that an upper part at the end that cannot hold a header is lost (`LosesEnd`). The other blocks keep
their bytes.
-/

namespace LitmusHarness

namespace Mempool

/-- The bytes that are skipped to align a block in a chunk. -/
def padding (c alignment : U64) : U64 := alignUpTo c alignment - c

/-- The space that is asked for in the chunk of `findBest`, with the padding, is less than 2^64 bytes. -/
def Fits (area : HeapArea) (m : Mempool) (size alignment : U64) : Prop :=
  ∀ c, m.findBest area size alignment = .ok (some c) → size.toNat + (padding c alignment).toNat < 2 ^ 64

/-- The chunk of `findBest` is the last of the heap, and what is left of it after the block cannot hold a header. -/
def LosesEnd (area : HeapArea) (m : Mempool) (size alignment : U64) : Prop :=
  ∃ c, m.findBest area size alignment = .ok (some c) ∧ c + m.chunkSize c = area.topOfHeap ∧
    ¬m.chunkSize c - padding c alignment - size > sizeofFreeChunk

variable {area : HeapArea} {m m' : Mempool} {la lu : List Nat} {free rest l₁ l₂ : List Chunk} {c d : Chunk}
  {top last : Nat} {size alignment p : U64}

/-! ## The choice -/

/-- The chosen chunk is larger than the block and its padding. -/
theorem findBest_ok (h : Free m free) (hlen : free.length < area.topOfHeap.toNat) (size alignment : U64) :
    ∃ r, m.findBest area size alignment = .ok r ∧
      (r = none ∨ ∃ c ∈ free, r = some c.start ∧ size + padding c.start alignment < c.size) := by
  refine ⟨((free.map Chunk.start).foldl (m.bestStep size alignment) (~~~0, none)).2, ?_, ?_⟩
  · rw [findBest, freeChunks_ok h hlen]
    rfl
  let Chosen : U64 × Option U64 → Prop := fun acc =>
    acc.2 = none ∨ ∃ c ∈ free, acc.2 = some c.start ∧ size + padding c.start alignment < c.size
  have hnone : Chosen (~~~0, none) := .inl rfl
  refine List.foldlRecOn (motive := Chosen) _ _ hnone fun acc hacc a ha => ?_
  obtain ⟨c, hc, rfl⟩ := List.mem_map.mp ha
  unfold bestStep
  dsimp only
  split
  · rename_i hbest
    rw [Bool.and_eq_true, decide_eq_true_eq, h.size c hc] at hbest
    exact .inr ⟨c, hc, rfl, hbest.1⟩
  · exact hacc

/-! ## Splitting a chunk -/

/-- What is below the block. -/
def lowerPart (c : Chunk) (pad : U64) : Chunk := ⟨c.start, pad⟩

/-- The block. -/
def blockPart (c : Chunk) (pad size : U64) : Chunk := ⟨c.start + pad, size⟩

/-- What is above the block. -/
def upperPart (c : Chunk) (pad size : U64) : Chunk := ⟨c.start + pad + size, c.size - pad - size⟩

/-- The parts that become free chunks, the first one in front. -/
def freeParts (c : Chunk) (pad size : U64) : List Chunk :=
  (if c.size - pad - size > sizeofFreeChunk then [upperPart c pad size] else []) ++
    if pad > sizeofFreeChunk then [lowerPart c pad] else []

section Parts

variable {pad : U64} (hhi : c.hi < 2 ^ 64) (hfit : size.toNat + pad.toNat < c.size.toNat)

include hhi hfit

theorem blockPart_lo : (blockPart c pad size).lo = c.lo + pad.toNat := by
  unfold blockPart Chunk.lo Chunk.hi at *
  rw [BitVec.toNat_add, Nat.mod_eq_of_lt (by omega)]

theorem upperPart_eq : (upperPart c pad size).lo = c.lo + pad.toNat + size.toNat ∧
    (upperPart c pad size).size.toNat = c.size.toNat - pad.toNat - size.toNat := by
  have hlo : (c.start + pad).toNat = c.lo + pad.toNat := @blockPart_lo c size pad hhi hfit
  have hpad : (c.size - pad).toNat = c.size.toNat - pad.toNat :=
    BitVec.toNat_sub_of_le (by rw [BitVec.le_def]; omega)
  unfold upperPart Chunk.lo Chunk.hi at *
  constructor
  · rw [BitVec.toNat_add, hlo, Nat.mod_eq_of_lt (by omega)]
  · rw [BitVec.toNat_sub_of_le (by rw [BitVec.le_def]; omega), hpad]

/-- The free parts are above or below the block. -/
theorem mem_freeParts {q : Chunk} (hq : q ∈ freeParts c pad size) : 24 < q.size.toNat ∧
    (q.lo = c.lo + pad.toNat + size.toNat ∧ q.hi = c.hi ∨ q.lo = c.lo ∧ q.hi = c.lo + pad.toNat) := by
  obtain ⟨hlo, hsize⟩ := upperPart_eq hhi hfit
  rcases List.mem_append.mp hq with hq | hq
  · split at hq
    · rename_i hlt
      rw [List.mem_singleton.mp hq]
      refine ⟨BitVec.lt_def.mp hlt, .inl ⟨hlo, ?_⟩⟩
      rw [Chunk.hi_eq, hlo, hsize, Chunk.hi_eq]
      omega
    · cases hq
  · split at hq
    · rename_i hlt
      rw [List.mem_singleton.mp hq]
      exact ⟨BitVec.lt_def.mp hlt, .inr ⟨rfl, rfl⟩⟩
    · cases hq

/-- All parts lie in the chunk. -/
theorem parts_inside : ∀ q ∈ freeParts c pad size ++ [blockPart c pad size], c.lo ≤ q.lo ∧ q.hi ≤ c.hi := by
  have hblock := blockPart_lo hhi hfit
  have hc := c.hi_eq
  intro q hq
  rcases List.mem_append.mp hq with hq | hq
  · have := (mem_freeParts hhi hfit hq).2
    omega
  · rw [List.mem_singleton.mp hq, Chunk.hi_eq, hblock]
    exact ⟨by omega, show c.lo + pad.toNat + size.toNat ≤ c.hi by omega⟩

theorem parts_apart : (freeParts c pad size ++ [blockPart c pad size]).Pairwise Chunk.Apart := by
  obtain ⟨hupper, -⟩ := upperPart_eq hhi hfit
  have hblock := blockPart_lo hhi hfit
  have h1 : (upperPart c pad size).Apart (lowerPart c pad) := .inr (by
    rw [hupper]
    exact Nat.le_add_right _ _)
  have h2 : (upperPart c pad size).Apart (blockPart c pad size) := .inr (by
    rw [Chunk.hi_eq, hblock, hupper]
    exact Nat.le_refl _)
  have h3 : (lowerPart c pad).Apart (blockPart c pad size) := .inl (by
    rw [hblock]
    exact Nat.le_refl _)
  unfold freeParts
  split <;> split <;> simp [h1, h2, h3]

theorem parts_size (hsize : 24 ≤ size.toNat) :
    ∀ q ∈ freeParts c pad size ++ [blockPart c pad size], 24 ≤ q.size.toNat := by
  intro q hq
  rcases List.mem_append.mp hq with hq | hq
  · exact Nat.le_of_lt (mem_freeParts hhi hfit hq).1
  · rw [List.mem_singleton.mp hq]
    exact hsize

/-- The block is between the two free parts. -/
theorem parts_between : ∀ f ∈ freeParts c pad size, ∀ g ∈ freeParts c pad size, f.hi ≤ g.lo →
    f.hi ≤ (blockPart c pad size).lo ∧ (blockPart c pad size).lo ≤ g.lo := by
  intro f hf g hg hfg
  obtain ⟨hsf, hf⟩ := mem_freeParts hhi hfit hf
  obtain ⟨hsg, hg⟩ := mem_freeParts hhi hfit hg
  have hfh := f.hi_eq
  have hgh := g.hi_eq
  have hc := c.hi_eq
  rw [blockPart_lo hhi hfit]
  omega

end Parts

/-- A chunk that is apart from the others is pushed, if a condition holds. -/
theorem pushIf_ok (h : Free m free) (b : Prop) [Decidable b] (hb : b → c.start ≠ 0 ∧ 24 ≤ c.size.toNat)
    (hapart : b → ∀ d ∈ free, c.Apart d ∧ 24 ≤ d.size.toNat) :
    Free (if b then m.allocateFreeChunk c.start c.size else m) ((if b then [c] else []) ++ free) ∧
      SameNodes m (if b then m.allocateFreeChunk c.start c.size else m) ∧
      (if b then m.allocateFreeChunk c.start c.size else m).top = m.top ∧
      ∀ x, (b → ¬(c.lo ≤ x ∧ x < c.lo + 24)) → OutOfHeaders free x →
        (if b then m.allocateFreeChunk c.start c.size else m).heap x = m.heap x := by
  by_cases hcond : b
  · simp only [hcond, if_true]
    obtain ⟨hpos, hsize⟩ := hb hcond
    obtain ⟨hsame, htop⟩ := allocateFreeChunk_frame m c.start c.size
    refine ⟨allocateFreeChunk_ok h hpos fun d hd => ?_, hsame, htop, fun x hc hx =>
      allocateFreeChunk_heap h (List.forall_mem_cons.mpr ⟨hc trivial, hx⟩)⟩
    obtain ⟨hcd, hsd⟩ := hapart hcond d hd
    unfold Chunk.Apart Chunk.hi Chunk.lo at hcd
    unfold HeadersApart
    omega
  · simp only [hcond, if_false]
    exact ⟨h, SameNodes.refl m, trivial, fun _ _ _ => trivial⟩

/-- **A chunk is split**: the block is the chunk behind the free parts. -/
theorem splitAlignment_ok (h : Free m (l₁ ++ c :: l₂)) (hl : Layout area top last (c :: (l₁ ++ l₂)) (m.live la))
    (hfit : size.toNat + (padding c.start alignment).toNat < c.size.toNat) (hsize : 24 ≤ size.toNat) :
    ∃ m', m.splitAlignment c.start size alignment = .ok (m', c.start + padding c.start alignment) ∧
      Free m' (freeParts c (padding c.start alignment) size ++
        blockPart c (padding c.start alignment) size :: (l₁ ++ l₂)) ∧ SameNodes m m' ∧ m'.top = m.top ∧
      ∀ x, OutOfHeaders (l₁ ++ l₂) x → ¬(c.lo ≤ x ∧ x < c.hi) → m'.heap x = m.heap x := by
  have hc : c ∈ (c :: (l₁ ++ l₂)) ++ m.live la := by simp
  have hhi := hl.hi_lt hc
  have hlo := hl.lo_pos hc
  unfold splitAlignment
  rw [← padding]
  dsimp only
  generalize padding c.start alignment = pad at hfit ⊢
  have hblo := blockPart_lo hhi hfit
  have hsum : (size + pad).toNat = size.toNat + pad.toNat := by
    rw [BitVec.toNat_add, Nat.mod_eq_of_lt (by omega)]
  have hfalse : ¬m.chunkSize c.start < size + pad := by
    rw [h.size c (by simp), BitVec.lt_def, hsum]
    omega
  have hkeep : (m.removeChunk c.start).chunkSize c.start = c.size := (h.removeChunk_header (by simp)).1
  rw [if_neg hfalse, hkeep]
  -- a part is apart from the other chunks
  have hrest : ∀ {q : Chunk}, c.lo ≤ q.lo ∧ q.hi ≤ c.hi → ∀ d ∈ l₁ ++ l₂, q.Apart d ∧ 24 ≤ d.size.toNat := by
    intro q hq d hd
    exact ⟨hl.apart_split (List.mem_append_left _ hd) hq, hl.size d (List.mem_cons_of_mem c (List.mem_append_left _ hd))⟩
  have hin := parts_inside hhi hfit
  have hpairs := parts_apart hhi hfit
  have hpos : ∀ {a : U64}, c.lo ≤ a.toNat → a ≠ 0 := by
    rintro a ha rfl
    simp at ha
    omega
  obtain ⟨h1, hs1, ht1, hb1⟩ := @pushIf_ok (m.removeChunk c.start) (l₁ ++ l₂) (blockPart c pad size) (removeChunk_ok h) True _
    (fun _ => ⟨hpos (show c.lo ≤ (blockPart c pad size).lo by omega), hsize⟩) (fun _ => hrest (hin _ (by simp)))
  simp only [if_true] at h1 hs1 ht1 hb1
  obtain ⟨hs0, ht0⟩ := removeChunk_frame m c.start
  have hlowin : pad > sizeofFreeChunk → lowerPart c pad ∈ freeParts c pad size := fun hlt => by simp [freeParts, hlt]
  obtain ⟨h2, hs2, ht2, hb2⟩ := pushIf_ok (c := lowerPart c pad) h1 (pad > sizeofFreeChunk)
    (fun hlt => ⟨hpos (show c.lo ≤ c.lo from Nat.le_refl _), Nat.le_of_lt (mem_freeParts hhi hfit (hlowin hlt)).1⟩)
    (fun hlt d hd => by
      rcases List.mem_cons.mp hd with rfl | hd
      · refine ⟨?_, hsize⟩
        exact .inl (by rw [hblo]; exact Nat.le_refl _)
      · exact hrest (hin _ (List.mem_append_left _ (hlowin hlt))) d hd)
  have hupin : c.size - pad - size > sizeofFreeChunk → upperPart c pad size ∈ freeParts c pad size := fun hlt => by
    simp [freeParts, hlt]
  obtain ⟨h3, hs3, ht3, hb3⟩ := pushIf_ok (c := upperPart c pad size) h2 (c.size - pad - size > sizeofFreeChunk)
    (fun hlt => ⟨hpos (show c.lo ≤ (upperPart c pad size).lo by rw [(upperPart_eq hhi hfit).1]; omega),
      Nat.le_of_lt (mem_freeParts hhi hfit (hupin hlt)).1⟩)
    (fun hlt d hd => by
      have hup := (upperPart_eq hhi hfit).1
      rcases List.mem_append.mp hd with hd | hd
      · split at hd
        · rename_i hlt'
          rw [List.mem_singleton.mp hd]
          refine ⟨.inr ?_, Nat.le_of_lt (BitVec.lt_def.mp hlt')⟩
          rw [hup]
          exact Nat.le_add_right _ _
        · cases hd
      · rcases List.mem_cons.mp hd with rfl | hd
        · refine ⟨.inr ?_, hsize⟩
          rw [Chunk.hi_eq, hblo, hup]
          exact Nat.le_refl _
        · exact hrest (hin _ (List.mem_append_left _ (hupin hlt))) d hd)
  refine ⟨_, rfl, ?_, (hs0.trans hs1).trans (hs2.trans hs3), ht3.trans (ht2.trans (ht1.trans ht0)), fun x hx hcx => ?_⟩
  · rw [freeParts, List.append_assoc]
    exact h3
  · -- the headers that are written are those of the parts and of the other chunks
    have hpart : ∀ q ∈ freeParts c pad size ++ [blockPart c pad size], ¬(q.lo ≤ x ∧ x < q.lo + 24) := by
      intro q hq
      obtain ⟨h4, h5⟩ := hin q hq
      have h6 : 24 ≤ q.size.toNat := by
        rcases List.mem_append.mp hq with hq | hq
        · exact Nat.le_of_lt (mem_freeParts hhi hfit hq).1
        · rw [List.mem_singleton.mp hq]
          exact hsize
      rw [Chunk.hi_eq q] at h5
      omega
    have hblock := hpart (blockPart c pad size) (by simp)
    have hlow : OutOfHeaders (if pad > sizeofFreeChunk then [lowerPart c pad] else []) x := by
      intro q hq
      split at hq
      · rename_i hlt
        rw [List.mem_singleton.mp hq]
        exact hpart _ (List.mem_append_left _ (hlowin hlt))
      · cases hq
    have hothers : OutOfHeaders (blockPart c pad size :: (l₁ ++ l₂)) x := List.forall_mem_cons.mpr ⟨hblock, hx⟩
    refine (hb3 x (fun hlt => hpart _ (List.mem_append_left _ (hupin hlt))) ?_).trans
      ((hb2 x (fun hlt => hpart _ (List.mem_append_left _ (hlowin hlt))) hothers).trans
        ((hb1 x (fun _ => hblock) hx).trans (removeChunk_heap h hx)))
    intro q hq
    rcases List.mem_append.mp hq with hq | hq
    · exact hlow q hq
    · exact hothers q hq

/-! ## Taking it -/

/-- The node of a new block. -/
theorem alloclistAlloc_live (hn : Nodes m la lu) {addr : U64} (hrun : m.alloclistAlloc addr size = .ok m') :
    ∃ i lu', Nodes m' (i :: la) lu' ∧ m'.block i = ⟨addr, size⟩ ∧ (∀ j ∈ la, m'.block j = m.block j) ∧
      m'.live (i :: la) = ⟨addr, size⟩ :: m.live la ∧ SameHeap m m' := by
  cases lu with
  | nil =>
    rw [alloclistAlloc_full hn] at hrun
    cases hrun
  | cons i lu' =>
    obtain ⟨m₁, hrun₁, hnodes, hblock, hother, hsame⟩ := alloclistAlloc_ok hn addr size
    rw [hrun] at hrun₁
    cases hrun₁
    have hne : ∀ j ∈ la, j ≠ i := fun j hj heq =>
      (List.nodup_append.mp hn.nodup).2.2 j hj i List.mem_cons_self heq
    refine ⟨i, lu', hnodes, hblock, fun j hj => hother j (hne j hj), ?_, hsame⟩
    rw [live, List.map_cons, hblock]
    exact congrArg _ (List.map_congr_left fun j hj => hother j (hne j hj))

/-- Where the space in use ends after a block is taken from the chunk. -/
def lastAfter (c : Chunk) (pad size : U64) (last : Nat) : Nat :=
  if c.hi = last ∧ ¬c.size - pad - size > sizeofFreeChunk then (blockPart c pad size).hi else last

/-- The layout after a block is taken from a chunk. -/
theorem layout_take {pad : U64} {live : List Chunk} (hl : Layout area top last (c :: rest) live)
    (hfit : size.toNat + pad.toNat < c.size.toNat) (hsize : 24 ≤ size.toNat) :
    Layout area top (lastAfter c pad size last) (freeParts c pad size ++ rest) (blockPart c pad size :: live) := by
  have hhi := hl.hi_lt (show c ∈ (c :: rest) ++ live by simp)
  have hin := parts_inside hhi hfit
  have hpairs := parts_apart hhi hfit
  have hsizes := parts_size hhi hfit hsize
  have hblo := blockPart_lo hhi hfit
  unfold lastAfter
  split
  · rename_i hlose
    refine hl.splitLoss hin hsizes hpairs hlose.1 fun q hq => ?_
    -- there is no upper part
    unfold freeParts at hq
    rw [if_neg hlose.2, List.nil_append] at hq
    split at hq
    · rw [List.mem_singleton.mp hq, Chunk.hi_eq (blockPart c pad size), hblo]
      exact Nat.le_add_right _ _
    · cases hq
  · rename_i hlose
    refine hl.split hin hsizes hpairs fun hlast => ?_
    have hupper : c.size - pad - size > sizeofFreeChunk := not_not.mp fun hno => hlose ⟨hlast, hno⟩
    have hmem : upperPart c pad size ∈ freeParts c pad size := by simp [freeParts, hupper]
    refine ⟨upperPart c pad size, List.mem_append_left _ hmem, ?_⟩
    obtain ⟨h1, h2⟩ := upperPart_eq hhi hfit
    have hc := c.hi_eq
    rw [Chunk.hi_eq, h1, h2]
    omega

/-- **A block is taken from a free chunk.** -/
theorem takeChunk_ok {m₁ m₂ : Mempool} (h : Heap area last m la lu free) (hc : c ∈ free)
    (hfit : size.toNat + (padding c.start alignment).toNat < c.size.toNat) (hsize : 24 ≤ size.toNat)
    (hsplit : m.splitAlignment c.start size alignment = .ok (m₁, p)) (halloc : m₁.alloclistAlloc p size = .ok m₂) :
    ∃ i lu' free', Heap area (lastAfter c (padding c.start alignment) size last) (m₂.removeChunk p) (i :: la) lu' free' ∧
      (m₂.removeChunk p).block i = ⟨p, size⟩ ∧ (∀ j ∈ la, (m₂.removeChunk p).block j = m.block j) ∧
      SameBytes m (m₂.removeChunk p) (m.live la) := by
  obtain ⟨l₁, l₂, rfl⟩ := List.append_of_mem hc
  have hperm : (l₁ ++ c :: l₂).Perm (c :: (l₁ ++ l₂)) := List.perm_middle
  have hl : Layout area m.top.toNat last (c :: (l₁ ++ l₂)) (m.live la) := h.layout.perm (hperm.append_right _)
  obtain ⟨m₁', hsplit', hfree₁, hsame₁, htop₁, hbytes₁⟩ := splitAlignment_ok h.headers hl hfit hsize
  rw [hsplit] at hsplit'
  simp only [Except.ok.injEq, Prod.mk.injEq] at hsplit'
  obtain ⟨rfl, rfl⟩ := hsplit'
  clear hsplit
  generalize padding c.start alignment = pad at hfit hfree₁ hbytes₁ halloc ⊢
  obtain ⟨i, lu', hnodes, hblock, hother, hlive, hsame₂⟩ := alloclistAlloc_live (hsame₁.nodes h.nodes).1 halloc
  have hfree₂ : Free m₂ (freeParts c pad size ++ blockPart c pad size :: (l₁ ++ l₂)) :=
    hfree₁.congr hsame₂.freelist fun d _ => .of_heap fun x _ _ => by rw [hsame₂.heap]
  have hfree₃ := removeChunk_ok hfree₂
  rw [show (blockPart c pad size).start = c.start + pad from rfl] at hfree₃
  obtain ⟨hsame₃, htop₃⟩ := removeChunk_frame m₂ (c.start + pad)
  have hblocks : ∀ j, (m₂.removeChunk (c.start + pad)).block j = m₂.block j := (hsame₃.nodes hnodes).2
  have hlive' : (m₂.removeChunk (c.start + pad)).live (i :: la) = blockPart c pad size :: m.live la := by
    rw [hsame₃.live, hlive, hsame₁.live]
    rfl
  have htop : (m₂.removeChunk (c.start + pad)).top = m.top := htop₃.trans (hsame₂.top.trans htop₁)
  have hhi := hl.hi_lt (show c ∈ (c :: (l₁ ++ l₂)) ++ m.live la by simp)
  have hin := parts_inside hhi hfit
  have hsizes := parts_size hhi hfit hsize
  refine ⟨i, lu', freeParts c pad size ++ (l₁ ++ l₂), ⟨⟨(hsame₃.nodes hnodes).1, hfree₃, ?_, ?_⟩, ?_⟩,
    (hblocks i).trans hblock, fun j hj => ?_, fun b hb x h1 h2 => ?_⟩
  · rw [hlive', htop]
    exact layout_take hl hfit hsize
  · rw [hlive']
    exact (h.sep.subset fun e he => hperm.mem_iff.mpr he).split hl hin hsizes (parts_between hhi hfit)
  · rw [hlive']
    exact Below.split hin fun e he => h.below e (hperm.mem_iff.mpr he)
  · exact (hblocks j).trans ((hother j hj).trans ((hsame₁.nodes h.nodes).2 j))
  · -- the block is apart from all parts and from all other chunks
    have hout := outOfHeaders hl hb h1 h2
    have hrest : OutOfHeaders (l₁ ++ l₂) x := fun e he => hout e (List.mem_cons_of_mem c he)
    have hcx : ¬(c.lo ≤ x ∧ x < c.hi) := fun hx => by
      have hapart := hl.free_live (show c ∈ c :: (l₁ ++ l₂) by simp) hb
      rw [Chunk.Apart] at hapart
      omega
    refine (removeChunk_heap hfree₂ ?_).trans ((congrFun hsame₂.heap x).trans (hbytes₁ x hrest hcx))
    intro e he
    rcases List.mem_append.mp he with he | he
    · have hq := List.mem_append_left [blockPart c pad size] he
      obtain ⟨h3, h4⟩ := hin e hq
      have h5 := hsizes e hq
      rw [Chunk.hi_eq e] at h4
      omega
    · exact hrest e he

/-- **A block is taken from below the top.** -/
theorem takeTop_ok {newTop : U64} {m₂ : Mempool} (h : Heap area last m la lu free) (hsize : 24 ≤ size.toNat)
    (hroom : ¬size > m.top - area.botOfHeap) (hnew : newTop.toNat ≤ (m.top - size).toNat)
    (hbot : ¬newTop < area.botOfHeap)
    (halloc : ({ m with top := newTop } : Mempool).alloclistAlloc newTop (m.top - newTop) = .ok m₂) :
    ∃ i lu', Heap area last m₂ (i :: la) lu' free ∧ m₂.block i = ⟨newTop, m.top - newTop⟩ ∧
      size.toNat ≤ (m.top - newTop).toNat ∧ (∀ j ∈ la, m₂.block j = m.block j) ∧ m₂.heap = m.heap := by
  have hsame₁ : SameNodes m { m with top := newTop } := ⟨rfl, rfl, rfl⟩
  obtain ⟨i, lu', hnodes, hblock, hother, hlive, hsame₂⟩ := alloclistAlloc_live (hsame₁.nodes h.nodes).1 halloc
  have hlive' : m₂.live (i :: la) = ⟨newTop, m.top - newTop⟩ :: m.live la := by
    rw [hlive, hsame₁.live]
  have hle := h.layout.bot
  have h1 : (m.top - area.botOfHeap).toNat = m.top.toNat - area.botOfHeap.toNat :=
    BitVec.toNat_sub_of_le (BitVec.le_def.mpr hle)
  rw [GT.gt, BitVec.lt_def, h1] at hroom
  have h2 : (m.top - size).toNat = m.top.toNat - size.toNat :=
    BitVec.toNat_sub_of_le (BitVec.le_def.mpr (by omega))
  have h3 : (m.top - newTop).toNat = m.top.toNat - newTop.toNat :=
    BitVec.toNat_sub_of_le (BitVec.le_def.mpr (by omega))
  rw [BitVec.lt_def] at hbot
  have hfree : Free m₂ free := h.headers.congr hsame₂.freelist fun d _ => .of_heap fun x _ _ => by rw [hsame₂.heap]
  refine ⟨i, lu', ⟨⟨hnodes, hfree, ?_, ?_⟩, ?_⟩, hblock, by omega, hother, hsame₂.heap⟩
  · rw [hlive', hsame₂.top]
    refine h.layout.extend (p := ⟨newTop, m.top - newTop⟩) (Nat.le_of_not_lt hbot) ?_ (by rw [h3]; omega)
    show newTop.toNat + (m.top - newTop).toNat = m.top.toNat
    omega
  · rw [hlive']
    exact h.sep.extend
  · rw [hlive']
    exact h.below.extend

/-- `ALIGN_POW2` goes down. -/
theorem alignPow2_le (v align : U64) : (alignPow2 v align).toNat ≤ v.toNat := by
  rw [alignPow2, BitVec.toNat_and]
  exact Nat.and_le_left

/-- **A call takes a block, and gives a heap again.** Its space in use ends where it did, unless the end is lost. -/
theorem allocWithAlignmentAux_ok (h : Heap area last m la lu free) (hsize : 24 ≤ size.toNat)
    (hfits : Fits area m size alignment) (hrun : m.allocWithAlignmentAux area size alignment = .ok (m', p)) :
    ∃ i lu' free' last', Heap area last' m' (i :: la) lu' free' ∧ (m'.block i).start = p ∧
      size.toNat ≤ (m'.block i).size.toNat ∧ (∀ j ∈ la, m'.block j = m.block j) ∧ SameBytes m m' (m.live la) ∧
      (last' = area.topOfHeap.toNat ↔ last = area.topOfHeap.toNat ∧ ¬LosesEnd area m size alignment) := by
  obtain ⟨r, hr, hbest⟩ := findBest_ok h.headers h.layout.length_lt size alignment
  unfold allocWithAlignmentAux at hrun
  simp only [bind, Except.bind, hr] at hrun
  rcases hbest with rfl | ⟨c, hc, rfl, hlt⟩
  · -- no chunk is large enough
    simp only [gt_iff_lt] at hrun
    split at hrun
    · cases hrun
    · rename_i hroom
      split at hrun
      · cases hrun
      · rename_i hbot
        split at hrun
        · cases hrun
        · rename_i m₂ halloc
          cases hrun
          obtain ⟨i, lu', hheap, hblock, hle, hother, hbytes⟩ :=
            takeTop_ok h hsize hroom (alignPow2_le (m.top - size) alignment) hbot halloc
          refine ⟨i, lu', free, last, hheap, by rw [hblock], by rw [hblock]; exact hle, hother,
            fun _ _ x _ _ => congrFun hbytes x, ?_⟩
          refine ⟨fun heq => ⟨heq, ?_⟩, fun heq => heq.1⟩
          rintro ⟨c, hc, -⟩
          rw [hr] at hc
          cases hc
  · have hfit : size.toNat + (padding c.start alignment).toNat < c.size.toNat := by
      rw [BitVec.lt_def, BitVec.toNat_add, Nat.mod_eq_of_lt (hfits c.start hr)] at hlt
      exact hlt
    simp only at hrun
    split at hrun
    · cases hrun
    · rename_i r₁ hsplit
      obtain ⟨m₁, p₁⟩ := r₁
      simp only at hrun
      split at hrun
      · cases hrun
      · rename_i m₂ halloc
        cases hrun
        obtain ⟨i, lu', free', hheap, hblock, hother, hbytes⟩ := takeChunk_ok h hc hfit hsize hsplit halloc
        refine ⟨i, lu', free', _, hheap, by rw [hblock], by rw [hblock], hother, hbytes, ?_⟩
        -- the end is lost if the last chunk is split so
        have hmem : c ∈ free ++ m.live la := List.mem_append_left _ hc
        have hend := toNat_end (h.layout.hi_lt hmem)
        have hlose : LosesEnd area m size alignment ↔ c.hi = area.topOfHeap.toNat ∧
            ¬c.size - padding c.start alignment - size > sizeofFreeChunk := by
          constructor
          · rintro ⟨c', hc', h1, h2⟩
            rw [hr] at hc'
            cases hc'
            rw [h.headers.size c hc] at h1 h2
            exact ⟨by rw [← hend, h1], h2⟩
          · rintro ⟨h1, h2⟩
            rw [← h.headers.size c hc] at h2
            refine ⟨c.start, hr, ?_, h2⟩
            rw [h.headers.size c hc, ← BitVec.toNat_inj, hend, h1]
        have hin := (h.layout.inside c hmem).2
        have hle := h.layout.lastLe
        have hlo := @blockPart_lo c size (padding c.start alignment) (h.layout.hi_lt hmem) hfit
        have hblockhi : (blockPart c (padding c.start alignment) size).hi < c.hi := by
          rw [Chunk.hi_eq, hlo, Chunk.hi_eq]
          show c.lo + (padding c.start alignment).toNat + size.toNat < _
          omega
        rw [hlose, lastAfter]
        split
        · rename_i hcond
          constructor
          · intro heq
            omega
          · rintro ⟨h1, h2⟩
            exact absurd ⟨hcond.1.trans h1, hcond.2⟩ h2
        · rename_i hcond
          refine ⟨fun heq => ⟨heq, fun hl => hcond ⟨hl.1.trans heq.symm, hl.2⟩⟩, fun heq => heq.1⟩

end Mempool

end LitmusHarness
