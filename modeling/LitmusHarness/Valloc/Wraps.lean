import LitmusHarness.Valloc.Blocks

/-!
# Requests that wrap

A request of 2^63 bytes or more succeeds only if its sum in `find_best` wraps, and then it gives a block that ends behind
the address space (`Blocks.allocZeroed_wraps`). `find_alloc_chunk` never finds such a block, so no `free` gives it back:
whatever the heap looks like, it is a block of the heap for ever (`free_hasBlock`, `allocZeroed_hasBlock`).
-/

namespace LitmusHarness

namespace Mempool

/-- The nodes are in order, and one of the allocated ones has this block. -/
def HasBlock (m : Mempool) (c : Chunk) : Prop := ∃ la lu, Nodes m la lu ∧ c ∈ m.live la

variable {area : HeapArea} {m m' : Mempool} {c : Chunk} {p size alignment : U64} {req : U64 × U64}

theorem HasBlock.live (h : HasBlock m c) : m.Live c.start c.size := by
  obtain ⟨la, lu, hnodes, hc⟩ := h
  exact (live_iff hnodes).mpr hc

theorem SameNodes.hasBlock (h : SameNodes m m') (hc : HasBlock m c) : HasBlock m' c := by
  obtain ⟨la, lu, hnodes, hc⟩ := hc
  exact ⟨la, lu, (h.nodes hnodes).1, by rwa [h.live]⟩

/-! ## The functions of the freelist leave the nodes alone -/

theorem splitAlignment_ok_sameNodes {d q : U64} (h : m.splitAlignment d size alignment = .ok (m', q)) :
    SameNodes m m' ∧ q = d + padding d alignment := by
  by_cases hfit : m.chunkSize d < size + padding d alignment
  · unfold splitAlignment at h
    dsimp only at h
    rw [padding] at hfit
    rw [if_pos hfit] at h
    cases h
  · obtain ⟨m₁, hrun, hsame⟩ := splitAlignment_sameNodes hfit
    rw [h] at hrun
    cases hrun
    exact ⟨hsame, rfl⟩

theorem compactPossibility_sameNodes {d e : U64} (h : m.compactPossibility d e = .ok (some m')) : SameNodes m m' := by
  unfold compactPossibility at h
  dsimp only at h
  split at h
  · cases h
    exact (setSize_removeChunk_frame ..).1
  · obtain ⟨r, -, h⟩ := Loop.bind_ok h
    split at h
    · cases h
      exact (setSize_removeChunk_frame ..).1
    · cases h

theorem compactStep_sameNodes {d e x : U64} (h : m.compactStep d e = .ok (some (m', x))) : SameNodes m m' := by
  have hmap : ∀ {a b y : U64}, (do return (← m.compactPossibility a b).map fun m => (m, y)) =
      (.ok (some (m', x)) : VallocResult _) → SameNodes m m' := by
    intro a b y h
    obtain ⟨r, hr, h⟩ := Loop.bind_ok h
    obtain ⟨m₁, rfl, heq⟩ := Option.map_eq_some_iff.mp (Except.ok.inj h)
    cases heq
    exact compactPossibility_sameNodes hr
  unfold compactStep at h
  split at h
  · exact hmap h
  · split at h
    · exact hmap h
    · cases h

theorem compactTogether_sameNodes {n : Nat} {d : U64} (h : compactTogether area n m d = .ok m') : SameNodes m m' := by
  induction n generalizing m d with
  | zero => cases h
  | succ n ih =>
    unfold compactTogether at h
    obtain ⟨l, -, h⟩ := Loop.bind_ok h
    obtain ⟨r, hr, h⟩ := Loop.bind_ok h
    cases r with
    | none =>
      cases h
      exact .refl _
    | some r =>
      obtain ⟨e, -, hstep⟩ := Loop.findSomeM?_some hr
      exact (compactStep_sameNodes hstep).trans (ih h)

theorem shiftTop_sameNodes {n : Nat} (h : shiftTop area n m = .ok m') : SameNodes m m' := by
  induction n generalizing m with
  | zero => cases h
  | succ n ih =>
    unfold shiftTop at h
    obtain ⟨r, -, h⟩ := Loop.bind_ok h
    cases r with
    | none =>
      cases h
      exact .refl _
    | some next =>
      obtain ⟨b, -, h⟩ := Loop.bind_ok h
      cases b with
      | true =>
        cases h
        exact .refl _
      | false =>
        refine SameNodes.trans ?_ (ih h)
        obtain ⟨hsame, -⟩ := removeChunk_frame { m with top := next + m.chunkSize next } next
        exact ⟨hsame.chunks, hsame.unalloc, hsame.alloc⟩

theorem compactChunk_sameNodes {d : U64} (h : m.compactChunk area d = .ok m') : SameNodes m m' := by
  obtain ⟨m₁, h₁, h⟩ := Loop.bind_ok h
  exact (compactTogether_sameNodes h₁).trans (shiftTop_sameNodes h)

/-! ## The calls -/

/-- What an allocation does to the nodes: one of them gets a block of the size that was asked for, which is taken from a
free chunk, or the size is at most what is left below the top. -/
theorem allocWithAlignmentAux_nodes (h : m.allocWithAlignmentAux area size alignment = .ok (m', p)) :
    ∃ m₁ m₂ n, SameNodes m m₁ ∧ m₁.alloclistAlloc p n = .ok m₂ ∧ SameNodes m₂ m' ∧
      (size ≤ m.top - area.botOfHeap ∨
        n = size ∧ ∃ d, m.findBest area size alignment = .ok (some d) ∧ p = d + padding d alignment) := by
  unfold allocWithAlignmentAux at h
  obtain ⟨r, hbest, h⟩ := Loop.bind_ok h
  cases r with
  | none =>
    dsimp only at h
    split at h
    · cases h
    · rename_i hroom
      split at h
      · cases h
      · obtain ⟨m₂, halloc, h⟩ := Loop.bind_ok h
        cases h
        refine ⟨{ m with top := alignPow2 (m.top - size) alignment }, _, _, ⟨rfl, rfl, rfl⟩, halloc, .refl _, .inl ?_⟩
        exact BitVec.le_def.mpr (Nat.le_of_not_lt hroom)
  | some d =>
    obtain ⟨⟨m₁, q⟩, hsplit, h⟩ := Loop.bind_ok h
    obtain ⟨m₂, halloc, h⟩ := Loop.bind_ok h
    cases h
    obtain ⟨hsame, hq⟩ := splitAlignment_ok_sameNodes hsplit
    exact ⟨m₁, m₂, size, hsame, halloc, (removeChunk_frame m₂ _).1, .inr ⟨rfl, d, hbest, hq⟩⟩

theorem allocZeroed_nodes (h : m.allocZeroed area req = .ok (m', p)) :
    ∃ m₁, m.allocWithAlignmentAux area req.1 req.2 = .ok (m₁, p) ∧ SameNodes m₁ m' := by
  obtain ⟨⟨m₁, q⟩, haux, h⟩ := Loop.bind_ok h
  cases h
  exact ⟨m₁, haux, rfl, rfl, rfl⟩

/-- **An allocation keeps a block**, whatever the heap looks like. -/
theorem allocZeroed_hasBlock (h : m.allocZeroed area req = .ok (m', p)) (hc : HasBlock m c) : HasBlock m' c := by
  obtain ⟨m₃, haux, hsame₃⟩ := allocZeroed_nodes h
  obtain ⟨m₁, m₂, n, hsame₁, halloc, hsame₂, -⟩ := allocWithAlignmentAux_nodes haux
  obtain ⟨la, lu, hnodes, hmem⟩ := hsame₁.hasBlock hc
  obtain ⟨i, lu', hnodes', -, -, hlive, -⟩ := alloclistAlloc_live hnodes halloc
  refine hsame₃.hasBlock (hsame₂.hasBlock ⟨i :: la, lu', hnodes', ?_⟩)
  rw [hlive]
  exact List.mem_cons_of_mem _ hmem

/-- **A free keeps a block that wraps**: it is not found by any address. -/
theorem free_hasBlock (h : m.free area p = .ok m') (hwrap : 2 ^ 64 ≤ c.hi) (hc : HasBlock m c) : HasBlock m' c := by
  obtain ⟨la, lu, hnodes, hmem⟩ := hc
  obtain ⟨i, hi, rfl⟩ := List.mem_map.mp hmem
  unfold free at h
  obtain ⟨r, hfind, h⟩ := Loop.bind_ok h
  cases r with
  | none => cases h
  | some j =>
    obtain ⟨m₁, hdealloc, h⟩ := Loop.bind_ok h
    unfold alloclistDealloc at hdealloc
    simp only [bind, Except.bind, hfind] at hdealloc
    cases hdealloc
    have hsearch : la.find? (fun i => (m.chunks i).start ≤ p && p < (m.chunks i).start + (m.chunks i).size) = some j := by
      unfold findAllocChunk at hfind
      rw [allocChunks_ok hnodes] at hfind
      exact Except.ok.inj hfind
    have hne : i ≠ j := by
      rintro rfl
      have htest := List.find?_some hsearch
      simp only [Bool.and_eq_true, decide_eq_true_eq, BitVec.le_def, BitVec.lt_def] at htest
      rw [BitVec.toNat_add] at htest
      have hlt := (m.chunks i).size.isLt
      have hhi : (m.block i).hi = (m.chunks i).start.toNat + (m.chunks i).size.toNat := rfl
      omega
    obtain ⟨l₁, l₂, rfl⟩ := List.append_of_mem (List.mem_of_find?_eq_some hsearch)
    obtain ⟨hnodes₁, hblock, -⟩ := moveToDealloc_ok hnodes
    have hi' : i ∈ l₁ ++ l₂ := by
      rcases List.mem_cons.mp (List.perm_middle.mem_iff.mp hi) with heq | hi'
      · exact absurd heq hne
      · exact hi'
    have hblock₁ : HasBlock (m.moveToDealloc j) (m.block i) :=
      ⟨l₁ ++ l₂, j :: lu, hnodes₁, List.mem_map.mpr ⟨i, hi', hblock i⟩⟩
    exact (compactChunk_sameNodes h).hasBlock ((allocateFreeChunk_frame ..).1.hasBlock hblock₁)

/-! ## Loops -/

theorem store_hasBlock (a : Nat) (v : U64) (hc : HasBlock m c) : HasBlock (m.store a v) c :=
  (show SameNodes m (m.store a v) from ⟨rfl, rfl, rfl⟩).hasBlock hc

theorem allocTable_hasBlock {request : Mempool → VallocResult (Mempool × U64)} {a stride n : Nat}
    (hreq : ∀ m m' p, request m = .ok (m', p) → HasBlock m c → HasBlock m' c)
    (h : allocTable request a stride n m = .ok m') (hc : HasBlock m c) : HasBlock m' c := by
  refine Loop.forRangeM_ok (I := fun _ s => HasBlock s c) ?_ (Nat.zero_le n) hc h
  rintro i s s' - - hs hstep
  obtain ⟨⟨s₁, p⟩, hcall, hstep⟩ := Loop.bind_ok hstep
  cases hstep
  exact store_hasBlock _ _ (hreq s s₁ p hcall hs)

theorem freeBlock_hasBlock {s s' : Mempool × List U64} (h : freeBlock area p s = .ok s') (hwrap : 2 ^ 64 ≤ c.hi)
    (hc : HasBlock s.1 c) : HasBlock s'.1 c := by
  obtain ⟨m₁, hfree, h⟩ := Loop.bind_ok h
  cases h
  exact free_hasBlock hfree hwrap hc

theorem freeTable_hasBlock {s s' : Mempool × List U64} {a stride n : Nat} (h : freeTable area a stride n s = .ok s')
    (hwrap : 2 ^ 64 ≤ c.hi) (hc : HasBlock s.1 c) : HasBlock s'.1 c :=
  Loop.forRangeM_ok (I := fun _ (s : Mempool × List U64) => HasBlock s.1 c)
    (fun _ _ _ _ _ hs hstep => freeBlock_hasBlock hstep hwrap hs) (Nat.zero_le n) hc h

/-! ## Where such blocks come from -/

/-- **A request of 2^63 bytes that succeeds gives a block that wraps.** -/
theorem Blocks.allocZeroed_wraps {bs : List Chunk} (hb : Blocks area m bs)
    (hsize : 2 ^ 63 ≤ req.1.toNat) (hpos : 0 < req.2.toNat) (halign : req.2.toNat ≤ 2 ^ 48)
    (hrun : m.allocZeroed area req = .ok (m', p)) : ∃ c, HasBlock m' c ∧ 2 ^ 64 ≤ c.hi := by
  obtain ⟨last, la, lu, free, h, -⟩ := hb
  obtain ⟨m₃, haux, hsame₃⟩ := allocZeroed_nodes hrun
  obtain ⟨m₁, m₂, n, hsame₁, halloc, hsame₂, hcase⟩ := allocWithAlignmentAux_nodes haux
  have htop := h.layout.topLe.trans (h.layout.lastLe.trans area.fits)
  rcases hcase with hroom | ⟨rfl, d, hbest, rfl⟩
  · have hbot := h.layout.bot
    rw [BitVec.le_def, BitVec.toNat_sub_of_le (BitVec.le_def.mpr hbot)] at hroom
    omega
  · obtain ⟨r, hr, hleast⟩ := findBest_ok h.headers h.layout.length_lt req.1 req.2
    rw [hbest] at hr
    cases hr
    obtain ⟨c, hc, hd, hlt⟩ := hleast.resolve_left nofun
    obtain rfl := Option.some.inj hd
    -- the sum wraps, and the padding is a part of the address
    have hpad := padding_le c.start hpos
    have hlo := (h.layout.inside c (List.mem_append_left _ hc)).2
    have hlast := h.layout.lastLe
    have hfits := area.fits
    rw [Chunk.hi_eq] at hlo
    rw [BitVec.lt_def, BitVec.toNat_add] at hlt
    have hstart : (c.start + padding c.start req.2).toNat = c.start.toNat + (padding c.start req.2).toNat := by
      rw [BitVec.toNat_add, Nat.mod_eq_of_lt]
      have : c.lo = c.start.toNat := rfl
      omega
    have hsum : 2 ^ 64 ≤ req.1.toNat + (padding c.start req.2).toNat := by
      by_contra hno
      rw [Nat.mod_eq_of_lt (by omega)] at hlt
      omega
    obtain ⟨i, lu', hnodes, -, -, hlive, -⟩ := alloclistAlloc_live (hsame₁.nodes h.nodes).1 halloc
    refine ⟨⟨c.start + padding c.start req.2, req.1⟩, hsame₃.hasBlock (hsame₂.hasBlock ⟨i :: la, lu', hnodes, ?_⟩), ?_⟩
    · rw [hlive]
      exact List.mem_cons_self
    · show 2 ^ 64 ≤ (c.start + padding c.start req.2).toNat + req.1.toNat
      omega

end Mempool

end LitmusHarness
