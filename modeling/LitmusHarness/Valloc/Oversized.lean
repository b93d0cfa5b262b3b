import LitmusHarness.Valloc.BestFit

/-!
# Requests for more than the heap

A request fails with the pool as it was if and only if no free chunk passes the test of the search and there is no room
below the top (`allocZeroed_untouched_iff`; if no node is left, a call that goes on fails after it has changed the pool).
With sizes that are larger than the heap two sums go wrong. `next_largest_pow2` of a number above 2^63 shifts by 64, so
`alloc` goes on with 32 bytes. And the size with the padding may be 2^64 or more, so a chunk passes the test of the search
that is far too small. Without these the call fails with the pool as it was (`oversized_untouched`).
-/

namespace LitmusHarness

/-- A call for more bytes than the heap has, with any alignment that is a power of two. -/
def VallocOp.Oversized (area : HeapArea) : VallocOp → Prop
  | .alloc size => area.topOfHeap - area.botOfHeap < size
  | .allocWithAlignment size alignment =>
    area.topOfHeap - area.botOfHeap < size ∧ ∃ k, k < 64 ∧ alignment = 1#64 <<< k
  | .free _ => False
  | .write => False

/-- The call fails with the pool as it was. -/
def VallocOp.FailsUntouched (area : HeapArea) (m : Mempool) : VallocOp → Prop
  | .alloc size => ∃ e, m.alloc area size = .error (e, m)
  | .allocWithAlignment size alignment => ∃ e, m.allocWithAlignment area size alignment = .error (e, m)
  | .free p => ∃ e, m.free area p = .error (e, m)
  | .write => False

namespace Mempool

/-- A free chunk passes the test of the search. -/
def SomePasses (area : HeapArea) (m : Mempool) (size alignment : U64) : Prop :=
  ∃ l, m.freeChunks area = .ok l ∧ ∃ c ∈ l, size + padding c alignment < m.chunkSize c

/-- A free chunk passes the test of the search, or there is room below the top. -/
def HasRoom (area : HeapArea) (m : Mempool) (size alignment : U64) : Prop :=
  m.SomePasses area size alignment ∨
    size ≤ m.top - area.botOfHeap ∧ area.botOfHeap ≤ alignPow2 (m.top - size) alignment

variable {area : HeapArea} {m : Mempool} {la lu : List Nat} {free : List Chunk} {last : Nat} {size alignment : U64}

theorem somePasses_iff (h : FreeIn area m free) :
    m.SomePasses area size alignment ↔ ∃ c ∈ free, Passes c size alignment := by
  unfold SomePasses
  rw [freeChunks_ok h.headers h.length_lt]
  constructor
  · rintro ⟨l, hl, a, ha, hlt⟩
    cases hl
    obtain ⟨c, hc, rfl⟩ := List.mem_map.mp ha
    rw [h.headers.size c hc] at hlt
    exact ⟨c, hc, hlt⟩
  · rintro ⟨c, hc, hlt⟩
    refine ⟨_, rfl, c.start, List.mem_map_of_mem hc, ?_⟩
    rw [h.headers.size c hc]
    exact hlt

/-- **A request fails with the pool as it was**, if there is no room for it. -/
theorem allocZeroed_untouched {req : U64 × U64} (h : FreeIn area m free) (hroom : ¬m.HasRoom area req.1 req.2) :
    ∃ e, m.allocZeroed area req = .error (e, m) := by
  obtain ⟨r, hr, hleast⟩ := findBest_least h req.1 req.2
  rw [HasRoom, not_or, not_and_or, somePasses_iff h] at hroom
  rcases hleast with ⟨rfl, -⟩ | ⟨c, hc, -, hpass, -⟩
  · unfold allocZeroed allocWithAlignmentAux
    simp only [bind, Except.bind, hr]
    by_cases hlarge : req.1 > m.top - area.botOfHeap
    · rw [if_pos hlarge]
      exact ⟨_, rfl⟩
    · rw [if_neg hlarge]
      have hbot := hroom.2.resolve_left (not_not.mpr (BitVec.not_lt.mp hlarge))
      rw [if_pos (BitVec.not_le.mp hbot)]
      exact ⟨_, rfl⟩
  · exact absurd ⟨c, hc, hpass⟩ hroom.1

/-- A split does not change the nodes, whatever the sizes are. -/
theorem splitAlignment_sameNodes {c : U64} (hfit : ¬m.chunkSize c < size + padding c alignment) :
    ∃ m', m.splitAlignment c size alignment = .ok (m', c + padding c alignment) ∧ SameNodes m m' := by
  unfold splitAlignment
  rw [← padding]
  dsimp only
  rw [if_neg hfit]
  refine ⟨_, rfl, ?_⟩
  have hpush : ∀ (m' : Mempool) (b : Prop) [Decidable b] (addr n : U64),
      SameNodes m m' → SameNodes m (if b then m'.allocateFreeChunk addr n else m') := by
    intro m' b _ addr n hsame
    split
    · exact hsame.trans (allocateFreeChunk_frame m' addr n).1
    · exact hsame
  exact hpush _ _ _ _ (hpush _ _ _ _
    ((removeChunk_frame m c).1.trans (allocateFreeChunk_frame (m.removeChunk c) (c + padding c alignment) size).1))

/-- With room, and a node for the block, a request returns. -/
theorem allocZeroed_returns {req : U64 × U64} (h : Heap area last m la lu free) (hnode : m.chunkUnallocList ≠ none)
    (hroom : m.HasRoom area req.1 req.2) : ∃ r, m.allocZeroed area req = .ok r := by
  obtain ⟨r, hr, hleast⟩ := findBest_least h.freeIn req.1 req.2
  rw [HasRoom, somePasses_iff h.freeIn] at hroom
  have halloc : ∀ m' : Mempool, SameNodes m m' → ∀ p n, ∃ m'', m'.alloclistAlloc p n = .ok m'' := by
    intro m' hsame p n
    unfold alloclistAlloc
    rw [hsame.unalloc]
    cases hlist : m.chunkUnallocList with
    | none => exact absurd hlist hnode
    | some i => exact ⟨_, rfl⟩
  unfold allocZeroed allocWithAlignmentAux
  simp only [bind, Except.bind, hr]
  rcases hleast with ⟨rfl, hnone⟩ | ⟨c, hc, rfl, hpass, -⟩
  · obtain ⟨hle, hbot⟩ := hroom.resolve_left fun ⟨c, hc, hp⟩ => hnone c hc hp
    obtain ⟨m'', hm''⟩ := halloc { m with top := alignPow2 (m.top - req.1) req.2 } ⟨rfl, rfl, rfl⟩
      (alignPow2 (m.top - req.1) req.2) (m.top - alignPow2 (m.top - req.1) req.2)
    dsimp only
    rw [if_neg (BitVec.not_lt.mpr hle), if_neg (BitVec.not_lt.mpr hbot), hm'']
    exact ⟨_, rfl⟩
  · have hfit : ¬m.chunkSize c.start < req.1 + padding c.start req.2 := by
      rw [h.headers.size c hc]
      exact BitVec.not_lt.mpr (BitVec.le_of_lt hpass)
    obtain ⟨m₁, hsplit, hsame⟩ := splitAlignment_sameNodes hfit
    obtain ⟨m₂, hm₂⟩ := halloc m₁ hsame (c.start + padding c.start req.2) req.1
    dsimp only
    rw [hsplit]
    dsimp only
    rw [hm₂]
    exact ⟨_, rfl⟩

/-- **When a request fails with the pool as it was**, as long as a node is left. -/
theorem allocZeroed_untouched_iff {req : U64 × U64} (h : Heap area last m la lu free) (hnode : m.chunkUnallocList ≠ none) :
    (∃ e, m.allocZeroed area req = .error (e, m)) ↔ ¬m.HasRoom area req.1 req.2 := by
  refine ⟨?_, allocZeroed_untouched h.freeIn⟩
  rintro ⟨e, he⟩ hroom
  obtain ⟨r, hr⟩ := allocZeroed_returns h hnode hroom
  rw [he] at hr
  cases hr

/-- No sum of the test of the search is 2^64 or more, where a chunk passes it. -/
def NoWrap (area : HeapArea) (m : Mempool) (size alignment : U64) : Prop :=
  ∀ l, m.freeChunks area = .ok l → ∀ c ∈ l, size + padding c alignment < m.chunkSize c →
    size.toNat + (padding c alignment).toNat < 2 ^ 64

/-- A request for more than the heap has room only by a sum that wraps. -/
theorem hasRoom_iff_of_oversized (h : Heap area last m la lu free)
    (hsize : area.topOfHeap.toNat - area.botOfHeap.toNat < size.toNat) :
    m.HasRoom area size alignment ↔ ¬m.NoWrap area size alignment := by
  have hheap : ∀ c ∈ free, c.size.toNat ≤ area.topOfHeap.toNat - area.botOfHeap.toNat := fun c hc => by
    obtain ⟨h1, h2⟩ := h.layout.inside c (List.mem_append_left _ hc)
    have h3 := h.layout.bot
    have h4 := h.layout.lastLe
    rw [Chunk.hi_eq] at h2
    omega
  have hnotop : ¬(size ≤ m.top - area.botOfHeap ∧ area.botOfHeap ≤ alignPow2 (m.top - size) alignment) := by
    rintro ⟨hle, -⟩
    have h1 := h.layout.bot
    have h2 := h.layout.topLe.trans h.layout.lastLe
    rw [BitVec.le_def, BitVec.toNat_sub_of_le (BitVec.le_def.mpr h1)] at hle
    omega
  rw [HasRoom, or_iff_left hnotop, somePasses_iff h.freeIn, NoWrap, freeChunks_ok h.headers h.layout.length_lt]
  constructor
  · rintro ⟨c, hc, hpass⟩ hwrap
    have hlt := hwrap _ rfl c.start (List.mem_map_of_mem hc) (by rw [h.headers.size c hc]; exact hpass)
    have hfit := (passes_iff hlt).mp hpass
    have := hheap c hc
    omega
  · intro hwrap
    by_contra hno
    refine hwrap fun l hl a ha hpass => ?_
    cases hl
    obtain ⟨c, hc, rfl⟩ := List.mem_map.mp ha
    rw [h.headers.size c hc] at hpass
    exact absurd ⟨c, hc, hpass⟩ hno

/-! ## What `alloc` asks for -/

/-- What `is_pow2` accepts is a power of two. -/
theorem isPow2_loop {n : Nat} {i : U64} (h : Loop.untilReturn (fun i : U64 =>
    if i = 0 then .inr false else if i % 2 = 1 then .inr (decide (i = 1)) else .inl (i >>> 1)) n i = some true) :
    ∃ j, i.toNat = 2 ^ j := by
  induction n generalizing i with
  | zero => cases h
  | succ n ih =>
    rw [Loop.untilReturn] at h
    by_cases h0 : i = 0
    · rw [if_pos h0] at h
      cases h
    · rw [if_neg h0] at h
      by_cases hodd : i % 2 = 1
      · rw [if_pos hodd] at h
        exact ⟨0, congrArg BitVec.toNat (of_decide_eq_true (Option.some.inj h))⟩
      · rw [if_neg hodd] at h
        obtain ⟨j, hj⟩ := ih h
        rw [BitVec.toNat_ushiftRight, Nat.shiftRight_eq_div_pow] at hj
        have heven : i.toNat % 2 ≠ 1 := fun hone => hodd (BitVec.eq_of_toNat_eq (by rw [BitVec.toNat_umod]; exact hone))
        refine ⟨j + 1, ?_⟩
        rw [Nat.pow_succ]
        omega

theorem isPow2_two_pow (h : isPow2 size = true) : ∃ j, size.toNat = 2 ^ j := by
  unfold isPow2 at h
  dsimp only at h
  generalize hrun : Loop.untilReturn _ 65 size = r at h
  cases r with
  | none => cases h
  | some b =>
    rw [Option.getD_some] at h
    rw [h] at hrun
    exact isPow2_loop hrun

/-- The size to which `alloc` rounds. -/
theorem allocRound_bounds (size : U64) : ∃ s : U64, (if isPow2 size then size else nextLargestPow2 size) = s ∧
    (∃ j, j < 64 ∧ s.toNat = 2 ^ j) ∧ (size.toNat ≤ 2 ^ 63 → size.toNat ≤ s.toNat) := by
  refine ⟨_, rfl, ?_⟩
  split
  · rename_i hpow
    obtain ⟨j, hj⟩ := isPow2_two_pow hpow
    have hlt := size.isLt
    rw [hj] at hlt
    exact ⟨⟨j, (Nat.pow_lt_pow_iff_right (by decide)).mp hlt, hj⟩, fun _ => Nat.le_refl _⟩
  · rename_i hpow
    constructor
    · have hmod := Nat.mod_lt (countBits size) (show 0 < 64 by decide)
      exact ⟨_, hmod, by rw [nextLargestPow2, toNat_one_shiftLeft hmod]⟩
    · intro hsize
      have hlt : size.toNat < 2 ^ 63 := by
        refine Nat.lt_of_le_of_ne hsize fun heq => hpow ?_
        have heq' : size = 0x8000000000000000 := BitVec.eq_of_toNat_eq heq
        rw [heq']
        decide +kernel
      exact Nat.le_of_lt (nextLargestPow2_bounds hlt).1

/-- What `alloc` asks for: a power of two from 32 on, and at least the size if this is at most 2^63. -/
theorem allocRequest_bounds (size : U64) : (∃ j, 5 ≤ j ∧ j < 64 ∧ (allocRequest size).1.toNat = 2 ^ j) ∧
    (allocRequest size).2 = 8 ∧ (size.toNat ≤ 2 ^ 63 → size.toNat ≤ (allocRequest size).1.toNat) := by
  obtain ⟨s, hs, ⟨j, hj, hpow⟩, hle⟩ := allocRound_bounds size
  have hmin : (32#64).toNat = 32 := rfl
  rw [allocRequest_eq hs]
  refine ⟨?_, rfl, ?_⟩
  · split
    · exact ⟨5, Nat.le_refl 5, by decide, hmin⟩
    · rename_i hlt
      refine ⟨j, ?_, hj, hpow⟩
      by_contra hno
      have hle' := Nat.pow_le_pow_right (show 0 < 2 by decide) (show j ≤ 4 by omega)
      omega
  · intro h
    have hsize := hle h
    split
    · dsimp only
      omega
    · exact hsize

/-- With its padding this is less than 2^64. -/
theorem allocRequest_padded (size c : U64) :
    (allocRequest size).1.toNat + (padding c (allocRequest size).2).toNat < 2 ^ 64 := by
  obtain ⟨⟨j, -, hj, hpow⟩, halign, -⟩ := allocRequest_bounds size
  have hmax : 2 ^ j ≤ 2 ^ 63 := Nat.pow_le_pow_right (by decide) (by omega)
  have hpad := padding_le c (show 0 < (8 : U64).toNat by decide)
  rw [show (8 : U64).toNat = 8 from rfl] at hpad
  rw [halign]
  omega

/-- Above 2^63 `alloc` asks for 32 bytes. -/
theorem allocRequest_wrapped (hsize : 2 ^ 63 < size.toNat) : allocRequest size = (32#64, 8#64) := by
  have hpow : ¬isPow2 size = true := fun htrue => by
    obtain ⟨j, hj⟩ := isPow2_two_pow htrue
    have hlt := size.isLt
    rw [hj] at hsize hlt
    have h1 := (Nat.pow_lt_pow_iff_right (show 1 < 2 by decide)).mp hsize
    have h2 := (Nat.pow_lt_pow_iff_right (show 1 < 2 by decide)).mp hlt
    omega
  have hnext : nextLargestPow2 size = 1 := by
    obtain ⟨r, hr, hrun, hlt, -⟩ := @countBits_loop 64 0 size size.isLt
    have hr64 : r = 64 := by
      by_contra hne
      have := Nat.pow_le_pow_right (show 0 < 2 by decide) (show r ≤ 63 by omega)
      omega
    unfold nextLargestPow2 countBits
    dsimp only
    rw [hrun, hr64]
    rfl
  exact allocRequest_eq ((if_neg hpow).trans hnext)

end Mempool

/-! ## Oversized requests -/

/-- What goes well with a call: `alloc` shifts by less than 64 or finds no room, and no chunk passes the test only because
the sum wraps. -/
def VallocOp.Guarded (area : HeapArea) (m : Mempool) : VallocOp → Prop
  | .alloc size => size.toNat ≤ 2 ^ 63 ∨ ¬m.HasRoom area 32 8
  | .allocWithAlignment size alignment =>
    m.NoWrap area (Mempool.alignmentRequest size alignment).1 (Mempool.alignmentRequest size alignment).2
  | .free _ => True
  | .write => True

section Runs

variable {area : HeapArea} {heap : Bytes.Mem} {m : Mempool} {steps : List (Mempool × VallocOp)} {op : VallocOp}
  {la lu : List Nat} {free : List Chunk} {last : Nat}

/-- What an oversized call asks for has room if and only if the call is not guarded. -/
theorem VallocOp.Oversized.hasRoom_iff (hover : op.Oversized area) (h : Mempool.Heap area last m la lu free) :
    ∃ req, (op.FailsUntouched area m ↔ ∃ e, m.allocZeroed area req = .error (e, m)) ∧
      (m.HasRoom area req.1 req.2 ↔ ¬op.Guarded area m) := by
  have harea : (area.topOfHeap - area.botOfHeap).toNat = area.topOfHeap.toNat - area.botOfHeap.toNat :=
    BitVec.toNat_sub_of_le (BitVec.le_def.mpr area.le)
  cases op with
  | «alloc» size =>
    refine ⟨Mempool.allocRequest size, Iff.rfl, ?_⟩
    have hsize : area.topOfHeap.toNat - area.botOfHeap.toNat < size.toNat := harea ▸ BitVec.lt_def.mp hover
    by_cases hle : size.toNat ≤ 2 ^ 63
    · have hreq := (Mempool.allocRequest_bounds size).2.2 hle
      rw [Mempool.hasRoom_iff_of_oversized h (Nat.lt_of_lt_of_le hsize hreq)]
      exact iff_of_false (not_not.mpr fun _ _ c _ _ => Mempool.allocRequest_padded size c) (not_not.mpr (.inl hle))
    · rw [Mempool.allocRequest_wrapped (Nat.lt_of_not_le hle), VallocOp.Guarded, or_iff_right hle, not_not]
      rfl
  | «allocWithAlignment» size alignment =>
    have hsize : area.topOfHeap.toNat - area.botOfHeap.toNat < size.toNat := harea ▸ BitVec.lt_def.mp hover.1
    refine ⟨Mempool.alignmentRequest size alignment, Iff.rfl, Mempool.hasRoom_iff_of_oversized h ?_⟩
    apply Nat.lt_of_lt_of_le hsize
    unfold Mempool.alignmentRequest
    by_cases hlt : size < sizeofFreeChunk
    · have hmin : (32#64).toNat = 32 := rfl
      simp only [hlt, if_true]
      rw [nextLargestPow2_sizeofFreeChunk]
      rw [lt_sizeofFreeChunk] at hlt
      omega
    · simp only [hlt, if_false]
      exact Nat.le_refl _
  | «free» p => exact absurd hover id
  | «write» => exact absurd hover id

/-- **A guarded call for more than the heap fails with the pool as it was**, in every state of a run whose calls do not
wrap; one that is not guarded does not, as long as a node is left for the block. -/
theorem oversized_untouched (hrun : VallocRun area heap steps m) (hfits : ∀ s ∈ steps, s.2.Fits area s.1)
    (hover : op.Oversized area) : (op.Guarded area m → op.FailsUntouched area m) ∧
      (m.chunkUnallocList ≠ none → op.FailsUntouched area m → op.Guarded area m) := by
  obtain ⟨la, lu, free, last, hheap, -⟩ := vallocRun_heap hrun hfits
  obtain ⟨req, hfails, hroom⟩ := hover.hasRoom_iff hheap
  rw [hfails]
  constructor
  · intro hguarded
    exact Mempool.allocZeroed_untouched hheap.freeIn fun h => hroom.mp h hguarded
  · intro hnode huntouched
    by_contra hno
    exact (Mempool.allocZeroed_untouched_iff hheap hnode).mp huntouched (hroom.mpr hno)

/-- A request for 1 MiB in a heap of 8 KiB. -/
theorem oversized_untouched_mebibyte :
    (VallocOp.alloc 0x100000).FailsUntouched smallArea (initValloc smallArea fun _ => 0) := by
  have hover : (VallocOp.alloc 0x100000).Oversized smallArea :=
    (by decide : smallArea.topOfHeap - smallArea.botOfHeap < 0x100000)
  exact (oversized_untouched VallocRun.init (fun s hs => absurd hs List.not_mem_nil) hover).1 (.inl (by decide))

/-- Two requests that are not guarded, and return a block: one above 2^63, and one for which 32 bytes less than the
padding are missing to 2^64. -/
theorem oversized_wrapped : (∃ m', (initValloc smallArea fun _ => 0).alloc smallArea (1#64 <<< 63 + 1) = .ok (m', 0x11fe0)) ∧
    ∃ steps m m', VallocRun smallArea (fun _ => 0) steps m ∧
      m.allocWithAlignment smallArea (-160) (1#64 <<< 7) = .ok (m', 0x12080) := by
  constructor
  · have hrun : ((initValloc smallArea fun _ => 0).alloc smallArea (1#64 <<< 63 + 1)).toOption.map (fun r => r.2) =
        some 0x11fe0 := by
      decide +kernel
    obtain ⟨⟨m', p⟩, hr, rfl⟩ := Option.map_eq_some_iff.mp hrun
    exact ⟨m', ok_of_toOption hr⟩
  · have hrun : ((Reach.run (fun m (op : VallocOp) => op.exec smallArea m) (initValloc smallArea fun _ => 0)
        [.alloc 64, .alloc 64, .free 0x11fc0]).bind fun m =>
          (m.allocWithAlignment smallArea (-160) (1#64 <<< 7)).toOption).map (fun r => r.2) = some 0x12080 := by
      decide +kernel
    obtain ⟨⟨m', p⟩, hr, rfl⟩ := Option.map_eq_some_iff.mp hrun
    obtain ⟨m, hm, hcall⟩ := Option.bind_eq_some_iff.mp hr
    obtain ⟨steps, hsteps, -⟩ := vallocRun_exec hm
    exact ⟨steps, m, m', hsteps, ok_of_toOption hcall⟩

end Runs

end LitmusHarness
