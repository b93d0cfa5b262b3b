import LitmusHarness.Valloc.Alignment
import LitmusHarness.Valloc.Safety

/-!
# The best fit: `valloc_freelist_find_best`

The search returns the first of the smallest chunks that pass its test (`findBest_least`). The test adds the padding of
`ALIGN_UP_TO` to the size in 64 bits and asks for more than that. So it passes over chunks that contain an aligned block:
those whose start is aligned and which have just the size, and those whose start is not aligned, for which the padding is
one alignment too much. Hence the search is a best fit if and only if a smallest chunk that contains an aligned block has
that much room (`findBest_bestFit_iff`).
-/

namespace LitmusHarness

/-- An aligned block of `size` bytes lies in the chunk. -/
def Chunk.Contains (c : Chunk) (size k : Nat) : Prop := ∃ p, 2 ^ k ∣ p ∧ c.lo ≤ p ∧ p + size ≤ c.hi

/-- The chunk is one of the smallest that contain an aligned block. -/
def Chunk.Fittest (c : Chunk) (free : List Chunk) (size k : Nat) : Prop :=
  c ∈ free ∧ c.Contains size k ∧ ∀ d ∈ free, d.Contains size k → c.size ≤ d.size

/-- What a search for an aligned block should return: a smallest chunk that contains one, if there is one. -/
def BestFit (free : List Chunk) (size k : Nat) : Option U64 → Prop
  | none => ∀ c ∈ free, ¬c.Contains size k
  | some a => ∃ c : Chunk, c.Fittest free size k ∧ c.start = a

namespace Mempool

variable {area : HeapArea} {m : Mempool} {free seen l : List Chunk} {c d : Chunk} {size alignment : U64} {k : Nat}

/-- The chunk passes the test of the search. -/
def Passes (c : Chunk) (size alignment : U64) : Prop := size + padding c.start alignment < c.size

/-! ## The loop -/

/-- What the loop knows of the chunks that it has seen: none has passed the test, or `acc` has a smallest of those that
have. -/
def Least (seen : List Chunk) (size alignment : U64) (acc : U64 × Option U64) : Prop :=
  (acc = (~~~0, none) ∧ ∀ c ∈ seen, ¬Passes c size alignment) ∨
    ∃ c ∈ seen, acc = (c.size, some c.start) ∧ Passes c size alignment ∧
      ∀ d ∈ seen, Passes d size alignment → c.size ≤ d.size

theorem least_step {acc : U64 × Option U64} (h : Least seen size alignment acc) (hsize : m.chunkSize c.start = c.size)
    (hlt : c.size < ~~~0) : Least (c :: seen) size alignment (m.bestStep size alignment acc c.start) := by
  unfold bestStep
  dsimp only
  rw [hsize, ← padding]
  by_cases hpass : Passes c size alignment
  · by_cases hless : c.size < acc.1
    · -- the chunk is taken, and is smaller than the one before
      rw [if_pos (by rw [Bool.and_eq_true, decide_eq_true_eq, decide_eq_true_eq]; exact ⟨hpass, hless⟩)]
      refine .inr ⟨c, List.mem_cons_self, rfl, hpass, List.forall_mem_cons.mpr ⟨fun _ => BitVec.le_refl _, ?_⟩⟩
      intro d hd hdp
      rcases h with ⟨-, hnone⟩ | ⟨e, -, rfl, -, hmin⟩
      · exact absurd hdp (hnone d hd)
      · exact BitVec.le_trans (BitVec.le_of_lt hless) (hmin d hd hdp)
    · rw [if_neg (by rw [Bool.and_eq_true, decide_eq_true_eq, decide_eq_true_eq]; exact fun hc => hless hc.2)]
      rcases h with ⟨rfl, -⟩ | ⟨e, he, rfl, hep, hmin⟩
      · exact absurd hlt hless
      · exact .inr ⟨e, List.mem_cons_of_mem c he, rfl, hep,
          List.forall_mem_cons.mpr ⟨fun _ => BitVec.not_lt.mp hless, hmin⟩⟩
  · rw [if_neg (by rw [Bool.and_eq_true, decide_eq_true_eq, decide_eq_true_eq]; exact fun hc => hpass hc.1)]
    rcases h with ⟨rfl, hnone⟩ | ⟨e, he, rfl, hep, hmin⟩
    · exact .inl ⟨rfl, List.forall_mem_cons.mpr ⟨hpass, hnone⟩⟩
    · exact .inr ⟨e, List.mem_cons_of_mem c he, rfl, hep,
        List.forall_mem_cons.mpr ⟨fun hcp => absurd hcp hpass, hmin⟩⟩

theorem least_foldl (hsize : ∀ c ∈ l, m.chunkSize c.start = c.size) (hlt : ∀ c ∈ l, c.size < ~~~0)
    {acc : U64 × Option U64} (h : Least seen size alignment acc) :
    Least (l.reverse ++ seen) size alignment ((l.map Chunk.start).foldl (m.bestStep size alignment) acc) := by
  induction l generalizing seen acc with
  | nil => exact h
  | cons c l ih =>
    obtain ⟨hsc, hsl⟩ := List.forall_mem_cons.mp hsize
    obtain ⟨hlc, hll⟩ := List.forall_mem_cons.mp hlt
    rw [List.map_cons, List.foldl_cons, List.reverse_cons, List.append_assoc, List.singleton_append]
    exact ih hsl hll (least_step h hsc hlc)

/-- A freelist whose chunks lie below the top of the heap. -/
structure FreeIn (area : HeapArea) (m : Mempool) (free : List Chunk) : Prop where
  headers : Free m free
  size : ∀ c ∈ free, 24 ≤ c.size.toNat
  hi : ∀ c ∈ free, c.hi ≤ area.topOfHeap.toNat

section FreeIn

variable (h : FreeIn area m free)

include h

theorem FreeIn.size_le (hc : c ∈ free) : 0 < c.lo ∧ c.lo + c.size.toNat ≤ 2 ^ 48 := by
  have hpos : c.lo ≠ 0 := fun h0 => h.headers.pos c hc (BitVec.eq_of_toNat_eq h0)
  have hhi := h.hi c hc
  have hfits := area.fits
  rw [Chunk.hi_eq] at hhi
  omega

/-- There are fewer free chunks than bytes. -/
theorem FreeIn.length_lt : free.length < area.topOfHeap.toNat := by
  have hnodup : (free.map Chunk.lo).Nodup := by
    have hstarts := h.headers.linked.nodup
    rw [show free.map Chunk.lo = (free.map Chunk.start).map BitVec.toNat from by rw [List.map_map]; rfl]
    exact hstarts.map fun a b => BitVec.eq_of_toNat_eq
  have hsub : free.map Chunk.lo ⊆ List.range' 1 (area.topOfHeap.toNat - 1) := by
    intro n hn
    obtain ⟨c, hc, rfl⟩ := List.mem_map.mp hn
    have h1 := (h.size_le hc).1
    have h2 := h.hi c hc
    have h3 := h.size c hc
    rw [Chunk.hi_eq] at h2
    exact List.mem_range'_1.mpr (by omega)
  have hlen := (List.subperm_of_subset hnodup hsub).length_le
  rw [List.length_map, List.length_range'] at hlen
  have hpos := area.pos
  have hle := area.le
  omega

/-- **The search finds a smallest chunk that passes its test.** -/
theorem findBest_least (size alignment : U64) : ∃ r, m.findBest area size alignment = .ok r ∧
    (r = none ∧ (∀ c ∈ free, ¬Passes c size alignment) ∨ ∃ c ∈ free, r = some c.start ∧ Passes c size alignment ∧
      ∀ d ∈ free, Passes d size alignment → c.size ≤ d.size) := by
  refine ⟨((free.map Chunk.start).foldl (m.bestStep size alignment) (~~~0, none)).2, ?_, ?_⟩
  · rw [findBest, freeChunks_ok h.headers h.length_lt]
    rfl
  · have hlt : ∀ c ∈ free, c.size < ~~~0 := fun c hc => by
      have hle := (h.size_le hc).2
      rw [BitVec.lt_def, show (~~~(0 : U64)).toNat = 2 ^ 64 - 1 from rfl]
      omega
    have hnil : Least [] size alignment (~~~0, none) := .inl ⟨rfl, fun c hc => absurd hc List.not_mem_nil⟩
    have hleast := least_foldl h.headers.size hlt hnil
    have hmem : ∀ c, c ∈ free.reverse ++ [] ↔ c ∈ free := fun c => by rw [List.append_nil, List.mem_reverse]
    rcases hleast with ⟨heq, hnone⟩ | ⟨c, hc, heq, hpass, hmin⟩
    · exact .inl ⟨congrArg Prod.snd heq, fun c hc => hnone c ((hmem c).mpr hc)⟩
    · exact .inr ⟨c, (hmem c).mp hc, congrArg Prod.snd heq, hpass, fun d hd => hmin d ((hmem d).mpr hd)⟩

/-! ## The test -/

omit h in
/-- With the padding the start is aligned. -/
theorem two_pow_dvd_padded (hk : k < 64) : 2 ^ k ∣ c.lo + (padding c.start (1#64 <<< k)).toNat :=
  two_pow_dvd_add_alignUpTo_sub c.start hk

omit h in
/-- A chunk with room for the block and the padding contains an aligned block. -/
theorem contains_of_room (hk : k < 64)
    (hroom : size.toNat + (padding c.start (1#64 <<< k)).toNat ≤ c.size.toNat) : c.Contains size.toNat k := by
  refine ⟨_, two_pow_dvd_padded hk, Nat.le_add_right _ _, ?_⟩
  rw [Chunk.hi_eq]
  omega

/-- If a chunk contains an aligned block, no sum of the test is 2^64 or more. -/
theorem FreeIn.no_wrap (hk : k < 64) (hc : c ∈ free) (hcontains : c.Contains size.toNat k) (d : U64) :
    size.toNat + (padding d (1#64 <<< k)).toNat < 2 ^ 64 := by
  obtain ⟨p, hdvd, hlo, hhi⟩ := hcontains
  obtain ⟨hpos, hle⟩ := h.size_le hc
  rw [Chunk.hi_eq] at hhi
  have hpow : 2 ^ k ≤ p := Nat.le_of_dvd (Nat.lt_of_lt_of_le hpos hlo) hdvd
  have halign : (1#64 <<< k).toNat = 2 ^ k := toNat_one_shiftLeft hk
  have hpad := padding_le d (halign ▸ Nat.two_pow_pos k)
  rw [halign] at hpad
  omega

omit h in
/-- The test, where the sum is less than 2^64. -/
theorem passes_iff (hlt : size.toNat + (padding c.start alignment).toNat < 2 ^ 64) :
    Passes c size alignment ↔ size.toNat + (padding c.start alignment).toNat < c.size.toNat := by
  rw [Passes, BitVec.lt_def, BitVec.toNat_add, Nat.mod_eq_of_lt hlt]

/-- **When the search is a best fit**: no chunk passes the test only because the sum wraps, and if some chunk contains an
aligned block, then a smallest of these is larger than the block with the padding of `ALIGN_UP_TO`. -/
theorem findBest_bestFit_iff (size : U64) (hk : k < 64) :
    (∃ r, m.findBest area size (1#64 <<< k) = .ok r ∧ BestFit free size.toNat k r) ↔
      (∀ c ∈ free, size + padding c.start (1#64 <<< k) < c.size →
        size.toNat + (padding c.start (1#64 <<< k)).toNat < 2 ^ 64) ∧
      ((∃ c ∈ free, c.Contains size.toNat k) → ∃ c : Chunk, c.Fittest free size.toNat k ∧
        size.toNat + (padding c.start (1#64 <<< k)).toNat < c.size.toNat) := by
  obtain ⟨r, hr, hleast⟩ := findBest_least h size (1#64 <<< k)
  have hresult : (∃ r, m.findBest area size (1#64 <<< k) = .ok r ∧ BestFit free size.toNat k r) ↔
      BestFit free size.toNat k r := by
    rw [hr]
    constructor
    · rintro ⟨r', heq, hbest⟩
      cases heq
      exact hbest
    · exact fun hbest => ⟨r, rfl, hbest⟩
  rw [hresult]
  constructor
  · intro hbest
    rcases hleast with ⟨rfl, hnone⟩ | ⟨c, hc, rfl, hpass, -⟩
    · exact ⟨fun c hc hpass => absurd hpass (hnone c hc), fun ⟨c, hc, hcontains⟩ => absurd hcontains (hbest c hc)⟩
    · obtain ⟨d, hfit, hstart⟩ := hbest
      cases h.headers.eq_of_start hfit.1 hc hstart
      have hwrap := fun e : U64 => h.no_wrap hk hc hfit.2.1 e
      exact ⟨fun e _ _ => hwrap e.start, fun _ => ⟨c, hfit, (passes_iff (hwrap c.start)).mp hpass⟩⟩
  · rintro ⟨hwrap, hfit⟩
    rcases hleast with ⟨rfl, hnone⟩ | ⟨c, hc, rfl, hpass, hmin⟩
    · intro c hc hcontains
      obtain ⟨d, hd, hlt⟩ := hfit ⟨c, hc, hcontains⟩
      exact hnone d hd.1 ((passes_iff (h.no_wrap hk hc hcontains d.start)).mpr hlt)
    · have hcontains : c.Contains size.toNat k :=
        contains_of_room hk (Nat.le_of_lt ((passes_iff (hwrap c hc hpass)).mp hpass))
      obtain ⟨d, hd, hlt⟩ := hfit ⟨c, hc, hcontains⟩
      -- a smallest chunk passes, so the chosen one is no larger
      have hdp := (passes_iff (h.no_wrap hk hc hcontains d.start)).mpr hlt
      exact ⟨c, ⟨hc, hcontains, fun e he hec => BitVec.le_trans (hmin d hd.1 hdp) (hd.2.2 e he hec)⟩, rfl⟩

end FreeIn

/-- The freelist of a heap. -/
theorem Heap.freeIn {la lu : List Nat} {last : Nat} (h : Heap area last m la lu free) : FreeIn area m free where
  headers := h.headers
  size := fun c hc => h.layout.size c (List.mem_append_left _ hc)
  hi := fun c hc => (h.layout.inside c (List.mem_append_left _ hc)).2.trans h.layout.lastLe

/-- Two blocks of 64 bytes, and the upper one freed: a chunk of 64 bytes. -/
theorem freeIn_oneChunk : ∃ steps m, VallocRun smallArea (fun _ => 0) steps m ∧ FreeIn smallArea m [⟨0x11fc0, 64⟩] ∧
    m.findBest smallArea 64 (1#64 <<< 6) = .ok none := by
  have hrun : ((((VallocOp.alloc 64).exec smallArea (initValloc smallArea fun _ => 0)).bind fun m =>
      (VallocOp.alloc 64).exec smallArea m).bind fun m => (VallocOp.free 0x11fc0).exec smallArea m).map (fun m =>
        ((m.freeChunks smallArea).toOption, m.chunkSize 0x11fc0, (m.findBest smallArea 64 (1#64 <<< 6)).toOption)) =
      some (some [0x11fc0], 64, some none) := by
    decide +kernel
  obtain ⟨m, hm, heq⟩ := Option.map_eq_some_iff.mp hrun
  obtain ⟨m₂, hm₂, hm⟩ := Option.bind_eq_some_iff.mp hm
  obtain ⟨m₁, hm₁, hm₂⟩ := Option.bind_eq_some_iff.mp hm₂
  simp only [Prod.mk.injEq] at heq
  obtain ⟨hlist, hsize, hbest⟩ := heq
  have hsteps := ((VallocRun.init.step (VallocOp.exec_step hm₁)).step (VallocOp.exec_step hm₂)).step
    (VallocOp.exec_step hm)
  have hproper : (VallocOp.alloc 64).Proper smallArea := (by decide : (64 : U64) ≤ 0x12000 - 0x10000)
  have hproper' : (VallocOp.free 0x11fc0).Proper smallArea := trivial
  obtain ⟨la, lu, free, last, hheap, -⟩ := vallocRun_heap hsteps
    (List.forall_mem_cons.mpr ⟨hproper'.fits, List.forall_mem_cons.mpr
      ⟨hproper.fits, List.forall_mem_cons.mpr ⟨hproper.fits, fun s hs => absurd hs List.not_mem_nil⟩⟩⟩)
  -- the freelist is the list that the loop visits
  have hfree : free = [⟨0x11fc0, 64⟩] := by
    have hstarts := ok_of_toOption hlist
    rw [freeChunks_ok hheap.headers hheap.layout.length_lt] at hstarts
    obtain ⟨c, hc, hstart⟩ := List.map_eq_singleton_iff.mp (Except.ok.inj hstarts)
    have hcs := hheap.headers.size c (by rw [hc]; exact List.mem_cons_self)
    rw [hstart, hsize] at hcs
    rw [hc, hcs, ← hstart]
  exact ⟨_, m, hsteps, hfree ▸ hheap.freeIn, ok_of_toOption hbest⟩

/-- A block of 32 bytes in the chunk. -/
theorem findBest_bestFit_iff_half : ∃ (m : Mempool) (r : Option U64), m.findBest smallArea 32 (1#64 <<< 5) = .ok r ∧
    BestFit [⟨0x11fc0, 64⟩] (32#64).toNat 5 r := by
  obtain ⟨-, m, -, hfree, -⟩ := freeIn_oneChunk
  have hroom : (32#64).toNat + (padding 0x11fc0 (1#64 <<< 5)).toNat < (64#64).toNat := by decide +kernel
  refine ⟨m, (findBest_bestFit_iff hfree 32 (by decide : 5 < 64)).mpr ⟨fun c hc _ => ?_, fun _ => ?_⟩⟩
  · rw [List.mem_singleton.mp hc]
    exact Nat.lt_trans hroom (by decide)
  · refine ⟨⟨0x11fc0, 64⟩, ⟨List.mem_cons_self, contains_of_room (by decide) (Nat.le_of_lt hroom), ?_⟩, hroom⟩
    intro d hd _
    rw [List.mem_singleton.mp hd]
    exact BitVec.le_refl _

/-- The chunk contains an aligned block of its own size, and is not found. -/
theorem findBest_exactSize : ∃ steps m, VallocRun smallArea (fun _ => 0) steps m ∧
    FreeIn smallArea m [⟨0x11fc0, 64⟩] ∧ (⟨0x11fc0, 64⟩ : Chunk).Contains 64 6 ∧
    m.findBest smallArea 64 (1#64 <<< 6) = .ok none := by
  obtain ⟨steps, m, hrun, hfree, hbest⟩ := freeIn_oneChunk
  exact ⟨steps, m, hrun, hfree, ⟨0x11fc0, by decide, by decide, by decide⟩, hbest⟩

end Mempool

end LitmusHarness
