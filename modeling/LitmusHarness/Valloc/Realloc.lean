import LitmusHarness.Valloc.Oversized

/-!
# `realloc`

A new block is allocated, the bytes of the old one are copied to it, and the old one is freed. The number of bytes that
are copied is the size of the old block. If this is at most the size to which `alloc` rounds the request, the copy stays
in the new block: what the two have in common is kept, the other blocks and the headers are not touched, and the old
block is free (`realloc_ok`). So a `realloc` of this kind keeps the heap, like the other calls (`reallocRun_heap`). A
block that shrinks to less is copied beyond the end of the new one, over what is there (`realloc_shrink`).
-/

namespace LitmusHarness

/-- How `realloc` stops without a result: in one of its calls, or because it reads `chk->size` of a null pointer. -/
inductive ReallocFail
  | call (e : VallocFail)
  | nullChunk
  deriving DecidableEq, Repr

namespace Mempool

/-- `valloc_memcpy`. -/
def vallocMemcpy (m : Mempool) (dest src size : U64) : Mempool :=
  { m with
    heap := Bytes.copy m.heap (fun i => (dest + BitVec.ofNat 64 i).toNat) (fun i => (src + BitVec.ofNat 64 i).toNat)
      size.toNat }

/-- `realloc`. -/
def realloc (area : HeapArea) (m : Mempool) (p newSize : U64) : Except (ReallocFail × Mempool) (Mempool × U64) := do
  let call := fun {α : Type} (r : VallocResult α) => r.mapError fun e => (ReallocFail.call e.1, e.2)
  let (m, newP) ← call (m.alloc area newSize)
  match ← call (m.findAllocChunk p) with
  | none => .error (.nullChunk, m)
  | some chk =>
    let m := m.vallocMemcpy newP p (m.chunks chk).size
    let m ← call (m.free area p)
    return (m, newP)

/-- What a `realloc` of the block `p` of `n` bytes to the block `q` does: the bytes that both have are copied, the other
blocks stay as they are, so do the headers while the bytes are copied, and `p` is not allocated any more. -/
structure Realloced (area : HeapArea) (m m' : Mempool) (p n newSize q : U64) : Prop where
  copied : ∀ i, i < min n.toNat newSize.toNat → m'.heap (q.toNat + i) = m.heap (p.toNat + i)
  others : ∀ start size, m.Live start size → start ≠ p →
    ∀ x, start.toNat ≤ x → x < start.toNat + size.toNat → m'.heap x = m.heap x
  headers : ∀ m₁, m.alloc area newSize = .ok (m₁, q) → ∀ l, m₁.freeChunks area = .ok l →
    ∀ c ∈ l, SameHeader m₁ (m₁.vallocMemcpy q p n) c
  freed : ∀ size, ¬m'.Live p size

variable {area : HeapArea} {m m' : Mempool} {la lu : List Nat} {free : List Chunk} {last : Nat} {p n newSize q : U64}

/-- The calls of a `realloc` that returns. -/
theorem realloc_calls (hrun : m.realloc area p newSize = .ok (m', q)) : ∃ m₁ chk,
    m.alloc area newSize = .ok (m₁, q) ∧ m₁.findAllocChunk p = .ok (some chk) ∧
      (m₁.vallocMemcpy q p (m₁.chunks chk).size).free area p = .ok m' := by
  unfold realloc at hrun
  simp only [bind, Except.bind, Except.mapError] at hrun
  cases halloc : m.alloc area newSize with
  | error e =>
    rw [halloc] at hrun
    cases hrun
  | ok r =>
    obtain ⟨m₁, q'⟩ := r
    rw [halloc] at hrun
    dsimp only at hrun
    cases hfind : m₁.findAllocChunk p with
    | error e =>
      rw [hfind] at hrun
      cases hrun
    | ok chk =>
      rw [hfind] at hrun
      cases chk with
      | none => cases hrun
      | some chk =>
        dsimp only at hrun
        cases hfree : (m₁.vallocMemcpy q' p (m₁.chunks chk).size).free area p with
        | error e =>
          rw [hfree] at hrun
          cases hrun
        | ok m₂ =>
          rw [hfree] at hrun
          cases hrun
          exact ⟨m₁, chk, rfl, hfind, hfree⟩

/-- The addresses of a block. -/
theorem toNat_add_of_lt {i : Nat} (h : p.toNat + i < 2 ^ 64) : (p + BitVec.ofNat 64 i).toNat = p.toNat + i := by
  rw [BitVec.toNat_add, BitVec.toNat_ofNat, Nat.mod_eq_of_lt (show i < 2 ^ 64 by omega), Nat.mod_eq_of_lt h]

/-- A copy writes to the destination only. -/
theorem vallocMemcpy_out {x : Nat} (hq : q.toNat + n.toNat < 2 ^ 64) (hx : ¬(q.toNat ≤ x ∧ x < q.toNat + n.toNat)) :
    (m.vallocMemcpy q p n).heap x = m.heap x := by
  refine Bytes.copy_of_not_mem fun i hi => ?_
  rw [toNat_add_of_lt (by omega)]
  omega

/-- A byte is copied, if no earlier one is copied to where it is. -/
theorem vallocMemcpy_byte {i : Nat} (hp : p.toNat + n.toNat < 2 ^ 64) (hq : q.toNat + n.toNat < 2 ^ 64) (hi : i < n.toNat)
    (hsep : ∀ j, j < i → p.toNat + i ≠ q.toNat + j) : (m.vallocMemcpy q p n).heap (q.toNat + i) = m.heap (p.toNat + i) := by
  have hdst : ∀ j, j < n.toNat → (q + BitVec.ofNat 64 j).toNat = q.toNat + j := fun j hj => toNat_add_of_lt (by omega)
  have hsrc : (p + BitVec.ofNat 64 i).toNat = p.toNat + i := toNat_add_of_lt (by omega)
  have hcopy := @Bytes.copy_of_mem m.heap (fun i => (q + BitVec.ofNat 64 i).toNat)
    (fun i => (p + BitVec.ofNat 64 i).toNat) i n.toNat hi
    (fun j h1 h2 => by rw [hdst i hi, hdst j h2]; omega)
    (fun j hj => by rw [hsrc, hdst j (by omega)]; exact hsep j hj)
  rw [hdst i hi, hsrc] at hcopy
  exact hcopy

/-- **A block is copied to another one** that is not smaller. -/
theorem Heap.copy {i j : Nat} (h : Heap area last m la lu free) (hi : i ∈ la) (hj : j ∈ la) (hne : i ≠ j)
    (hq : (m.block i).start = q) (hp : m.block j = ⟨p, n⟩) (hle : n.toNat ≤ (m.block i).size.toNat) :
    Heap area last (m.vallocMemcpy q p n) la lu free ∧
      (∀ k, k < n.toNat → (m.vallocMemcpy q p n).heap (q.toNat + k) = m.heap (p.toNat + k)) ∧
      ∀ x, ¬((m.block i).lo ≤ x ∧ x < (m.block i).hi) → (m.vallocMemcpy q p n).heap x = m.heap x := by
  have hmem : ∀ k ∈ la, m.block k ∈ free ++ m.live la := fun k hk =>
    List.mem_append_right _ (List.mem_map_of_mem hk)
  have hlo : (m.block i).lo = q.toNat := congrArg BitVec.toNat hq
  have hapart := h.blocks_apart hi hj hne
  have hhi := h.layout.hi_lt (hmem i hi)
  have hhi' := h.layout.hi_lt (hmem j hj)
  rw [hp, Chunk.Apart, Chunk.hi_eq, hlo, Chunk.hi_eq ⟨p, n⟩] at hapart
  rw [hp, Chunk.hi_eq] at hhi'
  rw [Chunk.hi_eq, hlo] at hhi
  have hpl : (⟨p, n⟩ : Chunk).lo = p.toNat := rfl
  dsimp only at hapart hhi'
  rw [hpl] at hapart hhi'
  have hcopy : ∀ k, k < n.toNat → (m.vallocMemcpy q p n).heap (q.toNat + k) = m.heap (p.toNat + k) := fun k hk =>
    vallocMemcpy_byte (by omega) (by omega) hk fun l hl => by omega
  have hout : ∀ x, ¬((m.block i).lo ≤ x ∧ x < (m.block i).hi) → (m.vallocMemcpy q p n).heap x = m.heap x := by
    intro x hx
    rw [Chunk.hi_eq, hlo] at hx
    exact vallocMemcpy_out (by omega) (by omega)
  refine ⟨h.write fun x hx => ⟨m.block i, List.mem_map_of_mem hi, ?_⟩, hcopy, hout⟩
  by_contra hno
  exact hx (hout x hno)

/-- The new block beside the old one. -/
theorem alloc_beside (h : Heap area last m la lu free) (hlive : m.Live p n) {m₁ : Mempool}
    (halloc : m.alloc area newSize = .ok (m₁, q)) : ∃ i j lu₁ free₁ last₁, Heap area last₁ m₁ (i :: la) lu₁ free₁ ∧
      j ∈ la ∧ i ∉ la ∧ (m₁.block i).start = q ∧ m₁.block j = ⟨p, n⟩ ∧
      (allocRequest newSize).1.toNat ≤ (m₁.block i).size.toNat ∧ (∀ k ∈ la, m₁.block k = m.block k) ∧
      SameBytes m m₁ (m.live la) := by
  obtain ⟨i, lu₁, free₁, last₁, hheap, hstart, hsize, hother, -, hbytes, -⟩ :=
    allocZeroed_ok h (allocRequest_size newSize) (fun c _ => allocRequest_padded newSize c) halloc
  obtain ⟨j, hj, hblock⟩ := List.mem_map.mp ((live_iff h.nodes).mp hlive)
  have hnodup := hheap.nodes.nodup
  rw [List.cons_append] at hnodup
  exact ⟨i, j, lu₁, free₁, last₁, hheap, hj, fun hi => (List.nodup_cons.mp hnodup).1 (List.mem_append_left _ hi), hstart,
    (hother j hj).trans hblock, hsize, hother, hbytes⟩

/-- **A `realloc` to at least the old size** copies the block, leaves the rest as it is, and keeps the heap. -/
theorem realloc_heap (h : Heap area last m la lu free) (hlive : m.Live p n)
    (hle : n.toNat ≤ (allocRequest newSize).1.toNat) (hrun : m.realloc area p newSize = .ok (m', q)) :
    Realloced area m m' p n newSize q ∧ ∃ la' lu' free' last', Heap area last' m' la' lu' free' := by
  obtain ⟨m₁, chk, halloc, hfind, hfree⟩ := realloc_calls hrun
  obtain ⟨i, j, lu₁, free₁, last₁, hheap₁, hj, hi, hstart, hblock, hsize, hother, hbytes⟩ := alloc_beside h hlive halloc
  have hij : i ≠ j := fun heq => hi (heq ▸ hj)
  -- the node that is found is that of `p`
  have hchk : chk = j := by
    have hfind₁ := hheap₁.findAllocChunk (List.mem_cons_of_mem i hj)
    rw [hblock, hfind] at hfind₁
    exact Option.some.inj (Except.ok.inj hfind₁)
  rw [hchk, show (m₁.chunks j).size = n from congrArg Chunk.size hblock] at hfree
  obtain ⟨hheap₂, hcopy, hkeep⟩ := hheap₁.copy List.mem_cons_self (List.mem_cons_of_mem i hj) hij hstart hblock
    (hle.trans hsize)
  obtain ⟨l₁, l₂, rfl⟩ := List.append_of_mem hj
  have hheap₃ : Heap area _ (m₁.vallocMemcpy q p n) ((i :: l₁) ++ j :: l₂) _ _ := hheap₂
  obtain ⟨m'', free', hfree', hheap', hblocks, hbytes'⟩ := free_ok hheap₃
  rw [show ((m₁.vallocMemcpy q p n).block j).start = p from congrArg Chunk.start hblock, hfree] at hfree'
  cases hfree'
  -- the nodes that are left
  have hnodup : (i :: l₁ ++ j :: l₂).Nodup := List.Nodup.of_append_left hheap₁.nodes.nodup
  have hleft : ∀ k ∈ i :: l₁ ++ l₂, k ∈ i :: (l₁ ++ j :: l₂) ∧ k ≠ j := by
    intro k hk
    refine ⟨List.perm_middle.mem_iff.mpr (List.mem_cons_of_mem j hk), ?_⟩
    rintro rfl
    exact (List.nodup_cons.mp (List.nodup_middle.mp hnodup)).1 hk
  have hstay : ∀ k ∈ i :: l₁ ++ l₂, ∀ x, (m₁.block k).lo ≤ x → x < (m₁.block k).hi →
      m'.heap x = (m₁.vallocMemcpy q p n).heap x := fun k hk => hbytes' _ (List.mem_map_of_mem hk)
  refine ⟨⟨fun k hk => ?_, fun start size hlive' hne x h1 h2 => ?_, fun m₂ hm₂ l hl c hc => ?_, fun size hlive' => ?_⟩,
    _, _, _, _, hheap'⟩
  · -- the bytes of the new block
    have hin : k < n.toNat := Nat.lt_of_lt_of_le hk (Nat.min_le_left _ _)
    have hlo : (m₁.block i).lo = q.toNat := congrArg BitVec.toNat hstart
    rw [hstay i (by simp) _ (by rw [hlo]; exact Nat.le_add_right _ _) (by rw [Chunk.hi_eq, hlo]; omega), hcopy k hin]
    refine hbytes ⟨p, n⟩ ((live_iff h.nodes).mp hlive) _ (Nat.le_add_right _ _) ?_
    exact Nat.add_lt_add_left hin _
  · -- another block
    obtain ⟨k, hk, heq⟩ := List.mem_map.mp ((live_iff h.nodes).mp hlive')
    have hk₁ : m₁.block k = ⟨start, size⟩ := (hother k hk).trans heq
    have hkj : k ≠ j := by
      rintro rfl
      exact hne (congrArg Chunk.start (hk₁.symm.trans hblock))
    have hki : k ≠ i := fun heq => hi (heq ▸ hk)
    have hmem : k ∈ i :: l₁ ++ l₂ :=
      List.mem_cons_of_mem i (List.mem_of_ne_of_mem hkj (List.perm_middle.mem_iff.mp hk))
    have hapart := hheap₁.blocks_apart (List.mem_cons_of_mem i hk) List.mem_cons_self hki
    rw [hk₁, Chunk.Apart] at hapart
    have hsl : (⟨start, size⟩ : Chunk).lo = start.toNat := rfl
    have hsh : (⟨start, size⟩ : Chunk).hi = start.toNat + size.toNat := rfl
    rw [hstay k hmem x (by rw [hk₁]; exact h1) (by rw [hk₁]; exact h2), hkeep x (by omega)]
    exact hbytes ⟨start, size⟩ ((live_iff h.nodes).mp hlive') x h1 h2
  · -- a header
    rw [halloc] at hm₂
    cases hm₂
    rw [freeChunks_ok hheap₁.headers hheap₁.layout.length_lt] at hl
    cases hl
    obtain ⟨d, hd, rfl⟩ := List.mem_map.mp hc
    have hi₁ : m₁.block i ∈ m₁.live (i :: (l₁ ++ j :: l₂)) := List.mem_map_of_mem List.mem_cons_self
    exact .of_heap fun x h1 h2 => hkeep x fun hx => outOfHeaders hheap₁.layout hi₁ hx.1 hx.2 d hd ⟨h1, h2⟩
  · -- no other block has the address
    obtain ⟨k, hk, heq⟩ := List.mem_map.mp ((live_iff hheap'.nodes).mp hlive')
    obtain ⟨hk₁, hkj⟩ := hleft k hk
    have hapart := hheap₁.blocks_apart hk₁ (show j ∈ i :: (l₁ ++ j :: l₂) by simp) hkj
    have hsize₁ := fun e he => hheap₁.layout.size (m₁.block e) (List.mem_append_right _ (List.mem_map_of_mem he))
    have h1 := hsize₁ k hk₁
    have h2 := hsize₁ j (by simp)
    have hk₂ : m₁.block k = ⟨p, size⟩ := (hblocks k).symm.trans heq
    rw [hk₂] at h1
    rw [hblock] at h2
    rw [hk₂, hblock] at hapart
    unfold Chunk.Apart Chunk.hi Chunk.lo at hapart
    dsimp only at h1 h2 hapart
    omega

end Mempool

/-! ## Runs -/

/-- The states that are reached by calls that do not wrap and by `realloc`s to at least the old size. -/
inductive ReallocRun (area : HeapArea) (heap : Bytes.Mem) : Mempool → Prop
  | init : ReallocRun area heap (initValloc area heap)
  | step {m m' : Mempool} {op : VallocOp} :
    ReallocRun area heap m → op.Fits area m → VallocStep area m op m' → ReallocRun area heap m'
  | realloc {m m' : Mempool} {p n newSize q : U64} :
    ReallocRun area heap m → m.Live p n → n.toNat ≤ (Mempool.allocRequest newSize).1.toNat →
      m.realloc area p newSize = .ok (m', q) → ReallocRun area heap m'

variable {area : HeapArea} {heap : Bytes.Mem} {m m' : Mempool} {p n newSize q : U64}

theorem reallocRun_heap (hrun : ReallocRun area heap m) :
    ∃ la lu free last, Mempool.Heap area last m la lu free := by
  induction hrun with
  | init => exact ⟨_, _, _, _, Mempool.initValloc_heap area heap⟩
  | step _ hfits hstep ih =>
    obtain ⟨la, lu, free, last, h⟩ := ih
    obtain ⟨la', lu', free', last', h', -⟩ := vallocStep_heap hstep h hfits
    exact ⟨la', lu', free', last', h'⟩
  | realloc _ hlive hle hcall ih =>
    obtain ⟨la, lu, free, last, h⟩ := ih
    exact (Mempool.realloc_heap h hlive hle hcall).2

/-- **`realloc` copies and frames**, in every state that is reached, if the old block is not larger than the size to which
`alloc` rounds the new one. -/
theorem realloc_ok (hrun : ReallocRun area heap m) (hlive : m.Live p n)
    (hle : n.toNat ≤ (Mempool.allocRequest newSize).1.toNat) (hcall : m.realloc area p newSize = .ok (m', q)) :
    Mempool.Realloced area m m' p n newSize q := by
  obtain ⟨la, lu, free, last, h⟩ := reallocRun_heap hrun
  exact (Mempool.realloc_heap h hlive hle hcall).1

/-! ## A block that shrinks -/

section Shrink

variable {la lu : List Nat} {last : Nat} {size alignment t : U64}

/-- Without free chunks the search finds nothing. -/
theorem Mempool.Heap.findBest_nil (h : Heap area last m la lu []) : m.findBest area size alignment = .ok none := by
  obtain ⟨r, hr, ⟨rfl, -⟩ | ⟨c, hc, -⟩⟩ := findBest_least h.freeIn size alignment
  · exact hr
  · exact absurd hc List.not_mem_nil

theorem Mempool.Heap.fits_nil (h : Heap area last m la lu []) : Fits area m size alignment := fun c hc => by
  rw [h.findBest_nil] at hc
  cases hc

/-- A block from below the top of a heap without free chunks. -/
theorem Mempool.Heap.takeTop (h : Heap area last m la lu []) (hlen : la.length < numAllocChunks)
    (ht : alignPow2 (m.top - size) alignment = t) (hsize : 24 ≤ size.toNat) (hroom : size ≤ m.top - area.botOfHeap)
    (hbot : area.botOfHeap ≤ t) : ∃ m' i lu', m.allocZeroed area (size, alignment) = .ok (m', t) ∧
      Heap area last m' (i :: la) lu' [] ∧ m'.block i = ⟨t, m.top - t⟩ ∧ (∀ j ∈ la, m'.block j = m.block j) ∧ m'.top = t ∧
      (∀ x, t.toNat ≤ x → x < t.toNat + size.toNat → m'.heap x = 0) ∧
      ∀ x, m.top.toNat ≤ x → m'.heap x = m.heap x := by
  have hlu := h.nodes.length
  cases lu with
  | nil =>
    rw [List.length_nil] at hlu
    omega
  | cons i lu =>
    have hsame₁ : SameNodes m { m with top := t } := ⟨rfl, rfl, rfl⟩
    obtain ⟨m₂, halloc, -, -, -, hsame⟩ := alloclistAlloc_ok (hsame₁.nodes h.nodes).1 t (m.top - t)
    obtain ⟨k, lu', hheap, hblock, hle, hother, hbytes⟩ := takeTop_ok h hsize (BitVec.not_lt.mpr hroom)
      (ht ▸ alignPow2_le (m.top - size) alignment) (BitVec.not_lt.mpr hbot) halloc
    -- the block ends at the old top
    have hmem : m₂.block k ∈ m₂.live (k :: la) := List.mem_map_of_mem List.mem_cons_self
    have hlt := hheap.layout.hi_lt (List.mem_append_right _ hmem)
    have htop : t.toNat + (m.top - t).toNat = m.top.toNat := by
      have hsub : (m.top - size).toNat ≤ m.top.toNat := by
        have h1 := h.layout.bot
        rw [BitVec.le_def, BitVec.toNat_sub_of_le (BitVec.le_def.mpr h1)] at hroom
        rw [BitVec.toNat_sub_of_le (BitVec.le_def.mpr (by omega))]
        omega
      have hge : t.toNat ≤ m.top.toNat := (ht ▸ alignPow2_le (m.top - size) alignment).trans hsub
      rw [BitVec.toNat_sub_of_le (BitVec.le_def.mpr hge)]
      omega
    rw [hblock, Chunk.hi_eq] at hlt
    have hlo : (⟨t, m.top - t⟩ : Chunk).lo = t.toNat := rfl
    rw [hlo] at hlt
    have hlen' : (t + size).toNat - t.toNat = size.toNat := by
      rw [BitVec.toNat_add, Nat.mod_eq_of_lt (by omega)]
      omega
    have hout : ∀ x, ¬(t.toNat ≤ x ∧ x < t.toNat + size.toNat) → (m₂.vallocMemset t 0 size).heap x = m₂.heap x :=
      fun x hx => Bytes.fill_of_not_mem (by rw [hlen']; exact hx)
    refine ⟨m₂.vallocMemset t 0 size, k, lu', ?_, hheap.write fun x hx => ⟨m₂.block k, hmem, ?_⟩, hblock, hother, hsame.top,
      fun x h1 h2 => Bytes.fill_of_mem (by rw [hlen']; exact ⟨h1, h2⟩), fun x hx => ?_⟩
    · unfold allocZeroed allocWithAlignmentAux
      simp only [bind, Except.bind, h.findBest_nil, ht]
      rw [if_neg (BitVec.not_lt.mpr hroom), if_neg (BitVec.not_lt.mpr hbot), halloc]
      rfl
    · by_contra hno
      rw [hblock, Chunk.hi_eq, hlo] at hno
      dsimp only at hno
      exact hx (hout x (by omega))
    · rw [hout x (by omega), hbytes]

/-- A heap of `n` bytes above an aligned address. -/
def shrinkArea (n : U64) (hn : n.toNat ≤ 2 ^ 46) : HeapArea where
  botOfHeap := 1
  topOfHeap := 0x800000000000 + n
  pos := by decide
  le := by
    rw [BitVec.toNat_add, show (0x800000000000 : U64).toNat = 2 ^ 47 from rfl, show (1 : U64).toNat = 1 from rfl,
      Nat.mod_eq_of_lt (by omega)]
    omega
  fits := by
    rw [BitVec.toNat_add, show (0x800000000000 : U64).toNat = 2 ^ 47 from rfl, Nat.mod_eq_of_lt (by omega)]
    omega

/-- The highest address that is aligned. -/
def shrinkBase : U64 := 0x800000000000

/-- A state with the highest block and one of 32 bytes below it, with zeros, and a one in the highest block. -/
theorem shrink_state (hn : n.toNat ≤ 2 ^ 46) (hlo : 24 ≤ n.toNat) {k : Nat} (hk : k < n.toNat) :
    ∃ m i₁ i₂ lu, Mempool.Heap (shrinkArea n hn) (shrinkArea n hn).topOfHeap.toNat m [i₂, i₁] lu [] ∧
      ReallocRun (shrinkArea n hn) (fun _ => 0) m ∧ m.block i₁ = ⟨shrinkBase, n⟩ ∧ m.block i₂ = ⟨shrinkBase - 32, 32⟩ ∧
      m.top = shrinkBase - 32 ∧ m.heap (shrinkBase - 32).toNat = 0 ∧ m.heap (shrinkBase.toNat + k) = 1 := by
  have hbase : shrinkBase.toNat = 2 ^ 47 := rfl
  have hbase' : (shrinkBase - 32).toNat = 2 ^ 47 - 32 := rfl
  have hone : (1 : U64).toNat = 1 := rfl
  have h₀ := Mempool.initValloc_heap (shrinkArea n hn) fun _ => 0
  have htop₀ : (initValloc (shrinkArea n hn) fun _ => 0).top = shrinkBase + n := rfl
  have hn₀ : shrinkBase + n - n = shrinkBase := by grind
  obtain ⟨m₁, i₁, lu₁, halloc₁, h₁, hblock₁, -, htop₁, -, -⟩ := h₀.takeTop (show 0 < 1024 by decide)
    (show alignPow2 ((initValloc (shrinkArea n hn) fun _ => 0).top - n) 64 = shrinkBase by rw [htop₀, hn₀]; decide)
    hlo (by
      show n ≤ shrinkBase + n - 1
      rw [BitVec.le_def, BitVec.toNat_sub_of_le (by rw [BitVec.le_def, BitVec.toNat_add]; omega), BitVec.toNat_add]
      omega) (by decide : (1 : U64) ≤ shrinkBase)
  have hsize₁ : m₁.block i₁ = ⟨shrinkBase, n⟩ := by
    rw [hblock₁, htop₀]
    congr 1
    grind
  obtain ⟨m₂, i₂, lu₂, halloc₂, h₂, hblock₂, hother₂, htop₂, hzero₂, -⟩ := h₁.takeTop (show 1 < 1024 by decide)
    (show alignPow2 (m₁.top - 32) 8 = shrinkBase - 32 by rw [htop₁]; decide) (by decide)
    (by rw [htop₁]; exact (by decide : (32 : U64) ≤ shrinkBase - 1)) (by decide : (1 : U64) ≤ shrinkBase - 32)
  rw [htop₁, show shrinkBase - (shrinkBase - 32) = 32 by decide] at hblock₂
  -- the run
  have hreq₁ : Mempool.alignmentRequest n 64 = (n, 64) := by
    have hnot : ¬n < sizeofFreeChunk := by
      rw [BitVec.lt_def]
      exact Nat.not_lt.mpr hlo
    unfold Mempool.alignmentRequest
    simp only [hnot, if_false]
    rw [if_neg (by decide)]
  have hrun₁ : ReallocRun (shrinkArea n hn) (fun _ => 0) m₁ := by
    have hstep : VallocStep (shrinkArea n hn) (initValloc (shrinkArea n hn) fun _ => 0) (.allocWithAlignment n 64) m₁ := by
      refine .allocWithAlignment (p := shrinkBase) ?_
      rw [Mempool.allocWithAlignment, hreq₁]
      exact halloc₁
    exact ReallocRun.init.step (fun req _ => h₀.fits_nil) hstep
  have hrun₂ : ReallocRun (shrinkArea n hn) (fun _ => 0) m₂ := by
    have hstep : VallocStep (shrinkArea n hn) m₁ (.alloc 32) m₂ := by
      refine .alloc (p := shrinkBase - 32) ?_
      rw [Mempool.alloc, show Mempool.allocRequest 32 = (32, 8) by decide +kernel]
      exact halloc₂
    exact hrun₁.step (fun req _ => h₁.fits_nil) hstep
  have hblock : m₂.block i₁ = ⟨shrinkBase, n⟩ := (hother₂ i₁ List.mem_cons_self).trans hsize₁
  have hlive : m₂.Live shrinkBase n := (Mempool.live_iff h₂.nodes).mpr (by simp [Mempool.live, hblock])
  -- the one is written
  let heap : Bytes.Mem := fun x => if x = shrinkBase.toNat + k then 1 else m₂.heap x
  have hwrite : ∀ x, heap x ≠ m₂.heap x → x = shrinkBase.toNat + k := fun x hx => by
    by_contra hne
    exact hx (if_neg hne)
  have hstep : VallocStep (shrinkArea n hn) m₂ .write { m₂ with heap := heap } := by
    refine .write fun x hx => ⟨shrinkBase, n, hlive, ?_⟩
    rw [hwrite x hx]
    exact ⟨Nat.le_add_right _ _, Nat.add_lt_add_left hk _⟩
  refine ⟨{ m₂ with heap := heap }, i₁, i₂, lu₂, h₂.write fun x hx => ⟨m₂.block i₁, by simp [Mempool.live], ?_⟩,
    hrun₂.step (fun req hreq => by cases hreq) hstep, hblock, hblock₂, htop₂, ?_, if_pos rfl⟩
  · rw [hwrite x hx, hblock]
    exact ⟨Nat.le_add_right _ _, Nat.add_lt_add_left hk _⟩
  · refine (if_neg (by omega)).trans (hzero₂ _ (Nat.le_refl _) ?_)
    exact Nat.lt_add_of_pos_right (by decide)

/-- **A block that shrinks is copied over another one**: it is the highest block, with one of 32 bytes below it, and the
new one is allocated below both. -/
theorem realloc_shrink (hlt : (Mempool.allocRequest newSize).1.toNat < n.toNat) (hn : n.toNat ≤ 2 ^ 46) :
    ∃ heap m m' p q, ReallocRun (shrinkArea n hn) heap m ∧ m.Live p n ∧
      m.realloc (shrinkArea n hn) p newSize = .ok (m', q) ∧
      ¬Mempool.Realloced (shrinkArea n hn) m m' p n newSize q := by
  obtain ⟨⟨j, hj5, hj, hpow⟩, halign, -⟩ := Mempool.allocRequest_bounds newSize
  have hreq : Mempool.allocRequest newSize = ((Mempool.allocRequest newSize).1, 8) := Prod.ext rfl halign
  generalize (Mempool.allocRequest newSize).1 = r at hlt hpow hreq
  have hr32 : 2 ^ 5 ≤ r.toNat := by
    rw [hpow]
    exact Nat.pow_le_pow_right (by decide) hj5
  have hbase : shrinkBase.toNat = 2 ^ 47 := rfl
  have hbase' : (shrinkBase - 32).toNat = 2 ^ 47 - 32 := rfl
  obtain ⟨m, i₁, i₂, lu, h, hrun, hblock₁, hblock₂, htop, hzero, hone⟩ := @shrink_state n hn (by omega) r.toNat hlt
  -- the new block ends where the small one starts
  have hsub : (shrinkBase - 32 - r).toNat = 2 ^ 47 - 32 - r.toNat := by
    rw [BitVec.toNat_sub_of_le (by rw [BitVec.le_def]; omega), hbase']
  have hstart : alignPow2 (m.top - r) 8 = shrinkBase - 32 - r := by
    have height : r.toNat % 8 = 0 := by
      rw [hpow]
      exact Nat.mod_eq_zero_of_dvd (Nat.pow_dvd_pow 2 (show 3 ≤ j by omega))
    rw [htop, ← BitVec.toNat_inj, show (8 : U64) = 1#64 <<< 3 by decide, alignPow2_two_pow, toNat_alignTo _ (by decide), hsub]
    omega
  obtain ⟨m₁, i₃, lu₁, halloc, h₁, hblock₃, hother, htop₁, -, hkeep⟩ := h.takeTop (show 2 < 1024 by decide) hstart
    (by omega) (by
      show r ≤ m.top - 1
      rw [htop, BitVec.le_def]
      exact Nat.le_trans (show r.toNat ≤ 2 ^ 46 by omega) (by decide)) (by
      show (1 : U64) ≤ shrinkBase - 32 - r
      rw [BitVec.le_def, hsub]
      exact (by omega : 1 ≤ 2 ^ 47 - 32 - r.toNat))
  have hold : m₁.block i₁ = ⟨shrinkBase, n⟩ := (hother i₁ (by simp)).trans hblock₁
  have hsmall : m₁.block i₂ = ⟨shrinkBase - 32, 32⟩ := (hother i₂ (by simp)).trans hblock₂
  have hnew : m₁.block i₃ = ⟨shrinkBase - 32 - r, r⟩ := by
    have hsize : shrinkBase - 32 - (shrinkBase - 32 - r) = r := by grind
    rw [hblock₃, htop, hsize]
  have hfind := h₁.findAllocChunk (show i₁ ∈ [i₃, i₂, i₁] by simp)
  rw [hold] at hfind
  -- the copy goes over the three blocks
  have h₂ : Mempool.Heap (shrinkArea n hn) (shrinkArea n hn).topOfHeap.toNat
      (m₁.vallocMemcpy (shrinkBase - 32 - r) shrinkBase n) ([i₃, i₂] ++ i₁ :: []) lu₁ [] := by
    refine h₁.write fun x hx => ?_
    have hin : (shrinkBase - 32 - r).toNat ≤ x ∧ x < (shrinkBase - 32 - r).toNat + n.toNat := by
      by_contra hno
      exact hx (Mempool.vallocMemcpy_out (by omega) hno)
    have hmem : ∀ k ∈ [i₃, i₂, i₁], m₁.block k ∈ m₁.live [i₃, i₂, i₁] := fun k hk => List.mem_map_of_mem hk
    by_cases hx₃ : x < 2 ^ 47 - 32
    · refine ⟨m₁.block i₃, hmem i₃ (by simp), ?_⟩
      rw [hnew]
      unfold Chunk.hi Chunk.lo
      dsimp only
      omega
    · by_cases hx₂ : x < 2 ^ 47
      · refine ⟨m₁.block i₂, hmem i₂ (by simp), ?_⟩
        rw [hsmall]
        unfold Chunk.hi Chunk.lo
        dsimp only
        rw [hbase', show (32 : U64).toNat = 32 from rfl]
        omega
      · refine ⟨m₁.block i₁, hmem i₁ (by simp), ?_⟩
        rw [hold]
        unfold Chunk.hi Chunk.lo
        dsimp only
        omega
  have hbyte : (m₁.vallocMemcpy (shrinkBase - 32 - r) shrinkBase n).heap (shrinkBase - 32).toNat = 1 := by
    have hcopy := @Mempool.vallocMemcpy_byte m₁ shrinkBase n (shrinkBase - 32 - r) r.toNat (by omega) (by omega) hlt
      fun k hk => by omega
    have hend : (shrinkBase - 32 - r).toNat + r.toNat = (shrinkBase - 32).toNat := by omega
    rw [hkeep _ (by rw [htop]; omega), hone, hend] at hcopy
    exact hcopy
  obtain ⟨m', free', hfree, h', -, hbytes⟩ := Mempool.free_ok h₂
  rw [show ((m₁.vallocMemcpy (shrinkBase - 32 - r) shrinkBase n).block i₁).start = shrinkBase from
    congrArg Chunk.start hold] at hfree
  have hlive : ∀ {k : Nat} {b : Chunk}, k ∈ [i₂, i₁] → m.block k = b → m.Live b.start b.size := fun hk hb =>
    (Mempool.live_iff h.nodes).mpr (hb ▸ List.mem_map_of_mem hk)
  refine ⟨_, m, m', shrinkBase, shrinkBase - 32 - r, hrun, hlive (by simp) hblock₁, ?_, fun hok => ?_⟩
  · unfold Mempool.realloc Mempool.alloc
    rw [hreq]
    simp only [bind, Except.bind, Except.mapError, halloc, hfind]
    rw [show (m₁.chunks i₁).size = n from congrArg Chunk.size hold, hfree]
    rfl
  · -- the first byte of the small block
    have hzero' := hok.others _ _ (hlive (show i₂ ∈ [i₂, i₁] by simp) hblock₂) (by decide) (shrinkBase - 32).toNat
      (Nat.le_refl _) (Nat.lt_add_of_pos_right (by decide))
    have hone' := hbytes ⟨shrinkBase - 32, 32⟩ (hsmall ▸ List.mem_map_of_mem (by simp)) (shrinkBase - 32).toNat
      (Nat.le_refl _) (Nat.lt_add_of_pos_right (by decide))
    rw [hzero', hzero, hbyte] at hone'
    exact absurd hone' (by decide)

end Shrink

/-- **When `realloc` copies and frames**: in every state that is reached, if the old block is not larger than the size to
which `alloc` rounds the new one. For any larger block, up to 64 TiB, there is a state in which it does not. -/
theorem realloc_iff (n newSize : U64) :
    (n.toNat ≤ (Mempool.allocRequest newSize).1.toNat → ∀ area heap m m' p q, ReallocRun area heap m → m.Live p n →
      m.realloc area p newSize = .ok (m', q) → Mempool.Realloced area m m' p n newSize q) ∧
    ((Mempool.allocRequest newSize).1.toNat < n.toNat → n.toNat ≤ 2 ^ 46 → ∃ area heap m m' p q,
      ReallocRun area heap m ∧ m.Live p n ∧ m.realloc area p newSize = .ok (m', q) ∧
        ¬Mempool.Realloced area m m' p n newSize q) :=
  ⟨fun hle _ _ _ _ _ _ hrun hlive hcall => realloc_ok hrun hlive hle hcall,
    fun hlt hn => ⟨shrinkArea n hn, realloc_shrink hlt hn⟩⟩

/-- A block of 64 bytes grows to 100. -/
theorem realloc_iff_grow : ∃ m m' p q, ReallocRun smallArea (fun _ => 0) m ∧ m.realloc smallArea p 100 = .ok (m', q) ∧
    Mempool.Realloced smallArea m m' p 64 100 q := by
  have hrun : (((VallocOp.alloc 64).exec smallArea (initValloc smallArea fun _ => 0)).map fun m =>
      (m.allocChunks.toOption.map fun l => l.map fun i => m.block i, (m.realloc smallArea 0x11fc0 100).toOption.isSome)) =
        some (some [⟨0x11fc0, 64⟩], true) := by
    decide +kernel
  obtain ⟨m, hm, heq⟩ := Option.map_eq_some_iff.mp hrun
  obtain ⟨hchunks, hcall⟩ := Prod.mk.inj heq
  obtain ⟨⟨m', q⟩, hr⟩ := Option.isSome_iff_exists.mp hcall
  have hcall' : m.realloc smallArea 0x11fc0 100 = .ok (m', q) := by
    cases h : m.realloc smallArea 0x11fc0 100 with
    | error e =>
      rw [h] at hr
      cases hr
    | ok r =>
      rw [h] at hr
      cases hr
      rfl
  have hlive : m.Live 0x11fc0 64 := by
    obtain ⟨l, hl, hmap⟩ := Option.map_eq_some_iff.mp hchunks
    obtain ⟨i, hi, hblock⟩ := List.map_eq_singleton_iff.mp hmap
    exact ⟨l, ok_of_toOption hl, i, by rw [hi]; exact List.mem_cons_self, congrArg Chunk.start hblock,
      congrArg Chunk.size hblock⟩
  have hproper : (VallocOp.alloc 64).Proper smallArea := (by decide : (64 : U64) ≤ 0x12000 - 0x10000)
  have hsteps : ReallocRun smallArea (fun _ => 0) m := ReallocRun.init.step hproper.fits (VallocOp.exec_step hm)
  exact ⟨m, m', _, q, hsteps, hcall', (realloc_iff 64 100).1 (by decide +kernel) _ _ _ _ _ _ hsteps hlive hcall'⟩

/-- A block of 64 bytes shrinks to 32. -/
theorem realloc_halved : ∃ area heap m m' p q, ReallocRun area heap m ∧ m.Live p 64 ∧
    m.realloc area p 32 = .ok (m', q) ∧ ¬Mempool.Realloced area m m' p 64 32 q :=
  ⟨shrinkArea 64 (by decide), realloc_shrink (by decide +kernel) (by decide)⟩

end LitmusHarness
