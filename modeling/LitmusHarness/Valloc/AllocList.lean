import LitmusHarness.Valloc.Mempool

/-!
# The allocated and the unallocated nodes: `valloc_alloclist.c`

`Nodes m la lu` says that the nodes `la` are linked in `chunk_alloc_list` and `lu` in `chunk_unalloc_list`, and that
these are all nodes. `swap` moves one from the one list to the front of the other (`swap_linked`). So allocating takes
the first unallocated node (`alloclistAlloc_ok`), and deallocating gives back the node of the block (`alloclistDealloc_ok`).
-/

namespace LitmusHarness

/-- A chunk of the heap, allocated or free. -/
structure Chunk where
  start : U64
  size : U64
  deriving DecidableEq, Repr

/-- Its first address. -/
def Chunk.lo (c : Chunk) : Nat := c.start.toNat

/-- The address after its last. -/
def Chunk.hi (c : Chunk) : Nat := c.start.toNat + c.size.toNat

namespace Mempool

/-- The links of the nodes. -/
def nodeLinks (chunks : Nat → AllocChunk) : Dll.Links Nat := ⟨fun i => (chunks i).prev, fun i => (chunks i).next⟩

/-- The block of a node. -/
def block (m : Mempool) (i : Nat) : Chunk := ⟨(m.chunks i).start, (m.chunks i).size⟩

/-- The nodes of the two lists. -/
structure Nodes (m : Mempool) (la lu : List Nat) : Prop where
  alloc : Dll.Linked (nodeLinks m.chunks) m.chunkAllocList la
  unalloc : Dll.Linked (nodeLinks m.chunks) m.chunkUnallocList lu
  perm : (la ++ lu).Perm (List.range numAllocChunks)

/-- Nothing but the nodes is different. -/
structure SameHeap (m m' : Mempool) : Prop where
  top : m'.top = m.top
  freelist : m'.freelist = m.freelist
  heap : m'.heap = m.heap

/-! ## `swap` -/

section Swap

variable {chunks : Nat → AllocChunk} {i j : Nat} {a p : Option Nat}

theorem setChunkPrev_prev : (setChunkPrev chunks a p j).prev = if a = some j then p else (chunks j).prev := by
  cases a with
  | none => rfl
  | some i =>
    by_cases h : j = i
    · simp [setChunkPrev, setChunk, h]
    · simp [setChunkPrev, setChunk, h, Ne.symm h]

theorem setChunkNext_next : (setChunkNext chunks a p j).next = if a = some j then p else (chunks j).next := by
  cases a with
  | none => rfl
  | some i =>
    by_cases h : j = i
    · simp [setChunkNext, setChunk, h]
    · simp [setChunkNext, setChunk, h, Ne.symm h]

/-- What does not depend on `prev` stays. -/
theorem setChunkPrev_congr {β : Type} {f : AllocChunk → β} (hf : ∀ c : AllocChunk, f { c with prev := p } = f c) :
    f (setChunkPrev chunks a p j) = f (chunks j) := by
  cases a with
  | none => rfl
  | some i =>
    simp only [setChunkPrev, setChunk]
    split
    · rename_i h
      rw [hf, h]
    · rfl

/-- What does not depend on `next` stays. -/
theorem setChunkNext_congr {β : Type} {f : AllocChunk → β} (hf : ∀ c : AllocChunk, f { c with next := p } = f c) :
    f (setChunkNext chunks a p j) = f (chunks j) := by
  cases a with
  | none => rfl
  | some i =>
    simp only [setChunkNext, setChunk]
    split
    · rename_i h
      rw [hf, h]
    · rfl

@[simp] theorem setChunkPrev_next : (setChunkPrev chunks a p j).next = (chunks j).next := setChunkPrev_congr fun _ => rfl

@[simp] theorem setChunkNext_prev : (setChunkNext chunks a p j).prev = (chunks j).prev := setChunkNext_congr fun _ => rfl

@[simp] theorem setChunkPrev_start : (setChunkPrev chunks a p j).start = (chunks j).start :=
  setChunkPrev_congr fun _ => rfl

@[simp] theorem setChunkPrev_size : (setChunkPrev chunks a p j).size = (chunks j).size :=
  setChunkPrev_congr fun _ => rfl

@[simp] theorem setChunkNext_start : (setChunkNext chunks a p j).start = (chunks j).start :=
  setChunkNext_congr fun _ => rfl

@[simp] theorem setChunkNext_size : (setChunkNext chunks a p j).size = (chunks j).size :=
  setChunkNext_congr fun _ => rfl

/-- `swap` changes links only. -/
theorem swap_block (src dst : Option Nat) :
    ((linkChunk (unlinkChunk chunks i src).1 i dst).1 j).start = (chunks j).start ∧
      ((linkChunk (unlinkChunk chunks i src).1 i dst).1 j).size = (chunks j).size := by
  have hunlink : ((unlinkChunk chunks i src).1 j).start = (chunks j).start ∧
      ((unlinkChunk chunks i src).1 j).size = (chunks j).size := by
    unfold unlinkChunk
    split <;> simp
  rw [← hunlink.1, ← hunlink.2]
  unfold linkChunk
  split <;> simp

/-- The links after the first part of `swap`. -/
theorem unlinkChunk_links {src : Option Nat} :
    ((unlinkChunk chunks i src).1 j).next =
        (if (chunks i).prev = some j then (chunks i).next else (chunks j).next) ∧
      ((unlinkChunk chunks i src).1 j).prev =
        (if (chunks i).next = some j then (chunks i).prev else (chunks j).prev) ∧
      (unlinkChunk chunks i src).2 = if (chunks i).prev = none then (chunks i).next else src := by
  unfold unlinkChunk
  cases hp : (chunks i).prev with
  | none => simp [setChunkPrev_prev]
  | some p =>
    have hnext : (setChunkNext chunks (some p) (chunks i).next i).next = (chunks i).next := by
      rw [setChunkNext_next]
      split <;> rfl
    simp [setChunkPrev_prev, setChunkNext_next, hp]

/-- The links after the second part. -/
theorem linkChunk_links {dst : Option Nat} (hdst : dst ≠ some i) :
    ((linkChunk chunks i dst).1 j).next = (if i = j then dst else (chunks j).next) ∧
      ((linkChunk chunks i dst).1 j).prev =
        (if dst = some j then some i else if i = j then none else (chunks j).prev) ∧
      (linkChunk chunks i dst).2 = some i := by
  unfold linkChunk
  cases dst with
  | none => simp [setChunkPrev_prev, setChunkNext_next]
  | some d => simp [setChunkPrev_prev, setChunkNext_next]

variable {src dst : Option Nat} {l l₁ l₂ : List Nat}

/-- **`swap` moves a node from one list to the front of another.** -/
theorem swap_linked (hsrc : Dll.Linked (nodeLinks chunks) src (l₁ ++ i :: l₂)) (hdst : Dll.Linked (nodeLinks chunks) dst l)
    (hdisj : ∀ j ∈ l, j ∉ l₁ ++ i :: l₂) :
    Dll.Linked (nodeLinks (linkChunk (unlinkChunk chunks i src).1 i dst).1) (unlinkChunk chunks i src).2 (l₁ ++ l₂) ∧
      Dll.Linked (nodeLinks (linkChunk (unlinkChunk chunks i src).1 i dst).1)
        (linkChunk (unlinkChunk chunks i src).1 i dst).2 (i :: l) := by
  have hi : i ∉ l := fun h => hdisj i h (by simp)
  have hne : dst ≠ some i := fun h => hi (List.mem_of_head? (hdst.head ▸ h))
  obtain ⟨hp, hn⟩ := hsrc.links
  constructor
  · have hhead : (unlinkChunk chunks i src).2 =
        if (nodeLinks chunks).prev i = none then (nodeLinks chunks).next i else src :=
      (@unlinkChunk_links chunks i i src).2.2
    rw [hhead]
    refine hsrc.remove fun j hj => ?_
    have hji : i ≠ j := (hsrc.ne_of_mem hj).symm
    have hjd : dst ≠ some j := fun h => hdisj j (List.mem_of_head? (hdst.head ▸ h))
      (List.perm_middle.mem_iff.mpr (List.mem_cons_of_mem i hj))
    obtain ⟨h1, h2, -⟩ := @linkChunk_links (unlinkChunk chunks i src).1 i j dst hne
    obtain ⟨h3, h4, -⟩ := @unlinkChunk_links chunks i j src
    rw [if_neg hji, h3] at h1
    rw [if_neg hjd, if_neg hji, h4] at h2
    exact ⟨h1, h2⟩
  · rw [(@linkChunk_links (unlinkChunk chunks i src).1 i i dst hne).2.2]
    refine hdst.push hi ?_ ?_ fun j hj => ?_
    · obtain ⟨-, h2, -⟩ := @linkChunk_links (unlinkChunk chunks i src).1 i i dst hne
      rw [if_neg hne, if_pos rfl] at h2
      exact h2
    · obtain ⟨h1, -, -⟩ := @linkChunk_links (unlinkChunk chunks i src).1 i i dst hne
      rw [if_pos rfl] at h1
      exact h1
    · -- no node of the other list is a neighbour of `i`
      have hji : i ≠ j := fun h => hi (h ▸ hj)
      have hpj : (chunks i).prev ≠ some j := fun h =>
        hdisj j hj (List.mem_append_left _ (List.mem_of_getLast? (hp ▸ h)))
      have hnj : (chunks i).next ≠ some j := fun h =>
        hdisj j hj (List.mem_append_right _ (List.mem_cons_of_mem i (List.mem_of_head? (hn ▸ h))))
      obtain ⟨h1, h2, -⟩ := @linkChunk_links (unlinkChunk chunks i src).1 i j dst hne
      obtain ⟨h3, h4, -⟩ := @unlinkChunk_links chunks i j src
      rw [if_neg hji, h3, if_neg hpj] at h1
      rw [if_neg hji, h4, if_neg hnj] at h2
      exact ⟨h1, h2⟩

end Swap

section Lists

variable {m : Mempool} {la lu l₁ l₂ : List Nat} {i : Nat}

theorem Nodes.nodup (h : Nodes m la lu) : (la ++ lu).Nodup := h.perm.nodup_iff.mpr List.nodup_range

theorem Nodes.length (h : Nodes m la lu) : la.length + lu.length = numAllocChunks := by
  rw [← List.length_append, h.perm.length_eq, List.length_range]

theorem moveToAlloc_ok (h : Nodes m la (l₁ ++ i :: l₂)) :
    Nodes (m.moveToAlloc i) (i :: la) (l₁ ++ l₂) ∧ (∀ j, (m.moveToAlloc i).block j = m.block j) ∧
      SameHeap m (m.moveToAlloc i) := by
  obtain ⟨h1, h2⟩ := swap_linked h.unalloc h.alloc fun j hj hj' =>
    (List.nodup_append.mp h.nodup).2.2 j hj j hj' rfl
  refine ⟨⟨h2, h1, ?_⟩, fun j => ?_, rfl, rfl, rfl⟩
  · refine List.Perm.trans ?_ h.perm
    rw [← List.append_assoc, List.cons_append]
    exact (@List.perm_middle _ i (la ++ l₁) l₂).symm.trans (by simp)
  · obtain ⟨h3, h4⟩ := @swap_block m.chunks i j m.chunkUnallocList m.chunkAllocList
    exact congrArg₂ Chunk.mk h3 h4

theorem moveToDealloc_ok (h : Nodes m (l₁ ++ i :: l₂) lu) :
    Nodes (m.moveToDealloc i) (l₁ ++ l₂) (i :: lu) ∧ (∀ j, (m.moveToDealloc i).block j = m.block j) ∧
      SameHeap m (m.moveToDealloc i) := by
  obtain ⟨h1, h2⟩ := swap_linked h.alloc h.unalloc fun j hj hj' =>
    (List.nodup_append.mp h.nodup).2.2 j hj' j hj rfl
  refine ⟨⟨h1, h2, ?_⟩, fun j => ?_, rfl, rfl, rfl⟩
  · refine List.Perm.trans ?_ h.perm
    simp only [List.append_assoc, List.cons_append]
    exact List.Perm.append_left l₁ List.perm_middle
  · obtain ⟨h3, h4⟩ := @swap_block m.chunks i j m.chunkAllocList m.chunkUnallocList
    exact congrArg₂ Chunk.mk h3 h4

/-! ## The functions -/

theorem allocChunks_ok (h : Nodes m la lu) : m.allocChunks = .ok la := by
  have hlen := h.length
  have hwalk := h.alloc.walk (show la.length ≤ numAllocChunks by omega)
  unfold allocChunks
  rw [show (fun i => (m.chunks i).next) = (nodeLinks m.chunks).next from rfl, hwalk]

/-- **Allocating takes the first unallocated node.** -/
theorem alloclistAlloc_ok (h : Nodes m la (i :: lu)) (addr size : U64) : ∃ m', m.alloclistAlloc addr size = .ok m' ∧
    Nodes m' (i :: la) lu ∧ m'.block i = ⟨addr, size⟩ ∧ (∀ j, j ≠ i → m'.block j = m.block j) ∧ SameHeap m m' := by
  let m₁ : Mempool := { m with chunks := setChunk m.chunks i { m.chunks i with start := addr, size := size } }
  have hlinks : ∀ j, (nodeLinks m₁.chunks).prev j = (nodeLinks m.chunks).prev j ∧
      (nodeLinks m₁.chunks).next j = (nodeLinks m.chunks).next j := by
    intro j
    by_cases hj : j = i
    · subst hj
      simp [m₁, nodeLinks, setChunk]
    · simp [m₁, nodeLinks, setChunk, hj]
  have h₁ : Nodes m₁ la ([] ++ i :: lu) :=
    ⟨h.alloc.congr fun j _ => hlinks j, h.unalloc.congr fun j _ => hlinks j, h.perm⟩
  obtain ⟨hnodes, hblock, hsame⟩ := moveToAlloc_ok h₁
  refine ⟨m₁.moveToAlloc i, ?_, hnodes, ?_, fun j hj => ?_, hsame.top, hsame.freelist, hsame.heap⟩
  · unfold alloclistAlloc
    split <;> rename_i hhead <;> rw [h.unalloc.head] at hhead <;> cases hhead
    rfl
  · rw [hblock]
    simp [m₁, block, setChunk]
  · rw [hblock]
    simp [m₁, block, setChunk, hj]

theorem alloclistAlloc_full (h : Nodes m la []) (addr size : U64) :
    m.alloclistAlloc addr size = .error (.noChunks, m) := by
  rw [alloclistAlloc, h.unalloc.head]
  rfl

/-- A region is allocated if a block starts in it. -/
theorem isRegionAllocated_ok (h : Nodes m la lu) (start last : U64) : ∃ r, m.isRegionAllocated start last = .ok r ∧
    (r = true ↔ ∃ j ∈ la, start.toNat ≤ (m.block j).lo ∧ (m.block j).lo ≤ last.toNat) := by
  refine ⟨la.any fun j => start ≤ (m.chunks j).start && (m.chunks j).start ≤ last, ?_, ?_⟩
  · rw [isRegionAllocated, allocChunks_ok h]
    rfl
  · simp only [List.any_eq_true, Bool.and_eq_true, decide_eq_true_eq, BitVec.le_def]
    rfl

/-- The node of the block that contains an address. -/
theorem findAllocChunk_ok (h : Nodes m la lu) {p : U64} (hi : i ∈ la) (hlo : (m.block i).lo ≤ p.toNat)
    (hhi : p.toNat < (m.block i).hi) (hwrap : ∀ j ∈ la, (m.block j).hi < 2 ^ 64)
    (huniq : ∀ j ∈ la, (m.block j).lo ≤ p.toNat → p.toNat < (m.block j).hi → j = i) :
    m.findAllocChunk p = .ok (some i) := by
  have htest : ∀ j ∈ la, ((m.chunks j).start ≤ p && p < (m.chunks j).start + (m.chunks j).size) = true ↔
      (m.block j).lo ≤ p.toNat ∧ p.toNat < (m.block j).hi := by
    intro j hj
    have hlt : (m.chunks j).start.toNat + (m.chunks j).size.toNat < 2 ^ 64 := hwrap j hj
    rw [Bool.and_eq_true, decide_eq_true_eq, decide_eq_true_eq, BitVec.le_def, BitVec.lt_def, BitVec.toNat_add,
      Nat.mod_eq_of_lt hlt]
    rfl
  have hfind : la.find? (fun j => (m.chunks j).start ≤ p && p < (m.chunks j).start + (m.chunks j).size) = some i := by
    cases hf : la.find? (fun j => (m.chunks j).start ≤ p && p < (m.chunks j).start + (m.chunks j).size) with
    | none => exact absurd ((htest i hi).mpr ⟨hlo, hhi⟩) (List.find?_eq_none.mp hf i hi)
    | some j =>
      have hj := List.mem_of_find?_eq_some hf
      obtain ⟨h1, h2⟩ := (htest j hj).mp (by simpa using List.find?_some hf)
      rw [huniq j hj h1 h2]
  rw [findAllocChunk, allocChunks_ok h]
  exact congrArg Except.ok hfind

end Lists

end Mempool

end LitmusHarness
