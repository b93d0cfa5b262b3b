import LitmusHarness.Valloc.Oversized

/-!
# The lists of the allocator

In the runs of `VallocRun` only blocks are freed; here `free` may be called with any address. As long as the calls are
orderly, that is, no sum of `find_best` wraps and `free` gets the start of a block, the two lists of the nodes and the
freelist are well formed (`Mempool.WellLinked`) and the loops and recursions over them end (`Mempool.CallsEnd`) in every
state that is reached (`vallocCalls_wellLinked`). A sum that wraps puts two headers on top of each other
(`vallocCalls_overlap`).
-/

namespace LitmusHarness

/-! ## Any calls -/

/-- One call that returns, with any arguments, or a write to a block. -/
inductive VallocCall (area : HeapArea) (m : Mempool) : VallocOp → Mempool → Prop
  | alloc {size : U64} {m' : Mempool} {p : U64} (h : m.alloc area size = .ok (m', p)) :
    VallocCall area m (.alloc size) m'
  | allocWithAlignment {size alignment : U64} {m' : Mempool} {p : U64}
    (h : m.allocWithAlignment area size alignment = .ok (m', p)) :
    VallocCall area m (.allocWithAlignment size alignment) m'
  | free {p : U64} {m' : Mempool} (h : m.free area p = .ok m') : VallocCall area m (.free p) m'
  | write {heap : Bytes.Mem} (h : ∀ x, heap x ≠ m.heap x →
      ∃ start size, m.Live start size ∧ start.toNat ≤ x ∧ x < start.toNat + size.toNat) :
    VallocCall area m .write { m with heap := heap }

/-- The runs of such calls from `init_valloc`, with the states in which the calls are made, the latest first. -/
inductive VallocCalls (area : HeapArea) (heap : Bytes.Mem) : List (Mempool × VallocOp) → Mempool → Prop
  | init : VallocCalls area heap [] (initValloc area heap)
  | step {steps : List (Mempool × VallocOp)} {m m' : Mempool} {op : VallocOp} :
    VallocCalls area heap steps m → VallocCall area m op m' → VallocCalls area heap ((m, op) :: steps) m'

/-- No sum of `find_best` wraps for the chunk that it picks, and what is freed is the start of a block. -/
def VallocOp.Orderly (area : HeapArea) (m : Mempool) (op : VallocOp) : Prop :=
  op.Fits area m ∧ ∀ p, op = .free p → ∃ size, m.Live p size

namespace Mempool

/-- The nodes are in two doubly linked lists without cycles, each node in one of them and once, and so is the freelist.
The node at the head of a list has no node before it. -/
structure WellLinked (m : Mempool) : Prop where
  nodes : ∃ la lu, Dll.Linked (nodeLinks m.chunks) m.chunkAllocList la ∧
    Dll.Linked (nodeLinks m.chunks) m.chunkUnallocList lu ∧ (la ++ lu).Perm (List.range numAllocChunks)
  free : ∃ l, Dll.Linked m.freeLinks (ptr m.freelist) l

/-- `free` of a block returns, so that the recursion of `__compact_together` and the loop of `__shift_top` end, and no
call is caught in a loop. -/
structure CallsEnd (area : HeapArea) (m : Mempool) : Prop where
  freed : ∀ p size, m.Live p size → ∃ m', m.free area p = .ok m'
  notFreed : ∀ p, (∀ start size, m.Live start size → ¬(start.toNat ≤ p.toNat ∧ p.toNat < start.toNat + size.toNat)) →
    m.free area p = .error (.notAllocated p, m)
  alloc : ∀ size m', m.alloc area size ≠ .error (.loop, m')
  allocWithAlignment : ∀ size alignment m', m.allocWithAlignment area size alignment ≠ .error (.loop, m')

end Mempool

variable {area : HeapArea} {heap : Bytes.Mem} {m m' : Mempool} {op : VallocOp} {la lu : List Nat} {free : List Chunk}
  {last : Nat} {steps : List (Mempool × VallocOp)}

/-! ## Orderly calls -/

/-- An orderly call is a step. -/
theorem VallocCall.step (h : VallocCall area m op m') (hop : op.Orderly area m) : VallocStep area m op m' := by
  cases h with
  | «alloc» h => exact .alloc h
  | «allocWithAlignment» h => exact .allocWithAlignment h
  | «free» h =>
    obtain ⟨size, hlive⟩ := hop.2 _ rfl
    exact .free hlive h
  | «write» h => exact .write h

theorem VallocStep.call (h : VallocStep area m op m') : VallocCall area m op m' := by
  cases h with
  | «alloc» h => exact .alloc h
  | «allocWithAlignment» h => exact .allocWithAlignment h
  | «free» _ h => exact .free h
  | «write» h => exact .write h

/-- Orderly calls are a run. -/
theorem VallocCalls.run (h : VallocCalls area heap steps m) (hok : ∀ s ∈ steps, s.2.Orderly area s.1) :
    VallocRun area heap steps m := by
  induction h with
  | init => exact .init
  | step _ hcall ih =>
    obtain ⟨hop, hok⟩ := List.forall_mem_cons.mp hok
    exact (ih hok).step (hcall.step hop)

theorem VallocRun.calls (h : VallocRun area heap steps m) : VallocCalls area heap steps m := by
  induction h with
  | init => exact .init
  | step _ hstep ih => exact ih.step hstep.call

namespace Mempool

/-! ## What a heap gives -/

theorem Heap.wellLinked (h : Heap area last m la lu free) : m.WellLinked :=
  ⟨⟨la, lu, h.nodes.alloc, h.nodes.unalloc, h.nodes.perm⟩, ⟨_, h.headers.linked⟩⟩

theorem alloclistAlloc_ends {addr size : U64} : m.alloclistAlloc addr size ≠ .error (.loop, m') := by
  unfold alloclistAlloc
  split <;> exact nofun

theorem splitAlignment_ends {chunk size alignment : U64} :
    m.splitAlignment chunk size alignment ≠ .error (.loop, m') := by
  unfold splitAlignment
  dsimp only
  split <;> exact nofun

/-- A request is not caught in a loop. -/
theorem Heap.allocZeroed_ends (h : Heap area last m la lu free) (req : U64 × U64) :
    m.allocZeroed area req ≠ .error (.loop, m') := by
  obtain ⟨r, hr, -⟩ := findBest_least h.freeIn req.1 req.2
  intro herr
  have haux : m.allocWithAlignmentAux area req.1 req.2 = .error (.loop, m') := by
    unfold allocZeroed at herr
    rcases Loop.bind_error herr with haux | ⟨r', -, hr'⟩
    · exact haux
    · cases hr'
  unfold allocWithAlignmentAux at haux
  simp only [bind, Except.bind, hr] at haux
  cases r with
  | none =>
    dsimp only at haux
    split at haux
    · cases haux
    · split at haux
      · cases haux
      · rcases Loop.bind_error haux with hlist | ⟨r', -, hr'⟩
        · exact alloclistAlloc_ends hlist
        · cases hr'
  | some c =>
    rcases Loop.bind_error haux with hsplit | ⟨r', -, hr'⟩
    · exact splitAlignment_ends hsplit
    · rcases Loop.bind_error hr' with hlist | ⟨r'', -, hr''⟩
      · exact alloclistAlloc_ends hlist
      · cases hr''

/-- The address of no block. -/
theorem Heap.free_notAllocated (h : Heap area last m la lu free) {p : U64}
    (hp : ∀ start size, m.Live start size → ¬(start.toNat ≤ p.toNat ∧ p.toNat < start.toNat + size.toNat)) :
    m.free area p = .error (.notAllocated p, m) := by
  have hnone : m.findAllocChunk p = .ok none := by
    unfold Mempool.findAllocChunk
    simp only [allocChunks_ok h.nodes, bind, Except.bind, pure, Except.pure]
    refine congrArg Except.ok (List.find?_eq_none.mpr fun i hi hin => ?_)
    have hmem : m.block i ∈ m.live la := List.mem_map_of_mem hi
    have hend : ((m.chunks i).start + (m.chunks i).size).toNat = (m.block i).hi :=
      toNat_end (h.layout.hi_lt (List.mem_append_right _ hmem))
    simp only [Bool.and_eq_true, decide_eq_true_eq, BitVec.le_def, BitVec.lt_def, hend] at hin
    exact hp _ _ ((live_iff h.nodes).mpr hmem) hin
  unfold Mempool.free
  simp only [bind, Except.bind, hnone]

theorem Heap.callsEnd (h : Heap area last m la lu free) : m.CallsEnd area where
  freed := fun p size hlive => by
    obtain ⟨i, hi, heq⟩ := List.mem_map.mp ((live_iff h.nodes).mp hlive)
    obtain ⟨l₁, l₂, rfl⟩ := List.append_of_mem hi
    obtain ⟨m', -, hrun, -⟩ := free_ok h
    rw [show (m.block i).start = p from congrArg Chunk.start heq] at hrun
    exact ⟨m', hrun⟩
  notFreed := fun _ hp => h.free_notAllocated hp
  alloc := fun size _ => h.allocZeroed_ends (allocRequest size)
  allocWithAlignment := fun size alignment _ => h.allocZeroed_ends (alignmentRequest size alignment)

end Mempool

/-- **In every state that orderly calls reach, the lists are well formed and the calls end.** -/
theorem vallocCalls_wellLinked (hrun : VallocCalls area heap steps m) (hok : ∀ s ∈ steps, s.2.Orderly area s.1) :
    m.WellLinked ∧ m.CallsEnd area := by
  obtain ⟨la, lu, free, last, hheap, -⟩ := vallocRun_heap (hrun.run hok) fun s hs => (hok s hs).1
  exact ⟨hheap.wellLinked, hheap.callsEnd⟩

/-- A block of 64 bytes. -/
theorem vallocCalls_wellLinked_oneBlock : ∃ steps m, VallocCalls smallArea (fun _ => 0) steps m ∧ steps.length = 1 ∧
    m.WellLinked ∧ m.CallsEnd smallArea := by
  have hrun : ((VallocOp.alloc 64).exec smallArea (initValloc smallArea fun _ => 0)).isSome := by decide +kernel
  obtain ⟨m, hm⟩ := Option.isSome_iff_exists.mp hrun
  have hcalls := VallocCalls.init.step (VallocOp.exec_step hm).call
  refine ⟨_, m, hcalls, rfl, vallocCalls_wellLinked hcalls (List.forall_mem_cons.mpr ⟨⟨?_, nofun⟩, nofun⟩)⟩
  exact VallocOp.Proper.fits (show (64 : U64) ≤ smallArea.topOfHeap - smallArea.botOfHeap by decide)

/-- Five blocks of 64 bytes of which two are freed, and a request for 760 bytes less than 2^64 at a multiple of 512. -/
def overlapOps : List VallocOp :=
  [.alloc 64, .alloc 64, .alloc 64, .alloc 64, .alloc 64, .free 0x11f80, .free 0x11f00, .allocWithAlignment (-760) 512]

/-- The free chunk at the head of the list has another one before it. -/
theorem vallocCalls_overlap : ∃ steps m, VallocCalls smallArea (fun _ => 0) steps m ∧
    steps.map Prod.snd = overlapOps.reverse ∧ m.chunkPrev m.freelist = 0x11f80 ∧ ¬m.WellLinked := by
  have hrun : ((Reach.run (fun m op => op.exec smallArea m) (initValloc smallArea fun _ => 0) overlapOps).map
      fun m => (m.freelist, m.chunkPrev m.freelist)) = some (0x11f08, 0x11f80) := by
    decide +kernel
  obtain ⟨m, hm, heq⟩ := Option.map_eq_some_iff.mp hrun
  obtain ⟨hlist, hprev⟩ := Prod.mk.inj heq
  obtain ⟨steps, hsteps, hops, -⟩ := vallocRun_exec hm
  refine ⟨steps, m, hsteps.calls, hops, hprev, fun h => ?_⟩
  obtain ⟨l, hl⟩ := h.free
  cases l with
  | nil =>
    have hnone := hl.head
    rw [hlist] at hnone
    cases hnone
  | cons c l =>
    have hhead := hl.head
    rw [hlist] at hhead hprev
    obtain rfl : (0x11f08 : U64) = c := Option.some.inj hhead
    have hnone := hl.seg.1
    unfold Mempool.freeLinks at hnone
    dsimp only at hnone
    rw [hprev] at hnone
    cases hnone

end LitmusHarness
