import LitmusHarness.Bitwise
import LitmusHarness.Lib.Bytes
import LitmusHarness.Lib.Dll
import LitmusHarness.Lib.Loop

/-!
# The heap allocator: `valloc.c`, `valloc_alloclist.c` and `valloc_freelist.c`

`Mempool` is `valloc_mempool` with the bytes of the heap. The allocations are in a fixed array of 1024 nodes that are
linked into two lists, the allocated and the unallocated ones. The free chunks are linked in a third list, whose nodes
are headers in the free memory itself.

The loops over the lists read nothing but the links until they end, so each is a fold over the nodes that it visits
(`freeChunks`, `allocChunks`). A call that does not return stops with one of the failures of the source, or with `loop`
for a list that does not end; the pool then is in the result, too.
-/

namespace LitmusHarness

/-- The bounds of the heap, set in `device.c`. -/
structure HeapArea where
  botOfHeap : U64
  topOfHeap : U64
  pos : 0 < botOfHeap.toNat
  le : botOfHeap.toNat ≤ topOfHeap.toNat
  fits : topOfHeap.toNat ≤ 2 ^ 48

/-- `NUM_ALLOC_CHUNKS`. -/
def numAllocChunks : Nat := 1024

/-- `valloc_alloc_chunk`, with its links as indices of `chunks`. -/
structure AllocChunk where
  start : U64 := 0
  size : U64 := 0
  prev : Option Nat := none
  next : Option Nat := none
  deriving DecidableEq, Repr

/-- `sizeof(valloc_alloc_chunk)`. -/
def sizeofAllocChunk : U64 := 32

/-- `sizeof(valloc_free_chunk)`. -/
def sizeofFreeChunk : U64 := 24

/-- `valloc_mempool`, and the memory. A pointer to a free chunk is its address. -/
structure Mempool where
  top : U64
  freelist : U64
  chunks : Nat → AllocChunk
  chunkUnallocList : Option Nat
  chunkAllocList : Option Nat
  heap : Bytes.Mem

/-- How a call stops without a result. -/
inductive VallocFail
  | tooLarge (size left : U64)
  | noFreeSpace
  | noChunks
  | notAllocated (p : U64)
  | notListed (addr : U64)
  | cannotSplit
  /-- A loop over a list that does not end. -/
  | loop
  deriving DecidableEq, Repr

/-- The texts of the failures. -/
def VallocFail.msg : VallocFail → String
  | .tooLarge _ _ => "! error: cannot allocate %p bytes, only %p bytes left to allocate\n"
  | .noFreeSpace => "!! alloc_with_alignment: no free space\n"
  | .noChunks => "! err: cannot alloc any more chunks\n"
  | .notAllocated _ => "! err: free %p (double free?)\n"
  | .notListed _ => "! err: valloc_alloclist_dealloc no alloc at %p (double free?)\n"
  | .cannotSplit => "! valloc_freelist_split_alignment: cannot split a chunk that is not big enough"
  | .loop => ""

/-- The result of a call, or the failure and the pool where it stopped. -/
abbrev VallocResult (α : Type) := Except (VallocFail × Mempool) α

/-- A pointer, `none` for `NULL`. -/
def ptr (a : U64) : Option U64 := if a = 0 then none else some a

/-- `init_valloc`, whatever the memory contains. -/
def initValloc (area : HeapArea) (heap : Bytes.Mem) : Mempool where
  top := area.topOfHeap
  freelist := 0
  chunks := fun i =>
    { prev := if i = 0 then none else some (i - 1)
      next := if i = numAllocChunks - 1 then none else some (i + 1) }
  chunkUnallocList := some 0
  chunkAllocList := none
  heap := heap

namespace Mempool

/-! ## The allocated chunks -/

/-- The nodes with one of them replaced. -/
def setChunk (chunks : Nat → AllocChunk) (i : Nat) (c : AllocChunk) : Nat → AllocChunk :=
  fun j => if j = i then c else chunks j

/-- `SET(chunk, prev, p)`. -/
def setChunkPrev (chunks : Nat → AllocChunk) (chunk p : Option Nat) : Nat → AllocChunk :=
  match chunk with
  | some i => setChunk chunks i { chunks i with prev := p }
  | none => chunks

/-- `SET(chunk, next, p)`. -/
def setChunkNext (chunks : Nat → AllocChunk) (chunk p : Option Nat) : Nat → AllocChunk :=
  match chunk with
  | some i => setChunk chunks i { chunks i with next := p }
  | none => chunks

/-- The first part of `swap`: the chunk is taken out of the list with the head `src`. -/
def unlinkChunk (chunks : Nat → AllocChunk) (chunk : Nat) (src : Option Nat) : (Nat → AllocChunk) × Option Nat :=
  match (chunks chunk).prev with
  | some p =>
    let chunks := setChunkNext chunks (some p) (chunks chunk).next
    (setChunkPrev chunks (chunks chunk).next (chunks chunk).prev, src)
  | none => (setChunkPrev chunks (chunks chunk).next none, (chunks chunk).next)

/-- The second part of `swap`: the chunk is put in front of the list with the head `dst`. -/
def linkChunk (chunks : Nat → AllocChunk) (chunk : Nat) (dst : Option Nat) : (Nat → AllocChunk) × Option Nat :=
  match dst with
  | some d =>
    let chunks := setChunkNext chunks (some chunk) (some d)
    let chunks := setChunkPrev chunks (some chunk) none
    (setChunkPrev chunks (some d) (some chunk), some chunk)
  | none =>
    let chunks := setChunkNext chunks (some chunk) none
    (setChunkPrev chunks (some chunk) none, some chunk)

/-- `move_to_alloc`. -/
def moveToAlloc (m : Mempool) (chunk : Nat) : Mempool :=
  let (chunks, src) := unlinkChunk m.chunks chunk m.chunkUnallocList
  let (chunks, dst) := linkChunk chunks chunk m.chunkAllocList
  { m with chunks := chunks, chunkUnallocList := src, chunkAllocList := dst }

/-- `move_to_dealloc`. -/
def moveToDealloc (m : Mempool) (chunk : Nat) : Mempool :=
  let (chunks, src) := unlinkChunk m.chunks chunk m.chunkAllocList
  let (chunks, dst) := linkChunk chunks chunk m.chunkUnallocList
  { m with chunks := chunks, chunkAllocList := src, chunkUnallocList := dst }

/-- The nodes that a loop over `chunk_alloc_list` visits. -/
def allocChunks (m : Mempool) : VallocResult (List Nat) :=
  match Dll.walk (fun i => (m.chunks i).next) numAllocChunks m.chunkAllocList with
  | some l => .ok l
  | none => .error (.loop, m)

/-- `valloc_alloclist_find_alloc_chunk`. -/
def findAllocChunk (m : Mempool) (addr : U64) : VallocResult (Option Nat) := do
  let l ← m.allocChunks
  return l.find? fun i => (m.chunks i).start ≤ addr && addr < (m.chunks i).start + (m.chunks i).size

/-- `valloc_alloclist_dealloc`. -/
def alloclistDealloc (m : Mempool) (addr : U64) : VallocResult Mempool := do
  match ← m.findAllocChunk addr with
  | none => .error (.notListed addr, m)
  | some chunk => return m.moveToDealloc chunk

/-- `valloc_alloclist_alloc`. -/
def alloclistAlloc (m : Mempool) (addr size : U64) : VallocResult Mempool :=
  match m.chunkUnallocList with
  | none => .error (.noChunks, m)
  | some head =>
    .ok ({ m with chunks := setChunk m.chunks head { m.chunks head with start := addr, size := size } }.moveToAlloc head)

/-- `valloc_is_region_allocated`: an allocated chunk starts in the region, both ends included. -/
def isRegionAllocated (m : Mempool) (start last : U64) : VallocResult Bool := do
  let l ← m.allocChunks
  return l.any fun i => start ≤ (m.chunks i).start && (m.chunks i).start ≤ last

/-! ## The free chunks -/

/-- `chunk->size`. -/
def chunkSize (m : Mempool) (chunk : U64) : U64 := Bytes.load64 m.heap chunk.toNat

/-- `chunk->prev`. -/
def chunkPrev (m : Mempool) (chunk : U64) : U64 := Bytes.load64 m.heap (chunk.toNat + 8)

/-- `chunk->next`. -/
def chunkNext (m : Mempool) (chunk : U64) : U64 := Bytes.load64 m.heap (chunk.toNat + 16)

/-- `chunk->size = v`. -/
def setSize (m : Mempool) (chunk v : U64) : Mempool := { m with heap := Bytes.store64 m.heap chunk.toNat v }

/-- `chunk->prev = v`. -/
def setPrev (m : Mempool) (chunk v : U64) : Mempool := { m with heap := Bytes.store64 m.heap (chunk.toNat + 8) v }

/-- `chunk->next = v`. -/
def setNext (m : Mempool) (chunk v : U64) : Mempool := { m with heap := Bytes.store64 m.heap (chunk.toNat + 16) v }

/-- `valloc_freelist_allocate_free_chunk`. -/
def allocateFreeChunk (m : Mempool) (addr size : U64) : Mempool :=
  let m := m.setSize addr size
  let m := if m.freelist = 0 then m else m.setPrev m.freelist addr
  let m := m.setNext addr m.freelist
  let m := m.setPrev addr 0
  { m with freelist := addr }

/-- `valloc_freelist_remove_chunk`. -/
def removeChunk (m : Mempool) (chunk : U64) : Mempool :=
  let m := if m.chunkPrev chunk = 0 then m else m.setNext (m.chunkPrev chunk) (m.chunkNext chunk)
  let m := if m.chunkNext chunk = 0 then m else m.setPrev (m.chunkNext chunk) (m.chunkPrev chunk)
  if m.chunkPrev chunk = 0 then { m with freelist := m.chunkNext chunk } else m

/-- The chunks that a loop over `freelist` visits. -/
def freeChunks (area : HeapArea) (m : Mempool) : VallocResult (List U64) :=
  match Dll.walk (fun c => ptr (m.chunkNext c)) area.topOfHeap.toNat (ptr m.freelist) with
  | some l => .ok l
  | none => .error (.loop, m)

/-- The body of the loop of `valloc_freelist_find_best`, on `smallest_space` and `best`. -/
def bestStep (m : Mempool) (size alignment : U64) (acc : U64 × Option U64) (cur : U64) : U64 × Option U64 :=
  let align := alignUpTo cur alignment - cur
  if m.chunkSize cur > size + align && m.chunkSize cur < acc.1 then (m.chunkSize cur, some cur) else acc

/-- `valloc_freelist_find_best`. -/
def findBest (area : HeapArea) (m : Mempool) (size alignment : U64) : VallocResult (Option U64) := do
  let l ← m.freeChunks area
  return (l.foldl (m.bestStep size alignment) (~~~0, none)).2

/-- `valloc_freelist_split_alignment`. The size of the removed chunk is still in the memory. -/
def splitAlignment (m : Mempool) (chunk size alignment : U64) : VallocResult (Mempool × U64) :=
  let chunkAlignment := alignUpTo chunk alignment - chunk
  if m.chunkSize chunk < size + chunkAlignment then .error (.cannotSplit, m)
  else
    let m := m.removeChunk chunk
    let chunk1Size := chunkAlignment
    let chunk2Size := size
    let chunk3Size := m.chunkSize chunk - chunk1Size - chunk2Size
    let m := m.allocateFreeChunk (chunk + chunkAlignment) size
    let m := if chunk1Size > sizeofFreeChunk then m.allocateFreeChunk chunk chunk1Size else m
    let m :=
      if chunk3Size > sizeofFreeChunk then m.allocateFreeChunk (chunk + chunk1Size + chunk2Size) chunk3Size else m
    .ok (m, chunk + chunk1Size)

/-- The test and the updates of `__valloc_freelist_compact_chunk_possibility`, for `chunk1` below `chunk2`: the pool
with the two combined, if they touch or the space between them is free. -/
def compactPossibility (m : Mempool) (chunk1 chunk2 : U64) : VallocResult (Option Mempool) := do
  let chunk1End := chunk1 + m.chunkSize chunk1
  if chunk1End = chunk2 then
    return some ((m.setSize chunk1 (m.chunkSize chunk1 + m.chunkSize chunk2)).removeChunk chunk2)
  else if !(← m.isRegionAllocated chunk1End chunk2) then
    return some ((m.setSize chunk1 (m.chunkSize chunk1 + ((chunk2 - chunk1End) + m.chunkSize chunk2))).removeChunk
      chunk2)
  else return none

/-- The body of the loop of `__compact_together`: combine `chunk` with `cur`. The result has the combined chunk. -/
def compactStep (m : Mempool) (chunk cur : U64) : VallocResult (Option (Mempool × U64)) :=
  if chunk < cur then do return (← m.compactPossibility chunk cur).map fun m => (m, chunk)
  else if chunk ≠ cur then do return (← m.compactPossibility cur chunk).map fun m => (m, cur)
  else return none

/-- `__compact_together`, for at most `n` chunks: the first chunk that can be combined ends the loop, and the combined
chunk is compacted. -/
def compactTogether (area : HeapArea) : Nat → Mempool → U64 → VallocResult Mempool
  | 0, m, _ => .error (.loop, m)
  | n + 1, m, chunk => do
    let l ← m.freeChunks area
    match ← l.findSomeM? (m.compactStep chunk) with
    | some (m, chunk) => compactTogether area n m chunk
    | none => return m

/-- `__next_free_chunk`. -/
def nextFreeChunk (area : HeapArea) (m : Mempool) : VallocResult (Option U64) := do
  let l ← m.freeChunks area
  return l.foldl (fun best cur =>
    match best with
    | none => some cur
    | some b => if b > cur then some cur else best) none

/-- `__shift_top`, past at most `n` chunks. -/
def shiftTop (area : HeapArea) : Nat → Mempool → VallocResult Mempool
  | 0, m => .error (.loop, m)
  | n + 1, m => do
    match ← m.nextFreeChunk area with
    | none => return m
    | some next =>
      let chunkEnd := next + m.chunkSize next
      if ← m.isRegionAllocated m.top next then return m
      else shiftTop area n ({ m with top := chunkEnd }.removeChunk next)

/-- `valloc_freelist_compact_chunk`. -/
def compactChunk (area : HeapArea) (m : Mempool) (chunk : U64) : VallocResult Mempool := do
  let m ← compactTogether area area.topOfHeap.toNat m chunk
  shiftTop area area.topOfHeap.toNat m

/-! ## The calls -/

/-- `is_pow2`. -/
def isPow2 (i : U64) : Bool :=
  let body := fun i : U64 => if i = 0 then .inr false else if i % 2 = 1 then .inr (decide (i = 1)) else .inl (i >>> 1)
  (Loop.untilReturn body 65 i).getD false

/-- The loop of `next_largest_pow2`: the number of bits of `i`. -/
def countBits (i : U64) : Nat :=
  let body := fun s : Nat × U64 => if s.2 = 0 then .inr s.1 else .inl (s.1 + 1, s.2 >>> 1)
  (Loop.untilReturn body 65 (0, i)).getD 0

/-- `next_largest_pow2`. A shift by 64, which C leaves open, is a shift by 0 on this machine. -/
def nextLargestPow2 (i : U64) : U64 := 1#64 <<< (countBits i % 64)

/-- `valloc_memset`. -/
def vallocMemset (m : Mempool) (p : U64) (value : BitVec 8) (size : U64) : Mempool :=
  { m with heap := Bytes.fill m.heap p.toNat ((p + size).toNat - p.toNat) value }

/-- `__alloc_with_alignment`. -/
def allocWithAlignmentAux (area : HeapArea) (m : Mempool) (size alignment : U64) : VallocResult (Mempool × U64) := do
  match ← m.findBest area size alignment with
  | some freeChunk =>
    let (m, freeChunk) ← m.splitAlignment freeChunk size alignment
    let m ← m.alloclistAlloc freeChunk size
    return (m.removeChunk freeChunk, freeChunk)
  | none =>
    if size > m.top - area.botOfHeap then .error (.tooLarge size (m.top - area.botOfHeap), m)
    else
      let newTop := alignPow2 (m.top - size) alignment
      if newTop < area.botOfHeap then .error (.noFreeSpace, m)
      else
        let allocatedSize := m.top - newTop
        let m := { m with top := newTop }
        let m ← m.alloclistAlloc newTop allocatedSize
        return (m, newTop)

/-- The size and the alignment with which `alloc_with_alignment` goes on. -/
def alignmentRequest (size alignment : U64) : U64 × U64 :=
  let (size, alignment) := if size < sizeofFreeChunk then (nextLargestPow2 sizeofFreeChunk, 8) else (size, alignment)
  (size, if alignment < sizeofAllocChunk then nextLargestPow2 sizeofAllocChunk else alignment)

/-- The size and the alignment with which `alloc` goes on. -/
def allocRequest (size : U64) : U64 × U64 :=
  let size := if isPow2 size then size else nextLargestPow2 size
  let alignment := if size ≤ 8 then size else 8
  if size < sizeofFreeChunk then (nextLargestPow2 sizeofFreeChunk, 8) else (size, alignment)

/-- The end of both: the block is taken, and always zero. -/
def allocZeroed (area : HeapArea) (m : Mempool) (req : U64 × U64) : VallocResult (Mempool × U64) := do
  let (m, p) ← m.allocWithAlignmentAux area req.1 req.2
  return (m.vallocMemset p 0 req.1, p)

/-- `alloc_with_alignment`. -/
def allocWithAlignment (area : HeapArea) (m : Mempool) (size alignment : U64) : VallocResult (Mempool × U64) :=
  m.allocZeroed area (alignmentRequest size alignment)

/-- `alloc`. -/
def alloc (area : HeapArea) (m : Mempool) (size : U64) : VallocResult (Mempool × U64) :=
  m.allocZeroed area (allocRequest size)

/-- `free`. -/
def free (area : HeapArea) (m : Mempool) (p : U64) : VallocResult Mempool := do
  match ← m.findAllocChunk p with
  | none => .error (.notAllocated p, m)
  | some chk =>
    let size := (m.chunks chk).size
    let m ← m.alloclistDealloc p
    let m := m.allocateFreeChunk p size
    m.compactChunk area m.freelist

end Mempool

/-! ## Runs -/

/-- The blocks that are allocated: the starts and sizes of the nodes in `chunk_alloc_list`. -/
def Mempool.Live (m : Mempool) (start size : U64) : Prop :=
  ∃ l, m.allocChunks = .ok l ∧ ∃ i ∈ l, (m.chunks i).start = start ∧ (m.chunks i).size = size

/-- What happens to the heap between two states: a call, or a write of the program. -/
inductive VallocOp
  | alloc (size : U64)
  | allocWithAlignment (size alignment : U64)
  | free (p : U64)
  | write
  deriving DecidableEq, Repr

/-- One step. Only the start of a block may be freed, and only blocks may be written. -/
inductive VallocStep (area : HeapArea) (m : Mempool) : VallocOp → Mempool → Prop
  | alloc {size : U64} {m' : Mempool} {p : U64} (h : m.alloc area size = .ok (m', p)) :
    VallocStep area m (.alloc size) m'
  | allocWithAlignment {size alignment : U64} {m' : Mempool} {p : U64}
    (h : m.allocWithAlignment area size alignment = .ok (m', p)) :
    VallocStep area m (.allocWithAlignment size alignment) m'
  | free {p size : U64} {m' : Mempool} (hlive : m.Live p size) (h : m.free area p = .ok m') :
    VallocStep area m (.free p) m'
  | write {heap : Bytes.Mem} (h : ∀ x, heap x ≠ m.heap x →
      ∃ start size, m.Live start size ∧ start.toNat ≤ x ∧ x < start.toNat + size.toNat) :
    VallocStep area m .write { m with heap := heap }

end LitmusHarness
