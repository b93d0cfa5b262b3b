import LitmusHarness.Lib.Reach
import LitmusHarness.Valloc.Heap

/-!
# Runs of the allocator, and what is left when all blocks are freed

A step keeps the heap (`vallocStep_heap`), and so does a run (`vallocRun_heap`); the space in use ends at the top of the
heap as long as no step loses the end of the last chunk. When nothing is allocated any more the freelist is empty, and
the top is the top of the heap if and only if no step has lost it (`vallocRun_drained_iff`). An example in which it is
lost are two blocks, of which one is freed and its space used again for an allocation of 41 bytes
(`vallocRun_fragment`).
-/

namespace LitmusHarness

/-- The size and the alignment that a call asks for. -/
def VallocOp.request : VallocOp → Option (U64 × U64)
  | .alloc size => some (Mempool.allocRequest size)
  | .allocWithAlignment size alignment => some (Mempool.alignmentRequest size alignment)
  | .free _ => none
  | .write => none

/-- What a call asks for in the chosen chunk is less than 2^64 bytes. -/
def VallocOp.Fits (area : HeapArea) (m : Mempool) (op : VallocOp) : Prop :=
  ∀ req, op.request = some req → Mempool.Fits area m req.1 req.2

/-- A call splits the last chunk, and what is above its block cannot hold a header. -/
def VallocOp.LosesEnd (area : HeapArea) (m : Mempool) (op : VallocOp) : Prop :=
  ∃ req, op.request = some req ∧ Mempool.LosesEnd area m req.1 req.2

/-- The runs, with their steps and the states in which these are taken, the latest first. -/
inductive VallocRun (area : HeapArea) (heap : Bytes.Mem) : List (Mempool × VallocOp) → Mempool → Prop
  | init : VallocRun area heap [] (initValloc area heap)
  | step {steps : List (Mempool × VallocOp)} {m m' : Mempool} {op : VallocOp} :
    VallocRun area heap steps m → VallocStep area m op m' → VallocRun area heap ((m, op) :: steps) m'

variable {area : HeapArea} {heap : Bytes.Mem} {m m' : Mempool} {op : VallocOp} {la lu : List Nat} {free : List Chunk}
  {last : Nat} {steps : List (Mempool × VallocOp)}

/-- A step is an allocation, a free or a write. -/
theorem VallocStep.cases (h : VallocStep area m op m') :
    (∃ req p, op.request = some req ∧ 24 ≤ req.1.toNat ∧ m.allocZeroed area req = .ok (m', p)) ∨
    (∃ p size, op.request = none ∧ m.Live p size ∧ m.free area p = .ok m') ∨
    ∃ heap', op.request = none ∧ m' = { m with heap := heap' } ∧
      ∀ x, heap' x ≠ m.heap x → ∃ start size, m.Live start size ∧ start.toNat ≤ x ∧ x < start.toNat + size.toNat := by
  cases h with
  | «alloc» h => exact .inl ⟨_, _, rfl, Mempool.allocRequest_size _, h⟩
  | «allocWithAlignment» h => exact .inl ⟨_, _, rfl, Mempool.alignmentRequest_size _ _, h⟩
  | «free» hlive h => exact .inr (.inl ⟨_, _, rfl, hlive, h⟩)
  | «write» h => exact .inr (.inr ⟨_, rfl, rfl, h⟩)

/-- **A step keeps the heap.** -/
theorem vallocStep_heap (hstep : VallocStep area m op m') (h : Mempool.Heap area last m la lu free)
    (hfits : op.Fits area m) : ∃ la' lu' free' last', Mempool.Heap area last' m' la' lu' free' ∧
      (last' = area.topOfHeap.toNat ↔ last = area.topOfHeap.toNat ∧ ¬op.LosesEnd area m) := by
  have hnone : op.request = none → ¬op.LosesEnd area m := by
    rintro hreq ⟨req, hreq', -⟩
    rw [hreq] at hreq'
    cases hreq'
  rcases hstep.cases with ⟨req, p, hreq, hsize, hrun⟩ | ⟨p, size, hreq, hlive, hrun⟩ | ⟨heap', hreq, rfl, hw⟩
  · obtain ⟨i, lu', free', last', hheap, -, -, -, -, -, hlast⟩ := Mempool.allocZeroed_ok h hsize (hfits req hreq) hrun
    have hlose : op.LosesEnd area m ↔ Mempool.LosesEnd area m req.1 req.2 := by
      constructor
      · rintro ⟨req', hreq', hl⟩
        rw [hreq] at hreq'
        cases hreq'
        exact hl
      · exact fun hl => ⟨req, hreq, hl⟩
    exact ⟨i :: la, lu', free', last', hheap, by rw [hlose]; exact hlast⟩
  · obtain ⟨i, hi, heq⟩ := List.mem_map.mp ((Mempool.live_iff h.nodes).mp hlive)
    obtain ⟨l₁, l₂, rfl⟩ := List.append_of_mem hi
    obtain ⟨m₁, free', hrun₁, hheap, -⟩ := Mempool.free_ok h
    have hp : (m.block i).start = p := congrArg Chunk.start heq
    rw [hp, hrun] at hrun₁
    cases hrun₁
    exact ⟨l₁ ++ l₂, i :: lu, free', last, hheap, fun heq => ⟨heq, hnone hreq⟩, fun heq => heq.1⟩
  · refine ⟨la, lu, free, last, h.write fun x hx => ?_, fun heq => ⟨heq, hnone hreq⟩, fun heq => heq.1⟩
    obtain ⟨start, size, hlive, h1, h2⟩ := hw x hx
    exact ⟨⟨start, size⟩, (Mempool.live_iff h.nodes).mp hlive, h1, h2⟩

/-- **A run keeps the heap.** -/
theorem vallocRun_heap (hrun : VallocRun area heap steps m) (hfits : ∀ s ∈ steps, s.2.Fits area s.1) :
    ∃ la lu free last, Mempool.Heap area last m la lu free ∧
      (last = area.topOfHeap.toNat ↔ ∀ s ∈ steps, ¬s.2.LosesEnd area s.1) := by
  induction hrun with
  | init =>
    refine ⟨[], _, [], _, Mempool.initValloc_heap area heap, fun _ s hs => absurd hs List.not_mem_nil, fun _ => rfl⟩
  | step _ hstep ih =>
    obtain ⟨hfit, hfits⟩ := List.forall_mem_cons.mp hfits
    obtain ⟨la, lu, free, last, hheap, hlast⟩ := ih hfits
    obtain ⟨la', lu', free', last', hheap', hlast'⟩ := vallocStep_heap hstep hheap hfit
    refine ⟨la', lu', free', last', hheap', ?_⟩
    rw [List.forall_mem_cons, hlast', hlast, and_comm]

/-- A heap without blocks has no free chunks, and its top is where the space in use ends. -/
theorem Mempool.Heap.drained (h : Heap area last m la lu free) (hnone : ∀ start size, ¬m.Live start size) :
    m.freelist = 0 ∧ m.top.toNat = last := by
  have hlive : m.live la = [] := List.eq_nil_iff_forall_not_mem.mpr fun b hb =>
    hnone b.start b.size ((live_iff h.nodes).mpr hb)
  have hfree : free = [] := List.eq_nil_iff_forall_not_mem.mpr fun c hc => by
    obtain ⟨b, hb, -⟩ := h.below c hc
    rw [hlive] at hb
    exact List.not_mem_nil hb
  have hl := h.layout
  rw [hlive, hfree] at hl
  constructor
  · rcases h.headers.head with ⟨h0, -⟩ | ⟨c, l, hcons, -⟩
    · exact h0
    · rw [hfree] at hcons
      cases hcons
  · rcases hl.reach with heq | ⟨c, hc, -⟩
    · exact heq
    · exact absurd hc List.not_mem_nil

/-- **When all blocks are freed**, nothing is in the freelist, and the top is the top of the heap if and only if no step
has lost the end of the last chunk. -/
theorem vallocRun_drained_iff (hrun : VallocRun area heap steps m) (hfits : ∀ s ∈ steps, s.2.Fits area s.1)
    (hnone : ∀ start size, ¬m.Live start size) :
    m.freelist = 0 ∧ (m.top = area.topOfHeap ↔ ∀ s ∈ steps, ¬s.2.LosesEnd area s.1) := by
  obtain ⟨la, lu, free, last, hheap, hlast⟩ := vallocRun_heap hrun hfits
  obtain ⟨hlist, htop⟩ := hheap.drained hnone
  refine ⟨hlist, ?_⟩
  rw [← hlast, ← htop, BitVec.toNat_inj]

/-! ## Runs that can be evaluated -/

/-- The pool after a call, if it returns. -/
def VallocOp.exec (area : HeapArea) (m : Mempool) : VallocOp → Option Mempool
  | .alloc size => (m.alloc area size).toOption.map Prod.fst
  | .allocWithAlignment size alignment => (m.allocWithAlignment area size alignment).toOption.map Prod.fst
  | .free p =>
    if (m.allocChunks.toOption.getD []).any fun i => (m.chunks i).start = p then (m.free area p).toOption else none
  | .write => none

theorem ok_of_toOption {α : Type} {r : VallocResult α} {a : α} (h : r.toOption = some a) : r = .ok a := by
  cases r with
  | error e => cases h
  | ok b =>
    cases h
    rfl

theorem VallocOp.exec_step (h : op.exec area m = some m') : VallocStep area m op m' := by
  cases op with
  | «alloc» size =>
    obtain ⟨⟨m₁, p⟩, hr, rfl⟩ := Option.map_eq_some_iff.mp h
    exact .alloc (ok_of_toOption hr)
  | «allocWithAlignment» size alignment =>
    obtain ⟨⟨m₁, p⟩, hr, rfl⟩ := Option.map_eq_some_iff.mp h
    exact .allocWithAlignment (ok_of_toOption hr)
  | «free» p =>
    unfold exec at h
    dsimp only at h
    split at h
    · rename_i hany
      obtain ⟨i, hi, hstart⟩ := List.any_eq_true.mp hany
      cases hl : m.allocChunks with
      | error e =>
        rw [hl] at hi
        exact absurd hi List.not_mem_nil
      | ok l =>
        rw [hl] at hi
        exact .free ⟨l, hl, i, hi, of_decide_eq_true hstart, rfl⟩ (ok_of_toOption h)
    · cases h
  | «write» => cases h

/-- What is evaluated is a run of these calls. -/
theorem VallocRun.exec (hrun : VallocRun area heap steps m) : ∀ {ops : List VallocOp} {m' : Mempool},
    Reach.run (fun m op => op.exec area m) m ops = some m' →
      ∃ steps', VallocRun area heap steps' m' ∧ steps'.map Prod.snd = ops.reverse ++ steps.map Prod.snd := by
  intro ops m' h
  induction ops generalizing steps m with
  | nil =>
    cases h
    exact ⟨steps, hrun, rfl⟩
  | cons op ops ih =>
    rw [Reach.run] at h
    cases hop : op.exec area m with
    | none => simp [hop] at h
    | some m₁ =>
      simp only [hop] at h
      obtain ⟨steps', hrun', hops⟩ := ih (hrun.step (VallocOp.exec_step hop)) h
      exact ⟨steps', hrun', by rw [hops, List.reverse_cons, List.append_assoc]; rfl⟩

/-- The same from `init_valloc` on. -/
theorem vallocRun_exec {ops : List VallocOp}
    (h : Reach.run (fun m op => op.exec area m) (initValloc area heap) ops = some m) :
    ∃ steps, VallocRun area heap steps m ∧ steps.map Prod.snd = ops.reverse ∧ ∀ s ∈ steps, s.2 ∈ ops := by
  obtain ⟨steps, hsteps, hops⟩ := (VallocRun.init : VallocRun area heap [] _).exec h
  rw [List.map_nil, List.append_nil] at hops
  refine ⟨steps, hsteps, hops, fun s hs => List.mem_reverse.mp ?_⟩
  rw [← hops]
  exact List.mem_map_of_mem hs

/-- A heap of 8 KiB. -/
def smallArea : HeapArea where
  botOfHeap := 0x10000
  topOfHeap := 0x12000
  pos := by decide
  le := by decide
  fits := by decide

/-- Two blocks of 64 bytes; the upper one is freed, its space is used for 41 bytes, and all is freed. -/
def fragmentOps : List VallocOp :=
  [.alloc 64, .alloc 64, .free 0x11fc0, .allocWithAlignment 41 8, .free 0x11fc0, .free 0x11f80]

/-- What is left of the first block above the 41 bytes stays lost: the top is 23 bytes below the top of the heap. -/
theorem vallocRun_fragment : ∃ steps m, VallocRun smallArea (fun _ => 0) steps m ∧
    (∀ start size, ¬m.Live start size) ∧ m.top = smallArea.topOfHeap - 23 ∧ m.top ≠ smallArea.topOfHeap := by
  have hrun : ((Reach.run (fun m op => op.exec smallArea m) (initValloc smallArea fun _ => 0) fragmentOps).map
      fun m => (m.top, m.chunkAllocList)) = some (smallArea.topOfHeap - 23, none) := by
    decide +kernel
  obtain ⟨m, hm, heq⟩ := Option.map_eq_some_iff.mp hrun
  obtain ⟨htop, hlist⟩ := Prod.mk.inj heq
  obtain ⟨steps, hsteps, -⟩ := vallocRun_exec hm
  refine ⟨steps, m, hsteps, ?_, htop, by rw [htop]; decide⟩
  rintro start size ⟨l, hl, i, hi, -⟩
  rw [Mempool.allocChunks, hlist] at hl
  cases hl
  exact List.not_mem_nil hi

/-- A block of 64 bytes, freed. -/
theorem vallocRun_drained_iff_oneBlock : ∃ steps m, VallocRun smallArea (fun _ => 0) steps m ∧ steps.length = 2 ∧
    m.freelist = 0 ∧ m.top = smallArea.topOfHeap := by
  have hrun : (((VallocOp.alloc 64).exec smallArea (initValloc smallArea fun _ => 0)).bind fun m₁ =>
      (VallocOp.free 0x11fc0).exec smallArea m₁).map (fun m => m.chunkAllocList) = some none := by
    decide +kernel
  obtain ⟨m, hm, hlist⟩ := Option.map_eq_some_iff.mp hrun
  obtain ⟨m₁, hm₁, hm⟩ := Option.bind_eq_some_iff.mp hm
  have hsteps := (VallocRun.init.step (VallocOp.exec_step hm₁)).step (VallocOp.exec_step hm)
  have hbest : (initValloc smallArea fun _ => 0).findBest smallArea 64 8 = .ok none := rfl
  have hreq : (VallocOp.alloc 64).request = some (64, 8) := by decide +kernel
  have hchunk : ∀ c, (initValloc smallArea fun _ => 0).findBest smallArea 64 8 ≠ .ok (some c) := by
    intro c hc
    rw [hbest] at hc
    cases hc
  obtain ⟨hlist', htop⟩ := vallocRun_drained_iff hsteps
    (by
      refine List.forall_mem_cons.mpr ⟨fun req h => (by cases h), List.forall_mem_cons.mpr ⟨fun req h => ?_, ?_⟩⟩
      · rw [hreq] at h
        cases h
        exact fun c hc => absurd hc (hchunk c)
      · exact fun s hs => absurd hs List.not_mem_nil)
    (by
      rintro start size ⟨l, hl, i, hi, -⟩
      rw [Mempool.allocChunks, hlist] at hl
      cases hl
      exact List.not_mem_nil hi)
  refine ⟨_, m, hsteps, rfl, hlist', htop.mpr (List.forall_mem_cons.mpr ⟨?_, List.forall_mem_cons.mpr ⟨?_, ?_⟩⟩)⟩
  · rintro ⟨req, h, -⟩
    cases h
  · rintro ⟨req, h, c, hc, -⟩
    rw [hreq] at h
    cases h
    exact hchunk c hc
  · exact fun s hs => absurd hs List.not_mem_nil

end LitmusHarness
