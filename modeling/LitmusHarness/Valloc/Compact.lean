import LitmusHarness.Valloc.FreeList
import LitmusHarness.Valloc.Layout

/-!
# Compacting: `__compact_together` and `__shift_top`

`Coalesced` has a pool with its lists and headers and the layout that they represent. While a chunk is compacted it is
the one about whose neighbours nothing is known (`Compacting`). Each combination keeps this (`compactStep_ok`), and
makes the freelist shorter, so the recursion ends, with no two free chunks left to combine (`compactTogether_ok`).
Moving the top then gives up free chunks until a block is below all of them (`shiftTop_ok`). Together they turn a pool
in which a block has been freed into a `Heap` (`compactChunk_ok`). The blocks that are left keep their bytes
(`SameBytes`).
-/

namespace LitmusHarness

namespace Mempool

/-- The allocated blocks of the nodes `la`. -/
def live (m : Mempool) (la : List Nat) : List Chunk := la.map m.block

/-- A pool, with what its lists contain and how this is laid out. -/
structure Coalesced (area : HeapArea) (last : Nat) (m : Mempool) (la lu : List Nat) (free : List Chunk) : Prop where
  nodes : Nodes m la lu
  headers : Free m free
  layout : Layout area m.top.toNat last free (m.live la)
  sep : Separated (m.live la) free

/-- A pool between two calls. -/
structure Heap (area : HeapArea) (last : Nat) (m : Mempool) (la lu : List Nat) (free : List Chunk) : Prop
    extends Coalesced area last m la lu free where
  below : Below (m.live la) free

/-- A pool while the free chunk `x` is compacted. -/
structure Compacting (area : HeapArea) (last : Nat) (m : Mempool) (la lu : List Nat) (x : Chunk) (free : List Chunk) :
    Prop where
  nodes : Nodes m la lu
  headers : Free m free
  layout : Layout area m.top.toNat last free (m.live la)
  sep : SeparatedBut (m.live la) x free
  mem : x ∈ free

variable {area : HeapArea} {m : Mempool} {la lu : List Nat} {free rest : List Chunk} {c d x : Chunk} {top last : Nat}

theorem SameNodes.live {m' : Mempool} (h : SameNodes m m') : m'.live la = m.live la :=
  List.map_congr_left fun i _ => by rw [block, h.chunks]; rfl

/-- The bytes of the blocks are the same. -/
def SameBytes (m m' : Mempool) (live : List Chunk) : Prop := ∀ b ∈ live, ∀ x, b.lo ≤ x → x < b.hi → m'.heap x = m.heap x

theorem SameBytes.refl (m : Mempool) (live : List Chunk) : SameBytes m m live := fun _ _ _ _ _ => rfl

theorem SameBytes.trans {m₁ m' : Mempool} {live : List Chunk} (h : SameBytes m m₁ live) (h' : SameBytes m₁ m' live) :
    SameBytes m m' live := fun b hb x h1 h2 => (h' b hb x h1 h2).trans (h b hb x h1 h2)

/-- No header is in a block. -/
theorem outOfHeaders {live : List Chunk} {b : Chunk} {x : Nat} (h : Layout area top last free live) (hb : b ∈ live)
    (h1 : b.lo ≤ x) (h2 : x < b.hi) : OutOfHeaders free x := fun c hc hx => by
  have hapart := h.free_live hc hb
  have hsize := h.size c (List.mem_append_left _ hc)
  rw [Chunk.Apart, Chunk.hi_eq c] at hapart
  omega

theorem freeChunks_ok (h : Free m free) (hlen : free.length < area.topOfHeap.toNat) :
    m.freeChunks area = .ok (free.map Chunk.start) := by
  have hwalk := h.linked.walk (n := area.topOfHeap.toNat) (by rw [List.length_map]; omega)
  unfold freeChunks
  rw [show (fun c => ptr (m.chunkNext c)) = m.freeLinks.next from rfl, hwalk]

/-- The end of a chunk. -/
theorem toNat_end (h : c.hi < 2 ^ 64) : (c.start + c.size).toNat = c.hi := by
  rw [BitVec.toNat_add]
  exact Nat.mod_eq_of_lt h

/-! ## Combining two chunks -/

/-- Resizing a chunk and removing another. -/
theorem setSize_removeChunk_ok (h : Free m free) (hp : free.Perm (c :: d :: rest)) (v : U64) :
    ∃ free', Free ((m.setSize c.start v).removeChunk d.start) free' ∧ free'.Perm (⟨c.start, v⟩ :: rest) ∧
      ∀ x, OutOfHeaders free x → ((m.setSize c.start v).removeChunk d.start).heap x = m.heap x := by
  have hc : c ∈ free := hp.mem_iff.mpr (by simp)
  obtain ⟨l₁, l₂, rfl⟩ := List.append_of_mem hc
  have hset := setSize_ok h v
  have hrest : (l₁ ++ l₂).Perm (d :: rest) := (List.perm_middle.symm.trans hp).cons_inv
  have hd : d ∈ l₁ ++ ⟨c.start, v⟩ :: l₂ :=
    List.perm_middle.mem_iff.mpr (List.mem_cons_of_mem _ (hrest.mem_iff.mpr List.mem_cons_self))
  obtain ⟨k₁, k₂, heq⟩ := List.append_of_mem hd
  have hperm : (d :: (k₁ ++ k₂)).Perm (d :: ⟨c.start, v⟩ :: rest) := by
    apply List.perm_middle.symm.trans
    rw [← heq]
    exact (List.perm_middle.trans (hrest.cons _)).trans (List.Perm.swap _ _ _)
  rw [heq] at hset
  refine ⟨k₁ ++ k₂, removeChunk_ok hset, hperm.cons_inv, fun x hx => ?_⟩
  refine (removeChunk_heap hset fun e he => ?_).trans (setSize_heap (hx c hc))
  rcases List.mem_cons.mp (hperm.cons_inv.mem_iff.mp he) with rfl | he
  · exact hx c hc
  · exact hx e (hp.mem_iff.mpr (by simp [he]))

theorem setSize_removeChunk_frame (m : Mempool) (a b v : U64) : SameNodes m ((m.setSize a v).removeChunk b) ∧
    ((m.setSize a v).removeChunk b).top = m.top := by
  obtain ⟨hsame, htop⟩ := removeChunk_frame (m.setSize a v) b
  exact ⟨⟨hsame.chunks, hsame.unalloc, hsame.alloc⟩, htop⟩

/-- `c` and `d` are combined, or a block is between them. -/
theorem compactPossibility_ok (hn : Nodes m la lu) (h : Free m free) (hp : free.Perm (c :: d :: rest))
    (hl : Layout area top last free (m.live la)) :
    (m.compactPossibility c.start d.start = .ok none ∧ Between (m.live la) c d) ∨
      ∃ m' free', m.compactPossibility c.start d.start = .ok (some m') ∧ ¬Between (m.live la) c d ∧ Free m' free' ∧
        free'.Perm (c.merge d :: rest) ∧ SameNodes m m' ∧ m'.top = m.top ∧
        ∀ x, OutOfHeaders free x → m'.heap x = m.heap x := by
  have hc : c ∈ free := hp.mem_iff.mpr (by simp)
  have hd : d ∈ free := hp.mem_iff.mpr (by simp)
  have hend := toNat_end (hl.hi_lt (List.mem_append_left _ hc))
  unfold compactPossibility
  rw [h.size c hc, h.size d hd]
  by_cases htouch : c.start + c.size = d.start
  · -- they touch
    have hsize : c.size + d.size = d.start + d.size - c.start := by
      rw [← htouch]
      grind
    obtain ⟨free', hfree', hperm, hheap⟩ := setSize_removeChunk_ok h hp (c.size + d.size)
    obtain ⟨hsame, htop⟩ := setSize_removeChunk_frame m c.start d.start (c.size + d.size)
    rw [hsize] at hperm
    refine .inr ⟨_, free', if_pos htouch, ?_, hfree', hperm, hsame, htop, hheap⟩
    rintro ⟨b, hb, h1, h2⟩
    have hapart := hl.free_live hd hb
    have hlo : c.hi = d.lo := hend.symm.trans (congrArg BitVec.toNat htouch)
    have hs1 := hl.size d (List.mem_append_left _ hd)
    have hs2 := hl.size b (List.mem_append_right _ hb)
    rw [Chunk.Apart, Chunk.hi_eq d, Chunk.hi_eq b] at hapart
    omega
  · -- whether something between them is allocated
    obtain ⟨r, hr, hiff⟩ := isRegionAllocated_ok hn (c.start + c.size) d.start
    have hbetween : r = true ↔ Between (m.live la) c d := by
      rw [hiff, hend]
      constructor
      · rintro ⟨j, hj, hle⟩
        exact ⟨m.block j, List.mem_map_of_mem hj, hle⟩
      · rintro ⟨b, hb, hle⟩
        obtain ⟨j, hj, rfl⟩ := List.mem_map.mp hb
        exact ⟨j, hj, hle⟩
    have hrun : ∀ f : Bool → VallocResult (Option Mempool),
        (m.isRegionAllocated (c.start + c.size) d.start >>= f) = f r := fun f => by
      rw [hr]
      rfl
    simp only [htouch, if_false, hrun]
    cases r with
    | true => exact .inl ⟨rfl, hbetween.mp rfl⟩
    | false =>
      have hsize : c.size + (d.start - (c.start + c.size) + d.size) = d.start + d.size - c.start := by grind
      obtain ⟨free', hfree', hperm, hheap⟩ :=
        setSize_removeChunk_ok h hp (c.size + (d.start - (c.start + c.size) + d.size))
      obtain ⟨hsame, htop⟩ :=
        setSize_removeChunk_frame m c.start d.start (c.size + (d.start - (c.start + c.size) + d.size))
      rw [hsize] at hperm
      exact .inr ⟨_, free', rfl, fun hb => Bool.false_ne_true (hbetween.mpr hb), hfree', hperm, hsame, htop, hheap⟩

/-! ## Combining all -/

/-- What combining two chunks, one of which is compacted, gives. -/
theorem Compacting.merge {m' : Mempool} {free' : List Chunk} (h : Compacting area last m la lu x free)
    (hp : free.Perm (c :: d :: rest)) (hlt : c.hi ≤ d.lo) (hx : x = c ∨ x = d) (hnot : ¬Between (m.live la) c d)
    (hfree' : Free m' free') (hp' : free'.Perm (c.merge d :: rest)) (hsame : SameNodes m m') (htop : m'.top = m.top) :
    Compacting area last m' la lu (c.merge d) free' := by
  have hlayout : Layout area m.top.toNat last (c :: d :: rest) (m.live la) := h.layout.perm (hp.append_right _)
  have hsep : SeparatedBut (m.live la) x (c :: d :: rest) := fun f hf g hg =>
    h.sep f (hp.mem_iff.mpr hf) g (hp.mem_iff.mpr hg)
  have hno : ∀ e ∈ rest ++ m.live la, ¬(c.hi ≤ e.lo ∧ e.lo ≤ d.lo) := by
    intro e he
    rcases List.mem_append.mp he with he | he
    · exact hsep.gap hlayout hlt hx hnot he
    · exact fun hgap => hnot ⟨e, he, hgap⟩
  refine ⟨(hsame.nodes h.nodes).1, hfree', ?_, ?_, hp'.mem_iff.mpr List.mem_cons_self⟩
  · rw [hsame.live, htop]
    exact (hlayout.merge hlt hno).perm (hp'.symm.append_right _)
  · rw [hsame.live]
    intro f hf g hg
    exact hsep.merge hlayout hlt hx hnot f (hp'.mem_iff.mp hf) g (hp'.mem_iff.mp hg)

/-- **One test of the loop**: nothing is left to combine, or the chunk is combined with this one. -/
theorem compactStep_ok (h : Compacting area last m la lu x free) {e : Chunk} (he : e ∈ free) :
    (m.compactStep x.start e.start = .ok none ∧
      (e ≠ x → (x.hi ≤ e.lo → Between (m.live la) x e) ∧ (e.hi ≤ x.lo → Between (m.live la) e x))) ∨
    ∃ m' x' free', m.compactStep x.start e.start = .ok (some (m', x'.start)) ∧
      Compacting area last m' la lu x' free' ∧ free'.length + 1 = free.length ∧ SameNodes m m' ∧ m'.top = m.top ∧
        SameBytes m m' (m.live la) := by
  have hse := h.layout.size e (List.mem_append_left _ he)
  have hsx := h.layout.size x (List.mem_append_left _ h.mem)
  have hhe := e.hi_eq
  have hhx := x.hi_eq
  unfold compactStep
  by_cases hex : e = x
  · rw [hex, if_neg (by simp), if_neg (by simp)]
    exact .inl ⟨rfl, fun hne => absurd rfl hne⟩
  · -- the chunk and the lower and the upper of the two
    have hapart := h.layout.apart_of_ne (List.mem_append_left _ h.mem) (List.mem_append_left _ he) (Ne.symm hex)
    have hperm : free.Perm (x :: e :: (free.erase x).erase e) :=
      (List.perm_cons_erase h.mem).trans ((List.perm_cons_erase ((List.mem_erase_of_ne hex).mpr he)).cons x)
    have hlen := hperm.length_eq
    rw [List.length_cons, List.length_cons] at hlen
    rcases hapart with hlt | hlt
    · rw [if_pos (show x.start < e.start by rw [BitVec.lt_def]; unfold Chunk.lo at *; omega)]
      rcases compactPossibility_ok h.nodes h.headers hperm h.layout with ⟨hnone, hbetween⟩ |
        ⟨m', free', hsome, hnot, hfree', hp', hsame, htop, hheap⟩
      · rw [hnone]
        refine .inl ⟨rfl, fun _ => ⟨fun _ => hbetween, fun hle => ?_⟩⟩
        omega
      · rw [hsome]
        refine .inr ⟨m', x.merge e, free', rfl, h.merge hperm hlt (.inl rfl) hnot hfree' hp' hsame htop, ?_, hsame, htop,
          fun b hb y h1 h2 => hheap y (outOfHeaders h.layout hb h1 h2)⟩
        rw [hp'.length_eq, List.length_cons, hlen]
    · rw [if_neg (show ¬x.start < e.start by rw [BitVec.lt_def]; unfold Chunk.lo at *; omega),
        if_pos (show x.start ≠ e.start from fun heq => hex (h.headers.eq_of_start h.mem he heq).symm)]
      have hperm' : free.Perm (e :: x :: (free.erase x).erase e) := hperm.trans (List.Perm.swap _ _ _)
      rcases compactPossibility_ok h.nodes h.headers hperm' h.layout with ⟨hnone, hbetween⟩ |
        ⟨m', free', hsome, hnot, hfree', hp', hsame, htop, hheap⟩
      · rw [hnone]
        refine .inl ⟨rfl, fun _ => ⟨fun hle => ?_, fun _ => hbetween⟩⟩
        omega
      · rw [hsome]
        refine .inr ⟨m', e.merge x, free', rfl, h.merge hperm' hlt (.inr rfl) hnot hfree' hp' hsame htop, ?_, hsame, htop,
          fun b hb y h1 h2 => hheap y (outOfHeaders h.layout hb h1 h2)⟩
        rw [hp'.length_eq, List.length_cons, hlen]

/-- **The chunk is combined with all that it can be combined with.** -/
theorem compactTogether_ok {n : Nat} {m : Mempool} {x : Chunk} {free : List Chunk}
    (h : Compacting area last m la lu x free) (hlen : free.length ≤ n) : ∃ m' free',
      m.compactTogether area n x.start = .ok m' ∧ Coalesced area last m' la lu free' ∧ SameNodes m m' ∧ m'.top = m.top ∧
        SameBytes m m' (m.live la) := by
  induction n generalizing m x free with
  | zero =>
    rw [List.eq_nil_of_length_eq_zero (Nat.le_zero.mp hlen)] at h
    exact absurd h.mem List.not_mem_nil
  | succ n ih =>
    rw [compactTogether, freeChunks_ok h.headers h.layout.length_lt]
    let Next : Mempool × U64 → Prop := fun r => ∃ x' free', r.2 = x'.start ∧ Compacting area last r.1 la lu x' free' ∧
      free'.length + 1 = free.length ∧ SameNodes m r.1 ∧ r.1.top = m.top ∧ SameBytes m r.1 (m.live la)
    have hstep : ∀ a ∈ free.map Chunk.start, m.compactStep x.start a = .ok none ∧
        (∀ e ∈ free, e.start = a → e ≠ x →
          (x.hi ≤ e.lo → Between (m.live la) x e) ∧ (e.hi ≤ x.lo → Between (m.live la) e x)) ∨
        ∃ r, m.compactStep x.start a = .ok (some r) ∧ Next r := by
      intro a ha
      obtain ⟨e, he, rfl⟩ := List.mem_map.mp ha
      rcases compactStep_ok h he with ⟨hnone, hbetween⟩ | ⟨m', x', free', hsome, hnext⟩
      · refine .inl ⟨hnone, fun e' he' heq => ?_⟩
        rw [h.headers.eq_of_start he' he heq]
        exact hbetween
      · exact .inr ⟨(m', x'.start), hsome, x', free', rfl, hnext⟩
    rcases Loop.findSomeM?_total hstep with ⟨hnone, hall⟩ |
      ⟨⟨m₁, _⟩, hsome, x₁, free₁, rfl, h₁, hlen₁, hsame₁, htop₁, hbytes₁⟩
    · have hpos : 0 < x.size.toNat := by
        have := h.layout.size x (List.mem_append_left _ h.mem)
        omega
      have hsep := h.sep.separated hpos fun e he => hall e.start (List.mem_map_of_mem he) e he rfl
      refine ⟨m, free, ?_, ⟨h.nodes, h.headers, h.layout, hsep⟩, SameNodes.refl m, rfl, SameBytes.refl m _⟩
      simp only [bind, Except.bind, hnone]
      rfl
    · obtain ⟨m', free', hrun, hco, hsame, htop, hbytes⟩ := ih h₁ (show free₁.length ≤ n by omega)
      refine ⟨m', free', ?_, hco, hsame₁.trans hsame, htop.trans htop₁, hbytes₁.trans (hsame₁.live ▸ hbytes)⟩
      simp only [bind, Except.bind, hsome]
      exact hrun

/-! ## Moving the top -/

/-- The lowest element of a list, by a loop over it. -/
theorem foldl_lowest {l : List U64} {b : U64} : ∃ r, l.foldl (fun best cur =>
    match best with
    | none => some cur
    | some b => if b > cur then some cur else best) (some b) = some r ∧ r ∈ b :: l ∧ ∀ a ∈ b :: l, r ≤ a := by
  induction l generalizing b with
  | nil => exact ⟨b, rfl, by simp, by simp⟩
  | cons a l ih =>
    rw [List.foldl_cons]
    dsimp only
    split
    · rename_i hgt
      obtain ⟨r, hr, hmem, hle⟩ := @ih a
      refine ⟨r, hr, List.mem_cons_of_mem b hmem, List.forall_mem_cons.mpr ⟨?_, hle⟩⟩
      exact BitVec.le_trans (hle a List.mem_cons_self) (BitVec.le_of_lt hgt)
    · rename_i hgt
      obtain ⟨r, hr, hmem, hle⟩ := @ih b
      obtain ⟨hrb, hrl⟩ := List.forall_mem_cons.mp hle
      refine ⟨r, hr, ?_, List.forall_mem_cons.mpr ⟨hrb, List.forall_mem_cons.mpr ⟨?_, hrl⟩⟩⟩
      · rcases List.mem_cons.mp hmem with rfl | hmem
        · exact List.mem_cons_self
        · exact List.mem_cons_of_mem b (List.mem_cons_of_mem a hmem)
      · exact BitVec.le_trans hrb (BitVec.not_lt.mp hgt)

/-- The lowest free chunk. -/
theorem nextFreeChunk_ok (h : Free m free) (hlen : free.length < area.topOfHeap.toNat) :
    free = [] ∧ m.nextFreeChunk area = .ok none ∨
      ∃ c ∈ free, m.nextFreeChunk area = .ok (some c.start) ∧ ∀ e ∈ free, c.lo ≤ e.lo := by
  rw [nextFreeChunk, freeChunks_ok h hlen]
  cases free with
  | nil => exact .inl ⟨rfl, rfl⟩
  | cons d l =>
    obtain ⟨r, hr, hmem, hle⟩ := @foldl_lowest (l.map Chunk.start) d.start
    rw [← List.map_cons] at hmem hle
    obtain ⟨c, hc, rfl⟩ := List.mem_map.mp hmem
    exact .inr ⟨c, hc, congrArg Except.ok hr, fun e he => BitVec.le_def.mp (hle e.start (List.mem_map_of_mem he))⟩

/-- **Free chunks are given up until a block is below all of them.** -/
theorem shiftTop_ok {n : Nat} {m : Mempool} {free : List Chunk} (h : Coalesced area last m la lu free)
    (hlen : free.length < n) : ∃ m' free', m.shiftTop area n = .ok m' ∧ Heap area last m' la lu free' ∧
      SameNodes m m' ∧ SameBytes m m' (m.live la) := by
  induction n generalizing m free with
  | zero => exact absurd hlen (Nat.not_lt_zero _)
  | succ n ih =>
    rw [shiftTop]
    rcases nextFreeChunk_ok h.headers h.layout.length_lt with ⟨rfl, hnext⟩ | ⟨c, hc, hnext, hmin⟩
    · rw [hnext]
      exact ⟨m, [], rfl, ⟨h, fun c hc => absurd hc List.not_mem_nil⟩, SameNodes.refl m, SameBytes.refl m _⟩
    · obtain ⟨r, hr, hiff⟩ := isRegionAllocated_ok h.nodes m.top c.start
      have hmem : ∀ {b : Chunk}, b ∈ m.live la → m.top.toNat ≤ b.lo := fun hb =>
        (h.layout.inside _ (List.mem_append_right _ hb)).1
      have hrun : ∀ f : Bool → VallocResult Mempool, (m.isRegionAllocated m.top c.start >>= f) = f r := fun f => by
        rw [hr]
        rfl
      rw [hnext]
      simp only [bind, Except.bind] at hrun ⊢
      rw [hrun]
      cases r with
      | true =>
        -- a block is below the lowest free chunk
        obtain ⟨j, hj, -, hle⟩ := hiff.mp rfl
        exact ⟨m, free, rfl, ⟨h, fun e he => ⟨m.block j, List.mem_map_of_mem hj, hle.trans (hmin e he)⟩⟩, SameNodes.refl m,
          SameBytes.refl m _⟩
      | false =>
        have hno : ∀ b ∈ m.live la, ¬b.lo ≤ c.lo := by
          intro b hb hle
          obtain ⟨j, hj, rfl⟩ := List.mem_map.mp hb
          exact Bool.false_ne_true (hiff.mpr ⟨j, hj, hmem hb, hle⟩)
        obtain ⟨l₁, l₂, rfl⟩ := List.append_of_mem hc
        have hlayout : Layout area m.top.toNat last (c :: (l₁ ++ l₂)) (m.live la) :=
          h.layout.perm (List.perm_middle.append_right _)
        have hsub : ∀ e ∈ l₁ ++ l₂, e ∈ l₁ ++ c :: l₂ := fun e he => (h.headers.mem_rest.mp he).1
        have hend := toNat_end (h.layout.hi_lt (List.mem_append_left _ hc))
        rw [h.headers.size c hc]
        have hfree : Free { m with top := c.start + c.size } (l₁ ++ c :: l₂) :=
          h.headers.congr rfl fun e _ => ⟨rfl, rfl, rfl⟩
        obtain ⟨hsame, htop⟩ := removeChunk_frame { m with top := c.start + c.size } c.start
        have hsame₁ : SameNodes m ({ m with top := c.start + c.size }.removeChunk c.start) :=
          ⟨hsame.chunks, hsame.unalloc, hsame.alloc⟩
        have hco : Coalesced area last ({ m with top := c.start + c.size }.removeChunk c.start) la lu (l₁ ++ l₂) := by
          refine ⟨(hsame₁.nodes h.nodes).1, removeChunk_ok hfree, ?_, ?_⟩
          · rw [hsame₁.live, htop]
            dsimp only
            rw [hend]
            exact hlayout.shift (fun e he => hmin e (hsub e he)) hno
          · rw [hsame₁.live]
            exact h.sep.subset hsub
        have hbytes₁ : SameBytes m ({ m with top := c.start + c.size }.removeChunk c.start) (m.live la) :=
          fun b hb x h1 h2 => removeChunk_heap hfree fun e he => outOfHeaders h.layout hb h1 h2 e (hsub e he)
        rw [List.length_append, List.length_cons] at hlen
        obtain ⟨m', free', hrec, hheap, hsame', hbytes⟩ := ih hco (show (l₁ ++ l₂).length < n by
          rw [List.length_append]
          omega)
        exact ⟨m', free', hrec, hheap, hsame₁.trans hsame', hbytes₁.trans (hsame₁.live ▸ hbytes)⟩

/-- **Compacting restores the heap.** -/
theorem compactChunk_ok (h : Compacting area last m la lu x free) :
    ∃ m' free', m.compactChunk area x.start = .ok m' ∧ Heap area last m' la lu free' ∧ SameNodes m m' ∧
      SameBytes m m' (m.live la) := by
  obtain ⟨m₁, free₁, hrun₁, hco, hsame₁, -, hbytes₁⟩ := compactTogether_ok h (Nat.le_of_lt h.layout.length_lt)
  obtain ⟨m', free', hrun, hheap, hsame, hbytes⟩ := shiftTop_ok hco hco.layout.length_lt
  refine ⟨m', free', ?_, hheap, hsame₁.trans hsame, hbytes₁.trans (hsame₁.live ▸ hbytes)⟩
  rw [compactChunk, hrun₁]
  exact hrun

end Mempool

end LitmusHarness
