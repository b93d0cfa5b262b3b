import LitmusHarness.Valloc.AllocList
import Mathlib.Data.List.Pairwise
import Mathlib.Data.List.Perm.Subperm

/-!
# The layout of the heap

What the heap looks like as a set of chunks, without the lists and headers that represent it. `Layout` says that the
free chunks and the allocated blocks are apart and lie between `top` and the end of the space in use, and that some
chunk reaches this end. Between two free chunks an allocated block starts (`Separated`), so that the whole space between
free chunks with no such block is unused, and combining them (`Layout.merge`) does not run over another chunk. Below
each free chunk a block is allocated (`Below`), so that there are free chunks only as long as there are blocks.

There is one lemma for each thing that happens to the chunks: a block becomes free (`Layout.release`), two free chunks
are combined (`Layout.merge`), the lowest free chunk is given up (`Layout.shift`), a free chunk is split
(`Layout.split`, or `Layout.splitLoss` if its end gets lost) and a block is taken from below `top` (`Layout.extend`).
-/

namespace LitmusHarness

/-- Two chunks have no byte in common. -/
def Chunk.Apart (c d : Chunk) : Prop := c.hi ≤ d.lo ∨ d.hi ≤ c.lo

theorem Chunk.Apart.symm {c d : Chunk} (h : c.Apart d) : d.Apart c := Or.symm h

instance : Std.Symm Chunk.Apart := ⟨fun _ _ h => h.symm⟩

theorem Chunk.hi_eq (c : Chunk) : c.hi = c.lo + c.size.toNat := rfl

/-- The chunk from the start of `c` to the end of `d`. -/
def Chunk.merge (c d : Chunk) : Chunk := ⟨c.start, d.start + d.size - c.start⟩

@[simp] theorem Chunk.merge_lo (c d : Chunk) : (c.merge d).lo = c.lo := rfl

theorem Chunk.merge_hi {c d : Chunk} (hlt : c.lo ≤ d.lo) (hd : d.hi < 2 ^ 64) : (c.merge d).hi = d.hi := by
  unfold merge hi lo at *
  have hsum : (d.start + d.size).toNat = d.start.toNat + d.size.toNat := by
    rw [BitVec.toNat_add, Nat.mod_eq_of_lt hd]
  dsimp only
  rw [BitVec.toNat_sub_of_le (by rw [BitVec.le_def]; omega)]
  omega

/-- A block starts between two chunks. -/
def Between (live : List Chunk) (c d : Chunk) : Prop := ∃ b ∈ live, c.hi ≤ b.lo ∧ b.lo ≤ d.lo

/-- Between any two free chunks a block starts. -/
def Separated (live free : List Chunk) : Prop := ∀ f ∈ free, ∀ g ∈ free, f.hi ≤ g.lo → Between live f g

/-- The same, but for the chunk `x`: nothing is known about its neighbours. -/
def SeparatedBut (live : List Chunk) (x : Chunk) (free : List Chunk) : Prop :=
  ∀ f ∈ free, ∀ g ∈ free, f ≠ x → g ≠ x → f.hi ≤ g.lo → Between live f g ∨ f.hi ≤ x.lo ∧ x.hi ≤ g.lo

/-- Below any free chunk a block starts. -/
def Below (live free : List Chunk) : Prop := ∀ c ∈ free, ∃ b ∈ live, b.lo ≤ c.lo

/-- The chunks of a heap whose space is in use from `top` to `last`. -/
structure Layout (area : HeapArea) (top last : Nat) (free live : List Chunk) : Prop where
  bot : area.botOfHeap.toNat ≤ top
  topLe : top ≤ last
  lastLe : last ≤ area.topOfHeap.toNat
  inside : ∀ c ∈ free ++ live, top ≤ c.lo ∧ c.hi ≤ last
  size : ∀ c ∈ free ++ live, 24 ≤ c.size.toNat
  apart : (free ++ live).Pairwise Chunk.Apart
  reach : top = last ∨ ∃ c ∈ free ++ live, c.hi = last

variable {area : HeapArea} {top last : Nat} {free live rest l l₁ l₂ : List Chunk} {b c d x : Chunk}

theorem apart_perm {l' : List Chunk} (h : l.Perm l') : l.Pairwise Chunk.Apart ↔ l'.Pairwise Chunk.Apart :=
  h.pairwise_iff fun h => h.symm

theorem Layout.perm {free' live' : List Chunk} (h : Layout area top last free live)
    (hp : (free ++ live).Perm (free' ++ live')) : Layout area top last free' live' where
  bot := h.bot
  topLe := h.topLe
  lastLe := h.lastLe
  inside := fun c hc => h.inside c (hp.mem_iff.mpr hc)
  size := fun c hc => h.size c (hp.mem_iff.mpr hc)
  apart := (apart_perm hp).mp h.apart
  reach := h.reach.imp_right fun ⟨c, hc, heq⟩ => ⟨c, hp.mem_iff.mp hc, heq⟩

section Facts

variable (h : Layout area top last free live)

include h

theorem Layout.apart_of_ne (hc : c ∈ free ++ live) (hd : d ∈ free ++ live) (hne : c ≠ d) : c.Apart d :=
  h.apart.forall hc hd hne

/-- A free chunk and a block. -/
theorem Layout.free_live (hc : c ∈ free) (hb : b ∈ live) : c.Apart b :=
  (List.pairwise_append.mp h.apart).2.2 c hc b hb

theorem Layout.hi_lt (hc : c ∈ free ++ live) : c.hi < 2 ^ 64 := by
  have h1 := (h.inside c hc).2
  have h2 := h.lastLe
  have h3 := area.fits
  omega

theorem Layout.lo_pos (hc : c ∈ free ++ live) : 0 < c.lo := by
  have h1 := (h.inside c hc).1
  have h2 := h.bot
  have h3 := area.pos
  omega

/-- There are fewer free chunks than bytes. -/
theorem Layout.length_lt : free.length < area.topOfHeap.toNat := by
  have hapart : free.Pairwise Chunk.Apart := (List.pairwise_append.mp h.apart).1
  have hsize : ∀ c ∈ free, 24 ≤ c.size.toNat := fun c hc => h.size c (List.mem_append_left _ hc)
  have hnodup : (free.map Chunk.lo).Nodup := by
    rw [List.Nodup, List.pairwise_map]
    refine hapart.imp_of_mem fun {c d} hc hd hcd heq => ?_
    have h1 := hsize c hc
    have h2 := hsize d hd
    rcases hcd with hcd | hcd <;> rw [Chunk.hi_eq] at hcd <;> omega
  have hsub : free.map Chunk.lo ⊆ List.range' 1 (area.topOfHeap.toNat - 1) := by
    intro n hn
    obtain ⟨c, hc, rfl⟩ := List.mem_map.mp hn
    have h1 := h.lo_pos (List.mem_append_left _ hc)
    have h2 := (h.inside c (List.mem_append_left _ hc)).2
    have h3 := hsize c hc
    have h4 := h.lastLe
    rw [Chunk.hi_eq] at h2
    exact List.mem_range'_1.mpr (by omega)
  have hlen := (List.subperm_of_subset hnodup hsub).length_le
  rw [List.length_map, List.length_range'] at hlen
  have := area.pos
  have := area.le
  omega

end Facts

/-! ## Giving back -/

/-- **A block becomes a free chunk.** -/
theorem Layout.release (h : Layout area top last free (l₁ ++ b :: l₂)) : Layout area top last (b :: free) (l₁ ++ l₂) := by
  apply h.perm
  rw [← List.append_assoc, List.cons_append, ← List.append_assoc]
  exact List.perm_middle

theorem Separated.release (h : Layout area top last free (l₁ ++ b :: l₂)) (hsep : Separated (l₁ ++ b :: l₂) free) :
    SeparatedBut (l₁ ++ l₂) b (b :: free) := by
  intro f hf g hg hfb hgb hfg
  have hf' : f ∈ free := (List.mem_cons.mp hf).resolve_left hfb
  have hg' : g ∈ free := (List.mem_cons.mp hg).resolve_left hgb
  obtain ⟨b', hb', h1, h2⟩ := hsep f hf' g hg' hfg
  have hcases : b' = b ∨ b' ∈ l₁ ++ l₂ := List.mem_cons.mp (List.perm_middle.mem_iff.mp hb')
  rcases hcases with rfl | hmem
  · -- the block was the one between the two
    have hgb' := h.free_live hg' hb'
    have hsize := h.size g (List.mem_append_left _ hg')
    rw [Chunk.Apart, Chunk.hi_eq g] at hgb'
    exact .inr ⟨h1, by omega⟩
  · exact .inl ⟨b', hmem, h1, h2⟩

/-! ## Combining -/

section Merge

variable (h : Layout area top last (c :: d :: rest) live) (hlt : c.hi ≤ d.lo)

include h

theorem Layout.mem_rest {e : Chunk} (he : e ∈ rest) : c.Apart e ∧ d.Apart e := by
  obtain ⟨h1, h2⟩ := List.pairwise_cons.mp (List.pairwise_append.mp h.apart).1
  exact ⟨h1 e (List.mem_cons_of_mem d he), (List.pairwise_cons.mp h2).1 e he⟩

/-- A chunk that is apart from two others is not in either of them. -/
theorem Layout.ne_of_apart {e f : Chunk} (he : e ∈ (c :: d :: rest) ++ live) (hef : f.Apart e) : e ≠ f := by
  rintro rfl
  have := h.size e he
  rw [Chunk.Apart, Chunk.hi_eq] at hef
  omega

include hlt

/-- A chunk that is apart from two others, and does not start between them, is apart from the two combined. -/
theorem Layout.apart_merge {e : Chunk} (he : e ∈ rest ++ live) (hno : ¬(c.hi ≤ e.lo ∧ e.lo ≤ d.lo)) :
    (c.merge d).Apart e := by
  have hall := h.apart
  rw [List.cons_append, List.cons_append] at hall
  obtain ⟨hc, hrest⟩ := List.pairwise_cons.mp hall
  obtain ⟨hd, -⟩ := List.pairwise_cons.mp hrest
  have hce := hc e (List.mem_cons_of_mem d he)
  have hde := hd e he
  have hhi : (c.merge d).hi = d.hi :=
    Chunk.merge_hi (by rw [Chunk.hi_eq] at hlt; omega) (h.hi_lt (by simp))
  rw [Chunk.Apart, Chunk.hi_eq e] at hce hde ⊢
  rw [hhi, Chunk.merge_lo]
  omega

/-- **Two free chunks are combined**, with what is between them. -/
theorem Layout.merge (hno : ∀ e ∈ rest ++ live, ¬(c.hi ≤ e.lo ∧ e.lo ≤ d.lo)) :
    Layout area top last (c.merge d :: rest) live := by
  have hc : c ∈ (c :: d :: rest) ++ live := by simp
  have hd : d ∈ (c :: d :: rest) ++ live := by simp
  have hlo : c.lo ≤ d.lo := by
    rw [Chunk.hi_eq] at hlt
    omega
  have hhi : (c.merge d).hi = d.hi := Chunk.merge_hi hlo (h.hi_lt hd)
  have hsub : ∀ e ∈ rest ++ live, e ∈ (c :: d :: rest) ++ live := fun e he =>
    List.mem_cons_of_mem c (List.mem_cons_of_mem d he)
  refine ⟨h.bot, h.topLe, h.lastLe, ?_, ?_, ?_, ?_⟩
  · refine List.forall_mem_cons.mpr ⟨?_, fun e he => h.inside e (hsub e he)⟩
    rw [Chunk.merge_lo, hhi]
    exact ⟨(h.inside c hc).1, (h.inside d hd).2⟩
  · refine List.forall_mem_cons.mpr ⟨?_, fun e he => h.size e (hsub e he)⟩
    have h1 := h.size d hd
    have h2 := (c.merge d).hi_eq
    have h3 := d.hi_eq
    rw [Chunk.merge_lo, hhi] at h2
    omega
  · have hall := h.apart
    rw [List.cons_append, List.cons_append] at hall
    exact List.pairwise_cons.mpr ⟨fun e he => h.apart_merge hlt he (hno e he), (List.pairwise_cons.mp
      (List.pairwise_cons.mp hall).2).2⟩
  · apply h.reach.imp_right
    rintro ⟨e, he, heq⟩
    rw [List.cons_append, List.cons_append, List.mem_cons, List.mem_cons] at he
    rcases he with rfl | rfl | he
    · -- `c` is not the last chunk
      have h1 := (h.inside d hd).2
      have h2 := h.size d hd
      rw [Chunk.hi_eq] at h1
      omega
    · exact ⟨c.merge e, List.mem_cons_self, hhi.trans heq⟩
    · exact ⟨e, List.mem_cons_of_mem _ he, heq⟩

/-- No free chunk is between two that are not separated, if one of them is `x`. -/
theorem SeparatedBut.gap (hx : x = c ∨ x = d) (hsep : SeparatedBut live x (c :: d :: rest)) (hnot : ¬Between live c d)
    {e : Chunk} (he : e ∈ rest) : ¬(c.hi ≤ e.lo ∧ e.lo ≤ d.lo) := by
  rintro ⟨h1, h2⟩
  have hmem : e ∈ (c :: d :: rest) ++ live := by simp [he]
  obtain ⟨hce, hde⟩ := h.mem_rest he
  have hne : e ≠ c ∧ e ≠ d := ⟨h.ne_of_apart hmem hce, h.ne_of_apart hmem hde⟩
  have hsize := h.size e hmem
  have hsc := h.size c (by simp)
  have hsd := h.size d (by simp)
  have hcd : d ≠ c := by
    rintro rfl
    rw [Chunk.hi_eq] at hlt
    omega
  have hhi := e.hi_eq
  have hc := c.hi_eq
  have hd := d.hi_eq
  rw [Chunk.Apart] at hde
  rcases hx with rfl | rfl
  · rcases hsep e (by simp [he]) d (by simp) hne.1 hcd (by omega) with ⟨b, hb, h3, h4⟩ | ⟨h3, -⟩
    · exact hnot ⟨b, hb, by omega, h4⟩
    · omega
  · rcases hsep c (by simp) e (by simp [he]) hcd.symm hne.2 h1 with ⟨b, hb, h3, h4⟩ | ⟨-, h3⟩
    · exact hnot ⟨b, hb, h3, by omega⟩
    · omega

theorem SeparatedBut.merge (hx : x = c ∨ x = d) (hsep : SeparatedBut live x (c :: d :: rest))
    (hnot : ¬Between live c d) : SeparatedBut live (c.merge d) (c.merge d :: rest) := by
  intro f hf g hg hfm hgm hfg
  have hf' : f ∈ rest := (List.mem_cons.mp hf).resolve_left hfm
  have hg' : g ∈ rest := (List.mem_cons.mp hg).resolve_left hgm
  have hfgap := hsep.gap h hlt hx hnot hf'
  have hggap := hsep.gap h hlt hx hnot hg'
  obtain ⟨hcf, hdf⟩ := h.mem_rest hf'
  obtain ⟨hcg, hdg⟩ := h.mem_rest hg'
  have hmf : f ∈ (c :: d :: rest) ++ live := by simp [hf']
  have hmg : g ∈ (c :: d :: rest) ++ live := by simp [hg']
  have hsf := h.size f hmf
  have hsg := h.size g hmg
  have hsc := h.size c (by simp)
  have hsd := h.size d (by simp)
  have hmhi : (c.merge d).hi = d.hi :=
    Chunk.merge_hi (by rw [Chunk.hi_eq] at hlt; omega) (h.hi_lt (by simp))
  have hfx : f ≠ x := by
    rcases hx with rfl | rfl
    · exact h.ne_of_apart hmf hcf
    · exact h.ne_of_apart hmf hdf
  have hgx : g ≠ x := by
    rcases hx with rfl | rfl
    · exact h.ne_of_apart hmg hcg
    · exact h.ne_of_apart hmg hdg
  refine (hsep f (by simp [hf']) g (by simp [hg']) hfx hgx hfg).imp_right ?_
  rw [hmhi, Chunk.merge_lo]
  have hc := c.hi_eq
  have hd := d.hi_eq
  have hf := f.hi_eq
  have hg := g.hi_eq
  rw [Chunk.Apart] at hcf hdg
  rcases hx with rfl | rfl <;> omega

end Merge

/-- Nothing is left to combine with `x`. -/
theorem SeparatedBut.separated (hsep : SeparatedBut live x free) (hpos : 0 < x.size.toNat)
    (hnone : ∀ d ∈ free, d ≠ x → (x.hi ≤ d.lo → Between live x d) ∧ (d.hi ≤ x.lo → Between live d x)) :
    Separated live free := by
  intro f hf g hg hfg
  by_cases hfx : f = x
  · by_cases hgx : g = x
    · rw [hfx, hgx, Chunk.hi_eq] at hfg
      omega
    · rw [hfx] at hfg ⊢
      exact (hnone g hg hgx).1 hfg
  · by_cases hgx : g = x
    · rw [hgx] at hfg ⊢
      exact (hnone f hf hfx).2 hfg
    · rcases hsep f hf g hg hfx hgx hfg with hb | ⟨h1, h2⟩
      · exact hb
      · obtain ⟨b, hb, h3, h4⟩ := (hnone f hf hfx).2 h1
        rw [Chunk.hi_eq] at h2
        exact ⟨b, hb, h3, by omega⟩

/-! ## Moving the top -/

/-- **The lowest free chunk is given up**, if no block starts below it. -/
theorem Layout.shift (h : Layout area top last (c :: rest) live) (hmin : ∀ e ∈ rest, c.lo ≤ e.lo)
    (hno : ∀ b ∈ live, ¬b.lo ≤ c.lo) : Layout area c.hi last rest live := by
  have hc : c ∈ (c :: rest) ++ live := by simp
  have hsub : ∀ e ∈ rest ++ live, e ∈ (c :: rest) ++ live := fun e he => List.mem_cons_of_mem c he
  have hall := h.apart
  rw [List.cons_append] at hall
  obtain ⟨hapart, hrest⟩ := List.pairwise_cons.mp hall
  have hin := h.inside c hc
  have hbot := h.bot
  have hsize := h.size c hc
  refine ⟨?_, hin.2, h.lastLe, fun e he => ⟨?_, (h.inside e (hsub e he)).2⟩, fun e he => h.size e (hsub e he), hrest, ?_⟩
  · rw [Chunk.hi_eq]
    omega
  · have he' := hapart e he
    have hse := h.size e (hsub e he)
    rw [Chunk.Apart, Chunk.hi_eq e] at he'
    rcases List.mem_append.mp he with he | he
    · have := hmin e he
      omega
    · have := hno e he
      omega
  · rcases h.reach with heq | ⟨e, he, heq⟩
    · rw [Chunk.hi_eq] at hin
      omega
    · rw [List.cons_append, List.mem_cons] at he
      rcases he with rfl | he
      · exact .inl heq
      · exact .inr ⟨e, he, heq⟩

theorem Separated.subset (h : Separated live free) (hsub : ∀ c ∈ l, c ∈ free) : Separated live l :=
  fun f hf g hg => h f (hsub f hf) g (hsub g hg)

/-! ## Taking -/

section Split

variable {p : Chunk} {ps : List Chunk} (h : Layout area top last (c :: rest) live)
  (hin : ∀ q ∈ ps ++ [p], c.lo ≤ q.lo ∧ q.hi ≤ c.hi) (hsize : ∀ q ∈ ps ++ [p], 24 ≤ q.size.toNat)
  (hps : (ps ++ [p]).Pairwise Chunk.Apart)

/-- The chunks after a split, in another order. -/
theorem split_perm : (ps ++ rest ++ p :: live).Perm ((ps ++ [p]) ++ (rest ++ live)) := by
  rw [List.append_assoc ps, List.append_assoc ps]
  exact List.Perm.append_left ps List.perm_middle

theorem mem_split {e : Chunk} : e ∈ ps ++ rest ++ p :: live ↔ e ∈ ps ++ [p] ∨ e ∈ rest ++ live := by
  rw [split_perm.mem_iff, List.mem_append]

include h in
theorem Layout.apart_split {e q : Chunk} (he : e ∈ rest ++ live) (hq : c.lo ≤ q.lo ∧ q.hi ≤ c.hi) : q.Apart e := by
  have hall := h.apart
  rw [List.cons_append] at hall
  have := (List.pairwise_cons.mp hall).1 e he
  rw [Chunk.Apart] at this ⊢
  omega

include h hsize in
theorem Layout.size_split : ∀ e ∈ ps ++ rest ++ p :: live, 24 ≤ e.size.toNat := by
  intro e he
  rcases mem_split.mp he with he | he
  · exact hsize e he
  · exact h.size e (List.mem_cons_of_mem c he)

include h hin hps in
theorem Layout.pairwise_split : (ps ++ rest ++ p :: live).Pairwise Chunk.Apart := by
  have hall := h.apart
  rw [List.cons_append] at hall
  rw [apart_perm split_perm]
  exact List.pairwise_append.mpr ⟨hps, (List.pairwise_cons.mp hall).2, fun q hq e he => h.apart_split he (hin q hq)⟩

include h hin hsize hps in
/-- **A free chunk is split** into a block and other free chunks, one of which ends where it did. -/
theorem Layout.split (hlast : c.hi = last → ∃ q ∈ ps ++ [p], q.hi = last) :
    Layout area top last (ps ++ rest) (p :: live) := by
  have hc : c ∈ (c :: rest) ++ live := by simp
  have hcin := h.inside c hc
  refine ⟨h.bot, h.topLe, h.lastLe, fun e he => ?_, h.size_split hsize, h.pairwise_split hin hps, ?_⟩
  · rcases mem_split.mp he with he | he
    · have := hin e he
      omega
    · exact h.inside e (List.mem_cons_of_mem c he)
  · apply h.reach.imp_right
    rintro ⟨e, he, heq⟩
    rw [List.cons_append, List.mem_cons] at he
    rcases he with rfl | he
    · obtain ⟨q, hq, hqe⟩ := hlast heq
      exact ⟨q, mem_split.mpr (.inl hq), hqe⟩
    · exact ⟨e, mem_split.mpr (.inr he), heq⟩

include h hin hsize hps in
/-- **The last chunk is split and its end gets lost**: the space in use ends with the block. -/
theorem Layout.splitLoss (hlast : c.hi = last) (hmax : ∀ q ∈ ps, q.hi ≤ p.hi) :
    Layout area top p.hi (ps ++ rest) (p :: live) := by
  have hc : c ∈ (c :: rest) ++ live := by simp
  have hsub : ∀ e ∈ rest ++ live, e ∈ (c :: rest) ++ live := fun e he => List.mem_cons_of_mem c he
  have hall := h.apart
  rw [List.cons_append] at hall
  have hcin := h.inside c hc
  have hp := hin p (by simp)
  have hplo : p.lo ≤ p.hi := by
    rw [Chunk.hi_eq]
    omega
  have hle := h.lastLe
  refine ⟨h.bot, by omega, by omega, fun e he => ?_, h.size_split hsize, h.pairwise_split hin hps, ?_⟩
  · rcases mem_split.mp he with he | he
    · refine ⟨by have := hin e he; omega, ?_⟩
      rcases List.mem_append.mp he with he | he
      · exact hmax e he
      · rw [List.mem_singleton.mp he]
    · -- another chunk is below the one that is split
      have h1 := h.inside e (hsub e he)
      have h2 := (List.pairwise_cons.mp hall).1 e he
      have h3 := h.size e (hsub e he)
      rw [Chunk.Apart, Chunk.hi_eq e] at h2
      rw [Chunk.hi_eq e] at h1 ⊢
      omega
  · exact .inr ⟨p, mem_split.mpr (.inl (by simp)), rfl⟩

include h hin hsize in
theorem Separated.split (hsep : Separated live (c :: rest))
    (hmid : ∀ f ∈ ps, ∀ g ∈ ps, f.hi ≤ g.lo → f.hi ≤ p.lo ∧ p.lo ≤ g.lo) : Separated (p :: live) (ps ++ rest) := by
  have hps : ∀ q ∈ ps, c.lo ≤ q.lo ∧ q.hi ≤ c.hi ∧ 24 ≤ q.size.toNat := fun q hq =>
    ⟨(hin q (by simp [hq])).1, (hin q (by simp [hq])).2, hsize q (by simp [hq])⟩
  have hrest : ∀ e ∈ rest, c.Apart e ∧ 24 ≤ e.size.toNat := fun e he =>
    ⟨(List.pairwise_cons.mp (List.pairwise_append.mp h.apart).1).1 e he, h.size e (by simp [he])⟩
  have hold : ∀ f g : Chunk, Between live f g → Between (p :: live) f g := fun f g ⟨b, hb, hfg⟩ =>
    ⟨b, List.mem_cons_of_mem p hb, hfg⟩
  intro f hf g hg hfg
  rcases List.mem_append.mp hf with hf | hf <;> rcases List.mem_append.mp hg with hg | hg
  · exact ⟨p, List.mem_cons_self, hmid f hf g hg hfg⟩
  · obtain ⟨h1, h2, h3⟩ := hps f hf
    obtain ⟨h4, h5⟩ := hrest g hg
    rw [Chunk.Apart, Chunk.hi_eq g] at h4
    have := f.hi_eq
    obtain ⟨b, hb, h6, h7⟩ := hsep c List.mem_cons_self g (List.mem_cons_of_mem c hg) (by omega)
    exact hold f g ⟨b, hb, by omega, h7⟩
  · obtain ⟨h1, h2, h3⟩ := hps g hg
    obtain ⟨h4, h5⟩ := hrest f hf
    rw [Chunk.Apart, Chunk.hi_eq c] at h4
    have := g.hi_eq
    have := f.hi_eq
    have := c.hi_eq
    obtain ⟨b, hb, h6, h7⟩ := hsep f (List.mem_cons_of_mem c hf) c List.mem_cons_self (by omega)
    exact hold f g ⟨b, hb, h6, by omega⟩
  · exact hold f g (hsep f (List.mem_cons_of_mem c hf) g (List.mem_cons_of_mem c hg) hfg)

include hin in
theorem Below.split (hbelow : Below live (c :: rest)) : Below (p :: live) (ps ++ rest) := by
  intro e he
  rcases List.mem_append.mp he with he | he
  · obtain ⟨b, hb, hle⟩ := hbelow c List.mem_cons_self
    exact ⟨b, List.mem_cons_of_mem p hb, hle.trans (hin e (by simp [he])).1⟩
  · obtain ⟨b, hb, hle⟩ := hbelow e (List.mem_cons_of_mem c he)
    exact ⟨b, List.mem_cons_of_mem p hb, hle⟩

end Split

/-- **A block is taken from below `top`.** -/
theorem Layout.extend {p : Chunk} (h : Layout area top last free live) (hbot : area.botOfHeap.toNat ≤ p.lo)
    (htop : p.hi = top) (hsize : 24 ≤ p.size.toNat) : Layout area p.lo last free (p :: live) := by
  have hperm : (free ++ p :: live).Perm (p :: (free ++ live)) := List.perm_middle
  have hle := h.topLe
  have hhi := p.hi_eq
  refine ⟨hbot, by omega, h.lastLe, fun e he => ?_, fun e he => ?_, ?_, ?_⟩
  · rcases List.mem_cons.mp (hperm.mem_iff.mp he) with rfl | he
    · exact ⟨Nat.le_refl _, by omega⟩
    · have := h.inside e he
      omega
  · rcases List.mem_cons.mp (hperm.mem_iff.mp he) with rfl | he
    · exact hsize
    · exact h.size e he
  · rw [apart_perm hperm]
    refine List.pairwise_cons.mpr ⟨fun e he => .inl ?_, h.apart⟩
    have := h.inside e he
    omega
  · rcases h.reach with heq | ⟨e, he, heq⟩
    · exact .inr ⟨p, by simp, by omega⟩
    · exact .inr ⟨e, hperm.mem_iff.mpr (List.mem_cons_of_mem p he), heq⟩

theorem Separated.extend {p : Chunk} (h : Separated live free) : Separated (p :: live) free :=
  fun f hf g hg hfg => by
    obtain ⟨b, hb, hle⟩ := h f hf g hg hfg
    exact ⟨b, List.mem_cons_of_mem p hb, hle⟩

theorem Below.extend {p : Chunk} (h : Below live free) : Below (p :: live) free := fun c hc => by
  obtain ⟨b, hb, hle⟩ := h c hc
  exact ⟨b, List.mem_cons_of_mem p hb, hle⟩

end LitmusHarness
