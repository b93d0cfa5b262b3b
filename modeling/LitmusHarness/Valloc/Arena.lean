import LitmusHarness.Bitwise
import LitmusHarness.Lib.Bump
import LitmusHarness.Lib.Loop

/-!
# The arena: `arena_init` and `__alloc_arena`

An arena is a bump allocator in a block of the heap. The alignment of a request is the logarithm of its size, but at
most 8 bits. As long as the blocks are where the library places them, an allocation succeeds and does what the library
says (`mapM_allocArena_of_le`); blocks that are all in the data of the arena are there only if they fit
(`afterAll_le_of_mapM_allocArena`).
-/

namespace LitmusHarness

open Bump (Request roundUp after afterAll)

/-- `log2`. -/
def log2 (n : U64) : Nat :=
  let body := fun s : Nat × U64 => if s.2 = 1 then .inr s.1 else .inl (s.1 + 1, s.2 >>> 1)
  if n = 0 then 0 else (Loop.untilReturn body 64 (0, n)).getD 0

/-- `valloc_arena`, with the address of its `data`. -/
structure Arena where
  data : U64
  top : U64
  size : U64

/-- `arena_init`. -/
def arenaInit (arena size : U64) : Arena := { data := arena + 16, top := arena + 16, size }

/-- `__alloc_arena`; `none` is "! over-allocated arena". -/
def allocArena (size : U64) : StateT Arena Option U64 := fun arena =>
  let cur := alignUp arena.top (min 8 (log2 size))
  let top := cur + size
  if arena.size < top - arena.data then none else some (cur, { arena with top })

/-! ## `log2` -/

theorem log2_loop : ∀ (fuel k : Nat) (n : U64), n ≠ 0 → n.toNat < 2 ^ (fuel + 1) →
    Loop.untilReturn (fun s : Nat × U64 => if s.2 = 1 then .inr s.1 else .inl (s.1 + 1, s.2 >>> 1)) (fuel + 1) (k, n) =
      some (k + n.toNat.log2) := by
  intro fuel
  induction fuel with
  | zero =>
    intro k n hn hlt
    have hpos : n.toNat ≠ 0 := fun h => hn (BitVec.eq_of_toNat_eq h)
    have hone : n = 1 := BitVec.eq_of_toNat_eq (by change n.toNat = 1; omega)
    subst hone
    rfl
  | succ fuel ih =>
    intro k n hn hlt
    rw [Loop.untilReturn]
    by_cases hone : n = 1
    · subst hone
      rfl
    · have hshift : (n >>> 1).toNat = n.toNat / 2 := by rw [BitVec.toNat_ushiftRight, Nat.shiftRight_eq_div_pow]
      have htwo : 2 ≤ n.toNat := by
        have hpos : n.toNat ≠ 0 := fun h => hn (BitVec.eq_of_toNat_eq h)
        have hne : n.toNat ≠ 1 := fun h => hone (BitVec.eq_of_toNat_eq h)
        omega
      have hne : n >>> 1 ≠ 0 := fun h => by
        have hzero : n.toNat / 2 = 0 := hshift.symm.trans (congrArg BitVec.toNat h)
        omega
      simp only [hone, if_false]
      rw [ih (k + 1) (n >>> 1) hne (by rw [hshift]; omega), hshift, Nat.log2_def n.toNat, if_pos htwo]
      congr 1
      omega

theorem log2_eq (n : U64) : log2 n = n.toNat.log2 := by
  unfold log2
  by_cases hn : n = 0
  · subst hn
    rfl
  · rw [if_neg hn, log2_loop 63 0 n hn n.isLt, Option.getD_some, Nat.zero_add]

/-! ## One allocation -/

/-- The request for a number of bytes. -/
def request (size : Nat) : Request := ⟨min 8 size.log2, size⟩

/-- The data of the arena is in the memory, and its top is in the data. -/
structure Arena.Valid (a : Arena) : Prop where
  data_pos : 0 < a.data.toNat
  data_le : a.data.toNat ≤ a.top.toNat
  top_le : a.top.toNat ≤ a.data.toNat + a.size.toNat
  end_lt : a.data.toNat + a.size.toNat < 2 ^ 64

variable {a a' : Arena} {p : U64} {size : Nat}

theorem request_bits_le (size : Nat) : (request size).bits ≤ 8 := Nat.min_le_left 8 size.log2

theorem toNat_alignUp_request (top : U64) (hsize : size < 2 ^ 64) :
    (alignUp top (min 8 (log2 (BitVec.ofNat 64 size)))).toNat =
      (top.toNat + (2 ^ (request size).bits - 1)) % 2 ^ 64 / 2 ^ (request size).bits * 2 ^ (request size).bits := by
  rw [log2_eq, BitVec.toNat_ofNat, Nat.mod_eq_of_lt hsize, toNat_alignUp_mod top (by omega)]
  rfl

/-- A block that fits is allocated, at its place. -/
theorem allocArena_of_le (ha : a.Valid) (h : after a.top.toNat (request size) ≤ a.data.toNat + a.size.toNat) :
    ∃ p a', allocArena (BitVec.ofNat 64 size) a = some (p, a') ∧ p.toNat = roundUp a.top.toNat (request size).bits ∧
      a'.top.toNat = after a.top.toNat (request size) ∧ a'.data = a.data ∧ a'.size = a.size := by
  have hend := ha.end_lt
  have hdata := ha.data_le
  have hafter : after a.top.toNat (request size) = roundUp a.top.toNat (request size).bits + size := rfl
  have hround := Bump.le_roundUp a.top.toNat (request size).bits
  have hbits := request_bits_le size
  have hcur : (alignUp a.top (min 8 (log2 (BitVec.ofNat 64 size)))).toNat = roundUp a.top.toNat (request size).bits := by
    rw [toNat_alignUp_request a.top (by omega), Nat.mod_eq_of_lt (Bump.add_lt_of_roundUp_lt (by omega) (by omega))]
    rfl
  have htop : (alignUp a.top (min 8 (log2 (BitVec.ofNat 64 size))) + BitVec.ofNat 64 size).toNat =
      after a.top.toNat (request size) := by
    rw [BitVec.toNat_add, hcur, BitVec.toNat_ofNat, Nat.mod_eq_of_lt (show size < 2 ^ 64 by omega), ← hafter,
      Nat.mod_eq_of_lt (by omega)]
  refine ⟨_, { a with top := _ }, ?_, hcur, htop, rfl, rfl⟩
  rw [allocArena, if_neg]
  rw [BitVec.lt_def, BitVec.toNat_sub, htop]
  omega

/-- A block that is allocated in the data fits. -/
theorem after_le_of_allocArena (ha : a.Valid) (h : allocArena (BitVec.ofNat 64 size) a = some (p, a'))
    (hstart : a.data.toNat ≤ p.toNat) (hend : p.toNat + size ≤ a.data.toNat + a.size.toNat) :
    after a.top.toNat (request size) ≤ a.data.toNat + a.size.toNat := by
  have hlt := ha.end_lt
  have hp : p = alignUp a.top (min 8 (log2 (BitVec.ofNat 64 size))) := by
    simp only [allocArena] at h
    split at h
    · cases h
    · cases h
      rfl
  have hcur := toNat_alignUp_request a.top (show size < 2 ^ 64 by omega)
  have hbits := Nat.pow_le_pow_right (n := 2) (by decide) (request_bits_le size)
  have hpos := Nat.two_pow_pos (request size).bits
  by_cases hwrap : a.top.toNat + (2 ^ (request size).bits - 1) < 2 ^ 64
  · rw [Nat.mod_eq_of_lt hwrap] at hcur
    change roundUp a.top.toNat (request size).bits + size ≤ _
    rw [roundUp, ← hcur, ← hp]
    exact hend
  · -- the address wraps around to 0, which is not in the data
    have htop := a.top.isLt
    rw [Nat.mod_eq_sub_mod (by omega), Nat.mod_eq_of_lt (by omega), Nat.div_eq_of_lt (by omega), ← hp] at hcur
    have hdata := ha.data_pos
    omega

/-! ## A list of allocations -/

/-- The addresses of the blocks, with their sizes. -/
def placed (ps : List U64) (sizes : List Nat) : List (Nat × Nat) := (ps.map BitVec.toNat).zip sizes

theorem placed_append {ps : List U64} {sizes : List Nat} (h : ps.length = sizes.length) (ps' : List U64)
    (sizes' : List Nat) : placed (ps ++ ps') (sizes ++ sizes') = placed ps sizes ++ placed ps' sizes' := by
  rw [placed, List.map_append, List.zip_append (by rw [List.length_map, h]), placed, placed]

/-- What one allocation leaves of the arena is valid. -/
theorem Arena.Valid.next (ha : a.Valid) (htop : a'.top.toNat = after a.top.toNat (request size))
    (hdata : a'.data = a.data) (hsize : a'.size = a.size)
    (h : after a.top.toNat (request size) ≤ a.data.toNat + a.size.toNat) : a'.Valid := by
  have hle := ha.data_le.trans (Bump.le_after a.top.toNat (request size))
  constructor
  · exact hdata ▸ ha.data_pos
  · rw [hdata, htop]
    exact hle
  · rw [hdata, hsize, htop]
    exact h
  · rw [hdata, hsize]
    exact ha.end_lt

/-- **If the blocks fit, they are allocated**, where the library places them. -/
theorem mapM_allocArena_of_le : ∀ {sizes : List Nat} {a : Arena}, a.Valid →
    afterAll (sizes.map request) a.top.toNat ≤ a.data.toNat + a.size.toNat →
    ∃ ps a', (sizes.map (BitVec.ofNat 64)).mapM allocArena a = some (ps, a') ∧ ps.length = sizes.length ∧
      placed ps sizes = Bump.blocks (sizes.map request) a.top.toNat := by
  intro sizes
  induction sizes with
  | nil => exact fun {a} _ _ => ⟨[], a, rfl, rfl, rfl⟩
  | cons size sizes ih =>
    intro a ha h
    rw [List.map_cons, Bump.afterAll_cons] at h
    have hfits := (Bump.le_afterAll (sizes.map request) (after a.top.toNat (request size))).trans h
    obtain ⟨p, a₁, hrun, hp, htop, hdata, hsize⟩ := allocArena_of_le ha hfits
    obtain ⟨ps, a', hruns, hlength, hps⟩ := ih (ha.next htop hdata hsize hfits) (by rwa [htop, hdata, hsize])
    refine ⟨p :: ps, a', ?_, ?_, ?_⟩
    · rw [List.map_cons, List.mapM_cons, Loop.bind_apply hrun, Loop.bind_apply hruns, Loop.pure_apply]
    · rw [List.length_cons, List.length_cons, hlength]
    · rw [placed, List.map_cons, List.zip_cons_cons, ← placed, hps, hp, htop]
      rfl

/-- **If all blocks are allocated in the data**, they fit. -/
theorem afterAll_le_of_mapM_allocArena : ∀ {sizes : List Nat} {a a' : Arena} {ps : List U64}, a.Valid →
    (sizes.map (BitVec.ofNat 64)).mapM allocArena a = some (ps, a') →
    (∀ b ∈ placed ps sizes, a.data.toNat ≤ b.1 ∧ b.1 + b.2 ≤ a.data.toNat + a.size.toNat) →
    afterAll (sizes.map request) a.top.toNat ≤ a.data.toNat + a.size.toNat := by
  intro sizes
  induction sizes with
  | nil => exact fun ha _ _ => ha.top_le
  | cons size sizes ih =>
    intro a a' ps ha hrun hin
    simp only [List.map_cons, List.mapM_cons, Loop.bind_apply_iff, Loop.pure_apply] at hrun
    obtain ⟨p, a₁, hp, ps', a₂, hps', heq⟩ := hrun
    cases heq
    rw [placed, List.map_cons, List.zip_cons_cons, ← placed, List.forall_mem_cons] at hin
    have hfits := after_le_of_allocArena ha hp hin.1.1 hin.1.2
    obtain ⟨p', a₁', hp', -, htop, hdata, hsize⟩ := allocArena_of_le ha hfits
    rw [hp'] at hp
    cases hp
    rw [List.map_cons, Bump.afterAll_cons, ← htop, ← hdata, ← hsize]
    exact ih (ha.next htop hdata hsize hfits) hps' (by rw [hdata, hsize]; exact hin.2)

end LitmusHarness
