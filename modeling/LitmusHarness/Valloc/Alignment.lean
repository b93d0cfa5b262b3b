import LitmusHarness.Valloc.Drain

/-!
# The alignment of a block: `alloc_with_alignment`

`ALIGN_UP_TO` and `ALIGN_POW2` by a power of two give a multiple of it (`two_pow_dvd_alignUpTo`,
`two_pow_dvd_alignPow2`), so a block is a multiple of the alignment with which the search goes on, whether it is split
from a free chunk or taken from below the top (`allocWithAlignmentAux_aligned`). This alignment is a multiple of the one
that was asked for, except for a size below the minimum: there the request becomes one of 32 bytes at a multiple of 64
(`allocWithAlignment_aligned_iff`).
-/

namespace LitmusHarness

/-! ## Rounding by a power of two -/

variable {k : Nat}

theorem toNat_one_shiftLeft (hk : k < 64) : (1#64 <<< k).toNat = 2 ^ k := by
  have hlt := Nat.pow_lt_pow_right (show 1 < 2 by decide) hk
  rw [BitVec.toNat_shiftLeft, Nat.shiftLeft_eq, show (1#64).toNat = 1 from rfl, Nat.one_mul, Nat.mod_eq_of_lt hlt]

/-- The remainder that `ALIGN_UP_TO` adds brings a word up to a multiple. -/
theorem toNat_neg_umod (v : U64) (hk : k < 64) (h : v.toNat % 2 ^ k ≠ 0) :
    (-v % 1#64 <<< k).toNat = 2 ^ k - v.toNat % 2 ^ k := by
  have hmod := Nat.mod_lt v.toNat (Nat.two_pow_pos k)
  have hdvd : 2 ^ k ∣ 2 ^ 64 := Nat.pow_dvd_pow 2 (Nat.le_of_lt hk)
  rw [BitVec.toNat_umod, toNat_one_shiftLeft hk, BitVec.toNat_neg, Nat.mod_mod_of_dvd _ hdvd]
  obtain ⟨q, hq⟩ := hdvd
  have hv := v.isLt
  have hdiv := Nat.div_add_mod v.toNat (2 ^ k)
  have hlt : v.toNat / 2 ^ k < q := Nat.div_lt_of_lt_mul (hq ▸ hv)
  -- 2^64 - v is a multiple of 2^k and the rest
  have hsplit : 2 ^ 64 - v.toNat = 2 ^ k * (q - v.toNat / 2 ^ k - 1) + (2 ^ k - v.toNat % 2 ^ k) := by
    have hle : 2 ^ k * (v.toNat / 2 ^ k + 1) ≤ 2 ^ k * q := Nat.mul_le_mul_left _ hlt
    rw [Nat.sub_sub, Nat.mul_sub, ← hq, Nat.mul_add, Nat.mul_one]
    rw [Nat.mul_add, Nat.mul_one, ← hq] at hle
    omega
  rw [hsplit, Nat.mul_add_mod, Nat.mod_eq_of_lt (by omega)]

/-- What `ALIGN_UP_TO` adds: a word that is not a multiple goes past the next one. -/
theorem toNat_alignUpTo_sub (v : U64) (hk : k < 64) : (alignUpTo v (1#64 <<< k) - v).toNat =
    if v.toNat % 2 ^ k = 0 then 0 else 2 * 2 ^ k - v.toNat % 2 ^ k := by
  split
  · rename_i h
    rw [alignUpTo_of_dvd (by rwa [toNat_one_shiftLeft hk]), BitVec.sub_self]
    rfl
  · rename_i h
    have hne : ¬v % 1#64 <<< k = 0 := by
      rw [← BitVec.toNat_inj, BitVec.toNat_umod, toNat_one_shiftLeft hk]
      exact h
    have hsub : ∀ x y : U64, v + x + y - v = x + y := fun x y => by grind
    have hmod := Nat.mod_lt v.toNat (Nat.two_pow_pos k)
    have hpow : 2 ^ k ≤ 2 ^ 63 := Nat.pow_le_pow_right (by decide) (by omega)
    rw [alignUpTo, if_neg hne, hsub, BitVec.toNat_add, toNat_neg_umod v hk h, toNat_one_shiftLeft hk,
      Nat.mod_eq_of_lt (by omega)]
    omega

/-- The word with what is added is a multiple. -/
theorem two_pow_dvd_add_alignUpTo_sub (v : U64) (hk : k < 64) :
    2 ^ k ∣ v.toNat + (alignUpTo v (1#64 <<< k) - v).toNat := by
  rw [toNat_alignUpTo_sub v hk]
  split
  · rename_i h
    exact Nat.dvd_of_mod_eq_zero h
  · have hmod := Nat.mod_lt v.toNat (Nat.two_pow_pos k)
    have hdiv := Nat.div_add_mod v.toNat (2 ^ k)
    have heq : v.toNat + (2 * 2 ^ k - v.toNat % 2 ^ k) = 2 ^ k * (v.toNat / 2 ^ k) + 2 ^ k * 2 := by omega
    rw [heq]
    exact Nat.dvd_add (Nat.dvd_mul_right _ _) (Nat.dvd_mul_right _ _)

theorem two_pow_dvd_alignUpTo (v : U64) (hk : k < 64) : 2 ^ k ∣ (alignUpTo v (1#64 <<< k)).toNat := by
  have hsum : alignUpTo v (1#64 <<< k) = v + (alignUpTo v (1#64 <<< k) - v) := by grind
  rw [hsum, BitVec.toNat_add, Nat.dvd_mod_iff (Nat.pow_dvd_pow 2 (Nat.le_of_lt hk))]
  exact two_pow_dvd_add_alignUpTo_sub v hk

theorem two_pow_dvd_alignPow2 (v : U64) (hk : k < 64) : 2 ^ k ∣ (alignPow2 v (1#64 <<< k)).toNat := by
  rw [alignPow2_two_pow, toNat_alignTo v hk]
  exact Nat.dvd_mul_left _ _

/-! ## The block -/

variable {area : HeapArea} {m m' : Mempool} {size p : U64}

/-- **A block is a multiple of the alignment of the search**, wherever it is taken from. -/
theorem allocWithAlignmentAux_aligned (hk : k < 64)
    (hrun : m.allocWithAlignmentAux area size (1#64 <<< k) = .ok (m', p)) : 2 ^ k ∣ p.toNat := by
  unfold Mempool.allocWithAlignmentAux at hrun
  cases hbest : m.findBest area size (1#64 <<< k) with
  | error e =>
    rw [hbest] at hrun
    cases hrun
  | ok r =>
    simp only [bind, Except.bind, hbest] at hrun
    cases r with
    | none =>
      -- below the top
      dsimp only at hrun
      split at hrun
      · cases hrun
      · split at hrun
        · cases hrun
        · split at hrun
          · cases hrun
          · cases hrun
            exact two_pow_dvd_alignPow2 _ hk
    | some c =>
      dsimp only at hrun
      split at hrun
      · cases hrun
      · rename_i r hsplit
        -- the block begins where `ALIGN_UP_TO` says
        have hstart : r.2 = alignUpTo c (1#64 <<< k) := by
          unfold Mempool.splitAlignment at hsplit
          dsimp only at hsplit
          split at hsplit
          · cases hsplit
          · cases hsplit
            grind
        split at hrun
        · cases hrun
        · cases hrun
          rw [hstart]
          exact two_pow_dvd_alignUpTo c hk

/-- The request for a size that can hold a header: the alignment is at least 64 if it is less than 32. -/
theorem alignmentRequest_large (hk : k < 64) (hsize : 24 ≤ size.toNat) : ∃ j, j < 64 ∧ k ≤ j ∧
    Mempool.alignmentRequest size (1#64 <<< k) = (size, 1#64 <<< j) := by
  have hnot : ¬size < sizeofFreeChunk := by
    rw [BitVec.lt_def]
    exact Nat.not_lt.mpr hsize
  unfold Mempool.alignmentRequest
  simp only [hnot, if_false]
  by_cases hlt : 1#64 <<< k < sizeofAllocChunk
  · rw [if_pos hlt]
    rw [BitVec.lt_def, toNat_one_shiftLeft hk] at hlt
    have hmin : Mempool.nextLargestPow2 sizeofAllocChunk = 1#64 <<< 6 := by decide +kernel
    refine ⟨6, by decide, ?_, by rw [hmin]⟩
    by_contra hge
    have := Nat.pow_le_pow_right (show 0 < 2 by decide) (show 6 ≤ k by omega)
    exact absurd hlt (Nat.not_lt.mpr (Nat.le_trans (by decide) this))
  · rw [if_neg hlt]
    exact ⟨k, hk, Nat.le_refl k, rfl⟩

/-- A request for less than a header is one for 32 bytes at a multiple of 64. -/
theorem alignmentRequest_small (alignment : U64) (hsize : size.toNat < 24) :
    Mempool.alignmentRequest size alignment = (32#64, 1#64 <<< 6) := by
  have hlt : size < sizeofFreeChunk := BitVec.lt_def.mpr hsize
  unfold Mempool.alignmentRequest
  simp only [hlt, if_true]
  decide +kernel

/-- The block of a call, before it is zeroed. -/
theorem allocZeroed_aux {req : U64 × U64} (hrun : m.allocZeroed area req = .ok (m', p)) :
    ∃ m₁, m.allocWithAlignmentAux area req.1 req.2 = .ok (m₁, p) := by
  unfold Mempool.allocZeroed at hrun
  cases haux : m.allocWithAlignmentAux area req.1 req.2 with
  | error e =>
    rw [haux] at hrun
    cases hrun
  | ok r =>
    rw [haux] at hrun
    cases hrun
    exact ⟨_, rfl⟩

/-- In the small heap a request for less than a header gives a block that is no multiple of 128. -/
theorem initValloc_small (alignment : U64) (hsize : size.toNat < 24) : ∃ m',
    (initValloc smallArea fun _ => 0).allocWithAlignment smallArea size alignment = .ok (m', 0x11fc0) := by
  unfold Mempool.allocWithAlignment
  rw [alignmentRequest_small alignment hsize]
  have hrun : ((initValloc smallArea fun _ => 0).allocZeroed smallArea (32#64, 1#64 <<< 6)).toOption.map
      (fun r => r.2) = some 0x11fc0 := by
    decide +kernel
  obtain ⟨⟨m', p⟩, hr, rfl⟩ := Option.map_eq_some_iff.mp hrun
  exact ⟨m', ok_of_toOption hr⟩

/-- **When the alignment is honoured**: in every state of every run the block is a multiple of the alignment, if and only
if the size is that of a header at least, or the alignment is 64 at most. -/
theorem allocWithAlignment_aligned_iff (size : U64) (hk : k < 64) :
    (∀ area heap steps m m' p, VallocRun area heap steps m →
      m.allocWithAlignment area size (1#64 <<< k) = .ok (m', p) → 2 ^ k ∣ p.toNat) ↔ 24 ≤ size.toNat ∨ k ≤ 6 := by
  constructor
  · intro h
    by_contra hno
    rw [not_or, Nat.not_le, Nat.not_le] at hno
    obtain ⟨m', hrun⟩ := initValloc_small (1#64 <<< k) hno.1
    have hdvd := h smallArea _ _ _ m' _ VallocRun.init hrun
    have h128 : 2 ^ 7 ∣ (0x11fc0#64).toNat := Nat.dvd_trans (Nat.pow_dvd_pow 2 hno.2) hdvd
    exact absurd h128 (by decide)
  · rintro hcond area heap steps m m' p - hrun
    obtain ⟨m₁, haux⟩ := allocZeroed_aux hrun
    by_cases hsize : 24 ≤ size.toNat
    · obtain ⟨j, hj, hkj, hreq⟩ := alignmentRequest_large hk hsize
      rw [hreq] at haux
      exact Nat.dvd_trans (Nat.pow_dvd_pow 2 hkj) (allocWithAlignmentAux_aligned hj haux)
    · rw [alignmentRequest_small _ (Nat.lt_of_not_le hsize)] at haux
      exact Nat.dvd_trans (Nat.pow_dvd_pow 2 (hcond.resolve_left hsize))
        (allocWithAlignmentAux_aligned (by decide) haux)

/-- A block of 256 bytes at a page boundary. -/
theorem allocWithAlignment_aligned_iff_page : ∃ m' p,
    (initValloc smallArea fun _ => 0).allocWithAlignment smallArea 256 (1#64 <<< 12) = .ok (m', p) ∧
      2 ^ 12 ∣ p.toNat := by
  have hrun : ((initValloc smallArea fun _ => 0).allocWithAlignment smallArea 256 (1#64 <<< 12)).toOption.isSome := by
    decide +kernel
  obtain ⟨⟨m', p⟩, hr⟩ := Option.isSome_iff_exists.mp hrun
  exact ⟨m', p, ok_of_toOption hr, (allocWithAlignment_aligned_iff 256 (by decide : 12 < 64)).mpr (.inl (by decide))
    smallArea _ _ _ m' p VallocRun.init (ok_of_toOption hr)⟩

/-- A block of 8 bytes at a page boundary: it is not at one. -/
theorem allocWithAlignment_eight : ∃ m m', VallocRun smallArea (fun _ => 0) [] m ∧
    m.allocWithAlignment smallArea 8 (1#64 <<< 12) = .ok (m', 0x11fc0) ∧ ¬2 ^ 12 ∣ (0x11fc0#64).toNat := by
  obtain ⟨m', hrun⟩ := @initValloc_small 8 (1#64 <<< 12) (by decide)
  exact ⟨_, m', VallocRun.init, hrun, by decide⟩

end LitmusHarness
