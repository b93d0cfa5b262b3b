import LitmusHarness.Bitwise
import LitmusHarness.Lib.Bytes
import LitmusHarness.Lib.Loop
import Mathlib.Logic.Equiv.Basic

/-!
# Shuffled arrays: `shuffle` of `rand.c` and `valloc_memcpy`

`shuffle` swaps blocks of bytes at random places of an array, through a buffer. Whatever the random numbers are, the
array then has its old elements in another order, and no other memory changes but the buffer (`shuffle_permuted`). The
same function on lists, without the memory, is in `Concretization.Batch`.
-/

namespace LitmusHarness.Shuffle

open Bytes (Mem)

/-! ## The functions of the source -/

/-- `valloc_memcpy`. -/
def vallocMemcpy (dest src size : Nat) (m : Mem) : Mem :=
  Loop.forRange 0 size (fun i m => Function.update m (dest + i) (m (src + i))) m

section Source

variable {σ : Type} (rand : σ → U64 × σ)

/-- One iteration of the loop of `shuffle`. `arr` is the array of `n` elements and `datum` the buffer. -/
def shuffleStep (datum arr : Nat) (szof n : U64) (st : σ × Mem) : σ × Mem :=
  let (r, s) := rand st.1
  let x := r % n * szof
  let (r, s) := rand s
  let y := r % n * szof
  let m := vallocMemcpy datum (arr + x.toNat) szof.toNat st.2
  let m := vallocMemcpy (arr + x.toNat) (arr + y.toNat) szof.toNat m
  let m := vallocMemcpy (arr + y.toNat) datum szof.toNat m
  (s, m)

/-- `shuffle`. -/
def shuffle (datum arr : Nat) (szof n : U64) (st : σ × Mem) : σ × Mem :=
  Loop.forRange 0 n.toNat (fun _ st => shuffleStep rand datum arr szof n st) st

end Source

/-! ## Copies -/

section Copy

variable {dest src size : Nat} {m : Mem}

/-- **What `valloc_memcpy` does**, on the same bytes or on bytes that do not overlap. -/
theorem vallocMemcpy_apply (h : dest = src ∨ dest + size ≤ src ∨ src + size ≤ dest) (a : Nat) :
    vallocMemcpy dest src size m a = if dest ≤ a ∧ a < dest + size then m (src + (a - dest)) else m a := by
  have hinv : ∀ a, vallocMemcpy dest src size m a =
      if dest ≤ a ∧ a < dest + size then m (src + (a - dest)) else m a := by
    refine Loop.forRange_inv (I := fun (k : Nat) (m' : Mem) => ∀ a, m' a =
      if dest ≤ a ∧ a < dest + k then m (src + (a - dest)) else m a) ?_ (Nat.zero_le size) ?_
    · intro k m' _ hk hm' a
      -- the byte that is read has not been written, or has been written with itself
      have hsrc : m' (src + k) = m (src + k) := by
        rw [hm']
        split
        · obtain rfl : dest = src := by omega
          rw [Nat.add_sub_cancel_left]
        · rfl
      by_cases ha : a = dest + k
      · rw [ha, Function.update_self, hsrc, if_pos (by omega), Nat.add_sub_cancel_left]
      · rw [Function.update_of_ne ha, hm']
        by_cases hin : dest ≤ a ∧ a < dest + k
        · rw [if_pos hin, if_pos (by omega)]
        · rw [if_neg hin, if_neg (by omega)]
    · intro a
      rw [if_neg (by omega)]
  exact hinv a

end Copy

/-! ## Blocks in another order -/

/-- The `n` elements of `sz` bytes from `arr` on are those of `m`, in the order `σ`. -/
def Permuted (arr sz : Nat) {n : Nat} (σ : Equiv.Perm (Fin n)) (m m' : Mem) : Prop :=
  ∀ i : Fin n, ∀ j < sz, m' (arr + i * sz + j) = m (arr + σ i * sz + j)

/-- The memory is the same outside of the array and of the buffer. -/
def SameElsewhere (datum arr sz n : Nat) (m m' : Mem) : Prop :=
  ∀ a, ¬(arr ≤ a ∧ a < arr + n * sz) → ¬(datum ≤ a ∧ a < datum + sz) → m' a = m a

section Blocks

variable {arr sz n : Nat} {σ τ : Equiv.Perm (Fin n)} {m m' m'' : Mem}

theorem permuted_refl : Permuted arr sz (Equiv.refl (Fin n)) m m := fun _ _ _ => rfl

theorem Permuted.trans (h : Permuted arr sz σ m m') (h' : Permuted arr sz τ m' m'') :
    Permuted arr sz (τ.trans σ) m m'' := fun i j hj => (h' i j hj).trans (h (τ i) j hj)

theorem Permuted.load64 (h : Permuted arr 8 σ m m') (i : Fin n) :
    Bytes.load64 m' (arr + i * 8) = Bytes.load64 m (arr + σ i * 8) :=
  Bytes.load64_eq (h i)

theorem Permuted.load32 (h : Permuted arr 4 σ m m') (i : Fin n) :
    Bytes.load32 m' (arr + i * 4) = Bytes.load32 m (arr + σ i * 4) :=
  Bytes.load32_eq (h i)

/-- Two elements of an array are the same or do not overlap. -/
theorem blocks_disjoint {i k : Nat} (h : i ≠ k) : i * sz + sz ≤ k * sz ∨ k * sz + sz ≤ i * sz := by
  rcases Nat.lt_or_gt_of_ne h with hlt | hlt
  · exact .inl (by rw [← Nat.succ_mul]; exact Nat.mul_le_mul_right sz hlt)
  · exact .inr (by rw [← Nat.succ_mul]; exact Nat.mul_le_mul_right sz hlt)

theorem block_le {i : Nat} (h : i < n) : i * sz + sz ≤ n * sz := by
  rw [← Nat.succ_mul]
  exact Nat.mul_le_mul_right sz h

/-- **A swap of two elements** through the buffer. -/
theorem swap_permuted {datum : Nat} (hdisj : datum + sz ≤ arr ∨ arr + n * sz ≤ datum) (x y : Fin n) :
    Permuted arr sz (Equiv.swap x y) m (vallocMemcpy (arr + y * sz) datum sz
        (vallocMemcpy (arr + x * sz) (arr + y * sz) sz (vallocMemcpy datum (arr + x * sz) sz m))) ∧
      SameElsewhere datum arr sz n m (vallocMemcpy (arr + y * sz) datum sz
        (vallocMemcpy (arr + x * sz) (arr + y * sz) sz (vallocMemcpy datum (arr + x * sz) sz m))) := by
  have hx := @block_le sz n x x.isLt
  have hy := @block_le sz n y y.isLt
  have hblock : ∀ i k : Fin n, i ≠ k → i * sz + sz ≤ k * sz ∨ k * sz + sz ≤ i * sz := fun i k h =>
    blocks_disjoint fun hik => h (Fin.ext hik)
  generalize hm₁ : vallocMemcpy datum (arr + x * sz) sz m = m₁
  generalize hm₂ : vallocMemcpy (arr + x * sz) (arr + y * sz) sz m₁ = m₂
  have h₁ := fun a => hm₁ ▸ @vallocMemcpy_apply datum (arr + x * sz) sz m (by omega) a
  have hxy : arr + x * sz = arr + y * sz ∨ arr + x * sz + sz ≤ arr + y * sz ∨ arr + y * sz + sz ≤ arr + x * sz := by
    by_cases h : x = y
    · exact .inl (by rw [h])
    · have := hblock x y h
      omega
  have h₂ := fun a => hm₂ ▸ @vallocMemcpy_apply (arr + x * sz) (arr + y * sz) sz m₁ hxy a
  have h₃ := fun a => @vallocMemcpy_apply (arr + y * sz) datum sz m₂ (by omega) a
  refine ⟨fun i j hj => ?_, fun a ha hd => ?_⟩
  · have hi := @block_le sz n i i.isLt
    rw [h₃]
    by_cases hiy : i = y
    · -- the second element gets the bytes of the buffer
      subst hiy
      rw [if_pos (by omega), Equiv.swap_apply_right, h₂, if_neg (by omega), h₁, if_pos (by omega)]
      congr 1
      omega
    have hyi := hblock i y hiy
    rw [if_neg (by omega), h₂]
    by_cases hix : i = x
    · subst hix
      rw [if_pos (by omega), Equiv.swap_apply_left, h₁, if_neg (by omega)]
      congr 1
      omega
    · have hxi := hblock i x hix
      rw [if_neg (by omega), Equiv.swap_apply_of_ne_of_ne hix hiy, h₁, if_neg (by omega)]
  · rw [h₃, if_neg (by omega), h₂, if_neg (by omega), h₁, if_neg (by omega)]

end Blocks

/-! ## The loop -/

section Shuffle

variable {σ : Type} (rand : σ → U64 × σ) {datum arr : Nat} {szof n : U64}

/-- A random place in an array that fits into the address space. -/
theorem toNat_place (r : U64) (hn : 0 < n.toNat) (hfit : n.toNat * szof.toNat < 2 ^ 64) :
    ∃ x : Fin n.toNat, (r % n * szof).toNat = x * szof.toNat := by
  have hlt : r.toNat % n.toNat < n.toNat := Nat.mod_lt _ hn
  refine ⟨⟨r.toNat % n.toNat, hlt⟩, ?_⟩
  rw [BitVec.toNat_mul, BitVec.toNat_umod]
  exact Nat.mod_eq_of_lt (lt_of_le_of_lt (Nat.mul_le_mul_right _ hlt.le) hfit)

/-- One iteration swaps two elements. -/
theorem shuffleStep_permuted (hn : 0 < n.toNat) (hfit : n.toNat * szof.toNat < 2 ^ 64)
    (hdisj : datum + szof.toNat ≤ arr ∨ arr + n.toNat * szof.toNat ≤ datum) (st : σ × Mem) :
    ∃ τ : Equiv.Perm (Fin n.toNat), Permuted arr szof.toNat τ st.2 (shuffleStep rand datum arr szof n st).2 ∧
      SameElsewhere datum arr szof.toNat n.toNat st.2 (shuffleStep rand datum arr szof n st).2 := by
  obtain ⟨x, hx⟩ := toNat_place (rand st.1).1 hn hfit
  obtain ⟨y, hy⟩ := toNat_place (rand (rand st.1).2).1 hn hfit
  refine ⟨Equiv.swap x y, ?_⟩
  simp only [shuffleStep, hx, hy]
  exact swap_permuted hdisj x y

/-- **`shuffle` permutes**: whatever the random numbers are, the array has its elements in another order, and only the
array and the buffer are written. -/
theorem shuffle_permuted (hfit : n.toNat * szof.toNat < 2 ^ 64)
    (hdisj : datum + szof.toNat ≤ arr ∨ arr + n.toNat * szof.toNat ≤ datum) (st : σ × Mem) :
    ∃ τ : Equiv.Perm (Fin n.toNat), Permuted arr szof.toNat τ st.2 (shuffle rand datum arr szof n st).2 ∧
      SameElsewhere datum arr szof.toNat n.toNat st.2 (shuffle rand datum arr szof n st).2 := by
  refine Loop.forRange_inv (I := fun (_ : Nat) (s : σ × Mem) => ∃ τ : Equiv.Perm (Fin n.toNat),
    Permuted arr szof.toNat τ st.2 s.2 ∧ SameElsewhere datum arr szof.toNat n.toNat st.2 s.2) ?_ (Nat.zero_le _) ?_
  · rintro t s - ht ⟨τ, hτ, hsame⟩
    obtain ⟨υ, hυ, hsame'⟩ := shuffleStep_permuted rand (by omega) hfit hdisj s
    exact ⟨υ.trans τ, hτ.trans hυ, fun a h1 h2 => (hsame' a h1 h2).trans (hsame a h1 h2)⟩
  · exact ⟨Equiv.refl _, permuted_refl, fun _ _ _ => rfl⟩

end Shuffle

end LitmusHarness.Shuffle
