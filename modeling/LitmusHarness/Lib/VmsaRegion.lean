import LitmusHarness.Lib.VmsaTree

/-!
# The regions of a level

The addresses that share an entry of a level are an aligned region: `base x l` is where the region of `x` starts and
`size l` how long it is. Regions of one level are equal or disjoint, and those of lower levels nest in them.
`Meets lo hi x l` says that the range `[lo, hi)` meets the region of `x`.
-/

namespace Vmsa

/-- The size of the region of an entry. -/
def size (l : Nat) : Nat := 2 ^ shift l

/-- The start of the region of `x`. -/
def base (x l : Nat) : Nat := x / size l * size l

/-- The range `[lo, hi)` meets the region of `x`. -/
def Meets (lo hi x l : Nat) : Prop := lo < hi ∧ lo < base x l + size l ∧ base x l < hi

instance (lo hi x l : Nat) : Decidable (Meets lo hi x l) := by unfold Meets; infer_instance

theorem size_pos (l : Nat) : 0 < size l := Nat.two_pow_pos _

theorem base_le (x l : Nat) : base x l ≤ x := Nat.div_mul_le_self x (size l)

theorem lt_base_add (x l : Nat) : x < base x l + size l := Nat.lt_div_mul_add (size_pos l)

theorem size_dvd {l l' : Nat} (h : l ≤ l') : size l' ∣ size l := Nat.pow_dvd_pow 2 (by unfold shift; omega)

theorem base_dvd {l l' : Nat} (x : Nat) (h : l ≤ l') : size l' ∣ base x l := Dvd.dvd.mul_left (size_dvd h) _

theorem base_of_dvd {x l : Nat} (h : size l ∣ x) : base x l = x := Nat.div_mul_cancel h

/-- A multiple of the size at most `x` is at most the start of its region. -/
theorem le_base {x b l : Nat} (hb : size l ∣ b) (h : b ≤ x) : b ≤ base x l := by
  obtain ⟨k, rfl⟩ := hb
  rw [base, mul_comm (size l) k]
  exact Nat.mul_le_mul_right _ ((Nat.le_div_iff_mul_le (size_pos l)).mpr (by rw [mul_comm]; exact h))

/-- A region ends before any later multiple of its size. -/
theorem base_add_le {x b l : Nat} (hb : size l ∣ b) (h : x < b) : base x l + size l ≤ b := by
  have h1 : size l ∣ base x l := base_dvd x (Nat.le_refl l)
  have h2 : base x l < b := lt_of_le_of_lt (base_le x l) h
  obtain ⟨k, rfl⟩ := hb
  obtain ⟨j, hj⟩ := h1
  rw [hj] at h2 ⊢
  have : j < k := Nat.lt_of_mul_lt_mul_left h2
  calc size l * j + size l = size l * (j + 1) := by ring
    _ ≤ size l * k := Nat.mul_le_mul_left _ this

/-- Two addresses have one region when one is in the region of the other. -/
theorem base_eq_of_mem {a x l : Nat} (h1 : base x l ≤ a) (h2 : a < base x l + size l) : base a l = base x l := by
  have h3 := le_base (base_dvd x (Nat.le_refl l)) h1
  have h4 : base a l < base x l + size l := lt_of_le_of_lt (base_le a l) h2
  by_contra hne
  have h5 : base x l < base a l := lt_of_le_of_ne h3 (Ne.symm hne)
  have h6 : x < base a l := by
    by_contra hc
    have := le_base (base_dvd a (Nat.le_refl l)) (not_lt.mp hc)
    omega
  have := base_add_le (base_dvd a (Nat.le_refl l)) h6
  omega

/-- The region of a lower level lies in the one above. -/
theorem base_mono {l l' : Nat} (x : Nat) (hl : l' ≤ l) :
    base x l' ≤ base x l ∧ base x l + size l ≤ base x l' + size l' :=
  ⟨le_base (base_dvd x hl) (base_le x l'),
    base_add_le (Nat.dvd_add (base_dvd x hl) (size_dvd hl)) (lt_base_add x l')⟩

/-- Addresses of one region share the regions of the levels above. -/
theorem base_eq_mono {a x l l' : Nat} (hl : l' ≤ l) (h : base a l = base x l) : base a l' = base x l' := by
  have h1 := base_le a l
  have h2 := lt_base_add a l
  have h3 := base_mono x hl
  rw [h] at h1 h2
  exact base_eq_of_mem (by omega) (by omega)

/-- Agreeing up to a level is having one region there. -/
theorem agree_iff_base {a x : BitVec 64} (ha : a.toNat < 2 ^ 48) (hx : x.toNat < 2 ^ 48) {l : Nat} (hl : l ≤ 3) :
    agree a x (l + 1) ↔ base a.toNat l = base x.toNat l := by
  have hdiv : base a.toNat l = base x.toNat l ↔ a.toNat / size l = x.toNat / size l :=
    ⟨fun h => Nat.eq_of_mul_eq_mul_right (size_pos l) h, fun h => by rw [base, base, h]⟩
  rw [hdiv]
  constructor
  · intro h
    have hi := fun k hk => h k hk
    unfold index at hi
    interval_cases l
    · have := hi 0 (by decide)
      simp only [shift, size] at *
      omega
    · have h0 := hi 0 (by decide)
      have h1 := hi 1 (by decide)
      simp only [shift, size] at *
      omega
    · have h0 := hi 0 (by decide)
      have h1 := hi 1 (by decide)
      have h2 := hi 2 (by decide)
      simp only [shift, size] at *
      omega
    · have h0 := hi 0 (by decide)
      have h1 := hi 1 (by decide)
      have h2 := hi 2 (by decide)
      have h3 := hi 3 (by decide)
      simp only [shift, size] at *
      omega
  · intro h k hk
    have hk' : a.toNat / size k = x.toNat / size k :=
      Mask.div_eq_of_div_eq (by unfold shift; omega) (show a.toNat / 2 ^ shift l = x.toNat / 2 ^ shift l from h)
    rw [index, index, show 2 ^ shift k = size k from rfl, hk']

/-! ## Meeting a range -/

theorem meets_of_mem {lo hi x l y : Nat} (h1 : lo ≤ y) (h2 : y < hi) (h : base y l = base x l) : Meets lo hi x l := by
  have h3 := base_le y l
  have h4 := lt_base_add y l
  rw [h] at h3 h4
  exact ⟨by omega, by omega, by omega⟩

theorem Meets.exists_mem {lo hi x l : Nat} (h : Meets lo hi x l) : ∃ y, lo ≤ y ∧ y < hi ∧ base y l = base x l := by
  obtain ⟨h1, h2, h3⟩ := h
  have h4 := size_pos l
  refine ⟨max lo (base x l), le_max_left _ _, max_lt h1 h3, base_eq_of_mem (le_max_right _ _) (max_lt h2 (by omega))⟩

theorem Meets.mono {lo hi hi' x l : Nat} (h : Meets lo hi x l) (hh : hi ≤ hi') : Meets lo hi' x l :=
  ⟨lt_of_lt_of_le h.1 hh, h.2.1, lt_of_lt_of_le h.2.2 hh⟩

theorem Meets.up {lo hi x l l' : Nat} (h : Meets lo hi x l) (hl : l' ≤ l) : Meets lo hi x l' := by
  have := base_mono x hl
  exact ⟨h.1, lt_of_lt_of_le h.2.1 this.2, lt_of_le_of_lt this.1 h.2.2⟩

end Vmsa
