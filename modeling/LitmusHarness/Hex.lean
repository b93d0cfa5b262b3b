import LitmusHarness.Bitwise
import Mathlib.Tactic.IntervalCases

/-!
# Numbers in hexadecimal: `sputhex` of `printer.c` and `atoi` of `string.c`

`sputhex` writes the digits in groups of four with `_` between them, and the digits from 10 on as capital letters.
`__atoi_hex` reads `_` as the digit 0 and the letters as 0 to 5. So a number is read back exactly when it has one group
of digits up to 9 (`atoi_sputp_iff`). Strings are lists of characters without their NUL.
-/

namespace LitmusHarness

/-! ## The functions of the source -/

/-- `__get_hexchar`, for a digit. -/
def getHexchar (n : U64) : Char := if n < 10 then Char.ofNat (n.toNat + 48) else Char.ofNat (n.toNat - 10 + 65)

/-- The array `_hex` of `sputhex`: the digits of `n`, the lowest first. A word has at most 16. -/
def hexDigits : Nat → U64 → List Char
  | 0, _ => []
  | k + 1, n => if n > 0 then getHexchar (n % 16) :: hexDigits k (n / 16) else []

/-- The last loop of `sputhex`: from the highest digit down, with `_` between groups of four. -/
def putGroups (hex : List Char) : List Char :=
  (List.range hex.length).reverse.flatMap fun i => hex.getD i '0' :: if i % 4 = 0 ∧ i > 0 then ['_'] else []

/-- `sputhex`. -/
def sputhex (n : U64) : List Char := putGroups (if n = 0 then ['0'] else hexDigits 16 n)

/-- `%p` of `vsprintf`. -/
def sputp (n : U64) : List Char := '0' :: 'x' :: sputhex n

/-- `ctoi_hex`. -/
def ctoiHex (c : Char) : Nat :=
  if '0' ≤ c ∧ c ≤ '9' then c.toNat - '0'.toNat
  else if 'a' ≤ c ∧ c ≤ 'f' then c.toNat - 'a'.toNat
  else if 'A' ≤ c ∧ c ≤ 'F' then c.toNat - 'A'.toNat
  else 0

/-- `ctoi`. -/
def ctoi (c : Char) : Nat := if '0' ≤ c ∧ c ≤ '9' then c.toNat - '0'.toNat else 0

/-- `__atoi_hex`. -/
def atoiHex (s : List Char) : U64 := (s.drop 2).foldl (fun x c => x * 16 + BitVec.ofNat 64 (ctoiHex c)) 0

/-- The loop of `__atoi_dec`. -/
def atoiDecLoop : U64 → List Char → Except String U64
  | x, [] => .ok x
  | x, c :: s =>
    if c = '_' then atoiDecLoop x s
    else if c = 'k' ∨ c = 'K' then
      if s ≠ [] then .error "invalid input, [kK] only valid at end.\n" else .ok (x * 1000)
    else if c = 'm' ∨ c = 'M' then
      if s ≠ [] then .error "invalid input, [mM] only valid at end.\n" else .ok (x * 1000000)
    else atoiDecLoop (x * 10 + BitVec.ofNat 64 (ctoi c)) s

/-- `__atoi_dec`. -/
def atoiDec (s : List Char) : Except String U64 := atoiDecLoop 0 s

/-- `atoi`. -/
def atoi (s : List Char) : Except String U64 :=
  match s with
  | '0' :: 'x' :: _ => .ok (atoiHex s)
  | _ => atoiDec s

/-! ## The number that is read -/

/-- The digit that `ctoi_hex` reads for a digit that was written. -/
def readDigit (d : Nat) : Nat := if d < 10 then d else d - 10

/-- The number that is read for a group of four digits. -/
def readGroup (n : Nat) : Nat :=
  readDigit (n % 16) + 16 * readDigit (n / 16 % 16) + 256 * readDigit (n / 256 % 16) + 4096 * readDigit (n / 4096 % 16)

/-- The number that is read for `n`, of at most `k` groups: a group takes five digits. -/
def readBack : Nat → Nat → Nat
  | 0, _ => 0
  | k + 1, n => readGroup (n % 65536) + 1048576 * readBack k (n / 65536)

theorem ctoiHex_getHexchar {n : U64} (h : n.toNat < 16) : ctoiHex (getHexchar n) = readDigit n.toNat := by
  obtain ⟨k, hk, rfl⟩ : ∃ k, k < 16 ∧ n = BitVec.ofNat 64 k :=
    ⟨n.toNat, h, by rw [BitVec.ofNat_toNat, BitVec.setWidth_eq]⟩
  interval_cases k <;> decide

/-- What a list of characters is read as, without a bound on its length. -/
def readChars (s : List Char) : Nat := s.foldl (fun x c => x * 16 + ctoiHex c) 0

theorem atoiHex_cons (a b : Char) (s : List Char) : atoiHex (a :: b :: s) = BitVec.ofNat 64 (readChars s) := by
  have hfold : ∀ (s : List Char) (x : Nat), s.foldl (fun x c => x * 16 + BitVec.ofNat 64 (ctoiHex c)) (BitVec.ofNat 64 x) =
      BitVec.ofNat 64 (s.foldl (fun x c => x * 16 + ctoiHex c) x) := by
    intro s
    induction s with
    | nil => exact fun _ => rfl
    | cons c s ih =>
      intro x
      rw [List.foldl_cons, List.foldl_cons, ← ih, BitVec.ofNat_add, BitVec.ofNat_mul]
      rfl
  exact hfold s 0

/-! ## Groups -/

/-- The groups from the lowest one on. -/
theorem putGroups_cons (a b c d e : Char) (hex : List Char) :
    putGroups (a :: b :: c :: d :: e :: hex) = putGroups (e :: hex) ++ ['_', d, c, b, a] := by
  have hrange : (List.range (hex.length + 5)).reverse = (List.range hex.length).reverse.map (· + 5) ++ [4, 3, 2, 1, 0] := by
    have hsplit : List.range (hex.length + 5) = [0, 1, 2, 3, 4] ++ (List.range hex.length).map (· + 5) := by
      simp only [List.range_succ_eq_map, List.map_cons, List.map_map]
      rfl
    rw [hsplit, List.reverse_append, ← List.map_reverse]
    rfl
  have hrange' : (List.range (hex.length + 1)).reverse = (List.range hex.length).reverse.map (· + 1) ++ [0] := by
    rw [List.range_succ_eq_map, List.reverse_cons, ← List.map_reverse]
  -- above the lowest group, an index and the one four places down have the same digit and separator
  have hstep : ∀ i, ((a :: b :: c :: d :: e :: hex).getD (i + 5) '0' ::
      if (i + 5) % 4 = 0 ∧ i + 5 > 0 then ['_'] else []) =
      ((e :: hex).getD (i + 1) '0' :: if (i + 1) % 4 = 0 ∧ i + 1 > 0 then ['_'] else []) := by
    intro i
    rw [show i + 5 = i + 1 + 4 from rfl, List.getD_cons_succ, List.getD_cons_succ, List.getD_cons_succ,
      List.getD_cons_succ]
    exact congrArg _ (if_congr (by omega) rfl rfl)
  unfold putGroups
  rw [show (a :: b :: c :: d :: e :: hex).length = hex.length + 5 from rfl,
    show (e :: hex).length = hex.length + 1 from rfl, hrange, hrange', List.flatMap_append, List.flatMap_append,
    List.flatMap_map, List.flatMap_map, List.append_assoc]
  simp only [hstep]
  rfl

/-- A single group. -/
theorem putGroups_of_length_le : ∀ {hex : List Char}, hex.length ≤ 4 → putGroups hex = hex.reverse
  | [], _ => rfl
  | [_], _ => rfl
  | [_, _], _ => rfl
  | [_, _, _], _ => rfl
  | [_, _, _, _], _ => rfl
  | _ :: _ :: _ :: _ :: _ :: _, h => by
    simp only [List.length_cons] at h
    omega

/-- The digits of a number below a power of 16. -/
theorem hexDigits_succ (k : Nat) {n : U64} (h : 0 < n.toNat) :
    hexDigits (k + 1) n = getHexchar (n % 16) :: hexDigits k (n / 16) := if_pos h

theorem hexDigits_zero (k : Nat) {n : U64} (h : n.toNat = 0) : hexDigits k n = [] := by
  cases k with
  | zero => rfl
  | succ k => exact if_neg (by rw [gt_iff_lt, BitVec.lt_def, h]; decide)

/-- A digit that was written. -/
theorem ctoiHex_mod (n : U64) : ctoiHex (getHexchar (n % 16)) = readDigit (n.toNat % 16) :=
  ctoiHex_getHexchar (show (n % 16).toNat < 16 from (BitVec.toNat_umod ..).trans_lt (Nat.mod_lt _ (by decide)))

theorem toNat_div (n : U64) : (n / 16).toNat = n.toNat / 16 := BitVec.toNat_udiv

theorem toNat_div₂ (n : U64) : (n / 16 / 16).toNat = n.toNat / 256 := by rw [toNat_div, toNat_div]; omega

theorem toNat_div₃ (n : U64) : (n / 16 / 16 / 16).toNat = n.toNat / 4096 := by rw [toNat_div, toNat_div₂]; omega

theorem toNat_div₄ (n : U64) : (n / 16 / 16 / 16 / 16).toNat = n.toNat / 65536 := by rw [toNat_div, toNat_div₃]; omega

/-- One group is read as its digits. -/
theorem readChars_group (k : Nat) {n : U64} (hlt : n.toNat < 65536) :
    readChars (putGroups (hexDigits (k + 4) n)) = readGroup n.toNat := by
  have hzero : readDigit 0 = 0 := rfl
  by_cases h0 : n.toNat = 0
  · rw [hexDigits_zero _ h0, h0]
    rfl
  rw [hexDigits_succ _ (by omega)]
  by_cases h1 : n.toNat < 16
  · rw [hexDigits_zero _ (by rw [toNat_div]; omega), putGroups_of_length_le (by simp)]
    change 0 * 16 + ctoiHex _ = _
    rw [ctoiHex_mod, readGroup, show n.toNat / 16 = 0 by omega, show n.toNat / 256 = 0 by omega,
      show n.toNat / 4096 = 0 by omega]
    simp only [Nat.zero_mod, hzero]
    omega
  rw [hexDigits_succ _ (by rw [toNat_div]; omega)]
  by_cases h2 : n.toNat < 256
  · rw [hexDigits_zero _ (by rw [toNat_div₂]; omega), putGroups_of_length_le (by simp)]
    change (0 * 16 + ctoiHex _) * 16 + ctoiHex _ = _
    rw [ctoiHex_mod, ctoiHex_mod, toNat_div, readGroup, show n.toNat / 256 = 0 by omega,
      show n.toNat / 4096 = 0 by omega]
    simp only [Nat.zero_mod, hzero]
    omega
  rw [hexDigits_succ _ (by rw [toNat_div₂]; omega)]
  by_cases h3 : n.toNat < 4096
  · rw [hexDigits_zero _ (by rw [toNat_div₃]; omega), putGroups_of_length_le (by simp)]
    change ((0 * 16 + ctoiHex _) * 16 + ctoiHex _) * 16 + ctoiHex _ = _
    rw [ctoiHex_mod, ctoiHex_mod, ctoiHex_mod, toNat_div₂, toNat_div, readGroup, show n.toNat / 4096 = 0 by omega]
    simp only [Nat.zero_mod, hzero]
    omega
  rw [hexDigits_succ _ (by rw [toNat_div₃]; omega),
    hexDigits_zero _ (by rw [toNat_div₄]; omega), putGroups_of_length_le (by simp)]
  change (((0 * 16 + ctoiHex _) * 16 + ctoiHex _) * 16 + ctoiHex _) * 16 + ctoiHex _ = _
  rw [ctoiHex_mod, ctoiHex_mod, ctoiHex_mod, ctoiHex_mod, toNat_div₃, toNat_div₂, toNat_div, readGroup]
  omega

/-- The digits of a number of more than one group. -/
theorem hexDigits_group {k : Nat} {n : U64} (h : 65536 ≤ n.toNat) :
    hexDigits (k + 4) n = getHexchar (n % 16) :: getHexchar (n / 16 % 16) :: getHexchar (n / 16 / 16 % 16) ::
      getHexchar (n / 16 / 16 / 16 % 16) :: hexDigits k (n / 16 / 16 / 16 / 16) := by
  rw [hexDigits_succ _ (by omega), hexDigits_succ _ (by rw [toNat_div]; omega),
    hexDigits_succ _ (by rw [toNat_div₂]; omega),
    hexDigits_succ _ (by rw [toNat_div₃]; omega)]

theorem readBack_zero (k : Nat) : readBack k 0 = 0 := by
  induction k with
  | zero => rfl
  | succ k ih =>
    rw [readBack, Nat.zero_div, ih]
    rfl

/-- **What is read for the digits of a number.** -/
theorem readChars_hexDigits (k : Nat) (n : U64) (h : n.toNat < 65536 ^ k) :
    readChars (putGroups (hexDigits (4 * k) n)) = readBack k n.toNat := by
  induction k generalizing n with
  | zero => rfl
  | succ k ih =>
    rw [show 4 * (k + 1) = 4 * k + 4 by omega, readBack]
    by_cases hlt : n.toNat < 65536
    · rw [readChars_group _ hlt, Nat.mod_eq_of_lt hlt, Nat.div_eq_of_lt hlt, readBack_zero, Nat.mul_zero,
        Nat.add_zero]
    · have hdiv := toNat_div₄ n
      have hread := ih (n / 16 / 16 / 16 / 16) (by
        rw [hdiv]
        rw [Nat.pow_succ] at h
        exact Nat.div_lt_of_lt_mul (by rwa [Nat.mul_comm]))
      obtain ⟨e, hex, hne⟩ : ∃ e hex, hexDigits (4 * k) (n / 16 / 16 / 16 / 16) = e :: hex := by
        cases k with
        | zero => omega
        | succ k => exact ⟨_, _, hexDigits_succ _ (by rw [hdiv]; omega)⟩
      rw [hexDigits_group (by omega), hne, putGroups_cons, ← hne]
      have hlast : ∀ (s : List Char) (a b c d : Char), readChars (s ++ ['_', d, c, b, a]) =
          (((readChars s * 16 * 16 + ctoiHex d) * 16 + ctoiHex c) * 16 + ctoiHex b) * 16 + ctoiHex a := by
        intro s a b c d
        rw [readChars, List.foldl_append]
        rfl
      rw [hlast, hread, hdiv, ctoiHex_mod, ctoiHex_mod, ctoiHex_mod, ctoiHex_mod, toNat_div₃, toNat_div₂, toNat_div,
        readGroup, show n.toNat % 65536 % 16 = n.toNat % 16 by omega,
        show n.toNat % 65536 / 16 % 16 = n.toNat / 16 % 16 by omega,
        show n.toNat % 65536 / 256 % 16 = n.toNat / 256 % 16 by omega,
        show n.toNat % 65536 / 4096 % 16 = n.toNat / 4096 % 16 by omega]
      omega

/-! ## Round trip -/

/-- One group of digits up to 9. -/
def DecimalGroup (n : Nat) : Prop := n < 65536 ∧ ∀ i < 4, n / 16 ^ i % 16 < 10

instance (n : Nat) : Decidable (DecimalGroup n) := inferInstanceAs (Decidable (_ ∧ _))

theorem readDigit_lt {d : Nat} (h : d < 16) : readDigit d < 10 := by
  unfold readDigit
  split <;> omega

theorem readDigit_eq_iff {d : Nat} (h : d < 16) : readDigit d = d ↔ d < 10 := by
  unfold readDigit
  split <;> omega

/-- Four digits are read back as they are if none is above 9. -/
theorem readGroup_eq_iff {n : Nat} (h : n < 65536) : readGroup n = n ↔ DecimalGroup n := by
  have h0 := readDigit_eq_iff (Nat.mod_lt n (show 16 > 0 by decide))
  have h1 := readDigit_eq_iff (Nat.mod_lt (n / 16) (show 16 > 0 by decide))
  have h2 := readDigit_eq_iff (Nat.mod_lt (n / 256) (show 16 > 0 by decide))
  have h3 := readDigit_eq_iff (Nat.mod_lt (n / 4096) (show 16 > 0 by decide))
  have l0 := readDigit_lt (Nat.mod_lt n (show 16 > 0 by decide))
  have l1 := readDigit_lt (Nat.mod_lt (n / 16) (show 16 > 0 by decide))
  have l2 := readDigit_lt (Nat.mod_lt (n / 256) (show 16 > 0 by decide))
  have l3 := readDigit_lt (Nat.mod_lt (n / 4096) (show 16 > 0 by decide))
  have hall : DecimalGroup n ↔ n % 16 < 10 ∧ n / 16 % 16 < 10 ∧ n / 256 % 16 < 10 ∧ n / 4096 % 16 < 10 := by
    refine ⟨fun hd => ⟨?_, ?_, ?_, ?_⟩, fun hd => ⟨h, fun i hi => ?_⟩⟩
    · simpa using hd.2 0 (by decide)
    · exact hd.2 1 (by decide)
    · exact hd.2 2 (by decide)
    · exact hd.2 3 (by decide)
    · interval_cases i
      · simpa using hd.1
      · exact hd.2.1
      · exact hd.2.2.1
      · exact hd.2.2.2
  rw [hall, ← h0, ← h1, ← h2, ← h3, readGroup]
  omega

theorem readGroup_lt (n : Nat) : readGroup n < 65536 := by
  have l0 := readDigit_lt (Nat.mod_lt n (show 16 > 0 by decide))
  have l1 := readDigit_lt (Nat.mod_lt (n / 16) (show 16 > 0 by decide))
  have l2 := readDigit_lt (Nat.mod_lt (n / 256) (show 16 > 0 by decide))
  have l3 := readDigit_lt (Nat.mod_lt (n / 4096) (show 16 > 0 by decide))
  unfold readGroup
  omega

/-- A group whose digits come back one, two or three places further up is 0. -/
theorem group_eq_zero {n k : Nat} (hn : n < 65536) (hk : k = 16 ∨ k = 256 ∨ k = 4096)
    (h : k * readGroup n % 65536 = n) : n = 0 := by
  have hdigit : ∀ m, m = 0 → readDigit m = 0 := by
    rintro m rfl
    rfl
  unfold readGroup at h
  -- from the lowest digit on, each digit is 0, and so is what is read for it
  rcases hk with rfl | rfl | rfl
  · have d0 := hdigit (n % 16) (by omega)
    have d1 := hdigit (n / 16 % 16) (by omega)
    have d2 := hdigit (n / 256 % 16) (by omega)
    omega
  · have d0 := hdigit (n % 16) (by omega)
    have d1 := hdigit (n / 16 % 16) (by omega)
    omega
  · have d0 := hdigit (n % 16) (by omega)
    omega

/-- **The digits that come back.** -/
theorem readBack_eq_iff {n : Nat} (h : n < 2 ^ 64) : readBack 4 n % 2 ^ 64 = n ↔ DecimalGroup n := by
  have hsmall : ∀ n, n < 65536 → readBack 4 n = readGroup n := by
    intro n hn
    rw [readBack, Nat.mod_eq_of_lt hn, Nat.div_eq_of_lt hn, readBack_zero, Nat.mul_zero, Nat.add_zero]
  constructor
  · intro heq
    simp only [readBack, Nat.mul_zero, Nat.add_zero] at heq
    have h0 := readGroup_lt (n % 65536)
    have hz : readGroup 0 = 0 := rfl
    -- the groups above the lowest one are 0, one after the other
    have e1 : n / 65536 % 65536 = 0 := group_eq_zero (Nat.mod_lt _ (by decide)) (.inl rfl) (by omega)
    rw [e1, hz] at heq
    have e2 : n / 65536 / 65536 % 65536 = 0 := group_eq_zero (Nat.mod_lt _ (by decide)) (.inr (.inl rfl)) (by omega)
    rw [e2, hz] at heq
    have e3 : n / 65536 / 65536 / 65536 % 65536 = 0 :=
      group_eq_zero (Nat.mod_lt _ (by decide)) (.inr (.inr rfl)) (by omega)
    have hlt : n < 65536 := by omega
    rw [e3, hz, Nat.mod_eq_of_lt hlt] at heq
    rw [Nat.mod_eq_of_lt hlt] at h0
    exact (readGroup_eq_iff hlt).mp (by omega)
  · intro hd
    rw [hsmall n hd.1, (readGroup_eq_iff hd.1).mpr hd, Nat.mod_eq_of_lt h]

theorem atoi_sputp (n : U64) : atoi (sputp n) = .ok (BitVec.ofNat 64 (readBack 4 n.toNat)) := by
  have hchars : readChars (sputhex n) = readBack 4 n.toNat := by
    rw [sputhex]
    split
    · next h =>
      rw [h]
      rfl
    · exact readChars_hexDigits 4 n n.isLt
  change Except.ok (atoiHex ('0' :: 'x' :: sputhex n)) = _
  rw [atoiHex_cons, hchars]

/-- **When a printed address is read back.** -/
theorem atoi_sputp_iff (n : U64) : atoi (sputp n) = .ok n ↔ DecimalGroup n.toNat := by
  rw [atoi_sputp, ← readBack_eq_iff n.isLt, Except.ok.injEq, ← BitVec.toNat_inj, BitVec.toNat_ofNat]

end LitmusHarness
