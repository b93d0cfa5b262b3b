import LitmusHarness.Hashlib
import LitmusHarness.Lib.Base64
import LitmusHarness.Runner.Asid

/-!
# Decoding base 64: `base64.c`

`b64decode` decodes a group of four characters before it looks at the length for the first time. So it inverts the
encoding of every byte string but the empty one (`b64decode_inverts_iff`), where it reads what is not there. The input
is the list of the characters that are encoded; reading anything else is a fault.
-/

namespace LitmusHarness

/-! ## The functions of the source -/

/-- How decoding stops. -/
inductive B64Fault
  /-- `data` is read outside the string -/
  | outside (i : Int)
  | unreachable (c : Char)
  | bound
  deriving DecidableEq, Repr

/-- `data[i]`. -/
def readData (data : List Char) (i : Int) : Except B64Fault Char :=
  match if 0 ≤ i then data[i.toNat]? else none with
  | some c => .ok c
  | none => .error (.outside i)

/-- `b64decodechar`. -/
def b64decodechar (c : Char) : Except B64Fault Byte :=
  if 'A' ≤ c ∧ c ≤ 'Z' then .ok (BitVec.ofNat 8 (c.toNat - 'A'.toNat))
  else if 'a' ≤ c ∧ c ≤ 'z' then .ok (BitVec.ofNat 8 (26 + (c.toNat - 'a'.toNat)))
  else if '0' ≤ c ∧ c ≤ '9' then .ok (BitVec.ofNat 8 (52 + (c.toNat - '0'.toNat)))
  else if c = '+' then .ok 62
  else if c = '/' then .ok 63
  else .error (.unreachable c)

/-- `c == '=' ? 0 : b64decodechar(c)`. -/
def decodeOrPad (c : Char) : Except B64Fault Byte := if c = '=' then .ok 0 else b64decodechar c

/-- `x << n | y`, with the `char`s promoted to `int`, as a `char`. -/
def shiftOr (x : Byte) (n : Nat) (y : BitVec 32) : Byte := ((x.setWidth 32 <<< n) ||| y).setWidth 8

/-- `eat`, from `data + i` on: what it returns, and the three octets of `bite`. -/
def eat (data : List Char) (i : Int) : Except B64Fault (BitVec 32 × Byte × Byte × Byte) := do
  let a ← b64decodechar (← readData data i)
  let b ← b64decodechar (← readData data (i + 1))
  let data2 ← readData data (i + 2)
  let c ← decodeOrPad data2
  let data3 ← readData data (i + 3)
  let d ← decodeOrPad data3
  let bite := (shiftOr a 2 (b.setWidth 32 >>> 4), shiftOr (b &&& 15) 4 (c.setWidth 32 >>> 2),
    shiftOr (c &&& 3) 6 (d.setWidth 32))
  if data2 = '=' then return (1, bite) else if data3 = '=' then return (2, bite) else return (3, bite)

/-- The bytes from `out` on. -/
abbrev OutMem := Int → Byte

/-- `out[j + t] = bite[t]`, for the three `t`. -/
def writeBite (out : OutMem) (j : BitVec 32) (bite : Byte × Byte × Byte) : OutMem :=
  let out := Function.update out j.toInt bite.1
  let out := Function.update out (j + 1).toInt bite.2.1
  Function.update out (j + 2).toInt bite.2.2

/-- The loop of `b64decode`, with at most `fuel` rounds. -/
def b64decodeLoop (data : List Char) (len : U64) : Nat → BitVec 32 → BitVec 32 → OutMem → Except B64Fault (U64 × OutMem)
  | 0, _, _, _ => .error .bound
  | fuel + 1, i, j, out => do
    let (ate, bite) ← eat data i.toInt
    let out := writeBite out j bite
    if ate.toInt < 3 then return (intToU64 (j + ate), out)
    let i := i + 4
    let j := j + 3
    if intToU64 i < len then b64decodeLoop data len fuel i j out else return (intToU64 j, out)

/-- `b64decode`. There are no more rounds than characters, but at least one. -/
def b64decode (data : List Char) (len : U64) (out : OutMem) : Except B64Fault (U64 × OutMem) :=
  b64decodeLoop data len (len.toNat + 1) 0 0 out

/-! ## The inverse of the encoding -/

/-- The length of `s` is returned, its bytes are at the front of `out`, and behind the last group `out` is what it was. -/
def B64Inverts (s : List Byte) : Prop :=
  ∀ out, ∃ out', b64decode (Base64.encode s) (BitVec.ofNat 64 (Base64.encode s).length) out =
      .ok (BitVec.ofNat 64 s.length, out') ∧
    (∀ k (h : k < s.length), out' k = s.get ⟨k, h⟩) ∧
    ∀ k : Int, k < 0 ∨ 3 * ((s.length + 2) / 3 : Nat) ≤ k → out' k = out k

/-! ## One group -/

theorem b64decodechar_char {v : Nat} (h : v < 64) : b64decodechar (Base64.char v) = .ok (BitVec.ofNat 8 v) := by
  have hall : ∀ v < 64, b64decodechar (Base64.char v) = .ok (BitVec.ofNat 8 v) := by decide +kernel
  exact hall v h

theorem toNat_shiftOr {x : Byte} {n : Nat} {y : BitVec 32} (hn : n < 8) (hy : y.toNat < 2 ^ n) :
    (shiftOr x n y).toNat = (x.toNat * 2 ^ n + y.toNat) % 256 := by
  have hx := x.isLt
  have hpow : 2 ^ n ≤ 2 ^ 7 := Nat.pow_le_pow_right (by decide) (by omega)
  have hmul : x.toNat * 2 ^ n < 2 ^ 32 :=
    Nat.lt_of_le_of_lt (Nat.mul_le_mul (Nat.le_of_lt hx) hpow) (by decide)
  rw [shiftOr, BitVec.toNat_setWidth, BitVec.toNat_or, BitVec.toNat_shiftLeft, BitVec.toNat_setWidth,
    Nat.mod_eq_of_lt (show x.toNat < 2 ^ 32 by omega), Nat.shiftLeft_eq, Nat.mod_eq_of_lt hmul, Nat.mul_comm,
    ← Nat.two_pow_add_eq_or_of_lt hy]

/-- The octets of a group come back. -/
theorem bite_group (a b c : Byte) :
    shiftOr (BitVec.ofNat 8 (Base64.sextet (Base64.group a b c) 0)) 2
        ((BitVec.ofNat 8 (Base64.sextet (Base64.group a b c) 1)).setWidth 32 >>> 4) = a ∧
      shiftOr (BitVec.ofNat 8 (Base64.sextet (Base64.group a b c) 1) &&& 15) 4
        ((BitVec.ofNat 8 (Base64.sextet (Base64.group a b c) 2)).setWidth 32 >>> 2) = b ∧
      shiftOr (BitVec.ofNat 8 (Base64.sextet (Base64.group a b c) 2) &&& 3) 6
        ((BitVec.ofNat 8 (Base64.sextet (Base64.group a b c) 3)).setWidth 32) = c := by
  obtain ⟨h0, h1, h2, h3⟩ := Base64.sextet_group a b c
  have ha := a.isLt
  have hb := b.isLt
  have hc := c.isLt
  have hnat : ∀ v < 64, (BitVec.ofNat 8 v).toNat = v := fun v hv =>
    (BitVec.toNat_ofNat ..).trans (Nat.mod_eq_of_lt (by omega))
  have hshift : ∀ v < 64, ∀ n, ((BitVec.ofNat 8 v).setWidth 32 >>> n).toNat = v / 2 ^ n := fun v hv n => by
    rw [BitVec.toNat_ushiftRight, BitVec.toNat_setWidth, hnat v hv, Nat.shiftRight_eq_div_pow,
      Nat.mod_eq_of_lt (by omega)]
  have h15 : ∀ v < 64, (BitVec.ofNat 8 v &&& 15).toNat = v % 16 := fun v hv => by
    rw [BitVec.toNat_and, hnat v hv]
    exact Nat.and_two_pow_sub_one_eq_mod v 4
  have h3' : ∀ v < 64, (BitVec.ofNat 8 v &&& 3).toNat = v % 4 := fun v hv => by
    rw [BitVec.toNat_and, hnat v hv]
    exact Nat.and_two_pow_sub_one_eq_mod v 2
  have hlt := Base64.sextet_lt (Base64.group a b c)
  have hlow : ((BitVec.ofNat 8 (Base64.sextet (Base64.group a b c) 3)).setWidth 32).toNat =
      Base64.sextet (Base64.group a b c) 3 := by
    rw [BitVec.toNat_setWidth, hnat _ (hlt 3), Nat.mod_eq_of_lt (by have := hlt 3; omega)]
  refine ⟨?_, ?_, ?_⟩ <;> apply BitVec.eq_of_toNat_eq
  · rw [toNat_shiftOr (by decide) (by rw [hshift _ (hlt 1)]; have := hlt 1; omega), hshift _ (hlt 1), hnat _ (hlt 0), h0,
      h1]
    omega
  · rw [toNat_shiftOr (by decide) (by rw [hshift _ (hlt 2)]; have := hlt 2; omega), hshift _ (hlt 2), h15 _ (hlt 1), h1,
      h2]
    omega
  · rw [toNat_shiftOr (by decide) (by rw [hlow]; exact hlt 3), hlow, h3' _ (hlt 2), h2, h3]
    omega

theorem eat_ok {data : List Char} {i : Int} {x0 x1 x2 x3 : Char} {a b c d : Byte} (h0 : readData data i = .ok x0)
    (h1 : readData data (i + 1) = .ok x1) (h2 : readData data (i + 2) = .ok x2) (h3 : readData data (i + 3) = .ok x3)
    (ha : b64decodechar x0 = .ok a) (hb : b64decodechar x1 = .ok b) (hc : decodeOrPad x2 = .ok c)
    (hd : decodeOrPad x3 = .ok d) :
    eat data i = .ok (if x2 = '=' then 1 else if x3 = '=' then 2 else 3, shiftOr a 2 (b.setWidth 32 >>> 4),
      shiftOr (b &&& 15) 4 (c.setWidth 32 >>> 2), shiftOr (c &&& 3) 6 (d.setWidth 32)) := by
  simp only [eat, bind, Except.bind, h0, h1, h2, h3, ha, hb, hc, hd]
  split_ifs <;> rfl

/-- What `eat` returns for the digits of a group, of which the last two may be padding. -/
theorem eat_group {data : List Char} {i : Int} {x2 x3 : Char} (a b c : Byte)
    (h0 : readData data i = .ok (Base64.char (Base64.sextet (Base64.group a b c) 0)))
    (h1 : readData data (i + 1) = .ok (Base64.char (Base64.sextet (Base64.group a b c) 1)))
    (h2 : readData data (i + 2) = .ok x2) (h3 : readData data (i + 3) = .ok x3)
    (hx2 : decodeOrPad x2 = .ok (BitVec.ofNat 8 (Base64.sextet (Base64.group a b c) 2)))
    (hx3 : decodeOrPad x3 = .ok (BitVec.ofNat 8 (Base64.sextet (Base64.group a b c) 3))) :
    eat data i = .ok (if x2 = '=' then 1 else if x3 = '=' then 2 else 3, a, b, c) := by
  obtain ⟨ha, hb, hc⟩ := bite_group a b c
  have hlt := Base64.sextet_lt (Base64.group a b c)
  rw [eat_ok h0 h1 h2 h3 (b64decodechar_char (hlt 0)) (b64decodechar_char (hlt 1)) hx2 hx3, ha, hb, hc]

/-! ## Indices -/

theorem toInt_ofNat32 {n : Nat} (h : n < 2 ^ 31) : (BitVec.ofNat 32 n).toInt = n := by
  rw [BitVec.toInt_ofNat', Int.bmod_eq_of_le] <;> omega

theorem intToU64_ofNat {n : Nat} (h : n < 2 ^ 31) : intToU64 (BitVec.ofNat 32 n) = BitVec.ofNat 64 n := by
  apply BitVec.eq_of_toNat_eq
  rw [toNat_intToU64, toInt_ofNat32 h, if_neg (by omega), BitVec.toNat_ofNat, BitVec.toNat_ofNat]
  omega

theorem readData_append {p t : List Char} {i : Int} {k : Nat} {c : Char} (hi : i = p.length + k) (h : t[k]? = some c) :
    readData (p ++ t) i = .ok c := by
  have hget : (p ++ t)[i.toNat]? = some c := by
    rw [show i.toNat = p.length + k by omega, List.getElem?_append_right (Nat.le_add_right _ _), Nat.add_sub_cancel_left,
      h]
  unfold readData
  rw [if_pos (by omega), hget]

theorem writeBite_apply {n : Nat} (h : n + 2 < 2 ^ 31) (out : OutMem) (x y z : Byte) (k : Int) :
    writeBite out (BitVec.ofNat 32 n) (x, y, z) k =
      if k = n + 2 then z else if k = n + 1 then y else if k = n then x else out k := by
  have h1 : (BitVec.ofNat 32 n + 1).toInt = n + 1 := by
    rw [show BitVec.ofNat 32 n + 1 = BitVec.ofNat 32 (n + 1) from (BitVec.ofNat_add n 1).symm, toInt_ofNat32 (by omega)]
    rfl
  have h2 : (BitVec.ofNat 32 n + 2).toInt = n + 2 := by
    rw [show BitVec.ofNat 32 n + 2 = BitVec.ofNat 32 (n + 2) from (BitVec.ofNat_add n 2).symm, toInt_ofNat32 (by omega)]
    rfl
  simp only [writeBite, Function.update_apply, h1, h2, toInt_ofNat32 (show n < 2 ^ 31 by omega)]

/-- The bytes outside of the three stay. -/
theorem writeBite_outside {n : Nat} (h : n + 2 < 2 ^ 31) (out : OutMem) (bite : Byte × Byte × Byte) {k : Int}
    (hk : k < n ∨ n + 3 ≤ k) : writeBite out (BitVec.ofNat 32 n) bite k = out k := by
  rw [writeBite_apply h, if_neg (by omega), if_neg (by omega), if_neg (by omega)]

/-- The bytes of a group and of what is decoded after it. -/
theorem get_of_writeBite {n : Nat} (h : n + 2 < 2 ^ 31) {out out' : OutMem} {a b c : Byte} {s : List Byte}
    (hsame : ∀ k : Int, k < (n + 3 : Nat) → out' k = writeBite out (BitVec.ofNat 32 n) (a, b, c) k)
    (hget : ∀ k (h : k < s.length), out' (n + 3 + k : Nat) = s.get ⟨k, h⟩) :
    ∀ k (h : k < (a :: b :: c :: s).length), out' (n + k : Nat) = (a :: b :: c :: s).get ⟨k, h⟩ := by
  intro k hk
  match k with
  | 0 => rw [hsame _ (by omega), writeBite_apply h, if_neg (by omega), if_neg (by omega), if_pos (by omega)]; rfl
  | 1 => rw [hsame _ (by omega), writeBite_apply h, if_neg (by omega), if_pos (by omega)]; rfl
  | 2 => rw [hsame _ (by omega), writeBite_apply h, if_pos (by omega)]; rfl
  | k + 3 =>
    rw [show n + (k + 3) = n + 3 + k by omega]
    exact hget k (by simp only [List.length_cons] at hk; omega)

/-! ## All groups -/

theorem decodeOrPad_char {v : Nat} (h : v < 64) : decodeOrPad (Base64.char v) = .ok (BitVec.ofNat 8 v) := by
  rw [decodeOrPad, if_neg (Base64.char_ne_pad h), b64decodechar_char h]

/-- What the loop does with the encoding of `s`, from the `m`-th group on. -/
def DecodesFrom (p : List Char) (m : Nat) (s : List Byte) (fuel : Nat) (out : OutMem) : Prop :=
  ∃ out', b64decodeLoop (p ++ Base64.encode s) (BitVec.ofNat 64 (p ++ Base64.encode s).length) fuel
      (BitVec.ofNat 32 (4 * m)) (BitVec.ofNat 32 (3 * m)) out = .ok (BitVec.ofNat 64 (3 * m + s.length), out') ∧
    (∀ k (h : k < s.length), out' (3 * m + k : Nat) = s.get ⟨k, h⟩) ∧
    ∀ k : Int, k < 3 * m ∨ 3 * m + 3 * ((s.length + 2) / 3 : Nat) ≤ k → out' k = out k

section Loop

variable {p : List Char} {m fuel : Nat} {out : OutMem}

/-- The last group, which has one or two bytes. -/
theorem decodesFrom_last {s : List Byte} {ate : Nat} {a b c : Byte} (hbound : 4 * m + 4 < 2 ^ 31)
    (heat : eat (p ++ Base64.encode s) (4 * m : Nat) = .ok (BitVec.ofNat 32 ate, a, b, c)) (hate : ate = s.length)
    (hlt : ate < 3) (hpos : 0 < ate) (hget : ∀ k (h : k < s.length), s.get ⟨k, h⟩ = if k = 0 then a else b) :
    DecodesFrom p m s (fuel + 1) out := by
  refine ⟨writeBite out (BitVec.ofNat 32 (3 * m)) (a, b, c), ?_, fun k hk => ?_, fun k hk => ?_⟩
  · have hint : (BitVec.ofNat 32 ate).toInt < 3 := by
      rw [toInt_ofNat32 (by omega)]
      omega
    unfold b64decodeLoop
    rw [toInt_ofNat32 (by omega), heat]
    simp only [bind, Except.bind, if_pos hint, pure, Except.pure]
    rw [← BitVec.ofNat_add, intToU64_ofNat (by omega), hate]
  · rw [writeBite_apply (by omega), hget k hk, if_neg (by omega)]
    by_cases h0 : k = 0
    · rw [if_neg (by omega), if_pos (by omega), if_pos h0]
    · rw [if_pos (by omega), if_neg h0]
  · exact writeBite_outside (by omega) _ _ (by omega)

/-- What `eat` returns for the digits of a group that stand after `p`. -/
theorem eat_append {x2 x3 : Char} (a b c : Byte) (t : List Char) (h : (p.length : Int) = 4 * m)
    (hx2 : decodeOrPad x2 = .ok (BitVec.ofNat 8 (Base64.sextet (Base64.group a b c) 2)))
    (hx3 : decodeOrPad x3 = .ok (BitVec.ofNat 8 (Base64.sextet (Base64.group a b c) 3))) :
    eat (p ++ Base64.char (Base64.sextet (Base64.group a b c) 0) :: Base64.char (Base64.sextet (Base64.group a b c) 1) ::
      x2 :: x3 :: t) (4 * m : Nat) = .ok (if x2 = '=' then 1 else if x3 = '=' then 2 else 3, a, b, c) :=
  eat_group a b c (readData_append (k := 0) (by omega) rfl) (readData_append (k := 1) (by omega) rfl)
    (readData_append (k := 2) (by omega) rfl) (readData_append (k := 3) (by omega) rfl) hx2 hx3

theorem eat_encode_one (a : Byte) (h : (p.length : Int) = 4 * m) :
    eat (p ++ Base64.encode [a]) (4 * m : Nat) = .ok (1, a, 0, 0) := by
  obtain ⟨-, -, h2, h3⟩ := Base64.sextet_group a 0 0
  have heat := @eat_append p m '=' '=' a 0 0 [] h (by rw [h2]; rfl) (by rw [h3]; rfl)
  rwa [if_pos rfl] at heat

theorem eat_encode_two (a b : Byte) (h : (p.length : Int) = 4 * m) :
    eat (p ++ Base64.encode [a, b]) (4 * m : Nat) = .ok (2, a, b, 0) := by
  obtain ⟨-, -, -, h3⟩ := Base64.sextet_group a b 0
  have hlt := Base64.sextet_lt (Base64.group a b 0)
  have heat := @eat_append p m _ '=' a b 0 [] h (decodeOrPad_char (hlt 2)) (by rw [h3]; rfl)
  rwa [if_neg (Base64.char_ne_pad (hlt 2)), if_pos rfl] at heat

theorem eat_encode_three (a b c : Byte) (s : List Byte) (h : (p.length : Int) = 4 * m) :
    eat (p ++ Base64.encode (a :: b :: c :: s)) (4 * m : Nat) = .ok (3, a, b, c) := by
  have hlt := Base64.sextet_lt (Base64.group a b c)
  have heat := eat_append a b c (Base64.encode s) h (decodeOrPad_char (hlt 2)) (decodeOrPad_char (hlt 3))
  rwa [if_neg (Base64.char_ne_pad (hlt 2)), if_neg (Base64.char_ne_pad (hlt 3))] at heat

/-- A whole group and what the loop does after it. -/
theorem decodesFrom_group {a b c : Byte} {s : List Byte} (hp : p.length = 4 * m)
    (hbound : 4 * m + (Base64.encode (a :: b :: c :: s)).length < 2 ^ 31)
    (hrest : s ≠ [] → ∀ (p : List Char) (out : OutMem), p.length = 4 * (m + 1) → DecodesFrom p (m + 1) s fuel out) :
    DecodesFrom p m (a :: b :: c :: s) (fuel + 1) out := by
  have hlen : (Base64.encode (a :: b :: c :: s)).length = 4 + (Base64.encode s).length := by
    rw [Base64.encode]
    simp only [List.length_cons]
    omega
  rw [hlen] at hbound
  have hi : BitVec.ofNat 32 (4 * m) + 4 = BitVec.ofNat 32 (4 * (m + 1)) := (BitVec.ofNat_add (4 * m) 4).symm
  have hj : BitVec.ofNat 32 (3 * m) + 3 = BitVec.ofNat 32 (3 * (m + 1)) := (BitVec.ofNat_add (3 * m) 3).symm
  have hthree : ¬(3 : BitVec 32).toInt < 3 := by decide
  unfold DecodesFrom b64decodeLoop
  rw [toInt_ofNat32 (by omega), eat_encode_three a b c s (by omega)]
  simp only [bind, Except.bind, if_neg hthree, hi, hj]
  rw [intToU64_ofNat (by omega)]
  by_cases hs : s = []
  · subst hs
    have hend : ¬BitVec.ofNat 64 (4 * (m + 1)) < BitVec.ofNat 64 (p ++ Base64.encode [a, b, c]).length := by
      rw [BitVec.lt_def, List.length_append, hlen, hp]
      exact Nat.lt_irrefl _
    rw [if_neg hend]
    refine ⟨_, by rw [intToU64_ofNat (by omega)]; rfl,
      get_of_writeBite (by omega) (fun k _ => rfl) fun k h => absurd h (Nat.not_lt_zero k),
      fun k hk => writeBite_outside (by omega) _ _ ?_⟩
    simp only [List.length_cons, List.length_nil] at hk
    omega
  · have hpos : 0 < (Base64.encode s).length := by
      have := List.length_pos_iff.mpr hs
      rw [Base64.length_encode]
      omega
    have hmore : BitVec.ofNat 64 (4 * (m + 1)) < BitVec.ofNat 64 (p ++ Base64.encode (a :: b :: c :: s)).length := by
      rw [BitVec.lt_def, List.length_append, hlen, hp, BitVec.toNat_ofNat, BitVec.toNat_ofNat,
        Nat.mod_eq_of_lt (by omega), Nat.mod_eq_of_lt (by omega)]
      omega
    rw [if_pos hmore]
    obtain ⟨q, hq, hqlen⟩ : ∃ q, Base64.encode (a :: b :: c :: s) = q ++ Base64.encode s ∧ q.length = 4 := by
      rw [Base64.encode]
      exact ⟨[_, _, _, _], rfl, rfl⟩
    obtain ⟨out', hrun, hget, hsame⟩ := hrest hs (p ++ q) (writeBite out (BitVec.ofNat 32 (3 * m)) (a, b, c))
      (by rw [List.length_append, hp, hqlen, Nat.mul_succ])
    rw [List.append_assoc, ← hq] at hrun
    -- the later groups leave the bytes of this one as they are
    refine ⟨out', ?_, get_of_writeBite (by omega) (fun k hk => hsame k (.inl (by omega))) hget, fun k hk => ?_⟩
    · rw [hrun]
      simp only [List.length_cons]
      rw [show 3 * (m + 1) + s.length = 3 * m + (s.length + 1 + 1 + 1) by omega]
    · simp only [List.length_cons] at hk
      rw [hsame k (by omega), writeBite_outside (by omega) _ _ (by omega)]

/-- **The loop decodes the groups**, by induction on them. -/
theorem decodesFrom_encode (s : List Byte) (hne : s ≠ []) (hp : p.length = 4 * m)
    (hbound : 4 * m + (Base64.encode s).length < 2 ^ 31) (hfuel : s.length < 3 * fuel) : DecodesFrom p m s fuel out := by
  obtain ⟨fuel, rfl⟩ : ∃ f, fuel = f + 1 := ⟨fuel - 1, by omega⟩
  induction s using Base64.encode.induct generalizing p m fuel out with
  | case1 => exact absurd rfl hne
  | case2 a =>
    rw [Base64.length_encode] at hbound
    refine decodesFrom_last (by simpa using hbound) (eat_encode_one a (by omega)) rfl (by decide) (by decide) fun k hk => ?_
    simp only [List.length_cons, List.length_nil] at hk
    obtain rfl : k = 0 := by omega
    rfl
  | case3 a b =>
    rw [Base64.length_encode] at hbound
    refine decodesFrom_last (by simpa using hbound) (eat_encode_two a b (by omega)) rfl (by decide) (by decide)
      fun k hk => ?_
    simp only [List.length_cons, List.length_nil] at hk
    rcases (show k = 0 ∨ k = 1 by omega) with rfl | rfl <;> rfl
  | case4 a b c s ih =>
    refine decodesFrom_group hp hbound fun hs p out hp' => ?_
    have hlen : (Base64.encode (a :: b :: c :: s)).length = 4 + (Base64.encode s).length := by
      rw [Base64.length_encode, Base64.length_encode]
      simp only [List.length_cons]
      omega
    simp only [List.length_cons] at hfuel
    obtain ⟨fuel, rfl⟩ : ∃ f, fuel = f + 1 := ⟨fuel - 1, by omega⟩
    exact ih hs hp' (by omega) fuel (by omega)

end Loop

/-- **Decoding inverts the encoding** if and only if there is something to decode. -/
theorem b64decode_inverts_iff (s : List Byte) (hlen : s.length < 2 ^ 30) : B64Inverts s ↔ s ≠ [] := by
  constructor
  · rintro h rfl
    obtain ⟨out', hrun, -⟩ := h fun _ => 0
    cases hrun
  · intro hne out
    have hdata := Base64.length_encode s
    have htoNat : (BitVec.ofNat 64 (Base64.encode s).length).toNat = (Base64.encode s).length := by
      rw [BitVec.toNat_ofNat]
      omega
    obtain ⟨out', hrun, hget, hframe⟩ := @decodesFrom_encode [] 0 ((Base64.encode s).length + 1) out s hne rfl
      (by omega) (by omega)
    refine ⟨out', ?_, ?_, ?_⟩
    · rw [b64decode, htoNat]
      simpa using hrun
    · intro k hk
      simpa using hget k hk
    · intro k hk
      exact hframe k (by simpa using hk)

/-- The encoding of the empty string is not decoded: what is not there is read. -/
theorem b64decode_empty : ¬B64Inverts [] ∧ ∀ out, b64decode (Base64.encode []) 0 out = .error (.outside 0) := by
  refine ⟨fun h => ?_, fun _ => rfl⟩
  obtain ⟨out', hrun, -⟩ := h fun _ => 0
  cases hrun

/-- A string of one byte. -/
theorem b64decode_inverts_iff_one : B64Inverts [0x66] :=
  (b64decode_inverts_iff [0x66] (by decide)).mpr (List.cons_ne_nil _ _)

end LitmusHarness
