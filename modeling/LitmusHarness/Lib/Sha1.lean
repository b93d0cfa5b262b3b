import LitmusHarness.Lib.BitString

/-!
# SHA-1

The hash of a string of bits, as the Secure Hash Standard defines it: the string is padded to blocks of 512 bits
(`pad`), each block is extended to a message schedule of 80 words (`schedule`) and worked into the hash in 80 rounds
(`compress`). For a string of bytes the padded string consists of bytes as well (`pad_ofBytes`).
-/

namespace Sha1

open BitString

abbrev Word := BitVec 32

/-! ## Functions and constants -/

/-- The circular shift to the left. -/
def rotl (n : Nat) (x : Word) : Word := x <<< n ||| x >>> (32 - n)

def ch (x y z : Word) : Word := (x &&& y) ^^^ (~~~x &&& z)

def parity (x y z : Word) : Word := x ^^^ y ^^^ z

def maj (x y z : Word) : Word := (x &&& y) ^^^ (x &&& z) ^^^ (y &&& z)

/-- The function of round `t`. -/
def f (t : Nat) : Word → Word → Word → Word :=
  if t < 20 then ch else if t < 40 then parity else if t < 60 then maj else parity

/-- The constant of round `t`. -/
def k (t : Nat) : Word :=
  if t < 20 then 0x5a827999 else if t < 40 then 0x6ed9eba1 else if t < 60 then 0x8f1bbcdc else 0xca62c1d6

/-! ## Padding -/

/-- The number of zeros: the smallest `k` with `l + 1 + k ≡ 448 mod 512`. -/
def zeros (l : Nat) : Nat := (959 - l % 512) % 512

theorem zeros_spec (l : Nat) : (l + 1 + zeros l) % 512 = 448 ∧ zeros l < 512 := by
  unfold zeros
  omega

/-- The padded message: a one, the zeros, and the length in 64 bits. -/
def pad (m : List Bool) : List Bool :=
  m ++ true :: List.replicate (zeros m.length) false ++ ofNat 64 m.length

/-- Word `t` of block `i` of a padded message. -/
def word (p : List Bool) (i t : Nat) : Word := BitVec.ofNat 32 (toNat ((p.drop (512 * i + 32 * t)).take 32))

/-! ## The hash -/

/-- The message schedule of a block. -/
def schedule (m : Nat → Word) (t : Nat) : Word :=
  if t < 16 then m t
  else rotl 1 (schedule m (t - 3) ^^^ schedule m (t - 8) ^^^ schedule m (t - 14) ^^^ schedule m (t - 16))
termination_by t

/-- A hash value, or the working variables of the rounds. -/
structure Hash where
  a : Word
  b : Word
  c : Word
  d : Word
  e : Word
  deriving DecidableEq, Repr

/-- Round `t`. -/
def round (w : Nat → Word) (t : Nat) (v : Hash) : Hash where
  a := rotl 5 v.a + f t v.b v.c v.d + v.e + k t + w t
  b := v.a
  c := rotl 30 v.b
  d := v.c
  e := v.d

/-- The first rounds. -/
def rounds (w : Nat → Word) (v : Hash) : Nat → Hash
  | 0 => v
  | t + 1 => round w t (rounds w v t)

/-- The hash after one more block. -/
def compress (m : Nat → Word) (h : Hash) : Hash :=
  let v := rounds (schedule m) h 80
  ⟨h.a + v.a, h.b + v.b, h.c + v.c, h.d + v.d, h.e + v.e⟩

def initial : Hash := ⟨0x67452301, 0xefcdab89, 0x98badcfe, 0x10325476, 0xc3d2e1f0⟩

/-- The hash after the first blocks of a padded message. -/
def hashBlocks (p : List Bool) : Nat → Hash
  | 0 => initial
  | i + 1 => compress (word p i) (hashBlocks p i)

def Hash.bits (h : Hash) : List Bool :=
  ofNat 32 h.a.toNat ++ ofNat 32 h.b.toNat ++ ofNat 32 h.c.toNat ++ ofNat 32 h.d.toNat ++ ofNat 32 h.e.toNat

/-- **The digest of a message.** -/
def sha1 (m : List Bool) : List Bool := (hashBlocks (pad m) ((pad m).length / 512)).bits

/-! ## Messages of bytes -/

/-- The padded message in bytes. -/
def padBytes (l : List (BitVec 8)) : List (BitVec 8) :=
  l ++ 0x80 :: List.replicate ((119 - l.length % 64) % 64) 0 ++ beBytes 8 (8 * l.length)

theorem length_padBytes (l : List (BitVec 8)) : (padBytes l).length = (l.length + 72) / 64 * 64 := by
  simp only [padBytes, List.length_append, List.length_cons, List.length_replicate, length_beBytes]
  omega

/-- The padding of bytes is made of bytes. -/
theorem pad_ofBytes (l : List (BitVec 8)) : pad (ofBytes l) = ofBytes (padBytes l) := by
  have hz : zeros (8 * l.length) = 7 + 8 * ((119 - l.length % 64) % 64) := by
    unfold zeros
    omega
  have h80 : true :: List.replicate (zeros (8 * l.length)) false =
      ofNat 8 (0x80#8).toNat ++ ofBytes (List.replicate ((119 - l.length % 64) % 64) 0) := by
    rw [ofBytes_replicate_zero, hz, ← List.replicate_append_replicate]
    rfl
  rw [pad, padBytes, length_ofBytes, h80, ofBytes_append, ofBytes_append, ofBytes_cons, ofBytes_beBytes]
  rfl

/-- A word of a message of bytes. -/
theorem word_ofBytes {p : List (BitVec 8)} {i t : Nat} (h : 64 * i + 4 * t + 3 < p.length) :
    word (ofBytes p) i t = BitVec.ofNat 32 (p[64 * i + 4 * t].toNat * 2 ^ 24 + p[64 * i + 4 * t + 1].toNat * 2 ^ 16 +
      p[64 * i + 4 * t + 2].toNat * 2 ^ 8 + p[64 * i + 4 * t + 3].toNat) := by
  have htake : ((ofBytes p).drop (512 * i + 32 * t)).take 32 =
      ofBytes [p[64 * i + 4 * t], p[64 * i + 4 * t + 1], p[64 * i + 4 * t + 2], p[64 * i + 4 * t + 3]] := by
    rw [show 512 * i + 32 * t = 8 * (64 * i + 4 * t) by omega, drop_ofBytes, show 32 = 8 * 4 from rfl, take_ofBytes,
      List.drop_eq_getElem_cons (by omega), List.drop_eq_getElem_cons (by omega), List.drop_eq_getElem_cons (by omega),
      List.drop_eq_getElem_cons (by omega)]
    rfl
  rw [word, htake]
  congr 1
  simp only [ofBytes_cons, ofBytes_nil, toNat_append, toNat_ofNat, List.length_append, length_ofNat, List.length_nil]
  have hb : ∀ b : BitVec 8, b.toNat % 2 ^ 8 = b.toNat := fun b => Nat.mod_eq_of_lt b.isLt
  simp only [hb]
  simp only [BitString.toNat, List.foldl_nil]
  omega

end Sha1
