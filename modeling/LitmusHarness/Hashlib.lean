import LitmusHarness.Bitwise
import LitmusHarness.Lib.Loop
import LitmusHarness.Lib.Sha1
import Mathlib.Logic.Function.Iterate

/-!
# `hashlib.c`: the hash of a test

`hash_sha1` copies the message into padded blocks (`preprocess`) and works one block after the other into the hash. An
array is the list of its elements, and `ALLOC_SIZED` gives zeroes. The main result is `hashSha1_correct`: the digest
is SHA-1 of the message.
-/

namespace LitmusHarness

/-- `u32`. -/
abbrev U32 := BitVec 32

/-- `u8`, and a byte of a `char` array. -/
abbrev Byte := BitVec 8

/-- How a run can fail to have a result. -/
inductive HashError
  /-- a loop whose counter wraps around below its bound -/
  | diverges
  /-- `unreachable()` -/
  | unreachable
  deriving DecidableEq, Repr

/-- `for (; i < bound; i++) s = body i s`, with an `unsigned int i` and a bound in a `u64`. -/
def forUnsigned {σ : Type} (bound : U64) (body : U32 → σ → Except HashError σ) (i : U32) (s : σ) :
    Except HashError (U32 × σ) :=
  Loop.whileM (fun (i, _) => i.setWidth 64 < bound)
    (fun (i, s) => do
      let s ← body i s
      .ok (i + 1, s))
    .diverges (2 ^ 32) (i, s)

/-! ## `bits.c` -/

/-- `read_be`. -/
def readBe (p : List Byte) (a : Nat) : U32 :=
  ((p.getD a 0).setWidth 32 <<< 24) + ((p.getD (a + 1) 0).setWidth 32 <<< 16) +
    ((p.getD (a + 2) 0).setWidth 32 <<< 8) + (p.getD (a + 3) 0).setWidth 32

/-- `write_be`. -/
def writeBe (p : List Byte) (a : Nat) (v : U32) : List Byte :=
  Loop.forRange 0 4 (fun i p => p.set (a + i) (((v >>> (24 - 8 * i)) &&& 0xff).setWidth 8)) p

/-- `write_be64`. -/
def writeBe64 (p : List Byte) (a : Nat) (v : U64) : List Byte :=
  Loop.forRange 0 8 (fun i p => p.set (a + i) (((v >>> (56 - 8 * i)) &&& 0xff).setWidth 8)) p

/-! ## `hashlib.c` -/

namespace Hashlib

/-- `struct sha1_state`. -/
structure Sha1State where
  h : List U32
  W : List U32
  K : List U32

/-- `INITIAL_STATE.h`. -/
def initialStateH : List U32 := [0x67452301, 0xefcdab89, 0x98badcfe, 0x10325476, 0xc3d2e1f0]

/-- `preprocess`: the number of blocks, and the blocks. -/
def preprocess (buf : List Byte) : Except HashError (U64 × List Byte) := do
  let bufsize := BitVec.ofNat 64 buf.length
  let l := bufsize * 8
  let newL := alignUp (l + 64 + 1) 9
  let newSize := newL >>> 3
  let newBuf := List.replicate newSize.toNat 0
  let (b, newBuf) ← forUnsigned bufsize (fun b newBuf => .ok (newBuf.set b.toNat (buf.getD b.toNat 0))) 0 newBuf
  let newBuf := newBuf.set b.toNat 0x80
  let (b, newBuf) ← forUnsigned (newSize - 8) (fun b newBuf => .ok (newBuf.set b.toNat 0)) (b + 1) newBuf
  .ok (newL >>> 9, writeBe64 newBuf b.toNat l)

/-- `ROTLONE`. -/
def rotlOne (x : U32) : U32 := (x <<< 1) ||| (x >>> 31)

/-- `rotl`. -/
def rotl (n : Nat) (x : U32) : U32 := rotlOne^[n] x

/-- `prepare_initial_state`. -/
def prepareInitialState : Sha1State where
  h := Loop.forRange 0 5 (fun i h => h.set i (initialStateH.getD i 0)) (List.replicate 5 0)
  W := List.replicate 80 0
  K := List.replicate 80 0

/-- `prepare_message_schedule_W`. The offset `i * 64` of the block is an `unsigned int`. -/
def prepareMessageScheduleW (message : List Byte) (W : List U32) (i : U32) : List U32 :=
  let W := Loop.forRange 0 16 (fun t W => W.set t (readBe message ((i * 64).toNat + 4 * t))) W
  Loop.forRange 16 80
    (fun t W => W.set t (rotl 1 (W.getD (t - 3) 0 ^^^ W.getD (t - 8) 0 ^^^ W.getD (t - 14) 0 ^^^ W.getD (t - 16) 0))) W

/-- `prepare_constants_K`. -/
def prepareConstantsK (K : List U32) : List U32 :=
  let K := Loop.forRange 0 20 (fun t K => K.set t 0x5a827999) K
  let K := Loop.forRange 20 40 (fun t K => K.set t 0x6ed9eba1) K
  let K := Loop.forRange 40 60 (fun t K => K.set t 0x8f1bbcdc) K
  Loop.forRange 60 80 (fun t K => K.set t 0xca62c1d6) K

/-- `Ch`. -/
def ch (x y z : U32) : U32 := (x &&& y) ^^^ (~~~x &&& z)

/-- `Parity`. -/
def parity (x y z : U32) : U32 := x ^^^ y ^^^ z

/-- `Maj`. -/
def maj (x y z : U32) : U32 := (x &&& y) ^^^ (x &&& z) ^^^ (y &&& z)

/-- `f`. -/
def f (t : Nat) (x y z : U32) : Except HashError U32 :=
  if t ≤ 19 then .ok (ch x y z)
  else if 20 ≤ t ∧ t ≤ 39 then .ok (parity x y z)
  else if 40 ≤ t ∧ t ≤ 59 then .ok (maj x y z)
  else if 60 ≤ t ∧ t ≤ 79 then .ok (parity x y z)
  else .error .unreachable

/-- The variables `a` to `e` of `hash_sha1`. -/
structure Working where
  a : U32
  b : U32
  c : U32
  d : U32
  e : U32

/-- Their values before the first round. -/
def Sha1State.working (st : Sha1State) : Working where
  a := st.h.getD 0 0
  b := st.h.getD 1 0
  c := st.h.getD 2 0
  d := st.h.getD 3 0
  e := st.h.getD 4 0

/-- The body of the loop over `t` in `hash_sha1`. -/
def hashRound (st : Sha1State) (t : Nat) (v : Working) : Except HashError Working := do
  let ft ← f t v.b v.c v.d
  let T := rotl 5 v.a + ft + v.e + st.K.getD t 0 + st.W.getD t 0
  .ok { a := T, b := v.a, c := rotl 30 v.b, d := v.c, e := v.d }

/-- `st.h[i] += x`. -/
def addH (i : Nat) (x : U32) (h : List U32) : List U32 := h.set i (h.getD i 0 + x)

/-- The body of the loop over the blocks in `hash_sha1`. -/
def hashBlock (message : List Byte) (i : U32) (st : Sha1State) : Except HashError Sha1State := do
  let st := { st with W := prepareMessageScheduleW message st.W i }
  let v ← Loop.forRangeM 0 80 (hashRound st) st.working
  .ok { st with h := addH 4 v.e (addH 3 v.d (addH 2 v.c (addH 1 v.b (addH 0 v.a st.h)))) }

/-- `write_digest`. -/
def writeDigest (st : Sha1State) : List Byte :=
  Loop.forRange 0 5 (fun i p => writeBe p (4 * i) (st.h.getD i 0)) (List.replicate 20 0)

/-- `hash_sha1`. -/
def hashSha1 (buf : List Byte) : Except HashError (List Byte) := do
  let (N, message) ← preprocess buf
  let st := prepareInitialState
  let st := { st with K := prepareConstantsK st.K }
  let (_, st) ← forUnsigned N (hashBlock message) 0 st
  .ok (writeDigest st)

/-! ## Loops -/

/-- The rule of a loop with an `unsigned int` counter whose bound is below 2^32. -/
theorem forUnsigned_total {σ : Type} {I : Nat → σ → Prop} {bound : U64} {body : U32 → σ → Except HashError σ} {i : U32}
    {s : σ} (hb : bound.toNat < 2 ^ 32) (hi : i.toNat ≤ bound.toNat)
    (hbody : ∀ (t : U32) s, i.toNat ≤ t.toNat → t.toNat < bound.toNat → I t.toNat s →
      ∃ s', body t s = .ok s' ∧ I (t.toNat + 1) s') (h : I i.toNat s) :
    ∃ j s', forUnsigned bound body i s = .ok (j, s') ∧ j.toNat = bound.toNat ∧ I bound.toNat s' := by
  have hlt : ∀ t : U32, t.setWidth 64 < bound ↔ t.toNat < bound.toNat := by
    intro t
    rw [BitVec.lt_def, BitVec.toNat_setWidth, Nat.mod_eq_of_lt (by omega)]
  obtain ⟨⟨j, s'⟩, hrun, ⟨hij, hjb, hI⟩, hcond⟩ := @Loop.whileM_total (U32 × σ) HashError
    (fun (i, _) => i.setWidth 64 < bound)
    (fun (i, s) => do
      let s ← body i s
      .ok (i + 1, s)) .diverges
    (fun p => i.toNat ≤ p.1.toNat ∧ p.1.toNat ≤ bound.toNat ∧ I p.1.toNat p.2)
    (fun p => bound.toNat - p.1.toNat) (by
      rintro ⟨t, s⟩ ⟨hit, -, hI⟩ hc
      replace hit : i.toNat ≤ t.toNat := hit
      have htb := (hlt t).mp (of_decide_eq_true hc)
      obtain ⟨s₁, hs₁, hI₁⟩ := hbody t s hit htb hI
      have ht : (t + 1).toNat = t.toNat + 1 := by
        rw [BitVec.toNat_add]
        exact Nat.mod_eq_of_lt (by simp; omega)
      refine ⟨(t + 1, s₁), by simp only [hs₁]; rfl, ⟨?_, ?_, ?_⟩, ?_⟩
      · simp only [ht]
        omega
      · simp only [ht]
        omega
      · simpa only [ht] using hI₁
      · simp only [ht]
        omega) (2 ^ 32) (i, s) ⟨Nat.le_refl _, hi, h⟩ (by simp only; omega)
  have hge : ¬j.toNat < bound.toNat := fun hc => (decide_eq_false_iff_not.mp hcond) ((hlt j).mpr hc)
  have hj : j.toNat = bound.toNat := by
    simp only at hjb
    omega
  exact ⟨j, s', hrun, hj, hj ▸ hI⟩

/-- A counter never reaches a bound from 2^32 on. -/
theorem forUnsigned_diverges {σ : Type} {bound : U64} {body : U32 → σ → Except HashError σ} (hb : 2 ^ 32 ≤ bound.toNat)
    (hbody : ∀ t s, ∃ s', body t s = .ok s') (i : U32) (s : σ) : forUnsigned bound body i s = .error .diverges := by
  refine Loop.whileM_limit (I := fun _ => True) (fun p _ => ?_) (fun _ _ _ _ => trivial) (fun p _ => ?_) _ _ trivial
  · have hlt := p.1.isLt
    rw [decide_eq_true_iff, BitVec.lt_def, BitVec.toNat_setWidth, Nat.mod_eq_of_lt (by omega)]
    omega
  · obtain ⟨s', hs'⟩ := hbody p.1 p.2
    exact ⟨(p.1 + 1, s'), by simp only [hs', bind, Except.bind]⟩

theorem getD_set {α : Type} {l : List α} {i : Nat} (j : Nat) {v d : α} (h : i < l.length) :
    (l.set i v).getD j d = if i = j then v else l.getD j d := by
  rw [List.getD_eq_getElem?_getD, List.getElem?_set, if_pos h, List.getD_eq_getElem?_getD]
  split <;> rfl

/-- A loop that sets elements in a row. -/
theorem forRange_set {α : Type} {a lo hi : Nat} {e : Nat → Nat} {g : Nat → α} {p : List α} (d : α)
    (he : ∀ i, e i = a + i) (hle : lo ≤ hi) (hp : a + hi ≤ p.length) :
    (Loop.forRange lo hi (fun i p => p.set (e i) (g i)) p).length = p.length ∧
      ∀ j, (Loop.forRange lo hi (fun i p => p.set (e i) (g i)) p).getD j d =
        if a + lo ≤ j ∧ j < a + hi then g (j - a) else p.getD j d := by
  refine @Loop.forRange_inv _ (fun t q => q.length = p.length ∧
    ∀ j, q.getD j d = if a + lo ≤ j ∧ j < a + t then g (j - a) else p.getD j d) lo hi _ p ?_ hle ⟨rfl, fun j => ?_⟩
  · rintro t q ht hlt ⟨hlen, hq⟩
    refine ⟨by rw [List.length_set, hlen], fun j => ?_⟩
    rw [he, getD_set j (by omega)]
    by_cases hj : a + t = j
    · subst hj
      rw [if_pos rfl, if_pos (by omega), Nat.add_sub_cancel_left]
    · rw [if_neg hj, hq j]
      congr 1
      simp only [eq_iff_iff, and_congr_right_iff]
      omega
  · rw [if_neg (by omega)]

/-! ## Words and bytes -/

/-- Shifting one bit at a time. -/
theorem rotl_eq (x : U32) {n : Nat} (h : n < 32) : rotl n x = Sha1.rotl n x := by
  induction n with
  | zero => simp [rotl, Sha1.rotl, BitVec.ushiftRight_eq_zero]
  | succ n ih =>
    have hrest := ih (by omega)
    rw [rotl] at hrest
    rw [rotl, Function.iterate_succ_apply', hrest, rotlOne, Sha1.rotl, Sha1.rotl]
    apply BitVec.eq_of_getLsbD_eq
    intro i hi
    have hout : ∀ j, 32 ≤ j → x.getLsbD j = false := fun j hj => BitVec.getLsbD_of_ge x j hj
    simp only [BitVec.getLsbD_or, BitVec.getLsbD_shiftLeft, BitVec.getLsbD_ushiftRight]
    cases i with
    | zero =>
      have h1 : x.getLsbD (32 - n + 31) = false := hout _ (by omega)
      simp [h1, show n ≤ 31 by omega]
    | succ i =>
      have h1 : x.getLsbD (32 - n + (31 + (i + 1))) = false := hout _ (by omega)
      have h2 : 32 - n + i = 31 - n + (i + 1) := by omega
      by_cases hn : i < n <;> simp [h1, h2, hn, hi, show i < 32 by omega, show ¬31 + (i + 1) < 32 by omega]

theorem byte_eq {w : Nat} (v : BitVec w) (s : Nat) (hw : 8 < w) :
    ((v >>> s) &&& 0xff).setWidth 8 = BitVec.ofNat 8 (v.toNat / 2 ^ s) := by
  apply BitVec.eq_of_toNat_eq
  have hff : (0xff : BitVec w).toNat = 2 ^ 8 - 1 := by
    have : 2 ^ 8 < 2 ^ w := Nat.pow_lt_pow_right (by decide) hw
    exact Nat.mod_eq_of_lt (show 255 < 2 ^ w by omega)
  rw [BitVec.toNat_setWidth, BitVec.toNat_and, hff, Nat.and_two_pow_sub_one_eq_mod, BitVec.toNat_ushiftRight,
    Nat.shiftRight_eq_div_pow, BitVec.toNat_ofNat, Nat.mod_mod]

theorem writeBe_eq (p : List Byte) (a : Nat) (v : U32) :
    writeBe p a v = Loop.forRange 0 4 (fun i p => p.set (a + i) (BitVec.ofNat 8 (v.toNat / 2 ^ (24 - 8 * i)))) p := by
  simp only [writeBe, byte_eq v _ (by decide : 8 < 32)]

/-- A number written behind a prefix. -/
theorem writeBe64_append (p : List Byte) (v : U64) :
    writeBe64 (p ++ List.replicate 8 0) p.length v = p ++ BitString.beBytes 8 v.toNat := by
  simp only [writeBe64, byte_eq v _ (by decide : 8 < 64)]
  simp [Loop.forRange, List.range', List.replicate, List.set_append_right, List.set, BitString.beBytes]

theorem writeDigest_eq {st : Sha1State} {h : Sha1.Hash} (hst : st.h = [h.a, h.b, h.c, h.d, h.e]) :
    BitString.ofBytes (writeDigest st) = h.bits := by
  have hd : writeDigest st = BitString.beBytes 4 h.a.toNat ++ BitString.beBytes 4 h.b.toNat ++
      BitString.beBytes 4 h.c.toNat ++ BitString.beBytes 4 h.d.toNat ++ BitString.beBytes 4 h.e.toNat := by
    simp only [writeDigest, writeBe_eq, hst]
    simp [Loop.forRange, List.range', List.replicate, List.set, BitString.beBytes]
  rw [hd]
  simp only [BitString.ofBytes_append, BitString.ofBytes_beBytes]
  rfl

theorem f_eq {t : Nat} (h : t < 80) (x y z : U32) : f t x y z = .ok (Sha1.f t x y z) := by
  unfold f Sha1.f
  split_ifs <;> first | rfl | omega

theorem prepareConstantsK_eq {K : List U32} (h : K.length = 80) {t : Nat} (ht : t < 80) :
    (prepareConstantsK K).getD t 0 = Sha1.k t := by
  have he : ∀ i : Nat, i = 0 + i := fun i => (Nat.zero_add i).symm
  obtain ⟨l₁, h₁⟩ := @forRange_set U32 0 0 20 _ (fun _ => 0x5a827999) K 0 he (by omega) (by omega)
  obtain ⟨l₂, h₂⟩ := @forRange_set U32 0 20 40 _ (fun _ => 0x6ed9eba1) _ 0 he (by omega) (by rw [l₁]; omega)
  obtain ⟨l₃, h₃⟩ := @forRange_set U32 0 40 60 _ (fun _ => 0x8f1bbcdc) _ 0 he (by omega) (by rw [l₂, l₁]; omega)
  obtain ⟨-, h₄⟩ := @forRange_set U32 0 60 80 _ (fun _ => 0xca62c1d6) _ 0 he (by omega) (by rw [l₃, l₂, l₁]; omega)
  rw [prepareConstantsK, h₄, h₃, h₂, h₁, Sha1.k]
  split_ifs <;> first | rfl | omega

theorem readBe_eq {p : List Byte} {i t : Nat} (h : 64 * i + 4 * t + 3 < p.length) :
    readBe p (64 * i + 4 * t) = Sha1.word (BitString.ofBytes p) i t := by
  rw [Sha1.word_ofBytes h, readBe]
  have hb : ∀ (b : Byte) (s : Nat), s ≤ 24 → (b.setWidth 32 <<< s).toNat = b.toNat * 2 ^ s := by
    intro b s hs
    have hp : 2 ^ s ≤ 2 ^ 24 := Nat.pow_le_pow_right (by decide) hs
    have hlt : b.toNat * 2 ^ s < 2 ^ 32 :=
      calc b.toNat * 2 ^ s < 2 ^ 8 * 2 ^ s := Nat.mul_lt_mul_of_pos_right b.isLt (Nat.two_pow_pos s)
        _ ≤ 2 ^ 8 * 2 ^ 24 := Nat.mul_le_mul_left _ hp
    have hb32 : b.toNat % 2 ^ 32 = b.toNat := Nat.mod_eq_of_lt (by omega)
    rw [BitVec.toNat_shiftLeft, BitVec.toNat_setWidth, hb32, Nat.shiftLeft_eq, Nat.mod_eq_of_lt hlt]
  apply BitVec.eq_of_toNat_eq
  simp only [List.getD_eq_getElem?_getD, List.getElem?_eq_getElem (by omega : 64 * i + 4 * t + 3 < p.length),
    List.getElem?_eq_getElem (by omega : 64 * i + 4 * t + 2 < p.length),
    List.getElem?_eq_getElem (by omega : 64 * i + 4 * t + 1 < p.length),
    List.getElem?_eq_getElem (by omega : 64 * i + 4 * t < p.length), Option.getD_some, BitVec.toNat_add,
    BitVec.toNat_ofNat, hb _ _ (Nat.le_refl 24), hb _ 16 (by omega), hb _ 8 (by omega), BitVec.toNat_setWidth]
  omega

theorem prepareMessageScheduleW_eq {message : List Byte} {W : List U32} {i : U32} (hW : W.length = 80)
    (hi : 64 * (i.toNat + 1) ≤ message.length) (h32 : 64 * i.toNat < 2 ^ 32) :
    (prepareMessageScheduleW message W i).length = 80 ∧ ∀ t < 80,
      (prepareMessageScheduleW message W i).getD t 0 =
        Sha1.schedule (Sha1.word (BitString.ofBytes message) i.toNat) t := by
  have hoff : (i * 64).toNat = 64 * i.toNat := by
    rw [BitVec.toNat_mul, Nat.mul_comm]
    exact Nat.mod_eq_of_lt h32
  rw [prepareMessageScheduleW]
  obtain ⟨l₁, h₁⟩ := @forRange_set U32 0 0 16 _ (fun t => readBe message ((i * 64).toNat + 4 * t)) W 0
    (fun i => (Nat.zero_add i).symm) (by omega) (by omega)
  generalize Loop.forRange 0 16 _ W = W₁ at l₁ h₁
  refine @Loop.forRange_inv _ (fun n W => W.length = 80 ∧ ∀ t < n,
      W.getD t 0 = Sha1.schedule (Sha1.word (BitString.ofBytes message) i.toNat) t) 16 80 _ W₁ ?_ (by omega)
    ⟨l₁.trans hW, fun t ht => ?_⟩
  · rintro n V hn hlt ⟨hlen, hV⟩
    refine ⟨by rw [List.length_set, hlen], fun t ht => ?_⟩
    rw [getD_set _ (by omega)]
    by_cases hnt : n = t
    · subst hnt
      rw [if_pos rfl, hV _ (by omega), hV _ (by omega), hV _ (by omega), hV _ (by omega), rotl_eq _ (by decide)]
      conv_rhs => rw [Sha1.schedule, if_neg (by omega)]
    · rw [if_neg hnt]
      exact hV t (by omega)
  · rw [h₁, if_pos (by omega), Sha1.schedule, if_pos ht, hoff, Nat.sub_zero]
    exact readBe_eq (by omega)

/-! ## Rounds and blocks -/

/-- The values of the working variables. -/
def Working.toHash (v : Working) : Sha1.Hash := ⟨v.a, v.b, v.c, v.d, v.e⟩

theorem hashRound_eq {st : Sha1State} {w : Nat → U32} {t : Nat} (ht : t < 80) (hK : st.K.getD t 0 = Sha1.k t)
    (hW : st.W.getD t 0 = w t) (v : Working) :
    ∃ v', hashRound st t v = .ok v' ∧ v'.toHash = Sha1.round w t v.toHash := by
  refine ⟨_, by rw [hashRound, f_eq ht]; rfl, ?_⟩
  simp only [Working.toHash, Sha1.round, hK, hW, rotl_eq _ (by decide : 5 < 32), rotl_eq _ (by decide : 30 < 32)]

/-- The 80 rounds of a block. -/
theorem hashRounds_eq {st : Sha1State} {w : Nat → U32} (hK : ∀ t < 80, st.K.getD t 0 = Sha1.k t)
    (hW : ∀ t < 80, st.W.getD t 0 = w t) (v : Working) :
    ∃ v', Loop.forRangeM 0 80 (hashRound st) v = .ok v' ∧ v'.toHash = Sha1.rounds w v.toHash 80 := by
  refine @Loop.forRangeM_total _ _ (fun t v' => v'.toHash = Sha1.rounds w v.toHash t) 80 _ 0 v ?_ (by omega) rfl
  intro t s _ ht hs
  obtain ⟨s', hs', hr⟩ := hashRound_eq ht (hK t ht) (hW t ht) s
  exact ⟨s', hs', by rw [hr, hs]; rfl⟩

/-- The state of `hash_sha1` between two blocks, with a hash value. -/
structure StateOk (st : Sha1State) (h : Sha1.Hash) : Prop where
  h : st.h = [h.a, h.b, h.c, h.d, h.e]
  W : st.W.length = 80
  K : ∀ t < 80, st.K.getD t 0 = Sha1.k t

theorem hashBlock_ok {message : List Byte} {i : U32} {st : Sha1State} {h : Sha1.Hash} (hst : StateOk st h)
    (hi : 64 * (i.toNat + 1) ≤ message.length) (h32 : 64 * i.toNat < 2 ^ 32) :
    ∃ st', hashBlock message i st = .ok st' ∧
      StateOk st' (Sha1.compress (Sha1.word (BitString.ofBytes message) i.toNat) h) := by
  obtain ⟨hlen, hW⟩ := prepareMessageScheduleW_eq hst.W hi h32
  generalize hw : prepareMessageScheduleW message st.W i = W at hlen hW
  obtain ⟨v, hv, hr⟩ := @hashRounds_eq { st with W := W } _ hst.K hW st.working
  have hh : st.working.toHash = h := by
    simp only [Working.toHash, Sha1State.working, hst.h]
    rfl
  refine ⟨{ st with W := W, h := addH 4 v.e (addH 3 v.d (addH 2 v.c (addH 1 v.b (addH 0 v.a st.h)))) }, ?_, ?_, hlen,
    hst.K⟩
  · simp only [hashBlock, hw]
    rw [show Sha1State.working { st with W := W } = st.working from rfl, hv]
    rfl
  · rw [hh] at hr
    simp only [Sha1.compress, ← hr, hst.h, addH, List.set, List.getD_cons_zero, List.getD_cons_succ, Working.toHash]

/-! ## The message -/

/-- Copying a message to the start of an array of zeroes. -/
theorem set_copy {buf : List Byte} {n b : Nat} (hb : b < buf.length) (hn : buf.length ≤ n) :
    (buf.take b ++ List.replicate (n - b) 0).set b (buf.getD b 0) =
      buf.take (b + 1) ++ List.replicate (n - (b + 1)) 0 := by
  have hlen : (buf.take b).length = b := List.length_take_of_le hb.le
  rw [List.set_append_right _ _ (by omega), hlen, Nat.sub_self, show n - b = n - (b + 1) + 1 by omega,
    List.replicate_succ, List.set_cons_zero, List.take_succ_eq_append_getElem hb, List.append_assoc,
    List.getD_eq_getElem _ _ hb]
  rfl

/-- The number of blocks in bits. -/
theorem toNat_newL {n : Nat} (h : n < 2 ^ 32) :
    (BitVec.ofNat 64 n * 8).toNat = 8 * n ∧
      (alignUp (BitVec.ofNat 64 n * 8 + 64 + 1) 9).toNat = 512 * ((n + 72) / 64) := by
  have hl : (BitVec.ofNat 64 n * 8).toNat = 8 * n := by
    rw [BitVec.toNat_mul, BitVec.toNat_ofNat]
    simp only [BitVec.reduceToNat]
    omega
  have h65 : (BitVec.ofNat 64 n * 8 + 64 + 1).toNat = 8 * n + 65 := by
    rw [BitVec.toNat_add, BitVec.toNat_add, hl]
    simp only [BitVec.reduceToNat]
    omega
  refine ⟨hl, ?_⟩
  rw [toNat_alignUp _ (by decide) (by omega), h65]
  omega

/-- The zeroes behind the one are there already. -/
theorem set_zero {pre : List Byte} {n b : Nat} (hb : pre.length ≤ b) :
    (pre ++ List.replicate n 0).set b 0 = pre ++ List.replicate n 0 := by
  rw [List.set_append_right _ _ hb, List.set_replicate_self]

/-- The padded message and the number of its blocks. -/
theorem preprocess_ok {buf : List Byte} (h : buf.length < 2 ^ 32 - 8) :
    ∃ N, preprocess buf = .ok (N, Sha1.padBytes buf) ∧ N.toNat = (buf.length + 72) / 64 := by
  obtain ⟨hl, hnewL⟩ := toNat_newL (show buf.length < 2 ^ 32 by omega)
  have hsize : (BitVec.ofNat 64 buf.length).toNat = buf.length := Nat.mod_eq_of_lt (by omega)
  simp only [preprocess]
  generalize BitVec.ofNat 64 buf.length = bufsize at *
  generalize alignUp (bufsize * 8 + 64 + 1) 9 = newL at *
  obtain ⟨k, hk⟩ : ∃ k, (buf.length + 72) / 64 = k := ⟨_, rfl⟩
  rw [hk] at hnewL ⊢
  have hnewSize : (newL >>> 3).toNat = 64 * k := by
    rw [BitVec.toNat_ushiftRight, hnewL, Nat.shiftRight_eq_div_pow]
    omega
  have hend : (newL >>> 3 - 8).toNat = 64 * k - 8 := by
    rw [BitVec.toNat_sub, hnewSize]
    simp only [BitVec.reduceToNat]
    omega
  refine ⟨newL >>> 9, ?_, by
    rw [BitVec.toNat_ushiftRight, hnewL, Nat.shiftRight_eq_div_pow]
    omega⟩
  -- the copy
  obtain ⟨b, m₁, hrun₁, hb, hm₁⟩ := @forUnsigned_total _
    (fun b newBuf => newBuf = buf.take b ++ List.replicate (64 * k - b) 0) bufsize
    (fun b newBuf => .ok (newBuf.set b.toNat (buf.getD b.toNat 0))) 0 (List.replicate (64 * k) 0) (by omega)
    (Nat.zero_le _)
    (by
      rintro t s - ht rfl
      exact ⟨_, rfl, set_copy (by omega) (by omega)⟩) (by simp)
  -- the one
  have hm₂ : m₁.set b.toNat 0x80 = buf ++ [0x80] ++ List.replicate (64 * k - buf.length - 1) 0 := by
    rw [hm₁, hb, hsize, List.take_length, List.set_append_right _ _ (Nat.le_refl _), Nat.sub_self,
      show 64 * k - buf.length = 64 * k - buf.length - 1 + 1 by omega, List.replicate_succ, List.set_cons_zero,
      Nat.add_sub_cancel, List.append_assoc]
    rfl
  have hb₁ : (b + 1).toNat = buf.length + 1 := by
    rw [BitVec.toNat_add, hb, hsize]
    simp only [BitVec.reduceToNat]
    omega
  obtain ⟨b', m₃, hrun₃, hb', hm₃⟩ := @forUnsigned_total _ (fun _ newBuf => newBuf = m₁.set b.toNat 0x80)
    (newL >>> 3 - 8) (fun b newBuf => .ok (newBuf.set b.toNat 0)) (b + 1) (m₁.set b.toNat 0x80) (by omega) (by omega)
    (by
      rintro t s ht - rfl
      refine ⟨_, rfl, ?_⟩
      rw [hm₂]
      exact set_zero (by simp; omega)) rfl
  have hsplit : List.replicate (64 * k - buf.length - 1) (0 : Byte) =
      List.replicate ((119 - buf.length % 64) % 64) 0 ++ List.replicate 8 0 := by
    rw [List.replicate_append_replicate]
    congr 1
    omega
  simp only [hnewSize, hrun₁, hrun₃, bind, Except.bind]
  rw [hm₃, hm₂, hsplit, ← List.append_assoc, hb', hend]
  have hlen : 64 * k - 8 = (buf ++ [0x80] ++ List.replicate ((119 - buf.length % 64) % 64) (0 : Byte)).length := by
    simp only [List.length_append, List.length_replicate, List.length_cons, List.length_nil]
    omega
  rw [hlen, writeBe64_append, hl, Sha1.padBytes, List.append_assoc buf]
  rfl

theorem initial_ok :
    StateOk { prepareInitialState with K := prepareConstantsK prepareInitialState.K } Sha1.initial where
  h := by simp [prepareInitialState, Loop.forRange, List.range', initialStateH, List.replicate, Sha1.initial]
  W := List.length_replicate ..
  K _ ht := by
    dsimp only
    exact prepareConstantsK_eq (List.length_replicate ..) ht

/-- The digest, as long as the counters reach their bounds. -/
theorem hashSha1_ok {buf : List Byte} (h : buf.length < 2 ^ 32 - 8) :
    ∃ d, hashSha1 buf = .ok d ∧ BitString.ofBytes d = Sha1.sha1 (BitString.ofBytes buf) := by
  obtain ⟨N, hpre, hN⟩ := preprocess_ok h
  have hlen := Sha1.length_padBytes buf
  generalize hm : Sha1.padBytes buf = message at hpre hlen
  obtain ⟨j, st, hrun, -, hst⟩ := @forUnsigned_total _
    (fun i st => StateOk st (Sha1.hashBlocks (BitString.ofBytes message) i)) N
    (hashBlock message) 0 _ (by omega) (Nat.zero_le _)
    (fun i st _ hi hst => hashBlock_ok hst (by omega) (by omega)) initial_ok
  refine ⟨writeDigest st, ?_, ?_⟩
  · rw [hashSha1, hpre]
    simp only [bind, Except.bind]
    rw [hrun]
  · rw [writeDigest_eq hst.h, Sha1.sha1, Sha1.pad_ofBytes, hm, BitString.length_ofBytes, hN]
    congr 2
    omega

/-- **`hash_sha1` is SHA-1.** -/
theorem hashSha1_correct {buf : List Byte} (h : buf.length < 2 ^ 32 - 128) :
    ∃ d, hashSha1 buf = .ok d ∧ BitString.ofBytes d = Sha1.sha1 (BitString.ofBytes buf) :=
  hashSha1_ok (by omega)

/-- A longer string has no digest: the counter of a loop of `preprocess` does not reach the bound. -/
theorem preprocess_diverges {buf : List Byte} (h : 2 ^ 32 - 8 ≤ buf.length) (hlt : buf.length < 2 ^ 64) :
    preprocess buf = .error .diverges := by
  have hsize : (BitVec.ofNat 64 buf.length).toNat = buf.length := Nat.mod_eq_of_lt hlt
  by_cases hcopy : buf.length < 2 ^ 32
  · obtain ⟨-, hnewL⟩ := toNat_newL hcopy
    have hend : (alignUp (BitVec.ofNat 64 buf.length * 8 + 64 + 1) 9 >>> 3 - 8).toNat = 2 ^ 32 + 56 := by
      rw [BitVec.toNat_sub, BitVec.toNat_ushiftRight, hnewL, Nat.shiftRight_eq_div_pow]
      simp only [BitVec.reduceToNat]
      omega
    obtain ⟨b, m, hrun, -, -⟩ := @forUnsigned_total (List Byte) (fun _ _ => True) (BitVec.ofNat 64 buf.length)
      (fun b newBuf => .ok (newBuf.set b.toNat (buf.getD b.toNat 0))) 0
      (List.replicate (alignUp (BitVec.ofNat 64 buf.length * 8 + 64 + 1) 9 >>> 3).toNat 0) (by omega) (Nat.zero_le _)
      (fun _ _ _ _ _ => ⟨_, rfl, trivial⟩) trivial
    simp only [preprocess, hrun, bind, Except.bind]
    rw [forUnsigned_diverges (by omega) fun _ _ => ⟨_, rfl⟩]
  · simp only [preprocess]
    rw [forUnsigned_diverges (by omega) fun _ _ => ⟨_, rfl⟩]
    rfl

/-- **`hash_sha1` returns** for the strings that leave room for 8 bytes below 2^32. -/
theorem hashSha1_returns_iff {buf : List Byte} (hlt : buf.length < 2 ^ 64) :
    (∃ d, hashSha1 buf = .ok d) ↔ buf.length < 2 ^ 32 - 8 := by
  refine ⟨fun ⟨d, hd⟩ => ?_, fun h => (hashSha1_ok h).imp fun _ hd => hd.1⟩
  by_contra hge
  rw [hashSha1, preprocess_diverges (Nat.not_lt.1 hge) hlt] at hd
  cases hd

/-- The digest of `abc`, as in the test of the source. -/
theorem hashSha1_abc : ∃ d, hashSha1 [0x61, 0x62, 0x63] = .ok d ∧
    d = [0xa9, 0x99, 0x3e, 0x36, 0x47, 0x06, 0x81, 0x6a, 0xba, 0x3e, 0x25, 0x71, 0x78, 0x50, 0xc2, 0x6c, 0x9c, 0xd0, 0xd8,
      0x9d] ∧ BitString.ofBytes d = Sha1.sha1 (BitString.ofBytes [0x61, 0x62, 0x63]) := by
  obtain ⟨d, hd, hsha⟩ := @hashSha1_correct [0x61, 0x62, 0x63] (by decide)
  have hrun : (hashSha1 [0x61, 0x62, 0x63]).toOption = some [0xa9, 0x99, 0x3e, 0x36, 0x47, 0x06, 0x81, 0x6a, 0xba,
      0x3e, 0x25, 0x71, 0x78, 0x50, 0xc2, 0x6c, 0x9c, 0xd0, 0xd8, 0x9d] := by decide +kernel
  rw [hd] at hrun
  exact ⟨d, hd, Option.some.inj hrun, hsha⟩

end Hashlib

end LitmusHarness
