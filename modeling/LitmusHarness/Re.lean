import Mathlib.Algebra.GroupWithZero.Nat
import LitmusHarness.Lib.Glob
import LitmusHarness.Lib.Loop

/-!
# Glob matching: `re.c`

`reStep` is an iteration of the loop of `re_matches`, on a position and a stack of positions to go back to. What it
keeps is whether one of them is accepted (`reStep_accepted`), where `accepted` is what the matcher makes of the rest of
a pattern and the rest of an input; and it always comes nearer to its end (`reStep_weight`).

`accepted` is less than the language of the pattern (`accepted_iff`): two adjacent wildcards accept nothing, as the
`continue` that should skip the first leaves the loop it is in, and a wildcard at the end needs a character, as the end
of the input is looked at first.
-/

namespace LitmusHarness

/-! ## The functions of the source -/

/-- `re_tok_t`. -/
structure ReTok where
  isChar : Bool
  accepts : UInt8
  deriving DecidableEq, Repr

/-- `'*'` and `'?'`. -/
def isWild (c : UInt8) : Bool := c = 42 || c = 63

/-- `_tokenize`. -/
def tokenize (c : UInt8) : ReTok :=
  if isWild c then { accepts := 0, isChar := false } else { accepts := c, isChar := true }

/-- `re_compile`: the states from `start` on, along `next`. The end of the list is `NULL`. -/
def reCompile (s : List UInt8) : List ReTok := s.map tokenize

/-- `re_ctx_pos_t`. -/
structure RePos where
  idx : Nat
  current : List ReTok
  deriving DecidableEq, Repr

/-- `re_ctx_backtrack_t`. -/
structure ReBacktrack where
  ctxPos : RePos
  validToIdx : Nat
  deriving DecidableEq, Repr

/-- The variables of `re_matches`. The top of the stack comes first. -/
structure ReState where
  pos : RePos
  stack : List ReBacktrack := []
  deriving DecidableEq, Repr

/-- How `re_matches` ends: it returns, or it writes past the end of `backtrack_stack`. -/
inductive ReOutcome
  | returned (b : Bool)
  | overflow
  deriving DecidableEq, Repr

section Matcher

variable (input : List UInt8)

/-- `_at_end_of_stream`. -/
def atEndOfStream (pos : RePos) : Bool := pos.idx = input.length

/-- `_no_more_regex`. -/
def noMoreRegex (pos : RePos) : Bool := pos.current.isEmpty

/-- `_would_accept_char`. -/
def wouldAcceptChar (tok : ReTok) (idx : Nat) : Bool := tok.isChar && tok.accepts = input.getD idx 0

/-- The loop of `_chomp_wildcard` that eats the stream, with `n` characters left. -/
def eatStream (tok : ReTok) : Nat → Nat → Nat
  | 0, validUpTo => validUpTo
  | n + 1, validUpTo => if wouldAcceptChar input tok validUpTo then validUpTo else eatStream tok n (validUpTo + 1)

/-- `_chomp_wildcard`. A wildcard that follows is not eaten: it is the token that is looked for. -/
def chompWildcard (s : ReState) : ReState ⊕ ReOutcome :=
  match s.pos.current.tail with
  | [] => .inl { s with pos := ⟨input.length, []⟩ }
  | nextTok :: rest =>
    let validUpTo := eatStream input nextTok (input.length - s.pos.idx) s.pos.idx
    if validUpTo = input.length then .inl { s with pos := ⟨validUpTo, nextTok :: rest⟩ }
    else if s.stack.length < 100 then
      .inl { pos := ⟨validUpTo, nextTok :: rest⟩, stack := ⟨s.pos, validUpTo + 1⟩ :: s.stack }
    else .inr .overflow

/-- `_backtrack`, or the return when there is nothing to go back to. -/
def backtrack (s : ReState) : ReState ⊕ ReOutcome :=
  match s.stack with
  | bt :: stack => .inl { pos := { bt.ctxPos with idx := bt.validToIdx }, stack := stack }
  | [] => .inr (.returned false)

/-- One iteration of the loop of `re_matches`. -/
def reStep (s : ReState) : ReState ⊕ ReOutcome :=
  if atEndOfStream input s.pos || noMoreRegex s.pos then
    if atEndOfStream input s.pos && noMoreRegex s.pos then .inr (.returned true) else backtrack s
  else
    match s.pos.current with
    | [] => .inr (.returned false) -- not reached
    | tok :: next =>
      if wouldAcceptChar input tok s.pos.idx then .inl { s with pos := ⟨s.pos.idx + 1, next⟩ }
      else if !tok.isChar then chompWildcard input s
      else backtrack s

/-- `re_matches`, for at most `fuel` iterations. -/
def reMatches (fuel : Nat) (re : List ReTok) : Option ReOutcome :=
  Loop.untilReturn (reStep input) fuel { pos := ⟨0, re⟩ }

end Matcher

/-! ## What the matcher accepts -/

/-- What the matcher makes of the rest of a pattern and the rest of an input. -/
def accepted : List ReTok → List UInt8 → Bool
  | [], t => t.isEmpty
  | _ :: _, [] => false
  | tok :: q, x :: t =>
    if tok.isChar then tok.accepts = x && accepted q t
    else
      match q with
      | [] => true
      | tok' :: q' => tok'.isChar && tok'.accepts = x && accepted q' t || accepted (tok :: q) t

section Accepted

variable {input : List UInt8} {tok tok' : ReTok} {q : List ReTok} {t : List UInt8}

theorem accepted_char (h : tok.isChar = true) :
    accepted (tok :: q) t = true ↔ ∃ t', t = tok.accepts :: t' ∧ accepted q t' = true := by
  cases t with
  | nil => simp [accepted]
  | cons x t =>
    simp only [accepted, h, if_true, Bool.and_eq_true, decide_eq_true_eq, List.cons.injEq]
    constructor
    · rintro ⟨rfl, h⟩
      exact ⟨t, ⟨rfl, rfl⟩, h⟩
    · rintro ⟨t', ⟨rfl, rfl⟩, h⟩
      exact ⟨rfl, h⟩

theorem accepted_last (h : tok.isChar = false) : accepted [tok] t = true ↔ t ≠ [] := by
  cases t <;> simp [accepted, h]

/-- A wildcard stands for what comes before the next character of the pattern. -/
theorem accepted_wild (h : tok.isChar = false) {t : List UInt8} : accepted (tok :: tok' :: q) t = true ↔
    tok'.isChar = true ∧ ∃ u v, t = u ++ v ∧ accepted (tok' :: q) v = true := by
  induction t with
  | nil => simp [accepted]
  | cons x t ih =>
    simp only [accepted, h, Bool.false_eq_true, if_false, Bool.or_eq_true]
    rw [ih]
    constructor
    · rintro (hx | ⟨hc, u, v, rfl, hv⟩)
      · simp only [Bool.and_eq_true, decide_eq_true_eq] at hx
        exact ⟨hx.1.1, [], x :: t, rfl, (accepted_char hx.1.1).mpr ⟨t, by rw [hx.1.2], hx.2⟩⟩
      · exact ⟨hc, x :: u, v, rfl, hv⟩
    · rintro ⟨hc, u, v, huv, hv⟩
      cases u with
      | nil =>
        obtain rfl : x :: t = v := huv
        obtain ⟨t', ht, hq⟩ := (accepted_char hc).mp hv
        cases ht
        simp [hc, hq]
      | cons y u =>
        cases huv
        exact .inr ⟨hc, u, v, rfl, hv⟩

/-- What reads a pattern from the left as the matcher does: a character is read, and a wildcard stands for what comes
before the next one. -/
structure Reads (A : List ReTok → List UInt8 → Prop) : Prop where
  char {tok : ReTok} {q : List ReTok} {t : List UInt8} :
    tok.isChar = true → (A (tok :: q) t ↔ ∃ t', t = tok.accepts :: t' ∧ A q t')
  wild {tok tok' : ReTok} {q : List ReTok} {t : List UInt8} :
    tok.isChar = false → (A (tok :: tok' :: q) t ↔ tok'.isChar = true ∧ ∃ u v, t = u ++ v ∧ A (tok' :: q) v)

theorem accepted_reads : Reads fun q t => accepted q t = true := ⟨accepted_char, fun h => accepted_wild h⟩

section Reads

variable {A : List ReTok → List UInt8 → Prop}

/-- The character at the head of what is left. -/
theorem Reads.wouldAcceptChar (hA : Reads A) {j : Nat} (hc : tok.isChar = true) (h : A (tok :: q) (input.drop j)) :
    wouldAcceptChar input tok j = true ∧ j < input.length ∧ A q (input.drop (j + 1)) := by
  obtain ⟨t, ht, hq⟩ := (hA.char hc).mp h
  have hj : j < input.length := by
    by_contra hge
    rw [List.drop_eq_nil_of_le (by omega)] at ht
    cases ht
  rw [List.drop_eq_getElem_cons hj] at ht
  obtain ⟨hx, rfl⟩ := List.cons.inj ht
  exact ⟨by simp [LitmusHarness.wouldAcceptChar, hc, List.getD_eq_getElem?_getD, hj, hx], hj, hq⟩

theorem Reads.of_wouldAcceptChar (hA : Reads A) {j : Nat} (hj : j < input.length)
    (h : LitmusHarness.wouldAcceptChar input tok j = true) :
    A (tok :: q) (input.drop j) ↔ A q (input.drop (j + 1)) := by
  simp only [LitmusHarness.wouldAcceptChar, Bool.and_eq_true, decide_eq_true_eq, List.getD_eq_getElem?_getD,
    List.getElem?_eq_getElem hj, Option.getD_some] at h
  rw [List.drop_eq_getElem_cons hj, hA.char h.1, h.2]
  constructor
  · rintro ⟨t', ht', hq⟩
    cases ht'
    exact hq
  · exact fun hq => ⟨_, rfl, hq⟩

/-- The stream is eaten up to the first character that is accepted. -/
theorem eatStream_spec (n v : Nat) (h : v + n = input.length) :
    v ≤ eatStream input tok n v ∧ eatStream input tok n v ≤ input.length ∧
      (eatStream input tok n v < input.length → wouldAcceptChar input tok (eatStream input tok n v) = true) ∧
      ∀ i, v ≤ i → i < eatStream input tok n v → wouldAcceptChar input tok i = false := by
  induction n generalizing v with
  | zero =>
    simp only [eatStream]
    exact ⟨le_refl _, by omega, fun hlt => by omega, fun i h1 h2 => by omega⟩
  | succ n ih =>
    rw [eatStream]
    split
    · next hacc => exact ⟨le_refl _, by omega, fun _ => hacc, fun i h1 h2 => by omega⟩
    · next hacc =>
      obtain ⟨h1, h2, h3, h4⟩ := ih (v + 1) (by omega)
      refine ⟨by omega, h2, h3, fun i hi hlt => ?_⟩
      by_cases hiv : i = v
      · rw [hiv]
        exact Bool.eq_false_iff.mpr hacc
      · exact h4 i (by omega) hlt

/-- What the wildcard can stand for, by the place where it ends. -/
theorem Reads.wild_drop (hA : Reads A) (h : tok.isChar = false) {i : Nat} : A (tok :: tok' :: q) (input.drop i) ↔
    tok'.isChar = true ∧ ∃ j, i ≤ j ∧ A (tok' :: q) (input.drop j) := by
  rw [hA.wild h]
  refine and_congr_right fun _ => ?_
  constructor
  · rintro ⟨u, v, huv, hv⟩
    refine ⟨i + u.length, by omega, ?_⟩
    rw [← List.drop_drop, huv, List.drop_left]
    exact hv
  · rintro ⟨j, hij, hj⟩
    refine ⟨(input.drop i).take (j - i), input.drop j, ?_, hj⟩
    have hd : input.drop j = (input.drop i).drop (j - i) := by rw [List.drop_drop, Nat.add_sub_cancel' hij]
    rw [hd, List.take_append_drop]

/-- The wildcard ends at the first accepted character, or later. -/
theorem Reads.eatStream (hA : Reads A) (h : tok.isChar = false) {i r : Nat} (hi : i ≤ input.length)
    (hr : eatStream input tok' (input.length - i) i = r) :
    A (tok :: tok' :: q) (input.drop i) ↔
      r < input.length ∧ (A (tok' :: q) (input.drop r) ∨ A (tok :: tok' :: q) (input.drop (r + 1))) := by
  obtain ⟨h1, h2, h3, h4⟩ := @eatStream_spec input tok' (input.length - i) i (by omega)
  rw [hr] at h1 h2 h3 h4
  rw [hA.wild_drop h, hA.wild_drop h]
  constructor
  · rintro ⟨hc, j, hij, hj⟩
    obtain ⟨hw, hlt, -⟩ := hA.wouldAcceptChar hc hj
    have hrj : r ≤ j := by
      by_contra hlt'
      rw [h4 j hij (by omega)] at hw
      cases hw
    refine ⟨by omega, ?_⟩
    by_cases he : j = r
    · exact .inl (he ▸ hj)
    · exact .inr ⟨hc, j, by omega, hj⟩
  · rintro ⟨hlt, hj | ⟨hc, j, hrj, hj⟩⟩
    · have hc : tok'.isChar = true := by
        have := h3 hlt
        simp only [LitmusHarness.wouldAcceptChar, Bool.and_eq_true] at this
        exact this.1
      exact ⟨hc, r, h1, hj⟩
    · exact ⟨hc, j, by omega, hj⟩

end Reads

end Accepted

/-! ## The loop -/

section Loop

variable {input : List UInt8} {s s' : ReState}

/-- Somewhere the rest of the input is accepted. -/
def ReState.Accepted (input : List UInt8) (s : ReState) : Prop :=
  accepted s.pos.current (input.drop s.pos.idx) = true ∨
    ∃ bt ∈ s.stack, accepted bt.ctxPos.current (input.drop bt.validToIdx) = true

/-- The indices are in the input. -/
structure ReState.Ok (input : List UInt8) (s : ReState) : Prop where
  idx : s.pos.idx ≤ input.length
  stack : ∀ bt ∈ s.stack, bt.validToIdx ≤ input.length

/-- A bound on what a position has still to do. -/
def weight (input : List UInt8) (q : List ReTok) (idx : Nat) : Nat := 3 ^ (q.length + (input.length - idx))

def ReState.weight (input : List UInt8) (s : ReState) : Nat :=
  LitmusHarness.weight input s.pos.current s.pos.idx +
    (s.stack.map fun bt => LitmusHarness.weight input bt.ctxPos.current bt.validToIdx).sum

/-- Going back from a position that is not accepted. -/
theorem backtrack_ok (hs : s.Ok input) (hno : accepted s.pos.current (input.drop s.pos.idx) = false) :
    match backtrack s with
    | .inl s' => s'.Ok input ∧ (s'.Accepted input ↔ s.Accepted input) ∧ s'.weight input < s.weight input
    | .inr r => r = .returned false ∧ ¬s.Accepted input := by
  unfold backtrack
  cases hst : s.stack with
  | nil => exact ⟨rfl, by simp [ReState.Accepted, hno, hst]⟩
  | cons bt stack =>
    refine ⟨⟨hs.stack bt (by simp [hst]), fun b hb => hs.stack b (by simp [hst, hb])⟩, ?_, ?_⟩
    · simp [ReState.Accepted, hno, hst]
    · simp only [ReState.weight, hst, List.map_cons, List.sum_cons]
      have : 0 < LitmusHarness.weight input s.pos.current s.pos.idx := Nat.pow_pos (by decide)
      omega

/-- A wildcard that is chomped. -/
theorem chompWildcard_ok (hs : s.Ok input) {tok : ReTok} {next : List ReTok} (hcur : s.pos.current = tok :: next)
    (hc : tok.isChar = false) (hlt : s.pos.idx < input.length) :
    match chompWildcard input s with
    | .inl s' => s'.Ok input ∧ (s'.Accepted input ↔ s.Accepted input) ∧ s'.weight input < s.weight input
    | .inr r => r = .overflow := by
  unfold chompWildcard
  rw [hcur, List.tail_cons]
  cases next with
  | nil =>
    dsimp only
    refine ⟨⟨le_refl _, hs.stack⟩, ?_, ?_⟩
    · have h1 : accepted [tok] (input.drop s.pos.idx) = true := by
        rw [accepted_last hc]
        simpa using hlt
      simp [ReState.Accepted, hcur, h1, accepted]
    · simp only [ReState.weight, weight, hcur, List.length_nil, Nat.sub_self, List.length_singleton]
      have : 3 ^ (0 + 0) < 3 ^ (1 + (input.length - s.pos.idx)) := Nat.pow_lt_pow_right (by decide) (by omega)
      omega
  | cons tok' rest =>
    dsimp only
    have hle := hs.idx
    obtain ⟨r, hr⟩ : ∃ r, eatStream input tok' (input.length - s.pos.idx) s.pos.idx = r := ⟨_, rfl⟩
    obtain ⟨h1, h2, h3, h4⟩ := @eatStream_spec input tok' (input.length - s.pos.idx) s.pos.idx (by omega)
    have hacc := @Reads.eatStream input tok tok' rest _ accepted_reads hc s.pos.idx r hle hr
    rw [hr] at h1 h2 h3 h4 ⊢
    by_cases he : r = input.length
    · rw [if_pos he]
      refine ⟨⟨h2, hs.stack⟩, ?_, ?_⟩
      · have hend : accepted (tok' :: rest) (input.drop r) = false := by
          rw [he, List.drop_length]
          rfl
        have hno : ¬accepted (tok :: tok' :: rest) (input.drop s.pos.idx) = true := fun h => by
          have := (hacc.mp h).1
          omega
        simp [ReState.Accepted, hcur, hend, hno]
      · simp only [ReState.weight, LitmusHarness.weight, hcur, List.length_cons, he, Nat.sub_self]
        have : 3 ^ (rest.length + 1 + 0) < 3 ^ (rest.length + 1 + 1 + (input.length - s.pos.idx)) :=
          Nat.pow_lt_pow_right (by decide) (by omega)
        omega
    · rw [if_neg he]
      split
      · next s' heq =>
        split at heq
        · cases heq
          have hlt' : r < input.length := by omega
          refine ⟨⟨h2, ?_⟩, ?_, ?_⟩
          · simp only [List.mem_cons, forall_eq_or_imp]
            exact ⟨hlt', hs.stack⟩
          · simp only [ReState.Accepted, List.mem_cons, exists_eq_or_imp, hcur, hacc, hlt', true_and, or_assoc]
          · simp only [ReState.weight, LitmusHarness.weight, hcur, List.length_cons, List.map_cons, List.sum_cons]
            -- the two positions to go on from, against the one they come from
            have h2X : rest.length + 1 + 1 + (input.length - (r + 1)) = rest.length + 1 + (input.length - r) := by omega
            have h3X : 3 ^ (rest.length + 1 + (input.length - r) + 1) ≤
                3 ^ (rest.length + 1 + 1 + (input.length - s.pos.idx)) := Nat.pow_le_pow_right (by decide) (by omega)
            have hpos : 0 < 3 ^ (rest.length + 1 + (input.length - r)) := Nat.pow_pos (by decide)
            rw [Nat.pow_succ] at h3X
            rw [h2X]
            omega
        · cases heq
      · next o heq =>
        split at heq
        · cases heq
        · cases heq
          rfl

/-- **An iteration** keeps whether the input is accepted, and comes nearer to the end. -/
theorem reStep_ok (hs : s.Ok input) :
    match reStep input s with
    | .inl s' => s'.Ok input ∧ (s'.Accepted input ↔ s.Accepted input) ∧ s'.weight input < s.weight input
    | .inr (.returned b) => b = true ↔ s.Accepted input
    | .inr .overflow => True := by
  have hback : accepted s.pos.current (input.drop s.pos.idx) = false →
      match backtrack s with
      | .inl s' => s'.Ok input ∧ (s'.Accepted input ↔ s.Accepted input) ∧ s'.weight input < s.weight input
      | .inr (.returned b) => b = true ↔ s.Accepted input
      | .inr .overflow => True := by
    intro hno
    have := backtrack_ok hs hno
    cases hb : backtrack s with
    | inl s' => simpa [hb] using this
    | inr r =>
      rw [hb] at this
      obtain ⟨rfl, hna⟩ := this
      simpa using hna
  unfold reStep atEndOfStream noMoreRegex
  cases hcur : s.pos.current with
  | nil =>
    rw [hcur] at hback
    by_cases hend : s.pos.idx = input.length
    · simp [hend, ReState.Accepted, hcur, accepted]
    · have hne : input.drop s.pos.idx ≠ [] := by
        have := hs.idx
        simp only [ne_eq, List.drop_eq_nil_iff]
        omega
      simpa [hend] using hback (by simpa [accepted] using hne)
  | cons tok next =>
    rw [hcur] at hback
    by_cases hend : s.pos.idx = input.length
    · simpa [hend] using hback (by rw [hend, List.drop_length]; rfl)
    · have hlt : s.pos.idx < input.length := by
        have := hs.idx
        omega
      simp only [hend, decide_false, List.isEmpty_cons, Bool.or_self, Bool.false_eq_true, if_false]
      cases hacc : wouldAcceptChar input tok s.pos.idx with
      | true =>
        rw [if_pos rfl]
        refine ⟨⟨hlt, hs.stack⟩, ?_, ?_⟩
        · simp only [ReState.Accepted, hcur, accepted_reads.of_wouldAcceptChar hlt hacc]
        · simp only [ReState.weight, LitmusHarness.weight, hcur, List.length_cons]
          have : 3 ^ (next.length + (input.length - (s.pos.idx + 1))) <
              3 ^ (next.length + 1 + (input.length - s.pos.idx)) := Nat.pow_lt_pow_right (by decide) (by omega)
          omega
      | false =>
        rw [if_neg (by simp)]
        cases hc : tok.isChar with
        | false =>
          rw [if_pos (show (!false) = true from rfl)]
          have := chompWildcard_ok hs hcur hc hlt
          cases hch : chompWildcard input s with
          | inl s' => simpa [hch] using this
          | inr r =>
            rw [hch] at this
            cases this
            trivial
        | true =>
          rw [if_neg (by simp)]
          apply hback
          rw [← Bool.not_eq_true]
          intro h
          rw [(accepted_reads.wouldAcceptChar hc h).1] at hacc
          cases hacc

variable {re : List ReTok}

/-- **The loop ends**, with the answer of `accepted` unless its stack overflows. -/
theorem reMatches_weight (input : List UInt8) (re : List ReTok) :
    reMatches input (weight input re 0 + 1) re = some (.returned (accepted re input)) ∨
      reMatches input (weight input re 0 + 1) re = some .overflow := by
  obtain ⟨s₀, hs₀⟩ : ∃ s₀ : ReState, s₀ = { pos := ⟨0, re⟩ } := ⟨_, rfl⟩
  have hok : s₀.Ok input := by
    rw [hs₀]
    exact ⟨Nat.zero_le _, fun bt hb => by cases hb⟩
  have hstep : ∀ s s', s.Ok input ∧ (s.Accepted input ↔ s₀.Accepted input) → reStep input s = .inl s' →
      (s'.Ok input ∧ (s'.Accepted input ↔ s₀.Accepted input)) ∧ s'.weight input < s.weight input := by
    rintro s s' ⟨hs, hacc⟩ h
    have := reStep_ok hs
    rw [h] at this
    exact ⟨⟨this.1, this.2.1.trans hacc⟩, this.2.2⟩
  obtain ⟨r, hr⟩ := Loop.untilReturn_some hstep _ s₀ ⟨hok, Iff.rfl⟩ (Nat.lt_succ_self _)
  have hret := @Loop.untilReturn_inv _ _ _ _ (fun r => ∀ b, r = .returned b → (b = true ↔ s₀.Accepted input))
    (fun s s' hI hs => (hstep s s' hI hs).1)
    (fun s r hI hs b hb => by
      have := reStep_ok hI.1
      rw [hs, hb] at this
      exact this.trans hI.2) _ _ _ ⟨hok, Iff.rfl⟩ hr
  have hweight : weight input re 0 = s₀.weight input := by
    rw [hs₀]
    exact (Nat.add_zero _).symm
  unfold reMatches
  rw [← hs₀, hweight, hr]
  cases r with
  | overflow => exact .inr rfl
  | returned b =>
    left
    have hb := hret b rfl
    simp only [ReState.Accepted, hs₀, List.drop_zero, List.not_mem_nil, false_and, exists_false, or_false] at hb
    rw [Bool.eq_iff_iff.mpr hb]

theorem reMatches_returns (input : List UInt8) (re : List ReTok) : ∃ fuel,
    reMatches input fuel re = some (.returned (accepted re input)) ∨ reMatches input fuel re = some .overflow :=
  ⟨_, reMatches_weight input re⟩

end Loop

/-! ## The language of the pattern -/

section Language

variable {c : UInt8} {p s : List UInt8}

theorem tokenize_wild (h : isWild c = true) : (tokenize c).isChar = false := by simp [tokenize, h]

theorem tokenize_char (h : isWild c = false) : (tokenize c).isChar = true ∧ (tokenize c).accepts = c := by
  simp [tokenize, h]

/-- **What the matcher accepts**, for the pattern `p`: words of its language, if no two wildcards are adjacent and a
wildcard at the end has something to stand for. -/
theorem accepted_iff : ∀ {p s : List UInt8}, accepted (reCompile p) s = true ↔
    s ∈ Glob.language isWild p ∧ Glob.hasAdjacent isWild p = false ∧
      (Glob.endsWild isWild p = true → s ≠ [] ∧ s.dropLast ∈ Glob.language isWild p)
  | [], s => by simp [reCompile, accepted, Glob.hasAdjacent, Glob.endsWild]
  | [c], s => by
    cases hc : isWild c with
    | true =>
      have hall : ∀ w, w ∈ Glob.language isWild [c] := fun w =>
        (Glob.mem_language_wild hc).mpr ⟨w, [], by simp, Glob.mem_language_nil.mpr rfl⟩
      rw [reCompile, List.map_singleton, accepted_last (tokenize_wild hc)]
      simp [hall, Glob.hasAdjacent, Glob.endsWild, hc]
    | false =>
      obtain ⟨h1, h2⟩ := tokenize_char hc
      rw [reCompile, List.map_singleton, accepted_char h1, h2, Glob.mem_language_cons hc]
      simp [accepted, Glob.hasAdjacent, Glob.endsWild, hc]
  | c :: d :: p, s => by
    have ih := @accepted_iff (d :: p)
    have hends : Glob.endsWild isWild (c :: d :: p) = Glob.endsWild isWild (d :: p) := by simp [Glob.endsWild]
    rw [hends, Glob.hasAdjacent]
    have hcomp : reCompile (c :: d :: p) = tokenize c :: tokenize d :: reCompile p := rfl
    have hcomp' : reCompile (d :: p) = tokenize d :: reCompile p := rfl
    rw [hcomp'] at ih
    rw [hcomp]
    cases hc : isWild c with
    | false =>
      obtain ⟨h1, h2⟩ := tokenize_char hc
      rw [accepted_char h1, h2, Glob.mem_language_cons hc, Bool.false_and, Bool.false_or]
      constructor
      · rintro ⟨t, rfl, ht⟩
        obtain ⟨hL, hA, hE⟩ := ih.mp ht
        refine ⟨⟨t, rfl, hL⟩, hA, fun he => ⟨by simp, ?_⟩⟩
        obtain ⟨hne, hd⟩ := hE he
        rw [List.dropLast_cons_of_ne_nil hne]
        exact (Glob.mem_language_cons hc).mpr ⟨_, rfl, hd⟩
      · rintro ⟨⟨t, rfl, hL⟩, hA, hE⟩
        refine ⟨t, rfl, ih.mpr ⟨hL, hA, fun he => ?_⟩⟩
        obtain ⟨v, hv, hmem⟩ := (Glob.mem_language_cons hc).mp (hE he).2
        cases t with
        | nil => cases hv
        | cons x t =>
          rw [List.dropLast_cons_of_ne_nil (by simp)] at hv
          exact ⟨by simp, (List.cons.inj hv).2 ▸ hmem⟩
    | true =>
      rw [accepted_wild (tokenize_wild hc), Bool.true_and]
      cases hd : isWild d with
      | true => simp [tokenize_wild hd]
      | false =>
        rw [Bool.false_or, Glob.mem_language_wild hc, Glob.mem_language_wild hc]
        constructor
        · rintro ⟨-, u, v, rfl, hv⟩
          obtain ⟨hL, hA, hE⟩ := ih.mp hv
          refine ⟨⟨u, v, rfl, hL⟩, hA, fun he => ?_⟩
          obtain ⟨hne, hmem⟩ := hE he
          exact ⟨by simp [hne], u, v.dropLast, List.dropLast_append_of_ne_nil hne, hmem⟩
        · rintro ⟨⟨u, v, rfl, hL⟩, hA, hE⟩
          refine ⟨(tokenize_char hd).1, ?_⟩
          cases he : Glob.endsWild isWild (d :: p) with
          | false => exact ⟨u, v, rfl, ih.mpr ⟨hL, hA, fun h => by simp [he] at h⟩⟩
          | true =>
            -- the last wildcard takes the last character
            obtain ⟨hne, u', v', huv, hmem⟩ := hE he
            refine ⟨u', v' ++ [(u ++ v).getLast hne], ?_, ih.mpr ⟨?_, hA, fun _ => ?_⟩⟩
            · rw [← List.append_assoc, ← huv, List.dropLast_append_getLast]
            · exact Glob.append_mem_language he hmem _
            · simpa using hmem

/-- **`re_matches` decides the language of the pattern** on exactly these inputs: no word of the language, or a word that
leaves something to the wildcard at the end of a pattern without adjacent wildcards. -/
theorem reMatches_exact_iff (p s : List UInt8) (hdepth : ∀ fuel, reMatches s fuel (reCompile p) ≠ some .overflow) :
    (∃ fuel b, reMatches s fuel (reCompile p) = some (.returned b) ∧ (b = true ↔ s ∈ Glob.language isWild p)) ↔
      s ∉ Glob.language isWild p ∨ Glob.hasAdjacent isWild p = false ∧
        (Glob.endsWild isWild p = true → s ≠ [] ∧ s.dropLast ∈ Glob.language isWild p) := by
  obtain ⟨fuel, hret⟩ := reMatches_returns s (reCompile p)
  replace hret := hret.resolve_right (hdepth fuel)
  have hacc := @accepted_iff p s
  constructor
  · rintro ⟨fuel', b, hb, hiff⟩
    obtain rfl : accepted (reCompile p) s = b := by
      have := Loop.untilReturn_unique hret hb
      simpa using this
    rw [hacc] at hiff
    by_cases hL : s ∈ Glob.language isWild p
    · exact .inr (hiff.mpr hL).2
    · exact .inl hL
  · intro h
    refine ⟨fuel, _, hret, ?_⟩
    rw [hacc]
    rcases h with hL | h
    · simp [hL]
    · exact ⟨fun h => h.1, fun hL => ⟨hL, h⟩⟩

/-- `abc` and the pattern `a*c`. -/
theorem reMatches_exact_abc :
    ∃ fuel b, reMatches [97, 98, 99] fuel (reCompile [97, 42, 99]) = some (.returned b) ∧
      (b = true ↔ [97, 98, 99] ∈ Glob.language isWild [97, 42, 99]) := by
  have hret : reMatches [97, 98, 99] 10 (reCompile [97, 42, 99]) = some (.returned true) := by decide
  refine (reMatches_exact_iff [97, 42, 99] [97, 98, 99] fun fuel ho => ?_).mpr (.inr ⟨by decide, fun h => by cases h⟩)
  cases Loop.untilReturn_unique hret ho

/-- `a` does not match the pattern `a*`. -/
theorem not_reMatches_exact_a :
    ¬∃ fuel b, reMatches [97] fuel (reCompile [97, 42]) = some (.returned b) ∧
      (b = true ↔ [97] ∈ Glob.language isWild [97, 42]) := by
  rintro ⟨fuel, b, hb, hiff⟩
  have hret : reMatches [97] 10 (reCompile [97, 42]) = some (.returned false) := by decide
  cases Loop.untilReturn_unique hret hb
  have hmem : [97] ∈ Glob.language isWild [97, 42] :=
    (Glob.mem_language_cons (by decide)).mpr
      ⟨[], rfl, (Glob.mem_language_wild (by decide)).mpr ⟨[], [], rfl, Glob.mem_language_nil.mpr rfl⟩⟩
  exact absurd (hiff.mpr hmem) (by decide)

end Language

end LitmusHarness
