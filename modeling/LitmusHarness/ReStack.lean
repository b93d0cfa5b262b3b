import LitmusHarness.Lib.Reach
import LitmusHarness.Re

/-!
# The backtracking stack: `re.c`

`reAccess` is what an iteration of `re_matches` does to `backtrack_stack`, and `StackSafe` says that in no reachable
state it is out of bounds. On the stack there is an element for every wildcard before the current token (`DepthOk`), so
the first store out of bounds is at the 101st wildcard that has a token behind it. The iterations keep whether the
pattern up to this token still accepts the beginning of what is left (`reStep_ahead`); hence the stack is left exactly
if the pattern up to there accepts a beginning of the input (`stackSafe_iff`).
-/

namespace LitmusHarness

/-- An access to `backtrack_stack`: a store at an index, or a pop at a depth. -/
inductive StackAccess
  | push (index : Nat)
  | pop (depth : Nat)
  deriving DecidableEq, Repr

/-- The access is to one of the 100 elements. -/
def StackAccess.InBounds : StackAccess → Prop
  | push index => index ≤ 99
  | pop depth => 1 ≤ depth

section Access

variable (input : List UInt8)

/-- `_backtrack`, if it is called. -/
def backtrackAccess (s : ReState) : Option StackAccess :=
  if s.stack.length > 0 then some (.pop s.stack.length) else none

/-- `_chomp_wildcard`. -/
def chompAccess (s : ReState) : Option StackAccess :=
  match s.pos.current.tail with
  | [] => none
  | nextTok :: _ =>
    if eatStream input nextTok (input.length - s.pos.idx) s.pos.idx = input.length then none
    else some (.push s.stack.length)

/-- What one iteration of the loop of `re_matches` does to the stack. -/
def reAccess (s : ReState) : Option StackAccess :=
  if atEndOfStream input s.pos || noMoreRegex s.pos then
    if atEndOfStream input s.pos && noMoreRegex s.pos then none else backtrackAccess s
  else
    match s.pos.current with
    | [] => none -- not reached
    | tok :: _ =>
      if wouldAcceptChar input tok s.pos.idx then none
      else if !tok.isChar then chompAccess input s
      else backtrackAccess s

/-- The states of the loop of `re_matches`. -/
def ReReached (re : List ReTok) : ReState → Prop :=
  Reach.Reachable (· = { pos := ⟨0, re⟩ }) fun s s' => reStep input s = .inl s'

/-- Every access to the stack is in bounds. -/
def StackSafe (re : List ReTok) : Prop :=
  ∀ s, ReReached input re s → ∀ a, reAccess input s = some a → a.InBounds

end Access

/-! ## What an iteration does -/

section Move

variable {input : List UInt8} {s : ReState}

/-- Nothing can be read at a position. -/
def Stuck (input : List UInt8) (pos : RePos) : Prop :=
  pos.idx = input.length ∧ pos.current ≠ [] ∨ pos.current = [] ∨
    ∃ tok next, pos.current = tok :: next ∧ tok.isChar = true ∧ wouldAcceptChar input tok pos.idx = false

/-- The iterations, with the place at which a wildcard ends. -/
inductive ReMove (input : List UInt8) (s : ReState) : ReState ⊕ ReOutcome → Prop
  | accept {tok : ReTok} {next : List ReTok} (hcur : s.pos.current = tok :: next) (hidx : s.pos.idx ≠ input.length)
    (hacc : wouldAcceptChar input tok s.pos.idx = true) : ReMove input s (.inl { s with pos := ⟨s.pos.idx + 1, next⟩ })
  | last {tok : ReTok} (hcur : s.pos.current = [tok]) (hidx : s.pos.idx ≠ input.length) (hwild : tok.isChar = false) :
    ReMove input s (.inl { s with pos := ⟨input.length, []⟩ })
  | skip {tok tok' : ReTok} {rest : List ReTok} (hcur : s.pos.current = tok :: tok' :: rest)
    (hidx : s.pos.idx ≠ input.length) (hwild : tok.isChar = false)
    (heat : eatStream input tok' (input.length - s.pos.idx) s.pos.idx = input.length) :
    ReMove input s (.inl { s with pos := ⟨input.length, tok' :: rest⟩ })
  | push {tok tok' : ReTok} {rest : List ReTok} {v : Nat} (hcur : s.pos.current = tok :: tok' :: rest)
    (hidx : s.pos.idx ≠ input.length) (hwild : tok.isChar = false)
    (heat : eatStream input tok' (input.length - s.pos.idx) s.pos.idx = v) (hv : v ≠ input.length)
    (hlen : s.stack.length < 100) :
    ReMove input s (.inl { pos := ⟨v, tok' :: rest⟩, stack := ⟨s.pos, v + 1⟩ :: s.stack })
  | overflow {tok tok' : ReTok} {rest : List ReTok} {v : Nat} (hcur : s.pos.current = tok :: tok' :: rest)
    (hidx : s.pos.idx ≠ input.length) (hwild : tok.isChar = false)
    (heat : eatStream input tok' (input.length - s.pos.idx) s.pos.idx = v) (hv : v ≠ input.length)
    (hlen : 100 ≤ s.stack.length) : ReMove input s (.inr .overflow)
  | back {bt : ReBacktrack} {stack : List ReBacktrack} (hstack : s.stack = bt :: stack) (hstuck : Stuck input s.pos) :
    ReMove input s (.inl { pos := { bt.ctxPos with idx := bt.validToIdx }, stack := stack })
  | fail (hstack : s.stack = []) (hstuck : Stuck input s.pos) : ReMove input s (.inr (.returned false))
  | accepted (hcur : s.pos.current = []) (hidx : s.pos.idx = input.length) : ReMove input s (.inr (.returned true))

theorem backtrack_move (h : Stuck input s.pos) : ReMove input s (backtrack s) := by
  unfold backtrack
  cases hs : s.stack with
  | nil => exact .fail hs h
  | cons bt stack => exact .back hs h

theorem chompWildcard_move {tok : ReTok} {next : List ReTok} (hcur : s.pos.current = tok :: next)
    (hidx : s.pos.idx ≠ input.length) (hwild : tok.isChar = false) : ReMove input s (chompWildcard input s) := by
  unfold chompWildcard
  rw [hcur, List.tail_cons]
  cases next with
  | nil => exact .last hcur hidx hwild
  | cons tok' rest =>
    dsimp only
    split
    · next heat =>
      rw [heat]
      exact .skip hcur hidx hwild heat
    · next hne =>
      split
      · next hlen => exact .push hcur hidx hwild rfl hne hlen
      · next hlen => exact .overflow hcur hidx hwild rfl hne (Nat.le_of_not_lt hlen)

/-- **An iteration** is one of the moves. -/
theorem reStep_move (input : List UInt8) (s : ReState) : ReMove input s (reStep input s) := by
  unfold reStep atEndOfStream noMoreRegex
  cases hcur : s.pos.current with
  | nil =>
    by_cases hidx : s.pos.idx = input.length
    · simpa [hidx] using .accepted hcur hidx
    · simpa [hidx] using backtrack_move (.inr (.inl hcur))
  | cons tok next =>
    by_cases hidx : s.pos.idx = input.length
    · simpa [hidx] using backtrack_move (.inl ⟨hidx, by simp [hcur]⟩)
    · simp only [hidx, decide_false, List.isEmpty_cons, Bool.or_self, Bool.false_eq_true, if_false]
      split
      · next hacc => exact .accept hcur hidx hacc
      · next hacc =>
        cases hc : tok.isChar with
        | false => exact chompWildcard_move hcur hidx hc
        | true => exact backtrack_move (.inr (.inr ⟨tok, next, hcur, hc, Bool.eq_false_iff.mpr hacc⟩))

/-- A character is accepted by a token for it only. -/
theorem isChar_of_wouldAcceptChar {tok : ReTok} {i : Nat} (h : wouldAcceptChar input tok i = true) :
    tok.isChar = true := by
  simp only [wouldAcceptChar, Bool.and_eq_true] at h
  exact h.1

theorem backtrackAccess_inBounds {a : StackAccess} (h : backtrackAccess s = some a) : a.InBounds := by
  unfold backtrackAccess at h
  split at h
  · next hlen =>
    cases h
    exact hlen
  · cases h

/-- An access is in bounds, or it is the store of an iteration that overflows the stack. -/
theorem reAccess_inBounds {a : StackAccess} (h : reAccess input s = some a) :
    a.InBounds ∨ reStep input s = .inr .overflow := by
  unfold reAccess at h
  split at h
  · split at h
    · cases h
    · exact .inl (backtrackAccess_inBounds h)
  · next hgo =>
    cases hcur : s.pos.current with
    | nil => simp [hcur] at h
    | cons tok next =>
      simp only [hcur] at h
      split at h
      · cases h
      · next hacc =>
        split at h
        · next hwild =>
          unfold chompAccess at h
          rw [hcur, List.tail_cons] at h
          cases next with
          | nil => cases h
          | cons tok' rest =>
            dsimp only at h
            split at h
            · cases h
            · next hne =>
              cases h
              by_cases hlen : s.stack.length < 100
              · exact .inl (Nat.le_of_lt_succ hlen)
              · refine .inr ?_
                rw [reStep, if_neg hgo, hcur]
                simp only [if_neg hacc, if_pos hwild, chompWildcard, hcur, List.tail_cons, if_neg hne, if_neg hlen]
        · exact .inl (backtrackAccess_inBounds h)

/-- An iteration that overflows the stack stores out of bounds. -/
theorem reAccess_of_overflow (h : reStep input s = .inr .overflow) : ∃ i, 100 ≤ i ∧ reAccess input s = some (.push i) := by
  have hmove := reStep_move input s
  rw [h] at hmove
  cases hmove with
  | @overflow tok tok' rest v hcur hidx hwild heat hv hlen =>
    refine ⟨s.stack.length, hlen, ?_⟩
    have hacc : wouldAcceptChar input tok s.pos.idx = false := by simp [wouldAcceptChar, hwild]
    simp [reAccess, atEndOfStream, noMoreRegex, chompAccess, hcur, hidx, hacc, hwild, heat, hv]

theorem stackSafe_iff_overflow {re : List ReTok} :
    StackSafe input re ↔ ∀ s, ReReached input re s → reStep input s ≠ .inr .overflow := by
  constructor
  · intro h s hs ho
    obtain ⟨i, hi, ha⟩ := reAccess_of_overflow ho
    exact absurd (h s hs _ ha) (Nat.not_le.mpr hi)
  · intro h s hs a ha
    exact (reAccess_inBounds ha).resolve_right (h s hs)

end Move

/-! ## The depth of the stack -/

section Depth

variable {input : List UInt8} {re : List ReTok} {s s' : ReState}

/-- The wildcards of a part of the pattern. -/
def wildcards (l : List ReTok) : Nat := l.countP fun tok => !tok.isChar

@[simp] theorem wildcards_nil : wildcards [] = 0 := rfl

@[simp] theorem wildcards_append (l l' : List ReTok) : wildcards (l ++ l') = wildcards l + wildcards l' :=
  List.countP_append

theorem wildcards_wild {tok : ReTok} (h : tok.isChar = false) (l : List ReTok) :
    wildcards (tok :: l) = wildcards l + 1 := by simp [wildcards, h]

theorem wildcards_char {tok : ReTok} (h : tok.isChar = true) (l : List ReTok) :
    wildcards (tok :: l) = wildcards l := by simp [wildcards, h]

/-- An element of the stack is for a wildcard, with one element below it for each wildcard before that. -/
def StackDepth (re : List ReTok) : List ReBacktrack → Prop
  | [] => True
  | bt :: stack => bt.ctxPos.current <:+ re ∧ wildcards bt.ctxPos.current + stack.length = wildcards re ∧
    StackDepth re stack

/-- The stack has an element for each wildcard before the current token, except when a wildcard was taken to the end of
the input. -/
structure DepthOk (input : List UInt8) (re : List ReTok) (s : ReState) : Prop where
  suffix : s.pos.current <:+ re
  depth : wildcards s.pos.current + s.stack.length = wildcards re ∨
    s.pos.idx = input.length ∧ wildcards s.pos.current + s.stack.length + 1 = wildcards re ∧
      (s.pos.current = [] → ∃ tok, tok.isChar = false ∧ re.getLast? = some tok)
  stack : StackDepth re s.stack
  le : s.stack.length ≤ 100

theorem DepthOk.depth_of_ne (h : DepthOk input re s) (hidx : s.pos.idx ≠ input.length) :
    wildcards s.pos.current + s.stack.length = wildcards re := h.depth.resolve_right fun h => hidx h.1

theorem depthOk_step (h : DepthOk input re s) (hstep : reStep input s = .inl s') : DepthOk input re s' := by
  have hmove := reStep_move input s
  rw [hstep] at hmove
  have hsuf := h.suffix
  cases hmove with
  | @accept tok next hcur hidx hacc =>
    have hd := h.depth_of_ne hidx
    rw [hcur] at hd hsuf
    rw [wildcards_char (isChar_of_wouldAcceptChar hacc)] at hd
    exact ⟨(List.suffix_cons _ _).trans hsuf, .inl hd, h.stack, h.le⟩
  | @last tok hcur hidx hwild =>
    have hd := h.depth_of_ne hidx
    rw [hcur] at hd hsuf
    rw [wildcards_wild hwild] at hd
    refine ⟨List.nil_suffix, .inr ⟨rfl, by dsimp only; omega, fun _ => ⟨tok, hwild, ?_⟩⟩, h.stack, h.le⟩
    obtain ⟨q, rfl⟩ := hsuf
    exact List.getLast?_concat
  | @skip tok tok' rest hcur hidx hwild heat =>
    have hd := h.depth_of_ne hidx
    rw [hcur] at hd hsuf
    rw [wildcards_wild hwild] at hd
    refine ⟨(List.suffix_cons _ _).trans hsuf, .inr ⟨rfl, by dsimp only; omega, fun hnil => ?_⟩, h.stack, h.le⟩
    cases hnil
  | @push tok tok' rest v hcur hidx hwild heat hv hlen =>
    have hd := h.depth_of_ne hidx
    have hd' := hd
    rw [hcur, wildcards_wild hwild] at hd'
    rw [hcur] at hsuf
    refine ⟨(List.suffix_cons _ _).trans hsuf, .inl ?_, ⟨h.suffix, hd, h.stack⟩, hlen⟩
    change wildcards (tok' :: rest) + (s.stack.length + 1) = wildcards re
    omega
  | @back bt stack hstack hstuck =>
    have hst := h.stack
    have hle := h.le
    rw [hstack] at hst hle
    exact ⟨hst.1, .inl hst.2.1, hst.2.2, Nat.le_of_succ_le hle⟩

theorem depthOk_init (input : List UInt8) (re : List ReTok) : DepthOk input re { pos := ⟨0, re⟩ } :=
  ⟨List.suffix_refl re, .inl rfl, trivial, Nat.zero_le 100⟩

theorem ok_init (input : List UInt8) (re : List ReTok) : ReState.Ok input { pos := ⟨0, re⟩ } :=
  ⟨Nat.zero_le _, fun _ hb => absurd hb List.not_mem_nil⟩

theorem ok_step (h : s.Ok input) (hstep : reStep input s = .inl s') : s'.Ok input := by
  have := reStep_ok h
  rw [hstep] at this
  exact this.1

theorem ReReached.inv (h : ReReached input re s) : s.Ok input ∧ DepthOk input re s :=
  @Reach.Reachable.inv _ _ _ (fun s => s.Ok input ∧ DepthOk input re s)
    (fun _ h0 => h0 ▸ ⟨ok_init input re, depthOk_init input re⟩)
    (fun _ _ hI hs => ⟨ok_step hI.1 hs, depthOk_step hI.2 hs⟩) _ h

end Depth

/-! ## What is ahead -/

/-- The pattern accepts a beginning of the input. -/
def prefixAccepted (q : List ReTok) (t : List UInt8) : Prop := ∃ n, accepted q (t.take n) = true

theorem prefixAccepted_reads : Reads prefixAccepted where
  char {tok q t} hc := by
    constructor
    · rintro ⟨n, hn⟩
      obtain ⟨t', ht, hq⟩ := (accepted_char hc).mp hn
      obtain ⟨n, rfl⟩ : ∃ k, n = k + 1 := Nat.exists_eq_add_one_of_ne_zero fun h0 => by simp [h0] at ht
      cases t with
      | nil => simp at ht
      | cons x t =>
        rw [List.take_succ_cons] at ht
        cases ht
        exact ⟨t, rfl, n, hq⟩
    · rintro ⟨t', rfl, n, hn⟩
      exact ⟨n + 1, (accepted_char hc).mpr ⟨_, List.take_succ_cons, hn⟩⟩
  wild {tok tok' q t} hc := by
    constructor
    · rintro ⟨n, hn⟩
      obtain ⟨hc', u, v, huv, hv⟩ := (accepted_wild hc).mp hn
      refine ⟨hc', u, v ++ t.drop n, ?_, v.length, by rw [List.take_left]; exact hv⟩
      rw [← List.append_assoc, ← huv, List.take_append_drop]
    · rintro ⟨hc', u, v, rfl, n, hn⟩
      refine ⟨u.length + n, (accepted_wild hc).mpr ⟨hc', u, v.take n, ?_, hn⟩⟩
      rw [List.take_append, List.take_of_length_le (by omega), Nat.add_sub_cancel_left]

theorem not_prefixAccepted_nil {q : List ReTok} (h : q ≠ []) : ¬prefixAccepted q [] := by
  rintro ⟨n, hn⟩
  obtain ⟨tok, q, rfl⟩ := List.exists_cons_of_ne_nil h
  simp [accepted] at hn

section Ahead

variable {input : List UInt8} {re q r : List ReTok} {w c : ReTok} {s s' : ReState}

/-- The pattern up to the rest `r` accepts what follows the position. -/
def Ahead (input : List UInt8) (r : List ReTok) (current : List ReTok) (idx : Nat) : Prop :=
  ∃ l, l ≠ [] ∧ current = l ++ r ∧ prefixAccepted l (input.drop idx)

/-- The pattern up to `r` accepts what follows the position, or one to go back to. -/
def ReState.Ahead (input : List UInt8) (r : List ReTok) (s : ReState) : Prop :=
  LitmusHarness.Ahead input r s.pos.current s.pos.idx ∨
    ∃ bt ∈ s.stack, LitmusHarness.Ahead input r bt.ctxPos.current bt.validToIdx

/-- The token before `r` is behind the 101st wildcard. -/
structure CutAt (re r : List ReTok) : Prop where
  split : ∃ q w c, re = q ++ w :: c :: r ∧ w.isChar = false ∧ wildcards q = 100

/-- Before its last token a part of the pattern has the wildcard. -/
theorem DepthOk.two_before (h : DepthOk input re s) (hcut : CutAt re r) (hidx : s.pos.idx ≠ input.length)
    {l : List ReTok} (hl : l ≠ []) (hcur : s.pos.current = l ++ r) : ∃ tok tok' l', l = tok :: tok' :: l' := by
  obtain ⟨q, w, c, hre, hw, hq⟩ := hcut.split
  match l, hl with
  | tok :: tok' :: l', _ => exact ⟨tok, tok', l', rfl⟩
  | [tok], _ =>
    -- the position is behind the wildcard, and the stack has 101 elements
    have hd := h.depth_of_ne hidx
    have hsuf := h.suffix
    rw [hcur] at hd hsuf
    have hsuf' : c :: r <:+ re := ⟨q ++ [w], by rw [hre, List.append_assoc]; rfl⟩
    have heq : tok :: r = c :: r :=
      (List.suffix_of_suffix_length_le hsuf hsuf' (Nat.le_refl _)).eq_of_length rfl
    rw [List.singleton_append, heq, hre, wildcards_append, wildcards_wild hw] at hd
    have := h.le
    omega

theorem Stuck.not_ahead (h : Stuck input s.pos) : ¬Ahead input r s.pos.current s.pos.idx := by
  rintro ⟨l, hl, hcur, hacc⟩
  rcases h with ⟨hidx, -⟩ | hnil | ⟨tok, next, hcons, hc, hno⟩
  · rw [hidx, List.drop_length] at hacc
    exact not_prefixAccepted_nil hl hacc
  · rw [hnil] at hcur
    exact hl (List.append_eq_nil_iff.mp hcur.symm).1
  · obtain ⟨x, l, rfl⟩ := List.exists_cons_of_ne_nil hl
    rw [hcons, List.cons_append] at hcur
    obtain ⟨rfl, -⟩ := List.cons.inj hcur
    rw [(prefixAccepted_reads.wouldAcceptChar hc hacc).1] at hno
    cases hno

/-- Where a wildcard stops the pattern is accepted behind it, or where the wildcard goes on. -/
theorem ahead_push {tok tok' : ReTok} {rest : List ReTok} {v : Nat} (hs : s.Ok input) (h : DepthOk input re s)
    (hcut : CutAt re r) (hcur : s.pos.current = tok :: tok' :: rest) (hidx : s.pos.idx ≠ input.length)
    (hwild : tok.isChar = false) (heat : eatStream input tok' (input.length - s.pos.idx) s.pos.idx = v)
    (hv : v ≠ input.length) : Ahead input r s.pos.current s.pos.idx ↔
      Ahead input r (tok' :: rest) v ∨ Ahead input r s.pos.current (v + 1) := by
  have hle : v ≤ input.length := by
    have := hs.idx
    have := (@eatStream_spec input tok' (input.length - s.pos.idx) s.pos.idx (by omega)).2.1
    rwa [heat] at this
  have hlt : v < input.length := Nat.lt_of_le_of_ne hle hv
  -- the part of the pattern starts with the wildcard and the next token
  have hparts : ∀ l, l ≠ [] → s.pos.current = l ++ r → ∃ l', l = tok :: tok' :: l' ∧ rest = l' ++ r := by
    intro l hl hcur'
    obtain ⟨x, y, l', rfl⟩ := h.two_before hcut hidx hl hcur'
    rw [hcur] at hcur'
    cases hcur'
    exact ⟨l', rfl, rfl⟩
  constructor
  · rintro ⟨l, hl, hcur', hl'⟩
    obtain ⟨l, rfl, hrest⟩ := hparts l hl hcur'
    exact ((prefixAccepted_reads.eatStream hwild hs.idx heat).mp hl').2.imp
      (fun h => ⟨tok' :: l, List.cons_ne_nil _ _, congrArg (tok' :: ·) hrest, h⟩) fun h => ⟨_, hl, hcur', h⟩
  · rintro (⟨l, hl, hcur', hl'⟩ | ⟨l, hl, hcur', hl'⟩)
    · obtain ⟨y, l, rfl⟩ := List.exists_cons_of_ne_nil hl
      obtain ⟨rfl, rfl⟩ := List.cons.inj hcur'
      exact ⟨tok :: tok' :: l, List.cons_ne_nil _ _, hcur,
        (prefixAccepted_reads.eatStream hwild hs.idx heat).mpr ⟨hlt, .inl hl'⟩⟩
    · obtain ⟨l, rfl, -⟩ := hparts l hl hcur'
      exact ⟨_, hl, hcur', (prefixAccepted_reads.eatStream hwild hs.idx heat).mpr ⟨hlt, .inr hl'⟩⟩

/-- **An iteration** keeps whether the pattern up to `r` is accepted. -/
theorem reStep_ahead (hs : s.Ok input) (h : DepthOk input re s) (hcut : CutAt re r)
    (hstep : reStep input s = .inl s') : s'.Ahead input r ↔ s.Ahead input r := by
  have hmove := reStep_move input s
  rw [hstep] at hmove
  cases hmove with
  | @accept tok next hcur hidx hacc =>
    have hlt : s.pos.idx < input.length := Nat.lt_of_le_of_ne hs.idx hidx
    refine or_congr_left ?_
    dsimp only
    constructor
    · rintro ⟨l, hl, rfl, hl'⟩
      exact ⟨tok :: l, List.cons_ne_nil _ _, hcur, (prefixAccepted_reads.of_wouldAcceptChar hlt hacc).mpr hl'⟩
    · rintro ⟨l, hl, hcur', hl'⟩
      obtain ⟨x, y, l, rfl⟩ := h.two_before hcut hidx hl hcur'
      rw [hcur, List.cons_append] at hcur'
      obtain ⟨rfl, rfl⟩ := List.cons.inj hcur'
      exact ⟨y :: l, List.cons_ne_nil _ _, rfl, (prefixAccepted_reads.of_wouldAcceptChar hlt hacc).mp hl'⟩
  | @last tok hcur hidx hwild =>
    refine or_congr_left (iff_of_false ?_ ?_)
    · rintro ⟨l, hl, hnil, -⟩
      exact hl (List.append_eq_nil_iff.mp hnil.symm).1
    · rintro ⟨l, hl, hcur', -⟩
      obtain ⟨x, y, l, rfl⟩ := h.two_before hcut hidx hl hcur'
      rw [hcur] at hcur'
      cases hcur'
  | @skip tok tok' rest hcur hidx hwild heat =>
    refine or_congr_left (iff_of_false ?_ ?_)
    · rintro ⟨l, hl, -, hl'⟩
      rw [List.drop_length] at hl'
      exact not_prefixAccepted_nil hl hl'
    · rintro ⟨l, hl, hcur', hl'⟩
      obtain ⟨x, y, l, rfl⟩ := h.two_before hcut hidx hl hcur'
      rw [hcur] at hcur'
      cases hcur'
      exact absurd ((prefixAccepted_reads.eatStream hwild hs.idx heat).mp hl').1 (Nat.lt_irrefl _)
  | @push tok tok' rest v hcur hidx hwild heat hv hlen =>
    have hpos := ahead_push hs h hcut hcur hidx hwild heat hv
    simp only [ReState.Ahead, List.mem_cons, exists_eq_or_imp, hpos, or_assoc]
  | @back bt stack hstack hstuck =>
    simp only [ReState.Ahead, hstack, List.mem_cons, exists_eq_or_imp, hstuck.not_ahead, false_or]

/-- A loop with something ahead does not return. -/
theorem reStep_not_returned (h : DepthOk input re s) (hcut : CutAt re r) (hahead : s.Ahead input r) (b : Bool) :
    reStep input s ≠ .inr (.returned b) := by
  intro hstep
  have hmove := reStep_move input s
  rw [hstep] at hmove
  cases hmove with
  | fail hstack hstuck =>
    rcases hahead with hpos | ⟨bt, hbt, -⟩
    · exact hstuck.not_ahead hpos
    · rw [hstack] at hbt
      exact List.not_mem_nil hbt
  | accepted hcur hidx =>
    -- the stack has an element for each wildcard but the last
    obtain ⟨q, w, c, hre, hw, hq⟩ := hcut.split
    have hwild : wildcards re = 101 + wildcards (c :: r) := by
      rw [hre, wildcards_append, wildcards_wild hw]
      omega
    have hle := h.le
    rcases h.depth with hd | ⟨-, hd, hend⟩
    · rw [hcur, wildcards_nil] at hd
      omega
    · rw [hcur, wildcards_nil] at hd
      obtain ⟨tok, htok, hlast⟩ := hend hcur
      have hmem : tok ∈ c :: r := by
        rw [hre, List.getLast?_append_cons, List.getLast?_cons_cons] at hlast
        exact List.mem_of_getLast? hlast
      have hpos : 0 < wildcards (c :: r) := List.countP_pos_iff.mpr ⟨tok, hmem, by simp [htok]⟩
      omega

theorem reached_ahead (hcut : CutAt re r) (h : ReReached input re s) :
    s.Ahead input r ↔ ReState.Ahead input r { pos := ⟨0, re⟩ } := by
  have hI := @Reach.Reachable.inv _ _ _ (fun s => (s.Ok input ∧ DepthOk input re s) ∧
    (s.Ahead input r ↔ ReState.Ahead input r { pos := ⟨0, re⟩ })) ?_ ?_ _ h
  · exact hI.2
  · rintro s rfl
    exact ⟨⟨ok_init input re, depthOk_init input re⟩, Iff.rfl⟩
  · rintro s s' ⟨⟨hok, hd⟩, hiff⟩ hstep
    exact ⟨⟨ok_step hok hstep, depthOk_step hd hstep⟩, (reStep_ahead hok hd hcut hstep).trans hiff⟩

/-- At the start nothing is on the stack. -/
theorem ahead_init (hre : re = q ++ w :: c :: r) :
    ReState.Ahead input r { pos := ⟨0, re⟩ } ↔ prefixAccepted (q ++ [w, c]) input := by
  have hsplit : re = (q ++ [w, c]) ++ r := by rw [hre, List.append_assoc]; rfl
  constructor
  · rintro (⟨l, -, hcur, hl⟩ | ⟨bt, hbt, -⟩)
    · obtain rfl : l = q ++ [w, c] := List.append_cancel_right (hcur.symm.trans hsplit)
      exact hl
    · exact absurd hbt List.not_mem_nil
  · exact fun h => .inl ⟨q ++ [w, c], by simp, hsplit, h⟩

end Ahead

/-! ## When the stack is not left -/

section Safe

variable {p input : List UInt8}

theorem wildcards_reCompile (q : List UInt8) : wildcards (reCompile q) = q.countP isWild := by
  rw [wildcards, reCompile, List.countP_map]
  refine List.countP_congr fun c _ => ?_
  cases hc : isWild c with
  | false => simp [tokenize, hc]
  | true => simp [tokenize, hc]

/-- What is accepted up to a character behind a wildcard. -/
theorem prefixAccepted_cut {q : List UInt8} {w c : UInt8} (hw : isWild w = true) :
    prefixAccepted (reCompile (q ++ [w, c])) input ↔ Glob.hasAdjacent isWild (q ++ [w, c]) = false ∧
      ∃ u, u <+: input ∧ u ∈ Glob.language isWild (q ++ [w, c]) := by
  have hends : Glob.hasAdjacent isWild (q ++ [w, c]) = false → Glob.endsWild isWild (q ++ [w, c]) = false := by
    intro h
    have hc : isWild c = false := by
      rw [← Bool.not_eq_true]
      exact fun hc => absurd h (by rw [Glob.hasAdjacent_append_pair hw hc]; simp)
    rw [Glob.endsWild, show q ++ [w, c] = (q ++ [w]) ++ [c] by simp, List.getLast?_concat]
    exact hc
  constructor
  · rintro ⟨n, hn⟩
    obtain ⟨hL, hA, -⟩ := accepted_iff.mp hn
    exact ⟨hA, _, List.take_prefix n input, hL⟩
  · rintro ⟨hA, u, hu, hL⟩
    refine ⟨u.length, ?_⟩
    rw [← List.prefix_iff_eq_take.mp hu]
    exact accepted_iff.mpr ⟨hL, hA, fun h => by rw [hends hA] at h; cases h⟩

/-- The pattern has at most 100 wildcards with something behind them, or up to what is behind the 101st it has two
adjacent wildcards, or no word of it up to there is a beginning of the input. -/
def FitsStack (p input : List UInt8) : Prop :=
  ∀ q w c r, p = q ++ w :: c :: r → isWild w = true → q.countP isWild = 100 →
    Glob.hasAdjacent isWild (q ++ [w, c]) = false → ∀ u, u <+: input → u ∉ Glob.language isWild (q ++ [w, c])

/-- A short pattern fits. -/
theorem fitsStack_of_length {p : List UInt8} (h : p.length ≤ 100) (input : List UInt8) : FitsStack p input := by
  intro q w c r hp _ hq
  have := List.countP_le_length (p := isWild) (l := q)
  rw [hp, List.length_append] at h
  simp only [List.length_cons] at h
  omega

/-- If the matcher comes to the 101st wildcard with what is behind it ahead, it cannot return. -/
theorem StackSafe.fits (h : StackSafe input (reCompile p)) : FitsStack p input := by
  have hsafe := stackSafe_iff_overflow.mp h
  intro q w c r hp hw hq hadj u hu hL
  have hre : reCompile p = reCompile q ++ tokenize w :: tokenize c :: reCompile r := by
    rw [hp]
    simp [reCompile]
  have hcut : CutAt (reCompile p) (reCompile r) :=
    ⟨_, _, _, hre, tokenize_wild hw, (wildcards_reCompile q).trans hq⟩
  have hinit : ReState.Ahead input (reCompile r) { pos := ⟨0, reCompile p⟩ } := by
    rw [ahead_init hre]
    have := (prefixAccepted_cut hw).mpr ⟨hadj, u, hu, hL⟩
    rwa [reCompile, List.map_append] at this
  -- the loop would have to return
  obtain ⟨fuel, hret⟩ := reMatches_returns input (reCompile p)
  obtain ⟨o, ho⟩ : ∃ o, reMatches input fuel (reCompile p) = some o :=
    hret.elim (fun h => ⟨_, h⟩) fun h => ⟨_, h⟩
  refine @Loop.untilReturn_inv _ (ReReached input (reCompile p)) _ _ (fun _ => False) (fun s s' hs h => hs.step h)
    (fun s o hs h => ?_) _ _ _ (.init rfl) ho
  cases o with
  | overflow => exact hsafe s hs h
  | returned b => exact reStep_not_returned hs.inv.2 hcut ((reached_ahead hcut hs).mpr hinit) b h

/-- The matcher leaves its stack at the 101st wildcard only, with what is behind it ahead. -/
theorem FitsStack.stackSafe (hcond : FitsStack p input) : StackSafe input (reCompile p) := by
  refine stackSafe_iff_overflow.mpr ?_
  intro s hs ho
  obtain ⟨hok, hd⟩ := hs.inv
  have hmove := reStep_move input s
  rw [ho] at hmove
  cases hmove with
  | @overflow tok tok' rest v hcur hidx hwild heat hv hlen =>
    have hdepth := hd.depth_of_ne hidx
    have hle := hd.le
    obtain ⟨q₀, hq₀⟩ := hd.suffix
    rw [hcur] at hq₀ hdepth
    -- the pattern at the wildcard
    obtain ⟨q, x, hp, hq, hx⟩ := List.map_eq_append_iff.mp hq₀.symm
    obtain ⟨w, y, rfl, hw, hy⟩ := List.map_eq_cons_iff.mp hx
    obtain ⟨c, r, rfl, hc, hr⟩ := List.map_eq_cons_iff.mp hy
    have hisw : isWild w = true := by
      by_contra hno
      rw [← hw, (tokenize_char (Bool.not_eq_true _ ▸ hno)).1] at hwild
      cases hwild
    have hcount : wildcards q₀ = 100 := by
      rw [← hq₀, wildcards_append] at hdepth
      omega
    have hcut : CutAt (reCompile p) rest := ⟨q₀, tok, tok', hq₀.symm, hwild, hcount⟩
    have hahead : s.Ahead input rest := by
      refine .inl ⟨[tok, tok'], by simp, hcur, (prefixAccepted_reads.eatStream hwild hok.idx heat).mpr ?_⟩
      obtain ⟨-, h2, h3, -⟩ := @eatStream_spec input tok' (input.length - s.pos.idx) s.pos.idx
        (by have := hok.idx; omega)
      rw [heat] at h2 h3
      have hlt : v < input.length := Nat.lt_of_le_of_ne h2 hv
      exact ⟨hlt, .inl ((prefixAccepted_reads.of_wouldAcceptChar hlt (h3 hlt)).mpr ⟨0, rfl⟩)⟩
    have hinit := (ahead_init hq₀.symm).mp ((reached_ahead hcut hs).mp hahead)
    have hcompile : q₀ ++ [tok, tok'] = reCompile (q ++ [w, c]) := by
      rw [reCompile, List.map_append, List.map_cons, List.map_singleton, hq, hw, hc]
    rw [hcompile] at hinit
    obtain ⟨hadj, u, hu, hL⟩ := (prefixAccepted_cut hisw).mp hinit
    have hcountP : q.countP isWild = 100 := (wildcards_reCompile q).symm.trans ((congrArg wildcards hq).trans hcount)
    exact hcond q w c r hp hisw hcountP hadj u hu hL

/-- **The stack is not left** on exactly the inputs that fit. -/
theorem stackSafe_iff (p input : List UInt8) : StackSafe input (reCompile p) ↔ FitsStack p input :=
  ⟨StackSafe.fits, FitsStack.stackSafe⟩

/-- The loop from a state that it reaches. -/
theorem ReReached.untilReturn {re : List ReTok} {s : ReState} (h : ReReached input re s) :
    ∃ n, ∀ m, Loop.untilReturn (reStep input) (n + m) { pos := ⟨0, re⟩ } = Loop.untilReturn (reStep input) m s := by
  induction h with
  | init h0 => exact ⟨0, fun m => by rw [Nat.zero_add, h0]⟩
  | step _ hs ih =>
    obtain ⟨n, hn⟩ := ih
    refine ⟨n + 1, fun m => ?_⟩
    rw [Nat.add_assoc, Nat.add_comm 1, hn, Loop.untilReturn, hs]

/-- What the callers of `re_matches` get, if it does not leave its stack. -/
def reMatchesCall (re : List ReTok) (input : List UInt8) : Option Bool :=
  match reMatches input (weight input re 0 + 1) re with
  | some (.returned b) => some b
  | _ => none

theorem reMatchesCall_eq_some {b : Bool} :
    reMatchesCall (reCompile p) input = some b ↔ FitsStack p input ∧ b = accepted (reCompile p) input := by
  rw [show FitsStack p input ↔ StackSafe input (reCompile p) from ⟨FitsStack.stackSafe, StackSafe.fits⟩,
    stackSafe_iff_overflow, reMatchesCall]
  constructor
  · intro h
    rcases reMatches_weight input (reCompile p) with hret | hover
    · simp only [hret, Option.some.injEq] at h
      refine ⟨fun s hs ho => ?_, h.symm⟩
      -- the loop would end with an overflow as well
      obtain ⟨n, hn⟩ := hs.untilReturn
      have hover : Loop.untilReturn (reStep input) 1 s = some .overflow := by rw [Loop.untilReturn, ho]
      rw [← hn 1] at hover
      cases Loop.untilReturn_unique hret hover
    · simp [hover] at h
  · rintro ⟨hsafe, rfl⟩
    rcases reMatches_weight input (reCompile p) with hret | hover
    · simp [hret]
    · exact (@Loop.untilReturn_inv _ (ReReached input (reCompile p)) _ _ (fun o => o ≠ ReOutcome.overflow)
        (fun s s' hs h => hs.step h) (fun s o hs h ho => hsafe s hs (h.trans (congrArg _ ho))) _ _ _ (.init rfl) hover
          rfl).elim

/-- The pattern `*a` 101 times, on 101 times `a`. -/
theorem not_stackSafe_101 :
    ¬StackSafe (List.replicate 101 97) (reCompile (List.replicate 101 [42, 97]).flatten) := by
  have hp : (List.replicate 101 [42, 97]).flatten = (List.replicate 100 [42, 97]).flatten ++ [(42 : UInt8), 97] := by
    rw [show 101 = 100 + 1 from rfl, List.replicate_succ', List.flatten_concat]
  intro h
  refine h.fits _ 42 97 [] hp (by decide) (by decide +kernel) (by decide +kernel) _
    (List.prefix_refl _) ?_
  rw [← hp]
  exact Glob.replicate_mem_language (by decide) (by decide) 101

end Safe

end LitmusHarness
