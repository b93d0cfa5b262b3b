/-!
# Loops with a bound

`whileM` runs a body that may fail while a condition holds, for a bounded number of iterations. With a measure that
the body lowers and that the bound covers, the bound is never reached: a result satisfies every invariant of the body
and falsifies the condition (`whileM_ok`), and an error is an error of the body (`whileM_error`). If the body does not
fail, there is a result (`whileM_total`); a loop whose condition always holds again reaches every bound
(`whileM_limit`). `forRange` and `forRangeM` run a body for all numbers of a range; their rules
`forRange_inv` and `forRangeM_total` take an invariant that depends on the number.

`untilNone` takes steps until there is none. What the steps keep, the last state has (`untilNone_inv`), and within the
bound it has no step left (`untilNone_none`).

`untilReturn` takes steps until one of them returns. What the steps keep holds when they return (`untilReturn_inv`), the
result does not depend on the bound (`untilReturn_unique`), and a measure that the steps lower is a bound
(`untilReturn_some`). Along a sequence of states it ends where a step returns (`untilReturn_chain`, `untilReturn_ends`).

A loop over a list is `List.foldlM`. What its steps keep, its result has (`foldlM_inv`); what the step of an element
establishes and the others keep, the result has for every element (`foldlM_forall`); and a body that does not fail on
the states of an invariant gives a loop that does not fail (`foldlM_total`). A loop that has a result has run its body for
every element (`foldlM_mem`). For `List.mapM` there are `mapM_ok` and `mapM_getElem?`, for `List.forM` there is
`forM_ok_iff`, and for `List.findSomeM?` there are `findSomeM?_total`, `findSomeM?_eq` and `findSomeM?_some`. A body that
runs over a list, and again for each element of another, runs over repetitions of the list (`flatMap_mapM`), and with a
state there is `mapM_some`.

Everywhere, a computation that has a result is taken apart by `bind_ok`, and one that fails by `bind_error`. That it
fails only with errors of some kind is `ErrorsIn`, with a rule for the bind and one for the loop over a list.
-/

namespace Loop

variable {σ ε : Type}

section Bind

variable {α β : Type} {x : Except ε α} {f : α → Except ε β}

theorem bind_ok {b : β} (h : x >>= f = .ok b) : ∃ a, x = .ok a ∧ f a = .ok b := by
  cases x with
  | error e => cases h
  | ok a => exact ⟨a, rfl, h⟩

theorem bind_error {e : ε} (h : x >>= f = .error e) : x = .error e ∨ ∃ a, x = .ok a ∧ f a = .error e := by
  cases x with
  | error e' =>
    cases h
    exact Or.inl rfl
  | ok a => exact Or.inr ⟨a, rfl, h⟩

end Bind

/-- `while (cond s) s = body s`, for at most `n` iterations. -/
def whileM (cond : σ → Bool) (body : σ → Except ε σ) (limit : ε) : Nat → σ → Except ε σ
  | 0, s => if cond s then .error limit else .ok s
  | n + 1, s =>
    if cond s then
      match body s with
      | .error e => .error e
      | .ok s' => whileM cond body limit n s'
    else .ok s

variable {cond : σ → Bool} {body : σ → Except ε σ} {limit : ε} {I : σ → Prop}

/-- The rule of the loop, for its results. -/
theorem whileM_ok (hbody : ∀ s s', I s → cond s = true → body s = .ok s' → I s') :
    ∀ (n : Nat) (s s' : σ), I s → whileM cond body limit n s = .ok s' → I s' ∧ cond s' = false := by
  intro n s s' hI h
  induction n generalizing s with
  | zero =>
    rw [whileM] at h
    split at h
    · cases h
    · cases h
      exact ⟨hI, Bool.not_eq_true _ ▸ ‹_›⟩
  | succ n ih =>
    rw [whileM] at h
    split at h
    · rename_i hc
      cases hb : body s with
      | error e => simp [hb] at h
      | ok s₁ =>
        simp only [hb] at h
        exact ih s₁ (hbody s s₁ hI hc hb) h
    · cases h
      exact ⟨hI, Bool.not_eq_true _ ▸ ‹_›⟩

/-- The rule of the loop, for its errors: within the bound they come from the body. -/
theorem whileM_error {μ : σ → Nat} (hbody : ∀ s s', I s → cond s = true → body s = .ok s' → I s' ∧ μ s' < μ s)
    (hpos : ∀ s, I s → cond s = true → 0 < μ s) {e : ε} :
    ∀ (n : Nat) (s : σ), I s → μ s ≤ n → whileM cond body limit n s = .error e →
      ∃ s', I s' ∧ cond s' = true ∧ body s' = .error e := by
  intro n s hI hμ h
  induction n generalizing s with
  | zero =>
    rw [whileM] at h
    split at h
    · rename_i hc
      have := hpos s hI hc
      omega
    · cases h
  | succ n ih =>
    rw [whileM] at h
    split at h
    · rename_i hc
      cases hb : body s with
      | error e' =>
        simp only [hb, Except.error.injEq] at h
        exact ⟨s, hI, hc, h ▸ hb⟩
      | ok s₁ =>
        simp only [hb] at h
        obtain ⟨hI₁, hlt⟩ := hbody s s₁ hI hc hb
        exact ih s₁ hI₁ (by omega) h
    · cases h

/-- The rule of the loop with a body that does not fail. -/
theorem whileM_total {μ : σ → Nat}
    (hbody : ∀ s, I s → cond s = true → ∃ s', body s = .ok s' ∧ I s' ∧ μ s' < μ s) {n : Nat} {s : σ} (hI : I s)
    (hμ : μ s ≤ n) : ∃ s', whileM cond body limit n s = .ok s' ∧ I s' ∧ cond s' = false := by
  have hinv : ∀ s s', I s → cond s = true → body s = .ok s' → I s' ∧ μ s' < μ s := by
    intro s s' hI hc hb
    obtain ⟨s₁, h₁, h⟩ := hbody s hI hc
    rw [hb] at h₁
    cases h₁
    exact h
  cases h : whileM cond body limit n s with
  | ok s' => exact ⟨s', rfl, whileM_ok (fun s s' hI hc hb => (hinv s s' hI hc hb).1) n s s' hI h⟩
  | error e =>
    have hpos : ∀ s, I s → cond s = true → 0 < μ s := by
      intro s hI hc
      obtain ⟨s', -, -, hlt⟩ := hbody s hI hc
      omega
    obtain ⟨s', hI', hc', he⟩ := whileM_error hinv hpos n s hI hμ h
    obtain ⟨s₁, h₁, -⟩ := hbody s' hI' hc'
    rw [he] at h₁
    cases h₁

/-- A loop that never ends. -/
theorem whileM_limit (hcond : ∀ s, I s → cond s = true) (hbody : ∀ s s', I s → body s = .ok s' → I s')
    (hok : ∀ s, I s → ∃ s', body s = .ok s') : ∀ (n : Nat) (s : σ), I s → whileM cond body limit n s = .error limit := by
  intro n s hI
  induction n generalizing s with
  | zero => exact if_pos (hcond s hI)
  | succ n ih =>
    obtain ⟨s', hs'⟩ := hok s hI
    rw [whileM, if_pos (hcond s hI), hs']
    exact ih s' (hbody s s' hI hs')

/-! ## Loops over a range -/

/-- `for (t = lo; t < hi; t++) s = body t s`. -/
def forRange (lo hi : Nat) (body : Nat → σ → σ) (s : σ) : σ :=
  (List.range' lo (hi - lo)).foldl (fun s t => body t s) s

/-- The same, with a body that may fail. -/
def forRangeM (lo hi : Nat) (body : Nat → σ → Except ε σ) (s : σ) : Except ε σ :=
  (List.range' lo (hi - lo)).foldlM (fun s t => body t s) s

/-- The rule of the loop, for a body that does not fail. -/
theorem forRangeM_total {I : Nat → σ → Prop} {hi : Nat} {body : Nat → σ → Except ε σ} : ∀ {lo : Nat} {s : σ},
    (∀ t s, lo ≤ t → t < hi → I t s → ∃ s', body t s = .ok s' ∧ I (t + 1) s') → lo ≤ hi → I lo s →
      ∃ s', forRangeM lo hi body s = .ok s' ∧ I hi s' := by
  intro lo s hbody hle h
  induction hn : hi - lo generalizing lo s with
  | zero =>
    obtain rfl : lo = hi := by omega
    exact ⟨s, by rw [forRangeM, hn]; rfl, h⟩
  | succ n ih =>
    obtain ⟨s₁, h₁, hI⟩ := hbody lo s (Nat.le_refl lo) (by omega) h
    obtain ⟨s', h', hI'⟩ := ih (fun t s ht => hbody t s (by omega)) (by omega) hI (by omega : hi - (lo + 1) = n)
    refine ⟨s', ?_, hI'⟩
    rw [forRangeM, show hi - (lo + 1) = n by omega] at h'
    rw [forRangeM, hn, List.range'_succ, List.foldlM_cons, h₁]
    exact h'

/-- The rule of the loop, for its results. -/
theorem forRangeM_ok {I : Nat → σ → Prop} {hi : Nat} {body : Nat → σ → Except ε σ} : ∀ {lo : Nat} {s s' : σ},
    (∀ t s s', lo ≤ t → t < hi → I t s → body t s = .ok s' → I (t + 1) s') → lo ≤ hi → I lo s →
      forRangeM lo hi body s = .ok s' → I hi s' := by
  intro lo s s' hbody hle h hrun
  induction hn : hi - lo generalizing lo s with
  | zero =>
    obtain rfl : lo = hi := by omega
    rw [forRangeM, hn] at hrun
    cases hrun
    exact h
  | succ n ih =>
    rw [forRangeM, hn, List.range'_succ, List.foldlM_cons] at hrun
    obtain ⟨s₁, hb, hrun⟩ := bind_ok hrun
    refine ih (fun t s s' ht => hbody t s s' (by omega)) (by omega) (hbody lo s s₁ (Nat.le_refl lo) (by omega) h hb)
      ?_ (by omega : hi - (lo + 1) = n)
    rw [forRangeM, show hi - (lo + 1) = n by omega]
    exact hrun

/-- The loop in two parts. -/
theorem forRangeM_split {lo mid hi : Nat} {body : Nat → σ → Except ε σ} {s s' : σ} (h1 : lo ≤ mid) (h2 : mid ≤ hi)
    (h : forRangeM lo hi body s = .ok s') :
    ∃ s₁, forRangeM lo mid body s = .ok s₁ ∧ forRangeM mid hi body s₁ = .ok s' := by
  rw [forRangeM, show hi - lo = mid - lo + (hi - mid) by omega, ← List.range'_append_1, List.foldlM_append,
    show lo + (mid - lo) = mid by omega] at h
  exact bind_ok h

/-- The first step of the loop. -/
theorem forRangeM_cons {lo hi : Nat} {body : Nat → σ → Except ε σ} {s : σ} (h : lo < hi) :
    forRangeM lo hi body s = body lo s >>= forRangeM (lo + 1) hi body := by
  rw [forRangeM, show hi - lo = (hi - (lo + 1)) + 1 by omega, List.range'_succ, List.foldlM_cons]
  rfl

theorem forRangeM_pure {lo hi : Nat} {body : Nat → σ → σ} {s : σ} :
    forRangeM lo hi (fun t s => (.ok (body t s) : Except ε σ)) s = .ok (forRange lo hi body s) := by
  rw [forRangeM, forRange]
  generalize List.range' lo (hi - lo) = l
  induction l generalizing s with
  | nil => rfl
  | cons t l ih => exact ih

/-- The rule of the loop. -/
theorem forRange_inv {I : Nat → σ → Prop} {lo hi : Nat} {body : Nat → σ → σ} {s : σ}
    (hbody : ∀ t s, lo ≤ t → t < hi → I t s → I (t + 1) (body t s)) (hle : lo ≤ hi) (h : I lo s) :
    I hi (forRange lo hi body s) := by
  obtain ⟨s', h', hI⟩ := @forRangeM_total σ Unit I hi _ lo s (fun t s h1 h2 h3 => ⟨_, rfl, hbody t s h1 h2 h3⟩) hle h
  rw [forRangeM_pure] at h'
  cases h'
  exact hI

/-! ## Steps until there is none -/

/-- Take steps until there is none, at most `n` of them. -/
def untilNone (step : σ → Option σ) : Nat → σ → σ
  | 0, s => s
  | n + 1, s =>
    match step s with
    | none => s
    | some s' => untilNone step n s'

variable {step : σ → Option σ}

theorem untilNone_inv (hstep : ∀ s s', I s → step s = some s' → I s') (n : Nat) (s : σ) (hI : I s) :
    I (untilNone step n s) := by
  induction n generalizing s with
  | zero => exact hI
  | succ n ih =>
    rw [untilNone]
    cases h : step s with
    | none => exact hI
    | some s' => exact ih s' (hstep s s' hI h)

theorem untilNone_none {μ : σ → Nat} (hI : ∀ s s', I s → step s = some s' → I s' ∧ μ s' < μ s) (n : Nat) (s : σ)
    (hs : I s) (hμ : μ s ≤ n) : step (untilNone step n s) = none := by
  induction n generalizing s with
  | zero =>
    cases h : step s with
    | none => exact h
    | some s' =>
      have := (hI s s' hs h).2
      omega
  | succ n ih =>
    rw [untilNone]
    cases h : step s with
    | none => exact h
    | some s' =>
      obtain ⟨h1, h2⟩ := hI s s' hs h
      exact ih s' h1 (by omega)

/-! ## Loops that are left by a `return` -/

section Return

variable {ρ : Type}

/-- `while (1)` around steps of which one returns, for at most `n` of them. -/
def untilReturn (step : σ → σ ⊕ ρ) : Nat → σ → Option ρ
  | 0, _ => none
  | n + 1, s =>
    match step s with
    | .inl s' => untilReturn step n s'
    | .inr r => some r

variable {step : σ → σ ⊕ ρ} {Q : ρ → Prop}

theorem untilReturn_inv (hstep : ∀ s s', I s → step s = .inl s' → I s') (hret : ∀ s r, I s → step s = .inr r → Q r) :
    ∀ {n : Nat} {s : σ} {r : ρ}, I s → untilReturn step n s = some r → Q r := by
  intro n s r hI h
  induction n generalizing s with
  | zero => cases h
  | succ n ih =>
    rw [untilReturn] at h
    cases hs : step s with
    | inl s' =>
      simp only [hs] at h
      exact ih (hstep s s' hI hs) h
    | inr r' =>
      simp only [hs, Option.some.injEq] at h
      exact h ▸ hret s r' hI hs

theorem untilReturn_unique {n m : Nat} {s : σ} {r r' : ρ} (h : untilReturn step n s = some r)
    (h' : untilReturn step m s = some r') : r = r' := by
  induction n generalizing m s with
  | zero => cases h
  | succ n ih =>
    cases m with
    | zero => cases h'
    | succ m =>
      rw [untilReturn] at h h'
      cases hs : step s with
      | inl s' =>
        simp only [hs] at h h'
        exact ih h h'
      | inr r₀ =>
        simp only [hs, Option.some.injEq] at h h'
        exact h.symm.trans h'

theorem untilReturn_some {μ : σ → Nat} (hI : ∀ s s', I s → step s = .inl s' → I s' ∧ μ s' < μ s) (n : Nat) (s : σ)
    (hs : I s) (hμ : μ s < n) : ∃ r, untilReturn step n s = some r := by
  induction n generalizing s with
  | zero => omega
  | succ n ih =>
    rw [untilReturn]
    cases h : step s with
    | inr r => exact ⟨r, rfl⟩
    | inl s' =>
      obtain ⟨h1, h2⟩ := hI s s' hs h
      exact ih s' h1 (by omega)

/-- The loop is never left, if no step returns while the invariant holds. -/
theorem untilReturn_none (hI : ∀ s, I s → ∃ s', step s = .inl s' ∧ I s') (n : Nat) {s : σ} (hs : I s) :
    untilReturn step n s = none := by
  induction n generalizing s with
  | zero => rfl
  | succ n ih =>
    obtain ⟨s', hstep, hs'⟩ := hI s hs
    rw [untilReturn, hstep]
    exact ih hs'

/-- Steps that do not return use up as much of the bound. -/
theorem untilReturn_chain {f : Nat → σ} {n : Nat} (h : ∀ k, k < n → step (f k) = .inl (f (k + 1))) (m : Nat) :
    untilReturn step (n + m) (f 0) = untilReturn step m (f n) := by
  induction n generalizing m with
  | zero => rw [Nat.zero_add]
  | succ n ih =>
    rw [Nat.add_right_comm, Nat.add_assoc, ih (fun k hk => h k (Nat.lt_succ_of_lt hk)), untilReturn,
      h n (Nat.lt_succ_self n)]

/-- A loop along a sequence of states ends when it comes to one whose step returns. -/
theorem untilReturn_ends {f : Nat → σ} (hf : ∀ k s', step (f k) = .inl s' → s' = f (k + 1)) {n : Nat} {r : ρ}
    (h : untilReturn step n (f 0) = some r) :
    ∃ k, (∀ j, j < k → step (f j) = .inl (f (j + 1))) ∧ step (f k) = .inr r := by
  induction n generalizing f with
  | zero => cases h
  | succ n ih =>
    rw [untilReturn] at h
    cases hs : step (f 0) with
    | inr r' =>
      simp only [hs, Option.some.injEq] at h
      exact ⟨0, fun j hj => absurd hj (Nat.not_lt_zero j), h ▸ hs⟩
    | inl s' =>
      simp only [hs] at h
      obtain rfl := hf 0 s' hs
      obtain ⟨k, hk, hret⟩ := @ih (fun j => f (j + 1)) (fun j s' => hf (j + 1) s') h
      refine ⟨k + 1, fun j hj => ?_, hret⟩
      cases j with
      | zero => exact hs
      | succ j => exact hk j (Nat.lt_of_succ_lt_succ hj)

end Return

/-! ## Loops over a list -/

section Fold

variable {α : Type} {f : σ → α → Except ε σ}

theorem foldlM_inv {l : List α} {s s' : σ} (hstep : ∀ a ∈ l, ∀ s s', I s → f s a = .ok s' → I s') (hI : I s)
    (h : l.foldlM f s = .ok s') : I s' := by
  induction l generalizing s with
  | nil =>
    rw [List.foldlM_nil] at h
    cases h
    exact hI
  | cons a l ih =>
    rw [List.foldlM_cons] at h
    obtain ⟨s₁, hf, h⟩ := bind_ok h
    exact ih (fun b hb => hstep b (List.mem_cons_of_mem _ hb)) (hstep a List.mem_cons_self s s₁ hI hf) h

theorem foldlM_forall {Q : α → σ → Prop} {l : List α} {s s' : σ}
    (hset : ∀ a ∈ l, ∀ s s', f s a = .ok s' → Q a s')
    (hkeep : ∀ a ∈ l, ∀ b ∈ l, ∀ s s', Q a s → f s b = .ok s' → Q a s')
    (h : l.foldlM f s = .ok s') : ∀ a ∈ l, Q a s' := by
  intro a ha
  obtain ⟨l₁, l₂, rfl⟩ := List.append_of_mem ha
  rw [List.foldlM_append] at h
  obtain ⟨s₁, -, h⟩ := bind_ok h
  rw [List.foldlM_cons] at h
  obtain ⟨s₂, h₂, h⟩ := bind_ok h
  refine @foldlM_inv σ ε (Q a) α f l₂ s₂ s' (fun b hb s s' => hkeep a ha b ?_ s s') (hset a ha s₁ s₂ h₂) h
  exact List.mem_append_right _ (List.mem_cons_of_mem _ hb)

theorem foldlM_total {l : List α} {s : σ} (hstep : ∀ a ∈ l, ∀ s, I s → ∃ s', f s a = .ok s' ∧ I s') (hI : I s) :
    ∃ s', l.foldlM f s = .ok s' ∧ I s' := by
  induction l generalizing s with
  | nil => exact ⟨s, rfl, hI⟩
  | cons a l ih =>
    obtain ⟨s₁, h₁, hI₁⟩ := hstep a List.mem_cons_self s hI
    obtain ⟨s', h', hI'⟩ := ih (fun b hb => hstep b (List.mem_cons_of_mem _ hb)) hI₁
    refine ⟨s', ?_, hI'⟩
    rw [List.foldlM_cons, h₁]
    exact h'

theorem foldlM_mem {l : List α} {s s' : σ} (h : l.foldlM f s = .ok s') {a : α} (ha : a ∈ l) :
    ∃ s₁ s₂, f s₁ a = .ok s₂ := by
  induction l generalizing s with
  | nil => exact absurd ha List.not_mem_nil
  | cons b l ih =>
    rw [List.foldlM_cons] at h
    obtain ⟨s₁, h₁, h₂⟩ := bind_ok h
    rcases List.mem_cons.mp ha with rfl | ha
    · exact ⟨s, s₁, h₁⟩
    · exact ih h₂ ha

/-- Bodies that do the same on the list. -/
theorem foldlM_congr {g : σ → α → Except ε σ} {l : List α} (h : ∀ a ∈ l, ∀ s, f s a = g s a) (s : σ) :
    l.foldlM f s = l.foldlM g s := by
  induction l generalizing s with
  | nil => rfl
  | cons a l ih =>
    rw [List.foldlM_cons, List.foldlM_cons, h a List.mem_cons_self]
    exact congrArg (g s a >>= ·) (funext (ih fun b hb => h b (List.mem_cons_of_mem a hb)))

/-- A body that does not fail on the list. -/
theorem mapM_ok {β : Type} {g : α → Except ε β} {f : α → β} {l : List α} (h : ∀ a ∈ l, g a = .ok (f a)) :
    l.mapM g = .ok (l.map f) := by
  induction l with
  | nil => rfl
  | cons a l ih =>
    obtain ⟨ha, hl⟩ := List.forall_mem_cons.mp h
    rw [List.mapM_cons, ha, ih hl]
    rfl

/-- The elements of a mapped list come from those of the list, in their order. -/
theorem mapM_getElem? {β : Type} {g : α → Except ε β} {l : List α} {r : List β} (h : l.mapM g = .ok r) :
    r.length = l.length ∧ ∀ (i : Nat) (b : β), r[i]? = some b → ∃ a, l[i]? = some a ∧ g a = .ok b := by
  induction l generalizing r with
  | nil =>
    rw [List.mapM_nil] at h
    cases h
    exact ⟨rfl, fun i b hb => by cases hb⟩
  | cons a l ih =>
    rw [List.mapM_cons] at h
    obtain ⟨b, ha, h⟩ := bind_ok h
    obtain ⟨r', hl, h⟩ := bind_ok h
    cases h
    obtain ⟨hlen, hget⟩ := ih hl
    refine ⟨congrArg (· + 1) hlen, fun i c hc => ?_⟩
    cases i with
    | zero => exact ⟨a, rfl, ha.trans (congrArg _ (Option.some.inj hc))⟩
    | succ i => exact hget i c hc

/-- A loop that ends with the first element for which there is a result. -/
theorem findSomeM?_total {β : Type} {g : α → Except ε (Option β)} {P : α → Prop} {Q : β → Prop} {l : List α}
    (h : ∀ a ∈ l, g a = .ok none ∧ P a ∨ ∃ b, g a = .ok (some b) ∧ Q b) :
    (l.findSomeM? g = .ok none ∧ ∀ a ∈ l, P a) ∨ ∃ b, l.findSomeM? g = .ok (some b) ∧ Q b := by
  induction l with
  | nil => exact .inl ⟨rfl, fun a ha => absurd ha List.not_mem_nil⟩
  | cons a l ih =>
    obtain ⟨ha, hl⟩ := List.forall_mem_cons.mp h
    rw [List.findSomeM?_cons]
    rcases ha with ⟨hnone, hP⟩ | ⟨b, hsome, hQ⟩
    · rw [hnone]
      refine (ih hl).imp_left ?_
      rintro ⟨h1, h2⟩
      exact ⟨h1, List.forall_mem_cons.mpr ⟨hP, h2⟩⟩
    · rw [hsome]
      exact .inr ⟨b, rfl, hQ⟩

/-- The result of such a loop is one of its body. -/
theorem findSomeM?_some {β : Type} {g : α → Except ε (Option β)} {l : List α} {b : β}
    (h : l.findSomeM? g = .ok (some b)) : ∃ a ∈ l, g a = .ok (some b) := by
  induction l with
  | nil => cases h
  | cons a l ih =>
    rw [List.findSomeM?_cons] at h
    obtain ⟨r, ha, h⟩ := bind_ok h
    cases r with
    | none =>
      obtain ⟨c, hc, hg⟩ := ih h
      exact ⟨c, List.mem_cons_of_mem a hc, hg⟩
    | some b' =>
      cases h
      exact ⟨a, List.mem_cons_self, ha⟩

/-- A loop that only checks. -/
theorem forM_ok_iff {g : α → Except ε PUnit} {l : List α} : l.forM g = .ok ⟨⟩ ↔ ∀ a ∈ l, g a = .ok ⟨⟩ := by
  induction l with
  | nil => exact ⟨fun _ a ha => absurd ha List.not_mem_nil, fun _ => rfl⟩
  | cons a l ih =>
    rw [List.forall_mem_cons, ← ih]
    change (g a >>= fun _ => l.forM g) = _ ↔ _
    cases g a with
    | error e => exact ⟨fun h => (by cases h), fun h => (by cases h.1)⟩
    | ok u => exact ⟨fun h => ⟨rfl, h⟩, fun h => h.2⟩

/-- A loop that ends with the first element for which there is a result is as the body is for the first element with a
result, if those without are known. -/
theorem findSomeM?_eq {β : Type} {g : α → Except ε (Option β)} {p : α → Bool} (hp : ∀ a, g a = .ok none ↔ p a = false)
    (l : List α) : l.findSomeM? g = match l.find? p with | some a => g a | none => .ok none := by
  induction l with
  | nil => rfl
  | cons a l ih =>
    rw [List.findSomeM?_cons, List.find?_cons]
    cases ha : p a with
    | false =>
      rw [(hp a).mpr ha]
      exact ih
    | true =>
      have hne : g a ≠ .ok none := fun h => Bool.false_ne_true (((hp a).mp h).symm.trans ha)
      change _ = g a
      cases hg : g a with
      | error e => rfl
      | ok b =>
        cases b with
        | none => exact absurd hg hne
        | some b => rfl

end Fold

/-! ## Kinds of errors -/

section Errors

variable {α β : Type} {P : ε → Prop}

/-- A computation that fails only with errors of `P`. -/
def ErrorsIn (P : ε → Prop) (x : Except ε α) : Prop := ∀ e, x = .error e → P e

theorem errorsIn_ok {a : α} : ErrorsIn P (.ok a : Except ε α) := fun e h => by cases h

theorem errorsIn_error {e : ε} : ErrorsIn P (.error e : Except ε α) ↔ P e := by
  refine ⟨fun h => h e rfl, fun h e' he => ?_⟩
  cases he
  exact h

theorem errorsIn_bind {x : Except ε α} {f : α → Except ε β} :
    ErrorsIn P (x >>= f) ↔ ErrorsIn P x ∧ ∀ a, x = .ok a → ErrorsIn P (f a) := by
  cases x with
  | error e =>
    refine ⟨fun h => ⟨errorsIn_error.mpr (errorsIn_error.mp h), fun a ha => by cases ha⟩, fun h => ?_⟩
    exact errorsIn_error.mpr (errorsIn_error.mp h.1)
  | ok a =>
    refine ⟨fun h => ⟨errorsIn_ok, fun b hb => ?_⟩, fun h => h.2 a rfl⟩
    cases hb
    exact h

/-- A loop fails only so, if its body does for each element that it comes to. -/
theorem errorsIn_foldlM {f : σ → α → Except ε σ} {l : List α} {s : σ} :
    ErrorsIn P (l.foldlM f s) ↔
      ∀ pre a post s', l = pre ++ a :: post → pre.foldlM f s = .ok s' → ErrorsIn P (f s' a) := by
  induction l generalizing s with
  | nil => exact ⟨fun _ pre a post s' hl => absurd hl (by simp), fun _ => errorsIn_ok⟩
  | cons b l ih =>
    rw [List.foldlM_cons, errorsIn_bind]
    constructor
    · rintro ⟨hb, hl⟩ pre a post s' heq hpre
      cases pre with
      | nil =>
        cases heq
        cases hpre
        exact hb
      | cons c pre =>
        cases heq
        rw [List.foldlM_cons] at hpre
        obtain ⟨s₁, h₁, hpre⟩ := bind_ok hpre
        exact ih.mp (hl s₁ h₁) pre a post s' rfl hpre
    · intro h
      refine ⟨h [] b l s rfl rfl, fun s₁ h₁ => ih.mpr fun pre a post s' heq hpre => ?_⟩
      refine h (b :: pre) a post s' (congrArg _ heq) ?_
      rw [List.foldlM_cons, h₁]
      exact hpre

end Errors

/-! ## Results and errors at once -/

section Post

variable {α β : Type} {P : ε → Prop} {Q : α → Prop}

/-- The result is in `Q`, or the error is in `P`. -/
def Post (Q : α → Prop) (P : ε → Prop) : Except ε α → Prop
  | .ok a => Q a
  | .error e => P e

theorem Post.ok {x : Except ε α} {a : α} (h : Post Q P x) (hx : x = .ok a) : Q a := by
  rw [hx] at h
  exact h

theorem Post.error {x : Except ε α} {e : ε} (h : Post Q P x) (hx : x = .error e) : P e := by
  rw [hx] at h
  exact h

theorem post_of {x : Except ε α} (hok : ∀ a, x = .ok a → Q a) (herr : ∀ e, x = .error e → P e) : Post Q P x := by
  cases x with
  | error e => exact herr e rfl
  | ok a => exact hok a rfl

theorem Post.mono {Q' : α → Prop} {x : Except ε α} (h : Post Q P x) (hQ : ∀ a, Q a → Q' a) : Post Q' P x := by
  cases x with
  | error e => exact h
  | ok a => exact hQ a h

theorem post_bind {R : β → Prop} {x : Except ε α} {f : α → Except ε β} (hx : Post Q P x)
    (hf : ∀ a, Q a → Post R P (f a)) : Post R P (x >>= f) := by
  cases x with
  | error e => exact hx
  | ok a => exact hf a hx

/-- The rule of a loop over a range. -/
theorem post_forRangeM {I : Nat → σ → Prop} {hi : Nat} {body : Nat → σ → Except ε σ} : ∀ {lo : Nat} {s : σ},
    (∀ t s, lo ≤ t → t < hi → I t s → Post (I (t + 1)) P (body t s)) → lo ≤ hi → I lo s →
      Post (I hi) P (forRangeM lo hi body s) := by
  intro lo s hbody hle h
  induction hn : hi - lo generalizing lo s with
  | zero =>
    obtain rfl : lo = hi := by omega
    rw [forRangeM, hn]
    exact h
  | succ n ih =>
    rw [forRangeM_cons (by omega)]
    refine post_bind (hbody lo s (Nat.le_refl lo) (by omega) h) fun s₁ h₁ => ?_
    exact ih (fun t s ht => hbody t s (by omega)) (by omega) h₁ (by omega)

/-- The rule of a loop over a list, with an invariant that depends on what is done. -/
theorem post_foldlM {I : List α → σ → Prop} {f : σ → α → Except ε σ} {l : List α} {s : σ}
    (hstep : ∀ pre a post s, l = pre ++ a :: post → I pre s → Post (I (pre ++ [a])) P (f s a)) (h : I [] s) :
    Post (I l) P (l.foldlM f s) := by
  induction l generalizing I s with
  | nil => exact h
  | cons a l ih =>
    rw [List.foldlM_cons]
    refine post_bind (hstep [] a l s rfl h) fun s₁ h₁ => ?_
    refine ih (I := fun pre => I (a :: pre)) (fun pre b post s heq => ?_) h₁
    exact hstep (a :: pre) b post s (congrArg _ heq)

end Post

theorem flatMap_mapM {m : Type → Type} [Monad m] [LawfulMonad m] {α β γ δ : Type} {f : m β} {g : β → List γ}
    {ys : List α} {h : α → m γ} (hf : g <$> f = ys.mapM h) (l : List δ) :
    List.flatMap g <$> l.mapM (fun _ => f) = (List.replicate l.length ys).flatten.mapM h := by
  induction l with
  | nil => simp
  | cons _ l ih =>
    rw [List.length_cons, List.replicate_succ, List.flatten_cons, List.mapM_append, ← hf, ← ih, List.mapM_cons]
    simp only [map_eq_pure_bind, bind_assoc, pure_bind, List.flatMap_cons]

section StateT

variable {α β σ : Type} {f : StateT σ Option α} {g : α → StateT σ Option β} {a : α} {s s' : σ}

theorem pure_apply : (pure a : StateT σ Option α) s = some (a, s) := rfl

theorem bind_apply (h : f s = some (a, s')) : (f >>= g) s = g a s' := by
  change (f s).bind _ = _
  rw [h]
  rfl

theorem bind_apply_iff {r : β × σ} : (f >>= g) s = some r ↔ ∃ a s', f s = some (a, s') ∧ g a s' = some r := by
  change (f s).bind _ = _ ↔ _
  rw [Option.bind_eq_some_iff, Prod.exists]

end StateT

theorem mapM_some {α β σ : Type} {f : α → StateT σ Option β} {P : β → Prop}
    (hf : ∀ a s b s', f a s = some (b, s') → P b) {l : List α} {s s' : σ} {bs : List β}
    (h : l.mapM f s = some (bs, s')) : bs.length = l.length ∧ ∀ b ∈ bs, P b := by
  induction l generalizing s bs with
  | nil =>
    rw [List.mapM_nil] at h
    cases h
    exact ⟨rfl, fun _ hb => (List.not_mem_nil hb).elim⟩
  | cons a l ih =>
    simp only [List.mapM_cons, bind_apply_iff, pure_apply] at h
    obtain ⟨b, s₁, hb, bs', s₂, hbs, heq⟩ := h
    cases heq
    obtain ⟨hlength, hP⟩ := ih hbs
    exact ⟨congrArg (· + 1) hlength, List.forall_mem_cons.2 ⟨hf a s b s₁ hb, hP⟩⟩

end Loop
