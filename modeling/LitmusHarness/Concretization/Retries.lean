import LitmusHarness.Concretization.Batch

/-!
# The retries of a batch with fixed addresses

`concretize_fixed_one` gives every run the addresses of the run index 0. So the second run of a batch is, physically,
where the first one is, for each of its variables, and so it is after every retry: the retries of
`concretize_batch` never end (`concretizeRun_fixed_second`). A batch returns if and only if it has no second run, or is
rejected for a variable without a type (`concretizeBatch_fixed_terminates_iff`).
-/

namespace LitmusHarness

section Fixed

variable {σ : Type} {rand : σ → U64 × σ} {ctx : BatchCtx} {start last n run : Nat} {s s' : BatchState σ}

/-! ## One concretization -/

/-- One variable gets the address that it has at the index 0, which stays as it is. -/
theorem setValue_fixed (s : BatchState σ) (w run v : Nat) :
    (s.setValue w run (s.values w 0)).values v 0 = s.values v 0 ∧
      (w = v ∨ s.values v run = s.values v 0 → (s.setValue w run (s.values w 0)).values v run = s.values v 0) := by
  unfold BatchState.setValue
  dsimp only
  constructor
  · split
    · rename_i h
      rw [h.1]
    · rfl
  · intro h
    split
    · rename_i hv
      rw [hv.1]
    · rename_i hv
      exact h.resolve_left fun heq => hv ⟨heq.symm, rfl⟩

/-- The addresses that are stored are those of the index 0, which keeps them. -/
theorem concretizeFixedOne_values {infos : List VarInfo} : ∀ {s : BatchState σ} (v : Nat),
    (concretizeFixedOne infos run s).values v 0 = s.values v 0 ∧
      ((∃ var ∈ infos, var.varidx = v) ∨ s.values v run = s.values v 0 →
        (concretizeFixedOne infos run s).values v run = s.values v 0) := by
  induction infos with
  | nil =>
    intro s v
    refine ⟨rfl, fun h => h.resolve_left ?_⟩
    rintro ⟨var, hvar, -⟩
    exact List.not_mem_nil hvar
  | cons var infos ih =>
    intro s v
    obtain ⟨h0, hset⟩ := setValue_fixed s var.varidx run v
    obtain ⟨h0', hrun⟩ := @ih (s.setValue var.varidx run (s.values var.varidx 0)) v
    refine ⟨h0'.trans h0, fun h => (hrun ?_).trans h0⟩
    rw [h0]
    rcases h with ⟨w, hw, heq⟩ | heq
    · rcases List.mem_cons.mp hw with rfl | hw
      · exact .inr (hset (.inl heq))
      · exact .inl ⟨w, hw, heq⟩
    · exact .inr (hset (.inr heq))

theorem concretizationPrecheck_ok_iff {infos : List VarInfo} :
    concretizationPrecheck infos = .ok () ↔ ∀ v ∈ infos, v.ty ≠ .notSet := by
  unfold concretizationPrecheck
  rw [Loop.forM_ok_iff]
  refine forall_congr' fun v => forall_congr' fun _ => ?_
  split <;> simp_all

theorem concretizationPrecheck_error {infos : List VarInfo} (h : ∃ v ∈ infos, v.ty = .notSet) :
    concretizationPrecheck infos = .error .notset := by
  unfold concretizationPrecheck
  induction infos with
  | nil => exact absurd h (by simp)
  | cons var infos ih =>
    change ((if var.ty = .notSet then Except.error BatchFail.notset else Except.ok ()) >>= fun _ => infos.forM _) = _
    by_cases hty : var.ty = .notSet
    · rw [if_pos hty]
      rfl
    · rw [if_neg hty]
      obtain ⟨v, hv, hvty⟩ := h
      rcases List.mem_cons.mp hv with rfl | hv
      · exact absurd hvty hty
      · exact ih ⟨v, hv, hvty⟩

theorem concretizeOne_fixed (hset : ∀ v ∈ ctx.infos, v.ty ≠ .notSet) :
    concretizeOne rand ctx .fixed n run s = .ok (concretizeFixedOne ctx.infos run s) := by
  unfold concretizeOne
  rw [concretizationPrecheck_ok_iff.mpr hset]

/-! ## The runs of a batch -/

/-- The first run overlaps with nothing. -/
theorem concretizeRun_fixed_first (hset : ∀ v ∈ ctx.infos, v.ty ≠ .notSet) :
    concretizeRun rand ctx .fixed (n + 1) start start s =
      .ok (concretizeFixedOne ctx.infos (countToRunIndex ctx start) s) := by
  have hnone : overlapsEarlier ctx start start (concretizeFixedOne ctx.infos (countToRunIndex ctx start) s) = false := by
    rw [overlapsEarlier, Nat.sub_self]
    rfl
  unfold concretizeRun
  rw [Loop.untilReturn, batchAttempt, concretizeOne_fixed hset]
  simp only [hnone, Bool.false_eq_true, if_false, Option.getD_some]

/-- A run of a test with a variable without a type fails in its first attempt. -/
theorem concretizeRun_notset {type : ConcretizeType} (h : ∃ v ∈ ctx.infos, v.ty = .notSet) :
    concretizeRun rand ctx type (n + 1) start run s = .error .notset := by
  unfold concretizeRun
  have hone : concretizeOne rand ctx type (n + 1) (countToRunIndex ctx run) s = .error .notset := by
    unfold concretizeOne
    rw [concretizationPrecheck_error h]
  rw [Loop.untilReturn, batchAttempt, hone]
  rfl

/-- The variable has the address of the index 0 at the index of the first run. -/
def FirstFixed (ctx : BatchCtx) (start : Nat) (var : VarInfo) (s : BatchState σ) : Prop :=
  s.values var.varidx (countToRunIndex ctx start) = s.values var.varidx 0

/-- **The second run is retried for ever.** -/
theorem concretizeRun_fixed_second {var : VarInfo} (hvar : var ∈ ctx.infos) (hset : ∀ v ∈ ctx.infos, v.ty ≠ .notSet)
    (h : FirstFixed ctx start var s) : concretizeRun rand ctx .fixed n start (start + 1) s = .error .retries := by
  unfold concretizeRun
  rw [Loop.untilReturn_none (I := FirstFixed ctx start var) ?_ n h]
  · rfl
  · intro s hs
    obtain ⟨h0, hrun⟩ := @concretizeFixedOne_values σ (countToRunIndex ctx (start + 1)) ctx.infos s var.varidx
    have hsecond := hrun (.inl ⟨var, hvar, rfl⟩)
    generalize hs' : concretizeFixedOne ctx.infos (countToRunIndex ctx (start + 1)) s = s' at h0 hrun hsecond
    have hone : concretizeOne rand ctx .fixed n (countToRunIndex ctx (start + 1)) s = .ok s' := by
      rw [concretizeOne_fixed hset, hs']
    -- the first run keeps its address
    have hfirst : s'.values var.varidx (countToRunIndex ctx start) = s.values var.varidx 0 := by
      by_cases hix : countToRunIndex ctx start = countToRunIndex ctx (start + 1)
      · rw [hix, hsecond]
      · exact (concretizeOne_frame hone _ _ hix).trans hs
    have hover : overlapsEarlier ctx start (start + 1) s' = true := by
      have hrun : overlapsRun ctx s' (countToRunIndex ctx (start + 1)) (countToRunIndex ctx start) = true := by
        unfold overlapsRun ctxHeapVarVa
        refine List.any_eq_true.mpr ⟨var, hvar, List.any_eq_true.mpr ⟨var, hvar, ?_⟩⟩
        rw [hfirst, hsecond]
        exact decide_eq_true rfl
      unfold overlapsEarlier
      refine List.any_eq_true.mpr ⟨start, ?_, hrun⟩
      rw [Nat.add_sub_cancel_left]
      exact List.mem_singleton.mpr rfl
    refine ⟨s', ?_, hfirst.trans h0.symm⟩
    rw [batchAttempt, hone]
    simp only [hover, if_true]

/-- A batch with two runs is retried for ever. -/
theorem concretizeBatch_fixed_retries (hvars : ctx.infos ≠ []) (hset : ∀ v ∈ ctx.infos, v.ty ≠ .notSet)
    (hlast : start + 2 ≤ last) : concretizeBatch rand ctx .fixed n start last s = .error .retries := by
  obtain ⟨var, hvar⟩ := List.exists_mem_of_ne_nil _ hvars
  rw [concretizeBatch, Loop.forRangeM_cons (by omega)]
  cases n with
  | zero => rfl
  | succ n =>
    rw [concretizeRun_fixed_first hset]
    have hfirst : FirstFixed ctx start var (concretizeFixedOne ctx.infos (countToRunIndex ctx start) s) := by
      obtain ⟨h0, hrun⟩ := @concretizeFixedOne_values σ (countToRunIndex ctx start) ctx.infos s var.varidx
      exact (hrun (.inl ⟨var, hvar, rfl⟩)).trans h0.symm
    show Loop.forRangeM (start + 1) last _ _ = _
    rw [Loop.forRangeM_cons (by omega), concretizeRun_fixed_second hvar hset hfirst]
    rfl

/-- **When a batch with fixed addresses returns or fails**: it has at most one run, or a variable has no type. -/
theorem concretizeBatch_fixed_terminates_iff (hvars : ctx.infos ≠ []) (start last : Nat) (s : BatchState σ) :
    (∃ n, concretizeBatch rand ctx .fixed n start last s ≠ .error .retries) ↔
      last ≤ start + 1 ∨ ∃ v ∈ ctx.infos, v.ty = .notSet := by
  constructor
  · rintro ⟨n, hn⟩
    by_contra hno
    rw [not_or, Nat.not_le] at hno
    exact hn (concretizeBatch_fixed_retries hvars (fun v hv hty => hno.2 ⟨v, hv, hty⟩) hno.1)
  · intro h
    refine ⟨1, ?_⟩
    rcases Nat.lt_or_ge start last with hlt | hle
    · rw [concretizeBatch, Loop.forRangeM_cons hlt]
      by_cases hty : ∃ v ∈ ctx.infos, v.ty = .notSet
      · rw [concretizeRun_notset (n := 0) hty]
        exact fun heq => by cases heq
      · -- one run
        rw [concretizeRun_fixed_first (n := 0) fun v hv hv' => hty ⟨v, hv, hv'⟩]
        show Loop.forRangeM (start + 1) last _ _ ≠ _
        rw [Loop.forRangeM, Nat.sub_eq_zero_of_le (h.resolve_right hty)]
        exact fun heq => by cases heq
    · rw [concretizeBatch, Loop.forRangeM, Nat.sub_eq_zero_of_le hle]
      exact fun heq => by cases heq

end Fixed

/-- Two runs of a test with two variables. -/
def twoRuns : BatchCtx where
  platform := exampleTestdata
  enablePgtable := true
  shuffleType := .none
  infos := [{ varidx := 0, name := "x", ty := .heap { val := 0, isIdentityMapped := false } .page },
    { varidx := 1, name := "y", ty := .heap { val := 0, isIdentityMapped := false } .page }]
  order := (initRunOrder randn 2 1).1

/-- The addresses of `twoRuns` at the index 0, as `concretized_fixed_init` picks them. -/
def twoAddresses : Except BatchFail (BatchState U64) :=
  concretizeOne randn twoRuns .random 1 0 ⟨fun _ _ => 0, fun _ => {}, 1⟩

/-- One run of them is concretized. -/
theorem concretizeBatch_fixed_terminates_iff_twoRuns : twoRuns.infos ≠ [] ∧
    ∃ n, concretizeBatch randn twoRuns .fixed n 0 1 ⟨fun _ _ => 0, fun _ => {}, 1⟩ ≠ .error .retries := by
  have hvars : twoRuns.infos ≠ [] := by decide
  exact ⟨hvars, (concretizeBatch_fixed_terminates_iff hvars 0 1 _).mpr (.inl (by decide))⟩

/-- Both together are not, although the two variables have different addresses. -/
theorem concretizeBatch_fixed_twoRuns :
    ∃ s, twoAddresses = .ok s ∧ s.values 0 0 ≠ s.values 1 0 ∧
      ∀ n, concretizeBatch randn twoRuns .fixed n 0 2 s = .error .retries :=
  ⟨_, rfl, by decide, fun _ => concretizeBatch_fixed_retries (by decide) (by decide) (by decide)⟩

end LitmusHarness
