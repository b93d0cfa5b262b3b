import LitmusHarness.Concretization.Random
import Mathlib.Data.List.Nodup
import Mathlib.Logic.Relation

/-!
# Batches: `concretize_batch`

The runs of a batch are concretized one after the other. The addresses of a run are picked again as long as one of its
variables is, physically, where a variable of an earlier run of the batch is. The runs are counted in a shuffled order:
`countToRunIndex` takes a count to the index at which the addresses of the run are stored.

- the shuffled order is a permutation (`shuffle_perm`), so no two counts share an index (`countToRunIndex_inj`);
- one concretization changes the addresses at its own index only (`concretizeOne_frame`);
- all runs of a batch that returns are apart, and the retries of a run change no earlier one
  (`concretizeBatch_separate`).
-/

namespace LitmusHarness

/-! ## The order of the runs -/

section Shuffle

variable {α σ : Type} (rand : σ → U64 × σ)

/-- The body of the loop of `shuffle`: two elements are swapped. -/
def shuffleStep (acc : List α × σ) : List α × σ :=
  let n := acc.1.length
  let (r, s) := rand acc.2
  let x := r.toNat % n
  let (r, s) := rand s
  let y := r.toNat % n
  match acc.1[x]?, acc.1[y]? with
  | some a, some b => ((acc.1.set x b).set y a, s)
  | _, _ => (acc.1, s)

/-- `shuffle`. -/
def shuffle (arr : List α) (s : σ) : List α × σ :=
  Loop.forRange 0 arr.length (fun _ acc => shuffleStep rand acc) (arr, s)

theorem shuffleStep_perm (acc : List α × σ) : (shuffleStep rand acc).1.Perm acc.1 := by
  unfold shuffleStep
  dsimp only
  split
  · rename_i a b ha hb
    obtain ⟨hx, rfl⟩ := List.getElem?_eq_some_iff.mp ha
    obtain ⟨hy, rfl⟩ := List.getElem?_eq_some_iff.mp hb
    exact List.set_set_perm hx hy
  · exact .refl _

/-- **The shuffled array is a permutation.** -/
theorem shuffle_perm (arr : List α) (s : σ) : (shuffle rand arr s).1.Perm arr :=
  Loop.forRange_inv (I := fun _ acc => acc.1.Perm arr) (fun _ acc _ _ h => (shuffleStep_perm rand acc).trans h)
    (Nat.zero_le _) (.refl _)

end Shuffle

/-- The runs of a test context with `shuffled_ixs`. -/
structure RunOrder where
  noRuns : Nat
  shuffledIxs : List Nat
  perm : shuffledIxs.Perm (List.range noRuns)

/-- The loop of `init_test_ctx` that fills `shuffled_ixs`, and the shuffle after it. -/
def initRunOrder {σ : Type} (rand : σ → U64 × σ) (noRuns : Nat) (s : σ) : RunOrder × σ :=
  (⟨noRuns, (shuffle rand (List.range noRuns) s).1, shuffle_perm rand _ s⟩, (shuffle rand (List.range noRuns) s).2)

/-- `shuffle_type_t`. -/
inductive ShuffleType
  | none
  | rand
  deriving DecidableEq, Repr

/-- `concretize_type_t`. -/
inductive ConcretizeType
  | linear
  | random
  | fixed
  deriving DecidableEq, Repr

/-- What `concretize_batch` reads of the options and of the test context. -/
structure BatchCtx where
  platform : Platform
  enablePgtable : Bool
  shuffleType : ShuffleType
  infos : List VarInfo
  order : RunOrder

/-- `count_to_run_index`. -/
def countToRunIndex (ctx : BatchCtx) (i : Nat) : Nat :=
  match ctx.shuffleType with
  | .none => i
  | .rand => ctx.order.shuffledIxs.getD i 0

/-- **Different runs have different indices.** -/
theorem countToRunIndex_inj {ctx : BatchCtx} {r r' : Nat} (hr : r < ctx.order.noRuns) (hr' : r' < ctx.order.noRuns)
    (h : countToRunIndex ctx r = countToRunIndex ctx r') : r = r' := by
  have hlen : ctx.order.shuffledIxs.length = ctx.order.noRuns := by
    rw [ctx.order.perm.length_eq, List.length_range]
  have hnodup : ctx.order.shuffledIxs.Nodup := ctx.order.perm.nodup_iff.mpr List.nodup_range
  unfold countToRunIndex at h
  split at h
  · exact h
  · rw [List.getD_eq_getElem _ _ (hlen ▸ hr), List.getD_eq_getElem _ _ (hlen ▸ hr')] at h
    exact (List.Nodup.getElem_inj_iff hnodup).mp h

/-! ## One run -/

/-- How the concretization of a batch stops without a result. -/
inductive BatchFail
  | notset
  | linear
  | physRegion
  | random (e : ConcretizeFail)
  /-- The bound on the number of retries; the source has none. -/
  | retries
  deriving DecidableEq, Repr

/-- The texts of the failures. -/
def BatchFail.msg : BatchFail → String
  | .notset => "cannot concretize a NOTSET variable\n"
  | .linear => "! concretize: cannot concretize_one with concretization=linear\n"
  | .physRegion => "cannot get the physical address of a location that does not own some physical memory\n"
  | .random e => e.msg
  | .retries => ""

/-- What a concretization changes: the addresses, by variable and run index, the state of the random selection and
that of the generator. -/
structure BatchState (σ : Type) where
  values : Nat → Nat → U64
  st : ConcretizationSt
  seed : σ

section Batch

variable {σ : Type} (rand : σ → U64 × σ)

/-- `values[run] = va` for one variable. -/
def BatchState.setValue (s : BatchState σ) (v run : Nat) (va : U64) : BatchState σ :=
  { s with values := fun w i => if w = v ∧ i = run then va else s.values w i }

/-- `ctx_heap_var_va`. -/
def ctxHeapVarVa (s : BatchState σ) (varidx i : Nat) : U64 := s.values varidx i

/-- `var_owns_phys_region`. -/
def VarInfo.ownsPhysRegion (v : VarInfo) : Bool :=
  match v.ty with
  | .heap _ _ | .fixed _ => true
  | _ => false

/-- `var_testdata_pa`. -/
def varTestdataPa (ctx : BatchCtx) (vinfo : VarInfo) (va : U64) : Except BatchFail U64 :=
  if !vinfo.ownsPhysRegion then .error .physRegion
  else
    let pg :=
      match vinfo.ty with
      | .fixed phys => phys &&& ~~~bitmask 12
      | _ => if ctx.enablePgtable then safeTestdataPa ctx.platform va &&& ~~~bitmask 12 else va &&& ~~~bitmask 12
    .ok (pg ||| (va &&& bitmask 12))

/-- `concretization_precheck`. -/
def concretizationPrecheck (infos : List VarInfo) : Except BatchFail Unit :=
  infos.forM fun var => if var.ty = .notSet then .error .notset else .ok ()

/-! ### The selection, with page tables or without -/

/-- `regions[i]`, set by `initialize_regions`. -/
def BatchCtx.regions (ctx : BatchCtx) (i : U64) : U64 :=
  if ctx.enablePgtable then testdataMmap8MVaFromIndex i else testdataMmap8MPaFromIndex ctx.platform i

/-- `va_from_region_idx`. -/
def BatchCtx.vaFromRegionIdx (ctx : BatchCtx) (var : VarInfo) (idx : RegionIdx) : U64 :=
  let va := ctx.regions idx.regIx + idx.regOffs
  if ctx.enablePgtable && var.isIdentityMapped then virtToPhys ctx.platform va else va

/-- `try_pick_one_offset`. -/
def BatchCtx.tryPickOneOffset (ctx : BatchCtx) (st : ConcretizationSt) (var : VarInfo) : Option ConcretizationSt :=
  let pick := fun vaIdx => setOffset st var.varidx vaIdx (ctx.vaFromRegionIdx var vaIdx)
  let vaIdx := (st var.varidx).partialVa
  match var.initAttrs.regionOffset with
  | none => some (pick vaIdx)
  | some o =>
    if (st o.offsetVar).pickedOffset then
      some (pick (offsetRegionIdx ctx.platform vaIdx o.offsetLevel (st o.offsetVar).va))
    else none

/-- The loop over `picked_offset`. -/
def BatchCtx.pickOffsets (ctx : BatchCtx) (st : ConcretizationSt) : ConcretizationSt :=
  Loop.untilNone
    (fun st => ctx.infos.findSome? fun var => if (st var.varidx).pickedOffset then none else ctx.tryPickOneOffset st var)
    ctx.infos.length st

/-- One attempt of `concretize_random_one`, up to the validation. -/
def BatchCtx.concretizeAttempt (ctx : BatchCtx) (st : ConcretizationSt) (s : σ) :
    Except ConcretizeFail (ConcretizationSt × σ) :=
  match pickAllRegions rand ctx.platform ctx.infos (resetSt st, s) with
  | .error e => .error e
  | .ok (st, s) =>
    match ctx.infos.find? fun var => !(st var.varidx).pickedRegion with
    | some var => .error (.region var.name)
    | none =>
      let st := ctx.pickOffsets st
      match ctx.infos.find? fun var => !(st var.varidx).pickedOffset with
      | some var => .error (.offset var.name)
      | none => .ok (st, s)

/-- The loop over the attempts in `concretize_random_one`, with the state that it leaves for the next run. -/
def BatchCtx.concretizeLoop (ctx : BatchCtx) : Nat → ConcretizationSt → σ → Except ConcretizeFail (ConcretizationSt × σ)
  | 0, _, _ => .error .attempts
  | n + 1, st, s =>
    match ctx.concretizeAttempt rand st s with
    | .error e => .error e
    | .ok (st, s) =>
      if ctx.infos.all (validateSelection ctx.platform ctx.infos fun v => (st v).va) then .ok (st, s)
      else ctx.concretizeLoop n st s

theorem BatchCtx.concretizeAttempt_eq {ctx : BatchCtx} (h : ctx.enablePgtable = true) :
    ctx.concretizeAttempt rand = LitmusHarness.concretizeAttempt rand ctx.platform ctx.infos := by
  have hva : ctx.vaFromRegionIdx = LitmusHarness.vaFromRegionIdx ctx.platform := by
    funext var idx
    simp [BatchCtx.vaFromRegionIdx, BatchCtx.regions, LitmusHarness.vaFromRegionIdx, h]
  have hpick : ctx.pickOffsets = LitmusHarness.pickOffsets ctx.platform ctx.infos := by
    funext st
    unfold BatchCtx.pickOffsets BatchCtx.tryPickOneOffset
    rw [hva]
    rfl
  funext st s
  unfold BatchCtx.concretizeAttempt
  rw [hpick]
  rfl

/-- **With page tables, the loop computes what `concretizeRandomOne` does.** -/
theorem BatchCtx.concretizeLoop_eq {ctx : BatchCtx} (h : ctx.enablePgtable = true) :
    ∀ (n : Nat) (st : ConcretizationSt) (s : σ), concretizeRandomOne rand ctx.platform ctx.infos n st s =
      (ctx.concretizeLoop rand n st s).map fun r => (fun v => (r.1 v).va, r.2) := by
  intro n st s
  induction n generalizing st s with
  | zero => rfl
  | succ n ih =>
    rw [concretizeRandomOne, BatchCtx.concretizeLoop, BatchCtx.concretizeAttempt_eq rand h]
    cases LitmusHarness.concretizeAttempt rand ctx.platform ctx.infos st s with
    | error e => rfl
    | ok r =>
      dsimp only
      split
      · rfl
      · exact ih r.1 r.2

/-! ### Storing the addresses -/

/-- The last loop of `concretize_random_one`: the address of one variable is stored. -/
def storeVa (ctx : BatchCtx) (run : Nat) (s : BatchState σ) (var : VarInfo) : Except BatchFail (BatchState σ) :=
  let va := (s.st var.varidx).va
  if ctx.enablePgtable then .ok (s.setValue var.varidx run va)
  else
    match varTestdataPa ctx var va with
    | .error e => .error e
    | .ok pa =>
      .ok ({ s with st := setVarSt s.st var.varidx { s.st var.varidx with va := pa } }.setValue var.varidx run pa)

/-- `concretize_random_one` for the run at the index `run`, with at most `n` attempts. -/
def concretizeRandomRun (ctx : BatchCtx) (n run : Nat) (s : BatchState σ) : Except BatchFail (BatchState σ) :=
  match ctx.concretizeLoop rand n s.st s.seed with
  | .error e => .error (.random e)
  | .ok (st, seed) => ctx.infos.foldlM (storeVa ctx run) { s with st := st, seed := seed }

/-- `concretize_fixed_one`. -/
def concretizeFixedOne (infos : List VarInfo) (run : Nat) (s : BatchState σ) : BatchState σ :=
  infos.foldl (fun s var => s.setValue var.varidx run (s.values var.varidx 0)) s

/-- `concretize_one`. -/
def concretizeOne (ctx : BatchCtx) (type : ConcretizeType) (n run : Nat) (s : BatchState σ) :
    Except BatchFail (BatchState σ) :=
  match concretizationPrecheck ctx.infos with
  | .error e => .error e
  | .ok _ =>
    match type with
    | .linear => .error .linear
    | .random => concretizeRandomRun rand ctx n run s
    | .fixed => .ok (concretizeFixedOne ctx.infos run s)

/-! ## The batch -/

/-- The loops over the variables: some variable of the run at `i` is, physically, where one of the run at `i0` is. -/
def overlapsRun (ctx : BatchCtx) (s : BatchState σ) (i i0 : Nat) : Bool :=
  ctx.infos.any fun v1 => ctx.infos.any fun v2 =>
    safeTestdataPa ctx.platform (ctxHeapVarVa s v1.varidx i) = safeTestdataPa ctx.platform (ctxHeapVarVa s v2.varidx i0)

/-- The loop over the earlier runs of the batch. -/
def overlapsEarlier (ctx : BatchCtx) (start r : Nat) (s : BatchState σ) : Bool :=
  (List.range' start (r - start)).any fun r0 => overlapsRun ctx s (countToRunIndex ctx r) (countToRunIndex ctx r0)

/-- From `repeat_loop` on: concretize the run, and again if it overlaps with an earlier one. -/
def batchAttempt (ctx : BatchCtx) (type : ConcretizeType) (n start r : Nat) (s : BatchState σ) :
    BatchState σ ⊕ Except BatchFail (BatchState σ) :=
  match concretizeOne rand ctx type n (countToRunIndex ctx r) s with
  | .error e => .inr (.error e)
  | .ok s => if overlapsEarlier ctx start r s then .inl s else .inr (.ok s)

/-- The body of the loop over the runs, with at most `n` retries. -/
def concretizeRun (ctx : BatchCtx) (type : ConcretizeType) (n start r : Nat) (s : BatchState σ) :
    Except BatchFail (BatchState σ) :=
  (Loop.untilReturn (batchAttempt rand ctx type n start r) n s).getD (.error .retries)

/-- `concretize_batch`. -/
def concretizeBatch (ctx : BatchCtx) (type : ConcretizeType) (n start last : Nat) (s : BatchState σ) :
    Except BatchFail (BatchState σ) :=
  Loop.forRangeM start last (concretizeRun rand ctx type n start) s

/-! ## What one concretization changes -/

/-- The addresses at all indices but `run` are the same. -/
def SameElsewhere (run : Nat) (s s' : BatchState σ) : Prop := ∀ v i, i ≠ run → s'.values v i = s.values v i

theorem SameElsewhere.refl (run : Nat) (s : BatchState σ) : SameElsewhere run s s := fun _ _ _ => rfl

theorem SameElsewhere.trans {run : Nat} {s s₁ s' : BatchState σ} (h : SameElsewhere run s s₁)
    (h' : SameElsewhere run s₁ s') : SameElsewhere run s s' :=
  fun v i hi => (h' v i hi).trans (h v i hi)

theorem sameElsewhere_setValue (s : BatchState σ) (v run : Nat) (va : U64) :
    SameElsewhere run s (s.setValue v run va) := by
  intro w i hi
  simp [BatchState.setValue, hi]

theorem storeVa_frame {ctx : BatchCtx} {run : Nat} {s s' : BatchState σ} {var : VarInfo}
    (h : storeVa ctx run s var = .ok s') : SameElsewhere run s s' := by
  unfold storeVa at h
  dsimp only at h
  split at h
  · cases h
    exact sameElsewhere_setValue s _ _ _
  · split at h
    · cases h
    · cases h
      exact sameElsewhere_setValue { s with st := _ } _ _ _

variable {rand} {ctx : BatchCtx} {type : ConcretizeType} {n : Nat}

/-- **A concretization changes the addresses at its own index only.** -/
theorem concretizeOne_frame {run : Nat} {s s' : BatchState σ} (h : concretizeOne rand ctx type n run s = .ok s') :
    SameElsewhere run s s' := by
  unfold concretizeOne at h
  split at h
  · cases h
  · cases type with
    | linear => cases h
    | random =>
      simp only [concretizeRandomRun] at h
      split at h
      · cases h
      · rename_i st seed _
        exact Loop.foldlM_inv (I := SameElsewhere run s) (fun var _ a b hI hb => hI.trans (storeVa_frame hb))
          (SameElsewhere.refl run { s with st := st, seed := seed }) h
    | fixed =>
      cases h
      unfold concretizeFixedOne
      refine List.foldlRecOn ctx.infos _ (SameElsewhere.refl run s) fun a ha var _ => ?_
      exact ha.trans (sameElsewhere_setValue a _ _ _)

/-- An attempt that ends the retries, or asks for one more. -/
theorem batchAttempt_cases {start r : Nat} {s : BatchState σ} :
    (∃ s', concretizeOne rand ctx type n (countToRunIndex ctx r) s = .ok s' ∧
      (batchAttempt rand ctx type n start r s = .inl s' ∧ overlapsEarlier ctx start r s' = true ∨
        batchAttempt rand ctx type n start r s = .inr (.ok s') ∧ overlapsEarlier ctx start r s' = false)) ∨
    ∃ e, batchAttempt rand ctx type n start r s = .inr (.error e) := by
  unfold batchAttempt
  cases hone : concretizeOne rand ctx type n (countToRunIndex ctx r) s with
  | error e => exact .inr ⟨e, rfl⟩
  | ok s' =>
    refine .inl ⟨s', rfl, ?_⟩
    cases hover : overlapsEarlier ctx start r s' with
    | true => exact .inl ⟨by simp [hover], rfl⟩
    | false => exact .inr ⟨by simp [hover], rfl⟩

/-- One run, with all its retries: its addresses are the only ones that change, and in the end it overlaps with no
earlier run. -/
theorem concretizeRun_ok {start r : Nat} {s s' : BatchState σ} (h : concretizeRun rand ctx type n start r s = .ok s') :
    SameElsewhere (countToRunIndex ctx r) s s' ∧ overlapsEarlier ctx start r s' = false := by
  unfold concretizeRun at h
  cases hret : Loop.untilReturn (batchAttempt rand ctx type n start r) n s with
  | none =>
    rw [hret] at h
    cases h
  | some res =>
    rw [hret, Option.getD_some] at h
    subst h
    have hrule := @Loop.untilReturn_inv (BatchState σ) (SameElsewhere (countToRunIndex ctx r) s) _
      (batchAttempt rand ctx type n start r)
      (fun res => ∀ s', res = .ok s' →
        SameElsewhere (countToRunIndex ctx r) s s' ∧ overlapsEarlier ctx start r s' = false)
    refine hrule ?_ ?_ (SameElsewhere.refl _ s) hret s' rfl
    · intro a b hI hstep
      rcases @batchAttempt_cases σ rand ctx type n start r a with ⟨s₁, hone, ⟨hs, -⟩ | ⟨hs, -⟩⟩ | ⟨e, hs⟩
      · rw [hs] at hstep
        cases hstep
        exact hI.trans (concretizeOne_frame hone)
      all_goals
        rw [hs] at hstep
        cases hstep
    · intro a res hI hstep s' hres
      rcases @batchAttempt_cases σ rand ctx type n start r a with ⟨s₁, hone, ⟨hs, -⟩ | ⟨hs, hover⟩⟩ | ⟨e, hs⟩
      · rw [hs] at hstep
        cases hstep
      · rw [hs] at hstep
        cases hstep
        cases hres
        exact ⟨hI.trans (concretizeOne_frame hone), hover⟩
      · rw [hs] at hstep
        cases hstep
        cases hres

theorem overlapsRun_eq_false {s : BatchState σ} {i i0 : Nat} : overlapsRun ctx s i i0 = false ↔
    ∀ v1 ∈ ctx.infos, ∀ v2 ∈ ctx.infos, safeTestdataPa ctx.platform (ctxHeapVarVa s v1.varidx i) ≠
      safeTestdataPa ctx.platform (ctxHeapVarVa s v2.varidx i0) := by
  simp [overlapsRun]

theorem overlapsEarlier_eq_false {start r : Nat} {s : BatchState σ} : overlapsEarlier ctx start r s = false ↔
    ∀ r0, start ≤ r0 → r0 < r → overlapsRun ctx s (countToRunIndex ctx r) (countToRunIndex ctx r0) = false := by
  simp only [overlapsEarlier, List.any_eq_false, List.mem_range'_1, Bool.not_eq_true]
  constructor
  · intro h r0 h1 h2
    exact h r0 ⟨h1, by omega⟩
  · intro h r0 hr0
    exact h r0 hr0.1 (by omega)

/-! ## All runs of a batch -/

/-- What holds before the run `r`: the runs of the batch before it do not overlap. -/
def ApartBefore (ctx : BatchCtx) (start r : Nat) (s : BatchState σ) : Prop :=
  ∀ r1 r0, start ≤ r0 → r0 < r1 → r1 < r → overlapsRun ctx s (countToRunIndex ctx r1) (countToRunIndex ctx r0) = false

/-- The addresses at two indices decide if they overlap. -/
theorem overlapsRun_congr {s s' : BatchState σ} {i i0 : Nat} (hi : ∀ v, s'.values v i = s.values v i)
    (hi0 : ∀ v, s'.values v i0 = s.values v i0) : overlapsRun ctx s' i i0 = overlapsRun ctx s i i0 := by
  have hva : ∀ v, ctxHeapVarVa s' v i = ctxHeapVarVa s v i := hi
  have hva0 : ∀ v, ctxHeapVarVa s' v i0 = ctxHeapVarVa s v i0 := hi0
  simp only [overlapsRun, hva, hva0]

/-- One run keeps the earlier ones apart, and is apart from them. -/
theorem ApartBefore.step {start last r : Nat} {s s' : BatchState σ} (hlast : last ≤ ctx.order.noRuns) (hr : r < last)
    (h : ApartBefore ctx start r s) (hrun : concretizeRun rand ctx type n start r s = .ok s') :
    ApartBefore ctx start (r + 1) s' := by
  obtain ⟨hsame, hover⟩ := concretizeRun_ok hrun
  have hkeep : ∀ t, t < r → ∀ v, s'.values v (countToRunIndex ctx t) = s.values v (countToRunIndex ctx t) := by
    intro t ht v
    refine hsame v _ fun heq => ?_
    have := countToRunIndex_inj (by omega) (by omega) heq
    omega
  intro r1 r0 h0 h01 h1
  rcases Nat.lt_or_ge r1 r with hlt | hge
  · rw [overlapsRun_congr (hkeep r1 hlt) (hkeep r0 (by omega))]
    exact h r1 r0 h0 h01 hlt
  · obtain rfl : r1 = r := by omega
    exact overlapsEarlier_eq_false.mp hover r0 h0 h01

/-- The part of the batch from `r` on keeps the addresses of the earlier runs. -/
theorem concretizeBatch_frame {start r last : Nat} {s s' : BatchState σ} (hlast : last ≤ ctx.order.noRuns)
    (hr : r ≤ last) (h : Loop.forRangeM r last (concretizeRun rand ctx type n start) s = .ok s') {r0 : Nat}
    (hr0 : r0 < r) (v : Nat) : s'.values v (countToRunIndex ctx r0) = s.values v (countToRunIndex ctx r0) := by
  refine Loop.forRangeM_ok (I := fun _ a => a.values v (countToRunIndex ctx r0) = s.values v (countToRunIndex ctx r0))
    (fun t a b ht htl hI hb => ?_) hr rfl h
  refine ((concretizeRun_ok hb).1 v _ fun heq => ?_).trans hI
  have := countToRunIndex_inj (by omega) (by omega) heq
  omega

/-- **The runs of a batch are apart.** No variable of one run has the physical address of a variable of another. When
the run `r` is begun, in the state `s₁`, the addresses of the earlier runs are those of the result, and no number of
concretizations of the run `r` changes them. -/
theorem concretizeBatch_separate {start last : Nat} {s s' : BatchState σ} (hlast : last ≤ ctx.order.noRuns)
    (h : concretizeBatch rand ctx type n start last s = .ok s') :
    (∀ r r0, start ≤ r → r < last → start ≤ r0 → r0 < last → r ≠ r0 → ∀ v1 ∈ ctx.infos, ∀ v2 ∈ ctx.infos,
      safeTestdataPa ctx.platform (ctxHeapVarVa s' v1.varidx (countToRunIndex ctx r)) ≠
        safeTestdataPa ctx.platform (ctxHeapVarVa s' v2.varidx (countToRunIndex ctx r0))) ∧
    ∀ r, start ≤ r → r < last → ∃ s₁, concretizeBatch rand ctx type n start r s = .ok s₁ ∧
      ∀ r0, start ≤ r0 → r0 < r → ∀ v,
        ctxHeapVarVa s' v (countToRunIndex ctx r0) = ctxHeapVarVa s₁ v (countToRunIndex ctx r0) ∧
        ∀ s₂, Relation.ReflTransGen
            (fun a b => concretizeOne rand ctx type n (countToRunIndex ctx r) a = .ok b) s₁ s₂ →
          ctxHeapVarVa s₂ v (countToRunIndex ctx r0) = ctxHeapVarVa s₁ v (countToRunIndex ctx r0) := by
  constructor
  · intro r r0 hr hrl hr0 hr0l hne
    have hapart : ApartBefore ctx start last s' :=
      Loop.forRangeM_ok (I := ApartBefore ctx start) (fun t a b _ ht hI hb => hI.step hlast ht hb) (by omega)
        (fun r1 r0 h0 h01 h1 => by omega) h
    rcases Nat.lt_or_gt_of_ne hne with hlt | hlt
    · intro v1 h1 v2 h2
      exact (overlapsRun_eq_false.mp (hapart r0 r hr hlt hr0l) v2 h2 v1 h1).symm
    · exact overlapsRun_eq_false.mp (hapart r r0 hr0 hlt hrl)
  · intro r hr hrl
    obtain ⟨s₁, h₁, hrest⟩ := Loop.forRangeM_split hr hrl.le h
    refine ⟨s₁, h₁, fun r0 hr0 hr0r v => ⟨concretizeBatch_frame hlast hrl.le hrest hr0r v, fun s₂ hretry => ?_⟩⟩
    induction hretry with
    | refl => rfl
    | tail _ hstep ih =>
      refine Eq.trans (concretizeOne_frame hstep v _ fun heq => ?_) ih
      have := countToRunIndex_inj (by omega) (by omega) heq
      omega

end Batch

/-- Four runs of a test with one variable, in the order that the seed 1 gives. -/
def fourRuns : BatchCtx where
  platform := exampleTestdata
  enablePgtable := true
  shuffleType := .rand
  infos := [{ varidx := 0, name := "x", ty := .heap { val := 0, isIdentityMapped := false } .page }]
  order := (initRunOrder randn 4 1).1

theorem concretizeBatch_separate_fourRuns :
    ∃ s', concretizeBatch randn fourRuns .random 2 1 3 ⟨fun _ _ => 0, fun _ => {}, 1⟩ = .ok s' ∧
    (∀ r r0, 1 ≤ r → r < 3 → 1 ≤ r0 → r0 < 3 → r ≠ r0 → ∀ v1 ∈ fourRuns.infos, ∀ v2 ∈ fourRuns.infos,
      safeTestdataPa exampleTestdata (ctxHeapVarVa s' v1.varidx (countToRunIndex fourRuns r)) ≠
        safeTestdataPa exampleTestdata (ctxHeapVarVa s' v2.varidx (countToRunIndex fourRuns r0))) ∧
    ∀ r, 1 ≤ r → r < 3 →
      ∃ s₁, concretizeBatch randn fourRuns .random 2 1 r ⟨fun _ _ => 0, fun _ => {}, 1⟩ = .ok s₁ ∧
        ∀ r0, 1 ≤ r0 → r0 < r → ∀ v,
          ctxHeapVarVa s' v (countToRunIndex fourRuns r0) = ctxHeapVarVa s₁ v (countToRunIndex fourRuns r0) ∧
          ∀ s₂, Relation.ReflTransGen
              (fun a b => concretizeOne randn fourRuns .random 2 (countToRunIndex fourRuns r) a = .ok b) s₁ s₂ →
            ctxHeapVarVa s₂ v (countToRunIndex fourRuns r0) = ctxHeapVarVa s₁ v (countToRunIndex fourRuns r0) := by
  obtain ⟨s', hrun⟩ :
      ∃ s', concretizeBatch randn fourRuns .random 2 1 3 ⟨fun _ _ => 0, fun _ => {}, 1⟩ = .ok s' := ⟨_, rfl⟩
  exact ⟨s', hrun, @concretizeBatch_separate _ randn fourRuns .random 2 1 3 _ s' (by decide) hrun⟩

end LitmusHarness
