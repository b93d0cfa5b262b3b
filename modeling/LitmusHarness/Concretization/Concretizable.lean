import LitmusHarness.Concretization.Selection

/-!
# Which configurations can be concretized

`concretizeRandomOne` fails at a variable for which no region or no offset is picked. Both depend on the configuration
only: it never fails exactly when every variable has a region, its own or that of the owning variable it is pinned to,
and no chain of offsets is cyclic (`concretizeRandomOne_noFail_iff`).
-/

namespace LitmusHarness

section NoFail

variable {σ : Type} {rand : σ → U64 × σ} {p : Platform} {infos : List VarInfo}

/-- Every variable has a region, and its chain of offsets ends. -/
structure Concretizable (infos : List VarInfo) : Prop where
  hasRegion : ∀ v ∈ infos, HasRegion infos v
  acc : ∀ v ∈ infos, Acc (OffsetFrom infos) v.varidx

/-- The failures that a configuration can cause. -/
def ConcretizeFail.ofConfig : ConcretizeFail → Bool
  | .region _ | .offset _ => true
  | .randrange _ _ | .attempts => false

/-- No attempt at a concretizable configuration fails. -/
theorem Concretizable.noFail (hok : InfosOk infos) (h : Concretizable infos) :
    ∀ (n : Nat) (st : ConcretizationSt) (s : σ) (e : ConcretizeFail),
      concretizeRandomOne rand p infos n st s = .error e → e = .attempts := by
  intro n st s e he
  induction n generalizing st s with
  | zero =>
    cases he
    rfl
  | succ n ih =>
    obtain ⟨⟨st', s'⟩, hatt⟩ := @concretizeAttempt_ok_of σ rand p infos hok h.hasRegion h.acc st s
    rw [concretizeRandomOne, hatt] at he
    dsimp only at he
    split at he
    · cases he
    · exact ih st' s' he

/-- The first attempt at another configuration fails. -/
theorem concretizable_of_noFail (hok : InfosOk infos) {st : ConcretizationSt} {s : σ}
    (h : ∀ e, concretizeRandomOne rand p infos 1 st s = .error e → e.ofConfig = false) : Concretizable infos := by
  cases hatt : concretizeAttempt rand p infos st s with
  | error e =>
    have he := h e (by rw [concretizeRandomOne, hatt])
    rcases concretizeAttempt_error hok hatt with ⟨v, -, rfl, -⟩ | ⟨v, -, rfl, -⟩ <;> cases he
  | ok r =>
    obtain ⟨st₁, hr⟩ := @concretizeAttempt_ok σ rand p infos hok st r.1 s r.2 hatt
    exact ⟨hr.hasRegion, hr.acc⟩

/-- **The selection never fails to pick a region or an offset exactly when the configuration is concretizable**,
whatever is drawn. -/
theorem concretizeRandomOne_noFail_iff {cfg : LitmusTest} {sys sys' : InitSystemState}
    (hread : readVarInfos cfg sys = .ok (sys', infos)) (st : ConcretizationSt) (s : σ) :
    (∀ n e, concretizeRandomOne rand p infos n st s = .error e → e.ofConfig = false) ↔ Concretizable infos := by
  have hok := readVarInfos_ok hread
  refine ⟨fun h => concretizable_of_noFail hok (h 1), fun h n e he => ?_⟩
  rw [h.noFail hok n st s e he]
  rfl

end NoFail

/-- Two variables with the default offset. -/
def twoHeapTest : LitmusTest where
  name := "two+heap"
  heapVarNames := ["x", "y"]
  initStates := [.heap "x" 0, .heap "y" 0]

/-- What is read of it. -/
def twoHeapInfos : List VarInfo :=
  [{ varidx := 0, name := "x", ty := .heap { val := 0, isIdentityMapped := false } .page },
   { varidx := 1, name := "y", ty := .heap { val := 0, isIdentityMapped := false } .page,
     initAttrs := { regionOffset := some ⟨0, .page⟩ } }]

theorem concretizeRandomOne_noFail_iff_twoHeap :
    (∀ n e, concretizeRandomOne randn exampleTestdata twoHeapInfos n (fun _ => {}) 1 = .error e → e.ofConfig = false) ↔
      Concretizable twoHeapInfos :=
  @concretizeRandomOne_noFail_iff U64 randn exampleTestdata twoHeapInfos twoHeapTest {} {} rfl (fun _ => {}) 1

/-- A chain of pins: `z` is pinned to `y` while `y` still owns a region, and then `y` to `x`. -/
def pinChainTest : LitmusTest where
  name := "pin+chain"
  heapVarNames := ["x", "y", "z"]
  initStates := [.heap "x" 0, .heap "y" 0, .heap "z" 0, .regionPin "z" "y" .page, .regionPin "y" "x" .page]

/-- What is read of it. -/
def pinChainInfos : List VarInfo :=
  [{ varidx := 0, name := "x", ty := .heap { val := 0, isIdentityMapped := false } .page },
   { varidx := 1, name := "y", ty := .pinned { val := 0, isIdentityMapped := false } 0 .page },
   { varidx := 2, name := "z", ty := .pinned { val := 0, isIdentityMapped := false } 1 .page }]

/-- The test is accepted, all its variables are set, and no region is picked for `z`. -/
theorem pinChain_fails :
    readVarInfos pinChainTest {} = .ok ({}, pinChainInfos) ∧ (∀ v ∈ pinChainInfos, v.ty ≠ .notSet) ∧
    concretizeRandomOne randn exampleTestdata pinChainInfos 1 (fun _ => {}) 1 = .error (.region "z") :=
  ⟨rfl, by decide, rfl⟩

end LitmusHarness
