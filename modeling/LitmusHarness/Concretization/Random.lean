import LitmusHarness.Concretization.VarInfo
import LitmusHarness.Lib.Loop

/-!
# Random concretization: `rand.c`, `litmus_regions.c` and `litmus_test_random_concretization.c`

`concretizeRandomOne` picks the virtual addresses of one run, with page tables on: a region index for every owning
variable and within it for those pinned to it, then the offsets in a fixpoint loop, and all over again until no two
variables overlap. The random numbers come from any generator `rand` with a state; the harness' own is `randn`.
-/

namespace LitmusHarness

/-! ## Random numbers -/

/-- `randn`, from one seed to the next. The new seed is also the result. -/
def randn (seed : U64) : U64 × U64 :=
  let taps := (List.range 64).filter fun i => i % 7 = 0 || i % 13 = 0
  let st := taps.foldl (fun st i => st ^^^ ((seed >>> i) &&& 1)) 1
  let newSeed := (seed <<< 1) + st
  (newSeed, newSeed)

/-- How the selection of addresses stops without a result. -/
inductive ConcretizeFail
  | randrange (low high : U64)
  | region (name : String)
  | offset (name : String)
  /-- The bound on the number of attempts; the source has none. -/
  | attempts
  deriving DecidableEq, Repr

/-- The texts of the failures. -/
def ConcretizeFail.msg : ConcretizeFail → String
  | .randrange _ _ => "! randrange, low (%ld) was larger than high (%ld)"
  | .region name => "failed to pick a VA (region) for \"" ++ name ++ "\"\n"
  | .offset name => "failed to pick a VA (offset) for \"" ++ name ++ "\"\n"
  | .attempts => ""

section Rand

variable {σ : Type} (rand : σ → U64 × σ)

/-- `randrange`. -/
def randrange (low high : U64) (s : σ) : Except ConcretizeFail (U64 × σ) :=
  let (r, s) := rand s
  if low = high then .ok (low, s)
  else if high < low then .error (.randrange low high)
  else .ok (low + r % (high - low), s)

/-- `region_idx_t`. -/
structure RegionIdx where
  regIx : U64
  regOffs : U64
  deriving DecidableEq, Repr

/-- `MIN`. -/
def min64 (a b : U64) : U64 := if a < b then a else b

/-- `rand_idx`. -/
def randIdx (start last : RegionIdx) (s : σ) : Except ConcretizeFail (RegionIdx × σ) :=
  match randrange rand start.regIx last.regIx s with
  | .error e => .error e
  | .ok (reg, s) =>
    match randrange rand start.regOffs (min64 last.regOffs regionSize) s with
    | .error e => .error e
    | .ok (offs, s) => .ok (⟨reg, alignTo offs 4⟩, s)

end Rand

/-! ## Region indices -/

/-- `align_down_region_idx`. -/
def alignDownRegionIdx (p : Platform) (idx : RegionIdx) (alignment : PinLevel) : RegionIdx :=
  ⟨idx.regIx, alignTo idx.regOffs (levelShift p alignment)⟩

/-- `align_up_region_idx`. The shift of the level is used as the alignment. -/
def alignUpRegionIdx (p : Platform) (idx : RegionIdx) (alignment : PinLevel) : RegionIdx :=
  ⟨idx.regIx, min64 (alignUpTo idx.regOffs (BitVec.ofNat 64 (levelShift p alignment))) regionSize⟩

/-- `region_idx_bottom`. -/
def regionIdxBottom : RegionIdx := ⟨0, 0⟩

/-- `region_idx_top`. -/
def regionIdxTop : RegionIdx := ⟨BitVec.ofNat 64 (nrRegions - 1), bitmask regionShift⟩

/-- `va_from_region_idx`, with the regions of `initialize_regions`. -/
def vaFromRegionIdx (p : Platform) (var : VarInfo) (idx : RegionIdx) : U64 :=
  let va := testdataMmap8MVaFromIndex idx.regIx + idx.regOffs
  if var.isIdentityMapped then virtToPhys p va else va

/-! ## The selection -/

/-- `var_st_t`, without the pins, which `countPinnedTo` collects. -/
structure VarSt where
  pickedRegion : Bool := false
  pickedOffset : Bool := false
  partialVa : RegionIdx := ⟨0, 0⟩
  va : U64 := 0
  deriving DecidableEq, Repr

/-- `concretization_st_t`: a state for each variable. -/
abbrev ConcretizationSt := Nat → VarSt

/-- An update of one entry of `var_sts`. -/
def setVarSt (st : ConcretizationSt) (v : Nat) (x : VarSt) : ConcretizationSt := fun w => if w = v then x else st w

/-- The region of a variable is picked. -/
def setRegion (st : ConcretizationSt) (v : Nat) (idx : RegionIdx) : ConcretizationSt :=
  setVarSt st v { st v with partialVa := idx, pickedRegion := true }

/-- The offset of a variable is picked. -/
def setOffset (st : ConcretizationSt) (v : Nat) (idx : RegionIdx) (va : U64) : ConcretizationSt :=
  setVarSt st v { st v with partialVa := idx, va := va, pickedOffset := true }

/-- `count_pinned_to`. -/
def countPinnedTo (infos : List VarInfo) (var : VarInfo) (lvl : PinLevel) : List VarInfo :=
  infos.filter fun other =>
    match other.ty with
    | .pinned _ v l => other.varidx ≠ var.varidx && v = var.varidx && l = lvl
    | _ => false

/-- The levels of the loop over `pin_lvl`, from `REGION_SAME_VAR` to before `REGION_SAME_PGD`. -/
def pinLevels : List PinLevel := [.var, .cacheLine, .page, .pmd, .pud]

/-- The variables pinned to `var`, in the order in which they are picked, each with its level. -/
def pinsOf (infos : List VarInfo) (var : VarInfo) : List (PinLevel × VarInfo) :=
  pinLevels.flatMap fun lvl => (countPinnedTo infos var lvl).map fun v => (lvl, v)

section Select

variable {σ : Type} (rand : σ → U64 × σ) (p : Platform) (infos : List VarInfo)

/-- `pick_pin_region`. -/
def pickPinRegion (rootidx : RegionIdx) (acc : ConcretizationSt × σ) (pin : PinLevel × VarInfo) :
    Except ConcretizeFail (ConcretizationSt × σ) :=
  let vaBegin := alignDownRegionIdx p rootidx pin.1
  let vaEnd := alignUpRegionIdx p rootidx pin.1
  match randIdx rand vaBegin vaEnd acc.2 with
  | .error e => .error e
  | .ok (vaIdx, s) => .ok (setRegion acc.1 pin.2.varidx vaIdx, s)

/-- `pick_one_region`. -/
def pickOneRegion (var : VarInfo) (acc : ConcretizationSt × σ) : Except ConcretizeFail (ConcretizationSt × σ) :=
  match randIdx rand regionIdxBottom regionIdxTop acc.2 with
  | .error e => .error e
  | .ok (vaIdx, s) => (pinsOf infos var).foldlM (pickPinRegion rand p vaIdx) (setRegion acc.1 var.varidx vaIdx, s)

/-- A loop over the variables that picks a region for those that satisfy `cond`. -/
def pickRegions (cond : VarInfo → Bool) (acc : ConcretizationSt × σ) : Except ConcretizeFail (ConcretizationSt × σ) :=
  infos.foldlM (fun acc var => if cond var then pickOneRegion rand p infos var acc else .ok acc) acc

/-- The offset of an index with the low bits, of a level, of another address. -/
def offsetRegionIdx (idx : RegionIdx) (lvl : RelOffset) (otherva : U64) : RegionIdx :=
  let othershift := levelShift p lvl
  { idx with regOffs := (idx.regOffs &&& ~~~bitmask othershift) ||| (otherva &&& bitmask othershift) }

/-- `try_pick_one_offset`. -/
def tryPickOneOffset (st : ConcretizationSt) (var : VarInfo) : Option ConcretizationSt :=
  let pick := fun vaIdx => setOffset st var.varidx vaIdx (vaFromRegionIdx p var vaIdx)
  let vaIdx := (st var.varidx).partialVa
  match var.initAttrs.regionOffset with
  | none => some (pick vaIdx)
  | some o =>
    if (st o.offsetVar).pickedOffset then some (pick (offsetRegionIdx p vaIdx o.offsetLevel (st o.offsetVar).va))
    else none

/-- The body of the loop over `picked_offset`: pick the first offset that can be. -/
def pickOffsetStep (st : ConcretizationSt) : Option ConcretizationSt :=
  infos.findSome? fun var => if (st var.varidx).pickedOffset then none else tryPickOneOffset p st var

/-- The loop. Each of its iterations but the last picks the offset of one more variable. -/
def pickOffsets (st : ConcretizationSt) : ConcretizationSt := Loop.untilNone (pickOffsetStep p infos) infos.length st

/-- `overlaps_owned_regions`. -/
def overlapsOwnedRegions (va : Nat → U64) (var other : VarInfo) : Bool :=
  if !var.ownsRegion || !other.ownsRegion then false
  else
    let region := other.ownedRegionSize
    let lo := va other.varidx &&& ~~~bitmask (levelShift p region)
    let hi := lo + levelSize p region
    decide (lo ≤ va var.varidx) && decide (va var.varidx < hi)

/-- `has_same_va`. -/
def hasSameVa (va : Nat → U64) (var other : VarInfo) : Bool := va var.varidx = va other.varidx

/-- `__can_virtually_alias_with`. -/
def canVirtuallyAliasWith (var other : VarInfo) : Bool :=
  match var.ty with
  | .pinned _ v lvl => v = other.varidx && lvl = .var
  | _ => false

/-- `can_virtually_alias`. -/
def canVirtuallyAlias (var other : VarInfo) : Bool := canVirtuallyAliasWith var other || canVirtuallyAliasWith other var

/-- `validate_selection`. -/
def validateSelection (va : Nat → U64) (thisvar : VarInfo) : Bool :=
  infos.all fun var =>
    var.varidx = thisvar.varidx ||
      !((hasSameVa va thisvar var && !canVirtuallyAlias thisvar var) || overlapsOwnedRegions p va thisvar var)

/-- `reset_st`. -/
def resetSt (st : ConcretizationSt) : ConcretizationSt := fun v =>
  { st v with pickedRegion := false, pickedOffset := false }

/-- The two loops that pick the regions: first for the owning variables without an offset, then for the others. -/
def pickAllRegions (acc : ConcretizationSt × σ) : Except ConcretizeFail (ConcretizationSt × σ) :=
  match pickRegions rand p infos (fun var => var.ownsRegion && var.initAttrs.regionOffset.isNone) acc with
  | .error e => .error e
  | .ok acc => pickRegions rand p infos (fun var => var.ownsRegion && var.initAttrs.regionOffset.isSome) acc

/-- One attempt of `concretize_random_one`, up to the validation. -/
def concretizeAttempt (st : ConcretizationSt) (s : σ) : Except ConcretizeFail (ConcretizationSt × σ) :=
  match pickAllRegions rand p infos (resetSt st, s) with
  | .error e => .error e
  | .ok (st, s) =>
    match infos.find? fun var => !(st var.varidx).pickedRegion with
    | some var => .error (.region var.name)
    | none =>
      let st := pickOffsets p infos st
      match infos.find? fun var => !(st var.varidx).pickedOffset with
      | some var => .error (.offset var.name)
      | none => .ok (st, s)

/-- `concretize_random_one`, with at most `n` attempts. The result is the address of each variable. -/
def concretizeRandomOne : Nat → ConcretizationSt → σ → Except ConcretizeFail ((Nat → U64) × σ)
  | 0, _, _ => .error .attempts
  | n + 1, st, s =>
    match concretizeAttempt rand p infos st s with
    | .error e => .error e
    | .ok (st, s) =>
      if infos.all (validateSelection p infos fun v => (st v).va) then .ok (fun v => (st v).va, s)
      else concretizeRandomOne n st s

end Select

end LitmusHarness
