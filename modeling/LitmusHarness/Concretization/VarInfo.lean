import LitmusHarness.Regions

/-!
# Variables and how they are read: `litmus_var_info.h` and `litmus_test_var_info.c`

`VarInfo` is `var_info_t`, its union and the type tag in one inductive (`VarType`), without the array of the addresses
picked for each run. `readVarInfos` reads the initial state of a test into the infos of its variables, or fails with
the text of the first check that does not pass.
-/

namespace LitmusHarness

/-! ## Variables -/

/-- `var_info_backing_t`. -/
structure Backing where
  val : U64
  isIdentityMapped : Bool
  deriving DecidableEq, Repr

/-- `var_info_type_t` with the union member of each type. -/
inductive VarType
  | notSet
  | heap (back : Backing) (ownedRegionSize : OwnLevel)
  | alias (aliasedWith : Nat)
  | pinned (back : Backing) (pinRegionVar : Nat) (pinRegionLevel : PinLevel)
  | fixed (phys : U64)
  | unmapped
  deriving DecidableEq, Repr

/-- `region_offset`. -/
structure RegionOffset where
  offsetVar : Nat
  offsetLevel : RelOffset
  deriving DecidableEq, Repr

/-- `var_info_attrs_t`; a field is `none` where its `has_` flag is 0. -/
structure InitAttrs where
  attridx : Option U64 := none
  ap : Option U64 := none
  regionOffset : Option RegionOffset := none
  deriving DecidableEq, Repr

/-- `var_info_t`. -/
structure VarInfo where
  varidx : Nat
  name : String
  initAttrs : InitAttrs := {}
  ty : VarType := .notSet
  deriving DecidableEq, Repr

instance : Inhabited VarInfo := ⟨{ varidx := 0, name := "" }⟩

/-- `var_backing`, for the variables that are backed (`is_backed_var`). -/
def VarInfo.backing (v : VarInfo) : Option Backing :=
  match v.ty with
  | .heap back _ => some back
  | .pinned back _ _ => some back
  | _ => none

/-- `is_backed_var`. -/
def VarInfo.isBacked (v : VarInfo) : Bool := v.backing.isSome

/-- `is_backed_var(var) && var_backing(var)->is_identity_mapped`. -/
def VarInfo.isIdentityMapped (v : VarInfo) : Bool :=
  match v.backing with
  | some back => back.isIdentityMapped
  | none => false

/-- Where a variable may be: in a window, or, identity-mapped, in the physical test data. -/
def Placed (m : Machine) (v : VarInfo) (va : U64) : Prop :=
  if v.isIdentityMapped then ∃ i o, InPhys m va i o else ∃ i o, InWindow va i o

/-- `var_owns_region`. -/
def VarInfo.ownsRegion (v : VarInfo) : Bool :=
  match v.ty with
  | .heap _ _ | .unmapped | .fixed _ | .alias _ => true
  | .notSet | .pinned _ _ _ => false

/-- `var_owned_region_size`, for the variables that own a region. -/
def VarInfo.ownedRegionSize (v : VarInfo) : OwnLevel :=
  match v.ty with
  | .heap _ own => own
  | _ => .page

/-- `var_info_type_to_str`, with the number of the type. -/
def VarType.toStr : VarType → String × String
  | .notSet => ("0", "VAR_NOTSET")
  | .heap _ _ => ("1", "VAR_HEAP")
  | .alias _ => ("2", "VAR_ALIAS")
  | .pinned _ _ _ => ("3", "VAR_PINNED")
  | .fixed _ => ("4", "VAR_FIXED")
  | .unmapped => ("5", "VAR_UNMAPPED")

/-! ## Tests -/

/-- `prot_type_t`. -/
inductive ProtType
  | ap
  | attridx
  deriving DecidableEq, Repr

/-- `init_varstate_t`: the type of an entry with its variable and its values. -/
inductive InitVarstate
  | heap (var : String) (value : U64)
  | pte (var : String) (value : U64)
  | fix (var : String) (value : U64)
  | unmapped (var : String)
  | identityMap (var : String)
  | alias (var aliasname : String)
  | attrs (var : String) (protType : ProtType) (attrValue : U64)
  | mair (value : U64)
  | regionPin (var pinnedVarName : String) (pinnedLevel : PinLevel)
  | regionOwn (var : String) (ownershipLevel : OwnLevel)
  | regionOffset (var offsetVarName : String) (offsetLevel : RelOffset)
  deriving DecidableEq, Repr

/-- What `read_var_infos` reads of a `litmus_test_t`. -/
structure LitmusTest where
  name : String
  heapVarNames : List String
  initStates : List InitVarstate

/-- `init_system_state_t`. -/
structure InitSystemState where
  enableMair : Bool := false
  mairAttr7 : U64 := 0
  deriving DecidableEq, Repr

/-- How the reader stops: in `fail`, or by reading past the infos at the index of a name that no variable has. -/
inductive ReadError
  | fail (msg : String)
  | outOfBounds
  deriving DecidableEq, Repr

/-! ## Reading -/

/-- `idx_from_varname_infos`: the first variable of the name, or the number of variables. -/
def idxFromVarnameInfos (infos : List VarInfo) (varname : String) : Nat := infos.findIdx fun v => v.name = varname

/-- `infos[idx]`. -/
def infoAt (infos : List VarInfo) (idx : Nat) : Except ReadError VarInfo :=
  match infos[idx]? with
  | some v => .ok v
  | none => .error .outOfBounds

/-- `fail_on`. -/
def failOn (cond : Bool) (msg : String) : Except ReadError Unit := if cond then .error (.fail msg) else .ok ()

/-- `reset_var_info`. -/
def resetVarInfo (idx : Nat) (name : String) : VarInfo := { varidx := idx, name := name }

/-- `read_init_heap`. -/
def readInitHeap (infos : List VarInfo) (varname : String) (value : U64) : Except ReadError (List VarInfo) := do
  let idx := idxFromVarnameInfos infos varname
  let vinfo ← infoAt infos idx
  failOn (vinfo.ty ≠ .notSet) "can only set an unset variable"
  return infos.set idx { vinfo with ty := .heap { val := value, isIdentityMapped := false } .page }

/-- `read_init_pte`. -/
def readInitPte (_infos : List VarInfo) (_varname : String) (_desc : U64) : Except ReadError (List VarInfo) :=
  .error (.fail "INIT_PTE unsupported, use INIT_UNMAPPED or INIT_AP\n")

/-- `read_init_fix`. -/
def readInitFix (infos : List VarInfo) (varname : String) (pa : U64) : Except ReadError (List VarInfo) := do
  let idx := idxFromVarnameInfos infos varname
  let vinfo ← infoAt infos idx
  failOn (vinfo.ty ≠ .notSet) "can only fix an unset variable"
  return infos.set idx { vinfo with ty := .fixed pa }

/-- `read_init_unmapped`. -/
def readInitUnmapped (infos : List VarInfo) (varname : String) : Except ReadError (List VarInfo) := do
  let idx := idxFromVarnameInfos infos varname
  let vinfo ← infoAt infos idx
  failOn (vinfo.ty ≠ .notSet)
    ("cannot unmap \"" ++ varname ++ "\": it already set (" ++ vinfo.ty.toStr.1 ++ ":" ++ vinfo.ty.toStr.2 ++ ")\n")
  return infos.set idx { vinfo with ty := .unmapped }

/-- `read_init_idmap`. -/
def readInitIdmap (infos : List VarInfo) (varname : String) : Except ReadError (List VarInfo) := do
  let idx := idxFromVarnameInfos infos varname
  let vinfo ← infoAt infos idx
  match vinfo.ty with
  | .heap back own => return infos.set idx { vinfo with ty := .heap { back with isIdentityMapped := true } own }
  | .pinned back v lvl => return infos.set idx { vinfo with ty := .pinned { back with isIdentityMapped := true } v lvl }
  | _ => .error (.fail "can only idmap a heap or pin variable.")

/-- `read_init_alias`. -/
def readInitAlias (infos : List VarInfo) (varname aliasname : String) : Except ReadError (List VarInfo) := do
  let idx := idxFromVarnameInfos infos varname
  let aliasidx := idxFromVarnameInfos infos aliasname
  let vinfo ← infoAt infos idx
  failOn (vinfo.ty ≠ .notSet) "can only alias an unset variable"
  let aliasvinfo ← infoAt infos aliasidx
  failOn (!aliasvinfo.isBacked) "can only alias to a heap variable."
  return infos.set idx { vinfo with ty := .alias aliasidx }

/-- `read_init_ap`. -/
def readInitAp (infos : List VarInfo) (varname : String) (protType : ProtType) (attr : U64) :
    Except ReadError (List VarInfo) := do
  let idx := idxFromVarnameInfos infos varname
  let vinfo ← infoAt infos idx
  match protType with
  | .ap => return infos.set idx { vinfo with initAttrs := { vinfo.initAttrs with ap := some attr } }
  | .attridx => return infos.set idx { vinfo with initAttrs := { vinfo.initAttrs with attridx := some attr } }

/-- `read_init_mair`. -/
def readInitMair (mairAttr7 : U64) : InitSystemState := { enableMair := true, mairAttr7 := mairAttr7 }

/-- `read_init_region_pin`. -/
def readInitRegionPin (infos : List VarInfo) (varname pinnedVarName : String) (pinLevel : PinLevel) :
    Except ReadError (List VarInfo) := do
  let idx := idxFromVarnameInfos infos varname
  let pinnedidx := idxFromVarnameInfos infos pinnedVarName
  let vinfo ← infoAt infos idx
  failOn (vinfo.ty = .notSet) "cannot modify a variable that is unset"
  match vinfo.ty with
  | .heap back _ =>
    let pinnedvinfo ← infoAt infos pinnedidx
    match pinnedvinfo.ty with
    | .heap _ _ => return infos.set idx { vinfo with ty := .pinned back pinnedidx pinLevel }
    | _ => .error (.fail "can only pinned to a heap variable.")
  | _ => .error (.fail "can only set pinned region for a heap variable.")

/-- `read_init_region_own`. -/
def readInitRegionOwn (infos : List VarInfo) (varname : String) (region : OwnLevel) :
    Except ReadError (List VarInfo) := do
  let idx := idxFromVarnameInfos infos varname
  let vinfo ← infoAt infos idx
  failOn (vinfo.ty = .notSet) "cannot modify a variable that is unset"
  match vinfo.ty with
  | .heap back _ => return infos.set idx { vinfo with ty := .heap back region }
  | _ => .error (.fail "can only set owned region for a heap variable.")

/-- `read_init_region_offs`. -/
def readInitRegionOffs (infos : List VarInfo) (varname offsvarname : String) (offs : RelOffset) :
    Except ReadError (List VarInfo) := do
  let idx := idxFromVarnameInfos infos varname
  let offsvaridx := idxFromVarnameInfos infos offsvarname
  let vinfo ← infoAt infos idx
  failOn (vinfo.ty = .notSet) "cannot modify a variable that is unset"
  let offsvinfo ← infoAt infos offsvaridx
  failOn (!offsvinfo.isBacked) "can only be offset from heap or pin variable."
  return infos.set idx
    { vinfo with initAttrs := { vinfo.initAttrs with regionOffset := some ⟨offsvaridx, offs⟩ } }

/-- The `switch` of `read_var_infos` on one entry of the initial state. -/
def readInitState (st : InitSystemState × List VarInfo) (var : InitVarstate) :
    Except ReadError (InitSystemState × List VarInfo) :=
  match var with
  | .heap name value => (readInitHeap st.2 name value).map fun infos => (st.1, infos)
  | .pte name value => (readInitPte st.2 name value).map fun infos => (st.1, infos)
  | .fix name value => (readInitFix st.2 name value).map fun infos => (st.1, infos)
  | .unmapped name => (readInitUnmapped st.2 name).map fun infos => (st.1, infos)
  | .identityMap name => (readInitIdmap st.2 name).map fun infos => (st.1, infos)
  | .alias name aliasname => (readInitAlias st.2 name aliasname).map fun infos => (st.1, infos)
  | .attrs name protType value => (readInitAp st.2 name protType value).map fun infos => (st.1, infos)
  | .mair value => .ok (readInitMair value, st.2)
  | .regionPin name pinned lvl => (readInitRegionPin st.2 name pinned lvl).map fun infos => (st.1, infos)
  | .regionOwn name own => (readInitRegionOwn st.2 name own).map fun infos => (st.1, infos)
  | .regionOffset name offs lvl => (readInitRegionOffs st.2 name offs lvl).map fun infos => (st.1, infos)

/-- The condition on the variable that the others are offset from. -/
def isFirst (v : VarInfo) : Bool :=
  (v.ownsRegion && v.initAttrs.regionOffset.isNone) || (v.ty = .notSet && v.initAttrs.regionOffset.isNone)

/-- The body of the loop that offsets the owning variables from the first. -/
def offsetFromFirst (first v : VarInfo) : VarInfo :=
  if v.varidx = first.varidx then v
  else if !v.ownsRegion then v
  else
    match v.ty with
    | .alias _ => v
    | _ =>
      if v.initAttrs.regionOffset.isSome then v
      else { v with initAttrs := { v.initAttrs with regionOffset := some ⟨first.varidx, .page⟩ } }

/-- The body of the loop that offsets the aliases from their targets. -/
def offsetAlias (first v : VarInfo) : Except ReadError VarInfo :=
  if v.varidx = first.varidx then .ok v
  else
    match v.ty with
    | .alias aliasedWith =>
      if v.initAttrs.regionOffset.isSome then .error (.fail "alias variable already has an offset")
      else .ok { v with initAttrs := { v.initAttrs with regionOffset := some ⟨aliasedWith, .page⟩ } }
    | _ => .ok v

/-- `read_var_infos`. -/
def readVarInfos (cfg : LitmusTest) (sysSt : InitSystemState) : Except ReadError (InitSystemState × List VarInfo) := do
  let infos := cfg.heapVarNames.mapIdx resetVarInfo
  let (sysSt, infos) ← cfg.initStates.foldlM readInitState (sysSt, infos)
  match infos.find? isFirst with
  | none =>
    if cfg.heapVarNames.length = 0 then return (sysSt, infos)
    else
      .error (.fail
        ("! read_var_infos: default state for test '" ++ cfg.name ++ "' has no owned variables to root to.\n"))
  | some first =>
    let infos := infos.map (offsetFromFirst first)
    let infos ← infos.mapM (offsetAlias first)
    return (sysSt, infos)

end LitmusHarness
