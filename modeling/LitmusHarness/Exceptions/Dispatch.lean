import LitmusHarness.Bitwise

/-!
# Exceptions: `exceptions.c`

The stubs of `vector_table.S` pass the number of their vector (0 to 15) and `ESR_EL1` to `handle_exception`, which looks
for a handler of this CPU and falls back to the handlers of the harness. All these indices go into tables without a
check. A table is the memory from its start on, and an index past its end reads what lies behind it; beside the result
the model keeps the list of all accesses, so that it can be said which of them stay in their tables
(`handleException_inBounds_iff`).
-/

namespace LitmusHarness

/-- `MAX_CPUS`. -/
abbrev maxCpus : Nat := 4

/-- What `get_cpu` returns. -/
abbrev CpuNo := Fin maxCpus

/-! ## The tables -/

/-- `vec_names[16]`. -/
def vecNames : List String := [
  "VEC_EL1T_SYNC", "VEC_EL1T_IRQ", "VEC_EL1T_FIQ", "VEC_EL1T_ERROR",
  "VEC_EL1H_SYNC", "VEC_EL1H_IRQ", "VEC_EL1H_FIQ", "VEC_EL1H_ERROR",
  "VEC_EL0_SYNC_64", "VEC_EL0_IRQ_64", "VEC_EL0_FIQ_64", "VEC_EL0_ERROR_64",
  "VEC_EL0_SYNC_32", "VEC_EL0_IRQ_32", "VEC_EL0_FIQ_32", "VEC_EL0_ERROR_32"]

/-- `ec_names[0x26]`: most classes have no name. -/
def ecNames : List (Option String) := (List.range 0x26).map fun
  | 0x15 => some "EC_SVC64"
  | 0x18 => some "EC_MRS_TRAP"
  | 0x20 => some "EC_IABT_EL0"
  | 0x21 => some "EC_IABT_EL1"
  | 0x22 => some "EC_PC_ALIGN"
  | 0x24 => some "EC_DABT_EL0"
  | 0x25 => some "EC_DABT_EL1"
  | _ => none

/-- `dabt_iss_dfsc[0x40]`. -/
def dabtIssDfsc : List (Option String) := (List.range 0x40).map fun
  | 0b000000 => some "DABT_DFSC_ADDR_L0"
  | 0b000001 => some "DABT_DFSC_ADDR_L1"
  | 0b000010 => some "DABT_DFSC_ADDR_L2"
  | 0b000011 => some "DABT_DFSC_ADDR_L3"
  | 0b000100 => some "DABT_DFSC_TRANS_L0"
  | 0b000101 => some "DABT_DFSC_TRANS_L1"
  | 0b000110 => some "DABT_DFSC_TRANS_L2"
  | 0b000111 => some "DABT_DFSC_TRANS_L3"
  | 0b001001 => some "DABT_DFSC_ACCFLAG_L1"
  | 0b001010 => some "DABT_DFSC_ACCFLAG_L2"
  | 0b001011 => some "DABT_DFSC_ACCFLAG_L3"
  | 0b001101 => some "DABT_DFSC_PERM_L1"
  | 0b001110 => some "DABT_DFSC_PERM_L2"
  | 0b001111 => some "DABT_DFSC_PERM_L3"
  | 0b010000 => some "DABT_DFSC_SYNC_EXTERNAL_UNKNOWN"
  | 0b010100 => some "DABT_DFSC_SYNC_EXTERNAL_L0"
  | 0b010101 => some "DABT_DFSC_SYNC_EXTERNAL_L1"
  | 0b010110 => some "DABT_DFSC_SYNC_EXTERNAL_L2"
  | 0b010111 => some "DABT_DFSC_SYNC_EXTERNAL_L3"
  | 0b100001 => some "DABT_DFSC_ALIGN"
  | 0b110000 => some "DABT_DFSC_TLB"
  | _ => none

/-- The tables of handlers, as memory in units of a pointer from the start of each on. `NULL` is `none`. -/
structure Handlers (F : Type) where
  vtable : Nat → Option F
  vtableSvc : Nat → Option F
  vtablePgfault : Nat → Option F

/-- Where `vtable[cpu][vec][ec]` is, the table being `[4][4][64]`. -/
def vtableIdx (cpu : CpuNo) (vec ec : Nat) : Nat := (cpu * 4 + vec) * 64 + ec

/-- Where `vtable_svc[cpu][imm]` is, the table being `[4][64]`. -/
def vtableSvcIdx (cpu : CpuNo) (imm : Nat) : Nat := cpu * 64 + imm

/-- Where `vtable_pgfault[cpu][imm]` is, the table being `[4][128]`. -/
def vtablePgfaultIdx (cpu : CpuNo) (imm : Nat) : Nat := cpu * 128 + imm

/-- The tables at the start: there are no handlers. Nothing is known about the memory behind them. -/
structure Handlers.Initial {F : Type} (h : Handlers F) : Prop where
  vtable : ∀ i < 4 * 4 * 64, h.vtable i = none
  vtableSvc : ∀ i < 4 * 64, h.vtableSvc i = none
  vtablePgfault : ∀ i < 4 * 128, h.vtablePgfault i = none

/-- No handlers, and nothing behind the tables either. -/
def Handlers.empty (F : Type) : Handlers F := ⟨fun _ => none, fun _ => none, fun _ => none⟩

theorem Handlers.empty_initial (F : Type) : (Handlers.empty F).Initial :=
  ⟨fun _ _ => rfl, fun _ _ => rfl, fun _ _ => rfl⟩

/-- The reading of a table at an index. -/
inductive Access
  | vtable (cpu : CpuNo) (vec ec : Nat)
  | vtableSvc (cpu : CpuNo) (imm : Nat)
  | vtablePgfault (cpu : CpuNo) (imm : Nat)
  | vecNames (vec : Nat)
  | ecNames (ec : Nat)
  | dabtIssDfsc (dfsc : Nat)
  deriving DecidableEq, Repr

/-- Each index is less than the bound of its dimension. -/
def Access.InBounds : Access → Prop
  | .vtable cpu vec ec => cpu.val < 4 ∧ vec < 4 ∧ ec < 64
  | .vtableSvc cpu imm => cpu.val < 4 ∧ imm < 64
  | .vtablePgfault cpu imm => cpu.val < 4 ∧ imm < 128
  | .vecNames vec => vec < LitmusHarness.vecNames.length
  | .ecNames ec => ec < LitmusHarness.ecNames.length
  | .dabtIssDfsc dfsc => dfsc < LitmusHarness.dabtIssDfsc.length

instance : DecidablePred Access.InBounds
  | .vtable _ _ _ => inferInstanceAs (Decidable (_ ∧ _ ∧ _))
  | .vtableSvc _ _ => inferInstanceAs (Decidable (_ ∧ _))
  | .vtablePgfault _ _ => inferInstanceAs (Decidable (_ ∧ _))
  | .vecNames _ => inferInstanceAs (Decidable (_ < _))
  | .ecNames _ => inferInstanceAs (Decidable (_ < _))
  | .dabtIssDfsc _ => inferInstanceAs (Decidable (_ < _))

/-! ## The handlers of the harness -/

/-- The system registers that the handlers read. -/
structure Sysregs where
  vbarEl1 : U64
  spsrEl1 : U64
  farEl1 : U64
  elrEl1 : U64

/-- What `default_handler` prints about the syndrome of a data abort. -/
structure DataAbort where
  fnv : U64
  wnr : U64
  dfsc : U64
  name : Option String
  deriving DecidableEq, Repr

/-- What `default_handler` prints before it aborts, up to the registers and the stack. -/
structure Report where
  cpu : CpuNo
  vbar : U64
  vec : U64
  vecName : Option String
  fromEl : U64
  ec : U64
  ecName : Option String
  esr : U64
  far : U64
  elr : U64
  dataAbort : Option DataAbort
  deriving DecidableEq, Repr

/-- What becomes of an exception: a handler is called, the interrupted code goes on with a new `SPSR_EL1` and a result,
or the harness stops. -/
inductive Action (F : Type)
  | call (fn : F)
  | resume (spsr ret : U64)
  | unhandled (r : Report)
  deriving DecidableEq, Repr

/-- The accesses on the way, and what becomes of the exception. -/
structure Dispatch (F : Type) where
  accesses : List Access
  action : Action F

def Dispatch.after {F : Type} (a : Access) (d : Dispatch F) : Dispatch F := { d with accesses := a :: d.accesses }

variable {F : Type}

/-- `default_handler`. The names behind the tables are not known, and left out. -/
def defaultHandler (cpu : CpuNo) (regs : Sysregs) (vec esr : U64) : Dispatch F :=
  let ec := esr >>> 26
  let iss := esr &&& bitmask 26
  let dfsc := iss &&& bitmask 6
  let isDataAbort := ec = 0x24 ∨ ec = 0x25
  { accesses := [.vecNames vec.toNat, .ecNames ec.toNat] ++ if isDataAbort then [.dabtIssDfsc dfsc.toNat] else []
    action := .unhandled {
      cpu, vbar := regs.vbarEl1, vec, vecName := vecNames[vec.toNat]?, fromEl := bitSlice regs.spsrEl1 3 2
      ec, ecName := ecNames[ec.toNat]?.join, esr, far := regs.farEl1, elr := regs.elrEl1
      dataAbort := if isDataAbort then
          some { fnv := (iss >>> 10) &&& 1, wnr := (iss >>> 6) &&& 1, dfsc, name := dabtIssDfsc[dfsc.toNat]?.join }
        else none } }

/-- `default_svc_drop_el0`. -/
def defaultSvcDropEl0 (regs : Sysregs) : Action F := .resume ((regs.spsrEl1 >>> 4) <<< 4) 0

/-- `default_svc_raise_el1`. -/
def defaultSvcRaiseEl1 (regs : Sysregs) : Action F := .resume (((regs.spsrEl1 >>> 4) <<< 4) + 4 + 0) 0

/-- `default_svc_read_currentel`. -/
def defaultSvcReadCurrentel (regs : Sysregs) : Action F := .resume regs.spsrEl1 (regs.spsrEl1 &&& 12)

/-- `default_svc_handler`. -/
def defaultSvcHandler (h : Handlers F) (cpu : CpuNo) (regs : Sysregs) (vec esr : U64) : Dispatch F :=
  let imm := esr &&& 0xffffff
  Dispatch.after (.vtableSvc cpu imm.toNat) <|
    match h.vtableSvc (vtableSvcIdx cpu imm.toNat) with
    | none =>
      if imm = 10 then ⟨[], defaultSvcDropEl0 regs⟩
      else if imm = 11 then ⟨[], defaultSvcRaiseEl1 regs⟩
      else if imm = 12 then ⟨[], defaultSvcReadCurrentel regs⟩
      else defaultHandler cpu regs vec esr
    | some fn => ⟨[], .call fn⟩

/-- `default_pgfault_handler`. -/
def defaultPgfaultHandler (h : Handlers F) (cpu : CpuNo) (regs : Sysregs) (vec esr : U64) : Dispatch F :=
  let imm := regs.farEl1 % 127
  Dispatch.after (.vtablePgfault cpu imm.toNat) <|
    match h.vtablePgfault (vtablePgfaultIdx cpu imm.toNat) with
    | none => defaultHandler cpu regs vec esr
    | some fn => ⟨[], .call fn⟩

/-- What `handle_exception` does when there is no handler for the class. -/
def defaultPath (h : Handlers F) (cpu : CpuNo) (regs : Sysregs) (vec esr : U64) : Dispatch F :=
  let ec := esr >>> 26
  if ec = 0x15 then defaultSvcHandler h cpu regs vec esr
  else if ec ||| 1 = 0x25 then defaultPgfaultHandler h cpu regs vec esr
  else defaultHandler cpu regs vec esr

/-- `handle_exception`. -/
def handleException (h : Handlers F) (cpu : CpuNo) (regs : Sysregs) (vec esr : U64) : Dispatch F :=
  let ec := esr >>> 26
  Dispatch.after (.vtable cpu vec.toNat ec.toNat) <|
    match h.vtable (vtableIdx cpu vec.toNat ec.toNat) with
    | some fn => ⟨[], .call fn⟩
    | none => defaultPath h cpu regs vec esr

/-! ## Bounds -/

/-- All accesses are in their tables. -/
def Dispatch.InBounds (d : Dispatch F) : Prop := ∀ a ∈ d.accesses, a.InBounds

instance (d : Dispatch F) : Decidable d.InBounds := inferInstanceAs (Decidable (∀ a ∈ d.accesses, a.InBounds))

theorem Dispatch.inBounds_after (a : Access) (d : Dispatch F) : (d.after a).InBounds ↔ a.InBounds ∧ d.InBounds := by
  simp only [Dispatch.InBounds, Dispatch.after, List.forall_mem_cons]

theorem Dispatch.inBounds_nil (act : Action F) : (⟨[], act⟩ : Dispatch F).InBounds := fun _ ha => nomatch ha

theorem vecNames_length : vecNames.length = 16 := rfl

theorem ecNames_length : ecNames.length = 0x26 := rfl

theorem dabtIssDfsc_length : dabtIssDfsc.length = 0x40 := rfl

/-- The status code of a data abort has as many bits as its table. -/
theorem dfsc_lt (iss : U64) : (iss &&& bitmask 6).toNat < 0x40 := by
  rw [toNat_and_bitmask _ (by decide)]
  exact Nat.mod_lt _ (by decide)

/-- `default_handler` stays in its tables as long as the class has a name, or an empty place for one. -/
theorem defaultHandler_inBounds_iff (cpu : CpuNo) (regs : Sysregs) {vec : U64} (hvec : vec.toNat < 16) (esr : U64) :
    (defaultHandler cpu regs vec esr : Dispatch F).InBounds ↔ (esr >>> 26).toNat < 0x26 := by
  have hdfsc := dfsc_lt (esr &&& bitmask 26)
  unfold defaultHandler Dispatch.InBounds
  simp only [List.mem_append, List.mem_cons, List.not_mem_nil, or_false]
  constructor
  · intro h
    have hec := h _ (.inl (.inr rfl))
    rwa [Access.InBounds, ecNames_length] at hec
  · rintro hec a ((rfl | rfl) | ha)
    · rwa [Access.InBounds, vecNames_length]
    · rwa [Access.InBounds, ecNames_length]
    · split at ha
      · rw [List.mem_singleton.mp ha, Access.InBounds, dabtIssDfsc_length]
        exact hdfsc
      · cases ha

theorem defaultSvcHandler_inBounds_iff (h : Handlers F) (cpu : CpuNo) (regs : Sysregs) {vec esr : U64}
    (hvec : vec.toNat < 16) (hec : esr >>> 26 = 0x15) :
    (defaultSvcHandler h cpu regs vec esr).InBounds ↔ (esr &&& 0xffffff).toNat < 64 := by
  have hdef : (defaultHandler cpu regs vec esr : Dispatch F).InBounds := by
    rw [defaultHandler_inBounds_iff cpu regs hvec, hec]
    decide
  unfold defaultSvcHandler
  rw [Dispatch.inBounds_after]
  refine ⟨fun hb => hb.1.2, fun himm => ⟨⟨cpu.isLt, himm⟩, ?_⟩⟩
  split
  · split_ifs
    · exact Dispatch.inBounds_nil _
    · exact Dispatch.inBounds_nil _
    · exact Dispatch.inBounds_nil _
    · exact hdef
  · exact Dispatch.inBounds_nil _

/-- The remainder of an address by 127 is always an index of the table. -/
theorem defaultPgfaultHandler_inBounds (h : Handlers F) (cpu : CpuNo) (regs : Sysregs) {vec esr : U64}
    (hvec : vec.toNat < 16) (hec : (esr >>> 26).toNat < 0x26) : (defaultPgfaultHandler h cpu regs vec esr).InBounds := by
  have hmod : (regs.farEl1 % 127).toNat < 128 := by
    rw [BitVec.toNat_umod]
    exact lt_trans (Nat.mod_lt _ (by decide)) (by decide)
  unfold defaultPgfaultHandler
  rw [Dispatch.inBounds_after]
  refine ⟨⟨cpu.isLt, hmod⟩, ?_⟩
  split
  · exact (defaultHandler_inBounds_iff cpu regs hvec esr).mpr hec
  · exact Dispatch.inBounds_nil _

/-- A data abort from one of the two levels. -/
theorem or_one_eq_dabt {ec : U64} (h : ec ||| 1 = 0x25) : ec.toNat < 0x26 := by
  have hle : ec.toNat ≤ (ec ||| 1).toNat := by
    rw [BitVec.toNat_or]
    exact Nat.left_le_or
  rw [h] at hle
  exact Nat.lt_succ_of_le hle

theorem defaultPath_inBounds_iff (h : Handlers F) (cpu : CpuNo) (regs : Sysregs) {vec : U64} (hvec : vec.toNat < 16)
    (esr : U64) : (defaultPath h cpu regs vec esr).InBounds ↔
      (esr >>> 26 = 0x15 → (esr &&& 0xffffff).toNat < 64) ∧ (esr >>> 26).toNat < 0x26 := by
  simp only [defaultPath]
  split_ifs with hsvc hdabt
  · rw [defaultSvcHandler_inBounds_iff h cpu regs hvec hsvc]
    have hlt : (esr >>> 26).toNat < 0x26 := by
      rw [hsvc]
      decide
    exact ⟨fun himm => ⟨fun _ => himm, hlt⟩, fun hb => hb.1 hsvc⟩
  · have hlt := or_one_eq_dabt hdabt
    exact iff_of_true (defaultPgfaultHandler_inBounds h cpu regs hvec hlt) ⟨fun hec => absurd hec hsvc, hlt⟩
  · rw [defaultHandler_inBounds_iff cpu regs hvec]
    exact ⟨fun hlt => ⟨fun hec => absurd hec hsvc, hlt⟩, fun hb => hb.2⟩

/-- **The dispatch stays in its tables** if and only if the vector is one of the first four, the syndrome has no bits
above its class, and there is a handler for the class or the harness' own handlers have a place for it. -/
theorem handleException_inBounds_iff (h : Handlers F) (cpu : CpuNo) (regs : Sysregs) (vec esr : U64)
    (hvec : vec.toNat < 16) : (handleException h cpu regs vec esr).InBounds ↔
      vec.toNat < 4 ∧ (esr >>> 26).toNat < 64 ∧
        (h.vtable (vtableIdx cpu vec.toNat (esr >>> 26).toNat) ≠ none ∨
          (esr >>> 26 = 0x15 → (esr &&& 0xffffff).toNat < 64) ∧ (esr >>> 26).toNat < 0x26) := by
  unfold handleException
  rw [Dispatch.inBounds_after, show (Access.vtable cpu vec.toNat (esr >>> 26).toNat).InBounds ↔
    vec.toNat < 4 ∧ (esr >>> 26).toNat < 64 from and_iff_right cpu.isLt, and_assoc]
  refine and_congr_right fun _ => and_congr_right fun _ => ?_
  split
  · rename_i fn hfn
    exact iff_of_true (Dispatch.inBounds_nil _) (.inl (by rw [hfn]; exact Option.some_ne_none fn))
  · rename_i hnone
    rw [defaultPath_inBounds_iff h cpu regs hvec, hnone]
    exact ⟨.inr, fun hor => hor.resolve_left (absurd rfl)⟩

/-- A call of the supervisor with a number that the harness knows, from the first vector. -/
theorem handleException_inBounds_at : (handleException (.empty Unit) 0 ⟨0, 0, 0, 0⟩ 0 0x5600000a).InBounds :=
  (handleException_inBounds_iff (.empty Unit) 0 ⟨0, 0, 0, 0⟩ 0 0x5600000a (by decide)).mpr
    ⟨by decide, by decide, .inr ⟨fun _ => by decide, by decide⟩⟩

/-- Without handlers an `SError` (class `0x2f`) from the code of a test is looked up behind the names of the classes, a
data abort in the harness (vector 4) behind the row of the CPU, and `svc #64` behind the row of calls. -/
theorem handleException_outOfBounds : ¬(handleException (.empty Unit) 0 ⟨0, 0, 0, 0⟩ 3 0xbe000000).InBounds ∧
    ¬(handleException (.empty Unit) 0 ⟨0, 0, 0, 0⟩ 4 0x96000044).InBounds ∧
    ¬(handleException (.empty Unit) 0 ⟨0, 0, 0, 0⟩ 0 0x56000040).InBounds := by
  decide

end LitmusHarness
