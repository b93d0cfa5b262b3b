import LitmusHarness.Exceptions.Dispatch
import LitmusHarness.Lib.Reach
import LitmusHarness.Lib.Slots

/-!
# The page fault handlers: `set_pgfault_handler`, `reset_pgfault_handler`

A handler is kept at the remainder of its address by 127, without the address. `PgState.registered` is what the calls
have asked for, which the code does not keep: it is there to say what the handlers of a fault should be. All is well
(`PgCall.Meets`) up to the first call or fault for an address whose place belongs to another one
(`pgfault_handlers_iff`).
-/

namespace LitmusHarness

variable {F : Type}

/-- `set_pgfault_handler`, on a CPU. -/
def setPgfaultHandler (h : Handlers F) (cpu : CpuNo) (va : U64) (fn : Option F) : Except String (Handlers F) :=
  let idx := (va % 127).toNat
  if (h.vtablePgfault (vtablePgfaultIdx cpu idx)).isSome then
    .error "! err: cannot set pagefault handler for same page twice.\n"
  else
    .ok { h with vtablePgfault := Function.update h.vtablePgfault (vtablePgfaultIdx cpu idx) fn }

/-- `reset_pgfault_handler`, on a CPU. -/
def resetPgfaultHandler (h : Handlers F) (cpu : CpuNo) (va : U64) : Handlers F :=
  { h with vtablePgfault := Function.update h.vtablePgfault (vtablePgfaultIdx cpu (va % 127).toNat) none }

/-- A call of one of the two on a CPU, or a fault there, at the address in `FAR_EL1`. -/
inductive PgCall (F : Type)
  | set (cpu : CpuNo) (va : U64) (fn : Option F)
  | reset (cpu : CpuNo) (va : U64)
  | fault (cpu : CpuNo) (regs : Sysregs) (vec esr : U64)

/-- The CPU and the address. -/
def PgCall.key : PgCall F → CpuNo × U64
  | set cpu va _ => (cpu, va)
  | reset cpu va => (cpu, va)
  | fault cpu regs _ _ => (cpu, regs.farEl1)

/-- The tables, and for each CPU and address the handler that was registered and not since reset. -/
structure PgState (F : Type) where
  tables : Handlers F
  registered : CpuNo × U64 → Option F

/-- What a call or a fault does; it may stop the harness. -/
def PgState.step (s : PgState F) : PgCall F → Option (PgState F)
  | .set cpu va fn =>
    match setPgfaultHandler s.tables cpu va fn with
    | .error _ => none
    | .ok h => some ⟨h, Function.update s.registered (cpu, va) fn⟩
  | .reset cpu va => some ⟨resetPgfaultHandler s.tables cpu va, Function.update s.registered (cpu, va) none⟩
  | .fault cpu regs vec esr =>
    match (defaultPgfaultHandler s.tables cpu regs vec esr).action with
    | .unhandled _ => none
    | _ => some s

/-- The place of an address in the table of its CPU. -/
def pgfaultSlot (k : CpuNo × U64) : Nat := vtablePgfaultIdx k.1 (k.2 % 127).toNat

/-- What is expected: a handler is registered when its address has none, a reset leaves the handlers of all other
addresses, and a fault calls a handler only if it was registered for the address. -/
def PgCall.Meets (s : PgState F) : PgCall F → Prop
  | .set cpu va fn => s.registered (cpu, va) = none → ∃ h, setPgfaultHandler s.tables cpu va fn = .ok h
  | .reset cpu va => ∀ k, k ≠ (cpu, va) → s.registered k ≠ none →
      (resetPgfaultHandler s.tables cpu va).vtablePgfault (pgfaultSlot k) = s.registered k
  | .fault cpu regs vec esr => ∀ fn, (defaultPgfaultHandler s.tables cpu regs vec esr).action = .call fn →
      s.registered (cpu, regs.farEl1) = some fn

/-- No other address with a handler on the CPU has the same remainder. -/
def PgState.Alone (s : PgState F) (k : CpuNo × U64) : Prop :=
  ∀ va, va ≠ k.2 → va % 127 = k.2 % 127 → s.registered (k.1, va) = none

/-- The table is what was registered, and no two addresses with handlers share a place. -/
def PgState.Inv (s : PgState F) : Prop := Slots.Represents pgfaultSlot s.tables.vtablePgfault s.registered

theorem umod_127_lt (va : U64) : (va % 127).toNat < 127 := by
  rw [BitVec.toNat_umod]
  exact Nat.mod_lt _ (by decide)

theorem pgfaultSlot_lt (k : CpuNo × U64) : pgfaultSlot k < 4 * 128 := by
  have hcpu : k.1.val < 4 := k.1.isLt
  have hmod := umod_127_lt k.2
  unfold pgfaultSlot vtablePgfaultIdx
  omega

/-- Places are shared on one CPU only, by addresses with one remainder. -/
theorem pgfaultSlot_eq {k k' : CpuNo × U64} : pgfaultSlot k = pgfaultSlot k' ↔ k.1 = k'.1 ∧ k.2 % 127 = k'.2 % 127 := by
  have hmod := umod_127_lt k.2
  have hmod' := umod_127_lt k'.2
  unfold pgfaultSlot vtablePgfaultIdx
  constructor
  · intro h
    exact ⟨Fin.ext (by omega), BitVec.eq_of_toNat_eq (by omega)⟩
  · rintro ⟨hcpu, hva⟩
    rw [hcpu, hva]

theorem PgState.alone_iff (s : PgState F) (k : CpuNo × U64) : s.Alone k ↔ ¬Slots.Clash pgfaultSlot s.registered k := by
  unfold PgState.Alone Slots.Clash
  constructor
  · rintro halone ⟨⟨cpu, va⟩, hne, hs, hreg⟩
    obtain ⟨rfl, hva⟩ := pgfaultSlot_eq.mp hs
    exact hreg (halone va (fun he => hne (Prod.ext rfl he)) hva)
  · intro hclash va hne hva
    by_contra hreg
    exact hclash ⟨(k.1, va), fun he => hne (congrArg Prod.snd he), pgfaultSlot_eq.mpr ⟨rfl, hva⟩, hreg⟩

theorem setPgfaultHandler_ok_iff (h : Handlers F) (cpu : CpuNo) (va : U64) (fn : Option F) :
    (∃ h', setPgfaultHandler h cpu va fn = .ok h') ↔ h.vtablePgfault (pgfaultSlot (cpu, va)) = none := by
  unfold setPgfaultHandler pgfaultSlot
  cases hv : h.vtablePgfault (vtablePgfaultIdx cpu (va % 127).toNat) with
  | none => exact iff_of_true ⟨_, if_neg (by rw [hv]; exact nofun)⟩ rfl
  | some fn' =>
    refine iff_of_false (fun ⟨h', hset⟩ => ?_) (Option.some_ne_none fn')
    rw [if_pos (by rw [hv]; rfl)] at hset
    cases hset

theorem setPgfaultHandler_ok {h h' : Handlers F} {cpu : CpuNo} {va : U64} {fn : Option F}
    (hset : setPgfaultHandler h cpu va fn = .ok h') :
    h'.vtablePgfault = Function.update h.vtablePgfault (pgfaultSlot (cpu, va)) fn := by
  simp only [setPgfaultHandler] at hset
  split at hset
  · cases hset
  · cases hset
    rfl

/-- The only handler that a fault can call is the one at the place of its address. -/
theorem defaultPgfaultHandler_call_iff (h : Handlers F) (cpu : CpuNo) (regs : Sysregs) (vec esr : U64) (fn : F) :
    (defaultPgfaultHandler h cpu regs vec esr).action = .call fn ↔
      h.vtablePgfault (pgfaultSlot (cpu, regs.farEl1)) = some fn := by
  unfold defaultPgfaultHandler pgfaultSlot
  cases hv : h.vtablePgfault (vtablePgfaultIdx cpu (regs.farEl1 % 127).toNat) with
  | none =>
    refine iff_of_false (fun h => ?_) (by rintro ⟨⟩)
    simp only [Dispatch.after, hv] at h
    cases h
  | some fn' => simp only [Dispatch.after, hv, Action.call.injEq, Option.some.injEq]

/-- One call or fault goes as expected if and only if its place belongs to no other address. -/
theorem PgCall.meets_iff {s : PgState F} (h : s.Inv) (c : PgCall F) : c.Meets s ↔ s.Alone c.key := by
  rw [PgState.alone_iff]
  cases c with
  | set cpu va fn =>
    simp only [PgCall.Meets, setPgfaultHandler_ok_iff]
    exact h.free_iff (cpu, va)
  | reset cpu va => exact h.erase_iff (cpu, va)
  | fault cpu regs vec esr =>
    simp only [PgCall.Meets, defaultPgfaultHandler_call_iff]
    exact h.lookup_iff (cpu, regs.farEl1)

/-- A step whose place belongs to no other address keeps the table as what was registered. -/
theorem PgState.Inv.step {s s' : PgState F} (h : s.Inv) {c : PgCall F} (halone : s.Alone c.key)
    (hs : s.step c = some s') : s'.Inv := by
  rw [PgState.alone_iff] at halone
  cases c with
  | set cpu va fn =>
    simp only [PgState.step] at hs
    split at hs
    · cases hs
    · rename_i h' hset
      cases hs
      rw [PgState.Inv, setPgfaultHandler_ok hset]
      exact h.update halone fn
  | reset cpu va =>
    cases hs
    exact h.update halone none
  | fault cpu regs vec esr =>
    simp only [PgState.step] at hs
    split at hs
    · cases hs
    · cases hs
      exact h

/-- **The page fault handlers are those of their addresses** along a run if and only if no call and no fault of the run
is for an address whose remainder by 127 is that of another address with a handler on the CPU. -/
theorem pgfault_handlers_iff {h : Handlers F} (hinit : h.Initial) (calls : List (PgCall F)) :
    Reach.Along PgState.step (fun s c => c.Meets s) ⟨h, fun _ => none⟩ calls ↔
      Reach.Along PgState.step (fun s c => s.Alone c.key) ⟨h, fun _ => none⟩ calls := by
  refine Reach.along_iff (I := PgState.Inv) (fun s c hs => PgCall.meets_iff hs c)
    (fun s c s' hs halone hstep => hs.step halone hstep) ?_
  exact Slots.Represents.empty fun k => hinit.vtablePgfault _ (pgfaultSlot_lt k)

/-- A handler for one page, and a fault there. -/
theorem pgfault_handlers_at : Reach.Along PgState.step (fun s c => c.Meets s) ⟨.empty Bool, fun _ => none⟩
    [.set 0 0x2000001000 (some true), .fault 0 ⟨0, 0, 0x2000001000, 0⟩ 0 0x96000044] := by
  refine (pgfault_handlers_iff (Handlers.empty_initial Bool) _).mpr ⟨fun _ _ _ => rfl, fun s' hs => ?_⟩
  cases hs
  refine ⟨fun va hne _ => ?_, fun _ _ => trivial⟩
  exact Function.update_of_ne (fun he => hne (congrArg Prod.snd he)) _ _

/-- The addresses of two pages, 127 pages apart: a fault at the second calls the handler of the first, the second
cannot have a handler of its own, and its reset removes the handler of the first. -/
theorem pgfault_handlers_clash :
    ¬Reach.Along PgState.step (fun s c => c.Meets s) ⟨.empty Bool, fun _ => none⟩
      [.set 0 0x2000001000 (some true), .fault 0 ⟨0, 0, 0x2000080000, 0⟩ 0 0x96000044] ∧
    ¬Reach.Along PgState.step (fun s c => c.Meets s) ⟨.empty Bool, fun _ => none⟩
      [.set 0 0x2000001000 (some true), .set 0 0x2000080000 (some false)] ∧
    ¬Reach.Along PgState.step (fun s c => c.Meets s) ⟨.empty Bool, fun _ => none⟩
      [.set 0 0x2000001000 (some true), .reset 0 0x2000080000] := by
  refine ⟨fun hrun => ?_, fun hrun => ?_, fun hrun => ?_⟩
  · cases (hrun.2 _ rfl).1 true rfl
  · obtain ⟨h, hset⟩ := (hrun.2 _ rfl).1 rfl
    cases hset
  · cases (hrun.2 _ rfl).1 (0, 0x2000001000) (by decide) (by decide)

end LitmusHarness
