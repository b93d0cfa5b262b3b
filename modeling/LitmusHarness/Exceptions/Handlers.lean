import LitmusHarness.Exceptions.Dispatch
import LitmusHarness.Lib.Slots

/-!
# The handlers of the CPUs: `set_handler`, `reset_handler`

A CPU has four rows of handlers, and the stubs know 16 vectors: the row of vector 4 of a CPU is the row of vector 0 of
the next one, and the rows of the last CPU end behind the table. With the first four vectors alone, no two places of
the table are the same (`vtableIdx_inj`), and an exception finds what its own CPU has last set for its vector and class
(`handleException_runCalls`); any other vector breaks this (`handlers_isolated_iff`).
-/

namespace LitmusHarness

variable {F : Type}

/-- `set_handler`, on a CPU. -/
def setHandler (h : Handlers F) (cpu : CpuNo) (vec ec : U64) (fn : Option F) : Handlers F :=
  { h with vtable := Function.update h.vtable (vtableIdx cpu vec.toNat ec.toNat) fn }

/-- `reset_handler`, on a CPU. -/
def resetHandler (h : Handlers F) (cpu : CpuNo) (vec ec : U64) : Handlers F :=
  { h with vtable := Function.update h.vtable (vtableIdx cpu vec.toNat ec.toNat) none }

/-- A call of one of the two on a CPU. -/
inductive VecCall (F : Type)
  | set (cpu : CpuNo) (vec ec : U64) (fn : Option F)
  | reset (cpu : CpuNo) (vec ec : U64)

namespace VecCall

/-- The CPU, the vector and the class that the call is for. -/
def key : VecCall F → CpuNo × U64 × U64
  | set cpu vec ec _ => (cpu, vec, ec)
  | reset cpu vec ec => (cpu, vec, ec)

/-- The handler that the call leaves there. -/
def fn : VecCall F → Option F
  | set _ _ _ fn => fn
  | reset _ _ _ => none

def exec (h : Handlers F) : VecCall F → Handlers F
  | set cpu vec ec fn => setHandler h cpu vec ec fn
  | reset cpu vec ec => resetHandler h cpu vec ec

end VecCall

/-- The tables after calls on any of the CPUs. -/
def runCalls (h : Handlers F) (calls : List (VecCall F)) : Handlers F := calls.foldl VecCall.exec h

/-- The handler that the CPU has last set for the vector and the class, and not since reset. -/
def lastSet (calls : List (VecCall F)) (cpu : CpuNo) (vec ec : U64) : Option F :=
  Slots.contents (fun _ => none) (calls.map fun c => (c.key, c.fn)) (cpu, vec, ec)

/-- The place of a key. -/
def vtableSlot (k : CpuNo × U64 × U64) : Nat := vtableIdx k.1 k.2.1.toNat k.2.2.toNat

theorem VecCall.exec_vtable (h : Handlers F) (c : VecCall F) :
    (c.exec h).vtable = Function.update h.vtable (vtableSlot c.key) c.fn := by
  cases c <;> rfl

/-- All calls together are writes of the table. -/
theorem runCalls_vtable (calls : List (VecCall F)) (h : Handlers F) : (runCalls h calls).vtable =
    Slots.contents h.vtable (calls.map fun c => (vtableSlot c.key, c.fn)) := by
  induction calls generalizing h with
  | nil => rfl
  | cons c calls ih =>
    rw [runCalls, List.foldl_cons, ← runCalls, ih, VecCall.exec_vtable]
    rfl

/-- The first four vectors have places of their own. -/
theorem vtableIdx_inj {cpu cpu' : CpuNo} {vec vec' ec ec' : Nat} (hvec : vec < 4) (hvec' : vec' < 4) (hec : ec < 64)
    (hec' : ec' < 64) (h : vtableIdx cpu vec ec = vtableIdx cpu' vec' ec') : cpu = cpu' ∧ vec = vec' ∧ ec = ec' := by
  unfold vtableIdx at h
  refine ⟨Fin.ext ?_, ?_, ?_⟩ <;> omega

theorem vtableIdx_lt (cpu : CpuNo) {vec ec : Nat} (hvec : vec < 4) (hec : ec < 64) :
    vtableIdx cpu vec ec < 4 * 4 * 64 := by
  have hcpu : cpu.val < 4 := cpu.isLt
  unfold vtableIdx
  omega

/-- The call is for one of the vectors, and for a class. -/
def VecCall.Uses (vecs : Set U64) (c : VecCall F) : Prop := c.key.2.1 ∈ vecs ∧ c.key.2.2.toNat < 64

/-- **With the first four vectors, the table has for each CPU, vector and class what was last set for it.** -/
theorem runCalls_lookup {h : Handlers F} (hinit : h.Initial) {vecs : Set U64} (hvecs : ∀ vec ∈ vecs, vec.toNat < 4)
    {calls : List (VecCall F)} (hcalls : ∀ c ∈ calls, c.Uses vecs) (cpu : CpuNo) {vec ec : U64}
    (hvec : vec ∈ vecs) (hec : ec.toNat < 64) :
    (runCalls h calls).vtable (vtableIdx cpu vec.toNat ec.toNat) = lastSet calls cpu vec ec := by
  have hsep : ∀ w ∈ calls.map fun c => (c.key, c.fn),
      vtableSlot w.1 = vtableSlot (cpu, vec, ec) → w.1 = (cpu, vec, ec) := by
    intro w hw hs
    obtain ⟨c, hc, rfl⟩ := List.mem_map.mp hw
    obtain ⟨hcv, hce⟩ := hcalls c hc
    obtain ⟨h₁, h₂, h₃⟩ := vtableIdx_inj (hvecs _ hcv) (hvecs _ hvec) hce hec hs
    exact Prod.ext h₁ (Prod.ext (BitVec.eq_of_toNat_eq h₂) (BitVec.eq_of_toNat_eq h₃))
  have h0 : h.vtable (vtableSlot (cpu, vec, ec)) = none := hinit.vtable _ (vtableIdx_lt cpu (hvecs _ hvec) hec)
  have hrun := Slots.contents_slot (a := fun _ => none) hsep h0
  rw [List.map_map] at hrun
  rw [runCalls_vtable]
  exact hrun

/-- What an exception is to do: the handler that its CPU has last set for its vector and class, or else the default. -/
def isolatedAction (h : Handlers F) (calls : List (VecCall F)) (cpu : CpuNo) (regs : Sysregs) (vec esr : U64) :
    Action F :=
  match lastSet calls cpu vec (esr >>> 26) with
  | some fn => .call fn
  | none => (defaultPath h cpu regs vec esr).action

/-- **An exception calls the handler that its own CPU has last set**, in every run with the first four vectors. -/
theorem handleException_runCalls {h : Handlers F} (hinit : h.Initial) {vecs : Set U64}
    (hvecs : ∀ vec ∈ vecs, vec.toNat < 4) {calls : List (VecCall F)} (hcalls : ∀ c ∈ calls, c.Uses vecs)
    (cpu : CpuNo) (regs : Sysregs) {vec esr : U64} (hvec : vec ∈ vecs) (hesr : (esr >>> 26).toNat < 64) :
    (handleException (runCalls h calls) cpu regs vec esr).action =
      isolatedAction (runCalls h calls) calls cpu regs vec esr := by
  simp only [handleException, isolatedAction, runCalls_lookup hinit hvecs hcalls cpu hvec hesr, Dispatch.after]
  cases lastSet calls cpu vec (esr >>> 26) <;> rfl

/-- A row of handlers behind the table. -/
def behindVtable (fn : F) : Handlers F :=
  { Handlers.empty F with vtable := fun i => if i < 4 * 4 * 64 then none else some fn }

theorem behindVtable_initial (fn : F) : (behindVtable fn).Initial :=
  ⟨fun _ hi => if_pos hi, fun _ _ => rfl, fun _ _ => rfl⟩

/-- On the last CPU each further vector has its row behind the table. -/
theorem handleException_behindVtable (fn : F) (regs : Sysregs) {vec : U64} (hvec : 4 ≤ vec.toNat) :
    (handleException (behindVtable fn) 3 regs vec 0).action = .call fn := by
  have hidx : ¬vtableIdx 3 vec.toNat 0 < 4 * 4 * 64 := by
    rw [vtableIdx, show ((3 : CpuNo) : Nat) = 3 from rfl]
    omega
  have hrow : (behindVtable fn).vtable (vtableIdx 3 vec.toNat ((0 : U64) >>> 26).toNat) = some fn := if_neg hidx
  simp only [handleException, hrow, Dispatch.after]

/-- **Handlers are isolated** for the runs and the exceptions with given vectors if and only if these are among the
first four. -/
theorem handlers_isolated_iff [Inhabited F] (vecs : Set U64) :
    (∀ h : Handlers F, h.Initial → ∀ calls : List (VecCall F), (∀ c ∈ calls, c.Uses vecs) →
      ∀ (cpu : CpuNo) (regs : Sysregs), ∀ vec ∈ vecs, ∀ esr : U64, (esr >>> 26).toNat < 64 →
        (handleException (runCalls h calls) cpu regs vec esr).action =
          isolatedAction (runCalls h calls) calls cpu regs vec esr) ↔
      ∀ vec ∈ vecs, vec.toNat < 4 := by
  constructor
  · intro hall vec hvec
    by_contra hge
    have hcall := handleException_behindVtable (default : F) ⟨0, 0, 0, 0⟩ (Nat.not_lt.mp hge)
    have hiso := hall _ (behindVtable_initial default) [] (fun c hc => nomatch hc) 3 ⟨0, 0, 0, 0⟩ vec hvec 0 (by decide)
    cases hcall.symm.trans hiso
  · exact fun hvecs h hinit calls hcalls cpu regs vec hvec esr hesr =>
      handleException_runCalls hinit hvecs hcalls cpu regs hvec hesr

/-- CPU 0 sets a handler for a data abort in the harness (vector 4), and CPU 1, which has set none, calls it when a test
makes a data abort (vector 0). -/
theorem handlers_not_isolated :
    lastSet [VecCall.set 0 4 0x25 (some true)] 1 0 (0x96000044 >>> 26) = none ∧
    (handleException (runCalls (.empty Bool) [.set 0 4 0x25 (some true)]) 1 ⟨0, 0, 0, 0⟩ 0 0x96000044).action =
      .call true := by
  decide

end LitmusHarness
