import Mathlib.Logic.Function.Iterate
import LitmusHarness.Device.Layout
import LitmusHarness.Lib.Loop
import LitmusHarness.Lib.Reach

/-!
# The stack walker: `stack.c`

A frame has two words, the frame pointer of the caller and the return address. `walk_stack_from` follows the frame
pointers from a first one on, as long as they are in one stack; what it checks is the first word of a frame. It does not
look at the direction, so a frame pointer may lead back, and for a first pointer in no stack it goes on with a value of
`stack_end` that was never set. `stackWalkOk_iff` has the memories and frame pointers for which nothing goes wrong.
-/

namespace LitmusHarness

/-! ## The stacks -/

/-- Where the stacks are: eight stacks of 2 MiB from `BOT_OF_STACK_PA` on. -/
structure StackArea where
  botOfStackPa : U64
  fits : botOfStackPa.toNat + 2 ^ 24 ≤ 2 ^ 48

/-- `STACK_MMAP_BASE`. -/
def stackMmapBase : U64 := 16 * GiB

namespace StackArea

variable (a : StackArea)

/-- `STACK_PYS_THREAD_TOP_ELx`. -/
def threadTop (cpu el : Nat) : U64 :=
  a.botOfStackPa + BitVec.ofNat 64 ((1 + cpu) * 2) * stackSize - stackSize * BitVec.ofNat 64 (1 - el)

/-- `STACK_PYS_THREAD_BOT_ELx`. -/
def threadBot (cpu el : Nat) : U64 := a.threadTop cpu el - stackSize

/-- `IN_STACK_MMAP_SPACE`, with both ends. -/
def inStackMmapSpace (va : U64) : Bool := stackMmapBase ≤ va && va ≤ stackMmapBase + 1 * GiB

/-- `STACK_SAFE_PA`. -/
def safePa (va : U64) : U64 := if !inStackMmapSpace va then va else va - stackMmapBase + a.botOfStackPa

/-- `_stack_range_top`. The `break` leaves the inner loop, and `garbage` is in `stack_end` before the first one. -/
def rangeTop (garbage fp : U64) : U64 :=
  (List.range noCpus.toNat).foldl (fun stackEnd i =>
    match (List.range 2).find? fun el => a.threadBot i el ≤ a.safePa fp && a.safePa fp < a.threadTop i el with
    | some el => a.threadTop i el
    | none => stackEnd) garbage

/-- `stack_in_range`. -/
def stackInRange (fp stackTop : U64) : Bool := stackTop - stackSize ≤ a.safePa fp && a.safePa fp < stackTop

end StackArea

/-! ## The walk -/

section Walk

variable {σ : Type} (a : StackArea) (mem : U64 → U64) (cb : σ → U64 → U64 → σ)

/-- An iteration of `walk_stack_from`, on `fp` and what the callback has made of its argument. -/
def walkStackStep (stackTop : U64) (s : U64 × σ) : U64 × σ ⊕ σ :=
  if !a.stackInRange s.1 stackTop then .inr s.2
  else
    let prevFp := mem s.1
    let ret := mem (s.1 + 8)
    let arg := cb s.2 prevFp ret
    if prevFp = 0 then .inr arg else .inl (prevFp, arg)

/-- `walk_stack_from`, for at most `fuel` iterations. -/
def walkStackFrom (garbage : U64) (fuel : Nat) (fp : U64) (arg : σ) : Option σ :=
  Loop.untilReturn (walkStackStep a mem cb (a.rangeTop garbage fp)) fuel (fp, arg)

end Walk

/-- `stack_frame_t`. -/
structure StackFrame where
  next : U64
  ret : U64

/-- `stack_t`. -/
structure StackBuf where
  noFrames : Nat
  frames : Nat → StackFrame

/-- `collect_stack_frame`. -/
def collectStackFrame (buf : StackBuf) (fp retAddr : U64) : StackBuf :=
  { noFrames := buf.noFrames + 1
    frames := fun i => if i = buf.noFrames then ⟨fp, retAddr⟩ else buf.frames i }

/-- `collect_stack_from`. -/
def collectStackFrom (a : StackArea) (mem : U64 → U64) (garbage : U64) (fuel : Nat) (fp : U64) (buf : StackBuf) :
    Option StackBuf :=
  walkStackFrom a mem collectStackFrame garbage fuel fp buf

/-! ## What the walk may do -/

/-- The states that the walk reaches. -/
def StackReached {σ : Type} (a : StackArea) (mem : U64 → U64) (cb : σ → U64 → U64 → σ) (garbage fp : U64) (arg : σ) :
    U64 × σ → Prop :=
  Reach.Reachable (fun s => s = (fp, arg)) fun s s' => walkStackStep a mem cb (a.rangeTop garbage fp) s = .inl s'

/-- What an iteration dereferences. -/
def stackReads (a : StackArea) (stackTop fp : U64) : List U64 := if a.stackInRange fp stackTop then [fp, fp + 8] else []

/-- The end of what an iteration writes to the buffer: the frames start at 8, and have 16 bytes each. -/
def stackWriteEnd (a : StackArea) (stackTop : U64) (s : U64 × StackBuf) : Option Nat :=
  if a.stackInRange s.1 stackTop then some (8 + 16 * (s.2.noFrames + 1)) else none

namespace StackArea

variable (a : StackArea)

/-- An address in the stack of a CPU at a level. -/
def OnStack (cpu el : Nat) (x : U64) : Prop := a.threadBot cpu el ≤ a.safePa x ∧ a.safePa x < a.threadTop cpu el

instance (cpu el : Nat) (x : U64) : Decidable (a.OnStack cpu el x) := by
  unfold OnStack
  exact inferInstance

/-- A word in the stack. -/
def WordOnStack (cpu el : Nat) (x : U64) : Prop :=
  a.threadBot cpu el ≤ a.safePa x ∧ (a.safePa x).toNat + 8 ≤ (a.threadTop cpu el).toNat

/-- A frame in the stack: both of its words are. -/
def FrameOnStack (cpu el : Nat) (x : U64) : Prop := a.WordOnStack cpu el x ∧ a.WordOnStack cpu el (x + 8)

end StackArea

/-- The walk terminates, dereferences words of the stack that the first frame pointer is in and nothing else, and what is
collected fits in 1024 bytes; all this whatever the callback does, and whatever is in `stack_end` before. -/
structure StackWalkOk (a : StackArea) (mem : U64 → U64) (fp : U64) (buf : StackBuf) : Prop where
  terminates : ∀ (garbage : U64) {σ : Type} (cb : σ → U64 → U64 → σ) (arg : σ),
    ∃ fuel arg', walkStackFrom a mem cb garbage fuel fp arg = some arg'
  reads : ∀ (garbage : U64) {σ : Type} (cb : σ → U64 → U64 → σ) (arg : σ) (s : U64 × σ),
    StackReached a mem cb garbage fp arg s → ∀ x ∈ stackReads a (a.rangeTop garbage fp) s.1,
      ∃ cpu < noCpus.toNat, ∃ el < 2, a.OnStack cpu el fp ∧ a.WordOnStack cpu el x
  writes : ∀ (garbage : U64) (s : U64 × StackBuf), StackReached a mem collectStackFrame garbage fp buf s →
    ∀ e ∈ stackWriteEnd a (a.rangeTop garbage fp) s, e ≤ 1024

/-- The frame pointers, from the first one on. -/
def framePtr (mem : U64 → U64) (fp : U64) (k : Nat) : U64 := Nat.iterate mem k fp

/-- The first frame pointer is in a stack, and after frames that are in this stack and fit in the buffer there is a frame
pointer 0, or one that is not in the stack. Or it is in no stack, and it is the last of all addresses. -/
def StackChainOk (a : StackArea) (mem : U64 → U64) (fp : U64) (noFrames : Nat) : Prop :=
  (∃ cpu < noCpus.toNat, ∃ el < 2, a.OnStack cpu el fp ∧ ∃ n, noFrames + n ≤ 63 ∧
    (0 < n ∧ framePtr mem fp n = 0 ∨ ¬a.OnStack cpu el (framePtr mem fp n)) ∧
    ∀ k < n, a.FrameOnStack cpu el (framePtr mem fp k)) ∨
  (∀ cpu < noCpus.toNat, ∀ el < 2, ¬a.OnStack cpu el fp) ∧ a.safePa fp = -1

/-! ## The bounds of the stacks -/

namespace StackArea

variable {a : StackArea} {cpu el cpu' el' : Nat} {x fp garbage : U64}

theorem toNat_threadTop (hcpu : cpu < noCpus.toNat) (hel : el < 2) :
    (a.threadTop cpu el).toNat = a.botOfStackPa.toNat + (2 * cpu + el + 1) * 2 ^ 21 := by
  have hfits := a.fits
  have hsize : stackSize.toNat = 2 ^ 21 := rfl
  have hno : noCpus.toNat = 4 := rfl
  rw [hno] at hcpu
  rw [threadTop, BitVec.toNat_sub, BitVec.toNat_add, BitVec.toNat_mul, BitVec.toNat_mul, BitVec.toNat_ofNat,
    BitVec.toNat_ofNat, hsize]
  interval_cases cpu <;> interval_cases el <;> omega

theorem toNat_threadBot (hcpu : cpu < noCpus.toNat) (hel : el < 2) :
    (a.threadBot cpu el).toNat = a.botOfStackPa.toNat + (2 * cpu + el) * 2 ^ 21 := by
  have hsize : stackSize.toNat = 2 ^ 21 := rfl
  have htop := @toNat_threadTop a cpu el hcpu hel
  rw [threadBot, BitVec.toNat_sub_of_le]
  · omega
  · rw [BitVec.le_def]
    omega

theorem onStack_iff (hcpu : cpu < noCpus.toNat) (hel : el < 2) : a.OnStack cpu el x ↔
    a.botOfStackPa.toNat + (2 * cpu + el) * 2 ^ 21 ≤ (a.safePa x).toNat ∧
      (a.safePa x).toNat < a.botOfStackPa.toNat + (2 * cpu + el + 1) * 2 ^ 21 := by
  rw [OnStack, BitVec.le_def, BitVec.lt_def, toNat_threadBot hcpu hel, toNat_threadTop hcpu hel]

/-- The stacks are apart. -/
theorem OnStack.unique (h : a.OnStack cpu el x) (h' : a.OnStack cpu' el' x) (hcpu : cpu < noCpus.toNat) (hel : el < 2)
    (hcpu' : cpu' < noCpus.toNat) (hel' : el' < 2) : cpu = cpu' ∧ el = el' := by
  rw [onStack_iff hcpu hel] at h
  rw [onStack_iff hcpu' hel'] at h'
  omega

/-- What the inner loop of `_stack_range_top` finds. -/
theorem find_el {i : Nat} {r : Option Nat} (h : ((List.range 2).find? fun el =>
    a.threadBot i el ≤ a.safePa fp && a.safePa fp < a.threadTop i el) = r) :
    match r with
    | some el => el < 2 ∧ a.OnStack i el fp
    | none => ∀ el < 2, ¬a.OnStack i el fp := by
  cases r with
  | some el =>
    have hand := List.find?_some h
    rw [Bool.and_eq_true, decide_eq_true_iff, decide_eq_true_iff] at hand
    exact ⟨List.mem_range.mp (List.mem_of_find?_eq_some h), hand⟩
  | none =>
    intro el hel hon
    refine List.find?_eq_none.mp h el (List.mem_range.mpr hel) ?_
    rw [Bool.and_eq_true, decide_eq_true_iff, decide_eq_true_iff]
    exact hon

/-- The bounds of a stack that has the address are found. -/
theorem rangeTop_of_onStack (hcpu : cpu < noCpus.toNat) (hel : el < 2) (h : a.OnStack cpu el fp) :
    a.rangeTop garbage fp = a.threadTop cpu el := by
  have hfold : ∀ (l : List Nat) (g : U64), (∀ i ∈ l, i < noCpus.toNat) → (cpu ∈ l ∨ g = a.threadTop cpu el) →
      l.foldl (fun stackEnd i =>
        match (List.range 2).find? fun el => a.threadBot i el ≤ a.safePa fp && a.safePa fp < a.threadTop i el with
        | some el => a.threadTop i el
        | none => stackEnd) g = a.threadTop cpu el := by
    intro l
    induction l with
    | nil => exact fun g _ hg => hg.resolve_left List.not_mem_nil
    | cons i l ih =>
      intro g hl hg
      obtain ⟨hi, hl⟩ := List.forall_mem_cons.mp hl
      rw [List.foldl_cons]
      refine ih _ hl ?_
      cases hr : (List.range 2).find? fun el => a.threadBot i el ≤ a.safePa fp && a.safePa fp < a.threadTop i el with
      | some el₁ =>
        obtain ⟨hel₁, hon⟩ := find_el hr
        obtain ⟨rfl, rfl⟩ := hon.unique h hi hel₁ hcpu hel
        exact .inr rfl
      | none =>
        have hno := find_el hr
        rcases hg with hmem | hg
        · rcases List.mem_cons.mp hmem with rfl | hmem
          · exact absurd h (hno el hel)
          · exact .inl hmem
        · exact .inr hg
  exact hfold _ garbage (fun i hi => List.mem_range.mp hi) (.inl (List.mem_range.mpr hcpu))

/-- For an address in no stack, `stack_end` stays what it was. -/
theorem rangeTop_of_not (h : ∀ cpu < noCpus.toNat, ∀ el < 2, ¬a.OnStack cpu el fp) : a.rangeTop garbage fp = garbage := by
  have hfold : ∀ (l : List Nat), (∀ i ∈ l, i < noCpus.toNat) → l.foldl (fun stackEnd i =>
        match (List.range 2).find? fun el => a.threadBot i el ≤ a.safePa fp && a.safePa fp < a.threadTop i el with
        | some el => a.threadTop i el
        | none => stackEnd) garbage = garbage := by
    intro l
    induction l with
    | nil => exact fun _ => rfl
    | cons i l ih =>
      intro hl
      obtain ⟨hi, hl⟩ := List.forall_mem_cons.mp hl
      rw [List.foldl_cons]
      cases hr : (List.range 2).find? fun el => a.threadBot i el ≤ a.safePa fp && a.safePa fp < a.threadTop i el with
      | some el =>
        obtain ⟨hel, hon⟩ := find_el hr
        exact absurd hon (h i hi el hel)
      | none => exact ih hl
  exact hfold _ fun i hi => List.mem_range.mp hi

theorem stackInRange_iff_onStack : a.stackInRange x (a.threadTop cpu el) = true ↔ a.OnStack cpu el x := by
  rw [stackInRange, Bool.and_eq_true, decide_eq_true_iff, decide_eq_true_iff]
  exact Iff.rfl

end StackArea

/-! ## The states of a walk -/

section Chain

variable {σ : Type} {a : StackArea} {mem : U64 → U64} {cb : σ → U64 → U64 → σ} {garbage fp : U64} {arg : σ}

theorem framePtr_succ (mem : U64 → U64) (fp : U64) (k : Nat) : framePtr mem fp (k + 1) = mem (framePtr mem fp k) :=
  Function.iterate_succ_apply' mem k fp

/-- What the callback has made of its argument, after `k` frames. -/
def argAfter (mem : U64 → U64) (cb : σ → U64 → U64 → σ) (fp : U64) (arg : σ) : Nat → σ
  | 0 => arg
  | k + 1 => cb (argAfter mem cb fp arg k) (framePtr mem fp (k + 1)) (mem (framePtr mem fp k + 8))

theorem noFrames_argAfter (mem : U64 → U64) (fp : U64) (buf : StackBuf) (k : Nat) :
    (argAfter mem collectStackFrame fp buf k).noFrames = buf.noFrames + k := by
  induction k with
  | zero => rfl
  | succ k ih => exact congrArg (· + 1) ih

/-- The state after `k` frames. -/
def stateAfter (mem : U64 → U64) (cb : σ → U64 → U64 → σ) (fp : U64) (arg : σ) (k : Nat) : U64 × σ :=
  (framePtr mem fp k, argAfter mem cb fp arg k)

/-- The walk goes on after `k` frames. -/
def GoesOn (a : StackArea) (mem : U64 → U64) (top fp : U64) (k : Nat) : Prop :=
  a.stackInRange (framePtr mem fp k) top = true ∧ framePtr mem fp (k + 1) ≠ 0

theorem walkStackStep_inl_iff {top : U64} {k : Nat} {s : U64 × σ} :
    walkStackStep a mem cb top (stateAfter mem cb fp arg k) = .inl s ↔
      GoesOn a mem top fp k ∧ s = stateAfter mem cb fp arg (k + 1) := by
  unfold walkStackStep GoesOn stateAfter
  rw [argAfter, framePtr_succ]
  cases hin : a.stackInRange (framePtr mem fp k) top with
  | false => exact ⟨nofun, fun h => absurd h.1.1 Bool.false_ne_true⟩
  | true =>
    by_cases hzero : mem (framePtr mem fp k) = 0
    · refine ⟨fun h => ?_, fun h => absurd hzero h.1.2⟩
      cases (if_pos hzero).symm.trans h
    · refine ⟨fun h => ⟨⟨rfl, hzero⟩, (Sum.inl.inj ((if_neg hzero).symm.trans h)).symm⟩, ?_⟩
      rintro ⟨-, rfl⟩
      exact if_neg hzero

/-- The states that are reached: the ones after `k` frames, as long as it goes on. -/
theorem stackReached_iff {s : U64 × σ} : StackReached a mem cb garbage fp arg s ↔
    ∃ k, s = stateAfter mem cb fp arg k ∧ ∀ j < k, GoesOn a mem (a.rangeTop garbage fp) fp j := by
  constructor
  · intro h
    refine h.inv (I := fun s => ∃ k, s = stateAfter mem cb fp arg k ∧
      ∀ j < k, GoesOn a mem (a.rangeTop garbage fp) fp j) ?_ ?_
    · rintro s rfl
      exact ⟨0, rfl, fun j hj => absurd hj (Nat.not_lt_zero j)⟩
    · rintro s s' ⟨k, rfl, hk⟩ hstep
      obtain ⟨hon, rfl⟩ := walkStackStep_inl_iff.mp hstep
      refine ⟨k + 1, rfl, fun j hj => ?_⟩
      rcases Nat.lt_succ_iff_lt_or_eq.mp hj with hlt | rfl
      · exact hk j hlt
      · exact hon
  · rintro ⟨k, rfl, hk⟩
    induction k with
    | zero => exact .init rfl
    | succ k ih =>
      refine (ih fun j hj => hk j (Nat.lt_succ_of_lt hj)).step ?_
      exact walkStackStep_inl_iff.mpr ⟨hk k (Nat.lt_succ_self k), rfl⟩

/-- The walk ends exactly if there is a first frame after which it does not go on. -/
theorem walkStackFrom_iff : (∃ fuel arg', walkStackFrom a mem cb garbage fuel fp arg = some arg') ↔
    ∃ k, (∀ j < k, GoesOn a mem (a.rangeTop garbage fp) fp j) ∧ ¬GoesOn a mem (a.rangeTop garbage fp) fp k := by
  constructor
  · rintro ⟨fuel, arg', h⟩
    obtain ⟨k, hk, hret⟩ := Loop.untilReturn_ends (f := stateAfter mem cb fp arg)
      (fun k s hs => (walkStackStep_inl_iff.mp hs).2) h
    refine ⟨k, fun j hj => (walkStackStep_inl_iff.mp (hk j hj)).1, fun hon => ?_⟩
    rw [walkStackStep_inl_iff.mpr ⟨hon, rfl⟩] at hret
    cases hret
  · rintro ⟨k, hk, hno⟩
    have hchain := @Loop.untilReturn_chain _ _ (walkStackStep a mem cb (a.rangeTop garbage fp))
      (stateAfter mem cb fp arg) k (fun j hj => walkStackStep_inl_iff.mpr ⟨hk j hj, rfl⟩) 1
    cases hret : walkStackStep a mem cb (a.rangeTop garbage fp) (stateAfter mem cb fp arg k) with
    | inl s => exact absurd (walkStackStep_inl_iff.mp hret).1 hno
    | inr r =>
      refine ⟨k + 1, r, hchain.trans ?_⟩
      rw [Loop.untilReturn, hret]

end Chain

/-! ## When the walk is right -/

section Ok

variable {a : StackArea} {mem : U64 → U64} {fp : U64} {buf : StackBuf} {cpu el : Nat}

/-- A range check passes for some value of `stack_end`, except for the last address. -/
theorem exists_stackInRange (h : a.safePa fp ≠ -1) : ∃ garbage, a.stackInRange fp garbage = true := by
  have hlast : (a.safePa fp).toNat ≠ 2 ^ 64 - 1 := fun heq => h (BitVec.eq_of_toNat_eq heq)
  have hlt := (a.safePa fp).isLt
  have hsize : stackSize.toNat = 2 ^ 21 := rfl
  by_cases hfit : (a.safePa fp).toNat + 2 ^ 21 < 2 ^ 64
  · refine ⟨a.safePa fp + stackSize, ?_⟩
    have hsum : (a.safePa fp + stackSize).toNat = (a.safePa fp).toNat + 2 ^ 21 := by
      rw [BitVec.toNat_add, hsize, Nat.mod_eq_of_lt hfit]
    rw [StackArea.stackInRange, Bool.and_eq_true, decide_eq_true_iff, decide_eq_true_iff, BitVec.le_def, BitVec.lt_def,
      BitVec.toNat_sub_of_le (BitVec.le_def.mpr (by omega))]
    omega
  · refine ⟨-1, ?_⟩
    have hmax : (-1 : U64).toNat = 2 ^ 64 - 1 := rfl
    rw [StackArea.stackInRange, Bool.and_eq_true, decide_eq_true_iff, decide_eq_true_iff, BitVec.le_def, BitVec.lt_def,
      BitVec.toNat_sub_of_le (by decide)]
    omega

/-- While a safe walk goes on, its frames are in the stack and fit in the buffer. -/
theorem StackWalkOk.frame (h : StackWalkOk a mem fp buf) (hcpu : cpu < noCpus.toNat) (hel : el < 2)
    (hon : a.OnStack cpu el fp) {k : Nat} (hk : ∀ j < k, GoesOn a mem (a.threadTop cpu el) fp j)
    (hin : a.OnStack cpu el (framePtr mem fp k)) :
    a.FrameOnStack cpu el (framePtr mem fp k) ∧ buf.noFrames + k < 63 := by
  have htop : a.rangeTop 0 fp = a.threadTop cpu el := StackArea.rangeTop_of_onStack hcpu hel hon
  have hreached : StackReached a mem collectStackFrame 0 fp buf (stateAfter mem collectStackFrame fp buf k) :=
    stackReached_iff.mpr ⟨k, rfl, by rwa [htop]⟩
  have hrange : a.stackInRange (framePtr mem fp k) (a.rangeTop 0 fp) = true := by
    rw [htop]
    exact StackArea.stackInRange_iff_onStack.mpr hin
  have hword : ∀ x ∈ [framePtr mem fp k, framePtr mem fp k + 8], a.WordOnStack cpu el x := by
    intro x hx
    obtain ⟨cpu', hcpu', el', hel', hon', hword⟩ := h.reads 0 _ _ _ hreached x (by
      rw [stackReads, stateAfter, if_pos hrange]
      exact hx)
    obtain ⟨rfl, rfl⟩ := hon.unique hon' hcpu hel hcpu' hel'
    exact hword
  have hwrite := h.writes 0 _ hreached (8 + 16 * (buf.noFrames + k + 1)) (by
    rw [stackWriteEnd, stateAfter, if_pos hrange, noFrames_argAfter]
    rfl)
  exact ⟨⟨hword _ List.mem_cons_self, hword _ (List.mem_cons_of_mem _ List.mem_cons_self)⟩, by omega⟩

/-- A safe walk follows frames of one stack. -/
theorem StackWalkOk.chainOk (h : StackWalkOk a mem fp buf) : StackChainOk a mem fp buf.noFrames := by
  by_cases hstack : ∃ cpu < noCpus.toNat, ∃ el < 2, a.OnStack cpu el fp
  · obtain ⟨cpu, hcpu, el, hel, hon⟩ := hstack
    obtain ⟨n, hgo, hend⟩ := walkStackFrom_iff.mp (h.terminates 0 collectStackFrame buf)
    rw [StackArea.rangeTop_of_onStack hcpu hel hon] at hgo hend
    have hbefore : ∀ k < n, a.FrameOnStack cpu el (framePtr mem fp k) ∧ buf.noFrames + k < 63 := fun k hk =>
      h.frame hcpu hel hon (fun j hj => hgo j (hj.trans hk)) (StackArea.stackInRange_iff_onStack.mp (hgo k hk).1)
    refine .inl ⟨cpu, hcpu, el, hel, hon, ?_⟩
    by_cases hin : a.OnStack cpu el (framePtr mem fp n)
    · -- this is the last frame, and its frame pointer is 0
      obtain ⟨hlast, hfit⟩ := h.frame hcpu hel hon hgo hin
      have hzero : framePtr mem fp (n + 1) = 0 :=
        not_not.mp fun hne => hend ⟨StackArea.stackInRange_iff_onStack.mpr hin, hne⟩
      refine ⟨n + 1, by omega, .inl ⟨Nat.succ_pos n, hzero⟩, fun k hk => ?_⟩
      rcases Nat.lt_succ_iff_lt_or_eq.mp hk with hlt | rfl
      · exact (hbefore k hlt).1
      · exact hlast
    · obtain ⟨m, rfl⟩ : ∃ m, n = m + 1 := Nat.exists_eq_succ_of_ne_zero fun h0 => hin (by rw [h0]; exact hon)
      have hfit := (hbefore m (Nat.lt_succ_self m)).2
      exact ⟨m + 1, by omega, .inr hin, fun k hk => (hbefore k hk).1⟩
  · refine .inr ⟨fun cpu hcpu el hel hon => hstack ⟨cpu, hcpu, el, hel, hon⟩, ?_⟩
    by_contra hlast
    obtain ⟨garbage, hin⟩ := exists_stackInRange hlast
    have htop : a.rangeTop garbage fp = garbage :=
      StackArea.rangeTop_of_not fun cpu hcpu el hel hon => hstack ⟨cpu, hcpu, el, hel, hon⟩
    obtain ⟨cpu, hcpu, el, hel, hon, -⟩ := h.reads garbage collectStackFrame buf (fp, buf) (.init rfl) fp (by
      rw [stackReads, htop, if_pos hin]
      exact List.mem_cons_self)
    exact hstack ⟨cpu, hcpu, el, hel, hon⟩

/-- A frame pointer that is in the stack, and to which the walk has gone on, is before the end. -/
theorem lt_of_goesOn {top : U64} {n k : Nat} (htop : top = a.threadTop cpu el)
    (hend : (0 < n ∧ framePtr mem fp n = 0) ∨ ¬a.OnStack cpu el (framePtr mem fp n))
    (hk : ∀ j < k, GoesOn a mem top fp j) (hin : a.OnStack cpu el (framePtr mem fp k)) : k < n := by
  by_contra hge
  rcases hend with ⟨hpos, hzero⟩ | hout
  · have hgo := (hk (n - 1) (by omega)).2
    rw [Nat.sub_add_cancel hpos] at hgo
    exact hgo hzero
  · rcases Nat.lt_or_eq_of_le (Nat.le_of_not_lt hge) with hlt | rfl
    · have hrange := (hk n hlt).1
      rw [htop] at hrange
      exact hout (StackArea.stackInRange_iff_onStack.mp hrange)
    · exact hout hin

/-- After frames of a stack that end the walk does not go on. -/
theorem walkOk_of_frames {n : Nat} (hcpu : cpu < noCpus.toNat) (hel : el < 2) (hon : a.OnStack cpu el fp)
    (hn : buf.noFrames + n ≤ 63)
    (hend : (0 < n ∧ framePtr mem fp n = 0) ∨ ¬a.OnStack cpu el (framePtr mem fp n))
    (hframe : ∀ k < n, a.FrameOnStack cpu el (framePtr mem fp k)) : StackWalkOk a mem fp buf := by
  have htop : ∀ garbage, a.rangeTop garbage fp = a.threadTop cpu el := fun garbage =>
    StackArea.rangeTop_of_onStack hcpu hel hon
  have hlt : ∀ k, (∀ j < k, GoesOn a mem (a.threadTop cpu el) fp j) → a.OnStack cpu el (framePtr mem fp k) → k < n :=
    fun k => lt_of_goesOn rfl hend
  refine ⟨fun garbage σ cb arg => walkStackFrom_iff.mpr ?_, fun garbage σ cb arg s hs x hx => ?_,
    fun garbage s hs e he => ?_⟩
  · rw [htop]
    classical
    have hex : ∃ k, ¬GoesOn a mem (a.threadTop cpu el) fp k := by
      by_contra hno
      have hall : ∀ k, GoesOn a mem (a.threadTop cpu el) fp k := fun k => not_not.mp fun hk => hno ⟨k, hk⟩
      exact Nat.lt_irrefl n (hlt n (fun j _ => hall j) (StackArea.stackInRange_iff_onStack.mp (hall n).1))
    exact ⟨Nat.find hex, fun j hj => not_not.mp (Nat.find_min hex hj), Nat.find_spec hex⟩
  · obtain ⟨k, rfl, hk⟩ := stackReached_iff.mp hs
    rw [htop] at hk hx
    unfold stackReads stateAfter at hx
    split at hx
    · rename_i hin
      obtain ⟨h1, h2⟩ := hframe k (hlt k hk (StackArea.stackInRange_iff_onStack.mp hin))
      refine ⟨cpu, hcpu, el, hel, hon, ?_⟩
      rcases List.mem_cons.mp hx with rfl | hx
      · exact h1
      · rw [List.mem_singleton.mp hx]
        exact h2
    · exact absurd hx List.not_mem_nil
  · obtain ⟨k, rfl, hk⟩ := stackReached_iff.mp hs
    rw [htop] at hk he
    unfold stackWriteEnd stateAfter at he
    split at he
    · rename_i hin
      have := hlt k hk (StackArea.stackInRange_iff_onStack.mp hin)
      rw [noFrames_argAfter] at he
      obtain rfl := Option.some.inj he
      omega
    · cases he

/-- Outside of the stacks nothing is dereferenced, if the range check fails. -/
theorem walkOk_of_outside (hout : ∀ garbage, a.stackInRange fp (a.rangeTop garbage fp) = false) :
    StackWalkOk a mem fp buf := by
  have hstop : ∀ garbage, ¬GoesOn a mem (a.rangeTop garbage fp) fp 0 := by
    intro garbage hgo
    have hrange : a.stackInRange fp (a.rangeTop garbage fp) = true := hgo.1
    rw [hout] at hrange
    exact Bool.false_ne_true hrange
  have hfirst : ∀ {σ : Type} {cb : σ → U64 → U64 → σ} {garbage : U64} {arg : σ} {s : U64 × σ},
      StackReached a mem cb garbage fp arg s → s.1 = fp := by
    intro σ cb garbage arg s hs
    obtain ⟨k, rfl, hk⟩ := stackReached_iff.mp hs
    cases k with
    | zero => rfl
    | succ k => exact absurd (hk 0 (Nat.succ_pos k)) (hstop garbage)
  refine ⟨fun garbage σ cb arg => ?_, fun garbage σ cb arg s hs x hx => ?_, fun garbage s hs e he => ?_⟩
  · exact walkStackFrom_iff.mpr ⟨0, fun j hj => absurd hj (Nat.not_lt_zero j), hstop garbage⟩
  · rw [stackReads, hfirst hs, hout] at hx
    exact absurd hx List.not_mem_nil
  · rw [stackWriteEnd, hfirst hs, hout] at he
    cases he

/-- After the frames of the condition the walk does not go on. -/
theorem StackChainOk.walkOk (h : StackChainOk a mem fp buf.noFrames) : StackWalkOk a mem fp buf := by
  rcases h with ⟨cpu, hcpu, el, hel, hon, n, hn, hend, hframe⟩ | ⟨hnone, hlast⟩
  · exact walkOk_of_frames hcpu hel hon hn hend hframe
  · refine walkOk_of_outside fun garbage => ?_
    rw [StackArea.rangeTop_of_not hnone, StackArea.stackInRange, Bool.and_eq_false_iff, decide_eq_false_iff_not,
      decide_eq_false_iff_not, hlast]
    exact .inr (BitVec.not_lt.mpr (BitVec.le_def.mpr (Nat.le_of_lt_succ garbage.isLt)))

/-- **The walk is right** for exactly these memories and frame pointers. -/
theorem stackWalkOk_iff : StackWalkOk a mem fp buf ↔ StackChainOk a mem fp buf.noFrames :=
  ⟨StackWalkOk.chainOk, StackChainOk.walkOk⟩

end Ok

/-- Stacks from `0x40200000` on. -/
def exampleStacks : StackArea where
  botOfStackPa := 0x40200000
  fits := by decide

/-- A frame that is its own caller: the walk does not end. -/
theorem selfFrame_not_stackWalkOk :
    ¬StackWalkOk exampleStacks (fun _ => 0x40200000) 0x40200000 ⟨0, fun _ => ⟨0, 0⟩⟩ := by
  intro h
  obtain ⟨k, -, hno⟩ := walkStackFrom_iff.mp (h.terminates 0 collectStackFrame ⟨0, fun _ => ⟨0, 0⟩⟩)
  have hself : framePtr (fun _ => 0x40200000) 0x40200000 k = 0x40200000 := by
    cases k with
    | zero => rfl
    | succ k => exact framePtr_succ _ _ k
  refine hno ⟨?_, ?_⟩
  · rw [hself]
    decide +kernel
  · rw [framePtr_succ]
    exact (by decide : (0x40200000 : U64) ≠ 0)

end LitmusHarness
