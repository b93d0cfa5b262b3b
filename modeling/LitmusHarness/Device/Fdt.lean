import LitmusHarness.Lib.Dtb
import LitmusHarness.Lib.Loop
import LitmusHarness.Lib.Mask

/-!
# Device-tree lookups: `device.c`

The lookups are loops over the pieces of the structure block (`whilePieces`), which differ in what they do with a piece.
Memory is a byte for every address, a pointer is a number below `2 ^ 64`, and `NULL` is `0`.

`dtbReadPiece_eq` is what is read of a piece in memory, and `whilePieces_eq` the loop on a list of pieces in memory:
it goes through the list (`runPieces`), and if no piece makes it return, it goes on behind the list.
-/

namespace LitmusHarness.Device

open Bytes

/-- What ends a lookup without a result: `abort`, an index outside of `namestack`, or a loop that goes round the whole
address space. -/
inductive Stop where
  | abort (msg : String)
  | namestack
  | endless
  deriving DecidableEq, Repr

/-- The number of addresses, which bounds the loops over memory. -/
def addresses : Nat := 2 ^ 64

/-! ## Strings and numbers in memory -/

/-- `read_be`. -/
def readBe (m : Mem) (p : Nat) : BitVec 32 :=
  ((m p).setWidth 32 <<< 24) + ((m (p + 1)).setWidth 32 <<< 16) + ((m (p + 2)).setWidth 32 <<< 8)
    + (m (p + 3)).setWidth 32

/-- One call of `strcmp`: its result, or the pointers of the next call. -/
def strcmpStep (m : Mem) : Nat × Nat → Nat × Nat ⊕ Bool
  | (s1, s2) =>
    if m s1 = 0 then .inr (m s2 = 0)
    else if m s1 ≠ m s2 then .inr false
    else .inl (s1 + 1, s2 + 1)

/-- `strcmp`, which is true on equal strings. -/
def strcmp (m : Mem) (s1 s2 : Nat) : Except Stop Bool :=
  match Loop.untilReturn (strcmpStep m) addresses (s1, s2) with
  | some b => .ok b
  | none => .error .endless

def skipStep (m : Mem) (ps : Nat) : Nat ⊕ Nat := if m ps = 0 then .inr ps else .inl (ps + 1)

/-- `while (*ps != '\0') ps++`. -/
def skipStr (m : Mem) (ps : Nat) : Except Stop Nat :=
  match Loop.untilReturn (skipStep m) addresses ps with
  | some ps => .ok ps
  | none => .error .endless

/-! ## Pieces -/

def fdtBeginNode : BitVec 32 := 0x00000001
def fdtEndNode : BitVec 32 := 0x00000002
def fdtProp : BitVec 32 := 0x00000003
def fdtEnd : BitVec 32 := 0x00000009

/-- `FDT_ALIGN`. -/
def fdtAlign (x : Nat) : Nat := ((BitVec.ofNat 64 x + 3) &&& ~~~3#64).toNat

/-- `fdt_structure_piece`. -/
structure FdtStructurePiece where
  current : Nat
  token : BitVec 32
  next : Nat
  deriving DecidableEq, Repr

/-- `dtb_read_piece`. -/
def dtbReadPiece (m : Mem) (p : Nat) : Except Stop FdtStructurePiece := do
  let token := readBe m p
  if token = fdtBeginNode then
    let ps ← skipStr m (p + 4)
    .ok ⟨p, token, fdtAlign (ps + 1)⟩
  else if token = fdtEndNode then .ok ⟨p, token, fdtAlign (p + 4)⟩
  else if token = fdtProp then
    let len := readBe m (p + 4)
    .ok ⟨p, token, fdtAlign (p + 12 + len.toNat)⟩
  else .ok ⟨p, token, 0⟩

/-- `hd->fdt_off_dt_struct`, from the start of memory. -/
def dtStruct (m : Mem) (fdt : Nat) : Nat := fdt + (readBe m (fdt + 8)).toNat

/-- `dtb_read_str`. -/
def dtbReadStr (m : Mem) (fdt : Nat) (nameoff : BitVec 32) : Nat := fdt + (readBe m (fdt + 12)).toNat + nameoff.toNat

/-! ## Lookups -/

/-- `current_node` and the part of `namestack` below `namestackdepth`, the last name first. -/
structure Names where
  currentNode : Nat
  namestack : List Nat
  deriving DecidableEq, Repr

/-- The variables before the first piece. -/
def Names.start : Names := ⟨0, []⟩

/-- `namestack[namestackdepth] = current_node; namestackdepth++; current_node = ...`. -/
def Names.push (s : Names) (structBlock : Nat) : Except Stop Names :=
  if s.namestack.length < 100 then .ok ⟨structBlock + 4, s.currentNode :: s.namestack⟩ else .error .namestack

/-- `namestackdepth--; current_node = namestack[namestackdepth];`. -/
def Names.pop (s : Names) : Except Stop Names :=
  match s.namestack with
  | [] => .error .namestack
  | c :: cs => .ok ⟨c, cs⟩

/-- `if (namestackdepth == 1) return NULL;`, and else back to the parent. -/
def Names.leave (s : Names) : Except Stop (Names ⊕ Nat) := do
  if s.namestack.length = 1 then .ok (.inr 0)
  else
    let s ← s.pop
    .ok (.inl s)

section Loop

variable {σ : Type}

/-- One iteration around the `switch` of a lookup, which goes on or returns a pointer. -/
def pieceStep (m : Mem) (switch : FdtStructurePiece → σ → Except Stop (σ ⊕ Nat)) (msg : String) :
    Nat × σ → Nat × σ ⊕ Except Stop Nat
  | (structBlock, s) =>
    if structBlock = 0 then .inr (.error (.abort msg))
    else
      match dtbReadPiece m structBlock with
      | .error e => .inr (.error e)
      | .ok piece =>
        match switch piece s with
        | .error e => .inr (.error e)
        | .ok (.inl s) => .inl (piece.next, s)
        | .ok (.inr r) => .inr (.ok r)

/-- `while (struct_block != NULL) { piece = dtb_read_piece(struct_block); switch ...; struct_block = piece.next; }`, with
`abort` after it. -/
def whilePieces (m : Mem) (switch : FdtStructurePiece → σ → Except Stop (σ ⊕ Nat)) (msg : String) (structBlock : Nat)
    (s : σ) : Except Stop Nat :=
  match Loop.untilReturn (pieceStep m switch msg) addresses (structBlock, s) with
  | some r => r
  | none => .error .endless

end Loop

/-- The `switch` of `fdt_find_node`. -/
def findNodeSwitch (m : Mem) (nodeName : Nat) (piece : FdtStructurePiece) (_ : Unit) : Except Stop (Unit ⊕ Nat) := do
  if piece.token = fdtBeginNode then
    if ← strcmp m (piece.current + 4) nodeName then .ok (.inr piece.current) else .ok (.inl ())
  else if piece.token = fdtEnd then .ok (.inr 0)
  else .ok (.inl ())

/-- `fdt_find_node`. -/
def fdtFindNode (m : Mem) (fdt nodeName : Nat) : Except Stop Nat :=
  whilePieces m (findNodeSwitch m nodeName) "! fdt_find_node, reached end of unreachable function ?\n" (dtStruct m fdt) ()

/-- The `switch` of `fdt_read_node`. -/
def readNodeSwitch (m : Mem) (nodeName : Nat) (piece : FdtStructurePiece) (s : Names) : Except Stop (Names ⊕ Nat) := do
  if piece.token = fdtBeginNode then
    let s ← s.push piece.current
    if ← strcmp m nodeName s.currentNode then .ok (.inr piece.current) else .ok (.inl s)
  else if piece.token = fdtEndNode then s.leave
  else if piece.token = fdtEnd then .ok (.inr 0)
  else .ok (.inl s)

/-- `fdt_read_node`. -/
def fdtReadNode (m : Mem) (node nodeName : Nat) : Except Stop Nat :=
  whilePieces m (readNodeSwitch m nodeName)
    "! fdt_read_node, could not find node \"%s\" under node \"%s\": never reached FDT_END\n" node Names.start

/-- The `switch` of `fdt_read_prop`. -/
def readPropSwitch (m : Mem) (fdt propName : Nat) (piece : FdtStructurePiece) (s : Names) :
    Except Stop (Names ⊕ Nat) := do
  if piece.token = fdtBeginNode then
    let s ← s.push piece.current
    .ok (.inl s)
  else if piece.token = fdtEndNode then s.leave
  else if piece.token = fdtProp then
    let prop := dtbReadStr m fdt (readBe m (piece.current + 8))
    if s.namestack.length = 1 then
      if ← strcmp m prop propName then .ok (.inr piece.current) else .ok (.inl s)
    else .ok (.inl s)
  else if piece.token = fdtEnd then .ok (.inr 0)
  else .ok (.inl s)

/-- `fdt_read_prop`. -/
def fdtReadProp (m : Mem) (fdt node propName : Nat) : Except Stop Nat :=
  whilePieces m (readPropSwitch m fdt propName)
    "! fdt_read_prop, could not find property \"%s\" for node \"%s\": never reached FDT_END\n" node Names.start

/-- The `switch` of `fdt_find_prop`. -/
def findPropSwitch (m : Mem) (fdt nodeName propName : Nat) (piece : FdtStructurePiece) (s : Names) :
    Except Stop (Names ⊕ Nat) := do
  if piece.token = fdtBeginNode then
    let s ← s.push piece.current
    .ok (.inl s)
  else if piece.token = fdtEndNode then
    let s ← s.pop
    .ok (.inl s)
  else if piece.token = fdtProp then
    let prop := dtbReadStr m fdt (readBe m (piece.current + 8))
    if ← strcmp m s.currentNode nodeName then
      if ← strcmp m propName prop then .ok (.inr piece.current) else .ok (.inl s)
    else .ok (.inl s)
  else if piece.token = fdtEnd then .ok (.inr 0)
  else .ok (.inl s)

/-- `fdt_find_prop`. -/
def fdtFindProp (m : Mem) (fdt nodeName propName : Nat) : Except Stop Nat :=
  whilePieces m (findPropSwitch m fdt nodeName propName)
    "! fdt_find_prop, could not find property \"%s\" for node \"%s\": never reached FDT_END\n" (dtStruct m fdt) Names.start

/-! ## What is read of memory -/

section Reads

variable {m : Mem} {a : Nat}

theorem readBe_eq {v : BitVec 32} (h : Holds m a (Dtb.be32 v)) : readBe m a = v := by
  obtain ⟨h0, h1, h2, h3, -⟩ := h
  rw [readBe, h0, h1, h2, h3]
  apply BitVec.eq_of_toNat_eq
  have hv := v.isLt
  simp only [BitVec.toNat_add, BitVec.toNat_shiftLeft, BitVec.toNat_setWidth, BitVec.extractLsb'_toNat,
    Nat.shiftRight_eq_div_pow, Nat.shiftLeft_eq]
  omega

theorem untilReturn_strcmp : ∀ {l l' : List (BitVec 8)} {p q n : Nat}, 0#8 ∉ l → 0#8 ∉ l' → Holds m p (l ++ [0#8]) →
    Holds m q (l' ++ [0#8]) → l.length < n → Loop.untilReturn (strcmpStep m) n (p, q) = some (decide (l = l'))
  | _, _, _, _, 0, _, _, _, _, hn => absurd hn (Nat.not_lt_zero _)
  | [], [], p, q, n + 1, _, _, hp, hq, _ => by
    simp [Loop.untilReturn, strcmpStep, hp.1, hq.1]
  | [], c :: l', p, q, n + 1, _, hl', hp, hq, _ => by
    have hc : c ≠ 0#8 := fun h => hl' (h ▸ List.mem_cons_self)
    simp [Loop.untilReturn, strcmpStep, hp.1, hq.1, hc]
  | b :: l, [], p, q, n + 1, hl, _, hp, hq, _ => by
    have hb : b ≠ 0#8 := fun h => hl (h ▸ List.mem_cons_self)
    simp [Loop.untilReturn, strcmpStep, hp.1, hq.1, hb]
  | b :: l, c :: l', p, q, n + 1, hl, hl', hp, hq, hn => by
    have hb : b ≠ 0#8 := fun h => hl (h ▸ List.mem_cons_self)
    have ih := @untilReturn_strcmp l l' (p + 1) (q + 1) n (fun h => hl (List.mem_cons_of_mem _ h))
      (fun h => hl' (List.mem_cons_of_mem _ h)) hp.2 hq.2 (Nat.lt_of_succ_lt_succ hn)
    by_cases hbc : b = c
    · simp [Loop.untilReturn, strcmpStep, hp.1, hq.1, hb, ih, ← hbc]
    · simp [Loop.untilReturn, strcmpStep, hp.1, hq.1, hb, hbc]

/-- `strcmp` compares the strings. -/
theorem strcmp_eq {p q : Nat} {s t : Str} (hs : IsStr m p s) (ht : IsStr m q t) :
    strcmp m p q = .ok (decide (s = t)) := by
  have hlt : s.1.length < addresses := Nat.lt_of_le_of_lt (Nat.le_add_left _ _) hs.2
  rw [strcmp, untilReturn_strcmp s.2 t.2 hs.1 ht.1 hlt]
  simp only [Subtype.ext_iff]

theorem untilReturn_skip {l : List (BitVec 8)} {p n : Nat} (hl : 0#8 ∉ l) (hp : Holds m p (l ++ [0#8]))
    (hn : l.length < n) : Loop.untilReturn (skipStep m) n p = some (p + l.length) := by
  obtain ⟨n, rfl⟩ := Nat.exists_eq_add_one_of_ne_zero (Nat.ne_zero_of_lt hn)
  induction l generalizing p n with
  | nil => simp [Loop.untilReturn, skipStep, hp.1]
  | cons b l ih =>
    have hb : b ≠ 0#8 := fun h => hl (h ▸ List.mem_cons_self)
    have hn' : l.length < n := Nat.lt_of_succ_lt_succ hn
    obtain ⟨n, rfl⟩ := Nat.exists_eq_add_one_of_ne_zero (Nat.ne_zero_of_lt hn')
    rw [List.length_cons, show p + (l.length + 1) = p + 1 + l.length by omega,
      ← ih (fun h => hl (List.mem_cons_of_mem _ h)) hp.2 n hn']
    simp [Loop.untilReturn, skipStep, hp.1, hb]

theorem skipStr_eq {p : Nat} {s : Str} (hs : IsStr m p s) : skipStr m p = .ok (p + s.1.length) := by
  have hlt : s.1.length < addresses := Nat.lt_of_le_of_lt (Nat.le_add_left _ _) hs.2
  rw [skipStr, untilReturn_skip s.2 hs.1 hlt]

theorem fdtAlign_eq {x : Nat} (h : x + 3 < 2 ^ 64) : fdtAlign x = (x + 3) / 4 * 4 := by
  have hmask : (3#64) = (1#64) <<< 2 - 1#64 := by decide
  rw [fdtAlign, hmask, Mask.toNat_and_not_mask _ (by decide), BitVec.toNat_add, BitVec.toNat_ofNat,
    Nat.mod_eq_of_lt (by omega : x < 2 ^ 64)]
  change (x + 3) % 2 ^ 64 / 4 * 4 = _
  rw [Nat.mod_eq_of_lt h]

end Reads

/-! ## Pieces in memory -/

/-- The pieces are in memory from `a` on, aligned and below the end of the address space. -/
structure Stored (m : Mem) (a : Nat) (ps : List Dtb.Piece) : Prop where
  aligned : 4 ∣ a
  pos : 0 < a
  fits : a + Dtb.sizes ps < 2 ^ 64
  holds : Holds m a (Dtb.bytesOf ps)

section Pieces

variable {m : Mem} {a : Nat} {ps qs : List Dtb.Piece}

theorem Stored.append (h : Stored m a (ps ++ qs)) : Stored m a ps ∧ Stored m (a + Dtb.sizes ps) qs := by
  have hholds := h.holds
  have hfits := h.fits
  rw [Dtb.bytesOf, List.flatMap_append, holds_append] at hholds
  rw [Dtb.sizes_append] at hfits
  refine ⟨⟨h.aligned, h.pos, by omega, hholds.1⟩, ?_, ?_, by omega, hholds.2⟩
  · exact Nat.dvd_add h.aligned (Dtb.four_dvd_sizes ps)
  · exact Nat.lt_of_lt_of_le h.pos (Nat.le_add_right _ _)

theorem Stored.cons {p : Dtb.Piece} (h : Stored m a (p :: ps)) : Stored m a [p] ∧ Stored m (a + p.size) ps := by
  have h' := @Stored.append m a [p] ps h
  rwa [Dtb.sizes_cons, Dtb.sizes_nil, Nat.add_zero] at h'

/-- The padding does not matter. -/
theorem Stored.of_pad {l : List (BitVec 8)} (h : Holds m a (Dtb.pad l)) : Holds m a l := (holds_append.mp h).1

/-- The name of a node is behind the token. -/
theorem Stored.isStr {name : Str} (h : Stored m a [.beginNode name]) : IsStr m (a + 4) name := by
  have hholds := h.holds
  have hfits := h.fits
  rw [Dtb.sizes_cons, Dtb.sizes_nil, Dtb.Piece.size_beginNode] at hfits
  rw [Dtb.bytesOf, List.flatMap_singleton] at hholds
  exact ⟨(holds_append.mp (Stored.of_pad hholds)).2, by omega⟩

/-- The fields of the header of a property. -/
theorem Stored.header {p : Dtb.Property} (h : Stored m a [.prop p]) :
    readBe m (a + 4) = BitVec.ofNat 32 p.value.length ∧ readBe m (a + 8) = p.nameoff := by
  have hholds := h.holds
  rw [Dtb.bytesOf, List.flatMap_singleton] at hholds
  obtain ⟨-, hlen, hrest⟩ := (holds_append.mp (Stored.of_pad hholds)).imp id holds_append.mp
  exact ⟨readBe_eq hlen, readBe_eq (holds_append.mp hrest).1⟩

theorem Stored.token {p : Dtb.Piece} (h : Stored m a [p]) : readBe m a = p.token := by
  have hholds := h.holds
  rw [Dtb.bytesOf, List.flatMap_singleton] at hholds
  cases p with
  | beginNode name => exact readBe_eq (holds_append.mp (Stored.of_pad hholds)).1
  | prop p => exact readBe_eq (holds_append.mp (Stored.of_pad hholds)).1
  | endNode => exact readBe_eq hholds

/-- **A piece in memory is read with its token, and the next one is behind it.** -/
theorem dtbReadPiece_eq {p : Dtb.Piece} (h : Stored m a [p]) :
    dtbReadPiece m a = .ok ⟨a, p.token, a + p.size⟩ := by
  have hfits := h.fits
  have haligned := h.aligned
  rw [Dtb.sizes_cons, Dtb.sizes_nil] at hfits
  cases p with
  | beginNode name =>
    rw [Dtb.Piece.size_beginNode] at hfits ⊢
    have hnext : fdtAlign (a + 4 + name.1.length + 1) = a + (name.1.length + 8) / 4 * 4 := by
      rw [fdtAlign_eq (by omega)]
      omega
    simp only [dtbReadPiece, h.token, Dtb.Piece.token, fdtBeginNode, BitVec.ofNat_eq_ofNat, if_true, skipStr_eq h.isStr]
    change Except.ok _ = _
    rw [hnext]
  | prop p =>
    rw [Dtb.Piece.size_prop] at hfits ⊢
    have hlen : (readBe m (a + 4)).toNat = p.value.length := by
      rw [h.header.1, BitVec.toNat_ofNat, Nat.mod_eq_of_lt p.length_lt]
    have hnext : fdtAlign (a + 12 + p.value.length) = a + (p.value.length + 15) / 4 * 4 := by
      rw [fdtAlign_eq (by omega)]
      omega
    simp only [dtbReadPiece, h.token, hlen, hnext]
    rfl
  | endNode =>
    have hnext : fdtAlign (a + 4) = a + 4 := by
      rw [Dtb.Piece.size_endNode] at hfits
      rw [fdtAlign_eq (by omega)]
      omega
    simp only [dtbReadPiece, h.token, hnext, Dtb.Piece.size_endNode]
    rfl

/-- The end of the structure block. -/
theorem dtbReadPiece_end (h : Holds m a (Dtb.be32 9)) : dtbReadPiece m a = .ok ⟨a, fdtEnd, 0⟩ := by
  simp only [dtbReadPiece, readBe_eq h]
  rfl

end Pieces

/-! ## Loops with any result -/

section RunOf

variable {σ ρ ε : Type} {m : Mem} {fail : Stop → ε} {switch : FdtStructurePiece → σ → Except ε (σ ⊕ ρ)} {msg : String}

/-- `pieceStep` for a `switch` that returns a `ρ`, or stops with an `ε`. -/
def stepOf (m : Mem) (fail : Stop → ε) (switch : FdtStructurePiece → σ → Except ε (σ ⊕ ρ)) (msg : String) :
    Nat × σ → Nat × σ ⊕ Except ε ρ
  | (structBlock, s) =>
    if structBlock = 0 then .inr (.error (fail (.abort msg)))
    else
      match dtbReadPiece m structBlock with
      | .error e => .inr (.error (fail e))
      | .ok piece =>
        match switch piece s with
        | .error e => .inr (.error e)
        | .ok (.inl s) => .inl (piece.next, s)
        | .ok (.inr r) => .inr (.ok r)

/-- `whilePieces` for such a `switch`. -/
def whileOf (m : Mem) (fail : Stop → ε) (switch : FdtStructurePiece → σ → Except ε (σ ⊕ ρ)) (msg : String)
    (structBlock : Nat) (s : σ) : Except ε ρ :=
  match Loop.untilReturn (stepOf m fail switch msg) addresses (structBlock, s) with
  | some r => r
  | none => .error (fail .endless)

/-- The `switch` on one piece after the other. -/
def runOf (switch : FdtStructurePiece → σ → Except ε (σ ⊕ ρ)) : Nat → List Dtb.Piece → σ → Except ε (σ ⊕ ρ)
  | _, [], s => .ok (.inl s)
  | a, p :: ps, s =>
    match switch ⟨a, p.token, a + p.size⟩ s with
    | .error e => .error e
    | .ok (.inl s) => runOf switch (a + p.size) ps s
    | .ok (.inr r) => .ok (.inr r)

theorem runOf_append (ps qs : List Dtb.Piece) (a : Nat) (s : σ) :
    runOf switch a (ps ++ qs) s =
      match runOf switch a ps s with
      | .error e => .error e
      | .ok (.inl s') => runOf switch (a + Dtb.sizes ps) qs s'
      | .ok (.inr r) => .ok (.inr r) := by
  induction ps generalizing a s with
  | nil => rfl
  | cons p ps ih =>
    rw [List.cons_append, runOf, runOf, Dtb.sizes_cons, ← Nat.add_assoc]
    rcases switch ⟨a, p.token, a + p.size⟩ s with e | s₁ | r
    · rfl
    · exact ih _ _
    · rfl

/-- The loop goes through the pieces in memory. -/
theorem untilReturn_runOf {ps : List Dtb.Piece} {a : Nat} {s : σ} (n : Nat) (h : Stored m a ps) :
    Loop.untilReturn (stepOf m fail switch msg) (n + ps.length) (a, s) =
      match runOf switch a ps s with
      | .error e => some (.error e)
      | .ok (.inl s') => Loop.untilReturn (stepOf m fail switch msg) n (a + Dtb.sizes ps, s')
      | .ok (.inr r) => some (.ok r) := by
  induction ps generalizing a s with
  | nil => rfl
  | cons p ps ih =>
    obtain ⟨hp, hps⟩ := h.cons
    rw [List.length_cons, ← Nat.add_assoc, Loop.untilReturn, stepOf, if_neg (Nat.ne_of_gt h.pos), dtbReadPiece_eq hp,
      runOf]
    rcases hsw : switch ⟨a, p.token, a + p.size⟩ s with e | s₁ | r
    · simp only [hsw]
    · simp only [hsw]
      rw [Dtb.sizes_cons, ← Nat.add_assoc]
      exact ih hps
    · simp only [hsw]

/-- There are fewer pieces in memory than addresses. -/
theorem Stored.length_lt {ps : List Dtb.Piece} {a : Nat} (h : Stored m a ps) : ps.length + 1 < addresses := by
  have := Dtb.length_le_sizes ps
  have := h.fits
  have := h.pos
  have := Dtb.four_dvd_sizes ps
  have := h.aligned
  rw [addresses]
  omega

/-- **The loop on the pieces of a list** is the run on the list, and goes on behind it. -/
theorem whileOf_eq {ps : List Dtb.Piece} {a : Nat} {s : σ} (h : Stored m a ps) :
    whileOf m fail switch msg a s =
      match runOf switch a ps s with
      | .error e => .error e
      | .ok (.inl s') =>
        match stepOf m fail switch msg (a + Dtb.sizes ps, s') with
        | .inr r => r
        | .inl s' =>
          match Loop.untilReturn (stepOf m fail switch msg) (addresses - (ps.length + 1)) s' with
          | some r => r
          | none => .error (fail .endless)
      | .ok (.inr r) => .ok r := by
  have hlen := h.length_lt
  have hloop := @untilReturn_runOf σ ρ ε m fail switch msg ps a s (addresses - (ps.length + 1) + 1) h
  rw [show addresses - (ps.length + 1) + 1 + ps.length = addresses by omega] at hloop
  rw [whileOf, hloop]
  rcases runOf switch a ps s with e | s' | r
  · rfl
  · simp only [Loop.untilReturn]
    rcases stepOf m fail switch msg (a + Dtb.sizes ps, s') with s₁ | r <;> rfl
  · rfl

end RunOf

/-! ## The loop on pieces in memory -/

section Run

variable {σ : Type} {m : Mem} {switch : FdtStructurePiece → σ → Except Stop (σ ⊕ Nat)} {msg : String}

/-- The `switch` on one piece after the other. -/
def runPieces (switch : FdtStructurePiece → σ → Except Stop (σ ⊕ Nat)) :
    Nat → List Dtb.Piece → σ → Except Stop (σ ⊕ Nat)
  | _, [], s => .ok (.inl s)
  | a, p :: ps, s =>
    match switch ⟨a, p.token, a + p.size⟩ s with
    | .error e => .error e
    | .ok (.inl s) => runPieces switch (a + p.size) ps s
    | .ok (.inr r) => .ok (.inr r)

/-- What is found, or else `e`. -/
def result (o : Option Nat) (e : σ ⊕ Nat) : Except Stop (σ ⊕ Nat) := .ok (o.elim e .inr)

theorem runPieces_singleton (a : Nat) (p : Dtb.Piece) (s : σ) :
    runPieces switch a [p] s = switch ⟨a, p.token, a + p.size⟩ s := by
  rw [runPieces]
  rcases switch ⟨a, p.token, a + p.size⟩ s with e | s | r <;> rfl

/-- The first of two lists of pieces in which something is found. -/
theorem runPieces_append {o o' : Option Nat} {s' : σ} {e : σ ⊕ Nat} {ps qs : List Dtb.Piece} {a : Nat} {s : σ}
    (h : runPieces switch a ps s = result o (.inl s')) (h' : runPieces switch (a + Dtb.sizes ps) qs s' = result o' e) :
    runPieces switch a (ps ++ qs) s = result (o.or o') e := by
  induction ps generalizing a s with
  | nil =>
    cases o with
    | some r => cases h
    | none =>
      cases h
      exact h'
  | cons p ps ih =>
    rw [runPieces] at h
    rw [List.cons_append, runPieces]
    rw [Dtb.sizes_cons, ← Nat.add_assoc] at h'
    rcases hsw : switch ⟨a, p.token, a + p.size⟩ s with e | s₁ | r
    · simp only [hsw] at h
      cases h
    · simp only [hsw] at h ⊢
      exact ih h h'
    · simp only [hsw] at h ⊢
      cases o with
      | none => cases h
      | some r' =>
        cases h
        rfl

theorem runPieces_cons {o o' : Option Nat} {s s' : σ} {e : σ ⊕ Nat} {p : Dtb.Piece} {ps : List Dtb.Piece} {a : Nat}
    (h : switch ⟨a, p.token, a + p.size⟩ s = result o (.inl s')) (h' : runPieces switch (a + p.size) ps s' = result o' e) :
    runPieces switch a (p :: ps) s = result (o.or o') e := by
  refine @runPieces_append σ switch o o' s' e [p] ps a s ((runPieces_singleton a p s).trans h) ?_
  rwa [Dtb.sizes_cons, Dtb.sizes_nil, Nat.add_zero]

theorem pieceStep_eq : pieceStep m switch msg = stepOf m id switch msg := by
  funext ⟨structBlock, s⟩
  rw [pieceStep, stepOf]
  split
  · rfl
  · rcases dtbReadPiece m structBlock with e | piece
    · rfl
    · rcases hsw : switch piece s with e | s₁ | r <;> simp only [hsw]

theorem whilePieces_eq_of (structBlock : Nat) (s : σ) :
    whilePieces m switch msg structBlock s = whileOf m id switch msg structBlock s := by
  rw [whilePieces, whileOf, pieceStep_eq]
  rcases Loop.untilReturn (stepOf m id switch msg) addresses (structBlock, s) with _ | r <;> rfl

theorem runPieces_eq_of (a : Nat) (ps : List Dtb.Piece) (s : σ) : runPieces switch a ps s = runOf switch a ps s := by
  induction ps generalizing a s with
  | nil => rfl
  | cons p ps ih =>
    rw [runPieces, runOf]
    rcases switch ⟨a, p.token, a + p.size⟩ s with e | s₁ | r
    · rfl
    · exact ih _ _
    · rfl

/-- The loop goes through the pieces in memory. -/
theorem untilReturn_pieces {ps : List Dtb.Piece} {a : Nat} {s : σ} (n : Nat) (h : Stored m a ps) :
    Loop.untilReturn (pieceStep m switch msg) (n + ps.length) (a, s) =
      match runPieces switch a ps s with
      | .error e => some (.error e)
      | .ok (.inl s') => Loop.untilReturn (pieceStep m switch msg) n (a + Dtb.sizes ps, s')
      | .ok (.inr r) => some (.ok r) := by
  rw [pieceStep_eq, runPieces_eq_of, untilReturn_runOf n h]
  rcases runOf switch a ps s with e | s' | r <;> rfl

/-- **The loop on the pieces of a list**, if something is found or the end of the list returns. -/
theorem whilePieces_eq {ps : List Dtb.Piece} {a : Nat} {s : σ} {r : Nat} (h : Stored m a ps)
    (hrun : runPieces switch a ps s = .ok (.inr r)) : whilePieces m switch msg a s = .ok r := by
  have hlen : ps.length ≤ addresses := by
    have := Dtb.length_le_sizes ps
    have := h.fits
    rw [addresses]
    omega
  have hloop := @untilReturn_pieces σ m switch msg ps a s (addresses - ps.length) h
  rw [Nat.sub_add_cancel hlen, hrun] at hloop
  rw [whilePieces, hloop]

/-- **The loop on the pieces of the structure block**, where the end token returns `NULL`. -/
theorem whilePieces_block {ps : List Dtb.Piece} {a : Nat} {s s' : σ} {o : Option Nat} (h : Stored m a ps)
    (hend : Holds m (a + Dtb.sizes ps) (Dtb.be32 9)) (hrun : runPieces switch a ps s = result o (.inl s'))
    (hswitch : switch ⟨a + Dtb.sizes ps, fdtEnd, 0⟩ s' = .ok (.inr 0)) :
    whilePieces m switch msg a s = .ok (o.getD 0) := by
  cases o with
  | some r => exact whilePieces_eq h hrun
  | none =>
    have hpos : a + Dtb.sizes ps ≠ 0 := Nat.ne_of_gt (Nat.lt_of_lt_of_le h.pos (Nat.le_add_right _ _))
    have hlen : ps.length + 1 ≤ addresses := by
      have := Dtb.length_le_sizes ps
      have := h.fits
      have := h.pos
      rw [addresses]
      omega
    have hloop := @untilReturn_pieces σ m switch msg ps a s (addresses - (ps.length + 1) + 1) h
    rw [show addresses - (ps.length + 1) + 1 + ps.length = addresses by omega, hrun] at hloop
    rw [whilePieces, hloop]
    simp only [result, Option.elim_none, Loop.untilReturn, pieceStep, if_neg hpos, dtbReadPiece_end hend, hswitch]
    rfl

/-- The pieces of a node: its name, its properties, its children and its end. -/
theorem runPieces_node {name : Str} {props : List Dtb.Property} {children : List Dtb.Node} {a : Nat} {s s₁ : σ}
    {o₀ o₁ o₂ : Option Nat} {e : σ ⊕ Nat}
    (hbegin : switch ⟨a, fdtBeginNode, a + (Dtb.Piece.beginNode name).size⟩ s = result o₀ (.inl s₁))
    (hprops : runPieces switch (a + (Dtb.Piece.beginNode name).size) (props.map .prop) s₁ = result o₁ (.inl s₁))
    (hforest : runPieces switch (a + (Dtb.Piece.beginNode name).size + Dtb.sizes (props.map .prop))
      (Dtb.Node.forestPieces children) s₁ = result o₂ (.inl s₁))
    (hend : ∀ b, switch ⟨b, fdtEndNode, b + 4⟩ s₁ = .ok e) :
    runPieces switch a (Dtb.Node.mk name props children).pieces s = result (o₀.or (o₁.or o₂)) e := by
  rw [Dtb.Node.pieces]
  refine runPieces_cons hbegin (runPieces_append hprops ?_)
  rw [← Option.or_none (o := o₂)]
  exact runPieces_append hforest ((runPieces_singleton _ _ _).trans (hend _))

end Run

end LitmusHarness.Device
