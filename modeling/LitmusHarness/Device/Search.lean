import LitmusHarness.Device.Lookup

/-!
# Resumed searches: `fdt_find_node_with_prop_with_index`

The search goes on from the `.next` of its last result, in the middle of a node, with an empty `namestack`. The nodes
around that point end before the block does, and each of them takes a name off the stack (`resumed_not_null`): a search
that has found something cannot come to its end. The search of all nodes is complete exactly if there is nothing to
find (`searchComplete_iff`).
-/

namespace LitmusHarness.Device

open Bytes Dtb

/-! ## The function of the source -/

/-- What ends the search without a result: `curr_header` is returned only if a node has begun. -/
inductive SearchStop
  | stop (e : Stop)
  | uninitialised
  deriving DecidableEq, Repr

/-- The variables of the search: `curr_header` if it has a value, and the names. -/
structure SearchState where
  currHeader : Option Nat
  names : Names
  deriving DecidableEq, Repr

/-- The variables before the first piece. -/
def SearchState.start : SearchState := ⟨none, Names.start⟩

/-- A part of the search that other lookups have too. -/
def common {α : Type} (x : Except Stop α) : Except SearchStop α :=
  match x with
  | .ok a => .ok a
  | .error e => .error (.stop e)

/-- The `switch` of `fdt_find_node_with_prop_with_index`. -/
def searchSwitch (m : Mem) (fdt propName expectedValue : Nat) (piece : FdtStructurePiece) (s : SearchState) :
    Except SearchStop (SearchState ⊕ FdtStructurePiece) := do
  if piece.token = fdtBeginNode then
    let names ← common (s.names.push piece.current)
    .ok (.inl ⟨some piece.current, names⟩)
  else if piece.token = fdtEndNode then
    let names ← common s.names.pop
    .ok (.inl ⟨s.currHeader, names⟩)
  else if piece.token = fdtProp then
    let currentPropName := dtbReadStr m fdt (readBe m (piece.current + 8))
    if ← common (strcmp m propName currentPropName) then
      if ← common (strcmp m (piece.current + 12) expectedValue) then
        match s.currHeader with
        | some currHeader => .ok (.inr ⟨currHeader, fdtProp, piece.next⟩)
        | none => .error .uninitialised
      else .ok (.inl s)
    else .ok (.inl s)
  else if piece.token = fdtEnd then .ok (.inr ⟨0, fdtEnd, 0⟩)
  else .ok (.inl s)

/-- `fdt_find_node_with_prop_with_index`. -/
def fdtFindNodeWithPropWithIndex (m : Mem) (fdt index propName expectedValue : Nat) :
    Except SearchStop FdtStructurePiece :=
  whileOf m .stop (searchSwitch m fdt propName expectedValue)
    "! fdt_find_node_with_prop, could not find property \"%s\" with required value in any node as never reached FDT_END\n"
    (if index = 0 then dtStruct m fdt else index) SearchState.start

/-- The calls from `index` on, each with the `.next` of the last result, return the nodes of the list and then a `NULL`
node. -/
inductive SearchFrom (m : Mem) (fdt propName expectedValue : Nat) : Nat → List Nat → Prop
  | done {index next : Nat} {token : BitVec 32}
    (h : fdtFindNodeWithPropWithIndex m fdt index propName expectedValue = .ok ⟨0, token, next⟩) :
    SearchFrom m fdt propName expectedValue index []
  | found {index next node : Nat} {token : BitVec 32} {nodes : List Nat}
    (h : fdtFindNodeWithPropWithIndex m fdt index propName expectedValue = .ok ⟨node, token, next⟩) (hne : node ≠ 0)
    (hnext : SearchFrom m fdt propName expectedValue next nodes) :
    SearchFrom m fdt propName expectedValue index (node :: nodes)

/-- The search from `NULL` on returns the nodes with the property, in the order of the block. That the calls return says
that `namestack` was used within its bounds. -/
def SearchComplete (m : Mem) (fdt propName expectedValue : Nat) (t : Node) (pn ev : Str) : Prop :=
  SearchFrom m fdt propName expectedValue 0 (t.nodesWithProp (dtStruct m fdt) pn ev)

/-! ## The `switch` -/

section Switch

variable {m : Mem} {fdt propName expectedValue : Nat} {pn ev : Str}

theorem searchSwitch_begin {s : SearchState} (hs : s.names.namestack.length < 100) (a b : Nat) :
    searchSwitch m fdt propName expectedValue ⟨a, fdtBeginNode, b⟩ s =
      .ok (.inl ⟨some a, ⟨a + 4, s.names.currentNode :: s.names.namestack⟩⟩) := by
  rw [searchSwitch, if_pos rfl, push_eq hs]
  rfl

theorem searchSwitch_overflow {s : SearchState} (hs : ¬s.names.namestack.length < 100) (a b : Nat) :
    searchSwitch m fdt propName expectedValue ⟨a, fdtBeginNode, b⟩ s = .error (.stop .namestack) := by
  rw [searchSwitch, if_pos rfl, Names.push, if_neg hs]
  rfl

theorem searchSwitch_end_cons (header : Option Nat) (a b c c' : Nat) (cs : List Nat) :
    searchSwitch m fdt propName expectedValue ⟨a, fdtEndNode, b⟩ ⟨header, ⟨c, c' :: cs⟩⟩ =
      .ok (.inl ⟨header, ⟨c', cs⟩⟩) := rfl

/-- The name that is behind the bottom of the stack is taken off. -/
theorem searchSwitch_end_nil (header : Option Nat) (a b c : Nat) :
    searchSwitch m fdt propName expectedValue ⟨a, fdtEndNode, b⟩ ⟨header, ⟨c, []⟩⟩ = .error (.stop .namestack) := rfl

/-- The string of a value ends in it or right behind it. -/
theorem valueStr_prefix (p : Property) : p.valueStr.1 ++ [0#8] <+: p.value ++ [0#8] := by
  have hsplit : p.value = p.valueStr.1 ++ p.value.dropWhile fun b => b ≠ 0#8 := List.takeWhile_append_dropWhile.symm
  cases hrest : p.value.dropWhile fun b => b ≠ 0#8 with
  | nil =>
    rw [hrest, List.append_nil] at hsplit
    exact ⟨[], by rw [List.append_nil, ← hsplit]⟩
  | cons b rest =>
    have hb := List.head?_dropWhile_not (fun b => decide (b ≠ 0#8)) p.value
    rw [hrest] at hb
    have hzero : b = 0#8 := not_not.mp (of_decide_eq_false hb)
    refine ⟨rest ++ [0#8], ?_⟩
    rw [hsplit, hrest, hzero]
    simp

/-- The value of a property in memory is a string, if there is a zero behind the property. -/
theorem isStr_value {a : Nat} {p : Property} (h : Stored m a [.prop p]) (hz : m (a + (Piece.prop p).size) = 0#8) :
    IsStr m (a + 12) p.valueStr := by
  have hholds := h.holds
  have hfits := h.fits
  rw [sizes_cons, sizes_nil, Nat.add_zero] at hfits
  have hsize := Piece.size_prop p
  rw [bytesOf, List.flatMap_singleton, Piece.bytes, pad] at hholds
  obtain ⟨hheader, hpad⟩ := holds_append.mp hholds
  have hvalue : Holds m (a + 12) p.value :=
    (holds_append.mp (holds_append.mp (holds_append.mp hheader).2).2).2
  have hlen : (be32 3 ++ (be32 (BitVec.ofNat 32 p.value.length) ++ (be32 p.nameoff ++ p.value))).length =
      12 + p.value.length := by
    simp [be32]
    omega
  rw [hlen] at hpad
  have hbehind : m (a + 12 + p.value.length) = 0#8 := by
    by_cases hk : (4 - (12 + p.value.length) % 4) % 4 = 0
    · rw [hsize] at hz
      rwa [show a + 12 + p.value.length = a + (p.value.length + 15) / 4 * 4 by omega]
    · obtain ⟨k, hk⟩ := Nat.exists_eq_succ_of_ne_zero hk
      rw [hk, List.replicate_succ] at hpad
      rw [Nat.add_assoc]
      exact hpad.1
  have hstr : Holds m (a + 12) (p.value ++ [0#8]) := holds_append.mpr ⟨hvalue, hbehind, trivial⟩
  obtain ⟨rest, hrest⟩ := valueStr_prefix p
  rw [← hrest] at hstr
  refine ⟨(holds_append.mp hstr).1, ?_⟩
  have hle : p.valueStr.1.length ≤ p.value.length := (List.takeWhile_prefix _).length_le
  omega

theorem searchSwitch_prop {a b : Nat} {p : Property} {s : SearchState} (h : Stored m a [.prop p])
    (hz : m (a + (Piece.prop p).size) = 0#8) (hname : IsStr m (dtbReadStr m fdt p.nameoff) p.name)
    (hp : IsStr m propName pn) (he : IsStr m expectedValue ev) :
    searchSwitch m fdt propName expectedValue ⟨a, fdtProp, b⟩ s =
      if p.name = pn ∧ p.valueStr = ev then
        match s.currHeader with
        | some currHeader => .ok (.inr ⟨currHeader, fdtProp, b⟩)
        | none => .error .uninitialised
      else .ok (.inl s) := by
  have hne : fdtProp ≠ fdtBeginNode ∧ fdtProp ≠ fdtEndNode := by decide
  have hstr := hname
  rw [← h.header.2] at hstr
  simp only [searchSwitch, if_neg hne.1, if_neg hne.2, if_true, strcmp_eq hp hstr, strcmp_eq (isStr_value h hz) he,
    common, bind, Except.bind]
  by_cases h1 : p.name = pn
  · by_cases h2 : p.valueStr = ev
    · simp [h1, h2]
    · simp [h1, h2]
  · simp [h1, Ne.symm h1]

end Switch

/-! ## Pieces in memory -/

/-- The pieces are in memory, with the names of their properties, and there is a zero behind them. -/
structure Readable (m : Mem) (fdt a : Nat) (ps : List Piece) : Prop where
  stored : Stored m a ps
  names : ∀ p, Piece.prop p ∈ ps → IsStr m (dtbReadStr m fdt p.nameoff) p.name
  zero : m (a + sizes ps) = 0#8

section Readable

variable {m : Mem} {fdt a : Nat} {p : Piece} {ps qs : List Piece}

/-- A token starts with a zero. -/
theorem Stored.first_zero (h : Stored m a (p :: ps)) : m a = 0#8 := by
  have hholds := h.cons.1.holds
  rw [bytesOf, List.flatMap_singleton] at hholds
  cases p with
  | beginNode name => exact hholds.1
  | prop p => exact hholds.1
  | endNode => exact hholds.1

theorem Readable.append (h : Readable m fdt a (ps ++ qs)) :
    Readable m fdt a ps ∧ Readable m fdt (a + sizes ps) qs := by
  obtain ⟨hps, hqs⟩ := h.stored.append
  have hzero := h.zero
  rw [sizes_append, ← Nat.add_assoc] at hzero
  refine ⟨⟨hps, fun p hp => h.names p (List.mem_append_left _ hp), ?_⟩,
    ⟨hqs, fun p hp => h.names p (List.mem_append_right _ hp), hzero⟩⟩
  cases qs with
  | nil => exact hzero
  | cons q qs => exact hqs.first_zero

theorem Readable.cons (h : Readable m fdt a (p :: ps)) : Readable m fdt a [p] ∧ Readable m fdt (a + p.size) ps := by
  have h' := @Readable.append m fdt a [p] ps h
  rwa [sizes_cons, sizes_nil, Nat.add_zero] at h'

end Readable

section Runs

variable {m : Mem} {fdt propName expectedValue : Nat} {pn ev : Str}

/-- The `switch` at a property in memory. -/
theorem Readable.searchSwitch_prop (hp : IsStr m propName pn) (he : IsStr m expectedValue ev) {p : Property} {a : Nat}
    (h : Readable m fdt a [.prop p]) (b : Nat) (s : SearchState) :
    searchSwitch m fdt propName expectedValue ⟨a, fdtProp, b⟩ s =
      if p.name = pn ∧ p.valueStr = ev then
        match s.currHeader with
        | some currHeader => .ok (.inr ⟨currHeader, fdtProp, b⟩)
        | none => .error .uninitialised
      else .ok (.inl s) := by
  have hzero := h.zero
  rw [sizes_cons, sizes_nil, Nat.add_zero] at hzero
  exact Device.searchSwitch_prop h.stored hzero (h.names p List.mem_cons_self) hp he

/-- What a piece can do: the stack grows where a node begins and shrinks where one ends, and a result is the node that
began last, with the address behind a property. -/
theorem searchSwitch_cases (hp : IsStr m propName pn) (he : IsStr m expectedValue ev) {p : Piece} {a : Nat}
    {s : SearchState} {r : SearchState ⊕ FdtStructurePiece} (h : Readable m fdt a [p])
    (hsw : searchSwitch m fdt propName expectedValue ⟨a, p.token, a + p.size⟩ s = .ok r) :
    (∃ s₁, r = .inl s₁ ∧
      s₁.names.namestack.length + Node.ends [p] = s.names.namestack.length + Node.begins [p] ∧
      (s₁.currHeader = some a ∨ s₁.currHeader = s.currHeader)) ∨
    ∃ p' c, p = .prop p' ∧ s.currHeader = some c ∧ r = .inr ⟨c, fdtProp, a + p.size⟩ := by
  cases p with
  | beginNode name =>
    rw [show (Piece.beginNode name).token = fdtBeginNode from rfl] at hsw
    by_cases hroom : s.names.namestack.length < 100
    · rw [searchSwitch_begin hroom] at hsw
      cases hsw
      exact .inl ⟨_, rfl, rfl, .inl rfl⟩
    · rw [searchSwitch_overflow hroom] at hsw
      cases hsw
  | endNode =>
    obtain ⟨header, c, cs⟩ := s
    rw [show Piece.endNode.token = fdtEndNode from rfl] at hsw
    cases cs with
    | nil =>
      rw [searchSwitch_end_nil] at hsw
      cases hsw
    | cons c' cs =>
      rw [searchSwitch_end_cons] at hsw
      cases hsw
      exact .inl ⟨_, rfl, rfl, .inr rfl⟩
  | prop p =>
    rw [show (Piece.prop p).token = fdtProp from rfl, h.searchSwitch_prop hp he] at hsw
    split at hsw
    · cases hheader : s.currHeader with
      | none =>
        rw [hheader] at hsw
        cases hsw
      | some c =>
        rw [hheader] at hsw
        cases hsw
        exact .inr ⟨p, c, rfl, rfl, rfl⟩
    · cases hsw
      exact .inl ⟨s, rfl, rfl, .inr rfl⟩

/-- A run that goes on has taken as many names off the stack as nodes ended. -/
theorem runOf_search_inl (hp : IsStr m propName pn) (he : IsStr m expectedValue ev) {ps : List Piece} {a : Nat}
    {s s' : SearchState} (h : Readable m fdt a ps)
    (hrun : runOf (searchSwitch m fdt propName expectedValue) a ps s = .ok (.inl s')) :
    s'.names.namestack.length + Node.ends ps = s.names.namestack.length + Node.begins ps := by
  induction ps generalizing a s with
  | nil =>
    cases hrun
    rfl
  | cons p ps ih =>
    obtain ⟨hhead, htail⟩ := h.cons
    have hends := Node.ends_append [p] ps
    have hbegins := Node.begins_append [p] ps
    rw [List.singleton_append] at hends hbegins
    rw [runOf] at hrun
    cases hsw : searchSwitch m fdt propName expectedValue ⟨a, p.token, a + p.size⟩ s with
    | error e =>
      rw [hsw] at hrun
      cases hrun
    | ok r =>
      rw [hsw] at hrun
      rcases searchSwitch_cases hp he hhead hsw with ⟨s₁, rfl, hlen, -⟩ | ⟨p', c, -, -, rfl⟩
      · have hih := ih htail hrun
        omega
      · cases hrun

/-- A run that returns has found a node, and its `.next` is behind a property. -/
theorem runOf_search_inr (hp : IsStr m propName pn) (he : IsStr m expectedValue ev) {ps : List Piece} {a : Nat}
    {s : SearchState} {r : FdtStructurePiece} (h : Readable m fdt a ps) (hs : ∀ c, s.currHeader = some c → c ≠ 0)
    (hrun : runOf (searchSwitch m fdt propName expectedValue) a ps s = .ok (.inr r)) :
    r.current ≠ 0 ∧ ∃ q p q', ps = q ++ .prop p :: q' ∧ r.next = a + sizes (q ++ [.prop p]) := by
  induction ps generalizing a s with
  | nil => cases hrun
  | cons p ps ih =>
    obtain ⟨hhead, htail⟩ := h.cons
    rw [runOf] at hrun
    cases hsw : searchSwitch m fdt propName expectedValue ⟨a, p.token, a + p.size⟩ s with
    | error e =>
      rw [hsw] at hrun
      cases hrun
    | ok r' =>
      rw [hsw] at hrun
      rcases searchSwitch_cases hp he hhead hsw with ⟨s₁, rfl, -, hheader⟩ | ⟨p', c, rfl, hheader, rfl⟩
      · have hs₁ : ∀ c, s₁.currHeader = some c → c ≠ 0 := by
          intro c hc
          rcases hheader with hheader | hheader
          · rw [hheader, Option.some.injEq] at hc
            exact hc ▸ Nat.ne_of_gt h.stored.pos
          · exact hs c (hheader ▸ hc)
        obtain ⟨hne, q, p', q', rfl, hnext⟩ := ih htail hs₁ hrun
        refine ⟨hne, p :: q, p', q', rfl, ?_⟩
        rw [hnext, List.cons_append, sizes_cons, Nat.add_assoc]
      · cases hrun
        exact ⟨hs c hheader, [], p', ps, rfl, by rw [List.nil_append, sizes_cons, sizes_nil, Nat.add_zero]⟩

/-- A call returns at the end of the block, or it has found a node and its `.next` is behind a property. -/
theorem search_cases (hp : IsStr m propName pn) (he : IsStr m expectedValue ev) {ps : List Piece} {a : Nat} {msg : String}
    {r : FdtStructurePiece} (h : Readable m fdt a ps) (hend : Holds m (a + sizes ps) (be32 9))
    (hcall : whileOf m .stop (searchSwitch m fdt propName expectedValue) msg a SearchState.start = .ok r) :
    (r = ⟨0, fdtEnd, 0⟩ ∧ ∃ s, runOf (searchSwitch m fdt propName expectedValue) a ps SearchState.start = .ok (.inl s)) ∨
    r.current ≠ 0 ∧ ∃ q p q', ps = q ++ .prop p :: q' ∧ r.next = a + sizes (q ++ [.prop p]) := by
  have hpos : a + sizes ps ≠ 0 := Nat.ne_of_gt (Nat.lt_of_lt_of_le h.stored.pos (Nat.le_add_right _ _))
  rw [whileOf_eq h.stored] at hcall
  rcases hrun : runOf (searchSwitch m fdt propName expectedValue) a ps SearchState.start with e | s | r'
  · rw [hrun] at hcall
    cases hcall
  · rw [hrun] at hcall
    simp only [stepOf, if_neg hpos, dtbReadPiece_end hend] at hcall
    cases hcall
    exact .inl ⟨rfl, s, rfl⟩
  · rw [hrun] at hcall
    cases hcall
    exact .inr (runOf_search_inr hp he h (fun c hc => absurd hc.symm (Option.some_ne_none c)) hrun)

end Runs

/-! ## Calls that go on -/

section Calls

variable {m : Mem} {fdt propName expectedValue : Nat} {t : Node} {pn ev : Str}

theorem Flattened.readable (h : Flattened m fdt t) : Readable m fdt (dtStruct m fdt) t.pieces where
  stored := h.stored
  names p hp := by
    obtain ⟨bn, hbn, hmem⟩ := (Node.prop_mem_pieces_iff (a := dtStruct m fdt)).mp hp
    exact h.names bn hbn p hmem
  zero := h.end_token.1

/-- An address right behind a property of the tree. -/
def BehindProp (m : Mem) (fdt : Nat) (t : Node) (index : Nat) : Prop :=
  ∃ q p q', t.pieces = q ++ .prop p :: q' ∧ index = dtStruct m fdt + sizes (q ++ [.prop p])

/-- **A call that goes on finds a node or does not return**: to come to the end it takes off more names than it has put
on the stack. -/
theorem resumed_not_null (h : Flattened m fdt t) (hp : IsStr m propName pn) (he : IsStr m expectedValue ev)
    {index : Nat} {r : FdtStructurePiece} (hi : BehindProp m fdt t index)
    (hcall : fdtFindNodeWithPropWithIndex m fdt index propName expectedValue = .ok r) :
    r.current ≠ 0 ∧ BehindProp m fdt t r.next := by
  obtain ⟨q, p, q', ht, rfl⟩ := hi
  have hread := h.readable
  have hend := h.end_token
  rw [ht, ← List.singleton_append, ← List.append_assoc] at hread hend
  have hread' := hread.append.2
  rw [sizes_append, ← Nat.add_assoc] at hend
  rw [fdtFindNodeWithPropWithIndex, if_neg (Nat.ne_of_gt hread'.stored.pos)] at hcall
  rcases search_cases hp he hread' hend hcall with ⟨-, s, hrun⟩ | ⟨hne, q₁, p₁, q₁', rfl, hnext⟩
  · have hlen := runOf_search_inl hp he hread' hrun
    have hlt := Node.lt_ends ht
    change _ + Node.ends q' = 0 + Node.begins q' at hlen
    omega
  · refine ⟨hne, q ++ .prop p :: q₁, p₁, q₁', ?_, ?_⟩
    · rw [ht, List.append_assoc, List.cons_append]
    · rw [hnext, Nat.add_assoc, ← sizes_append]
      simp

/-- Behind a property the calls never come to an end. -/
theorem not_searchFrom (h : Flattened m fdt t) (hp : IsStr m propName pn) (he : IsStr m expectedValue ev) {index : Nat}
    {nodes : List Nat} (hs : SearchFrom m fdt propName expectedValue index nodes) : ¬BehindProp m fdt t index := by
  induction hs with
  | done hcall => exact fun hi => (resumed_not_null h hp he hi hcall).1 rfl
  | found hcall _ _ ih => exact fun hi => ih (resumed_not_null h hp he hi hcall).2

/-! ## Nothing to find -/

/-- Pieces without a property that is looked for. -/
def Quiet (pn ev : Str) (ps : List Piece) : Prop := ∀ p, .prop p ∈ ps → ¬(p.name = pn ∧ p.valueStr = ev)

theorem Quiet.append {ps qs : List Piece} (h : Quiet pn ev (ps ++ qs)) : Quiet pn ev ps ∧ Quiet pn ev qs :=
  ⟨fun p hp => h p (List.mem_append_left _ hp), fun p hp => h p (List.mem_append_right _ hp)⟩

theorem runOf_search_props (hp : IsStr m propName pn) (he : IsStr m expectedValue ev) {props : List Property} {a : Nat}
    {s : SearchState} (h : Readable m fdt a (props.map .prop)) (hq : Quiet pn ev (props.map .prop)) :
    runOf (searchSwitch m fdt propName expectedValue) a (props.map .prop) s = .ok (.inl s) := by
  induction props generalizing a with
  | nil => rfl
  | cons p props ih =>
    rw [List.map_cons] at h hq ⊢
    obtain ⟨hhead, htail⟩ := h.cons
    rw [runOf, show (Piece.prop p).token = fdtProp from rfl, hhead.searchSwitch_prop hp he,
      if_neg (hq p List.mem_cons_self)]
    exact ih htail fun p hp => hq p (List.mem_cons_of_mem _ hp)

mutual

/-- A tree without such a property is gone through, and the stack is as before. -/
theorem runOf_search_tree (hp : IsStr m propName pn) (he : IsStr m expectedValue ev) : ∀ {t : Node} {a : Nat}
    {s : SearchState}, Readable m fdt a t.pieces → Quiet pn ev t.pieces → s.names.namestack.length + t.height < 100 →
      ∃ header, runOf (searchSwitch m fdt propName expectedValue) a t.pieces s = .ok (.inl ⟨header, s.names⟩)
  | .mk name props children, a, s, h, hq, hs => by
    rw [Node.pieces, ← List.singleton_append] at h hq ⊢
    rw [Node.height] at hs
    obtain ⟨-, hrest⟩ := h.append
    obtain ⟨hprops, hrest⟩ := hrest.append
    obtain ⟨hqprops, hqrest⟩ := hq.append.2.append
    have hroom : s.names.namestack.length < 100 := by omega
    have hchildren : (s.names.currentNode :: s.names.namestack).length + Node.forestHeight children ≤ 100 := by
      rw [List.length_cons]
      omega
    obtain ⟨header, hforest⟩ := runOf_search_forest hp he (s := ⟨some a, ⟨a + 4, _⟩⟩) hrest.append.1 hqrest.append.1
      hchildren
    refine ⟨header, ?_⟩
    rw [List.singleton_append, runOf, show (Piece.beginNode name).token = fdtBeginNode from rfl, searchSwitch_begin hroom]
    rw [sizes_cons, sizes_nil, Nat.add_zero] at hprops hforest
    simp only [runOf_append, runOf_search_props hp he hprops hqprops, hforest]
    rfl

theorem runOf_search_forest (hp : IsStr m propName pn) (he : IsStr m expectedValue ev) : ∀ {ns : List Node} {a : Nat}
    {s : SearchState}, Readable m fdt a (Node.forestPieces ns) → Quiet pn ev (Node.forestPieces ns) →
      s.names.namestack.length + Node.forestHeight ns ≤ 100 →
        ∃ header, runOf (searchSwitch m fdt propName expectedValue) a (Node.forestPieces ns) s =
          .ok (.inl ⟨header, s.names⟩)
  | [], a, s, _, _, _ => ⟨s.currHeader, by rw [Node.forestPieces]; rfl⟩
  | n :: ns, a, s, h, hq, hs => by
    rw [Node.forestPieces] at h hq ⊢
    rw [Node.forestHeight] at hs
    obtain ⟨header₁, hn⟩ := runOf_search_tree hp he (s := s) h.append.1 hq.append.1 (by omega)
    obtain ⟨header₂, hns⟩ := runOf_search_forest hp he (s := ⟨header₁, s.names⟩) h.append.2 hq.append.2
      (Nat.le_trans (Nat.add_le_add_left (Nat.le_max_right _ _) _) hs)
    refine ⟨header₂, ?_⟩
    rw [runOf_append, hn]
    exact hns

end

/-- Nothing is found where nothing is to find. -/
theorem searchComplete_of_nil (h : Flattened m fdt t) (hd : t.height < 100) (hp : IsStr m propName pn)
    (he : IsStr m expectedValue ev) (hnil : t.nodesWithProp (dtStruct m fdt) pn ev = []) :
    SearchComplete m fdt propName expectedValue t pn ev := by
  have hroom : SearchState.start.names.namestack.length + t.height < 100 := by
    change 0 + t.height < 100
    omega
  obtain ⟨header, hrun⟩ := runOf_search_tree hp he h.readable (Node.nodesWithProp_eq_nil_iff.mp hnil) hroom
  have hpos : dtStruct m fdt + sizes t.pieces ≠ 0 :=
    Nat.ne_of_gt (Nat.lt_of_lt_of_le h.nonNull (Nat.le_add_right _ _))
  rw [SearchComplete, hnil]
  refine @SearchFrom.done m fdt propName expectedValue 0 0 fdtEnd ?_
  rw [fdtFindNodeWithPropWithIndex, if_pos rfl, whileOf_eq h.stored, hrun]
  simp only [stepOf, if_neg hpos, dtbReadPiece_end h.end_token]
  rfl

/-- A search that finds something is not complete. -/
theorem not_searchComplete (h : Flattened m fdt t) (hp : IsStr m propName pn) (he : IsStr m expectedValue ev)
    (hne : t.nodesWithProp (dtStruct m fdt) pn ev ≠ []) : ¬SearchComplete m fdt propName expectedValue t pn ev := by
  intro hs
  rw [SearchComplete] at hs
  generalize t.nodesWithProp (dtStruct m fdt) pn ev = nodes at hs hne
  cases hs with
  | done _ => exact hne rfl
  | found hcall hnode hnext =>
    rw [fdtFindNodeWithPropWithIndex, if_pos rfl] at hcall
    rcases search_cases hp he h.readable h.end_token hcall with ⟨hr, -⟩ | ⟨-, hbehind⟩
    · cases hr
      exact hnode rfl
    · exact not_searchFrom h hp he hnext hbehind

/-- **The search is complete exactly if no node has the property with the value.** -/
theorem searchComplete_iff (h : Flattened m fdt t) (hd : t.height < 100) (hp : IsStr m propName pn)
    (he : IsStr m expectedValue ev) :
    SearchComplete m fdt propName expectedValue t pn ev ↔ t.nodesWithProp (dtStruct m fdt) pn ev = [] :=
  ⟨fun hs => by_contra fun hne => not_searchComplete h hp he hne hs, searchComplete_of_nil h hd hp he⟩

end Calls

/-! ## The small tree -/

/-- A string of one character. -/
def letter (c : BitVec 8) (h : c ≠ 0) : Str := ⟨[c], fun hc => h (List.mem_singleton.mp hc).symm⟩

/-- The name of its properties. -/
def nameA : Str := letter 97 (by decide)

/-- The name of the child of its root. -/
def nameB : Str := letter 98 (by decide)

/-- The value of the property of its root. -/
def valueOne : Str := ⟨[1], by decide⟩

theorem smallMem_a : IsStr smallMem 140 nameA := ⟨by decide, by decide⟩

theorem smallMem_b : IsStr smallMem 142 nameB := ⟨by decide, by decide⟩

/-- In the small tree no property `a` has the value `b`. -/
theorem searchComplete_small : SearchComplete smallMem 64 140 142 smallTree nameA nameB :=
  (searchComplete_iff smallMem_flattened (by decide) smallMem_a smallMem_b).mpr rfl

/-- The root of the small tree has the property `a` with the value `1`, which is also at 100: the search returns it, and
its next call takes the name of the root off an empty stack. -/
theorem not_searchComplete_small :
    Flattened smallMem 64 smallTree ∧ smallTree.height < 100 ∧ IsStr smallMem 140 nameA ∧
    IsStr smallMem 100 valueOne ∧
    fdtFindNodeWithPropWithIndex smallMem 64 0 140 100 = .ok ⟨80, fdtProp, 104⟩ ∧
    fdtFindNodeWithPropWithIndex smallMem 64 104 140 100 = .error (.stop .namestack) ∧
    ¬SearchComplete smallMem 64 140 100 smallTree nameA valueOne := by
  have hone : IsStr smallMem 100 valueOne := ⟨by decide, by decide⟩
  have hrest : Stored smallMem 104 (smallTree.pieces.drop 2) := (@Stored.append smallMem 80 (smallTree.pieces.take 2)
    (smallTree.pieces.drop 2) smallMem_flattened.stored).2
  refine ⟨smallMem_flattened, by decide, smallMem_a, hone, ?_, ?_, ?_⟩
  · rw [fdtFindNodeWithPropWithIndex, if_pos rfl, whileOf_eq smallMem_flattened.stored]
    rfl
  · rw [fdtFindNodeWithPropWithIndex, if_neg (by decide), whileOf_eq hrest]
    rfl
  · exact not_searchComplete smallMem_flattened smallMem_a hone (List.cons_ne_nil _ _)

end LitmusHarness.Device
