import LitmusHarness.Lib.DtbNop
import LitmusHarness.Device.Search

/-!
# `FDT_NOP` in the structure block

A NOP is a token that `dtb_read_piece` does not know: it has no next piece, and the loop of the lookup ends in `abort`.
On the same pieces, the lookups on two blobs go in lockstep, whatever the addresses are (`runOf_lockstep`). So on the
blob with NOPs the answer is the same exactly if no NOP is read, or a piece before the first NOP answers
(`sameAnswer_of_lockstep`), and this is what it means for each lookup (`nops_ignored_iff`).
-/

namespace LitmusHarness.Device

open Bytes Dtb

/-! ## Lockstep -/

section Lockstep

variable {σ σ' ρ ρ' ε ε' : Type}

/-- What a `switch` does with a piece behind the pieces `c`: it stops, it answers with `res`, or it goes on. Its variables
are `st`. -/
def Follows (switch : FdtStructurePiece → σ → Except ε (σ ⊕ ρ)) (a : Nat) (st : Progress → σ)
    (res : Progress → Piece → ρ) (stops answers : Progress → Piece → Prop) (c : Progress) (p : Piece) : Prop :=
  (stops c p ∧ ∃ e, switch ⟨a + c.offset, p.token, a + c.offset + p.size⟩ (st c) = .error e) ∨
  (¬stops c p ∧ answers c p ∧ switch ⟨a + c.offset, p.token, a + c.offset + p.size⟩ (st c) = .ok (.inr (res c p))) ∨
  (¬stops c p ∧ ¬answers c p ∧
    switch ⟨a + c.offset, p.token, a + c.offset + p.size⟩ (st c) = .ok (.inl (st (c.step p))))

/-- A piece of the list answers. -/
def Answered (answers : Progress → Piece → Prop) (ps : List Piece) : Prop :=
  ∃ q p q', ps = q ++ p :: q' ∧ answers (progress q) p

variable {switch : FdtStructurePiece → σ → Except ε (σ ⊕ ρ)} {switch' : FdtStructurePiece → σ' → Except ε' (σ' ⊕ ρ')}
  {a a' : Nat} {st : Progress → σ} {st' : Progress → σ'} {res : Progress → Piece → ρ} {res' : Progress → Piece → ρ'}
  {stops answers : Progress → Piece → Prop}

/-- **Two lookups on the same pieces** both stop, both answer at the same piece, or both go on. -/
theorem runOf_lockstep {ps done : List Piece}
    (h : ∀ q p q', ps = q ++ p :: q' → Follows switch a st res stops answers (progress (done ++ q)) p)
    (h' : ∀ q p q', ps = q ++ p :: q' → Follows switch' a' st' res' stops answers (progress (done ++ q)) p) :
    ((∃ e, runOf switch (a + sizes done) ps (st (progress done)) = .error e) ∧
      ∃ e, runOf switch' (a' + sizes done) ps (st' (progress done)) = .error e) ∨
    (∃ q p q', ps = q ++ p :: q' ∧ answers (progress (done ++ q)) p ∧
      runOf switch (a + sizes done) ps (st (progress done)) = .ok (.inr (res (progress (done ++ q)) p)) ∧
      runOf switch' (a' + sizes done) ps (st' (progress done)) = .ok (.inr (res' (progress (done ++ q)) p))) ∨
    ((∀ q p q', ps = q ++ p :: q' → ¬answers (progress (done ++ q)) p) ∧
      runOf switch (a + sizes done) ps (st (progress done)) = .ok (.inl (st (progress (done ++ ps)))) ∧
      runOf switch' (a' + sizes done) ps (st' (progress done)) = .ok (.inl (st' (progress (done ++ ps))))) := by
  induction ps generalizing done with
  | nil =>
    refine .inr (.inr ⟨fun q p q' hsplit => ?_, ?_, ?_⟩)
    · exact absurd hsplit.symm (List.append_ne_nil_of_right_ne_nil _ (List.cons_ne_nil _ _))
    · rw [List.append_nil]
      rfl
    · rw [List.append_nil]
      rfl
  | cons p ps ih =>
    have hp := h [] p ps rfl
    have hp' := h' [] p ps rfl
    rw [List.append_nil] at hp hp'
    rw [Follows, offset_progress] at hp hp'
    rw [runOf, runOf]
    -- both take the same branch, as the piece and what has been read are the same
    rcases hp with ⟨hs, e, hsw⟩ | ⟨hs, ha, hsw⟩ | ⟨hs, ha, hsw⟩ <;>
      rcases hp' with ⟨hs', e', hsw'⟩ | ⟨hs', ha', hsw'⟩ | ⟨hs', ha', hsw'⟩ <;>
      first | contradiction | rw [hsw, hsw']
    · exact .inl ⟨⟨e, rfl⟩, e', rfl⟩
    · refine .inr (.inl ⟨[], p, ps, rfl, ?_, ?_, ?_⟩)
      · rwa [List.append_nil]
      · rw [List.append_nil]
      · rw [List.append_nil]
    · have hih := @ih (done ++ [p])
        (fun q p' q' hsplit => by
          rw [← List.append_cons]
          exact h (p :: q) p' q' (congrArg (p :: ·) hsplit))
        (fun q p' q' hsplit => by
          rw [← List.append_cons]
          exact h' (p :: q) p' q' (congrArg (p :: ·) hsplit))
      simp only [progress_concat, sizes_append, sizes_cons, sizes_nil, Nat.add_zero, ← Nat.add_assoc,
        ← List.append_cons] at hih
      rcases hih with hstop | ⟨q, p', q', rfl, hans, hrun, hrun'⟩ | ⟨hno, hrun, hrun'⟩
      · exact .inl hstop
      · exact .inr (.inl ⟨p :: q, p', q', rfl, hans, hrun, hrun'⟩)
      · refine .inr (.inr ⟨fun q p' q' hsplit => ?_, hrun, hrun'⟩)
        cases q with
        | nil =>
          obtain ⟨rfl, -⟩ := List.cons.inj hsplit
          rwa [List.append_nil]
        | cons p₁ q =>
          obtain ⟨rfl, hps⟩ := List.cons.inj hsplit
          exact hno q p' q' hps

end Lockstep

/-! ## The end of the pieces -/

section Loops

variable {σ ρ ε : Type} {m : Mem} {fail : Stop → ε} {switch : FdtStructurePiece → σ → Except ε (σ ⊕ ρ)} {msg : String}
  {a : Nat} {ps : List Piece} {s s' : σ}

def fdtNop : BitVec 32 := 0x00000004

/-- A NOP has no next piece. -/
theorem dtbReadPiece_nop (h : Holds m a (be32 4)) : dtbReadPiece m a = .ok ⟨a, fdtNop, 0⟩ := by
  simp only [dtbReadPiece, readBe_eq h]
  rfl

theorem Stored.end_ne_zero (h : Stored m a ps) : a + sizes ps ≠ 0 :=
  Nat.ne_of_gt (Nat.lt_of_lt_of_le h.pos (Nat.le_add_right _ _))

theorem whileOf_stop {e : ε} (h : Stored m a ps) (hrun : runOf switch a ps s = .error e) :
    whileOf m fail switch msg a s = .error e := by
  rw [whileOf_eq h, hrun]

theorem whileOf_answer {r : ρ} (h : Stored m a ps) (hrun : runOf switch a ps s = .ok (.inr r)) :
    whileOf m fail switch msg a s = .ok r := by
  rw [whileOf_eq h, hrun]

/-- At the end of the block the lookup returns `NULL`. -/
theorem whileOf_null {null : ρ} (h : Stored m a ps) (hrun : runOf switch a ps s = .ok (.inl s'))
    (hend : Holds m (a + sizes ps) (be32 9)) (hnull : switch ⟨a + sizes ps, fdtEnd, 0⟩ s' = .ok (.inr null)) :
    whileOf m fail switch msg a s = .ok null := by
  rw [whileOf_eq h, hrun]
  simp only [stepOf, if_neg h.end_ne_zero, dtbReadPiece_end hend, hnull]

/-- At a NOP it is aborted. -/
theorem whileOf_nop (h : Stored m a ps) (hrun : runOf switch a ps s = .ok (.inl s'))
    (hnop : Holds m (a + sizes ps) (be32 4)) (hskip : switch ⟨a + sizes ps, fdtNop, 0⟩ s' = .ok (.inl s')) :
    whileOf m fail switch msg a s = .error (fail (.abort msg)) := by
  obtain ⟨n, hn⟩ := Nat.exists_eq_add_of_lt h.length_lt
  rw [whileOf_eq h, hrun]
  simp only [stepOf, if_neg h.end_ne_zero, dtbReadPiece_nop hnop, hskip]
  rw [show addresses - (ps.length + 1) = n + 1 by omega]
  rfl

end Loops

/-! ## The same answers -/

section Same

variable {σ σ' ρ ρ' ε ε' : Type}

/-- No NOP is read, or a piece before the first NOP answers. -/
def Undisturbed (answers : Progress → Piece → Prop) (rest : List (Option Piece)) : Prop :=
  none ∉ rest ∨ Answered answers (beforeNop rest)

/-- If the first lookup has an answer, the second has the same exactly under the condition, and if the first has none,
the second has none. -/
def SameIff (same : ρ → ρ' → Prop) (x : Except ε ρ) (x' : Except ε' ρ') (condition : Prop) : Prop :=
  (∀ r, x = .ok r → ((∃ r', x' = .ok r' ∧ same r r') ↔ condition)) ∧ ∀ e, x = .error e → ∃ e', x' = .error e'

/-- The pieces before the first NOP of `rest` are in both memories. Behind them both blocks end, or in the second there
is a NOP. -/
structure Blocks (m m' : Mem) (a a' : Nat) (rest : List (Option Piece)) : Prop where
  stored : Stored m a (beforeNop rest)
  stored' : Stored m' a' (beforeNop rest)
  atEnd : none ∉ rest →
    Holds m (a + sizes (beforeNop rest)) (be32 9) ∧ Holds m' (a' + sizes (beforeNop rest)) (be32 9)
  atNop : none ∈ rest → Holds m' (a' + sizes (beforeNop rest)) (be32 4)

variable {m m' : Mem} {fail : Stop → ε} {fail' : Stop → ε'} {switch : FdtStructurePiece → σ → Except ε (σ ⊕ ρ)}
  {switch' : FdtStructurePiece → σ' → Except ε' (σ' ⊕ ρ')} {msg msg' : String} {a a' : Nat} {st : Progress → σ}
  {st' : Progress → σ'} {res : Progress → Piece → ρ} {res' : Progress → Piece → ρ'}
  {stops answers : Progress → Piece → Prop} {same : ρ → ρ' → Prop} {null : ρ} {null' : ρ'} {rest : List (Option Piece)}

/-- **A lookup that goes in lockstep has the same answer exactly if it is undisturbed.** -/
theorem sameAnswer_of_lockstep (hb : Blocks m m' a a' rest)
    (hf : ∀ q p q', beforeNop rest = q ++ p :: q' → Follows switch a st res stops answers (progress q) p)
    (hf' : ∀ q p q', beforeNop rest = q ++ p :: q' → Follows switch' a' st' res' stops answers (progress q) p)
    (hnull : ∀ b s, switch ⟨b, fdtEnd, 0⟩ s = .ok (.inr null))
    (hnull' : ∀ b s, switch' ⟨b, fdtEnd, 0⟩ s = .ok (.inr null'))
    (hskip : ∀ b s, switch' ⟨b, fdtNop, 0⟩ s = .ok (.inl s))
    (hsame : ∀ q p q', beforeNop rest = q ++ p :: q' → answers (progress q) p →
      same (res (progress q) p) (res' (progress q) p))
    (hsame_null : same null null') :
    SameIff same (whileOf m fail switch msg a (st .start)) (whileOf m' fail' switch' msg' a' (st' .start))
      (Undisturbed answers rest) := by
  have hlock := @runOf_lockstep σ σ' ρ ρ' ε ε' switch switch' a a' st st' res res' stops answers (beforeNop rest) [] hf hf'
  simp only [List.nil_append, sizes_nil, Nat.add_zero] at hlock
  rcases hlock with ⟨⟨e, hrun⟩, e', hrun'⟩ | ⟨q, p, q', hsplit, hans, hrun, hrun'⟩ | ⟨hno, hrun, hrun'⟩
  · have hx : whileOf m fail switch msg a (st .start) = .error e := whileOf_stop hb.stored hrun
    exact ⟨fun r hr => absurd (hx.symm.trans hr) nofun, fun _ _ => ⟨e', whileOf_stop hb.stored' hrun'⟩⟩
  · have hx : whileOf m fail switch msg a (st .start) = .ok (res (progress q) p) := whileOf_answer hb.stored hrun
    refine ⟨fun r hr => ⟨fun _ => .inr ⟨q, p, q', hsplit, hans⟩, fun _ => ?_⟩, fun e he => absurd (hx.symm.trans he) nofun⟩
    obtain rfl := Except.ok.inj (hx.symm.trans hr)
    exact ⟨_, whileOf_answer hb.stored' hrun', hsame q p q' hsplit hans⟩
  · by_cases hnop : none ∈ rest
    · have hx' : whileOf m' fail' switch' msg' a' (st' .start) = .error (fail' (.abort msg')) :=
        whileOf_nop hb.stored' hrun' (hb.atNop hnop) (hskip _ _)
      refine ⟨fun r _ => ⟨fun ⟨r', hr', _⟩ => absurd (hx'.symm.trans hr') nofun, fun hc => ?_⟩, fun e _ => ⟨_, hx'⟩⟩
      rcases hc with hc | ⟨q, p, q', hsplit, hans⟩
      · exact absurd hnop hc
      · exact absurd hans (hno q p q' hsplit)
    · obtain ⟨hend, hend'⟩ := hb.atEnd hnop
      have hx : whileOf m fail switch msg a (st .start) = .ok null := whileOf_null hb.stored hrun hend (hnull _ _)
      refine ⟨fun r hr => ⟨fun _ => .inl hnop, fun _ => ?_⟩, fun e he => absurd (hx.symm.trans he) nofun⟩
      obtain rfl := Except.ok.inj (hx.symm.trans hr)
      exact ⟨null', whileOf_null hb.stored' hrun' hend' (hnull' _ _), hsame_null⟩

end Same

/-! ## Blobs with NOPs -/

/-- The tree `t` is in memory as the flattened device tree at `fdt`, with NOPs between the tokens of the structure block:
`items` are its pieces and the NOPs. -/
structure FlattenedNops (m : Mem) (fdt : Nat) (t : Node) (items : List (Option Piece)) : Prop where
  pieces : items.reduceOption = t.pieces
  aligned : 4 ∣ dtStruct m fdt
  nonNull : 0 < dtStruct m fdt
  fits : dtStruct m fdt + (bytesWithNops items ++ be32 9).length ≤ 2 ^ 64
  block : Holds m (dtStruct m fdt) (bytesWithNops items ++ be32 9)
  names : ∀ p, .prop p ∈ t.pieces → IsStr m (dtbReadStr m fdt p.nameoff) p.name

/-- The address behind the items in the blob with NOPs. -/
def itemAt (m : Mem) (fdt : Nat) (before : List (Option Piece)) : Nat :=
  dtStruct m fdt + (bytesWithNops before).length

/-- The address behind their pieces in the blob without NOPs. -/
def pieceAt (m : Mem) (fdt : Nat) (before : List (Option Piece)) : Nat := dtStruct m fdt + sizes before.reduceOption

section Blobs

variable {m m' : Mem} {fdt fdt' : Nat} {t : Node} {before rest : List (Option Piece)}

/-- What is in the blob from an item on. -/
theorem FlattenedNops.holds (h : FlattenedNops m fdt t (before ++ rest)) :
    Holds m (itemAt m fdt before) (bytesWithNops rest ++ be32 9) := by
  have hblock := h.block
  rw [bytesWithNops_append, List.append_assoc] at hblock
  exact (holds_append.mp hblock).2

theorem FlattenedNops.readable (h : FlattenedNops m fdt t (before ++ rest)) :
    Readable m fdt (itemAt m fdt before) (beforeNop rest) ∧
    (none ∉ rest → Holds m (itemAt m fdt before + sizes (beforeNop rest)) (be32 9)) ∧
    (none ∈ rest → Holds m (itemAt m fdt before + sizes (beforeNop rest)) (be32 4)) := by
  obtain ⟨tail, hrest, htail⟩ := beforeNop_append rest
  have hholds := h.holds
  have hfits := h.fits
  have hlen : (bytesWithNops rest).length = sizes (beforeNop rest) + (bytesWithNops tail).length := by
    rw [congrArg bytesWithNops hrest, bytesWithNops_append, bytesWithNops_map_some, List.length_append]
    rfl
  rw [bytesWithNops_append, List.length_append, List.length_append, hlen] at hfits
  rw [congrArg bytesWithNops hrest, bytesWithNops_append, bytesWithNops_map_some, List.append_assoc] at hholds
  obtain ⟨hpieces, hbehind⟩ := holds_append.mp hholds
  have hfour : (be32 9).length = 4 := rfl
  have hstored : Stored m (itemAt m fdt before) (beforeNop rest) := by
    refine ⟨Nat.dvd_add h.aligned (four_dvd_bytesWithNops before), ?_, ?_, hpieces⟩
    · exact Nat.lt_of_lt_of_le h.nonNull (Nat.le_add_right _ _)
    · rw [itemAt]
      omega
  have hnames : ∀ p, .prop p ∈ beforeNop rest → IsStr m (dtbReadStr m fdt p.nameoff) p.name := by
    intro p hp
    refine h.names p ?_
    rw [← h.pieces, List.reduceOption_append]
    exact List.mem_append_right _ ((beforeNop_isPrefix rest).subset hp)
  rcases htail with ⟨hno, rfl⟩ | ⟨hnop, l, rfl⟩
  · exact ⟨⟨hstored, hnames, hbehind.1⟩, fun _ => hbehind, fun hmem => absurd hmem hno⟩
  · have hfirst : Holds m (itemAt m fdt before + sizes (beforeNop rest)) (be32 4) := by
      rw [bytesWithNops, List.flatMap_cons, List.append_assoc] at hbehind
      exact (holds_append.mp hbehind).1
    exact ⟨⟨hstored, hnames, hfirst.1⟩, fun hno => absurd hnop hno, fun _ => hfirst⟩

/-- The same pieces in the blob without NOPs. -/
theorem Flattened.readable_before (h : Flattened m fdt t) (ht : (before ++ rest).reduceOption = t.pieces) :
    Readable m fdt (pieceAt m fdt before) (beforeNop rest) ∧
    (none ∉ rest → Holds m (pieceAt m fdt before + sizes (beforeNop rest)) (be32 9)) := by
  rw [List.reduceOption_append] at ht
  have hread := h.readable
  have hend := h.end_token
  rw [← ht] at hread hend
  refine ⟨?_, fun hno => ?_⟩
  · have hrest := hread.append.2
    obtain ⟨tail, htail⟩ := beforeNop_isPrefix rest
    rw [← htail] at hrest
    exact hrest.append.1
  · rwa [sizes_append, ← Nat.add_assoc, ← beforeNop_eq hno] at hend

theorem blocks (h : Flattened m fdt t) (h' : FlattenedNops m' fdt' t (before ++ rest)) :
    Blocks m m' (pieceAt m fdt before) (itemAt m' fdt' before) rest where
  stored := (h.readable_before h'.pieces).1.stored
  stored' := h'.readable.1.stored
  atEnd hno := ⟨(h.readable_before h'.pieces).2 hno, h'.readable.2.1 hno⟩
  atNop := h'.readable.2.2

end Blobs

/-! ## What the lookups do with a piece -/

/-- The names, while nodes are open. -/
def namesAt (a : Nat) : List (Nat × Str) → Names
  | [] => Names.start
  | on :: ons => ⟨a + on.1 + 4, (namesAt a ons).currentNode :: (namesAt a ons).namestack⟩

theorem length_namesAt (a : Nat) (ons : List (Nat × Str)) : (namesAt a ons).namestack.length = ons.length := by
  induction ons with
  | nil => rfl
  | cons on ons ih => exact congrArg (· + 1) ih

/-- A node begins, and its name comes on the stack. -/
theorem push_namesAt (a o : Nat) (name : Str) (ons : List (Nat × Str)) : (namesAt a ons).push (a + o) =
    if ons.length < 100 then .ok (namesAt a ((o, name) :: ons)) else .error .namestack := by
  rw [Names.push, length_namesAt]
  rfl

/-- There is no room on the stack, or no name. -/
def namesStop (c : Progress) : Piece → Prop
  | .beginNode _ => ¬c.openNodes.length < 100
  | .prop _ => False
  | .endNode => c.openNodes = []

/-- A node with the name. -/
def findNodeAnswers (nn : Str) (_ : Progress) : Piece → Prop
  | .beginNode name => name = nn
  | .prop _ => False
  | .endNode => False

/-- A node with the name, or the end of the first node. -/
def readNodeAnswers (nn : Str) (c : Progress) : Piece → Prop
  | .beginNode name => name = nn
  | .prop _ => False
  | .endNode => c.openNodes.length = 1

/-- A property of the first node with the name, or the end of this node. -/
def readPropAnswers (pn : Str) (c : Progress) : Piece → Prop
  | .beginNode _ => False
  | .prop p => p.name = pn ∧ c.openNodes.length = 1
  | .endNode => c.openNodes.length = 1

/-- A property with the name of a node with the other name. -/
def findPropAnswers (nn pn : Str) (c : Progress) : Piece → Prop
  | .beginNode _ => False
  | .prop p => p.name = pn ∧ ∃ o ons, c.openNodes = (o, nn) :: ons
  | .endNode => False

/-- A property with the name and the value. -/
def withPropAnswers (pn ev : Str) (_ : Progress) : Piece → Prop
  | .beginNode _ => False
  | .prop p => p.name = pn ∧ p.valueStr = ev
  | .endNode => False

/-- The search also stops at such a property, if no node has begun. -/
def withPropStop (pn ev : Str) (c : Progress) : Piece → Prop
  | .prop p => (p.name = pn ∧ p.valueStr = ev) ∧ c.last = none
  | p => namesStop c p

section Follows

variable {m : Mem} {fdt nodeName propName expectedValue a : Nat} {nn pn ev : Str} {c : Progress} {p : Piece}

theorem findNode_follows (h : Readable m fdt (a + c.offset) [p]) (hn : IsStr m nodeName nn) :
    Follows (findNodeSwitch m nodeName) a (fun _ => ()) (fun c _ => a + c.offset) (fun _ _ => False)
      (findNodeAnswers nn) c p := by
  cases p with
  | beginNode name =>
    have hsw : ∀ b, findNodeSwitch m nodeName ⟨a + c.offset, fdtBeginNode, b⟩ () =
        if name = nn then .ok (.inr (a + c.offset)) else .ok (.inl ()) := by
      intro b
      simp only [findNodeSwitch, if_true, strcmp_eq h.stored.isStr hn, bind, Except.bind, decide_eq_true_eq]
    by_cases hname : name = nn
    · exact .inr (.inl ⟨id, hname, (hsw _).trans (if_pos hname)⟩)
    · exact .inr (.inr ⟨id, hname, (hsw _).trans (if_neg hname)⟩)
  | prop p => exact .inr (.inr ⟨id, id, rfl⟩)
  | endNode => exact .inr (.inr ⟨id, id, rfl⟩)

/-- The end of a node, where the lookups of a node return at the end of the first. -/
theorem leave_namesAt (a : Nat) (ons : List (Nat × Str)) :
    (ons = [] ∧ ∃ e, Names.leave (namesAt a ons) = .error e) ∨
    (ons ≠ [] ∧ ons.length = 1 ∧ Names.leave (namesAt a ons) = .ok (.inr 0)) ∨
    (ons ≠ [] ∧ ons.length ≠ 1 ∧ Names.leave (namesAt a ons) = .ok (.inl (namesAt a ons.tail))) := by
  match ons with
  | [] => exact .inl ⟨rfl, .namestack, rfl⟩
  | [_] => exact .inr (.inl ⟨List.cons_ne_nil _ _, rfl, rfl⟩)
  | on :: on' :: ons =>
    refine .inr (.inr ⟨List.cons_ne_nil _ _, ?_, leave_eq (s := namesAt a (on' :: ons)) ?_ _⟩)
    · simp
    · exact Nat.le_add_left 1 _

/-- The address of a piece that is an answer, and else `NULL`. -/
def nodeOrNull (a : Nat) (c : Progress) : Piece → Nat
  | .endNode => 0
  | _ => a + c.offset

theorem readNode_follows (h : Readable m fdt (a + c.offset) [p]) (hn : IsStr m nodeName nn) :
    Follows (readNodeSwitch m nodeName) a (fun c => namesAt a c.openNodes) (nodeOrNull a) namesStop
      (readNodeAnswers nn) c p := by
  cases p with
  | beginNode name =>
    by_cases hroom : c.openNodes.length < 100
    · have hsw : ∀ b, readNodeSwitch m nodeName ⟨a + c.offset, fdtBeginNode, b⟩ (namesAt a c.openNodes) =
          if nn = name then .ok (.inr (a + c.offset)) else .ok (.inl (namesAt a ((c.offset, name) :: c.openNodes))) := by
        intro b
        rw [readNodeSwitch, if_pos rfl, push_namesAt a c.offset name, if_pos hroom]
        simp only [namesAt, strcmp_eq hn h.stored.isStr, bind, Except.bind, decide_eq_true_eq]
      by_cases hname : nn = name
      · exact .inr (.inl ⟨not_not.mpr hroom, hname.symm, (hsw _).trans (if_pos hname)⟩)
      · exact .inr (.inr ⟨not_not.mpr hroom, Ne.symm hname, (hsw _).trans (if_neg hname)⟩)
    · refine .inl ⟨hroom, .namestack, ?_⟩
      change readNodeSwitch m nodeName ⟨_, fdtBeginNode, _⟩ _ = _
      rw [readNodeSwitch, if_pos rfl, push_namesAt a c.offset name, if_neg hroom]
      rfl
  | prop p => exact .inr (.inr ⟨id, id, rfl⟩)
  | endNode => exact leave_namesAt a c.openNodes

/-- The name of a property, as the lookups come to it. -/
theorem Readable.prop_name {p : Property} {b : Nat} (h : Readable m fdt b [.prop p]) :
    IsStr m (dtbReadStr m fdt (readBe m (b + 8))) p.name := by
  rw [h.stored.header.2]
  exact h.names p List.mem_cons_self

theorem readProp_follows (h : Readable m fdt (a + c.offset) [p]) (hp : IsStr m propName pn) :
    Follows (readPropSwitch m fdt propName) a (fun c => namesAt a c.openNodes) (nodeOrNull a) namesStop
      (readPropAnswers pn) c p := by
  cases p with
  | beginNode name =>
    by_cases hroom : c.openNodes.length < 100
    · refine .inr (.inr ⟨not_not.mpr hroom, id, ?_⟩)
      rw [← length_namesAt a] at hroom
      exact readPropSwitch_begin m fdt propName hroom _ _
    · refine .inl ⟨hroom, .namestack, ?_⟩
      change readPropSwitch m fdt propName ⟨_, fdtBeginNode, _⟩ _ = _
      rw [readPropSwitch, if_pos rfl, push_namesAt a c.offset name, if_neg hroom]
      rfl
  | prop p =>
    have hsw : ∀ b, readPropSwitch m fdt propName ⟨a + c.offset, fdtProp, b⟩ (namesAt a c.openNodes) =
        if c.openNodes.length = 1 then
          if p.name = pn then .ok (.inr (a + c.offset)) else .ok (.inl (namesAt a c.openNodes))
        else .ok (.inl (namesAt a c.openNodes)) := by
      intro b
      simp only [readPropSwitch, length_namesAt, strcmp_eq h.prop_name hp, bind, Except.bind, decide_eq_true_eq]
      rfl
    by_cases hdepth : c.openNodes.length = 1
    · by_cases hprop : p.name = pn
      · exact .inr (.inl ⟨id, ⟨hprop, hdepth⟩, (hsw _).trans ((if_pos hdepth).trans (if_pos hprop))⟩)
      · exact .inr (.inr ⟨id, fun ha => hprop ha.1, (hsw _).trans ((if_pos hdepth).trans (if_neg hprop))⟩)
    · exact .inr (.inr ⟨id, fun ha => hdepth ha.2, (hsw _).trans (if_neg hdepth)⟩)
  | endNode => exact leave_namesAt a c.openNodes

/-- The names of the open nodes are in memory. -/
theorem Readable.open_names {q : List Piece} (h : Readable m fdt a q) :
    ∀ on ∈ (progress q).openNodes, IsStr m (a + on.1 + 4) on.2 := by
  intro on hon
  obtain ⟨q₁, q₂, hq, hoffset⟩ := progress_open on hon
  rw [hq] at h
  rw [hoffset]
  exact h.append.2.cons.1.stored.isStr

/-- The `switch` of `fdt_find_prop` at a property of a node with the name `name`. -/
theorem findPropSwitch_prop {p : Property} {b : Nat} {s : Names} {name : Str} (h : Readable m fdt b [.prop p])
    (hcurrent : IsStr m s.currentNode name) (hn : IsStr m nodeName nn) (hp : IsStr m propName pn) (b' : Nat) :
    findPropSwitch m fdt nodeName propName ⟨b, fdtProp, b'⟩ s =
      if name = nn ∧ pn = p.name then .ok (.inr b) else .ok (.inl s) := by
  have hne : fdtProp ≠ fdtBeginNode ∧ fdtProp ≠ fdtEndNode := by decide
  simp only [findPropSwitch, if_neg hne.1, if_neg hne.2, if_true, strcmp_eq hcurrent hn, strcmp_eq hp h.prop_name,
    bind, Except.bind, decide_eq_true_eq]
  by_cases hnode : name = nn
  · by_cases hprop : pn = p.name
    · rw [if_pos hnode, if_pos hprop, if_pos ⟨hnode, hprop⟩]
    · rw [if_pos hnode, if_neg hprop, if_neg fun h => hprop h.2]
  · rw [if_neg hnode, if_neg fun h => hnode h.1]

/-- The end of a node takes its name off. -/
theorem pop_namesAt (a : Nat) (ons : List (Nat × Str)) :
    (ons = [] ∧ (namesAt a ons).pop = .error .namestack) ∨
    (ons ≠ [] ∧ (namesAt a ons).pop = .ok (namesAt a ons.tail)) := by
  cases ons with
  | nil => exact .inl ⟨rfl, rfl⟩
  | cons on ons => exact .inr ⟨List.cons_ne_nil _ _, rfl⟩

theorem findProp_follows (h : Readable m fdt (a + c.offset) [p])
    (hnames : ∀ on ∈ c.openNodes, IsStr m (a + on.1 + 4) on.2) (hopen : ∀ p', p = .prop p' → c.openNodes ≠ [])
    (hn : IsStr m nodeName nn) (hp : IsStr m propName pn) :
    Follows (findPropSwitch m fdt nodeName propName) a (fun c => namesAt a c.openNodes) (nodeOrNull a) namesStop
      (findPropAnswers nn pn) c p := by
  cases p with
  | beginNode name =>
    by_cases hroom : c.openNodes.length < 100
    · refine .inr (.inr ⟨not_not.mpr hroom, id, ?_⟩)
      change findPropSwitch m fdt nodeName propName ⟨_, fdtBeginNode, _⟩ _ = _
      rw [findPropSwitch, if_pos rfl, push_namesAt a c.offset name, if_pos hroom]
      rfl
    · refine .inl ⟨hroom, .namestack, ?_⟩
      change findPropSwitch m fdt nodeName propName ⟨_, fdtBeginNode, _⟩ _ = _
      rw [findPropSwitch, if_pos rfl, push_namesAt a c.offset name, if_neg hroom]
      rfl
  | prop p =>
    obtain ⟨⟨o, name⟩, ons, hons⟩ := List.exists_cons_of_ne_nil (hopen p rfl)
    have hcurrent : IsStr m (namesAt a c.openNodes).currentNode name := by
      rw [hons]
      exact hnames (o, name) (hons ▸ List.mem_cons_self)
    have hsw := findPropSwitch_prop h hcurrent hn hp (a + c.offset + (Piece.prop p).size)
    by_cases hans : name = nn ∧ pn = p.name
    · rw [if_pos hans] at hsw
      refine .inr (.inl ⟨id, ⟨hans.2.symm, o, ons, ?_⟩, hsw⟩)
      rw [hons, hans.1]
    · rw [if_neg hans] at hsw
      refine .inr (.inr ⟨id, ?_, hsw⟩)
      rintro ⟨hprop, o', ons', hons'⟩
      rw [hons] at hons'
      exact hans ⟨congrArg Prod.snd (List.cons.inj hons').1, hprop.symm⟩
  | endNode =>
    rcases pop_namesAt a c.openNodes with ⟨hnil, hpop⟩ | ⟨hne, hpop⟩
    · refine .inl ⟨hnil, .namestack, ?_⟩
      change ((namesAt a c.openNodes).pop >>= fun s => Except.ok (Sum.inl s) : Except Stop (Names ⊕ Nat)) = _
      rw [hpop]
      rfl
    · refine .inr (.inr ⟨hne, id, ?_⟩)
      change ((namesAt a c.openNodes).pop >>= fun s => Except.ok (Sum.inl s) : Except Stop (Names ⊕ Nat)) = _
      rw [hpop]
      rfl

/-- The variables of the search. -/
def searchAt (a : Nat) (c : Progress) : SearchState := ⟨c.last.map (a + ·), namesAt a c.openNodes⟩

/-- Its result at a property. -/
def searchResult (a : Nat) (c : Progress) (p : Piece) : FdtStructurePiece :=
  ⟨(c.last.map (a + ·)).getD 0, fdtProp, a + c.offset + p.size⟩

theorem withProp_follows (h : Readable m fdt (a + c.offset) [p]) (hp : IsStr m propName pn)
    (he : IsStr m expectedValue ev) :
    Follows (searchSwitch m fdt propName expectedValue) a (searchAt a) (searchResult a) (withPropStop pn ev)
      (withPropAnswers pn ev) c p := by
  cases p with
  | beginNode name =>
    by_cases hroom : c.openNodes.length < 100
    · refine .inr (.inr ⟨not_not.mpr hroom, id, ?_⟩)
      rw [← length_namesAt a] at hroom
      exact searchSwitch_begin hroom _ _
    · refine .inl ⟨hroom, .stop .namestack, ?_⟩
      rw [← length_namesAt a] at hroom
      exact searchSwitch_overflow hroom _ _
  | prop p =>
    have hsw := h.searchSwitch_prop hp he (a + c.offset + (Piece.prop p).size) (searchAt a c)
    by_cases hprop : p.name = pn ∧ p.valueStr = ev
    · rw [if_pos hprop] at hsw
      cases hlast : c.last with
      | none =>
        refine .inl ⟨⟨hprop, hlast⟩, .uninitialised, hsw.trans ?_⟩
        rw [searchAt, hlast]
        rfl
      | some o =>
        refine .inr (.inl ⟨fun hs => Option.some_ne_none o (hlast.symm.trans hs.2), hprop, hsw.trans ?_⟩)
        rw [searchAt, searchResult, hlast]
        rfl
    · rw [if_neg hprop] at hsw
      exact .inr (.inr ⟨fun hs => hprop hs.1, hprop, hsw⟩)
  | endNode =>
    cases hons : c.openNodes with
    | nil =>
      refine .inl ⟨hons, .stop .namestack, ?_⟩
      rw [searchAt, hons]
      rfl
    | cons on ons =>
      refine .inr (.inr ⟨fun hnil => List.cons_ne_nil _ _ (hons.symm.trans hnil), id, ?_⟩)
      change _ = Except.ok (Sum.inl (⟨_, namesAt a c.openNodes.tail⟩ : SearchState))
      rw [searchAt, hons]
      rfl

end Follows

/-! ## Addresses of the same piece -/

section Addresses

/-- Both are `NULL`, or the addresses of the same piece. -/
def SamePiece (m m' : Mem) (fdt fdt' : Nat) (items : List (Option Piece)) (r r' : Nat) : Prop :=
  (r = 0 ∧ r' = 0) ∨ ∃ before p after, items = before ++ some p :: after ∧
    r = pieceAt m fdt before ∧ r' = itemAt m' fdt' before

/-- Both are `NULL`, or the addresses behind the same piece. -/
def SameNext (m m' : Mem) (fdt fdt' : Nat) (items : List (Option Piece)) (r r' : Nat) : Prop :=
  (r = 0 ∧ r' = 0) ∨ ∃ before p after, items = before ++ some p :: after ∧
    r = pieceAt m fdt before + p.size ∧ r' = itemAt m' fdt' before + p.size

/-- The same result of a search. -/
def SameResult (m m' : Mem) (fdt fdt' : Nat) (items : List (Option Piece)) (r r' : FdtStructurePiece) : Prop :=
  SamePiece m m' fdt fdt' items r.current r'.current ∧ r.token = r'.token ∧ SameNext m m' fdt fdt' items r.next r'.next

variable {m m' : Mem} {fdt fdt' : Nat} {before rest : List (Option Piece)} {q q' : List Piece} {p : Piece}

theorem same_split (h : beforeNop rest = q ++ p :: q') : ∃ after,
    before ++ rest = (before ++ q.map some) ++ some p :: after ∧
    pieceAt m fdt (before ++ q.map some) = pieceAt m fdt before + sizes q ∧
    itemAt m' fdt' (before ++ q.map some) = itemAt m' fdt' before + sizes q := by
  obtain ⟨tail, hrest, -⟩ := beforeNop_append rest
  rw [h, List.map_append, List.map_cons, List.append_assoc, List.cons_append] at hrest
  refine ⟨_, (congrArg (before ++ ·) hrest).trans (List.append_assoc _ _ _).symm, ?_, ?_⟩
  · rw [pieceAt, pieceAt, List.reduceOption_append, reduceOption_map_some, sizes_append, Nat.add_assoc]
  · rw [itemAt, itemAt, bytesWithNops_append, bytesWithNops_map_some, List.length_append, Nat.add_assoc]
    rfl

theorem samePiece_split (h : beforeNop rest = q ++ p :: q') :
    SamePiece m m' fdt fdt' (before ++ rest) (pieceAt m fdt before + sizes q) (itemAt m' fdt' before + sizes q) := by
  obtain ⟨after, hitems, hpiece, hitem⟩ := @same_split m m' fdt fdt' before rest q q' p h
  exact .inr ⟨_, p, after, hitems, hpiece.symm, hitem.symm⟩

theorem sameNext_split (h : beforeNop rest = q ++ p :: q') :
    SameNext m m' fdt fdt' (before ++ rest) (pieceAt m fdt before + sizes q + p.size)
      (itemAt m' fdt' before + sizes q + p.size) := by
  obtain ⟨after, hitems, hpiece, hitem⟩ := @same_split m m' fdt fdt' before rest q q' p h
  exact .inr ⟨_, p, after, hitems, by rw [hpiece], by rw [hitem]⟩

theorem same_nodeOrNull (h : beforeNop rest = q ++ p :: q') :
    SamePiece m m' fdt fdt' (before ++ rest) (nodeOrNull (pieceAt m fdt before) (progress q) p)
      (nodeOrNull (itemAt m' fdt' before) (progress q) p) := by
  have hsame := @samePiece_split m m' fdt fdt' before rest q q' p h
  rw [← offset_progress] at hsame
  cases p with
  | beginNode name => exact hsame
  | prop p => exact hsame
  | endNode => exact .inl ⟨rfl, rfl⟩

theorem same_searchResult (h : beforeNop rest = q ++ p :: q') :
    SameResult m m' fdt fdt' (before ++ rest) (searchResult (pieceAt m fdt before) (progress q) p)
      (searchResult (itemAt m' fdt' before) (progress q) p) := by
  have hnext := @sameNext_split m m' fdt fdt' before rest q q' p h
  rw [← offset_progress] at hnext
  refine ⟨?_, rfl, hnext⟩
  rw [searchResult, searchResult]
  cases hlast : (progress q).last with
  | none => exact .inl ⟨rfl, rfl⟩
  | some o =>
    obtain ⟨name, q₁, q₂, rfl, rfl⟩ := progress_last hlast
    rw [List.append_assoc, List.cons_append] at h
    exact samePiece_split h

end Addresses

/-! ## The lookups -/

section Lookups

variable {m m' : Mem} {fdt fdt' nodeName nodeName' propName propName' expectedValue expectedValue' : Nat} {t : Node}
  {items before rest : List (Option Piece)} {nn pn ev : Str}

/-- What the `switch` does with each piece of a list in memory. -/
theorem Readable.follows {σ ρ ε : Type} {switch : FdtStructurePiece → σ → Except ε (σ ⊕ ρ)} {a : Nat}
    {st : Progress → σ} {res : Progress → Piece → ρ} {stops answers : Progress → Piece → Prop} {ps : List Piece}
    (h : Readable m fdt a ps)
    (hstep : ∀ c p, Readable m fdt (a + c.offset) [p] → Follows switch a st res stops answers c p) :
    ∀ q p q', ps = q ++ p :: q' → Follows switch a st res stops answers (progress q) p := by
  rintro q p q' rfl
  refine hstep _ p ?_
  rw [offset_progress]
  exact h.append.2.cons.1

theorem findNode_nops (h : Flattened m fdt t) (h' : FlattenedNops m' fdt' t items) (hn : IsStr m nodeName nn)
    (hn' : IsStr m' nodeName' nn) :
    SameIff (SamePiece m m' fdt fdt' items) (fdtFindNode m fdt nodeName) (fdtFindNode m' fdt' nodeName')
      (Undisturbed (findNodeAnswers nn) items) := by
  rw [← List.nil_append items] at h'
  have hf := (h.readable_before h'.pieces).1.follows fun c p hp => findNode_follows hp hn
  have hf' := h'.readable.1.follows fun c p hp => findNode_follows hp hn'
  rw [fdtFindNode, fdtFindNode, whilePieces_eq_of, whilePieces_eq_of]
  refine sameAnswer_of_lockstep (blocks h h') hf hf' (fun _ _ => rfl) (fun _ _ => rfl) (fun _ _ => rfl)
    (fun q p q' hsplit _ => ?_) (Or.inl ⟨rfl, rfl⟩)
  have hsame := @samePiece_split m m' fdt fdt' [] items q q' p hsplit
  rw [← offset_progress] at hsame
  exact hsame

theorem readNode_nops (h : Flattened m fdt t) (h' : FlattenedNops m' fdt' t (before ++ rest))
    (hn : IsStr m nodeName nn) (hn' : IsStr m' nodeName' nn) :
    SameIff (SamePiece m m' fdt fdt' (before ++ rest)) (fdtReadNode m (pieceAt m fdt before) nodeName)
      (fdtReadNode m' (itemAt m' fdt' before) nodeName') (Undisturbed (readNodeAnswers nn) rest) := by
  have hf := (h.readable_before h'.pieces).1.follows fun c p hp => readNode_follows hp hn
  have hf' := h'.readable.1.follows fun c p hp => readNode_follows hp hn'
  rw [fdtReadNode, fdtReadNode, whilePieces_eq_of, whilePieces_eq_of]
  exact sameAnswer_of_lockstep (blocks h h') hf hf' (fun _ _ => rfl) (fun _ _ => rfl) (fun _ _ => rfl)
    (fun _ _ _ hsplit _ => same_nodeOrNull hsplit) (Or.inl ⟨rfl, rfl⟩)

theorem readProp_nops (h : Flattened m fdt t) (h' : FlattenedNops m' fdt' t (before ++ rest))
    (hp : IsStr m propName pn) (hp' : IsStr m' propName' pn) :
    SameIff (SamePiece m m' fdt fdt' (before ++ rest)) (fdtReadProp m fdt (pieceAt m fdt before) propName)
      (fdtReadProp m' fdt' (itemAt m' fdt' before) propName') (Undisturbed (readPropAnswers pn) rest) := by
  have hf := (h.readable_before h'.pieces).1.follows fun c p hread => readProp_follows hread hp
  have hf' := h'.readable.1.follows fun c p hread => readProp_follows hread hp'
  rw [fdtReadProp, fdtReadProp, whilePieces_eq_of, whilePieces_eq_of]
  exact sameAnswer_of_lockstep (blocks h h') hf hf' (fun _ _ => rfl) (fun _ _ => rfl) (fun _ _ => rfl)
    (fun _ _ _ hsplit _ => same_nodeOrNull hsplit) (Or.inl ⟨rfl, rfl⟩)

/-- On pieces at the start of a tree. -/
theorem findProp_follows_all {a : Nat} {ps : List Piece} (h : Readable m fdt a ps) (hps : ps <+: t.pieces)
    (hn : IsStr m nodeName nn) (hp : IsStr m propName pn) :
    ∀ q p q', ps = q ++ p :: q' → Follows (findPropSwitch m fdt nodeName propName) a (fun c => namesAt a c.openNodes)
      (nodeOrNull a) namesStop (findPropAnswers nn pn) (progress q) p := by
  rintro q p q' rfl
  have hread := h.append.2.cons.1
  rw [← offset_progress] at hread
  refine findProp_follows hread h.append.1.open_names (fun p' hp' => ?_) hn hp
  obtain ⟨tail, ht⟩ := hps
  rw [hp', List.append_assoc, List.cons_append] at ht
  exact open_at_prop ht.symm

theorem findProp_nops (h : Flattened m fdt t) (h' : FlattenedNops m' fdt' t items) (hn : IsStr m nodeName nn)
    (hn' : IsStr m' nodeName' nn) (hp : IsStr m propName pn) (hp' : IsStr m' propName' pn) :
    SameIff (SamePiece m m' fdt fdt' items) (fdtFindProp m fdt nodeName propName)
      (fdtFindProp m' fdt' nodeName' propName') (Undisturbed (findPropAnswers nn pn) items) := by
  have hps : beforeNop items <+: t.pieces := h'.pieces ▸ beforeNop_isPrefix items
  rw [← List.nil_append items] at h'
  have hf := findProp_follows_all (h.readable_before h'.pieces).1 hps hn hp
  have hf' := findProp_follows_all h'.readable.1 hps hn' hp'
  rw [fdtFindProp, fdtFindProp, whilePieces_eq_of, whilePieces_eq_of]
  exact sameAnswer_of_lockstep (blocks h h') hf hf' (fun _ _ => rfl) (fun _ _ => rfl) (fun _ _ => rfl)
    (fun _ _ _ hsplit _ => @same_nodeOrNull m m' fdt fdt' [] items _ _ _ hsplit) (Or.inl ⟨rfl, rfl⟩)

/-- The search from any boundary of the pieces on. -/
theorem withProp_nops (h : Flattened m fdt t) (h' : FlattenedNops m' fdt' t (before ++ rest))
    (hp : IsStr m propName pn) (hp' : IsStr m' propName' pn) (he : IsStr m expectedValue ev)
    (he' : IsStr m' expectedValue' ev) {msg msg' : String} :
    SameIff (SameResult m m' fdt fdt' (before ++ rest))
      (whileOf m .stop (searchSwitch m fdt propName expectedValue) msg (pieceAt m fdt before) SearchState.start)
      (whileOf m' .stop (searchSwitch m' fdt' propName' expectedValue') msg' (itemAt m' fdt' before) SearchState.start)
      (Undisturbed (withPropAnswers pn ev) rest) := by
  have hf := (h.readable_before h'.pieces).1.follows fun c p hread => withProp_follows hread hp he
  have hf' := h'.readable.1.follows fun c p hread => withProp_follows hread hp' he'
  exact sameAnswer_of_lockstep (blocks h h') hf hf' (fun _ _ => rfl) (fun _ _ => rfl) (fun _ _ => rfl)
    (fun _ _ _ hsplit _ => same_searchResult hsplit) ⟨Or.inl ⟨rfl, rfl⟩, rfl, Or.inl ⟨rfl, rfl⟩⟩

theorem withProp_null_nops (h : Flattened m fdt t) (h' : FlattenedNops m' fdt' t items)
    (hp : IsStr m propName pn) (hp' : IsStr m' propName' pn) (he : IsStr m expectedValue ev)
    (he' : IsStr m' expectedValue' ev) :
    SameIff (SameResult m m' fdt fdt' items) (fdtFindNodeWithPropWithIndex m fdt 0 propName expectedValue)
      (fdtFindNodeWithPropWithIndex m' fdt' 0 propName' expectedValue') (Undisturbed (withPropAnswers pn ev) items) := by
  rw [← List.nil_append items] at h'
  exact withProp_nops h h' hp hp' he he'

theorem withProp_index_nops (h : Flattened m fdt t) (h' : FlattenedNops m' fdt' t (before ++ rest))
    (hp : IsStr m propName pn) (hp' : IsStr m' propName' pn) (he : IsStr m expectedValue ev)
    (he' : IsStr m' expectedValue' ev) :
    SameIff (SameResult m m' fdt fdt' (before ++ rest))
      (fdtFindNodeWithPropWithIndex m fdt (pieceAt m fdt before) propName expectedValue)
      (fdtFindNodeWithPropWithIndex m' fdt' (itemAt m' fdt' before) propName' expectedValue')
      (Undisturbed (withPropAnswers pn ev) rest) := by
  have hpos : pieceAt m fdt before ≠ 0 := Nat.ne_of_gt (Nat.lt_of_lt_of_le h.nonNull (Nat.le_add_right _ _))
  have hpos' : itemAt m' fdt' before ≠ 0 := Nat.ne_of_gt (Nat.lt_of_lt_of_le h'.nonNull (Nat.le_add_right _ _))
  rw [fdtFindNodeWithPropWithIndex, fdtFindNodeWithPropWithIndex, if_neg hpos, if_neg hpos']
  exact withProp_nops h h' hp hp' he he'

/-- **With NOPs in the structure block a lookup has the same answer exactly if it reads no NOP**: there is none behind
where it starts, or a piece before the first answers. -/
theorem nops_ignored_iff (h : Flattened m fdt t) (h' : FlattenedNops m' fdt' t items) (hn : IsStr m nodeName nn)
    (hn' : IsStr m' nodeName' nn) (hp : IsStr m propName pn) (hp' : IsStr m' propName' pn)
    (he : IsStr m expectedValue ev) (he' : IsStr m' expectedValue' ev) :
    SameIff (SamePiece m m' fdt fdt' items) (fdtFindNode m fdt nodeName) (fdtFindNode m' fdt' nodeName')
      (Undisturbed (findNodeAnswers nn) items) ∧
    (∀ before name after, items = before ++ some (.beginNode name) :: after →
      SameIff (SamePiece m m' fdt fdt' items) (fdtReadNode m (pieceAt m fdt before) nodeName)
        (fdtReadNode m' (itemAt m' fdt' before) nodeName')
        (Undisturbed (readNodeAnswers nn) (some (.beginNode name) :: after)) ∧
      SameIff (SamePiece m m' fdt fdt' items) (fdtReadProp m fdt (pieceAt m fdt before) propName)
        (fdtReadProp m' fdt' (itemAt m' fdt' before) propName')
        (Undisturbed (readPropAnswers pn) (some (.beginNode name) :: after))) ∧
    SameIff (SamePiece m m' fdt fdt' items) (fdtFindProp m fdt nodeName propName)
      (fdtFindProp m' fdt' nodeName' propName') (Undisturbed (findPropAnswers nn pn) items) ∧
    SameIff (SameResult m m' fdt fdt' items) (fdtFindNodeWithPropWithIndex m fdt 0 propName expectedValue)
      (fdtFindNodeWithPropWithIndex m' fdt' 0 propName' expectedValue') (Undisturbed (withPropAnswers pn ev) items) ∧
    ∀ before rest, items = before ++ rest →
      SameIff (SameResult m m' fdt fdt' items)
        (fdtFindNodeWithPropWithIndex m fdt (pieceAt m fdt before) propName expectedValue)
        (fdtFindNodeWithPropWithIndex m' fdt' (itemAt m' fdt' before) propName' expectedValue')
        (Undisturbed (withPropAnswers pn ev) rest) := by
  refine ⟨findNode_nops h h' hn hn', fun before name after hitems => ?_, findProp_nops h h' hn hn' hp hp',
    withProp_null_nops h h' hp hp' he he', fun before rest hitems => ?_⟩
  · subst hitems
    exact ⟨readNode_nops h h' hn hn', readProp_nops h h' hp hp'⟩
  · subst hitems
    exact withProp_index_nops h h' hp hp' he he'

end Lookups

/-! ## The small tree with a NOP -/

/-- A NOP between the property of the root and its child. -/
def nopItems : List (Option Piece) := (smallTree.pieces.take 2).map some ++ none :: (smallTree.pieces.drop 2).map some

/-- The tree at 64: the header, the structure block at 80, the string `a` at 144 and the string `b` at 146. -/
def nopMem : Mem := fun a =>
  if a < 64 then 0
  else ((be32 0xd00dfeed ++ be32 84 ++ be32 16 ++ be32 80) ++ (bytesWithNops nopItems ++ be32 9)
    ++ [97, 0, 98, 0]).getD (a - 64) 0

theorem nopMem_flattened : FlattenedNops nopMem 64 smallTree nopItems where
  pieces := rfl
  aligned := by decide
  nonNull := by decide
  fits := by decide
  block := by decide
  names := by
    intro p hp
    have hname : p.name = nameA ∧ p.nameoff = 0 := by
      simp only [smallTree, Node.pieces, Node.forestPieces, List.map_cons, List.map_nil, List.mem_cons, List.mem_append,
        List.not_mem_nil, Piece.prop.injEq, reduceCtorEq, or_false, false_or] at hp
      rcases hp with rfl | rfl
      · exact ⟨rfl, rfl⟩
      · exact ⟨rfl, rfl⟩
    rw [hname.1, hname.2]
    exact ⟨by decide, by decide⟩

theorem nopMem_a : IsStr nopMem 144 nameA := ⟨by decide, by decide⟩

theorem nopMem_b : IsStr nopMem 146 nameB := ⟨by decide, by decide⟩

/-- The property `a` of the root is before the NOP. -/
theorem nops_ignored_small : ∃ r', fdtReadProp nopMem 64 (itemAt nopMem 64 []) 144 = .ok r' ∧
    SamePiece smallMem nopMem 64 64 nopItems 88 r' := by
  have hsmall := nops_ignored_iff smallMem_flattened nopMem_flattened smallMem_b nopMem_b smallMem_a nopMem_a smallMem_b
    nopMem_b
  refine ((hsmall.2.1 [] _ _ rfl).2.1 88 ?_).mpr (.inr ⟨[_], _, [], rfl, rfl, rfl⟩)
  exact @fdtReadProp_eq smallMem 64 140 _ (80, smallTree) (smallMem_flattened.nodeIn _ List.mem_cons_self) (by decide)
    smallMem_a

/-- The node `b` is behind the NOP, and the lookup of it is aborted. -/
theorem nops_not_ignored_small :
    Flattened smallMem 64 smallTree ∧ FlattenedNops nopMem 64 smallTree nopItems ∧
    IsStr smallMem 142 nameB ∧ IsStr nopMem 146 nameB ∧
    fdtFindNode smallMem 64 142 = .ok 104 ∧
    fdtFindNode nopMem 64 146 = .error (.abort "! fdt_find_node, reached end of unreachable function ?\n") := by
  have hread := (@FlattenedNops.readable nopMem 64 smallTree [] nopItems nopMem_flattened).1
  refine ⟨smallMem_flattened, nopMem_flattened, smallMem_b, nopMem_b, fdtFindNode_eq smallMem_flattened smallMem_b, ?_⟩
  rw [fdtFindNode, whilePieces_eq_of]
  exact whileOf_nop hread.stored rfl (by decide) rfl

end LitmusHarness.Device
