import LitmusHarness.Device.Fdt

/-!
# What the device-tree lookups find

A lookup visits the nodes of a tree in the order of their pieces. If at each node it finds what `f` says, and comes back
to the state before the node, it finds the first such thing in the tree (`runPieces_tree`). The four lookups are
instances: `fdtFindNode_eq`, `fdtReadNode_eq`, `fdtReadProp_eq` and `fdtFindProp_eq`, and together `fdt_lookups`.
-/

namespace LitmusHarness.Device

open Bytes Dtb

/-! ## Visiting a tree -/

section Visit

variable {σ : Type} {switch : FdtStructurePiece → σ → Except Stop (σ ⊕ Nat)} {I : Nat → σ → Prop}
  {f : Nat × Node → Option Nat} {m : Mem}

/-- At the name and the properties of a node the `switch` finds what `f` says, it comes to the children in a state `s₁`,
and the end of the node undoes this. In a state of `I h` there is room for `h` levels. -/
def Visits (switch : FdtStructurePiece → σ → Except Stop (σ ⊕ Nat)) (I : Nat → σ → Prop) (f : Nat × Node → Option Nat)
    (bn : Nat × Node) : Prop :=
  ∀ s, I bn.2.height s → ∃ o₀ o₁ s₁,
    switch ⟨bn.1, fdtBeginNode, bn.1 + (Piece.beginNode bn.2.name).size⟩ s = result o₀ (.inl s₁) ∧
    runPieces switch (bn.1 + (Piece.beginNode bn.2.name).size) (bn.2.props.map .prop) s₁ = result o₁ (.inl s₁) ∧
    (∀ b, switch ⟨b, fdtEndNode, b + 4⟩ s₁ = .ok (.inl s)) ∧ o₀.or o₁ = f bn ∧ ∀ h < bn.2.height, I h s₁

mutual

/-- **What is found in a tree** is what is found at the first of its nodes where something is. -/
theorem runPieces_tree : ∀ {t : Node} {a : Nat} {s : σ}, (∀ bn ∈ t.nodesAt a, Visits switch I f bn) → I t.height s →
    runPieces switch a t.pieces s = result ((t.nodesAt a).findSome? f) (.inl s)
  | .mk name props children, a, s, hv, hI => by
    rw [Node.nodesAt] at hv
    obtain ⟨hroot, hchildren⟩ := List.forall_mem_cons.mp hv
    obtain ⟨o₀, o₁, s₁, hbegin, hprops, hend, hf, hI₁⟩ := hroot s hI
    have hforest := runPieces_forest hchildren hI₁
    have hnode : runPieces switch a (Node.mk name props children).pieces s = result (o₀.or (o₁.or _)) (.inl s) :=
      runPieces_node hbegin hprops hforest hend
    rw [hnode, Node.nodesAt, ← Option.or_assoc, hf, List.findSome?_cons]
    cases f (a, Node.mk name props children) <;> rfl

theorem runPieces_forest : ∀ {ns : List Node} {a : Nat} {s : σ}, (∀ bn ∈ Node.forestAt a ns, Visits switch I f bn) →
    (∀ h < Node.forestHeight ns, I h s) →
      runPieces switch a (Node.forestPieces ns) s = result ((Node.forestAt a ns).findSome? f) (.inl s)
  | [], a, s, _, _ => by
    rw [Node.forestPieces, Node.forestAt]
    rfl
  | n :: ns, a, s, hv, hI => by
    rw [Node.forestAt] at hv
    rw [Node.forestHeight] at hI
    obtain ⟨hn, hns⟩ := List.forall_mem_append.mp hv
    have h1 := runPieces_tree hn (hI n.height (by omega))
    have h2 := runPieces_forest hns fun h hh => hI h (by omega)
    rw [Node.forestPieces, Node.forestAt, List.findSome?_append]
    exact runPieces_append h1 h2

end

/-- What is found at the properties of a node. -/
theorem runPieces_props {g : Nat × Property → Option Nat} {s : σ} {props : List Property} {a : Nat}
    (h : ∀ bp ∈ propsAt a props, ∀ b, switch ⟨bp.1, fdtProp, b⟩ s = result (g bp) (.inl s)) :
    runPieces switch a (props.map .prop) s = result ((propsAt a props).findSome? g) (.inl s) := by
  induction props generalizing a with
  | nil => rfl
  | cons p props ih =>
    obtain ⟨hp, hprops⟩ := List.forall_mem_cons.mp h
    rw [List.map_cons, runPieces_cons (hp _) (ih hprops), propsAt, List.findSome?_cons]
    cases g (a, p) <;> rfl

theorem findSome?_none {α : Type} (l : List α) : l.findSome? (fun _ => (none : Option Nat)) = none :=
  List.findSome?_eq_none_iff.mpr fun _ _ => rfl

theorem runPieces_props_none {s : σ} (h : ∀ a b, switch ⟨a, fdtProp, b⟩ s = .ok (.inl s)) (props : List Property)
    (a : Nat) : runPieces switch a (props.map .prop) s = result none (.inl s) := by
  have hprops : runPieces switch a (props.map .prop) s = result ((propsAt a props).findSome? fun _ => none) (.inl s) :=
    runPieces_props fun bp _ b => h bp.1 b
  rw [hprops, findSome?_none]

/-- The properties of a list in memory. -/
theorem stored_of_mem_props {props : List Property} {a : Nat} (h : Stored m a (props.map .prop)) :
    ∀ bp ∈ propsAt a props, Stored m bp.1 [.prop bp.2] := by
  induction props generalizing a with
  | nil => exact fun bp hbp => absurd hbp List.not_mem_nil
  | cons p props ih =>
    intro bp hbp
    obtain ⟨hp, hprops⟩ := h.cons
    rcases List.mem_cons.mp hbp with rfl | hbp
    · exact hp
    · exact ih hprops bp hbp

end Visit

/-! ## A tree in memory -/

/-- The node at `bn.1` is in memory, and the strings block has the names of its properties. -/
structure NodeIn (m : Mem) (fdt : Nat) (bn : Nat × Node) : Prop where
  stored : Stored m bn.1 bn.2.pieces
  names : ∀ p ∈ bn.2.props, IsStr m (dtbReadStr m fdt p.nameoff) p.name

/-- The tree `t` is in memory as the flattened device tree at `fdt`: its structure block is at an address that is a
multiple of four and lies in the address space, and its strings block has the names of the properties. -/
structure Flattened (m : Mem) (fdt : Nat) (t : Node) : Prop where
  aligned : 4 ∣ dtStruct m fdt
  nonNull : 0 < dtStruct m fdt
  fits : dtStruct m fdt + t.structBlock.length ≤ 2 ^ 64
  block : Holds m (dtStruct m fdt) t.structBlock
  names : ∀ bn ∈ t.nodesAt (dtStruct m fdt), ∀ p ∈ bn.2.props, IsStr m (dtbReadStr m fdt p.nameoff) p.name

section Tree

variable {m : Mem} {fdt nodeName propName : Nat} {t : Node} {nn pn : Str} {bn : Nat × Node}

theorem Flattened.stored (h : Flattened m fdt t) : Stored m (dtStruct m fdt) t.pieces := by
  have hfits := h.fits
  rw [Node.structBlock, List.length_append] at hfits
  change _ + (sizes t.pieces + 4) ≤ _ at hfits
  exact ⟨h.aligned, h.nonNull, by omega, (holds_append.mp h.block).1⟩

theorem Flattened.end_token (h : Flattened m fdt t) : Holds m (dtStruct m fdt + sizes t.pieces) (be32 9) :=
  (holds_append.mp h.block).2

theorem Flattened.nodeIn (h : Flattened m fdt t) : ∀ bn ∈ t.nodesAt (dtStruct m fdt), NodeIn m fdt bn :=
  fun bn hbn => ⟨Node.pieces_of_mem (fun _ _ _ => Stored.append) h.stored bn hbn, h.names bn hbn⟩

/-- The name and the properties of a node in memory. -/
theorem NodeIn.parts (h : NodeIn m fdt bn) : IsStr m (bn.1 + 4) bn.2.name ∧
    ∀ bp ∈ bn.2.propsAt bn.1, IsStr m (dtbReadStr m fdt (readBe m (bp.1 + 8))) bp.2.name := by
  obtain ⟨a, name, props, children⟩ := bn
  have hstored := h.stored
  simp only [Node.pieces] at hstored
  obtain ⟨hname, hrest⟩ := hstored.cons
  refine ⟨hname.isStr, fun bp hbp => ?_⟩
  rw [(stored_of_mem_props hrest.append.1 bp hbp).header.2]
  exact h.names bp.2 (mem_of_mem_propsAt hbp)

/-! ## `fdt_find_node` -/

theorem findNodeSwitch_visits (h : NodeIn m fdt bn) (hn : IsStr m nodeName nn) :
    Visits (findNodeSwitch m nodeName) (fun _ _ => True) (fun bn => if bn.2.name = nn then some bn.1 else none) bn := by
  intro s _
  refine ⟨if bn.2.name = nn then some bn.1 else none, none, (), ?_, ?_, fun b => rfl, Option.or_none, fun _ _ => trivial⟩
  · simp only [findNodeSwitch, if_true, strcmp_eq h.parts.1 hn, bind, Except.bind]
    by_cases hname : bn.2.name = nn
    · simp [hname, result]
    · simp [hname, result]
  · exact runPieces_props_none (fun _ _ => rfl) _ _

/-- **`fdt_find_node`** returns the first node of the tree with the name. -/
theorem fdtFindNode_eq (h : Flattened m fdt t) (hn : IsStr m nodeName nn) :
    fdtFindNode m fdt nodeName = .ok ((t.findNode (dtStruct m fdt) nn).getD 0) := by
  have hrun := runPieces_tree (s := ()) (fun bn hbn => findNodeSwitch_visits (h.nodeIn bn hbn) hn) trivial
  rw [← Node.findNode_eq] at hrun
  exact whilePieces_block h.stored h.end_token hrun rfl

/-! ## `fdt_read_node` -/

theorem push_eq {s : Names} (h : s.namestack.length < 100) (a : Nat) :
    s.push a = .ok ⟨a + 4, s.currentNode :: s.namestack⟩ := if_pos h

theorem readNodeSwitch_begin (h : NodeIn m fdt bn) (hn : IsStr m nodeName nn) {s : Names}
    (hs : s.namestack.length < 100) (b : Nat) :
    readNodeSwitch m nodeName ⟨bn.1, fdtBeginNode, b⟩ s =
      result (if bn.2.name = nn then some bn.1 else none) (.inl ⟨bn.1 + 4, s.currentNode :: s.namestack⟩) := by
  simp only [readNodeSwitch, if_true, push_eq hs, bind, Except.bind, strcmp_eq hn h.parts.1]
  by_cases hname : bn.2.name = nn
  · simp [hname, result]
  · simp [hname, Ne.symm hname, result]

/-- The end of a node below the first. -/
theorem leave_eq {s : Names} (hs : 1 ≤ s.namestack.length) (a : Nat) :
    Names.leave ⟨a, s.currentNode :: s.namestack⟩ = .ok (.inl s) := by
  have hlen : (s.currentNode :: s.namestack).length ≠ 1 := by
    rw [List.length_cons]
    omega
  rw [Names.leave, if_neg hlen]
  rfl

/-- There is room for `h` levels below the first. -/
def RoomBelow (h : Nat) (s : Names) : Prop := 1 ≤ s.namestack.length ∧ s.namestack.length + h < 100

theorem RoomBelow.child {h h' : Nat} {s : Names} (hs : RoomBelow h s) (hlt : h' < h) (a : Nat) :
    RoomBelow h' ⟨a, s.currentNode :: s.namestack⟩ := by
  obtain ⟨-, h2⟩ := hs
  refine ⟨Nat.le_add_left 1 _, ?_⟩
  rw [List.length_cons]
  omega

/-- The children of the first node. -/
theorem roomBelow_root {name : Str} {props : List Property} {children : List Node}
    (hd : (Node.mk name props children).height < 100) {a c : Nat} :
    ∀ h < Node.forestHeight children, RoomBelow h ⟨a, [c]⟩ := by
  intro h hlt
  rw [Node.height] at hd
  refine ⟨Nat.le_refl 1, ?_⟩
  change 1 + h < 100
  omega

theorem readNodeSwitch_visits (h : NodeIn m fdt bn) (hn : IsStr m nodeName nn) :
    Visits (readNodeSwitch m nodeName) RoomBelow (fun bn => if bn.2.name = nn then some bn.1 else none) bn := by
  intro s hs
  refine ⟨if bn.2.name = nn then some bn.1 else none, none, ⟨bn.1 + 4, s.currentNode :: s.namestack⟩,
    readNodeSwitch_begin h hn (Nat.lt_of_le_of_lt (Nat.le_add_right _ _) hs.2) _, ?_,
    fun _ => leave_eq hs.1 _, Option.or_none, fun _ hlt => hs.child hlt _⟩
  exact runPieces_props_none (fun _ _ => rfl) _ _

/-- **`fdt_read_node`** returns the first node with the name in the subtree of the node, which is the node itself if it
has the name. -/
theorem fdtReadNode_eq (h : ∀ cn ∈ bn.2.nodesAt bn.1, NodeIn m fdt cn) (hd : bn.2.height < 100)
    (hn : IsStr m nodeName nn) : fdtReadNode m bn.1 nodeName = .ok ((bn.2.findNode bn.1 nn).getD 0) := by
  obtain ⟨a, name, props, children⟩ := bn
  rw [Node.nodesAt] at h
  obtain ⟨hroot, hchildren⟩ := List.forall_mem_cons.mp h
  have hbegin := readNodeSwitch_begin hroot hn (s := Names.start) (by decide) (a + (Piece.beginNode name).size)
  have hprops : runPieces (readNodeSwitch m nodeName) (a + (Piece.beginNode name).size) (props.map .prop) ⟨a + 4, [0]⟩ =
      result none (.inl ⟨a + 4, [0]⟩) := runPieces_props_none (fun _ _ => rfl) _ _
  have hforest := runPieces_forest (s := (⟨a + 4, [0]⟩ : Names))
    (fun cn hcn => readNodeSwitch_visits (hchildren cn hcn) hn) (roomBelow_root hd)
  have hnode : runPieces (readNodeSwitch m nodeName) a (Node.mk name props children).pieces Names.start =
      result ((Node.mk name props children).findNode a nn) (.inr 0) := by
    rw [runPieces_node hbegin hprops hforest fun _ => rfl, Node.findNode_eq, Node.nodesAt, List.findSome?_cons]
    by_cases hname : name = nn
    · simp [Node.name, hname]
    · simp [Node.name, hname]
  refine whilePieces_eq hroot.stored (hnode.trans ?_)
  cases (Node.mk name props children).findNode a nn <;> rfl

/-! ## `fdt_read_prop` -/

theorem readPropSwitch_begin (m : Mem) (fdt propName : Nat) {s : Names} (hs : s.namestack.length < 100) (a b : Nat) :
    readPropSwitch m fdt propName ⟨a, fdtBeginNode, b⟩ s =
      result none (.inl ⟨a + 4, s.currentNode :: s.namestack⟩) := by
  simp only [readPropSwitch, if_true, push_eq hs, bind, Except.bind]
  rfl

/-- Below the first node nothing is found. -/
theorem readPropSwitch_visits (m : Mem) (fdt propName : Nat) (bn : Nat × Node) :
    Visits (readPropSwitch m fdt propName) RoomBelow (fun _ => none) bn := by
  intro s hs
  refine ⟨none, none, ⟨bn.1 + 4, s.currentNode :: s.namestack⟩,
    readPropSwitch_begin m fdt propName (Nat.lt_of_le_of_lt (Nat.le_add_right _ _) hs.2) _ _, ?_, fun _ => leave_eq hs.1 _, rfl,
    fun _ hlt => hs.child hlt _⟩
  have hlen : (s.currentNode :: s.namestack).length ≠ 1 := by
    have := hs.1
    rw [List.length_cons]
    omega
  refine runPieces_props_none (fun a b => ?_) _ _
  simp only [readPropSwitch, hlen, if_false]
  rfl

/-- **`fdt_read_prop`** returns the first property with the name of the node itself. -/
theorem fdtReadProp_eq (h : NodeIn m fdt bn) (hd : bn.2.height < 100) (hp : IsStr m propName pn) :
    fdtReadProp m fdt bn.1 propName = .ok ((bn.2.readProp bn.1 pn).getD 0) := by
  obtain ⟨a, name, props, children⟩ := bn
  have hbegin := readPropSwitch_begin m fdt propName (s := Names.start) (by decide) a
    (a + (Piece.beginNode name).size)
  have hprops : runPieces (readPropSwitch m fdt propName) (a + (Piece.beginNode name).size) (props.map .prop)
      ⟨a + 4, [0]⟩ = result ((propsAt (a + (Piece.beginNode name).size) props).findSome? fun bp =>
        if bp.2.name = pn then some bp.1 else none) (.inl ⟨a + 4, [0]⟩) := by
    refine runPieces_props fun bp hbp b => ?_
    simp only [readPropSwitch, List.length_singleton, if_true, strcmp_eq (h.parts.2 bp hbp) hp, bind, Except.bind]
    by_cases hname : bp.2.name = pn
    · simp [hname, result, fdtProp, fdtBeginNode, fdtEndNode]
    · simp [hname, result, fdtProp, fdtBeginNode, fdtEndNode]
  have hforest := runPieces_forest (s := (⟨a + 4, [0]⟩ : Names)) (a := a + (Piece.beginNode name).size
    + sizes (props.map .prop)) (fun cn _ => readPropSwitch_visits m fdt propName cn) (roomBelow_root hd)
  have hnode : runPieces (readPropSwitch m fdt propName) a (Node.mk name props children).pieces Names.start =
      result ((Node.mk name props children).readProp a pn) (.inr 0) := by
    rw [runPieces_node hbegin hprops hforest fun _ => rfl, Node.readProp_eq, findSome?_none, Option.or_none,
      Option.none_or]
    rfl
  refine whilePieces_eq h.stored (hnode.trans ?_)
  cases (Node.mk name props children).readProp a pn <;> rfl

/-! ## `fdt_find_prop` -/

/-- There is room for `h` levels. -/
def Room (h : Nat) (s : Names) : Prop := s.namestack.length + h < 100

theorem findPropSwitch_visits (h : NodeIn m fdt bn) (hn : IsStr m nodeName nn) (hp : IsStr m propName pn) :
    Visits (findPropSwitch m fdt nodeName propName) Room
      (fun bn => if bn.2.name = nn then bn.2.readProp bn.1 pn else none) bn := by
  intro s hs
  refine ⟨none, _, ⟨bn.1 + 4, s.currentNode :: s.namestack⟩, ?_, ?_, fun _ => rfl, Option.none_or, fun h' hlt => ?_⟩
  · simp only [findPropSwitch, if_true, push_eq (Nat.lt_of_le_of_lt (Nat.le_add_right _ _) hs), bind, Except.bind]
    rfl
  · by_cases hname : bn.2.name = nn
    · simp only [if_pos hname]
      rw [Node.readProp_eq]
      refine runPieces_props fun bp hbp b => ?_
      simp only [findPropSwitch, strcmp_eq h.parts.1 hn, strcmp_eq hp (h.parts.2 bp hbp), bind, Except.bind]
      by_cases hprop : bp.2.name = pn
      · simp [hname, hprop, result, fdtProp, fdtBeginNode, fdtEndNode]
      · simp [hname, hprop, Ne.symm hprop, result, fdtProp, fdtBeginNode, fdtEndNode]
    · simp only [if_neg hname]
      refine runPieces_props_none (fun a b => ?_) _ _
      simp only [findPropSwitch, strcmp_eq h.parts.1 hn, bind, Except.bind]
      simp [hname, fdtProp, fdtBeginNode, fdtEndNode]
  · change (s.currentNode :: s.namestack).length + h' < 100
    have : s.namestack.length + bn.2.height < 100 := hs
    rw [List.length_cons]
    omega

/-- **`fdt_find_prop`** returns the first property with the name of a node with the name. -/
theorem fdtFindProp_eq (h : Flattened m fdt t) (hd : t.height < 100) (hn : IsStr m nodeName nn)
    (hp : IsStr m propName pn) :
    fdtFindProp m fdt nodeName propName = .ok ((t.findProp (dtStruct m fdt) nn pn).getD 0) := by
  have hroom : Room t.height Names.start := by
    change 0 + t.height < 100
    omega
  have hrun := runPieces_tree (fun bn hbn => findPropSwitch_visits (h.nodeIn bn hbn) hn hp) hroom
  exact whilePieces_block h.stored h.end_token hrun rfl

/-- **The lookups are exact** on a flattened device tree of depth below 100. -/
theorem fdt_lookups (h : Flattened m fdt t) (hd : t.height < 100) (hn : IsStr m nodeName nn)
    (hp : IsStr m propName pn) :
    fdtFindNode m fdt nodeName = .ok ((t.findNode (dtStruct m fdt) nn).getD 0) ∧
    (∀ bn ∈ t.nodesAt (dtStruct m fdt),
      fdtReadNode m bn.1 nodeName = .ok ((bn.2.findNode bn.1 nn).getD 0) ∧
      fdtReadProp m fdt bn.1 propName = .ok ((bn.2.readProp bn.1 pn).getD 0)) ∧
    fdtFindProp m fdt nodeName propName = .ok ((t.findProp (dtStruct m fdt) nn pn).getD 0) := by
  refine ⟨fdtFindNode_eq h hn, fun bn hbn => ?_, fdtFindProp_eq h hd hn hp⟩
  have hheight := Node.height_of_mem bn hbn
  refine ⟨fdtReadNode_eq (fun cn hcn => h.nodeIn cn (Node.nodesAt_trans bn hbn cn hcn)) (by omega) hn, ?_⟩
  exact fdtReadProp_eq (h.nodeIn bn hbn) (by omega) hp

end Tree

/-! ## A small tree -/

/-- A root with the property `a` and a child `b` with the property `a`. -/
def smallTree : Node :=
  .mk ⟨[], by decide⟩ [⟨⟨[97], by decide⟩, 0, [1], by decide⟩]
    [.mk ⟨[98], by decide⟩ [⟨⟨[97], by decide⟩, 0, [2, 3], by decide⟩] []]

/-- The tree at 64: the header, the structure block at 80, the string `a` at 140 and the string `b` at 142. -/
def smallMem : Mem := fun a =>
  if a < 64 then 0
  else ((be32 0xd00dfeed ++ be32 80 ++ be32 16 ++ be32 76) ++ smallTree.structBlock ++ [97, 0, 98, 0]).getD (a - 64) 0

theorem smallMem_flattened : Flattened smallMem 64 smallTree where
  aligned := by decide
  nonNull := by decide
  fits := by decide
  block := by decide
  names := by
    intro bn hbn p hp
    have hbn' : bn ∈ [((80, smallTree) : Nat × Node),
        (104, .mk ⟨[98], by decide⟩ [⟨⟨[97], by decide⟩, 0, [2, 3], by decide⟩] [])] := hbn
    have hname : p.name = ⟨[97], by decide⟩ ∧ p.nameoff = 0 := by
      rcases List.mem_pair.mp hbn' with rfl | rfl
      · obtain rfl := List.mem_singleton.mp hp
        exact ⟨rfl, rfl⟩
      · obtain rfl := List.mem_singleton.mp hp
        exact ⟨rfl, rfl⟩
    rw [hname.1, hname.2]
    exact ⟨by decide, by decide⟩

/-- In the small tree the node `b` is at 104, and the property `a` of the node `b` at 112. -/
theorem fdt_lookups_small :
    fdtFindNode smallMem 64 142 = .ok 104 ∧
    (fdtReadNode smallMem 80 142 = .ok 104 ∧ fdtReadProp smallMem 64 80 140 = .ok 88) ∧
    fdtFindProp smallMem 64 142 140 = .ok 112 := by
  have hb : IsStr smallMem 142 ⟨[98], by decide⟩ := ⟨by decide, by decide⟩
  have ha : IsStr smallMem 140 ⟨[97], by decide⟩ := ⟨by decide, by decide⟩
  obtain ⟨h1, h2, h3⟩ := fdt_lookups smallMem_flattened (by decide) hb ha
  exact ⟨h1, h2 (80, smallTree) (List.mem_cons_self), h3⟩

end LitmusHarness.Device
