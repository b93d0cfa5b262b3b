import Mathlib.Algebra.Group.Nat.Defs
import Mathlib.Data.List.Basic
import Mathlib.Data.List.TakeWhile
import LitmusHarness.Lib.Bytes

/-!
# Flattened device trees

A node of a device tree has a name, properties and children. Flattened, it is a sequence of pieces: its name, its
properties, the pieces of its children, and its end (`Node.pieces`). Each piece is a token and its data, padded to a
multiple of four bytes (`Piece.bytes`, `Piece.four_dvd_size`), and the structure block is the pieces of the root and an
end token (`Node.structBlock`).

`Node.nodesAt` and `Node.propsAt` list the nodes and properties with their addresses, in the order of the block. On them
`Node.findNode`, `Node.readProp`, `Node.findProp` and `Node.nodesWithProp` say what a lookup looks for. Behind a property
more nodes end than begin (`Node.lt_ends`).
-/

namespace Dtb

open Bytes

/-- A property: its name, where the strings block has the name, and its value. -/
structure Property where
  name : Str
  nameoff : BitVec 32
  value : List (BitVec 8)
  length_lt : value.length < 2 ^ 32

/-- The value as a string: up to its first zero, or all of it. -/
def Property.valueStr (p : Property) : Str :=
  ⟨p.value.takeWhile fun b => b ≠ 0#8, fun h => by
    have hne := List.mem_takeWhile_imp (p := fun b => decide (b ≠ 0#8)) h
    exact absurd rfl (of_decide_eq_true hne)⟩

/-- A node of the tree. -/
inductive Node where
  | mk (name : Str) (props : List Property) (children : List Node)

namespace Node

def name : Node → Str
  | mk name _ _ => name

def props : Node → List Property
  | mk _ props _ => props

mutual

/-- The levels below a node. -/
def height : Node → Nat
  | mk _ _ children => forestHeight children

/-- The levels of a list of nodes. -/
def forestHeight : List Node → Nat
  | [] => 0
  | n :: ns => max (n.height + 1) (forestHeight ns)

end

end Node

/-! ## Pieces -/

/-- A number of 32 bits, highest byte first. -/
def be32 (v : BitVec 32) : List (BitVec 8) :=
  [v.extractLsb' 24 8, v.extractLsb' 16 8, v.extractLsb' 8 8, v.extractLsb' 0 8]

/-- Zeros up to a multiple of four. -/
def pad (l : List (BitVec 8)) : List (BitVec 8) := l ++ List.replicate ((4 - l.length % 4) % 4) 0#8

/-- A piece of the structure block. -/
inductive Piece where
  | beginNode (name : Str)
  | prop (p : Property)
  | endNode

namespace Piece

def token : Piece → BitVec 32
  | beginNode _ => 1
  | prop _ => 3
  | endNode => 2

def bytes : Piece → List (BitVec 8)
  | beginNode name => pad (be32 1 ++ (name.1 ++ [0#8]))
  | prop p => pad (be32 3 ++ (be32 (BitVec.ofNat 32 p.value.length) ++ (be32 p.nameoff ++ p.value)))
  | endNode => be32 2

def size (p : Piece) : Nat := p.bytes.length

theorem four_dvd_length_pad (l : List (BitVec 8)) : 4 ∣ (pad l).length := by
  rw [pad, List.length_append, List.length_replicate]
  omega

theorem length_pad (l : List (BitVec 8)) : (pad l).length = (l.length + 3) / 4 * 4 := by
  rw [pad, List.length_append, List.length_replicate]
  omega

theorem size_beginNode (name : Str) : (beginNode name).size = (name.1.length + 8) / 4 * 4 := by
  rw [size, bytes, length_pad, List.length_append, List.length_append]
  change (4 + (name.1.length + 1) + 3) / 4 * 4 = _
  omega

theorem size_prop (p : Property) : (prop p).size = (p.value.length + 15) / 4 * 4 := by
  rw [size, bytes, length_pad, List.length_append, List.length_append, List.length_append]
  change (4 + (4 + (4 + p.value.length)) + 3) / 4 * 4 = _
  omega

theorem size_endNode : endNode.size = 4 := rfl

theorem four_dvd_size : ∀ p : Piece, 4 ∣ p.size
  | beginNode _ => four_dvd_length_pad _
  | prop _ => four_dvd_length_pad _
  | endNode => ⟨1, rfl⟩

theorem four_le_size (p : Piece) : 4 ≤ p.size := by
  cases p with
  | beginNode name => rw [size_beginNode]; omega
  | prop p => rw [size_prop]; omega
  | endNode => exact Nat.le_refl 4

end Piece

/-- The bytes of a list of pieces. -/
def bytesOf (ps : List Piece) : List (BitVec 8) := ps.flatMap Piece.bytes

def sizes (ps : List Piece) : Nat := (bytesOf ps).length

@[simp] theorem sizes_nil : sizes [] = 0 := rfl

@[simp] theorem sizes_cons (p : Piece) (ps : List Piece) : sizes (p :: ps) = p.size + sizes ps := by
  rw [sizes, bytesOf, List.flatMap_cons, List.length_append]
  rfl

@[simp] theorem sizes_append (ps qs : List Piece) : sizes (ps ++ qs) = sizes ps + sizes qs := by
  rw [sizes, bytesOf, List.flatMap_append, List.length_append]
  rfl

theorem four_dvd_sizes (ps : List Piece) : 4 ∣ sizes ps := by
  induction ps with
  | nil => exact ⟨0, rfl⟩
  | cons p ps ih =>
    rw [sizes_cons]
    exact Nat.dvd_add p.four_dvd_size ih

theorem length_le_sizes (ps : List Piece) : ps.length ≤ sizes ps := by
  induction ps with
  | nil => exact Nat.le_refl 0
  | cons p ps ih =>
    rw [sizes_cons, List.length_cons]
    have := p.four_le_size
    omega

/-! ## The structure block -/

namespace Node

mutual

/-- The pieces of a node. -/
def pieces : Node → List Piece
  | mk name props children => .beginNode name :: (props.map .prop ++ (forestPieces children ++ [.endNode]))

/-- The pieces of a list of nodes. -/
def forestPieces : List Node → List Piece
  | [] => []
  | n :: ns => n.pieces ++ forestPieces ns

end

/-- The structure block of a tree. -/
def structBlock (t : Node) : List (BitVec 8) := bytesOf t.pieces ++ be32 9

mutual

/-- The nodes of the subtree of a node at `a`, with their addresses, in pre-order. -/
def nodesAt : Nat → Node → List (Nat × Node)
  | a, mk name props children =>
    (a, mk name props children) :: forestAt (a + (Piece.beginNode name).size + sizes (props.map .prop)) children

/-- The nodes of the subtrees of nodes that follow each other from `a` on. -/
def forestAt : Nat → List Node → List (Nat × Node)
  | _, [] => []
  | a, n :: ns => n.nodesAt a ++ forestAt (a + sizes n.pieces) ns

end

end Node

/-- Properties that follow each other from `a` on, with their addresses. -/
def propsAt : Nat → List Property → List (Nat × Property)
  | _, [] => []
  | a, p :: ps => (a, p) :: propsAt (a + (Piece.prop p).size) ps

theorem mem_of_mem_propsAt {ps : List Property} {a : Nat} {bp : Nat × Property} (h : bp ∈ propsAt a ps) :
    bp.2 ∈ ps := by
  induction ps generalizing a with
  | nil => exact absurd h List.not_mem_nil
  | cons p ps ih =>
    rcases List.mem_cons.mp h with rfl | h
    · exact List.mem_cons_self
    · exact List.mem_cons_of_mem _ (ih h)

namespace Node

/-- The properties of a node at `a`, with their addresses. -/
def propsAt (a : Nat) (n : Node) : List (Nat × Property) := Dtb.propsAt (a + (Piece.beginNode n.name).size) n.props

/-- The first node, in pre-order, with a name. -/
def findNode (a : Nat) (t : Node) (name : Str) : Option Nat :=
  ((t.nodesAt a).find? fun bn => bn.2.name = name).map Prod.fst

/-- The first property of the node with a name. -/
def readProp (a : Nat) (n : Node) (name : Str) : Option Nat :=
  ((n.propsAt a).find? fun bp => bp.2.name = name).map Prod.fst

/-- A property with a name and a value, read as a string. -/
def hasProp (n : Node) (name value : Str) : Bool := n.props.any fun p => p.name = name && p.valueStr = value

/-- The nodes with such a property, in pre-order. -/
def nodesWithProp (a : Nat) (t : Node) (name value : Str) : List Nat :=
  ((t.nodesAt a).filter fun bn => bn.2.hasProp name value).map Prod.fst

/-- The first property with a name whose node has a given name. -/
def findProp (a : Nat) (t : Node) (nodeName name : Str) : Option Nat :=
  (t.nodesAt a).findSome? fun bn => if bn.2.name = nodeName then bn.2.readProp bn.1 name else none

theorem findNode_eq (a : Nat) (t : Node) (name : Str) :
    t.findNode a name = (t.nodesAt a).findSome? fun bn => if bn.2.name = name then some bn.1 else none := by
  rw [findNode]
  induction t.nodesAt a with
  | nil => rfl
  | cons bn l ih =>
    by_cases h : bn.2.name = name
    · simp [h]
    · simp [h, ← ih]

theorem readProp_eq (a : Nat) (n : Node) (name : Str) :
    n.readProp a name = (n.propsAt a).findSome? fun bp => if bp.2.name = name then some bp.1 else none := by
  rw [readProp]
  induction n.propsAt a with
  | nil => rfl
  | cons bp l ih =>
    by_cases h : bp.2.name = name
    · simp [h]
    · simp [h, ← ih]

/-! ## Begins and ends -/

/-- How many nodes begin. -/
def begins (ps : List Piece) : Nat := ps.countP fun p => p.token = 1

/-- How many nodes end. -/
def ends (ps : List Piece) : Nat := ps.countP fun p => p.token = 2

theorem begins_append (ps qs : List Piece) : begins (ps ++ qs) = begins ps + begins qs := List.countP_append

theorem ends_append (ps qs : List Piece) : ends (ps ++ qs) = ends ps + ends qs := List.countP_append

theorem begins_props (props : List Property) : begins (props.map .prop) = 0 := by
  refine List.countP_eq_zero.mpr fun p hp => ?_
  obtain ⟨p, -, rfl⟩ := List.mem_map.mp hp
  exact Bool.false_ne_true

theorem ends_props (props : List Property) : ends (props.map .prop) = 0 := by
  refine List.countP_eq_zero.mpr fun p hp => ?_
  obtain ⟨p, -, rfl⟩ := List.mem_map.mp hp
  exact Bool.false_ne_true

mutual

/-- What begins in a tree ends in it. -/
theorem begins_eq_ends : ∀ t : Node, begins t.pieces = ends t.pieces
  | mk name props children => by
    have hforest := begins_eq_ends_forest children
    rw [pieces, ← List.singleton_append]
    simp only [begins_append, ends_append, begins_props, ends_props, hforest]
    change 1 + (0 + (_ + 0)) = 0 + (0 + (_ + 1))
    omega

theorem begins_eq_ends_forest : ∀ ns : List Node, begins (forestPieces ns) = ends (forestPieces ns)
  | [] => rfl
  | n :: ns => by rw [forestPieces, begins_append, ends_append, begins_eq_ends n, begins_eq_ends_forest ns]

end

/-- A piece of two lists is a piece of one of them. -/
theorem append_eq_append_cons {as bs ps qs : List Piece} {x : Piece} (h : as ++ bs = ps ++ x :: qs) :
    (∃ qs', as = ps ++ x :: qs' ∧ qs = qs' ++ bs) ∨ ∃ ps', ps = as ++ ps' ∧ bs = ps' ++ x :: qs := by
  induction as generalizing ps with
  | nil => exact .inr ⟨ps, rfl, h⟩
  | cons a as ih =>
    cases ps with
    | nil =>
      obtain ⟨rfl, rfl⟩ := List.cons.inj h
      exact .inl ⟨as, rfl, rfl⟩
    | cons b ps =>
      obtain ⟨rfl, htail⟩ := List.cons.inj h
      rcases ih htail with ⟨qs', rfl, rfl⟩ | ⟨ps', rfl, rfl⟩
      · exact .inl ⟨qs', rfl, rfl⟩
      · exact .inr ⟨ps', rfl, rfl⟩

mutual

/-- Behind a property the nodes that it lies in are still to end. -/
theorem lt_ends : ∀ {t : Node} {ps qs : List Piece} {p : Property}, t.pieces = ps ++ .prop p :: qs → begins qs < ends qs
  | mk name props children, ps, qs, p, h => by
    have hforest := begins_eq_ends_forest children
    have hend : ends [Piece.endNode] = 1 := rfl
    have hbegin : begins [Piece.endNode] = 0 := rfl
    rw [pieces, ← List.singleton_append] at h
    rcases append_eq_append_cons h with ⟨qs', hname, -⟩ | ⟨ps', -, hrest⟩
    · rw [List.singleton_eq_append_iff] at hname
      rcases hname with ⟨-, h⟩ | ⟨-, h⟩ <;> cases h
    rcases append_eq_append_cons hrest with ⟨qs', hprops, rfl⟩ | ⟨ps', -, hrest⟩
    · obtain ⟨l₁, l₂, -, -, hl₂⟩ := List.map_eq_append_iff.mp hprops
      obtain ⟨p', l, -, -, rfl⟩ := List.map_eq_cons_iff.mp hl₂
      simp only [begins_append, ends_append, begins_props, ends_props, hend, hbegin]
      omega
    rcases append_eq_append_cons hrest with ⟨qs', hchildren, rfl⟩ | ⟨ps', -, hlast⟩
    · have hlt := lt_ends_forest hchildren
      rw [begins_append, ends_append]
      omega
    · rw [List.singleton_eq_append_iff] at hlast
      rcases hlast with ⟨-, h⟩ | ⟨-, h⟩ <;> cases h

theorem lt_ends_forest : ∀ {ns : List Node} {ps qs : List Piece} {p : Property},
    forestPieces ns = ps ++ .prop p :: qs → begins qs < ends qs
  | [], ps, qs, p, h => by
    rw [forestPieces] at h
    exact absurd h.symm (List.append_ne_nil_of_right_ne_nil _ (List.cons_ne_nil _ _))
  | n :: ns, ps, qs, p, h => by
    rw [forestPieces] at h
    rcases append_eq_append_cons h with ⟨qs', hn, rfl⟩ | ⟨ps', -, hns⟩
    · have hlt := lt_ends hn
      have hrest := begins_eq_ends_forest ns
      rw [begins_append, ends_append]
      omega
    · exact lt_ends_forest hns

end

/-! ## Nodes of the tree -/

mutual

/-- What is true of the pieces of the root, is true of those of its nodes. -/
theorem pieces_of_mem {P : Nat → List Piece → Prop}
    (hP : ∀ a ps qs, P a (ps ++ qs) → P a ps ∧ P (a + sizes ps) qs) : ∀ {t : Node} {a : Nat}, P a t.pieces →
      ∀ bn ∈ t.nodesAt a, P bn.1 bn.2.pieces
  | mk name props children, a, h, bn, hbn => by
    rw [nodesAt] at hbn
    rcases List.mem_cons.mp hbn with rfl | hbn
    · exact h
    · rw [pieces, ← List.singleton_append, ← List.append_assoc] at h
      have h := (hP _ _ _ (hP _ _ _ h).2).1
      rw [sizes_append, sizes_cons, sizes_nil, Nat.add_zero, ← Nat.add_assoc] at h
      exact pieces_of_mem_forest hP h bn hbn

theorem pieces_of_mem_forest {P : Nat → List Piece → Prop}
    (hP : ∀ a ps qs, P a (ps ++ qs) → P a ps ∧ P (a + sizes ps) qs) : ∀ {ns : List Node} {a : Nat},
      P a (forestPieces ns) → ∀ bn ∈ forestAt a ns, P bn.1 bn.2.pieces
  | [], a, h, bn, hbn => by
    rw [forestAt] at hbn
    exact absurd hbn List.not_mem_nil
  | n :: ns, a, h, bn, hbn => by
    rw [forestPieces] at h
    rw [forestAt] at hbn
    obtain ⟨h1, h2⟩ := hP _ _ _ h
    rcases List.mem_append.mp hbn with hbn | hbn
    · exact pieces_of_mem hP h1 bn hbn
    · exact pieces_of_mem_forest hP h2 bn hbn

end

mutual

/-- A property in the pieces of a tree is a property of one of its nodes. -/
theorem prop_mem_pieces_iff : ∀ {t : Node} {a : Nat} {p : Property},
    .prop p ∈ t.pieces ↔ ∃ bn ∈ t.nodesAt a, p ∈ bn.2.props
  | mk name props children, a, p => by
    have hforest := @prop_mem_forestPieces_iff children (a + (Piece.beginNode name).size + sizes (props.map .prop)) p
    rw [pieces, nodesAt]
    simp [hforest, Node.props]

theorem prop_mem_forestPieces_iff : ∀ {ns : List Node} {a : Nat} {p : Property},
    .prop p ∈ forestPieces ns ↔ ∃ bn ∈ forestAt a ns, p ∈ bn.2.props
  | [], a, p => by
    rw [forestPieces, forestAt]
    simp
  | n :: ns, a, p => by
    have hn := @prop_mem_pieces_iff n a p
    have hns := @prop_mem_forestPieces_iff ns (a + sizes n.pieces) p
    rw [forestPieces, forestAt, List.mem_append, hn, hns]
    simp only [List.mem_append, or_and_right, exists_or]

end

/-- No node has the property with the value. -/
theorem nodesWithProp_eq_nil_iff {t : Node} {a : Nat} {name value : Str} : t.nodesWithProp a name value = [] ↔
    ∀ p, .prop p ∈ t.pieces → ¬(p.name = name ∧ p.valueStr = value) := by
  rw [nodesWithProp, List.map_eq_nil_iff, List.filter_eq_nil_iff]
  constructor
  · intro h p hp hprop
    obtain ⟨bn, hbn, hmem⟩ := (prop_mem_pieces_iff (a := a)).mp hp
    exact h bn hbn (List.any_eq_true.mpr ⟨p, hmem, by simpa using hprop⟩)
  · intro h bn hbn hany
    obtain ⟨p, hmem, hprop⟩ := List.any_eq_true.mp hany
    exact h p (prop_mem_pieces_iff.mpr ⟨bn, hbn, hmem⟩) (by simpa using hprop)

mutual

theorem height_of_mem : ∀ {t : Node} {a : Nat}, ∀ bn ∈ t.nodesAt a, bn.2.height ≤ t.height
  | mk name props children, a, bn, hbn => by
    rw [nodesAt] at hbn
    rcases List.mem_cons.mp hbn with rfl | hbn
    · exact Nat.le_refl _
    · have := height_of_mem_forest bn hbn
      rw [height]
      omega

theorem height_of_mem_forest : ∀ {ns : List Node} {a : Nat}, ∀ bn ∈ forestAt a ns, bn.2.height < forestHeight ns
  | [], a, bn, hbn => by
    rw [forestAt] at hbn
    exact absurd hbn List.not_mem_nil
  | n :: ns, a, bn, hbn => by
    rw [forestAt] at hbn
    rw [forestHeight]
    rcases List.mem_append.mp hbn with hbn | hbn
    · have := height_of_mem bn hbn
      omega
    · have := height_of_mem_forest bn hbn
      omega

end

mutual

/-- The nodes below a node of the tree are nodes of the tree. -/
theorem nodesAt_trans : ∀ {t : Node} {a : Nat}, ∀ bn ∈ t.nodesAt a, ∀ cn ∈ bn.2.nodesAt bn.1, cn ∈ t.nodesAt a
  | mk name props children, a, bn, hbn, cn, hcn => by
    rw [nodesAt] at hbn
    rcases List.mem_cons.mp hbn with rfl | hbn
    · exact hcn
    · rw [nodesAt]
      exact List.mem_cons_of_mem _ (nodesAt_trans_forest bn hbn cn hcn)

theorem nodesAt_trans_forest : ∀ {ns : List Node} {a : Nat}, ∀ bn ∈ forestAt a ns, ∀ cn ∈ bn.2.nodesAt bn.1,
    cn ∈ forestAt a ns
  | [], a, bn, hbn, cn, hcn => by
    rw [forestAt] at hbn
    exact absurd hbn List.not_mem_nil
  | n :: ns, a, bn, hbn, cn, hcn => by
    rw [forestAt] at hbn ⊢
    rcases List.mem_append.mp hbn with hbn | hbn
    · exact List.mem_append_left _ (nodesAt_trans bn hbn cn hcn)
    · exact List.mem_append_right _ (nodesAt_trans_forest bn hbn cn hcn)

end

end Node

end Dtb
