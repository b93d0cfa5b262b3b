import Mathlib.Data.List.Induction
import Mathlib.Data.List.ReduceOption
import LitmusHarness.Lib.Dtb

/-!
# Reading a structure block piece by piece, and NOPs in it

A reader that has come to a piece knows how far it is, which nodes are open and which one began last (`progress`). What
is open has begun in the pieces that are read (`progress_open`), and at a property of a tree some node is open
(`open_at_prop`).

In a structure block there may be NOPs between the pieces. A block with NOPs is a list of `Option Piece`, where `none` is
a NOP; without the NOPs it is the list of its pieces, and `beforeNop` are the pieces before the first NOP.
-/

namespace Dtb

/-! ## Progress -/

/-- How far a reader is, the open nodes, the innermost first, and the node that began last. A node is given by how far
from the start it began. -/
structure Progress where
  offset : Nat
  openNodes : List (Nat × Bytes.Str)
  last : Option Nat

namespace Progress

def start : Progress := ⟨0, [], none⟩

/-- The next piece. -/
def step (c : Progress) (p : Piece) : Progress :=
  match p with
  | .beginNode name => ⟨c.offset + p.size, (c.offset, name) :: c.openNodes, some c.offset⟩
  | .prop _ => ⟨c.offset + p.size, c.openNodes, c.last⟩
  | .endNode => ⟨c.offset + p.size, c.openNodes.tail, c.last⟩

theorem offset_step (c : Progress) (p : Piece) : (c.step p).offset = c.offset + p.size := by
  cases p <;> rfl

end Progress

/-- After a list of pieces. -/
def progress (ps : List Piece) : Progress := ps.foldl Progress.step Progress.start

theorem progress_concat (ps : List Piece) (p : Piece) : progress (ps ++ [p]) = (progress ps).step p :=
  List.foldl_concat _ _ _ _

theorem offset_progress (ps : List Piece) : (progress ps).offset = sizes ps := by
  induction ps using List.reverseRecOn with
  | nil => rfl
  | append_singleton ps p ih =>
    rw [progress_concat, Progress.offset_step, ih, sizes_append, sizes_cons, sizes_nil, Nat.add_zero]

/-- A node with the name begins at the offset. -/
def Began (ps : List Piece) (offset : Nat) (name : Bytes.Str) : Prop :=
  ∃ qs qs', ps = qs ++ .beginNode name :: qs' ∧ offset = sizes qs

theorem Began.append {ps : List Piece} {offset : Nat} {name : Bytes.Str} (h : Began ps offset name) (ps' : List Piece) :
    Began (ps ++ ps') offset name := by
  obtain ⟨qs, qs', rfl, rfl⟩ := h
  exact ⟨qs, qs' ++ ps', by rw [List.append_assoc, List.cons_append], rfl⟩

theorem began_last (ps : List Piece) (name : Bytes.Str) :
    Began (ps ++ [.beginNode name]) (progress ps).offset name := ⟨ps, [], rfl, offset_progress ps⟩

/-- What is open has begun. -/
theorem progress_open {ps : List Piece} : ∀ on ∈ (progress ps).openNodes, Began ps on.1 on.2 := by
  induction ps using List.reverseRecOn with
  | nil => exact fun on hon => absurd hon List.not_mem_nil
  | append_singleton ps p ih =>
    intro on hon
    rw [progress_concat] at hon
    cases p with
    | beginNode name =>
      rcases List.mem_cons.mp hon with rfl | hon
      · exact began_last ps name
      · exact (ih on hon).append _
    | prop p => exact (ih on hon).append _
    | endNode => exact (ih on (List.mem_of_mem_tail hon)).append _

theorem progress_last {ps : List Piece} {offset : Nat} (h : (progress ps).last = some offset) :
    ∃ name, Began ps offset name := by
  induction ps using List.reverseRecOn with
  | nil => cases h
  | append_singleton ps p ih =>
    rw [progress_concat] at h
    cases p with
    | beginNode name =>
      obtain rfl := Option.some.inj h
      exact ⟨name, began_last ps name⟩
    | prop p => exact (ih h).imp fun name hname => hname.append _
    | endNode => exact (ih h).imp fun name hname => hname.append _

/-- What has begun is open or has ended. -/
theorem begins_le_progress (ps : List Piece) : Node.begins ps ≤ (progress ps).openNodes.length + Node.ends ps := by
  induction ps using List.reverseRecOn with
  | nil => exact Nat.le_refl 0
  | append_singleton ps p ih =>
    rw [progress_concat, Node.begins_append, Node.ends_append]
    cases p with
    | beginNode name =>
      change _ + 1 ≤ ((progress ps).openNodes.length + 1) + (_ + 0)
      omega
    | prop p =>
      change _ + 0 ≤ (progress ps).openNodes.length + (_ + 0)
      omega
    | endNode =>
      change _ + 0 ≤ (progress ps).openNodes.tail.length + (_ + 1)
      rw [List.length_tail]
      omega

/-- At a property of a tree a node is open. -/
theorem open_at_prop {t : Node} {ps qs : List Piece} {p : Property} (h : t.pieces = ps ++ .prop p :: qs) :
    (progress ps).openNodes ≠ [] := by
  intro hnil
  have hle := begins_le_progress ps
  have hlt := Node.lt_ends h
  have hall := Node.begins_eq_ends t
  rw [h, ← List.singleton_append] at hall
  simp only [Node.begins_append, Node.ends_append] at hall
  change _ + (0 + _) = _ + (0 + _) at hall
  rw [hnil, List.length_nil] at hle
  omega

/-! ## NOPs -/

/-- A piece or a NOP. -/
def itemBytes : Option Piece → List (BitVec 8)
  | some p => p.bytes
  | none => be32 4

/-- The bytes of a block with NOPs. -/
def bytesWithNops (items : List (Option Piece)) : List (BitVec 8) := items.flatMap itemBytes

/-- The pieces before the first NOP. -/
def beforeNop : List (Option Piece) → List Piece
  | some p :: items => p :: beforeNop items
  | _ => []

theorem bytesWithNops_append (items items' : List (Option Piece)) :
    bytesWithNops (items ++ items') = bytesWithNops items ++ bytesWithNops items' := List.flatMap_append

/-- A block without NOPs. -/
theorem bytesWithNops_map_some (ps : List Piece) : bytesWithNops (ps.map some) = bytesOf ps := List.flatMap_map ..

theorem four_dvd_bytesWithNops (items : List (Option Piece)) : 4 ∣ (bytesWithNops items).length := by
  induction items with
  | nil => exact ⟨0, rfl⟩
  | cons item items ih =>
    rw [bytesWithNops, List.flatMap_cons, List.length_append]
    refine Nat.dvd_add ?_ ih
    cases item with
    | some p => exact p.four_dvd_size
    | none => exact ⟨1, rfl⟩

/-- Behind these pieces the block ends, or there is a NOP. -/
theorem beforeNop_append (items : List (Option Piece)) :
    ∃ rest, items = (beforeNop items).map some ++ rest ∧
      (none ∉ items ∧ rest = [] ∨ none ∈ items ∧ ∃ l, rest = none :: l) := by
  induction items with
  | nil => exact ⟨[], rfl, .inl ⟨List.not_mem_nil, rfl⟩⟩
  | cons item items ih =>
    cases item with
    | none => exact ⟨none :: items, rfl, .inr ⟨List.mem_cons_self, items, rfl⟩⟩
    | some p =>
      obtain ⟨rest, hitems, hrest⟩ := ih
      refine ⟨rest, congrArg (some p :: ·) hitems, ?_⟩
      simpa using hrest

theorem reduceOption_map_some (ps : List Piece) : (ps.map some).reduceOption = ps := by
  induction ps with
  | nil => rfl
  | cons p ps ih => rw [List.map_cons, List.reduceOption_cons_of_some, ih]

/-- They are the first pieces of the block. -/
theorem beforeNop_isPrefix (items : List (Option Piece)) : beforeNop items <+: items.reduceOption := by
  obtain ⟨rest, hitems, -⟩ := beforeNop_append items
  have hred := congrArg List.reduceOption hitems
  rw [List.reduceOption_append, reduceOption_map_some] at hred
  exact ⟨_, hred.symm⟩

/-- Without NOPs they are all pieces. -/
theorem beforeNop_eq {items : List (Option Piece)} (h : none ∉ items) : beforeNop items = items.reduceOption := by
  obtain ⟨rest, hitems, ⟨-, rfl⟩ | ⟨hmem, -⟩⟩ := beforeNop_append items
  · have hred := congrArg List.reduceOption hitems
    rw [List.append_nil, reduceOption_map_some] at hred
    exact hred.symm
  · exact absurd hmem h

end Dtb
