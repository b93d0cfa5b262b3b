import Mathlib.Data.List.Count
import Mathlib.Tactic.Ring

/-!
# Trees of groups

A tree of groups has at every node a label, items and smaller groups. `Tree.nodes` lists the groups and `Tree.items` the
items of all of them, both a group before the groups in it. A loop that visits the groups by recursion is a loop over
these lists (`foldItems_eq`, `foldNodes_eq`).

`Tree.places` has for every item the labels of the groups around it. Running through the items of all groups with some
property of the label meets an item once for each such group around a place of it (`count_flatMap_items`).
-/

namespace Rose

/-- A group: its label, its items and the groups in it. -/
inductive Tree (α β : Type) where
  | node (label : α) (own : List β) (groups : List (Tree α β))

variable {α β γ σ ε : Type}

namespace Tree

/-- The label of the group. -/
def label : Tree α β → α
  | node label _ _ => label

mutual

/-- The items of all groups. -/
def items : Tree α β → List β
  | node _ own groups => own ++ forestItems groups

def forestItems : List (Tree α β) → List β
  | [] => []
  | g :: gs => g.items ++ forestItems gs

end

mutual

/-- The groups. -/
def nodes : Tree α β → List (Tree α β)
  | node label own groups => node label own groups :: forestNodes groups

def forestNodes : List (Tree α β) → List (Tree α β)
  | [] => []
  | g :: gs => g.nodes ++ forestNodes gs

end

mutual

/-- The items with the labels of the groups around them, of which `around` are outside of the tree. -/
def placesIn (around : List α) : Tree α β → List (List α × β)
  | node label own groups => own.map (Prod.mk (label :: around)) ++ forestPlaces (label :: around) groups

def forestPlaces (around : List α) : List (Tree α β) → List (List α × β)
  | [] => []
  | g :: gs => g.placesIn around ++ forestPlaces around gs

end

/-- The items with the labels of the groups around them. -/
def places (g : Tree α β) : List (List α × β) := g.placesIn []

/-! ## Loops over a tree -/

mutual

/-- A loop over the items of a group, and then the same for each group in it. -/
def foldItems (f : σ → β → Except ε σ) (s : σ) : Tree α β → Except ε σ
  | node _ own groups => own.foldlM f s >>= fun s => forestFoldItems f s groups

def forestFoldItems (f : σ → β → Except ε σ) (s : σ) : List (Tree α β) → Except ε σ
  | [] => .ok s
  | g :: gs => g.foldItems f s >>= fun s => forestFoldItems f s gs

end

mutual

/-- A step for a group, and then the same for each group in it. -/
def foldNodes (f : σ → Tree α β → Except ε σ) (s : σ) : Tree α β → Except ε σ
  | node label own groups => f s (node label own groups) >>= fun s => forestFoldNodes f s groups

def forestFoldNodes (f : σ → Tree α β → Except ε σ) (s : σ) : List (Tree α β) → Except ε σ
  | [] => .ok s
  | g :: gs => g.foldNodes f s >>= fun s => forestFoldNodes f s gs

end

mutual

/-- The lists of the items of a group, and then the same for each group in it. -/
def collect (f : β → List γ) : Tree α β → List γ
  | node _ own groups => own.flatMap f ++ forestCollect f groups

def forestCollect (f : β → List γ) : List (Tree α β) → List γ
  | [] => []
  | g :: gs => g.collect f ++ forestCollect f gs

end

mutual

theorem foldItems_eq (f : σ → β → Except ε σ) : ∀ (g : Tree α β) (s : σ), g.foldItems f s = g.items.foldlM f s
  | node _ own groups, s => by
    rw [foldItems, items, List.foldlM_append]
    exact congrArg (own.foldlM f s >>= ·) (funext fun s => forestFoldItems_eq f groups s)

theorem forestFoldItems_eq (f : σ → β → Except ε σ) : ∀ (gs : List (Tree α β)) (s : σ),
    forestFoldItems f s gs = (forestItems gs).foldlM f s
  | [], s => rfl
  | g :: gs, s => by
    rw [forestFoldItems, forestItems, List.foldlM_append, foldItems_eq f g s]
    exact congrArg (g.items.foldlM f s >>= ·) (funext fun s => forestFoldItems_eq f gs s)

end

mutual

theorem foldNodes_eq (f : σ → Tree α β → Except ε σ) : ∀ (g : Tree α β) (s : σ),
    g.foldNodes f s = g.nodes.foldlM f s
  | node label own groups, s => by
    rw [foldNodes, nodes, List.foldlM_cons]
    exact congrArg (f s (node label own groups) >>= ·) (funext fun s => forestFoldNodes_eq f groups s)

theorem forestFoldNodes_eq (f : σ → Tree α β → Except ε σ) : ∀ (gs : List (Tree α β)) (s : σ),
    forestFoldNodes f s gs = (forestNodes gs).foldlM f s
  | [], s => rfl
  | g :: gs, s => by
    rw [forestFoldNodes, forestNodes, List.foldlM_append, foldNodes_eq f g s]
    exact congrArg (g.nodes.foldlM f s >>= ·) (funext fun s => forestFoldNodes_eq f gs s)

end

mutual

theorem collect_eq (f : β → List γ) : ∀ g : Tree α β, g.collect f = g.items.flatMap f
  | node _ own groups => by rw [collect, items, List.flatMap_append, forestCollect_eq f groups]

theorem forestCollect_eq (f : β → List γ) : ∀ gs : List (Tree α β), forestCollect f gs = (forestItems gs).flatMap f
  | [] => rfl
  | g :: gs => by rw [forestCollect, forestItems, List.flatMap_append, collect_eq f g, forestCollect_eq f gs]

end

/-! ## The places of an item -/

mutual

theorem map_snd_placesIn : ∀ (g : Tree α β) (around : List α), (g.placesIn around).map Prod.snd = g.items
  | node label own groups, around => by
    rw [placesIn, items, List.map_append, map_snd_forestPlaces groups, List.map_map]
    exact congrArg (· ++ forestItems groups) (List.map_id own)

theorem map_snd_forestPlaces : ∀ (gs : List (Tree α β)) (around : List α),
    (forestPlaces around gs).map Prod.snd = forestItems gs
  | [], around => rfl
  | g :: gs, around => by
    rw [forestPlaces, forestItems, List.map_append, map_snd_placesIn g, map_snd_forestPlaces gs]

end

/-- Every item has a place. -/
theorem mem_items {g : Tree α β} {b : β} : b ∈ g.items ↔ ∃ pl ∈ g.places, pl.2 = b := by
  rw [← map_snd_placesIn g [], List.mem_map]
  rfl

section Count

variable [DecidableEq β] (p : α → Bool) (b : β)

/-- The groups with the property around the places of an item, counted in a list of places. -/
def around (l : List (List α × β)) : Nat := ((l.filter fun pl => pl.2 = b).map fun pl => pl.1.countP p).sum

variable {p b}

@[simp] theorem around_nil : around p b ([] : List (List α × β)) = 0 := rfl

@[simp] theorem around_append (l l' : List (List α × β)) :
    around p b (l ++ l') = around p b l + around p b l' := by
  simp [around, List.filter_append]

theorem around_map (labels : List α) (own : List β) :
    around p b (own.map (Prod.mk labels)) = labels.countP p * own.count b := by
  induction own with
  | nil => simp
  | cons x own ih =>
    rw [List.map_cons, ← List.singleton_append, around_append, ih, List.count_cons]
    by_cases hx : x = b
    · simp [around, hx, Nat.mul_add, Nat.add_comm]
    · simp [around, hx]

variable (p b)

mutual

theorem around_placesIn : ∀ (g : Tree α β) (labels : List α), around p b (g.placesIn labels) =
    ((g.nodes.filter fun h => p h.label).flatMap items).count b + labels.countP p * g.items.count b
  | node label own groups, labels => by
    rw [placesIn, around_append, around_map, around_forestPlaces groups, nodes, items, List.filter_cons,
      List.count_append, List.countP_cons]
    by_cases h : p label = true
    · simp only [Tree.label, h, if_true, List.flatMap_cons, List.count_append, items]
      ring
    · simp only [Tree.label, h, if_false, Bool.false_eq_true]
      ring

theorem around_forestPlaces : ∀ (gs : List (Tree α β)) (labels : List α), around p b (forestPlaces labels gs) =
    (((forestNodes gs).filter fun h => p h.label).flatMap items).count b +
      labels.countP p * (forestItems gs).count b
  | [], labels => by simp [forestPlaces, forestNodes, forestItems]
  | g :: gs, labels => by
    rw [forestPlaces, around_append, around_placesIn g, around_forestPlaces gs, forestNodes, forestItems,
      List.filter_append, List.flatMap_append, List.count_append, List.count_append]
    ring

end

/-- **The items of all groups with the property**: an item is met once for each of them around a place of it. -/
theorem count_flatMap_items (g : Tree α β) :
    ((g.nodes.filter fun h => p h.label).flatMap items).count b = around p b g.places := by
  rw [places, around_placesIn, List.countP_nil, Nat.zero_mul, Nat.add_zero]

variable {p b}

theorem mem_flatMap_items {g : Tree α β} : b ∈ (g.nodes.filter fun h => p h.label).flatMap items ↔
    ∃ pl ∈ g.places, pl.2 = b ∧ pl.1.any p = true := by
  rw [← List.count_pos_iff, count_flatMap_items, around, List.sum_pos_iff_exists_pos_nat]
  simp only [List.mem_map, List.mem_filter, decide_eq_true_eq, List.any_eq_true]
  constructor
  · rintro ⟨n, ⟨pl, ⟨hpl, hb⟩, rfl⟩, hn⟩
    exact ⟨pl, hpl, hb, List.countP_pos_iff.mp hn⟩
  · rintro ⟨pl, hpl, hb, hp⟩
    exact ⟨_, ⟨pl, ⟨hpl, hb⟩, rfl⟩, List.countP_pos_iff.mpr hp⟩

end Count

end Tree

end Rose
