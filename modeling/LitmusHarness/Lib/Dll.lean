import Mathlib.Data.List.Nodup

/-!
# Doubly linked lists

`Links` are the two pointers of every node, wherever they are stored. `Linked k h l` says that the nodes of `l`, and no
others, are linked in this order from the head `h` on. Following the pointers visits them (`Linked.walk`). The two
updates of such lists are a node in front (`Linked.push`) and a node taken out (`Linked.remove`). Both are stated by
what they do to the pointers of the nodes in the list, so that it does not matter what else is written.
-/

namespace Dll

variable {α : Type}

/-- The pointers of the nodes. -/
structure Links (α : Type) where
  prev : α → Option α
  next : α → Option α

/-- The nodes of `l` are linked, after `b` and before `e`. -/
def Seg (k : Links α) : Option α → List α → Option α → Prop
  | _, [], _ => True
  | b, x :: l, e => k.prev x = b ∧ k.next x = l.head?.or e ∧ Seg k (some x) l e

/-- The nodes of `l` are linked, from the head `h` on. -/
structure Linked (k : Links α) (h : Option α) (l : List α) : Prop where
  head : h = l.head?
  seg : Seg k none l none
  nodup : l.Nodup

/-- The nodes that are visited from `h` on, if there are at most `n`. -/
def walk (next : α → Option α) : Nat → Option α → Option (List α)
  | _, none => some []
  | 0, some _ => none
  | n + 1, some x => (walk next n (next x)).map (x :: ·)

variable {k k' : Links α} {b b' e e' : Option α} {l l₁ l₂ : List α}

theorem seg_append {b : Option α} {l₁ : List α} : Seg k b (l₁ ++ l₂) e ↔
    Seg k b l₁ (l₂.head?.or e) ∧ Seg k (l₁.getLast?.or b) l₂ e := by
  induction l₁ generalizing b with
  | nil => simp [Seg]
  | cons x l₁ ih =>
    have hhead : (l₁ ++ l₂).head?.or e = l₁.head?.or (l₂.head?.or e) := by
      rw [List.head?_append, Option.or_assoc]
    have hlast : (x :: l₁).getLast?.or b = l₁.getLast?.or (some x) := by
      cases l₁ with
      | nil => rfl
      | cons y l => rw [List.getLast?_cons_cons, List.getLast?_cons]; rfl
    rw [List.cons_append, Seg, Seg, ih, hhead, hlast, and_assoc, and_assoc]

/-- Other nodes do not matter. -/
theorem Seg.congr {b : Option α} {l : List α} (hk : ∀ x ∈ l, k'.prev x = k.prev x ∧ k'.next x = k.next x)
    (h : Seg k b l e) : Seg k' b l e := by
  induction l generalizing b with
  | nil => trivial
  | cons x l ih =>
    obtain ⟨hp, hn, hs⟩ := h
    obtain ⟨h1, h2⟩ := hk x List.mem_cons_self
    exact ⟨h1.trans hp, h2.trans hn, ih (fun y hy => hk y (List.mem_cons_of_mem x hy)) hs⟩

theorem walk_seg {n : Nat} {b : Option α} {l : List α} (h : Seg k b l none) (hlen : l.length ≤ n) :
    walk k.next n l.head? = some l := by
  induction l generalizing n b with
  | nil => cases n <;> rfl
  | cons x l ih =>
    cases n with
    | zero => exact absurd hlen (Nat.not_succ_le_zero _)
    | succ n =>
      obtain ⟨-, hn, hs⟩ := h
      rw [Option.or_none] at hn
      rw [List.head?_cons, walk, hn, ih hs (Nat.le_of_succ_le_succ hlen)]
      rfl

/-- **Following the pointers visits the nodes of the list.** -/
theorem Linked.walk {h : Option α} (hl : Linked k h l) {n : Nat} (hlen : l.length ≤ n) : walk k.next n h = some l := by
  rw [hl.head]
  exact walk_seg hl.seg hlen

/-- Other nodes do not matter. -/
theorem Linked.congr {h : Option α} (hl : Linked k h l)
    (hk : ∀ x ∈ l, k'.prev x = k.prev x ∧ k'.next x = k.next x) : Linked k' h l :=
  ⟨hl.head, hl.seg.congr hk, hl.nodup⟩

theorem Linked.empty : Linked k none [] := ⟨rfl, trivial, List.nodup_nil⟩

/-- The pointers of a node in the list. -/
theorem Linked.links {h : Option α} {x : α} (hl : Linked k h (l₁ ++ x :: l₂)) :
    k.prev x = l₁.getLast? ∧ k.next x = l₂.head? := by
  obtain ⟨-, hp, hn, -⟩ := seg_append.mp hl.seg
  rw [Option.or_none] at hp hn
  exact ⟨hp, hn⟩

/-- A node is in the list once. -/
theorem Linked.ne_of_mem {h : Option α} {x y : α} (hl : Linked k h (l₁ ++ x :: l₂)) (hy : y ∈ l₁ ++ l₂) : y ≠ x := by
  rintro rfl
  exact (List.nodup_cons.mp (List.nodup_middle.mp hl.nodup)).1 hy

/-! ## Updates -/

variable [DecidableEq α]

/-- Another node before the first. -/
theorem Seg.setPrev (hnd : l.Nodup) (hk : ∀ x ∈ l, k'.next x = k.next x ∧
    k'.prev x = if l.head? = some x then b' else k.prev x) (hs : Seg k b l e) : Seg k' b' l e := by
  cases l with
  | nil => trivial
  | cons x l =>
    obtain ⟨-, hn, hs⟩ := hs
    obtain ⟨hx, -⟩ := List.nodup_cons.mp hnd
    obtain ⟨h1, h2⟩ := hk x List.mem_cons_self
    refine ⟨by simpa using h2, h1.trans hn, hs.congr fun y hy => ?_⟩
    obtain ⟨h3, h4⟩ := hk y (List.mem_cons_of_mem x hy)
    have hne : x ≠ y := fun h => hx (h ▸ hy)
    exact ⟨by simpa [hne] using h4, h3⟩

/-- Another node after the last. -/
theorem Seg.setNext : ∀ {b : Option α} {l : List α}, l.Nodup → (∀ x ∈ l, k'.prev x = k.prev x ∧
    k'.next x = if l.getLast? = some x then e' else k.next x) → Seg k b l e → Seg k' b l e'
  | _, [], _, _, _ => trivial
  | _, [x], _, hk, ⟨hp, _, _⟩ => by
    obtain ⟨h1, h2⟩ := hk x List.mem_cons_self
    exact ⟨h1.trans hp, by simpa using h2, trivial⟩
  | _, x :: y :: l, hnd, hk, ⟨hp, hn, hs⟩ => by
    obtain ⟨hx, hnd'⟩ := List.nodup_cons.mp hnd
    obtain ⟨h1, h2⟩ := hk x List.mem_cons_self
    have hlast : (x :: y :: l).getLast? ≠ some x := fun h => hx (List.mem_of_getLast? (List.getLast?_cons_cons ▸ h))
    rw [if_neg hlast, hn] at h2
    refine ⟨h1.trans hp, by simpa using h2, Seg.setNext hnd' (fun z hz => ?_) hs⟩
    have := hk z (List.mem_cons_of_mem x hz)
    rwa [List.getLast?_cons_cons] at this

/-- **A new node in front.** -/
theorem Linked.push {h : Option α} (hl : Linked k h l) {x : α} (hx : x ∉ l) (hprev : k'.prev x = none)
    (hnext : k'.next x = h)
    (hk : ∀ y ∈ l, k'.next y = k.next y ∧ k'.prev y = if h = some y then some x else k.prev y) :
    Linked k' (some x) (x :: l) := by
  refine ⟨rfl, ⟨hprev, ?_, ?_⟩, List.nodup_cons.mpr ⟨hx, hl.nodup⟩⟩
  · rw [hnext, hl.head, Option.or_none]
  · refine hl.seg.setPrev hl.nodup fun y hy => ?_
    rw [← hl.head]
    exact hk y hy

/-- **A node is taken out.** -/
theorem Linked.remove {h : Option α} {x : α} (hl : Linked k h (l₁ ++ x :: l₂))
    (hk : ∀ y ∈ l₁ ++ l₂, k'.next y = (if k.prev x = some y then k.next x else k.next y) ∧
      k'.prev y = if k.next x = some y then k.prev x else k.prev y) :
    Linked k' (if k.prev x = none then k.next x else h) (l₁ ++ l₂) := by
  obtain ⟨hp, hn⟩ := hl.links
  obtain ⟨hs₁, -, -, hs₂⟩ := seg_append.mp hl.seg
  obtain ⟨hnd₁, hnd₂, hdisj⟩ := List.nodup_append.mp hl.nodup
  obtain ⟨hx₂, hnd₂'⟩ := List.nodup_cons.mp hnd₂
  rw [hp, hn] at hk ⊢
  refine ⟨?_, seg_append.mpr ⟨?_, ?_⟩, ?_⟩
  · cases l₁ with
    | nil => simp
    | cons y l => simpa using hl.head
  · -- the nodes before `x`: the last one points to what is after `x`
    rw [Option.or_none]
    refine hs₁.setNext hnd₁ fun y hy => ?_
    obtain ⟨h1, h2⟩ := hk y (List.mem_append_left _ hy)
    refine ⟨h2.trans (if_neg fun h => ?_), h1⟩
    exact hdisj y hy y (List.mem_cons_of_mem x (List.mem_of_head? h)) rfl
  · rw [Option.or_none]
    refine hs₂.setPrev hnd₂' fun y hy => ?_
    obtain ⟨h1, h2⟩ := hk y (List.mem_append_right _ hy)
    refine ⟨h1.trans (if_neg fun h => ?_), h2⟩
    exact hdisj y (List.mem_of_getLast? h) y (List.mem_cons_of_mem x hy) rfl
  · exact List.nodup_append.mpr ⟨hnd₁, hnd₂', fun y hy z hz => hdisj y hy z (List.mem_cons_of_mem x hz)⟩

end Dll
