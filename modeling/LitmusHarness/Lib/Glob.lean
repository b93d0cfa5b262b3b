import Mathlib.Computability.Language

/-!
# Glob patterns

The language of a pattern over any alphabet: the product of the languages of its letters, where a wildcard stands for
any word and every other letter for itself. A pattern is opened from the left by `mem_language_cons` and
`mem_language_wild`, and a pattern that ends in a wildcard accepts any continuation (`append_mem_language`).
-/

namespace Glob

variable {α : Type} (wild : α → Bool)

/-- The words of one letter of a pattern. -/
def letter (c : α) : Language α := {w : List α | wild c = true ∨ w = [c]}

/-- The words of a pattern. -/
def language (p : List α) : Language α := (p.map (letter wild)).prod

/-- Two wildcards stand side by side. -/
def hasAdjacent : List α → Bool
  | a :: b :: p => wild a && wild b || hasAdjacent (b :: p)
  | _ => false

/-- The last letter is a wildcard. -/
def endsWild (p : List α) : Bool := p.getLast?.any wild

variable {wild} {c : α} {p w : List α}

theorem mem_letter : w ∈ letter wild c ↔ wild c = true ∨ w = [c] := Iff.rfl

@[simp] theorem mem_language_nil : w ∈ language wild [] ↔ w = [] := Language.mem_one w

theorem mem_language_cons (hc : wild c = false) : w ∈ language wild (c :: p) ↔ ∃ v, w = c :: v ∧ v ∈ language wild p := by
  rw [language, List.map_cons, List.prod_cons, Language.mem_mul]
  constructor
  · rintro ⟨u, hu, v, hv, rfl⟩
    obtain rfl : u = [c] := (mem_letter.mp hu).resolve_left (by simp [hc])
    exact ⟨v, rfl, hv⟩
  · rintro ⟨v, rfl, hv⟩
    exact ⟨[c], mem_letter.mpr (.inr rfl), v, hv, rfl⟩

theorem mem_language_wild (hc : wild c = true) :
    w ∈ language wild (c :: p) ↔ ∃ u v, w = u ++ v ∧ v ∈ language wild p := by
  rw [language, List.map_cons, List.prod_cons, Language.mem_mul]
  constructor
  · rintro ⟨u, -, v, hv, rfl⟩
    exact ⟨u, v, rfl, hv⟩
  · rintro ⟨u, v, rfl, hv⟩
    exact ⟨u, mem_letter.mpr (.inl hc), v, hv, rfl⟩

/-- What follows is taken by the last wildcard. -/
theorem append_mem_language : ∀ {p w : List α}, endsWild wild p = true → w ∈ language wild p → ∀ v,
    w ++ v ∈ language wild p
  | [], _, he, _, _ => by cases he
  | [c], w, he, _, v => by
    have hc : wild c = true := by simpa [endsWild] using he
    exact (mem_language_wild hc).mpr ⟨w ++ v, [], by simp, mem_language_nil.mpr rfl⟩
  | c :: d :: p, w, he, hw, v => by
    have he' : endsWild wild (d :: p) = true := by simpa [endsWild] using he
    cases hc : wild c with
    | true =>
      obtain ⟨u, x, rfl, hx⟩ := (mem_language_wild hc).mp hw
      exact (mem_language_wild hc).mpr ⟨u, x ++ v, by simp, append_mem_language he' hx v⟩
    | false =>
      obtain ⟨x, rfl, hx⟩ := (mem_language_cons hc).mp hw
      exact (mem_language_cons hc).mpr ⟨x ++ v, rfl, append_mem_language he' hx v⟩

/-- A wildcard may stand for nothing. -/
theorem replicate_mem_language {a : α} (ha : wild a = true) (hc : wild c = false) (n : Nat) :
    List.replicate n c ∈ language wild (List.replicate n [a, c]).flatten := by
  induction n with
  | zero => exact mem_language_nil.mpr rfl
  | succ n ih => exact (mem_language_wild ha).mpr ⟨[], _, rfl, (mem_language_cons hc).mpr ⟨_, rfl, ih⟩⟩

theorem hasAdjacent_append_pair {a b : α} (ha : wild a = true) (hb : wild b = true) (p : List α) :
    hasAdjacent wild (p ++ [a, b]) = true := by
  induction p with
  | nil => simp [hasAdjacent, ha, hb]
  | cons c p ih =>
    cases p with
    | nil => simp [hasAdjacent, ha, hb]
    | cons d p =>
      rw [List.cons_append, List.cons_append, hasAdjacent, ← List.cons_append, ih, Bool.or_true]

end Glob
