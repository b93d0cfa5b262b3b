import Mathlib.Logic.Function.Basic

/-!
# Tables without keys

A table that keeps the value of a key `k` at the place `slot k`, and not the key itself. As long as no two keys share a
place it is a map from keys to values: a place holds what was last written for its key (`contents_slot`). When the
places are filled and emptied one key at a time, a table stands for a map (`Represents`) up to the first step for a key
whose place belongs to another key (`Clash`): what the table says about the key then is not what the map says
(`Represents.lookup_iff`, `Represents.free_iff`, `Represents.erase_iff`), and before it is.
-/

namespace Slots

variable {K I V : Type}

section Writes

variable [DecidableEq K] [DecidableEq I]

/-- The values after writes, one after the other. -/
def contents : (K → V) → List (K × V) → K → V
  | t, [] => t
  | t, w :: l => contents (Function.update t w.1 w.2) l

/-- A place that belongs to one key alone holds what was last written for the key, whatever is written for others. -/
theorem contents_slot {slot : K → I} {k : K} {l : List (K × V)} {t : I → V} {a : K → V}
    (hl : ∀ w ∈ l, slot w.1 = slot k → w.1 = k) (h : t (slot k) = a k) :
    contents t (l.map fun w => (slot w.1, w.2)) (slot k) = contents a l k := by
  induction l generalizing t a with
  | nil => exact h
  | cons w l ih =>
    simp only [List.map_cons, contents]
    refine ih (fun w' hw' => hl w' (List.mem_cons_of_mem w hw')) ?_
    by_cases hk : w.1 = k
    · rw [hk, Function.update_self, Function.update_self]
    · have hslot : slot k ≠ slot w.1 := fun hs => hk (hl w List.mem_cons_self hs.symm)
      rw [Function.update_of_ne hslot, Function.update_of_ne (Ne.symm hk), h]

end Writes

/-- Another key has a value at the place of `k`. -/
def Clash (slot : K → I) (a : K → Option V) (k : K) : Prop := ∃ k', k' ≠ k ∧ slot k' = slot k ∧ a k' ≠ none

/-- The table has the values of the map, and no others, and no two keys with a value share a place. -/
structure Represents (slot : K → I) (t : I → Option V) (a : K → Option V) : Prop where
  stored : ∀ k, a k ≠ none → t (slot k) = a k
  only : ∀ k, t (slot k) ≠ none → ∃ k', slot k' = slot k ∧ a k' ≠ none
  inj : ∀ k k', a k ≠ none → a k' ≠ none → slot k = slot k' → k = k'

namespace Represents

variable {slot : K → I} {t : I → Option V} {a : K → Option V}

/-- The empty table is the empty map. -/
theorem empty (h : ∀ k, t (slot k) = none) : Represents slot t fun _ => none where
  stored _ hk := absurd rfl hk
  only k hk := absurd (h k) hk
  inj _ _ hk := absurd rfl hk

theorem lookup (h : Represents slot t a) {k : K} (hk : ¬Clash slot a k) : t (slot k) = a k := by
  by_cases ha : a k = none
  · rw [ha]
    by_contra ht
    obtain ⟨k', hs, hk'⟩ := h.only k ht
    exact hk ⟨k', fun he => hk' (he ▸ ha), hs, hk'⟩
  · exact h.stored k ha

/-- A key whose place is taken has no value itself. -/
theorem clash_none (h : Represents slot t a) {k : K} (hk : Clash slot a k) : a k = none := by
  obtain ⟨k', hne, hs, hk'⟩ := hk
  by_contra ha
  exact hne (h.inj k' k hk' ha hs)

/-- The value that is found for a key whose place is taken is the other key's. -/
theorem clash_lookup (h : Represents slot t a) {k : K} (hk : Clash slot a k) : ∃ v, t (slot k) = some v := by
  obtain ⟨k', -, hs, hk'⟩ := hk
  rw [← Option.ne_none_iff_exists', ← hs, h.stored k' hk']
  exact hk'

/-- **What is found for a key was stored for it** if and only if no other key has its place. -/
theorem lookup_iff (h : Represents slot t a) (k : K) :
    (∀ v, t (slot k) = some v → a k = some v) ↔ ¬Clash slot a k := by
  constructor
  · intro hall hk
    obtain ⟨v, hv⟩ := h.clash_lookup hk
    have := hall v hv
    rw [h.clash_none hk] at this
    cases this
  · intro hk v hv
    rw [← h.lookup hk, hv]

/-- **The place of a key without a value is free** if and only if no other key has it. -/
theorem free_iff (h : Represents slot t a) (k : K) : (a k = none → t (slot k) = none) ↔ ¬Clash slot a k := by
  constructor
  · intro hfree hk
    obtain ⟨v, hv⟩ := h.clash_lookup hk
    rw [hfree (h.clash_none hk)] at hv
    cases hv
  · intro hk ha
    rw [h.lookup hk, ha]

variable [DecidableEq I]

/-- **Emptying the place of a key keeps the values of all others** if and only if no other key has the place. -/
theorem erase_iff (h : Represents slot t a) (k : K) :
    (∀ k', k' ≠ k → a k' ≠ none → Function.update t (slot k) none (slot k') = a k') ↔ ¬Clash slot a k := by
  constructor
  · rintro hall ⟨k', hne, hs, hk'⟩
    have := hall k' hne hk'
    rw [hs, Function.update_self] at this
    exact hk' this.symm
  · intro hk k' hne hk'
    have hs : slot k' ≠ slot k := fun hs => hk ⟨k', hne, hs, hk'⟩
    rw [Function.update_of_ne hs, h.stored k' hk']

/-- A write for a key whose place no other key has is a write in the map. -/
theorem update [DecidableEq K] (h : Represents slot t a) {k : K} (hk : ¬Clash slot a k) (v : Option V) :
    Represents slot (Function.update t (slot k) v) (Function.update a k v) := by
  have hother : ∀ k', k' ≠ k → a k' ≠ none → slot k' ≠ slot k := fun k' hne hk' hs => hk ⟨k', hne, hs, hk'⟩
  refine ⟨fun k' hk' => ?_, fun k' hk' => ?_, fun k₁ k₂ h₁ h₂ hs => ?_⟩
  · by_cases hne : k' = k
    · rw [hne, Function.update_self, Function.update_self]
    · rw [Function.update_of_ne hne] at hk' ⊢
      rw [Function.update_of_ne (hother k' hne hk'), h.stored k' hk']
  · by_cases hs : slot k' = slot k
    · rw [hs, Function.update_self] at hk'
      exact ⟨k, hs.symm, by rwa [Function.update_self]⟩
    · rw [Function.update_of_ne hs] at hk'
      obtain ⟨k₁, hs₁, hk₁⟩ := h.only k' hk'
      have hne : k₁ ≠ k := fun he => hs (by rw [← hs₁, he])
      exact ⟨k₁, hs₁, by rwa [Function.update_of_ne hne]⟩
  · by_cases hk₁ : k₁ = k <;> by_cases hk₂ : k₂ = k
    · rw [hk₁, hk₂]
    · rw [Function.update_of_ne hk₂] at h₂
      exact absurd (hk₁ ▸ hs.symm) (hother k₂ hk₂ h₂)
    · rw [Function.update_of_ne hk₁] at h₁
      exact absurd (hk₂ ▸ hs) (hother k₁ hk₁ h₁)
    · rw [Function.update_of_ne hk₁] at h₁
      rw [Function.update_of_ne hk₂] at h₂
      exact h.inj k₁ k₂ h₁ h₂ hs

end Represents

end Slots
