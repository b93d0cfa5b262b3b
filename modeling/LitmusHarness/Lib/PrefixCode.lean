import Mathlib.Data.List.Basic

/-!
# Codes that can be read from the front

An encoding of the values of a domain is a prefix code (`PrefixOn`) if the code of a value, whatever follows it,
determines the value and what follows. Codes of one length that are injective are prefix codes (`of_length`), and prefix
codes can be joined: one after the other, where the second may depend on a part that the first encodes (`append`,
`bind`), and in a list whose length is known (`flatMap`) or encoded first (`counted`).
-/

namespace PrefixCode

variable {α α' β κ : Type}

/-- The code of a value of `D` determines the value and what follows it. -/
def PrefixOn (D : α → Prop) (enc : α → List β) : Prop :=
  ∀ a b s t, D a → D b → enc a ++ s = enc b ++ t → a = b ∧ s = t

variable {D : α → Prop} {D' : α' → Prop} {enc : α → List β} {enc' : α' → List β}

/-- Whole codes. -/
theorem PrefixOn.inj (h : PrefixOn D enc) {a b : α} (ha : D a) (hb : D b) (heq : enc a = enc b) : a = b :=
  (h a b [] [] ha hb (by rw [heq])).1

theorem PrefixOn.mono {E : α → Prop} (h : PrefixOn D enc) (hE : ∀ a, E a → D a) : PrefixOn E enc :=
  fun a b s t ha hb => h a b s t (hE a ha) (hE b hb)

/-- Codes of one length. -/
theorem PrefixOn.of_length {n : Nat} (hlen : ∀ a, D a → (enc a).length = n)
    (hinj : ∀ a b, D a → D b → enc a = enc b → a = b) : PrefixOn D enc := by
  intro a b s t ha hb h
  obtain ⟨hab, hst⟩ := List.append_inj h ((hlen a ha).trans (hlen b hb).symm)
  exact ⟨hinj a b ha hb hab, hst⟩

/-- The code of an injective function of a value. -/
theorem PrefixOn.comp {E : α' → Prop} {f : α' → α} (h : PrefixOn D enc) (hE : ∀ a, E a → D (f a))
    (hf : ∀ a b, E a → E b → f a = f b → a = b) : PrefixOn E (fun a => enc (f a)) := by
  intro a b s t ha hb heq
  obtain ⟨hab, hst⟩ := h _ _ s t (hE a ha) (hE b hb) heq
  exact ⟨hf a b ha hb hab, hst⟩

/-- A key of the value first, then a code of the value that is a prefix code among the values with that key. -/
theorem PrefixOn.bind {K : κ → Prop} {ek : κ → List β} (key : α → κ) (hk : PrefixOn K ek) (hK : ∀ a, D a → K (key a))
    (h : ∀ k, PrefixOn (fun a => D a ∧ key a = k) enc) : PrefixOn D (fun a => ek (key a) ++ enc a) := by
  intro a b s t ha hb heq
  simp only [List.append_assoc] at heq
  obtain ⟨hkey, hrest⟩ := hk _ _ _ _ (hK a ha) (hK b hb) heq
  exact h (key a) a b s t ⟨ha, rfl⟩ ⟨hb, hkey.symm⟩ hrest

/-- Two parts of a value that determine it, one after the other. -/
theorem PrefixOn.append {γ : Type} {E : γ → Prop} {f : γ → α} {g : γ → α'} (h : PrefixOn D enc) (h' : PrefixOn D' enc')
    (hf : ∀ c, E c → D (f c)) (hg : ∀ c, E c → D' (g c)) (hinj : ∀ c c', f c = f c' → g c = g c' → c = c') :
    PrefixOn E (fun c => enc (f c) ++ enc' (g c)) := by
  intro a b s t ha hb heq
  simp only [List.append_assoc] at heq
  obtain ⟨h1, hrest⟩ := h _ _ _ _ (hf a ha) (hf b hb) heq
  obtain ⟨h2, hst⟩ := h' _ _ _ _ (hg a ha) (hg b hb) hrest
  exact ⟨hinj a b h1 h2, hst⟩

/-- Nothing is written for a single value. -/
theorem PrefixOn.nil (h : ∀ a b, D a → D b → a = b) : PrefixOn D (fun _ => ([] : List β)) :=
  fun a b _ _ ha hb heq => ⟨h a b ha hb, heq⟩

/-- Lists of one length. -/
theorem PrefixOn.flatMap (h : PrefixOn D enc) (n : Nat) :
    PrefixOn (fun l : List α => l.length = n ∧ ∀ a ∈ l, D a) (fun l => l.flatMap enc) := by
  induction n with
  | zero =>
    rintro a b s t ⟨ha, -⟩ ⟨hb, -⟩ heq
    obtain rfl := List.length_eq_zero_iff.mp ha
    obtain rfl := List.length_eq_zero_iff.mp hb
    exact ⟨rfl, heq⟩
  | succ n ih =>
    rintro (_ | ⟨x, a⟩) (_ | ⟨y, b⟩) s t ⟨ha, hDa⟩ ⟨hb, hDb⟩ heq
    · cases ha
    · cases ha
    · cases hb
    · simp only [List.flatMap_cons, List.append_assoc] at heq
      obtain ⟨rfl, hrest⟩ := h _ _ _ _ (hDa x List.mem_cons_self) (hDb y List.mem_cons_self) heq
      obtain ⟨rfl, hst⟩ := ih a b s t ⟨Nat.succ.inj ha, fun c hc => hDa c (List.mem_cons_of_mem _ hc)⟩
        ⟨Nat.succ.inj hb, fun c hc => hDb c (List.mem_cons_of_mem _ hc)⟩ hrest
      exact ⟨rfl, hst⟩

/-- The length of a list first, then its elements. -/
theorem PrefixOn.counted {N : Nat → Prop} {en : Nat → List β} (hn : PrefixOn N en) (h : PrefixOn D enc) :
    PrefixOn (fun l : List α => N l.length ∧ ∀ a ∈ l, D a) (fun l => en l.length ++ l.flatMap enc) :=
  hn.bind List.length (fun _ hl => hl.1) fun n =>
    (h.flatMap n).mono fun _ hl => ⟨hl.2, hl.1.2⟩

end PrefixCode
