import Mathlib.Data.Set.Insert
import Mathlib.Data.List.Nodup
import Mathlib.Logic.Relation

/-!
# Depth-first search

`Search adj p todo S D`: at the node `p`, with the neighbours `todo` still to look at and the nodes of `S` seen, a
depth-first search enters new nodes along the edges of `D`. It sees what it looks at (`Search.sees`) and all neighbours
of the nodes that it enters (`Search.closed`), and of two neighbours that it enters, one is entered below the other, so
that one of them has an edge in `D` (`Search.back`).

`Grown adj R D`: the edges of `D` come from searches from the roots `R`, which are in different components. The nodes
entered are those of the components (`Grown.kids_iff`), and the trees have depth one if and only if the roots are on all
edges of their components (`Grown.star_iff`).

In a graph with at most one edge out of each node, a component has at most one node without an edge out of it
(`sink_unique`).
-/

namespace Dfs

open Relation

variable {V : Type}

/-- The nodes that edges lead to. -/
def kids (D : List (V × V)) : Set V := {c | ∃ q, (q, c) ∈ D}

theorem mem_kids {D : List (V × V)} {c : V} : c ∈ kids D ↔ c ∈ D.map Prod.snd := by
  rw [List.mem_map]
  constructor
  · rintro ⟨q, h⟩
    exact ⟨(q, c), h, rfl⟩
  · rintro ⟨⟨q, c⟩, h, rfl⟩
    exact ⟨q, h⟩

theorem mem_kids_append {D D' : List (V × V)} {c : V} : c ∈ kids (D ++ D') ↔ c ∈ kids D ∨ c ∈ kids D' := by
  simp only [mem_kids, List.map_append, List.mem_append]

theorem mem_kids_singleton {q a c : V} : c ∈ kids [(q, a)] ↔ c = a := by
  rw [mem_kids, List.map_singleton, List.mem_singleton]

/-- A search at `p`: the edges `D` lead to the nodes that it enters when those of `S` have been seen. -/
inductive Search (adj : V → List V) : V → List V → Set V → List (V × V) → Prop
  | nil {p : V} {S : Set V} : Search adj p [] S []
  | skip {p a : V} {todo : List V} {S : Set V} {D : List (V × V)} (ha : a ∈ S) (h : Search adj p todo S D) :
      Search adj p (a :: todo) S D
  | enter {p a : V} {todo : List V} {S : Set V} {D₁ D₂ : List (V × V)} (ha : a ∉ S)
      (h₁ : Search adj a (adj a) (insert a S) D₁) (h₂ : Search adj p todo (insert a S ∪ kids D₁) D₂) :
      Search adj p (a :: todo) S (D₁ ++ (p, a) :: D₂)

/-- What is connected to a node. -/
abbrev Connected (adj : V → List V) : V → V → Prop := ReflTransGen fun u w => w ∈ adj u

section Search

variable {adj : V → List V} {p : V} {todo : List V} {S : Set V} {D : List (V × V)}

theorem mem_kids_enter {a c : V} {D₁ D₂ : List (V × V)} :
    c ∈ kids (D₁ ++ (p, a) :: D₂) ↔ c ∈ kids D₁ ∨ c = a ∨ c ∈ kids D₂ := by
  rw [← List.singleton_append, mem_kids_append, mem_kids_append, mem_kids_singleton]

/-- What a search looks at, it has seen. -/
theorem Search.sees (h : Search adj p todo S D) : ∀ a ∈ todo, a ∈ S ∨ a ∈ kids D := by
  induction h with
  | nil => exact fun a ha => absurd ha List.not_mem_nil
  | skip ha _ ih => exact List.forall_mem_cons.mpr ⟨.inl ha, ih⟩
  | enter ha _ _ ih₁ ih₂ =>
    refine List.forall_mem_cons.mpr ⟨.inr (mem_kids_enter.mpr (.inr (.inl rfl))), fun b hb => ?_⟩
    rw [mem_kids_enter]
    rcases ih₂ b hb with ((rfl | hS) | h₁) | h₂
    · exact .inr (.inr (.inl rfl))
    · exact .inl hS
    · exact .inr (.inl h₁)
    · exact .inr (.inr (.inr h₂))

/-- The neighbours of the nodes that a search enters, it has seen. -/
theorem Search.closed (h : Search adj p todo S D) : ∀ n ∈ kids D, ∀ b ∈ adj n, b ∈ S ∨ b ∈ kids D := by
  induction h with
  | nil => exact fun n hn => absurd hn.choose_spec List.not_mem_nil
  | skip _ _ ih => exact ih
  | @enter p a _ S D₁ D₂ ha h₁ _ ih₁ ih₂ =>
    -- everything seen up to the end of the search of `a`
    have hseen : ∀ b, (b ∈ insert a S ∨ b ∈ kids D₁) → b ∈ S ∨ b ∈ kids (D₁ ++ (p, a) :: D₂) := by
      rintro b ((rfl | hS) | h₁)
      · exact .inr (mem_kids_enter.mpr (.inr (.inl rfl)))
      · exact .inl hS
      · exact .inr (mem_kids_enter.mpr (.inl h₁))
    intro n hn b hb
    rcases mem_kids_enter.mp hn with hn | rfl | hn
    · exact hseen b (ih₁ n hn b hb)
    · exact hseen b (h₁.sees b hb)
    · rcases ih₂ n hn b hb with hb | hb
      · exact hseen b hb
      · exact .inr (mem_kids_enter.mpr (.inr (.inr hb)))

/-- No node is entered twice, and none that has been seen. -/
theorem Search.fresh (h : Search adj p todo S D) : (D.map Prod.snd).Nodup ∧ ∀ c ∈ kids D, c ∉ S := by
  induction h with
  | nil => exact ⟨List.nodup_nil, fun c hc => absurd hc.choose_spec List.not_mem_nil⟩
  | skip _ _ ih => exact ih
  | @enter p a _ S D₁ D₂ ha _ _ ih₁ ih₂ =>
    obtain ⟨hnd₁, hS₁⟩ := ih₁
    obtain ⟨hnd₂, hS₂⟩ := ih₂
    constructor
    · rw [List.map_append, List.map_cons, List.nodup_append]
      refine ⟨hnd₁, List.nodup_cons.mpr ⟨fun h => ?_, hnd₂⟩, ?_⟩
      · exact hS₂ a (mem_kids.mpr h) (.inl (.inl rfl))
      · rintro c hc₁ d hd rfl
        rcases List.mem_cons.mp hd with rfl | hc₂
        · exact hS₁ _ (mem_kids.mpr hc₁) (.inl rfl)
        · exact hS₂ c (mem_kids.mpr hc₂) (.inr (mem_kids.mpr hc₁))
    · intro c hc hcS
      rcases mem_kids_enter.mp hc with hc | rfl | hc
      · exact hS₁ c hc (.inr hcS)
      · exact ha hcS
      · exact hS₂ c hc (.inl (.inr hcS))

/-- The edges of a search are edges of the graph, and no loops. -/
theorem Search.edge (h : Search adj p todo S D) (hp : p ∈ S) (htodo : ∀ a ∈ todo, a ∈ adj p) :
    ∀ e ∈ D, e.2 ∈ adj e.1 ∧ e.1 ≠ e.2 := by
  induction h with
  | nil => exact fun e he => absurd he List.not_mem_nil
  | skip _ _ ih => exact ih hp (List.forall_mem_cons.mp htodo).2
  | enter ha _ _ ih₁ ih₂ =>
    obtain ⟨hpa, htodo⟩ := List.forall_mem_cons.mp htodo
    refine List.forall_mem_append.mpr ⟨ih₁ (.inl rfl) fun _ hb => hb, List.forall_mem_cons.mpr ⟨⟨hpa, ?_⟩, ?_⟩⟩
    · exact ne_of_mem_of_not_mem hp ha
    · exact ih₂ (.inl (.inr hp)) htodo

/-- A search that enters a node has an edge from where it starts. -/
theorem Search.entered (h : Search adj p todo S D) : ∀ c ∈ kids D, ∃ b, (p, b) ∈ D := by
  induction h with
  | nil => exact fun c hc => absurd hc.choose_spec List.not_mem_nil
  | skip _ _ ih => exact ih
  | @enter p a _ _ D₁ D₂ _ _ _ _ _ => exact fun _ _ => ⟨a, List.mem_append_right _ List.mem_cons_self⟩

/-- The nodes that a search enters are below where it starts. -/
theorem Search.path (h : Search adj p todo S D) : ∀ c ∈ kids D, TransGen (fun q c => (q, c) ∈ D) p c := by
  induction h with
  | nil => exact fun c hc => absurd hc.choose_spec List.not_mem_nil
  | skip _ _ ih => exact ih
  | @enter p a _ _ D₁ D₂ _ _ _ ih₁ ih₂ =>
    have hedge : TransGen (fun q c => (q, c) ∈ D₁ ++ (p, a) :: D₂) p a :=
      .single (List.mem_append_right _ List.mem_cons_self)
    intro c hc
    rcases mem_kids_enter.mp hc with hc | rfl | hc
    · exact hedge.trans (TransGen.mono (fun _ _ h => List.mem_append_left _ h) _ _ (ih₁ c hc))
    · exact hedge
    · exact TransGen.mono (fun _ _ h => List.mem_append_right _ (List.mem_cons_of_mem _ h)) _ _ (ih₂ c hc)

/-- **Of two neighbours that a search enters, one is entered below the other.** -/
theorem Search.back (hsymm : ∀ u w, w ∈ adj u → u ∈ adj w) (h : Search adj p todo S D) :
    ∀ u ∈ kids D, ∀ w ∈ kids D, w ∈ adj u → u ≠ w → ∃ e ∈ D, e.1 = u ∨ e.1 = w := by
  induction h with
  | nil => exact fun u hu => absurd hu.choose_spec List.not_mem_nil
  | skip _ _ ih => exact ih
  | @enter p a _ S D₁ D₂ ha h₁ h₂ ih₁ ih₂ =>
    have hleft : ∀ e ∈ D₁, e ∈ D₁ ++ (p, a) :: D₂ := fun e he => List.mem_append_left _ he
    have hright : ∀ e ∈ D₂, e ∈ D₁ ++ (p, a) :: D₂ := fun e he => List.mem_append_right _ (List.mem_cons_of_mem _ he)
    -- a neighbour of what the search of `a` enters has been seen when the rest is searched
    have hlate : ∀ u w, (u ∈ kids D₁ ∨ u = a) → w ∈ kids D₂ → w ∉ adj u := by
      rintro u w hu hw hadj
      have hseen : w ∈ insert a S ∨ w ∈ kids D₁ := by
        rcases hu with hu | rfl
        · exact h₁.closed u hu w hadj
        · exact h₁.sees w hadj
      exact h₂.fresh.2 w hw hseen
    intro u hu w hw hadj hne
    rcases mem_kids_enter.mp hu with hu₁ | hu₁ | hu₁
    · rcases mem_kids_enter.mp hw with hw₁ | hw₁ | hw₁
      · obtain ⟨e, he, heq⟩ := ih₁ u hu₁ w hw₁ hadj hne
        exact ⟨e, hleft e he, heq⟩
      · obtain ⟨b, hb⟩ := h₁.entered u hu₁
        exact ⟨_, hleft _ hb, .inr hw₁.symm⟩
      · exact absurd hadj (hlate u w (.inl hu₁) hw₁)
    · rcases mem_kids_enter.mp hw with hw₁ | hw₁ | hw₁
      · obtain ⟨b, hb⟩ := h₁.entered w hw₁
        exact ⟨_, hleft _ hb, .inl hu₁.symm⟩
      · exact absurd (hu₁.trans hw₁.symm) hne
      · exact absurd hadj (hlate u w (.inr hu₁) hw₁)
    · rcases mem_kids_enter.mp hw with hw₁ | hw₁ | hw₁
      · exact absurd (hsymm u w hadj) (hlate w u (.inl hw₁) hu₁)
      · exact absurd (hsymm u w hadj) (hlate w u (.inr hw₁) hu₁)
      · obtain ⟨e, he, heq⟩ := ih₂ u hu₁ w hw₁ hadj hne
        exact ⟨e, hright e he, heq⟩

/-- From a root whose component has not been seen, a search enters the rest of the component. -/
theorem Search.component (h : Search adj p (adj p) (insert p S) D) (hS : ∀ x ∈ S, Connected adj p x → x = p) (c : V) :
    c ∈ kids D ↔ Connected adj p c ∧ c ≠ p := by
  constructor
  · intro hc
    refine ⟨?_, fun heq => h.fresh.2 c hc (.inl heq)⟩
    have hmono : ∀ q c, (q, c) ∈ D → c ∈ adj q := fun q c he => (h.edge (.inl rfl) (fun _ hb => hb) (q, c) he).1
    exact (TransGen.mono hmono _ _ (h.path c hc)).to_reflTransGen
  · rintro ⟨hc, hne⟩
    have hcase : c = p ∨ c ∈ kids D := by
      clear hne
      induction hc with
      | refl => exact .inl rfl
      | @tail u w hu huw ih =>
        have hseen : w ∈ insert p S ∨ w ∈ kids D := by
          rcases ih with rfl | ih
          · exact h.sees w huw
          · exact h.closed u ih w huw
        rcases hseen with (heq | hwS) | hw
        · exact .inl heq
        · exact .inl (hS w hwS (hu.tail huw))
        · exact .inr hw
    exact hcase.resolve_left hne

end Search

/-! ## Searches from several roots -/

/-- The edges `D` of searches from the roots `R`. -/
structure Grown (adj : V → List V) (R : List V) (D : List (V × V)) : Prop where
  apart : ∀ r ∈ R, ∀ r' ∈ R, Connected adj r r' → r = r'
  kids_iff : ∀ c, c ∈ kids D ↔ (∃ r ∈ R, Connected adj r c) ∧ c ∉ R
  nodup : (D.map Prod.snd).Nodup
  edge : ∀ e ∈ D, e.2 ∈ adj e.1 ∧ e.1 ≠ e.2
  back : ∀ u ∈ kids D, ∀ w ∈ kids D, w ∈ adj u → u ≠ w → ∃ e ∈ D, e.1 = u ∨ e.1 = w

section Grown

variable {adj : V → List V} {R : List V} {D : List (V × V)} {r : V}

theorem Grown.nil : Grown adj [] [] where
  apart := fun _ hr => absurd hr List.not_mem_nil
  kids_iff := fun _ => ⟨fun h => absurd h.choose_spec List.not_mem_nil, fun h => absurd h.1.choose_spec.1 List.not_mem_nil⟩
  nodup := List.nodup_nil
  edge := fun _ he => absurd he List.not_mem_nil
  back := fun _ hu => absurd hu.choose_spec List.not_mem_nil

theorem connected_symm (hsymm : ∀ u w, w ∈ adj u → u ∈ adj w) {u w : V} (h : Connected adj u w) :
    Connected adj w u := by
  have : Std.Symm fun u w => w ∈ adj u := ⟨hsymm⟩
  exact symm h

/-- A search from one more root. -/
theorem Grown.root (hsymm : ∀ u w, w ∈ adj u → u ∈ adj w) (h : Grown adj R D) {S : Set V} {D' : List (V × V)}
    (hs : Search adj r (adj r) (insert r S) D') (hS : ∀ x ∈ S, Connected adj r x → x = r)
    (hr : ∀ r' ∈ R, ¬Connected adj r' r) : Grown adj (R ++ [r]) (D ++ D') := by
  have hkids : ∀ c, c ∈ kids D' ↔ Connected adj r c ∧ c ≠ r := fun c => hs.component hS c
  -- the old components and the new one have no node in common
  have hdisj : ∀ r' ∈ R, ∀ c, Connected adj r' c → ¬Connected adj r c := fun r' hr' c h1 h2 =>
    hr r' hr' (h1.trans (connected_symm hsymm h2))
  refine ⟨?_, fun c => ?_, ?_, List.forall_mem_append.mpr ⟨h.edge, hs.edge (.inl rfl) fun _ hb => hb⟩, ?_⟩
  · intro r₁ hr₁ r₂ hr₂ hconn
    rcases List.mem_append.mp hr₁ with h₁ | h₁ <;> rcases List.mem_append.mp hr₂ with h₂ | h₂
    · exact h.apart r₁ h₁ r₂ h₂ hconn
    · exact absurd (List.mem_singleton.mp h₂ ▸ hconn) (hr r₁ h₁)
    · exact absurd (connected_symm hsymm (List.mem_singleton.mp h₁ ▸ hconn)) (hr r₂ h₂)
    · rw [List.mem_singleton.mp h₁, List.mem_singleton.mp h₂]
  · rw [mem_kids_append, h.kids_iff, hkids]
    constructor
    · rintro (⟨⟨r', hr', hc⟩, hcR⟩ | ⟨hc, hne⟩)
      · refine ⟨⟨r', List.mem_append_left _ hr', hc⟩, fun hmem => ?_⟩
        rcases List.mem_append.mp hmem with hmem | hmem
        · exact hcR hmem
        · exact hr r' hr' (List.mem_singleton.mp hmem ▸ hc)
      · refine ⟨⟨r, List.mem_append_right _ List.mem_cons_self, hc⟩, fun hmem => ?_⟩
        rcases List.mem_append.mp hmem with hmem | hmem
        · exact hr c hmem (connected_symm hsymm hc)
        · exact hne (List.mem_singleton.mp hmem)
    · rintro ⟨⟨r', hr', hc⟩, hcR⟩
      rw [List.mem_append, not_or] at hcR
      rcases List.mem_append.mp hr' with hr' | hr'
      · exact .inl ⟨⟨r', hr', hc⟩, hcR.1⟩
      · rw [List.mem_singleton.mp hr'] at hc
        exact .inr ⟨hc, fun heq => hcR.2 (List.mem_singleton.mpr heq)⟩
  · rw [List.map_append, List.nodup_append]
    refine ⟨h.nodup, hs.fresh.1, ?_⟩
    rintro c hc d hd rfl
    obtain ⟨⟨r', hr', hc'⟩, -⟩ := (h.kids_iff c).mp (mem_kids.mpr hc)
    exact hdisj r' hr' c hc' ((hkids c).mp (mem_kids.mpr hd)).1
  · intro u hu w hw hadj hne
    rcases mem_kids_append.mp hu with hu | hu <;> rcases mem_kids_append.mp hw with hw | hw
    · obtain ⟨e, he, heq⟩ := h.back u hu w hw hadj hne
      exact ⟨e, List.mem_append_left _ he, heq⟩
    · obtain ⟨⟨r', hr', hu'⟩, -⟩ := (h.kids_iff u).mp hu
      exact absurd ((hkids w).mp hw).1 (hdisj r' hr' w (hu'.tail hadj))
    · obtain ⟨⟨r', hr', hw'⟩, -⟩ := (h.kids_iff w).mp hw
      exact absurd (((hkids u).mp hu).1.tail hadj) (hdisj r' hr' w hw')
    · obtain ⟨e, he, heq⟩ := hs.back hsymm u hu w hw hadj hne
      exact ⟨e, List.mem_append_right _ he, heq⟩

/-- An edge leads away from a root or from a node of its component. -/
theorem Grown.source (hsymm : ∀ u w, w ∈ adj u → u ∈ adj w) (h : Grown adj R D) {e : V × V} (he : e ∈ D) :
    ∃ r ∈ R, Connected adj r e.1 ∧ Connected adj r e.2 ∧ e.2 ∉ R := by
  obtain ⟨⟨r, hr, hc⟩, hcR⟩ := (h.kids_iff e.2).mp ⟨e.1, he⟩
  exact ⟨r, hr, hc.tail (hsymm _ _ (h.edge e he).1), hc, hcR⟩

/-- **The trees have depth one** if and only if every edge of a component is on its root, loops apart. -/
theorem Grown.star_iff (hsymm : ∀ u w, w ∈ adj u → u ∈ adj w) (h : Grown adj R D) :
    (∀ e ∈ D, e.1 ∈ R) ↔ ∀ r ∈ R, ∀ u w, Connected adj r u → w ∈ adj u → u = r ∨ w = r ∨ u = w := by
  constructor
  · intro hD r hr u w hu hadj
    by_contra hcon
    obtain ⟨hur, hwr, huw⟩ : u ≠ r ∧ w ≠ r ∧ u ≠ w := by tauto
    have hkid : ∀ x, Connected adj r x → x ≠ r → x ∈ kids D := fun x hx hne =>
      (h.kids_iff x).mpr ⟨⟨r, hr, hx⟩, fun hxR => hne (h.apart r hr x hxR hx).symm⟩
    have hw := hu.tail hadj
    obtain ⟨e, he, heq⟩ := h.back u (hkid u hu hur) w (hkid w hw hwr) hadj huw
    have heR := hD e he
    rcases heq with heq | heq
    · exact hur (h.apart r hr u (heq ▸ heR) hu).symm
    · exact hwr (h.apart r hr w (heq ▸ heR) hw).symm
  · intro hstar e he
    obtain ⟨r, hr, hq, -, hcR⟩ := h.source hsymm he
    obtain ⟨hadj, hne⟩ := h.edge e he
    rcases hstar r hr e.1 e.2 hq hadj with heq | heq | heq
    · exact heq ▸ hr
    · exact absurd (heq ▸ hr) hcR
    · exact absurd heq hne

end Grown

/-! ## Graphs with at most one edge out of each node -/

section Functional

variable {A : V → V → Prop}

/-- What is joined to a node without an edge out of it, has a path to it. -/
theorem path_to_sink (hfun : ∀ x y z, A x y → A x z → y = z) {r x : V} (hr : ∀ y, ¬A r y)
    (h : ReflTransGen (fun u w => A u w ∨ A w u) r x) : ReflTransGen A x r := by
  induction h with
  | refl => exact .refl
  | @tail u w _ huw ih =>
    rcases huw with huw | hwu
    · rcases ih.cases_head with rfl | ⟨z, huz, hz⟩
      · exact absurd huw (hr w)
      · exact hfun u w z huw huz ▸ hz
    · exact .head hwu ih

/-- A component has at most one node without an edge out of it. -/
theorem sink_unique (hfun : ∀ x y z, A x y → A x z → y = z) {r s : V} (hr : ∀ y, ¬A r y) (hs : ∀ y, ¬A s y)
    (h : ReflTransGen (fun u w => A u w ∨ A w u) r s) : r = s := by
  rcases (path_to_sink hfun hr h).cases_head with heq | ⟨z, hsz, -⟩
  · exact heq.symm
  · exact absurd hsz (hs z)

end Functional

end Dfs
