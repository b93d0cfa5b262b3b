import LitmusHarness.Translator.Unbacked
import Mathlib.Data.List.Perm.Lattice

/-!
# What `fill_unbacked_addrs` fills in

If each name is initialised at most once, a component of the graph of the aliases has at most one name with a value or
with none (`initial_unique`), no search meets another value, and there is a result, of a known form (`Filling`,
`fillUnbackedAddrs_eq`). It need not be consistent: the exact condition is `fillUnbackedAddrs_consistent_iff`.
-/

namespace LitmusHarness.Translator

open Relation

/-! ## The graph of the aliases -/

/-- The name that an entry initialises. -/
def InitState.subject : InitState → String
  | .unmapped id => id
  | .var id _ => id
  | .alias src _ => src

/-- An alias between two names. -/
def Joined (inits : List InitState) (x y : String) : Prop := .alias x y ∈ inits ∨ .alias y x ∈ inits

/-- The names of one component of the graph. -/
abbrev Connected (inits : List InitState) : String → String → Prop := ReflTransGen (Joined inits)

/-- A name with a value or with none. -/
def Initial (inits : List InitState) (x : String) : Prop := (∃ v, .var x v ∈ inits) ∨ .unmapped x ∈ inits

theorem Joined.symm {inits : List InitState} {x y : String} (h : Joined inits x y) : Joined inits y x := Or.symm h

theorem connected_comm {inits : List InitState} {x y : String} (h : Connected inits x y) : Connected inits y x := by
  have : Std.Symm (Joined inits) := ⟨fun _ _ => Joined.symm⟩
  exact symm h

section Once

variable {inits : List InitState}

theorem eq_of_subject_eq (honce : (inits.map InitState.subject).Nodup) {e e' : InitState} (he : e ∈ inits)
    (he' : e' ∈ inits) (h : e.subject = e'.subject) : e = e' :=
  List.inj_on_of_nodup_map honce he he' h

theorem alias_unique (honce : (inits.map InitState.subject).Nodup) (x y z : String) (hy : .alias x y ∈ inits)
    (hz : .alias x z ∈ inits) : y = z := by
  have := eq_of_subject_eq honce hy hz rfl
  exact (InitState.alias.inj this).2

/-- A name with a value or with none is not an alias. -/
theorem Initial.not_alias (honce : (inits.map InitState.subject).Nodup) {x : String} (h : Initial inits x) (y : String) :
    .alias x y ∉ inits := by
  intro hy
  rcases h with ⟨v, hv⟩ | hu
  · exact InitState.noConfusion (eq_of_subject_eq honce hv hy rfl)
  · exact InitState.noConfusion (eq_of_subject_eq honce hu hy rfl)

/-- **A component has at most one name with a value or with none.** -/
theorem initial_unique (honce : (inits.map InitState.subject).Nodup) {r s : String} (hr : Initial inits r)
    (hs : Initial inits s) (h : Connected inits r s) : r = s :=
  @Dfs.sink_unique String (fun x y => InitState.alias x y ∈ inits) (alias_unique honce) r s (hr.not_alias honce)
    (hs.not_alias honce) h

end Once

/-! ## What the first loops build -/

section Build

variable {edges : Edges} {u w a b x : String}

theorem neighbours_addName : neighbours (addName edges a) u = neighbours edges u := by
  rw [addName]
  split
  · rfl
  · rename_i ha
    rw [neighbours, neighbours]
    by_cases hu : u = a
    · rw [hu, AList.lookup_insert, AList.lookup_eq_none.mpr ha]
      rfl
    · rw [AList.lookup_insert_ne hu]

theorem mem_neighbours_pushName : w ∈ neighbours (pushName edges a b) u ↔ w ∈ neighbours edges u ∨ u = a ∧ w = b := by
  rw [pushName, neighbours, neighbours]
  by_cases hu : u = a
  · rw [hu, AList.lookup_insert, Option.getD_some, List.mem_append, List.mem_singleton]
    tauto
  · rw [AList.lookup_insert_ne hu]
    tauto

theorem addAlias_spec {s : Edges × BTreeSet} {e : InitState} :
    (∀ u w, w ∈ neighbours (addAlias s e).1 u ↔ w ∈ neighbours s.1 u ∨ e = .alias u w ∨ e = .alias w u) ∧
    ∀ x, x ∈ (addAlias s e).2 ↔ x ∈ s.2 ∨ ∃ y, e = .alias x y ∨ e = .alias y x := by
  obtain ⟨edges, unbackedAddrs⟩ := s
  cases e with
  | unmapped id => simp [addAlias]
  | var id val => simp [addAlias]
  | «alias» src dst =>
    constructor
    · intro u w
      rw [addAlias, mem_neighbours_pushName, mem_neighbours_pushName, neighbours_addName, neighbours_addName, or_assoc,
        InitState.alias.injEq, InitState.alias.injEq]
      tauto
    · intro x
      rw [addAlias, BTreeSet.mem_insert, BTreeSet.mem_insert]
      simp only [InitState.alias.injEq]
      constructor
      · rintro (rfl | rfl | h)
        · exact .inr ⟨dst, .inl ⟨rfl, rfl⟩⟩
        · exact .inr ⟨src, .inr ⟨rfl, rfl⟩⟩
        · exact .inl h
      · rintro (h | ⟨y, ⟨rfl, -⟩ | ⟨-, rfl⟩⟩)
        · exact .inr (.inr h)
        · exact .inl rfl
        · exact .inr (.inl rfl)

/-- The graph has the aliases as its edges, and the set their names. -/
theorem foldl_addAlias {inits : List InitState} {s : Edges × BTreeSet} :
    (∀ u w, w ∈ neighbours (inits.foldl addAlias s).1 u ↔ w ∈ neighbours s.1 u ∨ Joined inits u w) ∧
    ∀ x, x ∈ (inits.foldl addAlias s).2 ↔ x ∈ s.2 ∨ ∃ y, Joined inits x y := by
  induction inits generalizing s with
  | nil => simp [Joined]
  | cons e inits ih =>
    obtain ⟨h1, h2⟩ := @ih (addAlias s e)
    obtain ⟨e1, e2⟩ := @addAlias_spec s e
    constructor
    · intro u w
      rw [List.foldl_cons, h1, e1, Joined, Joined, List.mem_cons, List.mem_cons, eq_comm (a := e), eq_comm (a := e)]
      tauto
    · intro x
      rw [List.foldl_cons, h2, e2]
      simp only [Joined, List.mem_cons, eq_comm (a := e), or_assoc, ← exists_or]
      refine or_congr_right (exists_congr fun y => ?_)
      tauto

theorem addBacked_spec {s : BTreeSet × Backed} {e : InitState} :
    (∀ x, x ∈ (addBacked s e).1 ↔ x ∈ s.1 ∧ ¬Initial [e] x) ∧ ∀ x, x ∈ (addBacked s e).2 ↔ x ∈ s.2 ∨ Initial [e] x := by
  obtain ⟨unbackedAddrs, backedAddrs⟩ := s
  cases e with
  | unmapped id => simp [addBacked, Initial, BTreeSet.mem_erase, or_comm]
  | var id val => simp [addBacked, Initial, BTreeSet.mem_erase, or_comm]
  | «alias» src dst => simp [addBacked, Initial]

theorem initial_cons {e : InitState} {inits : List InitState} : Initial (e :: inits) x ↔ Initial [e] x ∨ Initial inits x := by
  simp only [Initial, List.mem_cons, List.not_mem_nil, or_false, exists_or]
  tauto

/-- The names with a value or with none are the keys of the map, and not in the set. -/
theorem foldl_addBacked {inits : List InitState} {s : BTreeSet × Backed} :
    (∀ x, x ∈ (inits.foldl addBacked s).1 ↔ x ∈ s.1 ∧ ¬Initial inits x) ∧
    ∀ x, x ∈ (inits.foldl addBacked s).2 ↔ x ∈ s.2 ∨ Initial inits x := by
  induction inits generalizing s with
  | nil => simp [Initial]
  | cons e inits ih =>
    obtain ⟨h1, h2⟩ := @ih (addBacked s e)
    obtain ⟨e1, e2⟩ := @addBacked_spec s e
    constructor
    · intro x
      rw [List.foldl_cons, h1, e1, @initial_cons x e inits]
      tauto
    · intro x
      rw [List.foldl_cons, h2, e2, @initial_cons x e inits, or_assoc]

end Build

/-! ## The searches -/

/-- A physical name that is a root: its component has no name with a value or with none, and no smaller physical name. -/
structure PaRoot (inits : List InitState) (pas : BTreeSet) (r : String) : Prop where
  mem : r ∈ pas
  noInitial : ∀ z, Connected inits r z → ¬Initial inits z
  least : ∀ p ∈ pas, Connected inits r p → r ≤ p

/-- The state after the searches from the roots `R`. -/
structure Searched (inits : List InitState) (edges : Edges) (R : List String) (st : DfsState) : Prop where
  grown : Dfs.Grown (neighbours edges) R st.aliasDirections
  mem_iff : ∀ x, x ∈ st.seen ↔ Initial inits x ∨ ∃ r ∈ R, Connected inits r x

section Searches

variable {inits : List InitState} {edges : Edges} {R : List String} {st : DfsState} {r : String}

theorem connected_eq (hadj : ∀ u w, w ∈ neighbours edges u ↔ Joined inits u w) :
    Dfs.Connected (neighbours edges) = Connected inits := by
  have : (fun u w => w ∈ neighbours edges u) = Joined inits := funext fun u => funext fun w => propext (hadj u w)
  rw [Dfs.Connected, this]

theorem neighbours_symm (hadj : ∀ u w, w ∈ neighbours edges u ↔ Joined inits u w) (u w : String)
    (h : w ∈ neighbours edges u) : u ∈ neighbours edges w :=
  (hadj w u).mpr ((hadj u w).mp h).symm

/-- A search from one more root, which may have been marked before. -/
theorem dfsRoot_searched (hadj : ∀ u w, w ∈ neighbours edges u ↔ Joined inits u w) {st₀ : DfsState}
    (h : Searched inits edges R st₀) (hdirs : st.aliasDirections = st₀.aliasDirections)
    (hseen : ∀ x, x ∈ st.seen ∨ x = r ↔ x ∈ st₀.seen ∨ x = r) (hS : ∀ x ∈ st₀.seen, Connected inits r x → x = r)
    (hr : ∀ r' ∈ R, ¬Connected inits r' r) (v : Option String) :
    ∃ st', dfsRoot edges r v st = .ok st' ∧ Searched inits edges (R ++ [r]) st' := by
  have hconn := connected_eq hadj
  have hS' : ∀ x ∈ st.seen, Connected inits r x → x = r := fun x hx hc =>
    ((hseen x).mp (.inl hx)).elim (fun hx => hS x hx hc) id
  have hagree : Agrees edges (st.seen.insert r v) r v := by
    intro x w hw hc
    rw [hconn] at hc
    rcases lookup_insert_cases hw with ⟨-, hv⟩ | ⟨hne, hw⟩
    · exact hv
    · exact absurd (hS' x (mem_iff_lookup.mpr ⟨w, hw⟩) hc) hne
  obtain ⟨D, seen', hrun, hs, hm⟩ := dfsRoot_search (neighbours_symm hadj) hagree
  refine ⟨_, hrun, ?_, fun x => ?_⟩
  · rw [hdirs]
    exact h.grown.root (neighbours_symm hadj) hs (hconn ▸ hS') (hconn ▸ hr)
  · have hkids := hs.component (hconn ▸ hS') x
    rw [hconn] at hkids
    rw [hm.mem_iff, AList.mem_insert, or_comm (a := x = r), hseen, h.mem_iff, hkids]
    simp only [List.mem_append, List.mem_singleton, or_and_right, exists_or, exists_eq_left]
    constructor
    · rintro (((hi | hc) | rfl) | ⟨hc, -⟩)
      · exact .inl hi
      · exact .inr (.inl hc)
      · exact .inr (.inr .refl)
      · exact .inr (.inr hc)
    · rintro (hi | hc | hc)
      · exact .inl (.inl (.inl hi))
      · exact .inl (.inl (.inr hc))
      · by_cases hx : x = r
        · exact .inl (.inr hx)
        · exact .inr ⟨hc, hx⟩

/-- The loop over the names that are backed initially. -/
theorem searchBacked_searched (honce : (inits.map InitState.subject).Nodup)
    (hadj : ∀ u w, w ∈ neighbours edges u ↔ Joined inits u w) : ∀ {es : List (Sigma fun _ : String => Option String)}
      {R : List String} {st : DfsState}, Searched inits edges R st → (∀ x ∈ R, Initial inits x) →
      (∀ e ∈ es, Initial inits e.1) → (R ++ es.map Sigma.fst).Nodup →
      ∃ st', es.foldlM (searchBacked edges) st = .ok st' ∧ Searched inits edges (R ++ es.map Sigma.fst) st' := by
  intro es R st h hR hes hnd
  induction es generalizing R st with
  | nil => exact ⟨st, rfl, by rwa [List.map_nil, List.append_nil]⟩
  | cons e es ih =>
    obtain ⟨he, hes⟩ := List.forall_mem_cons.mp hes
    have hnot : e.1 ∉ R := fun hmem => (List.nodup_append.mp hnd).2.2 _ hmem _ List.mem_cons_self rfl
    have hapart : ∀ r' ∈ R, ¬Connected inits r' e.1 := fun r' hr' hc =>
      hnot (initial_unique honce (hR r' hr') he hc ▸ hr')
    have hS : ∀ x ∈ st.seen, Connected inits e.1 x → x = e.1 := by
      intro x hx hc
      rcases (h.mem_iff x).mp hx with hi | ⟨r', hr', hc'⟩
      · exact (initial_unique honce he hi hc).symm
      · exact absurd (hc'.trans (connected_comm hc)) (hapart r' hr')
    obtain ⟨st₁, hrun, h₁⟩ := dfsRoot_searched hadj h rfl (fun x => Iff.rfl) hS hapart e.2
    rw [List.map_cons, ← List.singleton_append, ← List.append_assoc] at hnd
    obtain ⟨st', hrun', h'⟩ := ih h₁
      (List.forall_mem_append.mpr ⟨hR, List.forall_mem_singleton.mpr he⟩) hes hnd
    refine ⟨st', ?_, ?_⟩
    · rw [List.foldlM_cons, searchBacked, hrun]
      exact hrun'
    · rwa [List.map_cons, ← List.singleton_append, ← List.append_assoc]

/-- The loop over the physical names, of which `P` have been looked at and `N` are roots. -/
theorem searchPa_searched (hadj : ∀ u w, w ∈ neighbours edges u ↔ Joined inits u w) {pas : BTreeSet}
    {R₀ : List String} (hR₀ : ∀ x, x ∈ R₀ ↔ Initial inits x) : ∀ {rest P N : List String} {st : DfsState}
      (tweaked : List InitState), P ++ rest = pas.toList → Searched inits edges (R₀ ++ N) st → (∀ p ∈ P, p ∈ st.seen) →
      (∀ r ∈ N, PaRoot inits pas r) → N.Nodup →
      ∃ st' N', rest.foldlM (searchPa edges) (st, tweaked) = .ok (st', tweaked ++ N'.map fun pa => .var pa "0") ∧
        Searched inits edges (R₀ ++ (N ++ N')) st' ∧ (∀ p ∈ pas, p ∈ st'.seen) ∧ (∀ r ∈ N ++ N', PaRoot inits pas r) ∧
          (N ++ N').Nodup
  | [], P, N, st, tweaked, hP, h, hseen, hN, hnd => by
    rw [List.append_nil] at hP
    refine ⟨st, [], by rw [List.map_nil, List.append_nil]; rfl, ?_, fun p hp => hseen p (hP ▸ hp), ?_, ?_⟩
    · rwa [List.append_nil]
    · rwa [List.append_nil]
    · rwa [List.append_nil]
  | pa :: rest, P, N, st, tweaked, hP, h, hseen, hN, hnd => by
    have hP' : P ++ [pa] ++ rest = pas.toList := by rw [List.append_assoc, List.singleton_append, hP]
    rw [List.foldlM_cons]
    by_cases hpa : pa ∈ st.seen
    · obtain ⟨st', N', hrun, hrest⟩ := searchPa_searched hadj hR₀ tweaked hP' h
        (List.forall_mem_append.mpr ⟨hseen, List.forall_mem_singleton.mpr hpa⟩) hN hnd
      refine ⟨st', N', ?_, hrest⟩
      rw [searchPa, if_pos hpa]
      exact hrun
    · have hmem := mt (h.mem_iff pa).mpr hpa
      rw [not_or] at hmem
      have hapart : ∀ r' ∈ R₀ ++ N, ¬Connected inits r' pa := fun r' hr' hc => hmem.2 ⟨r', hr', hc⟩
      have hS : ∀ x ∈ st.seen, Connected inits pa x → x = pa := by
        intro x hx hc
        rcases (h.mem_iff x).mp hx with hi | ⟨r', hr', hc'⟩
        · exact absurd (connected_comm hc) (hapart x (List.mem_append_left _ ((hR₀ x).mpr hi)))
        · exact absurd (hc'.trans (connected_comm hc)) (hapart r' hr')
      obtain ⟨st₁, hrun, h₁⟩ := @dfsRoot_searched inits edges (R₀ ++ N)
        { st with seen := st.seen.insert pa (some "0") } pa hadj st h rfl (fun x => by rw [AList.mem_insert]; tauto) hS hapart
        (some "0")
      have hroot : PaRoot inits pas pa := by
        refine ⟨BTreeSet.mem_def.mpr (hP ▸ List.mem_append_right _ List.mem_cons_self), fun z hc hi => ?_, fun p hp hc => ?_⟩
        · exact hapart z (List.mem_append_left _ ((hR₀ z).mpr hi)) (connected_comm hc)
        · have hsorted := pas.sorted
          rw [← hP] at hsorted
          have hp' : p ∈ P ++ pa :: rest := hP ▸ hp
          rcases List.mem_append.mp hp' with hp' | hp'
          · have heq := hS p (hseen p hp') hc
            exact absurd (heq ▸ hseen p hp') hpa
          · rcases List.mem_cons.mp hp' with rfl | hp'
            · exact le_refl p
            · exact le_of_lt ((List.pairwise_cons.mp (List.pairwise_append.mp hsorted).2.1).1 p hp')
      have hkeep : ∀ x ∈ st.seen, x ∈ st₁.seen := by
        intro x hx
        rw [h₁.mem_iff]
        rcases (h.mem_iff x).mp hx with hi | ⟨r', hr', hc⟩
        · exact .inl hi
        · exact .inr ⟨r', List.mem_append_left _ hr', hc⟩
      have hnew : pa ∈ st₁.seen :=
        (h₁.mem_iff pa).mpr (.inr ⟨pa, List.mem_append_right _ List.mem_cons_self, .refl⟩)
      have hnotN : pa ∉ N := fun hmem => hapart pa (List.mem_append_right _ hmem) .refl
      rw [List.append_assoc] at h₁
      obtain ⟨st', N', hrun', h', hseen', hN', hnd'⟩ := searchPa_searched hadj hR₀
        (tweaked ++ [.var pa "0"]) hP' h₁ (List.forall_mem_append.mpr ⟨fun p hp => hkeep p (hseen p hp), List.forall_mem_singleton.mpr hnew⟩)
        (List.forall_mem_append.mpr ⟨hN, List.forall_mem_singleton.mpr hroot⟩)
        (List.nodup_append.mpr ⟨hnd, List.nodup_singleton pa, by
          rintro x hx y hy rfl
          exact hnotN (List.mem_singleton.mp hy ▸ hx)⟩)
      rw [List.append_assoc N, List.singleton_append] at h' hN' hnd'
      refine ⟨st', pa :: N', ?_, h', hseen', hN', hnd'⟩
      simp only [searchPa, if_neg hpa, hrun]
      rw [List.append_assoc, List.singleton_append] at hrun'
      exact hrun'

end Searches

end LitmusHarness.Translator
