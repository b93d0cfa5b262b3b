import LitmusHarness.Translator.Backing

/-!
# When `fill_unbacked_addrs` gives a consistent initial state

The call always returns (`fillUnbackedAddrs_eq`), and its result is consistent if and only if no alias is connected to a
name that is not mapped, each component with a backed name is a star around it, and a symbolic name that no search
reaches occurs once and in no alias (`fillUnbackedAddrs_consistent_iff`).
-/

namespace LitmusHarness.Translator

open Relation

/-! ## The form of a result -/

/-- What a call finds: the roots of its searches, among them physical names, the names that it sees, the aliases, and the
other names of aliases. -/
structure Filling (inits : List InitState) (pas : BTreeSet) where
  edges : Edges
  roots : List String
  paRoots : List String
  seen : Backed
  dirs : List (String × String)
  unbacked : List String
  mem_neighbours : ∀ u w, w ∈ neighbours edges u ↔ Joined inits u w
  grown : Dfs.Grown (neighbours edges) roots dirs
  mem_roots : ∀ r, r ∈ roots ↔ Initial inits r ∨ r ∈ paRoots
  paRoot : ∀ r ∈ paRoots, PaRoot inits pas r
  nodup_paRoots : paRoots.Nodup
  mem_seen : ∀ x, x ∈ seen ↔ ∃ r ∈ roots, Connected inits r x
  pas_seen : ∀ p ∈ pas, p ∈ seen
  mem_unbacked : ∀ x, x ∈ unbacked ↔ (∃ y, Joined inits x y) ∧ x ∉ seen
  nodup_unbacked : unbacked.Nodup

namespace Filling

variable {inits : List InitState} {pas : BTreeSet}

/-- The symbolic names that no search reaches. -/
def symbolicsLeft (F : Filling inits pas) (symbolics : List String) : List String :=
  symbolics.filter fun sym => sym ∉ F.seen

/-- The list that the call returns. -/
def result (F : Filling inits pas) (symbolics : List String) : List InitState :=
  inits.filter (fun init => !init.isAlias) ++ F.paRoots.map (fun pa => .var pa "0") ++ F.unbacked.map .unmapped ++
    (F.symbolicsLeft symbolics).map .unmapped ++ F.dirs.map fun (src, dst) => .alias dst src

end Filling

section Fill

variable {inits : List InitState}

theorem filter_var (l : List String) :
    (l.map fun pa => InitState.var pa "0").filter (fun init => !init.isAlias) = l.map fun pa => .var pa "0" :=
  List.filter_eq_self.mpr fun e he => by
    obtain ⟨pa, -, rfl⟩ := List.mem_map.mp he
    rfl

theorem filter_unmapped (l : List String) :
    (l.map InitState.unmapped).filter (fun init => !init.isAlias) = l.map .unmapped :=
  List.filter_eq_self.mpr fun e he => by
    obtain ⟨x, -, rfl⟩ := List.mem_map.mp he
    rfl

/-- **The call returns**, if each name is initialised at most once. -/
theorem fillUnbackedAddrs_eq (order : HashOrder) (honce : (inits.map InitState.subject).Nodup) (symbolics : List String)
    (pas : BTreeSet) :
    ∃ F : Filling inits pas, fillUnbackedAddrs order inits symbolics pas = .ok (F.result symbolics) := by
  obtain ⟨edges, unb, hgraph⟩ : ∃ edges unb, inits.foldl addAlias (∅, .empty) = (edges, unb) := ⟨_, _, rfl⟩
  obtain ⟨unb', backed, hbacked⟩ : ∃ unb' backed, inits.foldl addBacked (unb, ∅) = (unb', backed) := ⟨_, _, rfl⟩
  have hadj : ∀ u w, w ∈ neighbours edges u ↔ Joined inits u w := fun u w => by
    have := (@foldl_addAlias inits (∅, .empty)).1 u w
    rw [hgraph] at this
    exact this.trans (or_iff_right (List.not_mem_nil))
  have hunb : ∀ x, x ∈ unb ↔ ∃ y, Joined inits x y := fun x => by
    have := (@foldl_addAlias inits (∅, .empty)).2 x
    rw [hgraph] at this
    exact this.trans (or_iff_right (List.not_mem_nil))
  have hmem : ∀ x, x ∈ backed ↔ Initial inits x := fun x => by
    have := (@foldl_addBacked inits (unb, ∅)).2 x
    rw [hbacked] at this
    exact this.trans (or_iff_right (AList.notMem_empty x))
  have hunb' : ∀ x, x ∈ unb' ↔ x ∈ unb ∧ ¬Initial inits x := fun x => by
    have := (@foldl_addBacked inits (unb, ∅)).1 x
    rwa [hbacked] at this
  -- the names that are backed initially, in the order of the iteration
  have hperm := (order.perm backed.entries).map Sigma.fst
  have hR₀ : ∀ x, x ∈ (order.iter backed.entries).map Sigma.fst ↔ Initial inits x := fun x =>
    hperm.mem_iff.trans (hmem x)
  have h₀ : Searched inits edges [] ⟨backed, []⟩ := by
    refine ⟨Dfs.Grown.nil, fun x => (hmem x).trans ⟨.inl, fun h => h.elim id fun h => ?_⟩⟩
    exact absurd h.choose_spec.1 List.not_mem_nil
  obtain ⟨st₁, hrun₁, h₁⟩ := searchBacked_searched honce hadj h₀ (fun x hx => absurd hx List.not_mem_nil)
    (fun e he => (hR₀ e.1).mp (List.mem_map_of_mem he)) (hperm.nodup_iff.mpr backed.keys_nodup)
  rw [List.nil_append, ← List.append_nil (List.map _ _)] at h₁
  obtain ⟨st₂, N, hrun₂, h₂, hpas, hN, hnd⟩ := searchPa_searched hadj hR₀ inits (List.nil_append _) h₁
    (fun p hp => absurd hp List.not_mem_nil) (fun r hr => absurd hr List.not_mem_nil) List.nodup_nil
  rw [List.nil_append] at h₂ hN hnd
  have hkeep : ∀ x ∈ st₁.seen, x ∈ st₂.seen := by
    intro x hx
    rw [h₂.mem_iff]
    rcases (h₁.mem_iff x).mp hx with hi | ⟨r, hr, hc⟩
    · exact .inl hi
    · rw [List.append_nil] at hr
      exact .inr ⟨r, List.mem_append_left _ hr, hc⟩
  have hseen : ∀ x, x ∈ st₂.seen ↔ ∃ r ∈ (order.iter backed.entries).map Sigma.fst ++ N, Connected inits r x := by
    intro x
    rw [h₂.mem_iff, or_iff_right_of_imp]
    exact fun hi => ⟨x, List.mem_append_left _ ((hR₀ x).mpr hi), .refl⟩
  have hleft : ∀ x, x ∈ st₂.seen.keys.foldl .erase (st₁.seen.keys.foldl .erase unb') ↔
      (∃ y, Joined inits x y) ∧ x ∉ st₂.seen := by
    intro x
    rw [BTreeSet.mem_foldl_erase, BTreeSet.mem_foldl_erase, hunb', hunb]
    constructor
    · rintro ⟨⟨⟨hy, -⟩, -⟩, hx⟩
      exact ⟨hy, hx⟩
    · rintro ⟨hy, hx⟩
      exact ⟨⟨⟨hy, fun hi => hx ((h₂.mem_iff x).mpr (.inl hi))⟩, fun hx₁ => hx (hkeep x hx₁)⟩, hx⟩
  refine ⟨⟨edges, _, N, st₂.seen, st₂.aliasDirections, _, hadj, h₂.grown, fun r => ?_, hN, hnd, hseen, hpas, hleft,
    BTreeSet.nodup _⟩, ?_⟩
  · rw [List.mem_append, hR₀]
  · simp only [fillUnbackedAddrs, hgraph, hbacked, hrun₁, hrun₂, bind, Except.bind, List.filter_append, filter_var,
      filter_unmapped, Filling.result, Filling.symbolicsLeft, List.append_assoc]

end Fill

/-! ## Consistent initial states -/

/-- `b` is the variable behind `x`: it has an initial value, and `x` is `b` or an alias of it. -/
def BackedBy (res : List InitState) (x b : String) : Prop :=
  (∃ v, .var b v ∈ res) ∧ (x = b ∨ .alias x b ∈ res)

/-- What an initial state must be, for the entries, symbolic names and physical names that it comes from. -/
structure Consistent (inits : List InitState) (symbolics : List String) (pas : BTreeSet) (res : List InitState) :
    Prop where
  once : (res.map InitState.subject).Nodup
  targets : ∀ x t, .alias x t ∈ res → ∃ v, .var t v ∈ res
  entries : ∀ s ∈ symbolics, ∃ e ∈ res, e.subject = s
  shared : ∀ x y, .alias x y ∈ inits → (∃ z, Connected inits x z ∧ ((∃ v, .var z v ∈ inits) ∨ z ∈ pas)) →
    ∃ b, BackedBy res x b ∧ BackedBy res y b

/-- A name that backs its component: it has a value, or it is the least physical name of a component in which no name
has a value or none. -/
def BackingRoot (inits : List InitState) (pas : BTreeSet) (r : String) : Prop :=
  (∃ v, .var r v ∈ inits) ∨ PaRoot inits pas r

/-- The initial states that are filled in consistently. -/
structure Fillable (inits : List InitState) (symbolics : List String) (pas : BTreeSet) : Prop where
  unmapped : ∀ r, .unmapped r ∈ inits → ∀ x y, .alias x y ∈ inits → ¬Connected inits r x
  star : ∀ r, BackingRoot inits pas r → ∀ x y, .alias x y ∈ inits → Connected inits r x → x = r ∨ y = r ∨ x = y
  symbolic : ∀ s ∈ symbolics, (∀ z, Connected inits s z → ¬Initial inits z ∧ z ∉ pas) →
    symbolics.count s = 1 ∧ ∀ y, ¬Joined inits s y

namespace Filling

variable {inits : List InitState} {symbolics : List String} {pas : BTreeSet} (F : Filling inits pas)

theorem mem_seen_iff {x : String} : x ∈ F.seen ↔ ∃ z, Connected inits x z ∧ (Initial inits z ∨ z ∈ pas) := by
  rw [F.mem_seen]
  constructor
  · rintro ⟨r, hr, hc⟩
    refine ⟨r, connected_comm hc, ?_⟩
    rcases (F.mem_roots r).mp hr with hi | hN
    · exact .inl hi
    · exact .inr (F.paRoot r hN).mem
  · rintro ⟨z, hc, hi | hp⟩
    · exact ⟨z, (F.mem_roots z).mpr (.inl hi), connected_comm hc⟩
    · obtain ⟨r, hr, hc'⟩ := (F.mem_seen z).mp (F.pas_seen z hp)
      exact ⟨r, hr, hc'.trans (connected_comm hc)⟩

/-- Two roots of one component are equal. -/
theorem roots_apart {r r' : String} (hr : r ∈ F.roots) (hr' : r' ∈ F.roots) (h : Connected inits r r') : r = r' :=
  F.grown.apart r hr r' hr' (connected_eq F.mem_neighbours ▸ h)

theorem mem_kids {c : String} : c ∈ F.dirs.map Prod.snd ↔ c ∈ F.seen ∧ c ∉ F.roots := by
  rw [← Dfs.mem_kids, F.grown.kids_iff, F.mem_seen, connected_eq F.mem_neighbours]

theorem paRoot_iff {r : String} : r ∈ F.paRoots ↔ PaRoot inits pas r := by
  refine ⟨F.paRoot r, fun h => ?_⟩
  obtain ⟨r', hr', hc⟩ := (F.mem_seen r).mp (F.pas_seen r h.mem)
  rcases (F.mem_roots r').mp hr' with hi | hN
  · exact absurd hi (h.noInitial r' (connected_comm hc))
  · have hle := (F.paRoot r' hN).least r h.mem hc
    have hge := h.least r' (F.paRoot r' hN).mem (connected_comm hc)
    exact le_antisymm hle hge ▸ hN

theorem not_initial_of_paRoot {r : String} (h : r ∈ F.paRoots) : ¬Initial inits r := (F.paRoot r h).noInitial r .refl

/-! ## The entries of the result -/

theorem mem_result {e : InitState} : e ∈ F.result symbolics ↔
    (e ∈ inits ∧ e.isAlias = false) ∨ (∃ pa ∈ F.paRoots, .var pa "0" = e) ∨ (∃ x ∈ F.unbacked, .unmapped x = e) ∨
      (∃ x ∈ F.symbolicsLeft symbolics, .unmapped x = e) ∨ ∃ d ∈ F.dirs, .alias d.2 d.1 = e := by
  simp only [result, List.mem_append, List.mem_filter, List.mem_map, Bool.not_eq_true', or_assoc]

theorem alias_mem_result {x t : String} : .alias x t ∈ F.result symbolics ↔ (t, x) ∈ F.dirs := by
  rw [mem_result]
  constructor
  · rintro (⟨-, h⟩ | ⟨_, -, h⟩ | ⟨_, -, h⟩ | ⟨_, -, h⟩ | ⟨⟨q, c⟩, hd, h⟩)
    · cases h
    · cases h
    · cases h
    · cases h
    · cases h
      exact hd
  · exact fun h => .inr (.inr (.inr (.inr ⟨(t, x), h, rfl⟩)))

theorem var_mem_result {x : String} : (∃ v, .var x v ∈ F.result symbolics) ↔ BackingRoot inits pas x := by
  rw [BackingRoot, ← F.paRoot_iff]
  constructor
  · rintro ⟨v, h⟩
    rcases F.mem_result.mp h with ⟨h, -⟩ | ⟨pa, hpa, h⟩ | ⟨_, -, h⟩ | ⟨_, -, h⟩ | ⟨_, -, h⟩
    · exact .inl ⟨v, h⟩
    · cases h
      exact .inr hpa
    · cases h
    · cases h
    · cases h
  · rintro (⟨v, h⟩ | h)
    · exact ⟨v, F.mem_result.mpr (.inl ⟨h, rfl⟩)⟩
    · exact ⟨"0", F.mem_result.mpr (.inr (.inl ⟨x, h, rfl⟩))⟩

theorem mem_roots_of_backing {r : String} (h : BackingRoot inits pas r) : r ∈ F.roots :=
  (F.mem_roots r).mpr (h.imp .inl F.paRoot_iff.mpr)

theorem subjects : (F.result symbolics).map InitState.subject =
    (inits.filter fun init => !init.isAlias).map InitState.subject ++ F.paRoots ++ F.unbacked ++
      F.symbolicsLeft symbolics ++ F.dirs.map Prod.snd := by
  simp only [result, List.map_append, List.map_map]
  have hid : ∀ l : List String, l.map (InitState.subject ∘ InitState.unmapped) = l := fun l => List.map_id l
  have hvar : ∀ l : List String, l.map (InitState.subject ∘ fun pa => InitState.var pa "0") = l := fun l => List.map_id l
  rw [hid, hid, hvar]
  rfl

theorem mem_subjects {x : String} :
    x ∈ (inits.filter fun init => !init.isAlias).map InitState.subject ↔ Initial inits x := by
  rw [List.mem_map]
  constructor
  · rintro ⟨e, he, rfl⟩
    obtain ⟨he, hne⟩ := List.mem_filter.mp he
    cases e with
    | unmapped id => exact .inr he
    | var id val => exact .inl ⟨val, he⟩
    | «alias» src dst => cases hne
  · rintro (⟨v, h⟩ | h)
    · exact ⟨.var x v, List.mem_filter.mpr ⟨h, rfl⟩, rfl⟩
    · exact ⟨.unmapped x, List.mem_filter.mpr ⟨h, rfl⟩, rfl⟩

theorem mem_symbolicsLeft {x : String} : x ∈ F.symbolicsLeft symbolics ↔ x ∈ symbolics ∧ x ∉ F.seen := by
  rw [symbolicsLeft, List.mem_filter, decide_eq_true_iff]

theorem count_symbolicsLeft {x : String} (h : x ∉ F.seen) : (F.symbolicsLeft symbolics).count x = symbolics.count x :=
  List.count_filter (p := fun sym => decide (sym ∉ F.seen)) (decide_eq_true h)

/-- The subjects are those of the roots, the names that no search reaches and the names entered by a search. -/
theorem nodup_subjects (honce : (inits.map InitState.subject).Nodup) :
    ((F.result symbolics).map InitState.subject).Nodup ↔ (F.unbacked ++ F.symbolicsLeft symbolics).Nodup := by
  rw [F.subjects, List.append_assoc _ F.unbacked]
  have hB : ((inits.filter fun init => !init.isAlias).map InitState.subject ++ F.paRoots).Nodup := by
    refine List.nodup_append.mpr ⟨honce.sublist (List.filter_sublist.map _), F.nodup_paRoots, ?_⟩
    rintro x hx y hy rfl
    exact F.not_initial_of_paRoot hy (mem_subjects.mp hx)
  have hroot : ∀ x ∈ (inits.filter fun init => !init.isAlias).map InitState.subject ++ F.paRoots, x ∈ F.roots :=
    fun x hx => (F.mem_roots x).mpr ((List.mem_append.mp hx).imp_left mem_subjects.mp)
  have hleft : ∀ x ∈ F.unbacked ++ F.symbolicsLeft symbolics, x ∉ F.seen := by
    intro x hx
    rcases List.mem_append.mp hx with hx | hx
    · exact ((F.mem_unbacked x).mp hx).2
    · exact (F.mem_symbolicsLeft.mp hx).2
  constructor
  · exact fun h => (List.nodup_append.mp (List.nodup_append.mp h).1).2.1
  · intro h
    refine List.nodup_append.mpr ⟨List.nodup_append.mpr ⟨hB, h, ?_⟩, F.grown.nodup, ?_⟩
    · rintro x hx y hy rfl
      exact hleft x hy ((F.mem_seen x).mpr ⟨x, hroot x hx, .refl⟩)
    · rintro x hx y hy rfl
      obtain ⟨hseen, hnot⟩ := F.mem_kids.mp hy
      rcases List.mem_append.mp hx with hx | hx
      · exact hnot (hroot x hx)
      · exact hleft x hx hseen

/-- Each name has at most one entry if and only if the symbolic names that no search reaches occur once, and in no
alias. -/
theorem once_iff (honce : (inits.map InitState.subject).Nodup) :
    ((F.result symbolics).map InitState.subject).Nodup ↔
      ∀ s ∈ symbolics, (∀ z, Connected inits s z → ¬Initial inits z ∧ z ∉ pas) →
        symbolics.count s = 1 ∧ ∀ y, ¬Joined inits s y := by
  have hunseen : ∀ s, s ∉ F.seen ↔ ∀ z, Connected inits s z → ¬Initial inits z ∧ z ∉ pas := by
    intro s
    rw [F.mem_seen_iff]
    simp only [not_exists, not_and, not_or]
  rw [F.nodup_subjects honce, List.nodup_append]
  constructor
  · rintro ⟨-, hnd, hdisj⟩ s hs hs'
    have hmem : s ∈ F.symbolicsLeft symbolics := F.mem_symbolicsLeft.mpr ⟨hs, (hunseen s).mpr hs'⟩
    constructor
    · have hcount := List.count_eq_one_of_mem hnd hmem
      rwa [F.count_symbolicsLeft ((hunseen s).mpr hs')] at hcount
    · intro y hy
      exact hdisj s ((F.mem_unbacked s).mpr ⟨⟨y, hy⟩, (hunseen s).mpr hs'⟩) s hmem rfl
  · intro h
    refine ⟨F.nodup_unbacked, List.nodup_iff_count_le_one.mpr fun s => ?_, ?_⟩
    · by_cases hs : s ∈ F.symbolicsLeft symbolics
      · obtain ⟨hmem, hseen⟩ := F.mem_symbolicsLeft.mp hs
        rw [F.count_symbolicsLeft hseen, (h s hmem ((hunseen s).mp hseen)).1]
      · rw [List.count_eq_zero.mpr hs]
        exact Nat.zero_le 1
    · rintro x hx y hy rfl
      obtain ⟨hmem, hseen⟩ := F.mem_symbolicsLeft.mp hy
      obtain ⟨⟨y, hy⟩, -⟩ := (F.mem_unbacked x).mp hx
      exact (h x hmem ((hunseen x).mp hseen)).2 y hy

/-! ## The targets of the aliases -/

/-- The edges of the components, as aliases. -/
theorem star_iff : (∀ d ∈ F.dirs, d.1 ∈ F.roots) ↔
    ∀ r ∈ F.roots, ∀ x y, .alias x y ∈ inits → Connected inits r x → x = r ∨ y = r ∨ x = y := by
  rw [F.grown.star_iff (neighbours_symm F.mem_neighbours), connected_eq F.mem_neighbours]
  constructor
  · exact fun h r hr x y ha hc => h r hr x y hc ((F.mem_neighbours x y).mpr (.inl ha))
  · intro h r hr u w hc hadj
    rcases (F.mem_neighbours u w).mp hadj with ha | ha
    · exact h r hr u w ha hc
    · have := h r hr w u ha (hc.tail (.inr ha))
      tauto

/-- The target of every alias has a value if and only if no alias is connected to a name that is not mapped, and every
alias of a component with a backed name is on this name. -/
theorem targets_iff (honce : (inits.map InitState.subject).Nodup) :
    (∀ x t, .alias x t ∈ F.result symbolics → ∃ v, .var t v ∈ F.result symbolics) ↔
      (∀ r, .unmapped r ∈ inits → ∀ x y, .alias x y ∈ inits → ¬Connected inits r x) ∧
      ∀ r, BackingRoot inits pas r → ∀ x y, .alias x y ∈ inits → Connected inits r x → x = r ∨ y = r ∨ x = y := by
  simp only [F.alias_mem_result, F.var_mem_result]
  constructor
  · intro h
    have hstar := F.star_iff.mp fun d hd => F.mem_roots_of_backing (h d.2 d.1 hd)
    refine ⟨fun r hr x y ha hc => ?_, fun r hr => hstar r (F.mem_roots_of_backing hr)⟩
    have hri : Initial inits r := .inr hr
    have hroot : r ∈ F.roots := (F.mem_roots r).mpr (.inl hri)
    -- the subject of an alias is not a root, so a search enters it from a name with a value
    have hne : x ≠ r := fun heq => hri.not_alias honce y (heq ▸ ha)
    have hkid : x ∈ F.dirs.map Prod.snd := by
      refine F.mem_kids.mpr ⟨(F.mem_seen x).mpr ⟨r, hroot, hc⟩, fun hx => ?_⟩
      exact hne (F.roots_apart hroot hx hc).symm
    obtain ⟨q, hq⟩ := Dfs.mem_kids.mpr hkid
    have hback := h x q hq
    have hadj := (F.mem_neighbours q x).mp (F.grown.edge (q, x) hq).1
    have hqr : r = q := F.roots_apart hroot (F.mem_roots_of_backing hback) (hc.tail hadj.symm)
    rcases hqr ▸ hback with ⟨v, hv⟩ | hpa
    · exact InitState.noConfusion (eq_of_subject_eq honce hr hv rfl)
    · exact hpa.noInitial r .refl hri
  · rintro ⟨hunmapped, hstar⟩ x t hd
    have hdirs := F.star_iff.mpr fun r hr => ?_
    · have hadj := (F.mem_neighbours t x).mp (F.grown.edge (t, x) hd).1
      rcases (F.mem_roots t).mp (hdirs (t, x) hd) with (hv | hu) | hN
      · exact .inl hv
      · rcases hadj with ha | ha
        · exact absurd .refl (hunmapped t hu t x ha)
        · exact absurd (.single (.inr ha)) (hunmapped t hu x t ha)
      · exact .inr (F.paRoot t hN)
    · rcases (F.mem_roots r).mp hr with (hv | hu) | hN
      · exact hstar r (.inl hv)
      · exact fun x y ha hc => absurd hc (hunmapped r hu x y ha)
      · exact hstar r (.inr (F.paRoot r hN))

/-! ## Entries and backing variables -/

/-- Every symbolic name has an entry. -/
theorem entries : ∀ s ∈ symbolics, ∃ e ∈ F.result symbolics, e.subject = s := by
  intro s hs
  rw [← List.mem_map, F.subjects]
  simp only [List.mem_append, mem_subjects, F.mem_symbolicsLeft, F.mem_kids]
  by_cases hseen : s ∈ F.seen
  · by_cases hr : s ∈ F.roots
    · rcases (F.mem_roots s).mp hr with hi | hN
      · exact .inl (.inl (.inl (.inl hi)))
      · exact .inl (.inl (.inl (.inr hN)))
    · exact .inr ⟨hseen, hr⟩
  · exact .inl (.inr ⟨hs, hseen⟩)

/-- A name that a search reaches from `r` is behind `r`, if the trees have depth one. -/
theorem backedBy_of_connected (hdirs : ∀ d ∈ F.dirs, d.1 ∈ F.roots) {r x : String} (hr : BackingRoot inits pas r)
    (hc : Connected inits r x) : BackedBy (F.result symbolics) x r := by
  have hroot := F.mem_roots_of_backing hr
  refine ⟨F.var_mem_result.mpr hr, ?_⟩
  by_cases hx : x = r
  · exact .inl hx
  · have hkid : x ∈ F.dirs.map Prod.snd := by
      refine F.mem_kids.mpr ⟨(F.mem_seen x).mpr ⟨r, hroot, hc⟩, fun hmem => ?_⟩
      exact hx (F.roots_apart hroot hmem hc).symm
    obtain ⟨q, hq⟩ := Dfs.mem_kids.mpr hkid
    have hadj := (F.mem_neighbours q x).mp (F.grown.edge (q, x) hq).1
    have hqr : r = q := F.roots_apart hroot (hdirs (q, x) hq) (hc.tail hadj.symm)
    exact .inr (F.alias_mem_result.mpr (hqr ▸ hq))

theorem shared (h : Fillable inits symbolics pas) (hdirs : ∀ d ∈ F.dirs, d.1 ∈ F.roots) {x y : String}
    (ha : .alias x y ∈ inits) (hz : ∃ z, Connected inits x z ∧ ((∃ v, .var z v ∈ inits) ∨ z ∈ pas)) :
    ∃ b, BackedBy (F.result symbolics) x b ∧ BackedBy (F.result symbolics) y b := by
  obtain ⟨z, hc, hz⟩ := hz
  obtain ⟨r, hr, hrx⟩ := (F.mem_seen x).mp (F.mem_seen_iff.mpr ⟨z, hc, hz.imp_left .inl⟩)
  have hback : BackingRoot inits pas r := by
    rcases (F.mem_roots r).mp hr with (hv | hu) | hN
    · exact .inl hv
    · exact absurd hrx (h.unmapped r hu x y ha)
    · exact .inr (F.paRoot r hN)
  exact ⟨r, F.backedBy_of_connected hdirs hback hrx, F.backedBy_of_connected hdirs hback (hrx.tail (.inl ha))⟩

/-- **The result is consistent** if and only if the initial state is fillable. -/
theorem consistent_iff (honce : (inits.map InitState.subject).Nodup) :
    Consistent inits symbolics pas (F.result symbolics) ↔ Fillable inits symbolics pas := by
  constructor
  · intro h
    obtain ⟨hunmapped, hstar⟩ := (F.targets_iff honce).mp h.targets
    exact ⟨hunmapped, hstar, (F.once_iff honce).mp h.once⟩
  · intro h
    have htargets : ∀ x t, .alias x t ∈ F.result symbolics → ∃ v, .var t v ∈ F.result symbolics :=
      (F.targets_iff honce).mpr ⟨h.unmapped, h.star⟩
    have hdirs : ∀ d ∈ F.dirs, d.1 ∈ F.roots := fun d hd =>
      F.mem_roots_of_backing (F.var_mem_result.mp (htargets d.2 d.1 (F.alias_mem_result.mpr hd)))
    exact ⟨(F.once_iff honce).mpr h.symbolic, htargets, F.entries, fun x y ha hz => F.shared h hdirs ha hz⟩

end Filling

/-- **`fill_unbacked_addrs` gives a consistent initial state** if and only if the initial state is fillable. -/
theorem fillUnbackedAddrs_consistent_iff (order : HashOrder) {inits : List InitState} (symbolics : List String)
    (pas : BTreeSet) (honce : (inits.map InitState.subject).Nodup) :
    (∀ res, fillUnbackedAddrs order inits symbolics pas = .ok res → Consistent inits symbolics pas res) ↔
      Fillable inits symbolics pas := by
  obtain ⟨F, hrun⟩ := fillUnbackedAddrs_eq order honce symbolics pas
  rw [← F.consistent_iff honce, hrun]
  constructor
  · exact fun h => h _ rfl
  · rintro h res hres
    cases hres
    exact h

/-- The order of the map. -/
def HashOrder.id : HashOrder := ⟨fun l => l, fun l => .refl l⟩

/-- An alias of a physical name. -/
theorem fillUnbackedAddrs_consistent_physical :
    fillUnbackedAddrs .id [.alias "x" "pa"] ["x", "pa"] ⟨["pa"], List.pairwise_singleton _ _⟩ =
      .ok [.var "pa" "0", .alias "x" "pa"] ∧
    Consistent [.alias "x" "pa"] ["x", "pa"] ⟨["pa"], List.pairwise_singleton _ _⟩
      [.var "pa" "0", .alias "x" "pa"] := by
  have hrun : fillUnbackedAddrs .id [.alias "x" "pa"] ["x", "pa"] ⟨["pa"], List.pairwise_singleton _ _⟩ =
      .ok [.var "pa" "0", .alias "x" "pa"] := by rfl
  refine ⟨hrun, (fillUnbackedAddrs_consistent_iff .id ["x", "pa"] ⟨["pa"], List.pairwise_singleton _ _⟩
    (by decide)).mpr ⟨?_, ?_, ?_⟩ _ hrun⟩
  · intro r hr
    cases List.mem_singleton.mp hr
  · intro r hr x y ha _
    cases List.mem_singleton.mp ha
    rcases hr with ⟨v, hv⟩ | hpa
    · cases List.mem_singleton.mp hv
    · exact .inr (.inl (List.mem_singleton.mp hpa.mem).symm)
  · intro s hs hz
    rcases List.mem_pair.mp hs with rfl | rfl
    · exact absurd List.mem_cons_self (hz "pa" (.single (.inl List.mem_cons_self))).2
    · exact absurd List.mem_cons_self (hz "pa" .refl).2

/-- Two symbolic names of which one is an alias of the other, with no value: both get two entries. -/
theorem fillUnbackedAddrs_twice :
    ¬∀ (order : HashOrder) (inits : List InitState) (symbolics : List String) (pas : BTreeSet),
      (inits.map InitState.subject).Nodup → ∀ res, fillUnbackedAddrs order inits symbolics pas = .ok res →
        Consistent inits symbolics pas res := by
  intro h
  have hrun : fillUnbackedAddrs .id [.alias "x" "y"] ["x", "y"] .empty =
      .ok [.unmapped "x", .unmapped "y", .unmapped "x", .unmapped "y"] := by rfl
  have honce := (h .id _ _ _ (by decide) _ hrun).once
  exact absurd honce (by decide)

end LitmusHarness.Translator
