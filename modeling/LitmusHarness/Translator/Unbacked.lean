import LitmusHarness.Lib.Dfs
import Mathlib.Data.List.AList
import Mathlib.Data.List.Sort
import Mathlib.Data.String.Basic

/-!
# The initial state of a translated test: `fill_unbacked_addrs`

A `HashMap` is an association list, and `HashOrder` the order in which one is iterated over, which can be any. A
`BTreeSet` is a sorted list. The depth of the recursion of `dfs` is bounded by the number of names in aliases.

If the names seen before that are connected to `addr` have the value `backed_val`, then `dfs` is a depth-first search
from `addr`, which gives this value to the names that it enters (`dfs_search`).
-/

namespace LitmusHarness.Translator

/-! ## Sets and maps of the standard library -/

/-- `BTreeSet<String>`. -/
structure BTreeSet where
  toList : List String
  sorted : toList.Pairwise (· < ·)

namespace BTreeSet

def empty : BTreeSet := ⟨[], List.Pairwise.nil⟩

instance : Membership String BTreeSet := ⟨fun s x => x ∈ s.toList⟩

theorem pairwise_orderedInsert {l : List String} (h : l.Pairwise (· < ·)) {x : String} (hx : x ∉ l) :
    (l.orderedInsert (· ≤ ·) x).Pairwise (· < ·) := by
  have hle : (l.orderedInsert (· ≤ ·) x).Pairwise (· ≤ ·) := (h.imp le_of_lt).orderedInsert x l
  have hnd : (l.orderedInsert (· ≤ ·) x).Nodup :=
    (List.perm_orderedInsert (· ≤ ·) x l).nodup_iff.mpr (List.nodup_cons.mpr ⟨hx, h.imp ne_of_lt⟩)
  exact (hle.and hnd).imp fun h => lt_of_le_of_ne h.1 h.2

def insert (s : BTreeSet) (x : String) : BTreeSet :=
  if h : x ∈ s.toList then s else ⟨s.toList.orderedInsert (· ≤ ·) x, pairwise_orderedInsert s.sorted h⟩

def erase (s : BTreeSet) (x : String) : BTreeSet := ⟨s.toList.filter (· ≠ x), s.sorted.filter _⟩

theorem mem_def {s : BTreeSet} {x : String} : x ∈ s ↔ x ∈ s.toList := Iff.rfl

theorem mem_insert {s : BTreeSet} {x y : String} : y ∈ s.insert x ↔ y = x ∨ y ∈ s := by
  by_cases h : x ∈ s.toList
  · rw [insert, dif_pos h]
    exact ⟨.inr, fun hy => hy.elim (fun heq => heq ▸ h) id⟩
  · rw [insert, dif_neg h]
    exact List.mem_orderedInsert _

theorem mem_erase {s : BTreeSet} {x y : String} : y ∈ s.erase x ↔ y ∈ s ∧ y ≠ x := by
  rw [mem_def, erase, List.mem_filter, decide_eq_true_iff]
  rfl

theorem mem_foldl_erase {y : String} {l : List String} {s : BTreeSet} : y ∈ l.foldl erase s ↔ y ∈ s ∧ y ∉ l := by
  induction l generalizing s with
  | nil => simp
  | cons x l ih =>
    rw [List.foldl_cons, ih, mem_erase, List.mem_cons, not_or, and_assoc]

theorem nodup (s : BTreeSet) : s.toList.Nodup := s.sorted.imp ne_of_lt

end BTreeSet

/-- `HashMap<String, Vec<&String>>`, the neighbours of a name. -/
abbrev Edges := AList fun _ : String => List String

/-- `HashMap<String, Option<String>>`, the names seen with the value that backs them. -/
abbrev Backed := AList fun _ : String => Option String

/-- The order in which the entries of a map are iterated over. -/
structure HashOrder where
  iter : List (Sigma fun _ : String => Option String) → List (Sigma fun _ : String => Option String)
  perm : ∀ l, (iter l).Perm l

/-! ## The functions of the source -/

/-- `InitState`. -/
inductive InitState
  | unmapped (id : String)
  | var (id val : String)
  | alias (src dst : String)
  deriving DecidableEq, Repr

/-- How a call ends without a result: `Error::PageTableSetup`, whose text shows the two values, or a recursion deeper than
the bound. -/
inductive SetupFailure
  | pageTableSetup (val backedVal : Option String)
  | limit
  deriving DecidableEq, Repr

/-- `if !edges.contains_key(name) { edges.insert(name, vec![]) }`. -/
def addName (edges : Edges) (name : String) : Edges := if name ∈ edges then edges else edges.insert name []

/-- `edges.get_mut(name).unwrap().push(other)`, for a name that the map has. -/
def pushName (edges : Edges) (name other : String) : Edges :=
  edges.insert name ((edges.lookup name).getD [] ++ [other])

/-- The loop that builds the graph of the aliases. -/
def addAlias : Edges × BTreeSet → InitState → Edges × BTreeSet
  | (edges, unbackedAddrs), .alias src dst =>
    (pushName (pushName (addName (addName edges src) dst) src dst) dst src, (unbackedAddrs.insert dst).insert src)
  | s, _ => s

/-- The loop that finds the names with a value, or with none. -/
def addBacked : BTreeSet × Backed → InitState → BTreeSet × Backed
  | (unbackedAddrs, backedAddrs), .var id val => (unbackedAddrs.erase id, backedAddrs.insert id (some val))
  | (unbackedAddrs, backedAddrs), .unmapped id => (unbackedAddrs.erase id, backedAddrs.insert id none)
  | s, _ => s

/-- The names seen and the aliases found. -/
structure DfsState where
  seen : Backed
  aliasDirections : List (String × String)

/-- One iteration of the loop of `dfs` over the aliases of `addr`, with the recursive call `call`. -/
def dfsAlias (call : String → Option String → DfsState → Except SetupFailure (Bool × DfsState)) (addr : String)
    (backedVal : Option String) : Bool × DfsState → String → Except SetupFailure (Bool × DfsState)
  | (backed, st), aliasName =>
    match st.seen.lookup aliasName with
    | some val => if val ≠ backedVal then .error (.pageTableSetup val backedVal) else .ok (backed, st)
    | none => do
      let (b, st) ← call aliasName backedVal st
      .ok (backed || b, { st with aliasDirections := st.aliasDirections ++ [(addr, aliasName)] })

/-- `dfs`, with a bound on the depth of the recursion. -/
def dfs (edges : Edges) : Nat → String → Option String → DfsState → Except SetupFailure (Bool × DfsState)
  | 0, _, _, _ => .error .limit
  | n + 1, addr, backedVal, st =>
    let st := { st with seen := st.seen.insert addr backedVal }
    match edges.lookup addr with
    | some aliases => aliases.foldlM (dfsAlias (dfs edges n) addr backedVal) (false, st)
    | none => .ok (false, st)

/-- `dfs` from a root. -/
def dfsRoot (edges : Edges) (addr : String) (backedVal : Option String) (st : DfsState) :
    Except SetupFailure DfsState := do
  let (_, st) ← dfs edges (edges.keys.length + 1) addr backedVal st
  .ok st

/-- The loop over the names that are backed initially. -/
def searchBacked (edges : Edges) (st : DfsState) (e : Sigma fun _ : String => Option String) :
    Except SetupFailure DfsState :=
  dfsRoot edges e.1 e.2 st

/-- The loop over the physical names. -/
def searchPa (edges : Edges) : DfsState × List InitState → String → Except SetupFailure (DfsState × List InitState)
  | (st, tweakedInits), pa =>
    if pa ∈ st.seen then .ok (st, tweakedInits)
    else do
      let st ← dfsRoot edges pa (some "0") { st with seen := st.seen.insert pa (some "0") }
      .ok (st, tweakedInits ++ [.var pa "0"])

/-- `matches!(init, InitState::Alias(..))`. -/
def InitState.isAlias : InitState → Bool
  | .alias _ _ => true
  | _ => false

/-- `fill_unbacked_addrs`. -/
def fillUnbackedAddrs (order : HashOrder) (specifiedInits : List InitState) (symbolics : List String) (pas : BTreeSet) :
    Except SetupFailure (List InitState) := do
  let (edges, unbackedAddrs) := specifiedInits.foldl addAlias (∅, .empty)
  let (unbackedAddrs, backedAddrs) := specifiedInits.foldl addBacked (unbackedAddrs, ∅)
  let st ← (order.iter backedAddrs.entries).foldlM (searchBacked edges) ⟨backedAddrs, []⟩
  let unbackedAddrs := st.seen.keys.foldl .erase unbackedAddrs
  let (st, tweakedInits) ← pas.toList.foldlM (searchPa edges) (st, specifiedInits)
  let unbackedAddrs := st.seen.keys.foldl .erase unbackedAddrs
  let tweakedInits := tweakedInits ++ unbackedAddrs.toList.map .unmapped
  let tweakedInits := tweakedInits ++ (symbolics.filter fun sym => sym ∉ st.seen).map .unmapped
  let tweakedInits := tweakedInits.filter fun init => !init.isAlias
  .ok (tweakedInits ++ st.aliasDirections.map fun (src, dst) => .alias dst src)

/-! ## `dfs` is a depth-first search -/

/-- The neighbours of a name. -/
def neighbours (edges : Edges) (x : String) : List String := (edges.lookup x).getD []

/-- The names of the graph that have not been seen. -/
def unseen (edges : Edges) (seen : Backed) : Nat := (edges.keys.filter (· ∉ seen)).length

/-- `seen'` is `seen` with the value `v` for the names that the edges of `D` lead to. -/
def Marked (seen : Backed) (v : Option String) (D : List (String × String)) (seen' : Backed) : Prop :=
  (∀ x ∈ Dfs.kids D, seen'.lookup x = some v) ∧ ∀ x, x ∉ Dfs.kids D → seen'.lookup x = seen.lookup x

section Search

variable {edges : Edges} {seen seen' : Backed} {v : Option String} {D : List (String × String)} {x addr : String}

theorem mem_iff_lookup : x ∈ seen ↔ ∃ w, seen.lookup x = some w := by
  rw [← AList.lookup_isSome, Option.isSome_iff_exists]

theorem Marked.nil : Marked seen v [] seen := ⟨fun _ hx => absurd hx.choose_spec List.not_mem_nil, fun _ _ => rfl⟩

theorem Marked.mem_iff (h : Marked seen v D seen') : x ∈ seen' ↔ x ∈ seen ∨ x ∈ Dfs.kids D := by
  rw [mem_iff_lookup, mem_iff_lookup]
  by_cases hx : x ∈ Dfs.kids D
  · exact ⟨fun _ => .inr hx, fun _ => ⟨v, h.1 x hx⟩⟩
  · rw [h.2 x hx]
    exact ⟨.inl, fun h => h.resolve_right hx⟩

/-- A name of the new map has the value `v`, or the one it had. -/
theorem Marked.value (h : Marked seen v D seen') {w : Option String} (hw : seen'.lookup x = some w) :
    w = v ∨ seen.lookup x = some w := by
  by_cases hx : x ∈ Dfs.kids D
  · rw [h.1 x hx, Option.some.injEq] at hw
    exact .inl hw.symm
  · exact .inr (h.2 x hx ▸ hw)

theorem lookup_insert_cases {w : Option String} (h : (seen.insert addr v).lookup x = some w) :
    x = addr ∧ w = v ∨ x ≠ addr ∧ seen.lookup x = some w := by
  by_cases hx : x = addr
  · rw [hx, AList.lookup_insert, Option.some.injEq] at h
    exact .inl ⟨hx, h.symm⟩
  · exact .inr ⟨hx, AList.lookup_insert_ne hx ▸ h⟩

theorem unseen_le (h : ∀ x, x ∈ seen → x ∈ seen') : unseen edges seen' ≤ unseen edges seen := by
  refine (List.monotone_filter_right _ fun x hx => ?_).length_le
  rw [decide_eq_true_iff] at hx ⊢
  exact fun hmem => hx (h x hmem)

/-- A name of the graph that is seen now. -/
theorem unseen_lt (h : ∀ x, x ∈ seen → x ∈ seen') (hk : x ∈ edges) (hx : x ∉ seen) (hx' : x ∈ seen') :
    unseen edges seen' < unseen edges seen := by
  refine Nat.lt_of_le_of_ne (unseen_le h) fun heq => ?_
  have hsub : (edges.keys.filter (· ∉ seen')).Sublist (edges.keys.filter (· ∉ seen)) := by
    refine List.monotone_filter_right _ fun y hy => ?_
    rw [decide_eq_true_iff] at hy ⊢
    exact fun hmem => hy (h y hmem)
  have hmem : x ∈ edges.keys.filter (· ∉ seen) := List.mem_filter.mpr ⟨hk, decide_eq_true hx⟩
  rw [← hsub.eq_of_length heq, List.mem_filter, decide_eq_true_iff] at hmem
  exact hmem.2 hx'

theorem mem_edges_of_neighbour (hsymm : ∀ u w, w ∈ neighbours edges u → u ∈ neighbours edges w) {u w : String}
    (h : w ∈ neighbours edges u) : w ∈ edges := by
  have hu := hsymm u w h
  rw [neighbours] at hu
  cases hl : edges.lookup w with
  | none =>
    rw [hl] at hu
    exact absurd hu List.not_mem_nil
  | some l => exact AList.lookup_isSome.mp (hl ▸ rfl)

/-- The names seen that are connected to `addr` have the value `v`. -/
def Agrees (edges : Edges) (seen : Backed) (addr : String) (v : Option String) : Prop :=
  ∀ x w, seen.lookup x = some w → Dfs.Connected (neighbours edges) addr x → w = v

/-- What `dfs` does from `addr` with less than `n` names left: the result of a search. -/
def Searches (edges : Edges) (n : Nat) : Prop := ∀ addr v st, unseen edges (st.seen.insert addr v) < n →
  Agrees edges (st.seen.insert addr v) addr v → ∃ D seen', dfs edges n addr v st = .ok (false, ⟨seen',
    st.aliasDirections ++ D⟩) ∧ Dfs.Search (neighbours edges) addr (neighbours edges addr) (insert addr {x | x ∈ st.seen}) D ∧
      Marked (st.seen.insert addr v) v D seen'

theorem Agrees.child (h : Agrees edges seen addr v) (hx : x ∈ neighbours edges addr) :
    Agrees edges (seen.insert x v) x v := by
  intro y w hw hconn
  rcases lookup_insert_cases hw with ⟨-, hv⟩ | ⟨-, hw⟩
  · exact hv
  · exact h y w hw (.head hx hconn)

theorem setOf_mem_insert : {y | y ∈ seen.insert x v} = insert x {y | y ∈ seen} := by
  ext y
  exact AList.mem_insert seen

/-- The loop over the aliases of `addr`. -/
theorem dfsAlias_search (hsymm : ∀ u w, w ∈ neighbours edges u → u ∈ neighbours edges w) {n : Nat}
    (hn : Searches edges n) : ∀ (todo : List String) (st : DfsState), (∀ a ∈ todo, a ∈ neighbours edges addr) →
      unseen edges st.seen ≤ n → Agrees edges st.seen addr v →
      ∃ D seen', todo.foldlM (dfsAlias (dfs edges n) addr v) (false, st) = .ok (false, ⟨seen', st.aliasDirections ++ D⟩) ∧
        Dfs.Search (neighbours edges) addr todo {x | x ∈ st.seen} D ∧ Marked st.seen v D seen' := by
  intro todo st htodo hfuel hagree
  induction todo generalizing st with
  | nil => exact ⟨[], st.seen, by rw [List.append_nil]; rfl, .nil, .nil⟩
  | cons a todo ih =>
    obtain ⟨ha, htodo⟩ := List.forall_mem_cons.mp htodo
    rw [List.foldlM_cons]
    cases hl : st.seen.lookup a with
    | some w =>
      have hw : w = v := hagree a w hl (.single ha)
      have hstep : dfsAlias (dfs edges n) addr v (false, st) a = .ok (false, st) := by
        simp only [dfsAlias, hl, hw, ne_eq, not_true, if_false]
      obtain ⟨D, seen', hrun, hs, hm⟩ := ih st htodo hfuel hagree
      rw [hstep]
      exact ⟨D, seen', hrun, .skip (mem_iff_lookup.mpr ⟨w, hl⟩) hs, hm⟩
    | none =>
      have hnot : a ∉ st.seen := AList.lookup_eq_none.mp hl
      have hmono : ∀ x, x ∈ st.seen → x ∈ st.seen.insert a v := fun x hx => (AList.mem_insert _).mpr (.inr hx)
      have hlt : unseen edges (st.seen.insert a v) < unseen edges st.seen :=
        unseen_lt hmono (mem_edges_of_neighbour hsymm ha) hnot ((AList.mem_insert _).mpr (.inl rfl))
      obtain ⟨D₁, seen₁, hrun₁, hs₁, hm₁⟩ := hn a v st (by omega) (hagree.child ha)
      have hstep : dfsAlias (dfs edges n) addr v (false, st) a =
          .ok (false, ⟨seen₁, st.aliasDirections ++ D₁ ++ [(addr, a)]⟩) := by
        simp only [dfsAlias, hl, hrun₁]
        rfl
      have hseen₁ : {x | x ∈ seen₁} = insert a {x | x ∈ st.seen} ∪ Dfs.kids D₁ := by
        ext x
        rw [← setOf_mem_insert (v := v)]
        exact hm₁.mem_iff
      have hagree₁ : Agrees edges seen₁ addr v := by
        intro y w hw hconn
        rcases hm₁.value hw with hv | hw
        · exact hv
        · rcases lookup_insert_cases hw with ⟨-, hv⟩ | ⟨-, hw⟩
          · exact hv
          · exact hagree y w hw hconn
      have hfuel₁ : unseen edges seen₁ ≤ n := by
        have : unseen edges seen₁ ≤ unseen edges (st.seen.insert a v) :=
          unseen_le fun x hx => hm₁.mem_iff.mpr (.inl hx)
        omega
      obtain ⟨D₂, seen₂, hrun₂, hs₂, hm₂⟩ := ih ⟨seen₁, st.aliasDirections ++ D₁ ++ [(addr, a)]⟩ htodo hfuel₁ hagree₁
      rw [hstep]
      refine ⟨D₁ ++ (addr, a) :: D₂, seen₂, ?_, .enter hnot hs₁ (hseen₁ ▸ hs₂), fun x hx => ?_, fun x hx => ?_⟩
      · simp only [List.append_assoc, List.singleton_append] at hrun₂ ⊢
        exact hrun₂
      · rw [Dfs.mem_kids_enter] at hx
        by_cases hx₂ : x ∈ Dfs.kids D₂
        · exact hm₂.1 x hx₂
        · rw [hm₂.2 x hx₂]
          by_cases hx₁ : x ∈ Dfs.kids D₁
          · exact hm₁.1 x hx₁
          · rw [hm₁.2 x hx₁, (hx.resolve_left hx₁).resolve_right hx₂, AList.lookup_insert]
      · rw [Dfs.mem_kids_enter, not_or, not_or] at hx
        rw [hm₂.2 x hx.2.2, hm₁.2 x hx.1, AList.lookup_insert_ne hx.2.1]

/-- **`dfs` is a depth-first search.** -/
theorem dfs_search (hsymm : ∀ u w, w ∈ neighbours edges u → u ∈ neighbours edges w) (n : Nat) : Searches edges n := by
  induction n with
  | zero => exact fun _ _ _ h => absurd h (Nat.not_lt_zero _)
  | succ n hn =>
    intro addr v st hfuel hagree
    obtain ⟨D, seen', hrun, hs, hm⟩ := dfsAlias_search hsymm hn (neighbours edges addr)
      ⟨st.seen.insert addr v, st.aliasDirections⟩ (fun _ ha => ha) (Nat.lt_succ_iff.mp hfuel) hagree
    refine ⟨D, seen', ?_, setOf_mem_insert ▸ hs, hm⟩
    rw [neighbours] at hrun
    rw [dfs]
    cases hl : edges.lookup addr with
    | some l =>
      rw [hl] at hrun
      exact hrun
    | none =>
      rw [hl] at hrun
      exact hrun

/-- From a root, within the bound. -/
theorem dfsRoot_search (hsymm : ∀ u w, w ∈ neighbours edges u → u ∈ neighbours edges w) {st : DfsState}
    (hagree : Agrees edges (st.seen.insert addr v) addr v) : ∃ D seen', dfsRoot edges addr v st = .ok ⟨seen',
      st.aliasDirections ++ D⟩ ∧ Dfs.Search (neighbours edges) addr (neighbours edges addr)
        (insert addr {x | x ∈ st.seen}) D ∧ Marked (st.seen.insert addr v) v D seen' := by
  have hfuel : unseen edges (st.seen.insert addr v) < edges.keys.length + 1 :=
    Nat.lt_succ_iff.mpr (List.length_filter_le _ _)
  obtain ⟨D, seen', hrun, hs, hm⟩ := dfs_search hsymm _ addr v st hfuel hagree
  exact ⟨D, seen', by rw [dfsRoot, hrun]; rfl, hs, hm⟩

end Search

end LitmusHarness.Translator
