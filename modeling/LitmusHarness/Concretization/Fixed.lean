import LitmusHarness.Hex
import Mathlib.Data.List.Nodup

/-!
# Fixed concretization: `litmus_test_fixed_concretization.c` and its option of `argparse.c`

`printVas` is the list of addresses that a run prints, and `feedBack` gives such a list back through
`--config-concretize` and `__read_from_argv`. An entry sets its variable to the number that `atoi` reads
(`readFromArgv_entries`), which need not be the one that was printed: the exact condition is `feedBack_iff`.
-/

namespace LitmusHarness

namespace Fixed

/-! ## The functions of the source -/

/-- A variable with its address in run 0, `values[0]`. -/
structure Var where
  name : List Char
  value : U64
  deriving DecidableEq, Repr

/-- `STREAM` on a buffer: what has been written, and the room that is left. -/
structure Stream where
  text : List Char
  rem : Nat
  deriving DecidableEq, Repr

/-- `sputc`. -/
def sputc (out : Stream) (c : Char) : Except String Stream :=
  if out.rem = 0 then .error "empty stream" else .ok { text := out.text ++ [c], rem := out.rem - 1 }

/-- `sprintf(out, "%s=%p,", var->name, var->values[0])`. There must be room for the final NUL. -/
def sprintVar (out : Stream) (v : Var) : Except String Stream := do
  let out ← (v.name ++ '=' :: sputp v.value ++ [',']).foldlM sputc out
  let _ ← sputc out '\x00'
  .ok out

/-- The list that `concretized_fixed_init` prints after `#vas: `. -/
def printVas (vars : List Var) : Except String (List Char) := do
  let out ← vars.foldlM sprintVar ⟨[], 1024⟩
  .ok out.text

/-- `strpartition`: the parts before and after the first `sep`. -/
def strpartition (sep : Char) : List Char → Option (List Char × List Char)
  | [] => none
  | c :: s => if c = sep then some ([], s) else (strpartition sep s).map fun (l, r) => (c :: l, r)

/-- `argparse_check_option_arg` for an option with an optional argument: what it gives to the action. The array `rhs`
has 100 characters; the source writes past its end where this fails. -/
def checkOptionArg (argv : List Char) : Except String (List Char) :=
  match strpartition '=' argv with
  | none => .ok []
  | some (_, rhs) => if rhs.length < 100 then .ok rhs else .error "rhs"

/-- `idx_from_varname`. -/
def idxFromVarname (vars : List Var) (varname : List Char) : Except String Nat :=
  match vars.findIdx? fun v => v.name = varname with
  | some i => .ok i
  | none => .error "! err: no such variable \"%s\".\n"

/-- `__set_var`. -/
def setVar (vars : List Var) (var val : List Char) : Except String (List Var) :=
  if var = [] ∨ val = [] then .ok vars
  else do
    let value ← atoi val
    let varidx ← idxFromVarname vars var
    .ok (vars.modify varidx fun v => { v with value := value })

/-- The variables of `__read_from_argv`. `sink` is what has been written to the buffer at which `curSink` points, which
is `curVal` if `inVal` holds; the other fields are the strings in the buffers. -/
structure ArgvState where
  sink : List Char
  inVal : Bool
  curVar : List Char
  curVal : List Char
  vars : List Var

/-- `*curSink = '\0'`. -/
def ArgvState.endSink (st : ArgvState) : ArgvState :=
  if st.inVal then { st with curVal := st.sink } else { st with curVar := st.sink }

/-- One iteration of the loop of `__read_from_argv`. -/
def readChar (st : ArgvState) (c : Char) : Except String ArgvState :=
  if c = '=' then .ok { st.endSink with sink := [], inVal := true }
  else if c = ',' then
    let st := st.endSink
    (setVar st.vars st.curVar st.curVal).map fun vars =>
      { sink := [], inVal := false, curVar := [], curVal := st.curVal, vars := vars }
  else .ok { st with sink := st.sink ++ [c] }

/-- `__read_from_argv`. `garbage` is what the buffer `curVal` holds before it is written. -/
def readFromArgv (garbage : List Char) (vars : List Var) (arg : List Char) : Except String (List Var) := do
  let st ← arg.foldlM readChar { sink := [], inVal := false, curVar := [], curVal := garbage, vars := vars }
  let st := st.endSink
  setVar st.vars st.curVar st.curVal

/-- A run with `--config-concretize=` and a list: `conc_cfg` copies the argument, `__read_from_argv` reads it. -/
def feedBack (garbage : List Char) (vars : List Var) (list : List Char) : Except String (List Var) := do
  let cfg ← checkOptionArg ("--config-concretize=".toList ++ list)
  readFromArgv garbage vars cfg

/-! ## The list that is printed -/

/-- The entry of a variable. -/
def entry (v : Var) : List Char := v.name ++ '=' :: sputp v.value ++ [',']

theorem foldlM_sputc {s : List Char} {out out' : Stream} (h : s.foldlM sputc out = .ok out') :
    out'.text = out.text ++ s := by
  induction s generalizing out with
  | nil =>
    rw [List.foldlM_nil] at h
    cases h
    exact (List.append_nil _).symm
  | cons c s ih =>
    rw [List.foldlM_cons] at h
    unfold sputc at h
    split at h
    · cases h
    · rw [ih h, List.append_assoc]
      rfl

theorem sprintVar_text {v : Var} {out out' : Stream} (h : sprintVar out v = .ok out') :
    out'.text = out.text ++ entry v := by
  unfold sprintVar at h
  cases hs : (v.name ++ '=' :: sputp v.value ++ [',']).foldlM sputc out with
  | error e =>
    rw [hs] at h
    cases h
  | ok out₁ =>
    rw [hs] at h
    change (sputc out₁ '\x00' >>= fun _ => .ok out₁) = _ at h
    unfold sputc at h
    split at h
    · cases h
    · cases h
      exact foldlM_sputc hs

/-- **The list that is printed**, where it fits. -/
theorem printVas_eq {vars : List Var} {text : List Char} (h : printVas vars = .ok text) :
    text = vars.flatMap entry := by
  have hfold : ∀ (vars : List Var) (out out' : Stream), vars.foldlM sprintVar out = .ok out' →
      out'.text = out.text ++ vars.flatMap entry := by
    intro vars
    induction vars with
    | nil =>
      intro out out' h
      cases h
      exact (List.append_nil _).symm
    | cons v vars ih =>
      intro out out' h
      rw [List.foldlM_cons] at h
      cases hv : sprintVar out v with
      | error e =>
        rw [hv] at h
        cases h
      | ok out₁ =>
        rw [hv] at h
        rw [ih out₁ out' h, sprintVar_text hv, List.flatMap_cons, List.append_assoc]
  unfold printVas at h
  cases hout : vars.foldlM sprintVar ⟨[], 1024⟩ with
  | error e =>
    rw [hout] at h
    cases h
  | ok out =>
    rw [hout] at h
    cases h
    exact hfold vars _ _ hout

/-! ## Reading it back -/

/-- A character that the reader takes into a name or a number. -/
def Plain (c : Char) : Prop := c ≠ '=' ∧ c ≠ ','

theorem plain_getHexchar {n : U64} (h : n.toNat < 16) : Plain (getHexchar n) := by
  obtain ⟨k, hk, rfl⟩ : ∃ k, k < 16 ∧ n = BitVec.ofNat 64 k :=
    ⟨n.toNat, h, by rw [BitVec.ofNat_toNat, BitVec.setWidth_eq]⟩
  unfold Plain
  interval_cases k <;> decide

theorem plain_hexDigits (k : Nat) (n : U64) : ∀ c ∈ hexDigits k n, Plain c := by
  intro c h
  induction k generalizing n with
  | zero => exact absurd h List.not_mem_nil
  | succ k ih =>
    rw [hexDigits] at h
    split at h
    · rcases List.mem_cons.mp h with rfl | h
      · exact plain_getHexchar ((BitVec.toNat_umod ..).trans_lt (Nat.mod_lt _ (by decide)))
      · exact ih _ h
    · exact absurd h List.not_mem_nil

theorem plain_putGroups {hex : List Char} (h : ∀ c ∈ hex, Plain c) : ∀ c ∈ putGroups hex, Plain c := by
  intro c hc
  obtain ⟨i, hi, hc⟩ := List.mem_flatMap.mp hc
  rcases List.mem_cons.mp hc with rfl | hc
  · rw [List.mem_reverse, List.mem_range] at hi
    rw [List.getD_eq_getElem _ _ hi]
    exact h _ (List.getElem_mem hi)
  · split at hc
    · rw [List.mem_singleton.mp hc]
      exact ⟨by decide, by decide⟩
    · exact absurd hc List.not_mem_nil

theorem plain_sputp (n : U64) : ∀ c ∈ sputp n, Plain c := by
  have hzero : Plain '0' := ⟨by decide, by decide⟩
  refine List.forall_mem_cons.mpr ⟨hzero, List.forall_mem_cons.mpr ⟨⟨by decide, by decide⟩, ?_⟩⟩
  rw [sputhex]
  split
  · exact plain_putGroups (List.forall_mem_singleton.mpr hzero)
  · exact plain_putGroups (plain_hexDigits 16 n)

theorem foldlM_readChar_plain {s : List Char} (st : ArgvState) (h : ∀ c ∈ s, Plain c) :
    s.foldlM readChar st = .ok { st with sink := st.sink ++ s } := by
  induction s generalizing st with
  | nil =>
    rw [List.append_nil]
    rfl
  | cons c s ih =>
    obtain ⟨⟨h1, h2⟩, h⟩ := List.forall_mem_cons.mp h
    have hc : readChar st c = .ok { st with sink := st.sink ++ [c] } := by rw [readChar, if_neg h1, if_neg h2]
    rw [List.foldlM_cons, hc]
    refine (ih { st with sink := st.sink ++ [c] } h).trans ?_
    rw [List.append_assoc]
    rfl

/-- What an entry does. -/
theorem foldlM_readChar_entry {v : Var} (h : ∀ c ∈ v.name, Plain c) (curVar curVal : List Char) (vars : List Var) :
    (entry v).foldlM readChar ⟨[], false, curVar, curVal, vars⟩ =
      (setVar vars v.name (sputp v.value)).map fun vars => ⟨[], false, [], sputp v.value, vars⟩ := by
  have heq : ∀ st : ArgvState, readChar st '=' = .ok { st.endSink with sink := [], inVal := true } := fun _ => rfl
  rw [entry, List.append_assoc, List.foldlM_append, foldlM_readChar_plain _ h]
  change (('=' :: (sputp v.value ++ [','])).foldlM readChar ⟨[] ++ v.name, false, curVar, curVal, vars⟩) = _
  rw [List.foldlM_cons, heq]
  change ((sputp v.value ++ [',']).foldlM readChar ⟨[], true, [] ++ v.name, curVal, vars⟩) = _
  rw [List.foldlM_append, foldlM_readChar_plain _ (plain_sputp v.value)]
  change ([','].foldlM readChar ⟨[] ++ sputp v.value, true, [] ++ v.name, curVal, vars⟩) = _
  rw [List.foldlM_cons]
  have hcomma : readChar ⟨sputp v.value, true, v.name, curVal, vars⟩ ',' =
      (setVar vars v.name (sputp v.value)).map fun vars => ⟨[], false, [], sputp v.value, vars⟩ := rfl
  rw [List.nil_append, List.nil_append, hcomma]
  cases setVar vars v.name (sputp v.value) with
  | error e => rfl
  | ok vars => rfl

/-- A variable as it is read back. -/
def reread (v : Var) : Var := { v with value := BitVec.ofNat 64 (readBack 4 v.value.toNat) }

/-- The entry of a variable sets the variable of the name. -/
theorem setVar_entry {v w : Var} {done rest : List Var} (hname : w.name = v.name) (hne : v.name ≠ [])
    (hdone : ∀ u ∈ done, u.name ≠ v.name) :
    setVar (done ++ w :: rest) v.name (sputp v.value) = .ok (done ++ reread v :: rest) := by
  have hidx : (done ++ w :: rest).findIdx? (fun u => u.name = v.name) = some done.length := by
    rw [List.findIdx?_append, List.findIdx?_eq_none_iff.mpr (fun u hu => by simpa using hdone u hu),
      List.findIdx?_cons, if_pos (by simpa using hname)]
    simp
  unfold setVar
  rw [if_neg (by rintro (h | h); exacts [hne h, List.cons_ne_nil _ _ h]), atoi_sputp]
  change (idxFromVarname (done ++ w :: rest) v.name >>= _) = _
  rw [idxFromVarname, hidx]
  have hmodify : ∀ (f : Var → Var) (done : List Var), (done ++ w :: rest).modify done.length f = done ++ f w :: rest := by
    intro f done
    induction done with
    | nil => rfl
    | cons u done ih => exact congrArg (u :: ·) ih
  change Except.ok ((done ++ w :: rest).modify done.length _) = _
  rw [hmodify, hname]
  rfl

/-- **What the list sets**: each variable is set to the number that is read for its address. -/
theorem readFromArgv_entries {garbage : List Char} {vars init : List Var} (hnames : init.map (·.name) = vars.map (·.name))
    (hdistinct : (vars.map (·.name)).Nodup) (hne : ∀ v ∈ vars, v.name ≠ [])
    (hplain : ∀ v ∈ vars, ∀ c ∈ v.name, Plain c) :
    readFromArgv garbage init (vars.flatMap entry) = .ok (vars.map reread) := by
  have hfold : ∀ (todo init done : List Var) (curVar curVal : List Char), (done ++ todo) = vars →
      init.map (·.name) = todo.map (·.name) → ∃ curVal',
      (todo.flatMap entry).foldlM readChar ⟨[], false, curVar, curVal, done.map reread ++ init⟩ =
        .ok ⟨[], false, if todo = [] then curVar else [], curVal', (done ++ todo).map reread⟩ := by
    intro todo
    induction todo with
    | nil =>
      intro init done curVar curVal _ hnames
      rw [List.map_nil, List.map_eq_nil_iff] at hnames
      subst hnames
      exact ⟨curVal, by simp; rfl⟩
    | cons v todo ih =>
      intro init done curVar curVal hvars hnames
      obtain ⟨w, init, rfl⟩ : ∃ w init', init = w :: init' := List.exists_cons_of_length_pos (by
        have := congrArg List.length hnames
        simp at this
        omega)
      obtain ⟨hw, hnames⟩ := List.cons_eq_cons.mp hnames
      have hv : v ∈ vars := hvars ▸ List.mem_append_right _ List.mem_cons_self
      have hdone : ∀ u ∈ done.map reread, u.name ≠ v.name := by
        intro u hu
        obtain ⟨u', hu', rfl⟩ := List.mem_map.mp hu
        rw [← hvars, List.map_append, List.nodup_append] at hdistinct
        exact hdistinct.2.2 _ (List.mem_map_of_mem hu') _ (List.mem_map_of_mem List.mem_cons_self)
      obtain ⟨curVal', hrest⟩ := ih init (done ++ [v]) [] (sputp v.value) (by rw [List.append_assoc]; exact hvars) hnames
      refine ⟨curVal', ?_⟩
      rw [List.flatMap_cons, List.foldlM_append, foldlM_readChar_entry (hplain v hv), setVar_entry hw (hne v hv) hdone]
      rw [List.map_append, List.append_assoc, List.append_assoc] at hrest
      apply hrest.trans
      simp
  obtain ⟨curVal', h⟩ := hfold vars init [] [] garbage rfl hnames
  unfold readFromArgv
  rw [show ([] : List Var).map reread ++ init = init from rfl] at h
  rw [h, ite_self]
  rfl

/-- The option takes what follows the first `=`, if it fits. -/
theorem checkOptionArg_eq (list : List Char) : checkOptionArg ("--config-concretize=".toList ++ list) =
    if list.length < 100 then .ok list else .error "rhs" := by
  have hsplit : strpartition '=' ("--config-concretize=".toList ++ list) = some ("--config-concretize".toList, list) := rfl
  rw [checkOptionArg, hsplit]

/-- **When the list gives the addresses back**: it fits into the array of the option, and each address is one group of
digits up to 9. -/
theorem feedBack_iff {garbage list : List Char} {vars init : List Var} (hprint : printVas vars = .ok list)
    (hnames : init.map (·.name) = vars.map (·.name)) (hdistinct : (vars.map (·.name)).Nodup)
    (hne : ∀ v ∈ vars, v.name ≠ []) (hplain : ∀ v ∈ vars, ∀ c ∈ v.name, c ≠ '=' ∧ c ≠ ',') :
    feedBack garbage init list = .ok vars ↔ list.length < 100 ∧ ∀ v ∈ vars, DecimalGroup v.value.toNat := by
  have hreread : ∀ v : Var, reread v = v ↔ DecimalGroup v.value.toNat := by
    intro v
    rw [← atoi_sputp_iff, atoi_sputp, Except.ok.injEq]
    exact ⟨congrArg Var.value, fun h => by rw [reread, h]⟩
  have hmap : vars.map reread = vars ↔ ∀ v ∈ vars, DecimalGroup v.value.toNat := by
    refine ⟨fun h v hv => (hreread v).mp ?_, fun h => ?_⟩
    · exact (List.map_inj_left.mp (h.trans (List.map_id vars).symm)) v hv
    · exact (List.map_congr_left fun v hv => (hreread v).mpr (h v hv)).trans (List.map_id vars)
  unfold feedBack
  rw [checkOptionArg_eq, ← hmap]
  by_cases hlen : list.length < 100
  · rw [if_pos hlen]
    change readFromArgv garbage init list = _ ↔ _
    rw [printVas_eq hprint, readFromArgv_entries hnames hdistinct hne hplain, Except.ok.injEq, ← printVas_eq hprint,
      and_iff_right hlen]
  · rw [if_neg hlen]
    exact ⟨fun h => (by cases h), fun h => absurd h.1 hlen⟩

theorem feedBack_iff_1234 : feedBack [] [⟨['x'], 0⟩] "x=0x1234,".toList = .ok [⟨['x'], 0x1234⟩] ↔
    "x=0x1234,".toList.length < 100 ∧ ∀ v ∈ [(⟨['x'], 0x1234⟩ : Var)], DecimalGroup v.value.toNat :=
  feedBack_iff (by decide) rfl (by decide) (by decide) (by simp)

/-- An address with two groups of digits comes back as another one. -/
theorem feedBack_wrong : printVas [⟨['x'], 0x40200000⟩] = .ok "x=0x4020_0000,".toList ∧
    feedBack [] [⟨['x'], 0⟩] "x=0x4020_0000,".toList = .ok [⟨['x'], 0x402000000⟩] ∧
    feedBack [] [⟨['x'], 0⟩] "x=0x4020_0000,".toList ≠ .ok [⟨['x'], 0x40200000⟩] := by
  decide

end Fixed

end LitmusHarness
