import Mathlib.Data.List.Nodup
import Mathlib.Logic.Function.Basic
import Mathlib.Tactic.Common

/-!
# Tests of registers, and conjunctions of them

A formula tests registers for values, with negations and conjunctions. Its literals are collected with a sign that
every negation flips.

* A formula that has no conjunction with several parts under an odd number of negations is the conjunction of its
  literals (`evalWith_iff_of_plain`); with a register in each test of its own, no other formula is
  (`plain_of_holds_iff`).
* A map that keeps the last literal of each register means what all the literals mean iff the last literal of a
  register implies the others (`keepAll_holds_iff`).
-/

namespace Lits

/-- A literal: the register `key` is equal to the value (`pos`), or it is different. -/
structure Lit (κ μ : Type) where
  key : κ
  val : μ
  pos : Bool

/-- A formula over tests of registers. -/
inductive Form (κ μ : Type) where
  | test (k : κ) (v : μ)
  | neg (f : Form κ μ)
  | conj (fs : List (Form κ μ))

section Meaning

variable {κ μ ν : Type}

/-- A literal holds in the valuation `ρ` of the registers; `val` evaluates what a register is compared with. -/
def Lit.Holds (val : μ → ν) (ρ : κ → ν) (l : Lit κ μ) : Prop :=
  if l.pos then ρ l.key = val l.val else ρ l.key ≠ val l.val

mutual

/-- A formula holds in the valuation `ρ`. -/
def Form.Holds (val : μ → ν) (ρ : κ → ν) : Form κ μ → Prop
  | .test k v => ρ k = val v
  | .neg f => ¬ f.Holds val ρ
  | .conj fs => AllHold val ρ fs

/-- Every formula of a list holds. -/
def AllHold (val : μ → ν) (ρ : κ → ν) : List (Form κ μ) → Prop
  | [] => True
  | f :: fs => f.Holds val ρ ∧ AllHold val ρ fs

end

mutual

/-- The literals of a formula, read with the sign `s`. -/
def Form.lits (s : Bool) : Form κ μ → List (Lit κ μ)
  | .test k v => [⟨k, v, s⟩]
  | .neg f => f.lits (!s)
  | .conj fs => litsAll s fs

/-- The literals of a list of formulas. -/
def litsAll (s : Bool) : List (Form κ μ) → List (Lit κ μ)
  | [] => []
  | f :: fs => f.lits s ++ litsAll s fs

end

mutual

/-- Every conjunction that is read with the sign `false` has exactly one part. -/
def Form.Plain (s : Bool) : Form κ μ → Prop
  | .test _ _ => True
  | .neg f => f.Plain (!s)
  | .conj fs => (s = true ∨ fs.length = 1) ∧ PlainAll s fs

/-- Every formula of a list is plain. -/
def PlainAll (s : Bool) : List (Form κ μ) → Prop
  | [] => True
  | f :: fs => f.Plain s ∧ PlainAll s fs

end

mutual

/-- No conjunction is empty. -/
def Form.Full : Form κ μ → Prop
  | .test _ _ => True
  | .neg f => f.Full
  | .conj fs => fs ≠ [] ∧ FullAll fs

/-- No conjunction in a list of formulas is empty. -/
def FullAll : List (Form κ μ) → Prop
  | [] => True
  | f :: fs => f.Full ∧ FullAll fs

end

mutual

/-- A formula read with the sign `s`, from the truth of its literals. -/
def Form.evalWith (t : Lit κ μ → Prop) (s : Bool) : Form κ μ → Prop
  | .test k v => t ⟨k, v, s⟩
  | .neg f => f.evalWith t (!s)
  | .conj fs => evalAll t s fs

/-- All formulas of a list, read with `true`; one of them, read with `false`. -/
def evalAll (t : Lit κ μ → Prop) (s : Bool) : List (Form κ μ) → Prop
  | [] => s = true
  | f :: fs => if s then f.evalWith t s ∧ evalAll t s fs else f.evalWith t s ∨ evalAll t s fs

end

/-! ## A formula and its literals -/

mutual

/-- The literals' truth decides the formula. -/
theorem signed_iff_evalWith (val : μ → ν) (ρ : κ → ν) : ∀ (s : Bool) (f : Form κ μ),
    (if s then f.Holds val ρ else ¬ f.Holds val ρ) ↔ f.evalWith (Lit.Holds val ρ) s
  | s, .test k v => by cases s <;> simp [Form.Holds, Form.evalWith, Lit.Holds]
  | true, .neg f => by simpa [Form.Holds, Form.evalWith] using signed_iff_evalWith val ρ false f
  | false, .neg f => by simpa [Form.Holds, Form.evalWith] using signed_iff_evalWith val ρ true f
  | s, .conj fs => by simpa only [Form.Holds, Form.evalWith] using allSigned_iff_evalAll val ρ s fs

theorem allSigned_iff_evalAll (val : μ → ν) (ρ : κ → ν) : ∀ (s : Bool) (fs : List (Form κ μ)),
    (if s then AllHold val ρ fs else ¬ AllHold val ρ fs) ↔ evalAll (Lit.Holds val ρ) s fs
  | s, [] => by cases s <;> simp [AllHold, evalAll]
  | true, f :: fs => by
    have hf := signed_iff_evalWith val ρ true f
    have hfs := allSigned_iff_evalAll val ρ true fs
    simp only [if_true] at hf hfs
    simp only [AllHold, evalAll, if_true, hf, hfs]
  | false, f :: fs => by
    have hf := signed_iff_evalWith val ρ false f
    have hfs := allSigned_iff_evalAll val ρ false fs
    simp only [Bool.false_eq_true, if_false] at hf hfs
    simp only [AllHold, evalAll, Bool.false_eq_true, if_false, not_and_or, hf, hfs]

end

theorem holds_iff_evalWith (val : μ → ν) (ρ : κ → ν) (f : Form κ μ) :
    f.Holds val ρ ↔ f.evalWith (Lit.Holds val ρ) true := by
  simpa only [if_true] using signed_iff_evalWith val ρ true f

mutual

theorem evalWith_congr {t t' : Lit κ μ → Prop} : ∀ {s : Bool} {f : Form κ μ},
    (∀ l ∈ f.lits s, t l ↔ t' l) → (f.evalWith t s ↔ f.evalWith t' s)
  | s, .test k v, h => by simpa only [Form.evalWith] using h ⟨k, v, s⟩ (by simp [Form.lits])
  | s, .neg f, h => by
    simp only [Form.evalWith]
    exact evalWith_congr (by simpa only [Form.lits] using h)
  | s, .conj fs, h => by
    simp only [Form.evalWith]
    exact evalAll_congr (by simpa only [Form.lits] using h)

theorem evalAll_congr {t t' : Lit κ μ → Prop} : ∀ {s : Bool} {fs : List (Form κ μ)},
    (∀ l ∈ litsAll s fs, t l ↔ t' l) → (evalAll t s fs ↔ evalAll t' s fs)
  | s, [], _ => by simp only [evalAll]
  | s, f :: fs, h => by
    simp only [litsAll, List.mem_append] at h
    simp only [evalAll, evalWith_congr fun l hl => h l (.inl hl), evalAll_congr fun l hl => h l (.inr hl)]

end

mutual

/-- **A plain formula is the conjunction of its literals.** -/
theorem evalWith_iff_of_plain (t : Lit κ μ → Prop) : ∀ {s : Bool} {f : Form κ μ}, f.Plain s →
    (f.evalWith t s ↔ ∀ l ∈ f.lits s, t l)
  | s, .test k v, _ => by simp [Form.evalWith, Form.lits]
  | s, .neg f, h => by
    simp only [Form.evalWith, Form.lits]
    exact evalWith_iff_of_plain t (by simpa only [Form.Plain] using h)
  | true, .conj fs, h => by
    simp only [Form.Plain] at h
    simp only [Form.evalWith, Form.lits]
    exact evalAll_iff_of_plain t h.2
  | false, .conj [f], h => by
    simp only [Form.Plain, PlainAll] at h
    simp [Form.evalWith, Form.lits, evalAll, litsAll, evalWith_iff_of_plain t h.2.1]
  | false, .conj [], h => by simp [Form.Plain] at h
  | false, .conj (_ :: _ :: _), h => by simp [Form.Plain] at h

theorem evalAll_iff_of_plain (t : Lit κ μ → Prop) : ∀ {fs : List (Form κ μ)}, PlainAll true fs →
    (evalAll t true fs ↔ ∀ l ∈ litsAll true fs, t l)
  | [], _ => by simp [evalAll, litsAll]
  | f :: fs, h => by
    simp only [PlainAll] at h
    simp only [evalAll, litsAll, if_true, List.mem_append, evalWith_iff_of_plain t h.1, evalAll_iff_of_plain t h.2,
      or_imp, forall_and]

end

mutual

theorem evalWith_of_forall {t : Lit κ μ → Prop} : ∀ {s : Bool} {f : Form κ μ}, f.Full → (∀ l ∈ f.lits s, t l) →
    f.evalWith t s
  | s, .test k v, _, h => by simpa only [Form.evalWith] using h ⟨k, v, s⟩ (by simp [Form.lits])
  | s, .neg f, hf, h => by
    simp only [Form.evalWith]
    exact evalWith_of_forall (by simpa only [Form.Full] using hf) (by simpa only [Form.lits] using h)
  | s, .conj fs, hf, h => by
    simp only [Form.Full] at hf
    simp only [Form.evalWith]
    exact evalAll_of_forall hf.2 (.inr hf.1) (by simpa only [Form.lits] using h)

theorem evalAll_of_forall {t : Lit κ μ → Prop} : ∀ {s : Bool} {fs : List (Form κ μ)}, FullAll fs →
    (s = true ∨ fs ≠ []) → (∀ l ∈ litsAll s fs, t l) → evalAll t s fs
  | s, [], _, hs, _ => by simpa [evalAll] using hs
  | true, f :: fs, hf, _, h => by
    simp only [FullAll] at hf
    simp only [litsAll, List.mem_append] at h
    simp only [evalAll, if_true]
    exact ⟨evalWith_of_forall hf.1 fun l hl => h l (.inl hl), evalAll_of_forall hf.2 (.inl rfl) fun l hl => h l (.inr hl)⟩
  | false, f :: fs, hf, _, h => by
    simp only [FullAll] at hf
    simp only [litsAll, List.mem_append] at h
    simp only [evalAll, Bool.false_eq_true, if_false]
    exact .inl (evalWith_of_forall hf.1 fun l hl => h l (.inl hl))

end

mutual

theorem lits_ne_nil : ∀ {s : Bool} {f : Form κ μ}, f.Full → f.lits s ≠ []
  | s, .test k v, _ => by simp [Form.lits]
  | s, .neg f, h => by
    simp only [Form.lits]
    exact lits_ne_nil (by simpa only [Form.Full] using h)
  | s, .conj fs, h => by
    simp only [Form.Full] at h
    simp only [Form.lits]
    exact litsAll_ne_nil h.1 h.2

theorem litsAll_ne_nil : ∀ {s : Bool} {fs : List (Form κ μ)}, fs ≠ [] → FullAll fs → litsAll s fs ≠ []
  | _, [], h, _ => absurd rfl h
  | s, f :: fs, _, h => by
    simp only [FullAll] at h
    simp only [litsAll, ne_eq, List.append_eq_nil_iff, not_and]
    exact fun hf => absurd hf (lits_ne_nil h.1)

end

/-! ## Formulas with a register in each test of its own -/

/-- The registers of a list of literals. -/
def keys (ls : List (Lit κ μ)) : List κ := ls.map Lit.key

theorem keys_append (ls ls' : List (Lit κ μ)) : keys (ls ++ ls') = keys ls ++ keys ls' := List.map_append

theorem key_mem_keys {l : Lit κ μ} {ls : List (Lit κ μ)} (h : l ∈ ls) : l.key ∈ keys ls := List.mem_map_of_mem h

mutual

/-- A formula that is not plain can hold with one of its literals false. -/
theorem exists_evalWith_of_not_plain : ∀ {s : Bool} {f : Form κ μ}, f.Full → (keys (f.lits s)).Nodup → ¬ f.Plain s →
    ∃ P : κ → Prop, f.evalWith (fun l => P l.key) s ∧ ∃ l ∈ f.lits s, ¬ P l.key
  | s, .test k v, _, _, h => by simp [Form.Plain] at h
  | s, .neg f, hf, hd, h => by
    simp only [Form.Full] at hf
    simp only [Form.lits] at hd ⊢
    simp only [Form.Plain] at h
    simp only [Form.evalWith]
    exact exists_evalWith_of_not_plain hf hd h
  | true, .conj fs, hf, hd, h => by
    simp only [Form.Full] at hf
    simp only [Form.lits] at hd ⊢
    simp only [Form.Plain, true_or, true_and] at h
    simp only [Form.evalWith]
    exact exists_evalAll_of_not_plain hf.2 hd h
  | false, .conj [], hf, _, _ => by simp [Form.Full] at hf
  | false, .conj [f], hf, hd, h => by
    simp only [Form.Full, FullAll] at hf
    simp only [Form.lits, litsAll, List.append_nil] at hd ⊢
    simp only [Form.Plain, PlainAll, List.length_singleton, or_true, true_and, and_true] at h
    obtain ⟨P, he, hl⟩ := exists_evalWith_of_not_plain hf.2.1 hd h
    exact ⟨P, by simpa [Form.evalWith, evalAll] using he, hl⟩
  | false, .conj (f :: g :: fs), hf, hd, _ => by
    simp only [Form.Full, FullAll] at hf
    simp only [Form.lits, litsAll, keys_append] at hd ⊢
    -- the literals of the first part are true, those of the second part are false
    refine ⟨fun k => k ∈ keys (f.lits false), ?_, ?_⟩
    · simp only [Form.evalWith, evalAll, Bool.false_eq_true, if_false]
      exact .inl (evalWith_of_forall hf.2.1 fun l hl => key_mem_keys hl)
    · obtain ⟨l, hl⟩ := List.exists_mem_of_ne_nil _ (lits_ne_nil (s := false) hf.2.2.1)
      refine ⟨l, by simp [hl], fun hk => ?_⟩
      exact (List.nodup_append.mp hd).2.2 l.key hk l.key (by simp [key_mem_keys hl]) rfl

theorem exists_evalAll_of_not_plain : ∀ {fs : List (Form κ μ)}, FullAll fs → (keys (litsAll true fs)).Nodup →
    ¬ PlainAll true fs → ∃ P : κ → Prop, evalAll (fun l => P l.key) true fs ∧ ∃ l ∈ litsAll true fs, ¬ P l.key
  | [], _, _, h => by simp [PlainAll] at h
  | f :: fs, hf, hd, h => by
    simp only [FullAll] at hf
    simp only [litsAll, keys_append] at hd
    obtain ⟨hdf, hdfs, hdis⟩ := List.nodup_append.mp hd
    simp only [evalAll, if_true, litsAll, List.mem_append]
    by_cases hp : f.Plain true
    · obtain ⟨P, he, l, hl, hP⟩ :=
        exists_evalAll_of_not_plain hf.2 hdfs fun hfs => h (by simp only [PlainAll]; exact ⟨hp, hfs⟩)
      refine ⟨fun k => P k ∨ k ∉ keys (litsAll true fs), ⟨?_, ?_⟩, l, .inr hl, ?_⟩
      · exact evalWith_of_forall hf.1 fun l hl => .inr fun hk => hdis l.key (key_mem_keys hl) l.key hk rfl
      · exact (evalAll_congr fun l hl => by simp [key_mem_keys hl]).mpr he
      · simp [hP, key_mem_keys hl]
    · obtain ⟨P, he, l, hl, hP⟩ := exists_evalWith_of_not_plain hf.1 hdf hp
      refine ⟨fun k => P k ∨ k ∉ keys (f.lits true), ⟨?_, ?_⟩, l, .inl hl, ?_⟩
      · exact (evalWith_congr fun l hl => by simp [key_mem_keys hl]).mpr he
      · exact evalAll_of_forall hf.2 (.inl rfl) fun l hl => .inr fun hk => hdis l.key hk l.key (key_mem_keys hl) rfl
      · simp [hP, key_mem_keys hl]

end

/-! ## One literal that implies another -/

/-- What `l` says about a register implies what `l'` says about it, for values of at least three kinds. -/
def Lit.Implies (val : μ → ν) (l l' : Lit κ μ) : Prop :=
  match l.pos, l'.pos with
  | true, true => val l.val = val l'.val
  | true, false => val l.val ≠ val l'.val
  | false, true => False
  | false, false => val l.val = val l'.val

theorem implies_iff {val : μ → ν} (hν : ∀ a b : ν, ∃ c, c ≠ a ∧ c ≠ b) (l l' : Lit κ μ) : l.Implies val l' ↔
    ∀ x : ν, (if l.pos then x = val l.val else x ≠ val l.val) → if l'.pos then x = val l'.val else x ≠ val l'.val := by
  unfold Lit.Implies
  cases l.pos <;> cases l'.pos <;> simp only [Bool.false_eq_true, if_true, if_false]
  · refine ⟨fun h x => h ▸ id, fun h => by_contra fun hne => h (val l'.val) (fun h' => hne h'.symm) rfl⟩
  · obtain ⟨c, hc, hc'⟩ := hν (val l.val) (val l'.val)
    exact ⟨False.elim, fun h => hc' (h c hc)⟩
  · exact ⟨fun h x hx => hx ▸ h, fun h => h _ rfl⟩
  · exact ⟨fun h x hx => hx.trans h, fun h => h _ rfl⟩

theorem implies_refl {val : μ → ν} (l : Lit κ μ) : l.Implies val l := by
  unfold Lit.Implies
  cases l.pos <;> rfl

end Meaning

/-! ## Valuations of the registers -/

section Valuations

variable {κ μ ν : Type} [DecidableEq κ] {val : μ → ν}

/-- Literals of different registers are independent: each one is true or false as `P` has it. -/
theorem exists_holds_iff [Nontrivial ν] (val : μ → ν) (P : κ → Prop) {ls : List (Lit κ μ)} (hd : (keys ls).Nodup) :
    ∃ ρ : κ → ν, ∀ l ∈ ls, (l.Holds val ρ ↔ P l.key) := by
  induction ls with
  | nil => exact ⟨fun _ => Classical.arbitrary ν, by simp⟩
  | cons l ls ih =>
    obtain ⟨hl, hls⟩ := List.nodup_cons.mp hd
    obtain ⟨ρ, hρ⟩ := ih hls
    have hx : ∃ x : ν, (if l.pos then x = val l.val else x ≠ val l.val) ↔ P l.key := by
      obtain ⟨y, hy⟩ := exists_ne (val l.val)
      by_cases hP : P l.key <;> cases l.pos
      · exact ⟨y, by simp [hP, hy]⟩
      · exact ⟨val l.val, by simp [hP]⟩
      · exact ⟨val l.val, by simp [hP]⟩
      · exact ⟨y, by simp [hP, hy]⟩
    obtain ⟨x, hx⟩ := hx
    refine ⟨Function.update ρ l.key x, fun l' hl' => ?_⟩
    rcases List.mem_cons.mp hl' with rfl | hl'
    · simpa only [Lit.Holds, Function.update_self] using hx
    · have hne : l'.key ≠ l.key := fun h => hl (h ▸ key_mem_keys hl')
      simpa only [Lit.Holds, Function.update_of_ne hne] using hρ l' hl'

/-- **With a register in each test of its own, only a plain formula is the conjunction of its literals.** -/
theorem plain_of_holds_iff [Nontrivial ν] {f : Form κ μ} (hf : f.Full) (hd : (keys (f.lits true)).Nodup)
    (h : ∀ ρ : κ → ν, f.Holds val ρ ↔ ∀ l ∈ f.lits true, l.Holds val ρ) : f.Plain true := by
  by_contra hp
  obtain ⟨P, he, l, hl, hP⟩ := exists_evalWith_of_not_plain hf hd hp
  obtain ⟨ρ, hρ⟩ := exists_holds_iff val P hd
  have hev := (evalWith_congr hρ).mpr he
  exact hP ((hρ l hl).mp ((h ρ).mp ((holds_iff_evalWith val ρ f).mpr hev) l hl))

/-! ## The last literal of each register -/

/-- A map that keeps the last literal of each register. -/
def keep (m : List (Lit κ μ)) (l : Lit κ μ) : List (Lit κ μ) := l :: m.filter (fun l' => l'.key ≠ l.key)

/-- The literals are kept one by one. -/
def keepAll (m ls : List (Lit κ μ)) : List (Lit κ μ) := ls.foldl keep m

theorem keepAll_cons (m : List (Lit κ μ)) (l : Lit κ μ) (ls : List (Lit κ μ)) :
    keepAll m (l :: ls) = keepAll (keep m l) ls := rfl

theorem keepAll_append (m ls ls' : List (Lit κ μ)) : keepAll m (ls ++ ls') = keepAll (keepAll m ls) ls' :=
  List.foldl_append

theorem mem_keep {m : List (Lit κ μ)} {l l' : Lit κ μ} : l' ∈ keep m l ↔ l' = l ∨ l' ∈ m ∧ l'.key ≠ l.key := by
  simp [keep]

theorem keys_keep_nodup {m : List (Lit κ μ)} (l : Lit κ μ) (h : (keys m).Nodup) : (keys (keep m l)).Nodup := by
  rw [keep, keys, List.map_cons, List.nodup_cons]
  refine ⟨fun hk => ?_, h.sublist (List.filter_sublist.map _)⟩
  obtain ⟨l', hl', hkey⟩ := List.mem_map.mp hk
  exact absurd hkey (by simpa using (List.mem_filter.mp hl').2)

theorem keys_keepAll_nodup {m : List (Lit κ μ)} (ls : List (Lit κ μ)) (h : (keys m).Nodup) :
    (keys (keepAll m ls)).Nodup := by
  induction ls generalizing m with
  | nil => exact h
  | cons l ls ih => exact ih (keys_keep_nodup l h)

/-- What is kept is the last literal of its register, or it was there and no literal tests its register. -/
theorem mem_keepAll {l : Lit κ μ} {m ls : List (Lit κ μ)} : l ∈ keepAll m ls ↔
    l ∈ m ∧ l.key ∉ keys ls ∨ ∃ pre post, ls = pre ++ l :: post ∧ l.key ∉ keys post := by
  induction ls generalizing m with
  | nil => simp [keepAll, keys]
  | cons a ls ih =>
    rw [keepAll_cons, ih, mem_keep]
    simp only [List.cons_eq_append_iff, keys, List.map_cons, List.mem_cons, not_or]
    constructor
    · rintro (⟨rfl | ⟨hm, hne⟩, hls⟩ | ⟨pre, post, rfl, hpost⟩)
      · exact .inr ⟨[], ls, .inl ⟨rfl, rfl⟩, hls⟩
      · exact .inl ⟨hm, hne, hls⟩
      · exact .inr ⟨a :: pre, post, .inr ⟨pre, rfl, rfl⟩, hpost⟩
    · rintro (⟨hm, hne, hls⟩ | ⟨pre, post, ⟨rfl, h⟩ | ⟨pre', rfl, rfl⟩, hpost⟩)
      · exact .inl ⟨.inr ⟨hm, hne⟩, hls⟩
      · obtain ⟨rfl, rfl⟩ := List.cons.inj h
        exact .inl ⟨.inl rfl, hpost⟩
      · exact .inr ⟨pre', post, rfl, hpost⟩

theorem mem_of_mem_keepAll {l : Lit κ μ} {ls : List (Lit κ μ)} (h : l ∈ keepAll [] ls) : l ∈ ls := by
  obtain ⟨hm, -⟩ | ⟨pre, post, rfl, -⟩ := mem_keepAll.mp h
  · cases hm
  · simp

/-- Every register that was there, or that a literal tests, is kept. -/
theorem mem_keys_keepAll {k : κ} {m : List (Lit κ μ)} (ls : List (Lit κ μ)) (h : k ∈ keys m ∨ k ∈ keys ls) :
    k ∈ keys (keepAll m ls) := by
  induction ls generalizing m with
  | nil => exact h.resolve_right (by simp [keys])
  | cons l ls ih =>
    rw [keepAll_cons]
    apply ih
    by_cases hk : k = l.key
    · exact .inl (hk ▸ key_mem_keys (mem_keep.mpr (.inl rfl)))
    · rcases h with h | h
      · obtain ⟨l', hl', rfl⟩ := List.mem_map.mp h
        exact .inl (key_mem_keys (mem_keep.mpr (.inr ⟨hl', hk⟩)))
      · exact .inr ((List.mem_cons.mp h).resolve_left hk)

/-- The last literal of a register implies the others of that register. -/
def LastImplies (val : μ → ν) (ls : List (Lit κ μ)) : Prop :=
  ∀ pre l post, ls = pre ++ l :: post → l.key ∉ keys post → ∀ l' ∈ pre, l'.key = l.key → l.Implies val l'

theorem lastImplies_iff (val : μ → ν) {ls : List (Lit κ μ)} :
    LastImplies val ls ↔ ∀ l ∈ keepAll [] ls, ∀ l' ∈ ls, l'.key = l.key → l.Implies val l' := by
  constructor
  · intro h l hl l' hl' hkey
    obtain ⟨hm, -⟩ | ⟨pre, post, rfl, hpost⟩ := mem_keepAll.mp hl
    · cases hm
    · rcases List.mem_append.mp hl' with hl' | hl'
      · exact h pre l post rfl hpost l' hl' hkey
      · rcases List.mem_cons.mp hl' with rfl | hl'
        · exact implies_refl l'
        · exact absurd (hkey ▸ key_mem_keys hl') hpost
  · rintro h pre l post rfl hpost l' hl' hkey
    exact h l (mem_keepAll.mpr (.inr ⟨pre, post, rfl, hpost⟩)) l' (by simp [hl']) hkey

/-- **The kept literals mean what all the literals mean iff each implies the literals of its register.** -/
theorem keepAll_holds_iff (val : μ → ν) (hν : ∀ a b : ν, ∃ c, c ≠ a ∧ c ≠ b) [Nontrivial ν] (ls : List (Lit κ μ)) :
    (∀ ρ : κ → ν, (∀ l ∈ keepAll [] ls, l.Holds val ρ) ↔ ∀ l ∈ ls, l.Holds val ρ) ↔ LastImplies val ls := by
  rw [lastImplies_iff]
  constructor
  · intro h l hl l' hl' hkey
    rw [implies_iff hν]
    intro x hx
    -- the other registers hold what is kept for them, this one holds `x`
    obtain ⟨ρ, hρ⟩ := exists_holds_iff val (fun _ => True) (keys_keepAll_nodup (m := []) ls (by simp [keys]))
    have hall : ∀ l'' ∈ keepAll [] ls, l''.Holds val (Function.update ρ l.key x) := by
      intro l'' hl''
      by_cases hk : l''.key = l.key
      · have : l'' = l := List.inj_on_of_nodup_map (keys_keepAll_nodup (m := []) ls (by simp [keys])) hl'' hl hk
        simpa only [this, Lit.Holds, Function.update_self] using hx
      · simpa only [Lit.Holds, Function.update_of_ne hk] using (hρ l'' hl'').mpr trivial
    simpa only [Lit.Holds, hkey, Function.update_self] using (h _).mp hall l' hl'
  · intro h ρ
    refine ⟨fun hk l' hl' => ?_, fun ha l hl => ha l (mem_of_mem_keepAll hl)⟩
    obtain ⟨l, hl, hkey⟩ := List.mem_map.mp (mem_keys_keepAll (m := []) ls (.inr (key_mem_keys hl')))
    have := (implies_iff hν l l').mp (h l hl l' hl' hkey.symm) (ρ l.key) (hk l hl)
    simpa only [Lit.Holds, ← hkey] using this

/-- With a register in each literal of its own, the kept literals are the literals. -/
theorem lastImplies_of_nodup (val : μ → ν) {ls : List (Lit κ μ)} (hd : (keys ls).Nodup) : LastImplies val ls := by
  rw [lastImplies_iff]
  intro l hl l' hl' hkey
  have : l' = l := List.inj_on_of_nodup_map hd hl' (mem_of_mem_keepAll hl) hkey
  exact this ▸ implies_refl l'

/-- **The kept literals of a plain formula mean the formula iff each implies the literals of its register.** -/
theorem plain_holds_iff (val : μ → ν) (hν : ∀ a b : ν, ∃ c, c ≠ a ∧ c ≠ b) [Nontrivial ν] {f : Form κ μ} (hp : f.Plain true) :
    (∀ ρ : κ → ν, (∀ l ∈ keepAll [] (f.lits true), l.Holds val ρ) ↔ f.Holds val ρ) ↔ LastImplies val (f.lits true) := by
  rw [← keepAll_holds_iff val hν]
  simp only [holds_iff_evalWith, evalWith_iff_of_plain _ hp]

/-- **With a register in each test of its own, the literals mean the formula iff it is plain.** -/
theorem nodup_holds_iff (val : μ → ν) (hν : ∀ a b : ν, ∃ c, c ≠ a ∧ c ≠ b) [Nontrivial ν] {f : Form κ μ} (hf : f.Full)
    (hd : (keys (f.lits true)).Nodup) :
    (∀ ρ : κ → ν, (∀ l ∈ keepAll [] (f.lits true), l.Holds val ρ) ↔ f.Holds val ρ) ↔ f.Plain true := by
  have hlits := (keepAll_holds_iff val hν (f.lits true)).mpr (lastImplies_of_nodup val hd)
  simp only [hlits]
  exact ⟨fun h => plain_of_holds_iff hf hd fun ρ => (h ρ).symm,
    fun hp ρ => ((holds_iff_evalWith val ρ f).trans (evalWith_iff_of_plain _ hp)).symm⟩

end Valuations
end Lits
