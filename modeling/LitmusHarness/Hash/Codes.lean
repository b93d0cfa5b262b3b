import LitmusHarness.Hash.Blit
import LitmusHarness.Lib.PrefixCode

/-!
# What is blitted

Every function that blits writes a code of what it is given, or it does not return (`Writes`, `Known`). These codes can
be read from the front: strings (`encStr_prefixOn`), entries of the initial state, whose type says how their union is
coded (`encVar_prefixOn`), and the code of threads with their handlers (`encCode_prefixOn`, `known_blitThread`).
-/

namespace LitmusHarness

namespace TestHash

/-! ## Writing at the target -/

/-- The buffer with the bytes `e` from `tgt` on. -/
def splice (buf : List Byte) (tgt : Nat) (e : List Byte) : List Byte := buf.take tgt ++ e ++ buf.drop (tgt + e.length)

theorem splice_nil (buf : List Byte) (tgt : Nat) : splice buf tgt [] = buf := by simp [splice]

theorem length_splice (buf e : List Byte) (tgt : Nat) (h : tgt + e.length ≤ buf.length) :
    (splice buf tgt e).length = buf.length := by
  simp only [splice, List.length_append, List.length_take, List.length_drop]
  omega

theorem set_splice (buf e : List Byte) (tgt : Nat) (h : tgt + e.length < buf.length) (x : Byte) :
    (splice buf tgt e).set (tgt + e.length) x = splice buf tgt (e ++ [x]) := by
  have hlen : (buf.take tgt ++ e).length = tgt + e.length := by
    simp only [List.length_append, List.length_take]
    omega
  have hdrop : buf.drop (tgt + e.length) = buf[tgt + e.length] :: buf.drop (tgt + e.length + 1) :=
    List.drop_eq_getElem_cons h
  rw [splice, hdrop, List.set_append_right _ _ (by omega), hlen, Nat.sub_self, List.set_cons_zero, splice]
  simp [Nat.add_assoc]

theorem splice_splice (buf e e' : List Byte) (tgt : Nat) (h : tgt + e.length ≤ buf.length) :
    splice (splice buf tgt e) (tgt + e.length) e' = splice buf tgt (e ++ e') := by
  have hlen : (buf.take tgt ++ e).length = tgt + e.length := by
    simp only [List.length_append, List.length_take]
    omega
  have htake : (splice buf tgt e).take (tgt + e.length) = buf.take tgt ++ e := by
    rw [splice, List.take_append_of_le_length (by omega), List.take_of_length_le (by omega)]
  have hdrop : (splice buf tgt e).drop (tgt + e.length + e'.length) = buf.drop (tgt + e.length + e'.length) := by
    rw [splice, List.drop_append, hlen, List.drop_of_length_le (by omega), List.nil_append, List.drop_drop]
    congr 1
    omega
  rw [splice, htake, hdrop, splice, List.length_append, ← Nat.add_assoc, List.append_assoc, List.append_assoc,
    List.append_assoc, List.append_assoc]

/-- A loop that writes one byte after the other. -/
theorem forRange_splice {buf : List Byte} {tgt n : Nat} (g : Nat → Byte) (h : tgt + n ≤ buf.length) :
    Loop.forRange 0 n (fun i buf => buf.set (tgt + i) (g i)) buf = splice buf tgt ((List.range n).map g) := by
  refine Loop.forRange_inv (I := fun (k : Nat) (p : List Byte) => p = splice buf tgt ((List.range k).map g)) ?_
    (Nat.zero_le n) (by simp [splice_nil])
  rintro k p - hk rfl
  have := set_splice buf ((List.range k).map g) tgt (by simp; omega) (g k)
  simpa [List.range_succ] using this

theorem writeBe_splice {buf : List Byte} {tgt : Nat} (v : U32) (h : tgt + 4 ≤ buf.length) :
    writeBe buf tgt v = splice buf tgt (BitString.beBytes 4 v.toNat) := by
  rw [Hashlib.writeBe_eq, forRange_splice _ h]
  simp [BitString.beBytes, List.range_succ]

theorem writeBe64_splice {buf : List Byte} {tgt : Nat} (v : U64) (h : tgt + 8 ≤ buf.length) :
    writeBe64 buf tgt v = splice buf tgt (BitString.beBytes 8 v.toNat) := by
  rw [writeBe64]
  simp only [Hashlib.byte_eq v _ (by decide : 8 < 64)]
  rw [forRange_splice _ h]
  simp [BitString.beBytes, List.range_succ]

/-! ## What is written -/

/-- A function blits the bytes `e` into a buffer that has room for them, and a dry run counts them. -/
def Writes (f : Blit) (e : List Byte) : Prop :=
  ∀ (dry : Bool) (tgt : Nat) (buf : List Byte), ∃ buf', f dry (tgt, buf) = .ok (tgt + e.length, buf') ∧
    (dry = true → buf' = buf) ∧ (dry = false → tgt + e.length ≤ buf.length → buf' = splice buf tgt e)

/-- Where a function that blits returns, it blits the bytes that are known. -/
def Known (f : Blit) (e? : Option (List Byte)) : Prop :=
  ∀ tgt r, f false tgt = .ok r → ∃ e, e? = some e ∧ Writes f e

theorem Writes.known {f : Blit} {e : List Byte} (h : Writes f e) : Known f (some e) := fun _ _ _ => ⟨e, rfl, h⟩

theorem writes_nil : Writes (fun _ tgt => .ok tgt) [] :=
  fun _ tgt buf => ⟨buf, rfl, fun _ => rfl, fun _ _ => (splice_nil buf tgt).symm⟩

/-- A dry run from the start of a buffer. -/
theorem Writes.dryRun {f : Blit} {e : List Byte} (h : Writes f e) : f true (0, []) = .ok (e.length, []) := by
  obtain ⟨buf, hrun, hdry, -⟩ := h true 0 []
  rw [hrun, hdry rfl, Nat.zero_add]

/-- A run into a buffer of the size that the dry run counts. -/
theorem Writes.run {f : Blit} {e : List Byte} (h : Writes f e) :
    f false (0, List.replicate e.length 0) = .ok (e.length, e) := by
  obtain ⟨buf, hrun, -, hwet⟩ := h false 0 (List.replicate e.length 0)
  rw [hrun, hwet rfl (by rw [Nat.zero_add, List.length_replicate]), Nat.zero_add, splice, List.take_zero, List.nil_append,
    Nat.zero_add, List.drop_eq_nil_of_le (List.length_replicate.le), List.append_nil]

theorem Writes.seq {f g : Blit} {e e' : List Byte} (hf : Writes f e) (hg : Writes g e') :
    Writes (fun dry tgt => f dry tgt >>= g dry) (e ++ e') := by
  intro dry tgt buf
  obtain ⟨buf₁, h₁, hdry₁, hwet₁⟩ := hf dry tgt buf
  obtain ⟨buf₂, h₂, hdry₂, hwet₂⟩ := hg dry (tgt + e.length) buf₁
  refine ⟨buf₂, ?_, fun hd => (hdry₂ hd).trans (hdry₁ hd), fun hd hroom => ?_⟩
  · simp only [h₁, bind, Except.bind, h₂, List.length_append, Nat.add_assoc]
  · rw [List.length_append, ← Nat.add_assoc] at hroom
    obtain rfl := hwet₁ hd (by omega)
    rw [hwet₂ hd (by rw [length_splice buf e tgt (by omega)]; exact hroom), splice_splice buf e e' tgt (by omega)]

/-- One after the other. -/
theorem Known.seq {f g : Blit} {e? e'? : Option (List Byte)} (hf : Known f e?) (hg : Known g e'?) :
    Known (fun dry tgt => f dry tgt >>= g dry) (e?.bind fun e => e'?.map (e ++ ·)) := by
  intro tgt r h
  cases hft : f false tgt with
  | error x => simp [hft, bind, Except.bind] at h
  | ok tgt₁ =>
    simp only [hft, bind, Except.bind] at h
    obtain ⟨e, rfl, he⟩ := hf tgt tgt₁ hft
    obtain ⟨e', rfl, he'⟩ := hg tgt₁ r h
    exact ⟨e ++ e', rfl, he.seq he'⟩

/-- A loop over a list. -/
theorem Known.foldlM {α : Type} {f : α → Blit} {e? : α → Option (List Byte)} (l : List α)
    (h : ∀ a ∈ l, Known (f a) (e? a)) :
    Known (fun dry tgt => l.foldlM (fun tgt a => f a dry tgt) tgt) ((l.mapM e?).map List.flatten) := by
  induction l with
  | nil =>
    rintro tgt r -
    exact ⟨[], rfl, writes_nil⟩
  | cons a l ih =>
    intro tgt r hr
    obtain ⟨e, he, hw⟩ := (h a List.mem_cons_self).seq (ih fun b hb => h b (List.mem_cons_of_mem a hb)) tgt r hr
    refine ⟨e, ?_, hw⟩
    rw [List.mapM_cons]
    cases ha : e? a with
    | none => simp [ha] at he
    | some x =>
      cases hl : l.mapM e? with
      | none => simp [ha, hl] at he
      | some xs => simpa [ha, hl] using he

/-! ## Numbers, strings and the initial state -/

theorem beBytes_mod (n v : Nat) : BitString.beBytes n (v % 2 ^ (8 * n)) = BitString.beBytes n v := by
  apply List.ext_getElem (by simp)
  intro i h1 h2
  have hi : i < n := by simpa using h2
  rw [BitString.getElem_beBytes, BitString.getElem_beBytes]
  apply BitVec.eq_of_toNat_eq
  have hsplit : 2 ^ (8 * n) = 2 ^ (8 * (n - 1 - i)) * 2 ^ (8 * (i + 1)) := by
    rw [← Nat.pow_add]
    congr 1
    omega
  rw [BitVec.toNat_ofNat, BitVec.toNat_ofNat, hsplit, Nat.mod_mul_right_div_self, Nat.mod_mod_of_dvd]
  exact Nat.pow_dvd_pow 2 (by omega)

theorem beBytes_inj {n v v' : Nat} (h : BitString.beBytes n v = BitString.beBytes n v') :
    v % 2 ^ (8 * n) = v' % 2 ^ (8 * n) := by
  have hbits := congrArg (fun l => BitString.toNat (BitString.ofBytes l)) h
  simpa only [BitString.ofBytes_beBytes, BitString.toNat_ofNat] using hbits

/-- The code of a number of `n` bytes. -/
theorem beBytes_prefixOn (n : Nat) : PrefixCode.PrefixOn (fun v => v < 2 ^ (8 * n)) (BitString.beBytes n) :=
  .of_length (fun _ _ => BitString.length_beBytes _ n) fun a b ha hb h => by
    have := beBytes_inj h
    rwa [Nat.mod_eq_of_lt ha, Nat.mod_eq_of_lt hb] at this

theorem writes_blitInt (n : Nat) : Writes (blitInt (BitVec.ofNat 32 n)) (BitString.beBytes 4 n) := by
  intro dry tgt buf
  rw [BitString.length_beBytes]
  refine ⟨_, rfl, fun hd => if_pos hd, fun hd hroom => ?_⟩
  rw [if_neg (by simp [hd]), writeBe_splice _ hroom, BitVec.toNat_ofNat, beBytes_mod 4 n]

theorem writes_blitLong (v : U64) : Writes (blitLong v) (BitString.beBytes 8 v.toNat) := by
  intro dry tgt buf
  rw [BitString.length_beBytes]
  refine ⟨_, rfl, fun hd => if_pos hd, fun hd hroom => ?_⟩
  rw [if_neg (by simp [hd]), writeBe64_splice _ hroom]

/-- Bytes are copied if the counter reaches their number. -/
theorem writes_blit {src : List Byte} (hlen : src.length < 2 ^ 32) : Writes (blit src) src := by
  intro dry tgt buf
  cases dry with
  | true => exact ⟨buf, rfl, fun _ => rfl, fun hd => (by cases hd)⟩
  | false =>
    have hbound : (BitVec.ofNat 64 src.length).toNat = src.length := by
      rw [BitVec.toNat_ofNat]
      exact Nat.mod_eq_of_lt (by omega)
    obtain ⟨j, buf', hrun, -, hbuf'⟩ := @Hashlib.forUnsigned_total (List Byte)
      (fun k buf' => tgt + src.length ≤ buf.length → buf' = splice buf tgt (src.take k)) (BitVec.ofNat 64 src.length)
      (fun i buf => .ok (buf.set (tgt + i.toNat) (src.getD i.toNat 0))) 0 buf (by omega) (by simp) (by
        intro t p _ ht hp
        rw [hbound] at ht
        refine ⟨_, rfl, fun hroom => ?_⟩
        have htake : (src.take t.toNat).length = t.toNat := by simp; omega
        have := set_splice buf (src.take t.toNat) tgt (by omega) (src.getD t.toNat 0)
        rw [htake] at this
        rw [hp hroom, this, List.take_add_one, List.getD_eq_getElem _ _ ht, List.getElem?_eq_getElem ht]
        rfl) (by simp [splice_nil])
    rw [hbound, List.take_length] at hbuf'
    exact ⟨buf', by simp only [blit, Bool.false_eq_true, if_false, hrun], fun hd => (by cases hd), fun _ => hbuf'⟩

/-- Bytes that are too many for the counter are never copied. -/
theorem known_blit {src : List Byte} (hfits : src.length < 2 ^ 64) :
    Known (blit src) (if src.length < 2 ^ 32 then some src else none) := by
  intro tgt r h
  by_cases hlen : src.length < 2 ^ 32
  · exact ⟨src, if_pos hlen, writes_blit hlen⟩
  · obtain ⟨tgt, buf⟩ := tgt
    simp only [blit, Bool.false_eq_true, if_false] at h
    split at h
    · rename_i j buf' hrun
      have hcond := (Loop.whileM_ok (I := fun _ => True) (fun _ _ _ _ _ => trivial) _ _ _ trivial hrun).2
      have hbound : (BitVec.ofNat 64 src.length).toNat = src.length := by
        rw [BitVec.toNat_ofNat]
        exact Nat.mod_eq_of_lt hfits
      simp only [decide_eq_false_iff_not, BitVec.lt_def, BitVec.toNat_setWidth, hbound] at hcond
      have := j.isLt
      have := Nat.mod_eq_of_lt (show j.toNat < 2 ^ 64 by omega)
      omega
    · cases h

/-- The code of a string. -/
def encStr (s : Option CStr) : List Byte :=
  let s := s.getD (cstr "<NULL>".toList)
  BitString.beBytes 4 s.length ++ s

/-- A string that is there, of less than 2^32 bytes. -/
def StrOk (s : Option CStr) : Prop := ∃ x, s = some x ∧ x.length < 2 ^ 32

/-- A string is cut off where its length is. -/
theorem writes_blitStr_take (s : Option CStr) : Writes (blitStr s)
    (BitString.beBytes 4 (s.getD (cstr "<NULL>".toList)).length ++
      (s.getD (cstr "<NULL>".toList)).take ((s.getD (cstr "<NULL>".toList)).length % 2 ^ 32)) := by
  have hlen := (BitVec.ofNat 32 (s.getD (cstr "<NULL>".toList)).length).isLt
  have hwrites := (writes_blitInt (s.getD (cstr "<NULL>".toList)).length).seq
    (@writes_blit ((s.getD (cstr "<NULL>".toList)).take (BitVec.ofNat 32 (s.getD (cstr "<NULL>".toList)).length).toNat)
      (by rw [List.length_take]; omega))
  rw [BitVec.toNat_ofNat] at hwrites
  exact hwrites

theorem writes_blitStr {s : Option CStr} (h : StrOk s) : Writes (blitStr s) (encStr s) := by
  obtain ⟨x, rfl, hx⟩ := h
  have hwrites := writes_blitStr_take (some x)
  rw [Option.getD_some, Nat.mod_eq_of_lt hx, List.take_length] at hwrites
  exact hwrites

theorem encStr_prefixOn : PrefixCode.PrefixOn StrOk encStr := by
  rintro _ _ s t ⟨x, rfl, hx⟩ ⟨y, rfl, hy⟩ h
  simp only [encStr, Option.getD_some, List.append_assoc] at h
  obtain ⟨hlen, hrest⟩ := beBytes_prefixOn 4 _ _ _ _ hx hy h
  obtain ⟨rfl, hst⟩ := List.append_inj hrest hlen
  exact ⟨rfl, hst⟩

/-- The names of an enumeration are short and differ. -/
structure Names {τ : Type} (toStr : τ → String) : Prop where
  short : ∀ x, (cstr (toStr x).toList).length < 2 ^ 32
  inj : ∀ x y, cstr (toStr x).toList = cstr (toStr y).toList → x = y

theorem Names.strOk {τ : Type} {toStr : τ → String} (h : Names toStr) (x : τ) : StrOk (some (cstr (toStr x).toList)) :=
  ⟨_, rfl, h.short x⟩

/-- The code of an enumeration by its names. -/
theorem Names.prefixOn {τ : Type} {toStr : τ → String} (h : Names toStr) :
    PrefixCode.PrefixOn (fun _ => True) (fun x => encStr (some (cstr (toStr x).toList))) :=
  encStr_prefixOn.comp (fun x _ => h.strOk x) fun x y _ _ heq => h.inj x y (Option.some.inj heq)

theorem initType_names : Names initTypeToStr where
  short x := by cases x <;> decide
  inj x y := by cases x <;> cases y <;> decide

theorem protType_names : Names protTypeToStr where
  short x := by cases x <;> decide
  inj x y := by cases x <;> cases y <;> decide

theorem pinLevel_names : Names pinLevelToStr where
  short x := by cases x <;> decide
  inj x y := by cases x <;> cases y <;> decide

theorem relOffset_names : Names relOffsetToStr where
  short x := by cases x <;> decide
  inj x y := by cases x <;> cases y <;> decide

theorem ownLevel_names : Names ownLevelToStr where
  short x := by cases x <;> decide
  inj x y := by cases x <;> cases y <;> decide

/-- The code of the union of an entry. -/
def encValue : InitValue → List Byte
  | .unmapped | .identityMap => []
  | .heap value | .pte value | .mair value | .fix value => BitString.beBytes 8 value.toNat
  | .alias aliasname => encStr aliasname
  | .attrs protType attrValue =>
    encStr (some (cstr (protTypeToStr protType).toList)) ++ BitString.beBytes 8 attrValue.toNat
  | .regionPin pinnedVarName pinnedLevel =>
    encStr pinnedVarName ++ encStr (some (cstr (pinLevelToStr pinnedLevel).toList))
  | .regionOffset offsetVarName offsetLevel =>
    encStr offsetVarName ++ encStr (some (cstr (relOffsetToStr offsetLevel).toList))
  | .regionOwn ownershipLevel => encStr (some (cstr (ownLevelToStr ownershipLevel).toList))

/-- The strings in the union of an entry are there. -/
def InitValue.Ok : InitValue → Prop
  | .alias s | .regionPin s _ | .regionOffset s _ => StrOk s
  | _ => True

theorem writes_blitValue {v : InitValue} (h : v.Ok) : Writes (blitValue v) (encValue v) := by
  cases v with
  | heap x | pte x | fix x | mair x => exact writes_blitLong x
  | unmapped | identityMap => exact writes_nil
  | «alias» s => exact writes_blitStr h
  | attrs p x => exact (writes_blitStr (protType_names.strOk p)).seq (writes_blitLong x)
  | regionOwn l => exact writes_blitStr (ownLevel_names.strOk l)
  | regionPin s l => exact (writes_blitStr h).seq (writes_blitStr (pinLevel_names.strOk l))
  | regionOffset s l => exact (writes_blitStr h).seq (writes_blitStr (relOffset_names.strOk l))

theorem beBytes_long_prefixOn : PrefixCode.PrefixOn (fun _ => True) (fun v : U64 => BitString.beBytes 8 v.toNat) :=
  (beBytes_prefixOn 8).comp (fun v _ => v.isLt) fun _ _ _ _ h => BitVec.eq_of_toNat_eq h

/-- Among the entries of one type the union can be read back. -/
theorem encValue_prefixOn (k : InitType) : PrefixCode.PrefixOn (fun v : InitValue => v.Ok ∧ v.type = k) encValue := by
  rintro a b s t ⟨ha, rfl⟩ ⟨hb, hk⟩ h
  cases a with
  | heap x | pte x | fix x | mair x =>
    cases b <;> simp only [InitValue.type, reduceCtorEq] at hk
    obtain ⟨rfl, hst⟩ := beBytes_long_prefixOn _ _ _ _ trivial trivial h
    exact ⟨rfl, hst⟩
  | unmapped | identityMap =>
    cases b <;> simp only [InitValue.type, reduceCtorEq] at hk
    exact ⟨rfl, h⟩
  | «alias» x =>
    cases b <;> simp only [InitValue.type, reduceCtorEq] at hk
    obtain ⟨rfl, hst⟩ := encStr_prefixOn _ _ _ _ ha hb h
    exact ⟨rfl, hst⟩
  | attrs p x =>
    cases b <;> simp only [InitValue.type, reduceCtorEq] at hk
    simp only [encValue, List.append_assoc] at h
    obtain ⟨rfl, hrest⟩ := protType_names.prefixOn _ _ _ _ trivial trivial h
    obtain ⟨rfl, hst⟩ := beBytes_long_prefixOn _ _ _ _ trivial trivial hrest
    exact ⟨rfl, hst⟩
  | regionOwn l =>
    cases b <;> simp only [InitValue.type, reduceCtorEq] at hk
    obtain ⟨rfl, hst⟩ := ownLevel_names.prefixOn _ _ _ _ trivial trivial h
    exact ⟨rfl, hst⟩
  | regionPin x l =>
    cases b <;> simp only [InitValue.type, reduceCtorEq] at hk
    simp only [encValue, List.append_assoc] at h
    obtain ⟨rfl, hrest⟩ := encStr_prefixOn _ _ _ _ ha hb h
    obtain ⟨rfl, hst⟩ := pinLevel_names.prefixOn _ _ _ _ trivial trivial hrest
    exact ⟨rfl, hst⟩
  | regionOffset x l =>
    cases b <;> simp only [InitValue.type, reduceCtorEq] at hk
    simp only [encValue, List.append_assoc] at h
    obtain ⟨rfl, hrest⟩ := encStr_prefixOn _ _ _ _ ha hb h
    obtain ⟨rfl, hst⟩ := relOffset_names.prefixOn _ _ _ _ trivial trivial hrest
    exact ⟨rfl, hst⟩

/-- The code of an entry of the initial state. -/
def encVar (st : VarState) : List Byte :=
  encStr st.varname ++ (encStr (some (cstr (initTypeToStr st.value.type).toList)) ++ encValue st.value)

/-- The names of an entry are there. -/
def VarState.Ok (st : VarState) : Prop := StrOk st.varname ∧ st.value.Ok

theorem writes_blitVarstate {st : VarState} (h : st.Ok) : Writes (blitVarstate st) (encVar st) :=
  (writes_blitStr h.1).seq ((writes_blitStr (initType_names.strOk _)).seq (writes_blitValue h.2))

/-- An entry can be read back: its type says how its union is coded. -/
theorem encVar_prefixOn : PrefixCode.PrefixOn VarState.Ok encVar := by
  have hvalue : PrefixCode.PrefixOn InitValue.Ok
      (fun v => encStr (some (cstr (initTypeToStr v.type).toList)) ++ encValue v) :=
    initType_names.prefixOn.bind InitValue.type (fun _ _ => trivial) encValue_prefixOn
  exact encStr_prefixOn.append hvalue (fun _ h => h.1) (fun _ h => h.2) fun a b h1 h2 => by
    obtain ⟨x, v⟩ := a
    obtain ⟨y, w⟩ := b
    exact congrArg₂ VarState.mk h1 h2

/-! ## Code -/

/-- The code between the first two hints. -/
def hintCode (code : List U32) : Option (List U32) := do
  let i ← code.findIdx? (· = opcodeLitmusHint)
  let len ← (code.drop (i + 1)).findIdx? (· = opcodeLitmusHint)
  return (code.drop (i + 1)).take len

/-- The code up to the first return. -/
def nohintCode (code : List U32) : Option (List U32) :=
  (code.findIdx? (· = opcodeRet)).map fun i => code.take (i + 1)

/-- The code that is extracted: between hints, if a hint comes before a return, and up to the return otherwise. There
is none where the code is malformed or too long to be copied. -/
def extractCode : Code → Option (List U32)
  | none => some []
  | some code =>
    (firstMark code.words).bind fun instr =>
      (if instr = opcodeLitmusHint then hintCode code.words else nohintCode code.words).filter fun c => c.length < 2 ^ 30

/-- The code of extracted code. -/
def encCode (c : List U32) : List Byte := BitString.beBytes 4 c.length ++ c.flatMap leBytes

theorem length_leBytes (c : List U32) : (c.flatMap leBytes).length = 4 * c.length := by
  induction c with
  | nil => rfl
  | cons w c ih =>
    rw [List.flatMap_cons, List.length_append, ih, List.length_cons]
    simp only [leBytes, List.length_cons, List.length_nil]
    omega

theorem leBytes_prefixOn : PrefixCode.PrefixOn (fun _ => True) leBytes := by
  refine .of_length (n := 4) (fun _ _ => rfl) fun a b _ _ h => ?_
  simp only [leBytes, List.cons.injEq, and_true] at h
  bv_omega

/-- A number of instructions and the instructions are blitted. -/
theorem known_blitCode {c : List U32} (hfits : c.length < 2 ^ 62) :
    Known (fun dry tgt => blitInt (BitVec.ofNat 32 c.length) dry tgt >>= blit (c.flatMap leBytes) dry)
      (if c.length < 2 ^ 30 then some (encCode c) else none) := by
  have h := (writes_blitInt c.length).known.seq (@known_blit (c.flatMap leBytes) (by rw [length_leBytes]; omega))
  rw [length_leBytes] at h
  by_cases hlt : c.length < 2 ^ 30
  · rw [if_pos (by omega)] at h
    rw [if_pos hlt]
    exact h
  · rw [if_neg (by omega)] at h
    rw [if_neg hlt]
    exact h

theorem known_hint {code : List U32} (hfits : code.length < 2 ^ 62) : Known (blitThreadCodeHint code)
    ((hintCode code).bind fun c => if c.length < 2 ^ 30 then some (encCode c) else none) := by
  unfold blitThreadCodeHint hintCode
  cases hi : code.findIdx? (· = opcodeLitmusHint) with
  | none =>
    intro tgt r h
    cases h
  | some i =>
    cases hl : (code.drop (i + 1)).findIdx? (· = opcodeLitmusHint) with
    | none =>
      intro tgt r h
      simp [hl] at h
    | some len =>
      have hlen : len < (code.drop (i + 1)).length := (List.findIdx?_eq_some_iff_getElem.mp hl).1
      have htake : ((code.drop (i + 1)).take len).length = len := by simp only [List.length_take]; omega
      have h := @known_blitCode ((code.drop (i + 1)).take len)
        (by rw [List.length_drop] at hlen; omega)
      rw [htake] at h
      simpa [hl, htake] using h

theorem known_nohint {code : List U32} (hfits : code.length < 2 ^ 62) : Known (blitThreadCodeNohint code)
    ((nohintCode code).bind fun c => if c.length < 2 ^ 30 then some (encCode c) else none) := by
  unfold blitThreadCodeNohint nohintCode
  cases hi : code.findIdx? (· = opcodeRet) with
  | none =>
    intro tgt r h
    cases h
  | some i =>
    have hlen : i < code.length := (List.findIdx?_eq_some_iff_getElem.mp hi).1
    have htake : (code.take (i + 1)).length = i + 1 := by simp only [List.length_take]; omega
    have h := @known_blitCode (code.take (i + 1)) (by omega)
    rw [htake] at h
    simpa [htake] using h

/-- Code without a mark in its first page is malformed. -/
theorem blitThreadCode_malformed (test : Test) {code : Instrs} (n : Nat) (name : String)
    (hfind : firstMark code.words = none) :
    blitThreadCode test (some code) n name = fun _ _ => .error (.malformed test.name n name) := by
  funext dry tgt
  simp [blitThreadCode, threadCodeHasHint, hfind, bind, Except.bind]

/-- The first mark decides how code is extracted. -/
theorem blitThreadCode_firstMark (test : Test) {code : Instrs} (n : Nat) (name : String) {instr : U32}
    (hfind : firstMark code.words = some instr) : blitThreadCode test (some code) n name =
      if instr = opcodeLitmusHint then blitThreadCodeHint code.words else blitThreadCodeNohint code.words := by
  funext dry tgt
  by_cases hint : instr = opcodeLitmusHint <;>
    simp [blitThreadCode, threadCodeHasHint, hfind, hint, bind, Except.bind]

theorem known_blitThreadCode (test : Test) (code : Code) (n : Nat) (name : String) :
    Known (blitThreadCode test code n name) ((extractCode code).map encCode) := by
  cases code with
  | none => exact (writes_blitInt 0).known
  | some code =>
    have hguard (c? : Option (List U32)) : (c?.filter fun c => c.length < 2 ^ 30).map encCode =
        c?.bind fun c => if c.length < 2 ^ 30 then some (encCode c) else none := by
      cases c? with
      | none => rfl
      | some c =>
        simp only [Option.filter, Option.bind_some, decide_eq_true_eq]
        split <;> rfl
    cases hfind : firstMark code.words with
    | none =>
      intro tgt r h
      rw [blitThreadCode_malformed test n name hfind] at h
      cases h
    | some instr =>
      rw [blitThreadCode_firstMark test n name hfind]
      by_cases hint : instr = opcodeLitmusHint
      · have hcode : (extractCode (some code)).map encCode =
            (hintCode code.words).bind fun c => if c.length < 2 ^ 30 then some (encCode c) else none := by
          rw [← hguard]
          simp [extractCode, hfind, hint]
        rw [if_pos hint, hcode]
        exact known_hint code.fits
      · have hcode : (extractCode (some code)).map encCode =
            (nohintCode code.words).bind fun c => if c.length < 2 ^ 30 then some (encCode c) else none := by
          rw [← hguard]
          simp [extractCode, hfind, hint]
        rw [if_neg hint, hcode]
        exact known_nohint code.fits

theorem extractCode_length {code : Code} {c : List U32} (h : extractCode code = some c) : c.length < 2 ^ 30 := by
  cases code with
  | none =>
    obtain rfl := Option.some.inj h
    decide
  | some code =>
    simp only [extractCode, Option.bind_eq_some_iff, Option.filter_eq_some_iff, decide_eq_true_eq] at h
    obtain ⟨-, -, -, hlt⟩ := h
    exact hlt

/-- Extracted code that can be copied. -/
def CodeOk (c : List U32) : Prop := c.length < 2 ^ 30

theorem encCode_prefixOn : PrefixCode.PrefixOn CodeOk encCode :=
  ((beBytes_prefixOn 4).counted leBytes_prefixOn).mono fun _ h => ⟨Nat.lt_trans h (by decide), fun _ _ => trivial⟩

/-! ## Threads -/

/-- The code that is extracted of the handlers of a thread. -/
def extractHandlers (test : Test) (t : Nat) : Option (List (List U32)) :=
  match test.threadSyncHandlers with
  | none => some []
  | some handlers => do
    let (el0, el1) ← handlers[t]?
    let c0 ← extractCode el0
    let c1 ← extractCode el1
    return [c0, c1]

/-- The code that is extracted of a thread and of its handlers. -/
def extractThread (test : Test) (thread : Code × Nat) : Option (List U32 × List (List U32)) := do
  let c ← extractCode thread.1
  let handlers ← extractHandlers test thread.2
  return (c, handlers)

/-- The code of the extracted handlers. -/
def encHandlers (handlers : List (List U32)) : List Byte :=
  BitString.beBytes 4 handlers.length ++ handlers.flatMap encCode

/-- The code of an extracted thread. -/
def encThread (thread : List U32 × List (List U32)) : List Byte := encCode thread.1 ++ encHandlers thread.2

theorem known_blitThreadHandlers (test : Test) (t : Nat) :
    Known (blitThreadHandlers test t) ((extractHandlers test t).map encHandlers) := by
  unfold blitThreadHandlers extractHandlers
  cases test.threadSyncHandlers with
  | none => exact (writes_blitInt 0).known
  | some handlers =>
    cases ht : handlers[t]? with
    | none =>
      intro tgt r h
      simp [ht] at h
    | some h =>
      obtain ⟨el0, el1⟩ := h
      have h := (writes_blitInt 2).known.seq ((known_blitThreadCode test el0 t "EL0 handler").seq
        (known_blitThreadCode test el1 t "EL1 handler"))
      have henc : (((some (el0, el1)).bind fun h => (extractCode h.1).bind fun c0 => (extractCode h.2).bind fun c1 =>
          some [c0, c1]).map encHandlers) = (some (BitString.beBytes 4 2)).bind fun e =>
            (((extractCode el0).map encCode).bind fun e => ((extractCode el1).map encCode).map (e ++ ·)).map (e ++ ·) := by
        cases h0 : extractCode el0 <;> cases h1 : extractCode el1 <;> simp [h0, h1, encHandlers]
      simp only [ht]
      exact henc ▸ h

theorem known_blitThread (test : Test) (thread : Code × Nat) :
    Known (blitThread test thread) ((extractThread test thread).map encThread) := by
  have h := (known_blitThreadCode test thread.1 thread.2 "code").seq (known_blitThreadHandlers test thread.2)
  have henc : (extractThread test thread).map encThread = ((extractCode thread.1).map encCode).bind fun e =>
      ((extractHandlers test thread.2).map encHandlers).map (e ++ ·) := by
    unfold extractThread
    cases h0 : extractCode thread.1 <;> cases h1 : extractHandlers test thread.2 <;> simp [encThread]
  rw [henc]
  exact h

/-! ## The final condition fits into its buffer -/

section Room

open Fixed (Stream sputc)

theorem sputc_room {out out' : Stream} {c : Char} (h : sputc out c = .ok out') :
    out'.text.length + out'.rem = out.text.length + out.rem := by
  unfold sputc at h
  split at h
  · cases h
  · obtain rfl := Except.ok.inj h
    simp only [List.length_append, List.length_cons, List.length_nil]
    omega

theorem sprintf_room {out out' : Stream} {text : List Char} (h : sprintf out text = .ok out') :
    out'.text.length + out'.rem = out.text.length + out.rem := by
  unfold sprintf at h
  cases hf : text.foldlM sputc out with
  | error e => simp [hf, bind, Except.bind] at h
  | ok out₁ =>
    have hroom : out₁.text.length + out₁.rem = out.text.length + out.rem :=
      Loop.foldlM_inv (I := fun o => o.text.length + o.rem = out.text.length + out.rem)
        (fun _ _ _ _ hI hs => (sputc_room hs).trans hI) rfl hf
    cases hs : sputc out₁ '\x00' with
    | error e => simp [hf, hs, bind, Except.bind] at h
    | ok _ =>
      simp only [hf, hs, bind, Except.bind, pure, Except.pure, Except.ok.injEq] at h
      exact h ▸ hroom

theorem sprintReg_room {out out' : Stream} {regName : List Char} (h : sprintReg out regName = .ok out') :
    out'.text.length + out'.rem = out.text.length + out.rem := by
  unfold sprintReg at h
  cases hg : extractGpr regName with
  | error e => simp [hg, bind, Except.bind] at h
  | ok gpr =>
    cases gpr with
    | none =>
      simp only [hg, bind, Except.bind] at h
      exact sprintf_room h
    | some p =>
      simp only [hg, bind, Except.bind] at h
      exact sprintf_room h

theorem sprintfIf_room {cond : Bool} {out out' : Stream} {text : List Char} (h : sprintfIf cond out text = .ok out') :
    out'.text.length + out'.rem = out.text.length + out.rem := by
  unfold sprintfIf at h
  split at h
  · exact sprintf_room h
  · rw [Except.ok.inj h]

theorem sprintfResult_room {regNames : List (List Char)} {result : List U64} {out out' : Stream}
    (h : sprintfResult regNames result out = .ok out') : out'.text.length + out'.rem = out.text.length + out.rem := by
  refine Loop.foldlM_inv (I := fun o => o.text.length + o.rem = out.text.length + out.rem) ?_ rfl h
  rintro ⟨regName, i⟩ - o o' hI hs
  dsimp only at hs
  obtain ⟨o₁, h₁, hs⟩ := Loop.bind_ok hs
  obtain ⟨o₂, h₂, hs⟩ := Loop.bind_ok hs
  have hroom := (sprintReg_room h₂).trans ((sprintfIf_room h₁).trans hI)
  cases hv : result[i]? with
  | none => simp [hv] at hs
  | some v =>
    simp only [hv] at hs
    exact (sprintf_room hs).trans hroom

/-- The final condition has less than 2^32 bytes. -/
theorem finalCond_length {garbage : CStr} (hgarbage : garbage.length < 2 ^ 32) {test : Test} {s : CStr}
    (h : finalCond garbage test = .ok s) : s.length < 2 ^ 32 := by
  unfold finalCond at h
  obtain ⟨out, hout, hs⟩ := Loop.bind_ok h
  have hroom : out.text.length + out.rem = 1024 := by
    unfold printFinalCond at hout
    dsimp only at hout
    split at hout
    · refine Loop.foldlM_inv (I := fun o => o.text.length + o.rem = 1024) ?_ rfl hout
      rintro ⟨result, r⟩ - o o' hI hr
      dsimp only at hr
      obtain ⟨o₁, h₁, hr⟩ := Loop.bind_ok hr
      obtain ⟨o₂, h₂, hr⟩ := Loop.bind_ok hr
      obtain ⟨o₃, h₃, hr⟩ := Loop.bind_ok hr
      exact (sprintfIf_room hr).trans ((sprintfResult_room h₃).trans ((sprintfIf_room h₂).trans ((sprintfIf_room h₁).trans hI)))
    · exact sprintfResult_room hout
  obtain rfl := Except.ok.inj hs
  split
  · exact hgarbage
  · rw [cstr, List.length_map]
    omega

end Room

end TestHash

end LitmusHarness
