import PicoRuby.Json.Denotation
import PicoRuby.Json.Value

/-!
# Parsing what was generated

`tr` turns a quote and a backslash into a bare quote, so `JSON.generate` followed by
`JSON.parse` gives the value back when no String in it has one of the two, and a
`true` or `false` at the top is not written as a String at all.
-/

namespace PicoRuby.Json

open Shared

set_option autoImplicit false

/-! ## What the generator writes -/

theorem trChar_eq (c : Char) :
    trChar (trCharacters "\"\\".toList) (trCharacters "\"\"\\\\".toList) c =
      if isPlain c then c else '"' := by
  change (if c = '"' then '"' else if c = '\\' then '"' else c) = _
  by_cases hq : c = '"'
  · subst hq
    rfl
  · by_cases hb : c = '\\'
    · subst hb
      rfl
    · simp [isPlain, hq, hb]

def PlainText (s : Text) : Prop := ∀ c ∈ s, isPlain c = true

theorem generateString_plain {s : Text} (h : PlainText s) :
    generateString s = '"' :: (s ++ ['"']) := by
  have hid : s.map (trChar (trCharacters "\"\\".toList) (trCharacters "\"\"\\\\".toList)) = s := by
    refine (List.map_congr_left ?_).trans s.map_id
    intro c hc
    rw [trChar_eq, if_pos (h c hc), id]
  rw [generateString, tr, hid]

def NoBackslash (s : Text) : Prop := ∀ c ∈ s, c ≠ '\\'

instance (s : Text) : Decidable (NoBackslash s) := List.decidableBAll (· ≠ '\\') s

theorem generateString_noBackslash (s : Text) : NoBackslash (generateString s) := by
  intro c hc
  rw [generateString, List.mem_cons, List.mem_append, List.mem_singleton] at hc
  rcases hc with rfl | hc | rfl
  · decide
  · obtain ⟨a, _, rfl⟩ := List.mem_map.mp hc
    rw [trChar_eq]
    split
    · exact (isPlain_ne ‹_›).2
    · decide
  · decide

theorem isDigit_of_mem_toDigits {n : Nat} {c : Char} (h : c ∈ Nat.toDigits 10 n) :
    isDigit c = true := by
  have hd : c.isDigit = true := Nat.isDigit_of_mem_toDigits (by decide) (by decide) h
  have hrange : 48 ≤ c.val ∧ c.val ≤ 57 := by simpa [Char.isDigit] using hd
  rw [isDigit, Bool.and_eq_true, decide_eq_true_iff, decide_eq_true_iff]
  exact hrange

/-- The digits of `Integer#to_s`. -/
def natDigits (n : Nat) : Digits where
  chars := Nat.toDigits 10 n
  digit _ := isDigit_of_mem_toDigits

/-- The literal that `Integer#to_s` writes. -/
def intNumber (i : Int) : Number := 
  ⟨i < 0, natDigits i.natAbs, none, none, Or.inr Nat.toDigits_ne_nil⟩

theorem intNumber_render (i : Int) : (intNumber i).render = integerToS i := by
  by_cases hneg : i < 0
  · simp [Number.render, Number.sign, Number.fractionText, Number.exponentText, intNumber,
      integerToS, hneg, natDigits]
  · simp [Number.render, Number.sign, Number.fractionText, Number.exponentText, intNumber,
      integerToS, hneg, natDigits]

theorem intNumber_value {F : Type} [FloatArith F] (i : Int) :
    (intNumber i).value = (.int i : Value F) := by
  have hvalue : parseInteger (intNumber i).render = i := by
    have hpos := parseInteger_unsigned (d := natDigits i.natAbs) Nat.toDigits_ne_nil
    have hneg := parseInteger_negative (natDigits i.natAbs)
    have hdigits : Nat.ofDigitChars 10 (natDigits i.natAbs).chars 0 = i.natAbs :=
      Nat.ofDigitChars_ten_toDigits
    rw [hdigits] at hpos hneg
    rw [intNumber_render, integerToS]
    split
    · exact hneg.trans (by omega)
    · exact hpos.trans (by omega)
  rw [Number.value, hvalue]
  rfl

theorem exists_literal {s : Text} (h : PlainText s) :
    ∃ lit : StrLit, lit.render = s ∧ lit.denote = s := by
  induction s with
  | nil => exact ⟨[], rfl, rfl⟩
  | cons c s ih =>
    obtain ⟨lit, hrender, hdenote⟩ := ih fun a ha => h a (List.mem_cons_of_mem _ ha)
    refine ⟨.char c (h c List.mem_cons_self) :: lit, ?_, ?_⟩
    · exact congrArg (c :: ·) hrender
    · exact congrArg (c :: ·) hdenote

section Domain
variable {F : Type}

def Value.noFloat : Value F → Prop
  | .float _ => False
  | _ => True

/-- No String and no key at this node has a quote or a backslash. -/
def Value.plainNode : Value F → Prop
  | .string s => PlainText s
  | .object l => ∀ kv ∈ l, PlainText kv.1
  | _ => True

/-- What the round trip is about: values without a Float. -/
structure Datum (F : Type) where
  value : Value F
  noFloat : value.Every Value.noFloat
  distinctKeys : value.Every Value.distinctKeys

/-- What the generated text of a value relies on. -/
structure Value.Writable (v : Value F) : Prop where
  noFloat : v.noFloat
  plain : v.plainNode
  distinctKeys : v.distinctKeys

theorem not_mem_of_nodup {acc l : List (Text × Value F)} {k : Text} {v : Value F}
    (h : ((acc ++ (k, v) :: l).map Prod.fst).Nodup) : k ∉ acc.map Prod.fst := by
  rw [List.map_append, List.nodup_append] at h
  intro hmem
  exact h.2.2 k hmem k List.mem_cons_self rfl

end Domain

section Documents
variable {F : Type} [FloatArith F] [FloatText F]

mutual

/-- The generated text of a value is a text of the grammar that denotes the value. -/
theorem Value.exists_doc : (v : Value F) → v.Every Value.Writable →
    ∃ d : Doc, d.render = (generate v).toS ∧ d.value = v
  | .null, _ => ⟨.null, by rw [Doc.render, generate]; rfl, by rw [Doc.value]⟩
  | .bool b, _ => ⟨.bool b, by rw [Doc.render, generate]; rfl, by rw [Doc.value]⟩
  | .int i, _ => by
    refine ⟨.number (intNumber i), ?_, ?_⟩
    · rw [Doc.render, intNumber_render, generate]
      rfl
    · rw [Doc.value, intNumber_value]
  | .float x, h => False.elim h.node.noFloat
  | .string s, h => by
    have hplain : PlainText s := h.node.plain
    obtain ⟨lit, hrender, hdenote⟩ := exists_literal hplain
    refine ⟨.string lit, ?_, ?_⟩
    · rw [Doc.render, hrender, generate, generateString_plain hplain]
      rfl
    · rw [Doc.value, hdenote]
  | .array [], _ => ⟨.emptyArray [], by rw [Doc.render, generate]; rfl, by rw [Doc.value]⟩
  | .array (v :: l), h => by
    obtain ⟨es, hbefore, hbody, hvalues⟩ := Elements.exists_elems (v :: l) (List.cons_ne_nil _ _) h.2
    refine ⟨.array es, ?_, ?_⟩
    · rw [Doc.render, hbefore, hbody, generate]
      rfl
    · rw [Doc.value, hvalues]
  | .object [], _ => ⟨.emptyObject [], by rw [Doc.render, generate]; rfl, by rw [Doc.value]⟩
  | .object ((k, v) :: l), h => by
    obtain ⟨ms, hbefore, hbody, hadd⟩ :=
      Members.exists_members ((k, v) :: l) (List.cons_ne_nil _ _) h.2 h.node.plain
    refine ⟨.object ⟨'"', rfl⟩ (by decide) ms, ?_, ?_⟩
    · rw [Doc.render, hbefore, generate, ← hbody]
      rfl
    · rw [Doc.value, hadd [] h.node.distinctKeys]
      rfl

theorem Elements.exists_elems : (l : List (Value F)) → l ≠ [] → EveryElement Value.Writable l →
    ∃ es : Elems, es.before = [] ∧ es.body = join (generateElements l) ∧ es.values = l
  | [v], _, h => by
    obtain ⟨d, hrender, hvalue⟩ := Value.exists_doc v h.1
    refine ⟨.last [] d [], rfl, ?_, ?_⟩
    · rw [Elems.body, hrender]
      exact List.append_nil _
    · rw [Elems.values, hvalue]
  | v :: v' :: l, _, h => by
    obtain ⟨d, hrender, hvalue⟩ := Value.exists_doc v h.1
    obtain ⟨es, hbefore, hbody, hvalues⟩ :=
      Elements.exists_elems (v' :: l) (List.cons_ne_nil _ _) h.2
    refine ⟨.cons [] d [] es, rfl, ?_, ?_⟩
    · rw [Elems.body, hrender, hbefore, hbody]
      rfl
    · rw [Elems.values, hvalue, hvalues]

theorem Members.exists_members : (l : List (Text × Value F)) → l ≠ [] →
    EveryMember Value.Writable l → (∀ kv ∈ l, PlainText kv.1) →
    ∃ ms : Members, ms.before = [] ∧ '"' :: ms.body = join (generateMembers l) ∧
      ∀ acc : List (Text × Value F), ((acc ++ l).map Prod.fst).Nodup → ms.addTo acc = acc ++ l
  | [(k, v)], _, h, hplain => by
    obtain ⟨d, hrender, hvalue⟩ := Value.exists_doc v h.1
    have hk : PlainText k := hplain _ List.mem_cons_self
    obtain ⟨lit, hlit, hdenote⟩ := exists_literal hk
    refine ⟨.last ⟨[], lit, [], []⟩ d [], rfl, ?_, ?_⟩
    · rw [Members.body, Name.body, hlit, hrender]
      simp [Ws.render, join, generateMembers, generateString_plain hk]
    · intro acc hnodup
      rw [Members.addTo, hdenote, hvalue, hashSet_of_not_mem (not_mem_of_nodup hnodup)]
  | (k, v) :: kv' :: l, _, h, hplain => by
    obtain ⟨d, hrender, hvalue⟩ := Value.exists_doc v h.1
    have hk : PlainText k := hplain _ List.mem_cons_self
    obtain ⟨lit, hlit, hdenote⟩ := exists_literal hk
    obtain ⟨ms, hbefore, hbody, hadd⟩ := Members.exists_members (kv' :: l) (List.cons_ne_nil _ _) h.2
      fun kv hkv => hplain kv (List.mem_cons_of_mem _ hkv)
    refine ⟨.cons ⟨[], lit, [], []⟩ d [] ⟨'"', rfl⟩ ms, rfl, ?_, ?_⟩
    · rw [Members.body, Name.body, hlit, hrender, hbefore]
      dsimp only
      rw [show Ws.render [] = [] from rfl, List.nil_append, hbody]
      simp [join, generateMembers, generateString_plain hk]
    · intro acc hnodup
      rw [Members.addTo, hdenote, hvalue, hashSet_of_not_mem (not_mem_of_nodup hnodup),
        hadd _ (by simpa using hnodup), List.append_assoc]
      rfl

end

end Documents

/-! ## Texts without a backslash -/

theorem NoBackslash.append {s t : Text} : NoBackslash (s ++ t) ↔ NoBackslash s ∧ NoBackslash t := by
  simp only [NoBackslash, List.mem_append, or_imp, forall_and]

theorem NoBackslash.cons {c : Char} {t : Text} :
    NoBackslash (c :: t) ↔ c ≠ '\\' ∧ NoBackslash t := by
  simp only [NoBackslash, List.mem_cons, forall_eq_or_imp]

/-- `p` is true of what `generate` writes around Strings and digits. -/
structure WrittenMarks (p : Char → Prop) : Prop where
  marks : ∀ c ∈ "\x7b\x7d[]:,-truefalsn".toList, p c
  digits : ∀ c, isDigit c = true → p c

theorem WrittenMarks.of_bool {p : Char → Prop} {q : Char → Bool} (hq : ∀ c, q c = true → p c)
    (hmarks : "\x7b\x7d[]:,-truefalsn".toList.all q = true) (hdigits : ∀ c, isDigit c = true → p c) : WrittenMarks p :=
  ⟨fun c hc => hq c (List.all_eq_true.mp hmarks c hc), hdigits⟩

theorem WrittenMarks.word {p : Char → Prop} (hp : WrittenMarks p) {s : Text}
    (h : s.all (· ∈ "\x7b\x7d[]:,-truefalsn".toList) = true) : ∀ c ∈ s, p c :=
  fun c hc => hp.marks c (of_decide_eq_true (List.all_eq_true.mp h c hc))

section Texts
variable {F : Type}

/-- Every String at this node, a key too, has `q`. -/
def Value.strings (q : Text → Prop) : Value F → Prop
  | .string s => q s
  | .object l => ∀ kv ∈ l, q kv.1
  | _ => True

section Generated
variable {p : Char → Prop}

theorem join_forall {l : List Text} (hcomma : p ',') (h : ∀ t ∈ l, ∀ c ∈ t, p c) : ∀ c ∈ join l, p c := by
  induction l with
  | nil => exact fun c hc => absurd hc List.not_mem_nil
  | cons t l ih =>
    have ht := h t List.mem_cons_self
    have hl := ih fun t' ht' => h t' (List.mem_cons_of_mem _ ht')
    cases l with
    | nil => exact ht
    | cons t' l => exact List.forall_mem_append.mpr ⟨ht, List.forall_mem_cons.mpr ⟨hcomma, hl⟩⟩

theorem integerToS_forall (hp : WrittenMarks p) (i : Int) : ∀ c ∈ integerToS i, p c := by
  have hdigits : ∀ c ∈ Nat.toDigits 10 i.natAbs, p c := fun c hc => hp.digits c (isDigit_of_mem_toDigits hc)
  unfold integerToS
  split
  · exact List.forall_mem_cons.mpr ⟨hp.marks '-' (by decide), hdigits⟩
  · exact hdigits

variable [FloatText F]

mutual

/-- A text has the marks, the digits and what `generateString` makes of the Strings. -/
theorem generate_forall (hp : WrittenMarks p) : (v : Value F) → v.Every Value.noFloat →
    v.Every (Value.strings fun s => ∀ c ∈ generateString s, p c) → ∀ c ∈ (generate v).toS, p c
  | .null, _, _ => by
    rw [generate]
    exact hp.word (by decide)
  | .bool b, _, _ => by
    rw [generate]
    cases b with
    | false => exact hp.word (by decide)
    | true => exact hp.word (by decide)
  | .int i, _, _ => by
    rw [generate]
    exact integerToS_forall hp i
  | .float _, h, _ => False.elim h
  | .string s, _, hs => by
    rw [generate]
    exact hs
  | .array l, h, hs => by
    rw [generate]
    refine List.forall_mem_cons.mpr ⟨hp.marks '[' (by decide), ?_⟩
    refine List.forall_mem_append.mpr ⟨?_, List.forall_mem_singleton.mpr (hp.marks ']' (by decide))⟩
    exact join_forall (hp.marks ',' (by decide)) (generateElements_forall hp l h.2 hs.2)
  | .object l, h, hs => by
    rw [generate]
    refine List.forall_mem_cons.mpr ⟨hp.marks '{' (by decide), ?_⟩
    refine List.forall_mem_append.mpr ⟨?_, List.forall_mem_singleton.mpr (hp.marks '}' (by decide))⟩
    exact join_forall (hp.marks ',' (by decide)) (generateMembers_forall hp l h.2 hs.2 hs.1)

theorem generateElements_forall (hp : WrittenMarks p) : (l : List (Value F)) → EveryElement Value.noFloat l →
    EveryElement (Value.strings fun s => ∀ c ∈ generateString s, p c) l → ∀ t ∈ generateElements l, ∀ c ∈ t, p c
  | [], _, _ => fun t ht => absurd ht List.not_mem_nil
  | v :: l, h, hs => by
    rw [generateElements]
    exact List.forall_mem_cons.mpr ⟨generate_forall hp v h.1 hs.1, generateElements_forall hp l h.2 hs.2⟩

theorem generateMembers_forall (hp : WrittenMarks p) : (l : List (Text × Value F)) → EveryMember Value.noFloat l →
    EveryMember (Value.strings fun s => ∀ c ∈ generateString s, p c) l →
    (∀ kv ∈ l, ∀ c ∈ generateString kv.1, p c) → ∀ t ∈ generateMembers l, ∀ c ∈ t, p c
  | [], _, _, _ => fun t ht => absurd ht List.not_mem_nil
  | (k, v) :: l, h, hs, hkeys => by
    obtain ⟨hk, hkeys⟩ := List.forall_mem_cons.mp hkeys
    rw [generateMembers]
    refine List.forall_mem_cons.mpr ⟨?_, generateMembers_forall hp l h.2 hs.2 hkeys⟩
    refine List.forall_mem_append.mpr ⟨hk, ?_⟩
    exact List.forall_mem_cons.mpr ⟨hp.marks ':' (by decide), generate_forall hp v h.1 hs.1⟩

end

theorem generate_noBackslash (v : Value F) (h : v.Every Value.noFloat) : NoBackslash (generate v).toS := by
  have hmarks : WrittenMarks (· ≠ '\\') := by
    refine .of_bool (q := (· ≠ '\\')) (fun c hc => of_decide_eq_true hc) (by decide) ?_
    exact fun c hc => isDigit_ne hc rfl
  apply generate_forall hmarks v h
  refine Value.Every.imp₃ ?_ v h h h
  intro w _ _ _
  cases w with
  | string s => exact generateString_noBackslash s
  | object l => exact fun kv _ => generateString_noBackslash kv.1
  | _ => trivial

end Generated

/-- Without a backslash there is no escape, so a literal denotes plain characters. -/
theorem StrLit.plain {s : StrLit} (h : NoBackslash s.render) : PlainText s.denote := by
  induction s with
  | nil => nofun
  | cons item s ih =>
    have hsplit : NoBackslash (item.render ++ StrLit.render s) := h
    obtain ⟨hitem, hs⟩ := NoBackslash.append.mp hsplit
    cases item with
    | char c hc =>
      intro a ha
      rcases List.mem_cons.mp (show a ∈ c :: StrLit.denote s from ha) with rfl | ha
      · exact hc
      · exact ih hs a ha
    | escape e => exact absurd rfl (NoBackslash.cons.mp hitem).1

/-- The parser's values have plain strings where the text has no backslash. -/
def PlainMembers (l : List (Text × Value F)) : Prop :=
  (∀ kv ∈ l, PlainText kv.1) ∧ EveryMember Value.plainNode l

theorem PlainMembers.hashSet {l : List (Text × Value F)} {k : Text} {v : Value F}
    (h : PlainMembers l) (hk : PlainText k) (hv : v.Every Value.plainNode) :
    PlainMembers (hashSet l k v) := by
  refine ⟨fun kv hkv => ?_, EveryMember.iff.mpr fun kv hkv => ?_⟩
  · rcases mem_hashSet hkv with rfl | hkv
    · exact hk
    · exact h.1 kv hkv
  · rcases mem_hashSet hkv with rfl | hkv
    · exact hv
    · exact EveryMember.iff.mp h.2 kv hkv

section Read
variable [FloatArith F]

mutual

theorem Doc.value_plain : (d : Doc) → NoBackslash d.render →
    (d.value : Value F).Every Value.plainNode
  | .null, _ => by rw [Doc.value]; trivial
  | .bool b, _ => by rw [Doc.value]; trivial
  | .number n, _ => by
    rw [Doc.value, Number.value]
    split <;> trivial
  | .string s, h => by
    rw [Doc.render] at h
    rw [Doc.value]
    exact StrLit.plain (NoBackslash.append.mp (NoBackslash.cons.mp h).2).1
  | .emptyArray inner, _ => by rw [Doc.value]; exact ⟨trivial, trivial⟩
  | .array es, h => by
    rw [Doc.render] at h
    have hbody := (NoBackslash.append.mp (NoBackslash.append.mp (NoBackslash.cons.mp h).2).2).1
    rw [Doc.value]
    exact ⟨trivial, Elems.values_plain es hbody⟩
  | .emptyObject inner, _ => by rw [Doc.value]; exact ⟨nofun, trivial⟩
  | .object opening hopen ms, h => by
    rw [Doc.render] at h
    have hms := (NoBackslash.append.mp (NoBackslash.cons.mp h).2).2
    have hbody := (NoBackslash.append.mp (NoBackslash.cons.mp hms).2).1
    rw [Doc.value]
    exact Members.addTo_plain ms hbody [] ⟨nofun, trivial⟩

theorem Elems.values_plain : (es : Elems) → NoBackslash es.body →
    EveryElement Value.plainNode (es.values : List (Value F))
  | .last before d after, h => by
    rw [Elems.body] at h
    rw [Elems.values]
    exact ⟨Doc.value_plain d (NoBackslash.append.mp h).1, trivial⟩
  | .cons before d after rest, h => by
    rw [Elems.body] at h
    obtain ⟨hd, htail⟩ := NoBackslash.append.mp h
    have hrest := (NoBackslash.append.mp (NoBackslash.cons.mp (NoBackslash.append.mp htail).2).2).2
    rw [Elems.values]
    exact ⟨Doc.value_plain d hd, Elems.values_plain rest hrest⟩

theorem Members.addTo_plain : (ms : Members) → NoBackslash ms.body →
    (l : List (Text × Value F)) → PlainMembers l → PlainMembers (ms.addTo l)
  | .last name d after, h, l, hl => by
    rw [Members.body, Name.body] at h
    obtain ⟨hname, htail⟩ := NoBackslash.append.mp h
    rw [Members.addTo]
    exact hl.hashSet (StrLit.plain (NoBackslash.append.mp hname).1)
      (Doc.value_plain d (NoBackslash.append.mp htail).1)
  | .cons name d after opening rest, h, l, hl => by
    rw [Members.body, Name.body] at h
    obtain ⟨hname, htail⟩ := NoBackslash.append.mp h
    obtain ⟨hd, htail⟩ := NoBackslash.append.mp htail
    have hnext := (NoBackslash.append.mp (NoBackslash.cons.mp (NoBackslash.append.mp htail).2).2).2
    rw [Members.addTo]
    exact Members.addTo_plain rest (NoBackslash.cons.mp hnext).2 _
      (hl.hashSet (StrLit.plain (NoBackslash.append.mp hname).1) (Doc.value_plain d hd))

end

end Read

mutual

theorem Value.Equal.plain : (v : Value F) → {w : Value F} → v.Equal w →
    w.Every Value.plainNode → v.Every Value.plainNode
  | .null, _, _, _ => trivial
  | .bool _, _, _, _ => trivial
  | .int _, _, _, _ => trivial
  | .float _, _, _, _ => trivial
  | .string s, _, h, hw => by
    cases h
    exact hw
  | .array l, _, h, hw => by
    obtain ⟨l', rfl, hl⟩ := h
    exact ⟨trivial, EqualElements.plain l hl hw.2⟩
  | .object l, _, h, hw => by
    obtain ⟨l', rfl, _, hl⟩ := h
    exact EqualMembers.plain l hl hw

theorem EqualElements.plain : (l : List (Value F)) → {l' : List (Value F)} → EqualElements l l' →
    EveryElement Value.plainNode l' → EveryElement Value.plainNode l
  | [], _, _, _ => trivial
  | v :: l, _, h, hw => by
    obtain ⟨v', l', rfl, hv, hl⟩ := h
    exact ⟨Value.Equal.plain v hv hw.1, EqualElements.plain l hl hw.2⟩

theorem EqualMembers.plain : (l : List (Text × Value F)) → {l' : List (Text × Value F)} →
    EqualMembers l l' → PlainMembers l' → PlainMembers l
  | [], _, _, _ => ⟨nofun, trivial⟩
  | (k, v) :: l, l', h, hw => by
    obtain ⟨⟨v', hget, hv⟩, hl⟩ := h
    have hmem := hashGet_mem hget
    obtain ⟨hkeys, hvalues⟩ := EqualMembers.plain l hl hw
    refine ⟨fun kv hkv => ?_, Value.Equal.plain v hv (EveryMember.iff.mp hw.2 _ hmem), hvalues⟩
    rcases List.mem_cons.mp hkv with rfl | hkv
    · exact hw.1 (k, v') hmem
    · exact hkeys kv hkv

end

end Texts

/-! ## The round trip -/

section RoundTrip
variable {F : Type} [FloatArith F] [FloatText F]

/-- `JSON.generate` of the value is a String that `JSON.parse` turns into an equal value. -/
def Value.RoundTrips (v : Value F) : Prop :=
  ∃ t w, generate v = .text t ∧ parseText t = .ok w ∧ v.Equal w

/-- `true` or `false`. -/
def Value.isBool : Value F → Bool
  | .bool _ => true
  | _ => false

omit [FloatArith F] in
theorem generate_text {v : Value F} (h : v.isBool = false) : generate v = .text (generate v).toS := by
  cases v with
  | bool b => cases h
  | _ => rfl

omit [FloatArith F] [FloatText F] in
theorem Datum.writable {v : Datum F} (h : v.value.Every Value.plainNode) :
    v.value.Every Value.Writable :=
  Value.Every.imp₃ (fun _ hp hq hr => ⟨hp, hq, hr⟩) v.value v.noFloat h v.distinctKeys

theorem parseText_generate {v : Value F} (h : v.Every Value.Writable) : parseText (generate v).toS = .ok v := by
  obtain ⟨d, hrender, hvalue⟩ := Value.exists_doc v h
  have hstops : d.Stops [] := Doc.Stops.of_delimited nofun
  have hparse := parseText_eq (F := F) d hstops
  rwa [List.append_nil, hrender, hvalue] at hparse

/-- Generated text has no escapes, so a value that is read from it is plain. -/
theorem Datum.plain_of_parse (v : Datum F) {w : Value F} (hw : parseText (generate v.value).toS = .ok w)
    (heq : v.value.Equal w) : v.value.Every Value.plainNode := by
  obtain ⟨d, rest, hsplit, _, hd⟩ := parseText_sound hw
  have hclean := generate_noBackslash v.value v.noFloat
  rw [hsplit] at hclean
  have hplain := d.value_plain (F := F) (NoBackslash.append.mp hclean).1
  rw [hd] at hplain
  exact Value.Equal.plain v.value heq hplain

/-- The round trip succeeds exactly without a quote, a backslash and a bare boolean. -/
theorem roundTrips_iff (v : Datum F) :
    v.value.RoundTrips ↔ v.value.isBool = false ∧ v.value.Every Value.plainNode := by
  constructor
  · rintro ⟨t, w, ht, hw, heq⟩
    refine ⟨?_, ?_⟩
    · cases hv : v.value with
      | bool b =>
        rw [hv, generate] at ht
        cases ht
      | _ => rfl
    · apply v.plain_of_parse ?_ heq
      rw [ht]
      exact hw
  · rintro ⟨hbool, hplain⟩
    have hparse := parseText_generate (Datum.writable hplain)
    exact ⟨_, v.value, generate_text hbool, hparse, Value.Equal.refl v.value v.distinctKeys⟩

end RoundTrip

/-- The text of a lone quote is read back as the empty String. -/
theorem quote_not_roundTrips : ¬ ∀ (F : Type) (_ : FloatArith F) (_ : FloatText F) (v : Datum F),
    v.value.RoundTrips := by
  intro h
  obtain ⟨t, w, ht, hw, heq⟩ := h Rat inferInstance ⟨fun _ => []⟩ ⟨.string ['"'], trivial, trivial⟩
  cases ht
  have hempty : parseText ['"', '"', '"'] = .ok (.string [] : Value Rat) := by rfl
  have hw' : w = .string [] := Except.ok.inj (hw.symm.trans hempty)
  cases hw'.symm.trans heq

end PicoRuby.Json
