import PicoRuby.Json.Syntax

/-!
# The parser reads every text of the grammar

`JSON::Parser` started on the first character of a text returns its value and stops
behind it, whatever follows, as long as a number is not continued.
-/

namespace PicoRuby.Json

open Shared

set_option autoImplicit false

/-- The characters that can follow a value. -/
def isDelimiter (c : Char) : Bool := isWhitespace c || c = ',' || c = ']' || c = '}'

def Delimited (rest : Text) : Prop := ∀ c ∈ rest.head?, isDelimiter c = true

section Tokens
variable {json t rest : Text} {i : Nat} {c : Char} {ws : Ws}

theorem isDelimiter_cases (h : isDelimiter c = true) :
    c = ' ' ∨ c = '\t' ∨ c = '\n' ∨ c = '\r' ∨ c = ',' ∨ c = ']' ∨ c = '}' := by
  simpa [isDelimiter, isWhitespace, or_assoc] using h

theorem Blank.whitespace (b : Blank) : isWhitespace b.char = true := by
  cases b <;> rfl

theorem Ws.whitespace (ws : Ws) : ∀ c ∈ ws.render, isWhitespace c = true := by
  intro c hc
  obtain ⟨b, _, rfl⟩ := List.mem_map.mp hc
  exact b.whitespace

theorem skip_ws (h : At json i (ws.render ++ t)) (ht : ∀ c ∈ t.head?, isWhitespace c = false) :
    skipWhitespace json i = i + ws.render.length := h.skipWhile ws.whitespace ht

theorem expect_eq (h : At json i (c :: t)) : expect json c i = .ok (i + 1) := by
  rw [expect, if_pos h.get_cons]

theorem expectSequence_eq {l : Text} (h : At json i (l ++ t)) :
    expectSequence json l i = .ok (i + l.length) := by
  induction l generalizing i with
  | nil => rfl
  | cons c l ih =>
    rw [expectSequence, expect_eq h]
    dsimp only
    rw [ih h.next, List.length_cons]
    congr 1
    omega

theorem Delimited.of_ws (hrest : Delimited (c :: t)) : Delimited (ws.render ++ c :: t) := by
  cases ws with
  | nil => exact hrest
  | cons b ws =>
    rintro _ ⟨⟩
    simp [isDelimiter, b.whitespace]

theorem Delimited.cons (h : isDelimiter c = true) : Delimited (c :: t) := by
  rintro _ ⟨⟩
  exact h

theorem Delimited.not_digit (h : Delimited rest) : ∀ c ∈ rest.head?, isDigit c = false := by
  intro c hc
  rcases isDelimiter_cases (h c hc) with rfl | rfl | rfl | rfl | rfl | rfl | rfl <;> rfl

end Tokens

/-! ## Strings -/

section Strings
variable {json t : Text} {i : Nat} {c : Char}

theorem isPlain_ne (h : isPlain c = true) : c ≠ '"' ∧ c ≠ '\\' := by
  simpa [isPlain] using h

theorem rawString_plain (h : isPlain c = true) :
    rawString (c :: t) = (rawString t).map fun (raw, n) => (c :: raw, n + 1) := by
  obtain ⟨_, hb⟩ := isPlain_ne h
  cases t with
  | nil => simp [rawString, hb]
  | cons => simp [rawString, hb]

theorem rawString_render (s : StrLit) :
    rawString (s.render ++ '"' :: t) = .ok (s.render, s.render.length) := by
  induction s with
  | nil => rfl
  | cons item s ih =>
    cases item with
    | char c h =>
      change rawString (c :: (StrLit.render s ++ '"' :: t)) = _
      rw [rawString_plain h, ih]
      rfl
    | escape e =>
      change rawString ('\\' :: e.letter :: (StrLit.render s ++ '"' :: t)) = _
      rw [rawString, ih]
      rfl

theorem Escape.unescape_letter (e : Escape) : unescape e.letter = .ok e.denote := by
  cases e <;> rfl

theorem replaceEscapeSequence_plain (h : isPlain c = true) :
    replaceEscapeSequence (c :: t) = (replaceEscapeSequence t).map (c :: ·) := by
  obtain ⟨_, hb⟩ := isPlain_ne h
  cases t with
  | nil => simp [replaceEscapeSequence, hb]
  | cons => simp [replaceEscapeSequence, hb]

theorem replaceEscapeSequence_render (s : StrLit) :
    replaceEscapeSequence s.render = .ok s.denote := by
  induction s with
  | nil => rfl
  | cons item s ih =>
    cases item with
    | char c h =>
      change replaceEscapeSequence (c :: StrLit.render s) = _
      rw [replaceEscapeSequence_plain h, ih]
      rfl
    | escape e =>
      change replaceEscapeSequence ('\\' :: e.letter :: StrLit.render s) = _
      rw [replaceEscapeSequence, e.unescape_letter, ih]
      rfl

theorem parseString_eq {s : StrLit} (h : At json i (c :: (s.render ++ '"' :: t))) :
    parseString json i = .ok (s.denote, i + s.render.length + 2) := by
  rw [parseString, h.next, rawString_render]
  dsimp only
  rw [replaceEscapeSequence_render]
  change Except.ok (s.denote, i + 1 + s.render.length + 1) = _
  congr 2
  omega

end Strings

/-! ## Numbers -/

section Numbers
variable {F : Type} [FloatArith F] {json t rest : Text} {i : Nat}

theorem digitsEnd_eq {d : Digits} (h : At json i (d.chars ++ t))
    (ht : ∀ c ∈ t.head?, isDigit c = false) : digitsEnd json i = i + d.chars.length :=
  h.skipWhile d.digit ht

theorem isDigit_ne {c x : Char} (h : isDigit c = true) (hx : isDigit x = false) : c ≠ x := by
  rintro rfl
  rw [h] at hx
  cases hx

theorem Digits.head {d : Digits} (hne : d.chars ≠ []) :
    ∃ c t, d.chars = c :: t ∧ isDigit c = true := by
  obtain ⟨chars, hdigit⟩ := d
  cases chars with
  | nil => exact absurd rfl hne
  | cons c t => exact ⟨c, t, rfl, hdigit c List.mem_cons_self⟩

theorem Number.Stops.of_delimited {n : Number} (h : Delimited rest) : n.Stops rest := by
  intro c hc
  refine ⟨h.not_digit c hc, ?_⟩
  rcases isDelimiter_cases (h c hc) with rfl | rfl | rfl | rfl | rfl | rfl | rfl <;>
    cases n.exponent <;> simp [isExponentMark, isSign]

theorem Number.Stops.not_digit {n : Number} (h : n.Stops rest) :
    ∀ c ∈ rest.head?, isDigit c = false := fun c hc => (h c hc).1

theorem exponentEnd_eq {n : Number} (h : At json i (n.exponentText ++ rest)) (hrest : n.Stops rest) :
    exponentEnd json i = (n.exponent.isSome, i + n.exponentText.length) := by
  unfold Number.exponentText at h ⊢
  cases hexp : n.exponent with
  | none =>
    rw [hexp] at h
    have hno : json[i]?.any isExponentMark = false := by
      rw [h.get, List.nil_append]
      cases rest with
      | nil => rfl
      | cons c rest =>
        have hstop := (hrest c rfl).2
        rw [hexp] at hstop
        exact hstop.1
    rw [exponentEnd, hno]
    rfl
  | some e =>
    rw [hexp] at h
    obtain ⟨upper, sign, digits⟩ := e
    have hmark : At json i ((if upper then 'E' else 'e') ::
        ((sign.map Sign.char).toList ++ (digits.chars ++ rest))) := by
      simpa [Exponent.render] using h
    have hyes : json[i]?.any isExponentMark = true := by
      rw [hmark.get_cons]
      cases upper <;> rfl
    rw [exponentEnd, hyes]
    cases sign with
    | none =>
      have hdigits : At json (i + 1) (digits.chars ++ rest) := hmark.next
      have hno : json[i + 1]?.any isSign = false := by
        rw [hdigits.get]
        by_cases hnil : digits.chars = []
        · rw [hnil, List.nil_append]
          cases rest with
          | nil => rfl
          | cons c rest =>
            have hstop := (hrest c rfl).2
            rw [hexp] at hstop
            exact hstop rfl hnil
        · obtain ⟨c, t, hc, hd⟩ := Digits.head hnil
          have hplus := isDigit_ne hd (x := '+') rfl
          have hminus := isDigit_ne hd (x := '-') rfl
          rw [hc]
          simp [isSign, hplus, hminus]
      dsimp only
      rw [hno, if_pos rfl, if_neg Bool.false_ne_true, digitsEnd_eq hdigits hrest.not_digit]
      simp [Exponent.render]
      omega
    | some sg =>
      have hsign : At json (i + 1) (sg.char :: (digits.chars ++ rest)) := hmark.next
      have hyes' : json[i + 1]?.any isSign = true := by
        rw [hsign.get_cons]
        cases sg <;> rfl
      dsimp only
      rw [hyes', if_pos rfl, if_pos rfl, digitsEnd_eq hsign.next hrest.not_digit]
      simp [Exponent.render]
      omega

theorem Number.tail_not_digit {n : Number} (hrest : n.Stops rest) :
    ∀ c ∈ (n.exponentText ++ rest).head?, isDigit c = false := by
  unfold Number.exponentText
  cases n.exponent with
  | none => exact hrest.not_digit
  | some e =>
    rintro _ ⟨⟩
    cases e.upper <;> rfl

theorem fractionEnd_eq {n : Number} (h : At json i (n.fractionText ++ (n.exponentText ++ rest)))
    (hrest : n.Stops rest) :
    fractionEnd json i = (n.fraction.isSome, i + n.fractionText.length) := by
  have htail := n.tail_not_digit hrest
  unfold Number.fractionText at h ⊢
  cases hfrac : n.fraction with
  | none =>
    rw [hfrac] at h
    have hno : json[i]? ≠ some '.' := by
      rw [h.get, List.nil_append]
      unfold Number.exponentText
      cases hexp : n.exponent with
      | none =>
        intro hdot
        have hstop := (hrest '.' hdot).2
        rw [hexp] at hstop
        exact hstop.2 hfrac rfl
      | some e => cases hu : e.upper <;> simp [Exponent.render, hu]
    rw [fractionEnd, if_neg hno]
    rfl
  | some d =>
    rw [hfrac] at h
    have hdot : At json i ('.' :: (d.chars ++ (n.exponentText ++ rest))) := by simpa using h
    rw [fractionEnd, if_pos hdot.get_cons, digitsEnd_eq hdot.next htail]
    simp
    omega

theorem sign_eq {n : Number} (h : At json i (n.render ++ rest)) :
    (if json[i]? = some '-' then i + 1 else i) = i + n.sign.length ∧
      At json (i + n.sign.length)
        (n.integer.chars ++ (n.fractionText ++ (n.exponentText ++ rest))) := by
  have hsplit : At json i (n.sign ++
      (n.integer.chars ++ (n.fractionText ++ (n.exponentText ++ rest)))) := by
    simpa [Number.render] using h
  refine ⟨?_, hsplit.move⟩
  rcases n.starts with hneg | hne
  · have hsign : n.sign = ['-'] := by simp [Number.sign, hneg]
    rw [hsign] at hsplit ⊢
    rw [if_pos hsplit.get_cons]
    rfl
  · obtain ⟨c, t, hc, hd⟩ := Digits.head hne
    cases hneg : n.negative with
    | true =>
      have hsign : n.sign = ['-'] := by simp [Number.sign, hneg]
      rw [hsign] at hsplit ⊢
      rw [if_pos hsplit.get_cons]
      rfl
    | false =>
      have hsign : n.sign = [] := by simp [Number.sign, hneg]
      rw [hsign, List.nil_append, hc] at hsplit
      have hno : json[i]? ≠ some '-' := by
        rw [hsplit.get]
        intro heq
        exact isDigit_ne hd (x := '-') rfl (Option.some.inj heq)
      rw [if_neg hno, hsign]
      rfl

theorem Number.fraction_not_digit {n : Number} (hrest : n.Stops rest) :
    ∀ c ∈ (n.fractionText ++ (n.exponentText ++ rest)).head?, isDigit c = false := by
  unfold Number.fractionText
  cases n.fraction with
  | none => exact n.tail_not_digit hrest
  | some d =>
    rintro _ ⟨⟩
    rfl

theorem parseNumber_eq {n : Number} (h : At json i (n.render ++ rest)) (hrest : n.Stops rest) :
    parseNumber json i = ((n.value : Value F), i + n.render.length) := by
  obtain ⟨hsign, hint⟩ := sign_eq h
  have hfrac := hint.move
  have hexp := hfrac.move
  have hend : i + n.sign.length + n.integer.chars.length + n.fractionText.length +
      n.exponentText.length = i + n.render.length := by
    simp only [Number.render, List.length_append]
    omega
  unfold parseNumber
  dsimp only
  rw [hsign, digitsEnd_eq hint (n.fraction_not_digit hrest), fractionEnd_eq hfrac hrest]
  dsimp only
  rw [exponentEnd_eq hexp hrest]
  dsimp only
  rw [hend, h.slice, Number.value, Number.isFloat]
  split <;> rfl

end Numbers

/-! ## Values -/

/-- The characters a value can start with. -/
def startsValue (c : Char) : Bool :=
  c = '{' || c = '[' || c = '"' || c = 't' || c = 'f' || c = 'n' || c = '-' || isDigit c

theorem startsValue_ne {c x : Char} (h : startsValue c = true) (hx : startsValue x = false) :
    c ≠ x := by
  rintro rfl
  rw [h] at hx
  cases hx

theorem startsValue_not_blank {c : Char} (h : startsValue c = true) : isWhitespace c = false := by
  have hspace := startsValue_ne h (x := ' ') rfl
  have htab := startsValue_ne h (x := '\t') rfl
  have hnewline := startsValue_ne h (x := '\n') rfl
  have hreturn := startsValue_ne h (x := '\r') rfl
  simp [isWhitespace, hspace, htab, hnewline, hreturn]

theorem Number.head (n : Number) :
    ∃ c t, n.render = c :: t ∧ (c = '-' ∨ isDigit c = true) := by
  unfold Number.render Number.sign
  cases hneg : n.negative with
  | true => exact ⟨'-', _, rfl, Or.inl rfl⟩
  | false =>
    have hne : n.integer.chars ≠ [] := n.starts.resolve_left (by simp [hneg])
    obtain ⟨c, t, hc, hd⟩ := Digits.head hne
    exact ⟨c, _, by rw [if_neg Bool.false_ne_true, hc]; rfl, Or.inr hd⟩

theorem Doc.Stops.of_delimited {d : Doc} {rest : Text} (h : Delimited rest) : d.Stops rest := by
  cases d with
  | number n => exact Number.Stops.of_delimited h
  | _ => trivial

theorem Doc.head (d : Doc) : ∃ c t, d.render = c :: t ∧ startsValue c = true := by
  cases d with
  | null => exact ⟨'n', _, by rw [Doc.render]; rfl, rfl⟩
  | bool b =>
    cases b with
    | true => exact ⟨'t', _, by rw [Doc.render]; rfl, rfl⟩
    | false => exact ⟨'f', _, by rw [Doc.render]; rfl, rfl⟩
  | number n =>
    obtain ⟨c, t, hc, hd⟩ := n.head
    refine ⟨c, t, by rw [Doc.render, hc], ?_⟩
    rcases hd with rfl | hd
    · rfl
    · simp [startsValue, hd]
  | string s => exact ⟨'"', _, by rw [Doc.render], rfl⟩
  | emptyArray inner => exact ⟨'[', _, by rw [Doc.render], rfl⟩
  | array es => exact ⟨'[', _, by rw [Doc.render], rfl⟩
  | emptyObject inner => exact ⟨'{', _, by rw [Doc.render], rfl⟩
  | object opening hopen ms => exact ⟨'{', _, by rw [Doc.render], rfl⟩

theorem Elems.head (es : Elems) : ∃ c t, es.body = c :: t ∧ startsValue c = true := by
  cases es with
  | last before d after =>
    obtain ⟨c, t, hc, hs⟩ := d.head
    exact ⟨c, t ++ after.render, by rw [Elems.body, hc]; rfl, hs⟩
  | cons before d after rest =>
    obtain ⟨c, t, hc, hs⟩ := d.head
    exact ⟨c, t ++ _, by rw [Elems.body, hc]; rfl, hs⟩

/-- A text that starts with a value does not start with white space. -/
theorem Doc.solid_head (d : Doc) (rest : Text) :
    ∀ c ∈ (d.render ++ rest).head?, isWhitespace c = false := by
  obtain ⟨c, t, hc, hstart⟩ := d.head
  rw [hc]
  rintro _ ⟨⟩
  exact startsValue_not_blank hstart

theorem Elems.solid_head (es : Elems) (rest : Text) :
    ∀ c ∈ (es.body ++ rest).head?, isWhitespace c = false := by
  obtain ⟨c, t, hc, hstart⟩ := es.head
  rw [hc]
  rintro _ ⟨⟩
  exact startsValue_not_blank hstart

/-- What `objectLoop` does in front of the value of a member. -/
theorem Name.read_eq {json t : Text} {i : Nat} {c : Char} (name : Name)
    (h : At json i (c :: (name.body ++ t))) (ht : ∀ c ∈ t.head?, isWhitespace c = false) :
    ∃ j k, parseString json i = .ok (name.key.denote, j) ∧
      expect json ':' (skipWhitespace json j) = .ok k ∧
      skipWhitespace json k = i + 1 + name.body.length := by
  have hkey : At json i (c :: (name.key.render ++ '"' ::
      (name.afterKey.render ++ ':' :: (name.afterColon.render ++ t)))) := by
    simpa [Name.body] using h
  have hafter := hkey.next.move.next
  have hcolon := hafter.move
  have hlen : name.body.length = name.key.render.length + name.afterKey.render.length +
      name.afterColon.render.length + 2 := by
    simp only [Name.body, List.length_append, List.length_cons]
    omega
  have hj : i + name.key.render.length + 2 = i + 1 + name.key.render.length + 1 := by omega
  refine ⟨_, i + 1 + name.key.render.length + 1 + name.afterKey.render.length + 1,
    parseString_eq hkey, ?_, ?_⟩
  · rw [hj, skip_ws hafter (by rintro _ ⟨⟩; rfl), expect_eq hcolon]
  · rw [skip_ws hcolon.next ht]
    omega

theorem startsNumber_true {c : Char} (h : c = '-' ∨ isDigit c = true) :
    (c = '-' || isDigit c) = true := by
  rcases h with rfl | h
  · rfl
  · simp [h]

theorem startsNumber_ne {c x : Char} (h : c = '-' ∨ isDigit c = true) (hx : isDigit x = false)
    (hm : x ≠ '-') : c ≠ x := by
  rcases h with rfl | h
  · exact Ne.symm hm
  · exact isDigit_ne h hx

section Values
variable {F : Type} [FloatArith F] {json : Text} {i fuel : Nat}

theorem parse_number {c : Char} (hc : json[i]? = some c) (hd : c = '-' ∨ isDigit c = true) :
    parse (fuel + 1) json i = .ok (parseNumber (F := F) json i) := by
  rw [parse, hc]
  split
  · exact absurd (Option.some.inj ‹_›) (startsNumber_ne hd rfl (by decide))
  · exact absurd (Option.some.inj ‹_›) (startsNumber_ne hd rfl (by decide))
  · exact absurd (Option.some.inj ‹_›) (startsNumber_ne hd rfl (by decide))
  · exact absurd (Option.some.inj ‹_›) (startsNumber_ne hd rfl (by decide))
  · exact absurd (Option.some.inj ‹_›) (startsNumber_ne hd rfl (by decide))
  · exact absurd (Option.some.inj ‹_›) (startsNumber_ne hd rfl (by decide))
  · rename_i heq
    cases heq
    rw [if_pos (startsNumber_true hd)]
  · cases ‹_›

mutual

theorem Doc.parse_eq (d : Doc) {rest : Text} (fuel i : Nat) (h : At json i (d.render ++ rest))
    (hrest : d.Stops rest) (hfuel : 3 * d.render.length ≤ fuel) :
    parse fuel json i = .ok ((d.value : Value F), i + d.render.length) := by
  obtain ⟨c, t, hc, hstart⟩ := d.head
  obtain ⟨fuel, rfl⟩ : ∃ f, fuel = f + 3 := by
    rw [hc, List.length_cons] at hfuel
    exact ⟨fuel - 3, by omega⟩
  cases d with
  | null =>
    rw [Doc.render] at h ⊢
    rw [parse, h.get_cons]
    dsimp only
    rw [expectSequence_eq h, Doc.value]
    rfl
  | bool b =>
    cases b with
    | true =>
      rw [Doc.render, if_pos rfl] at h ⊢
      rw [parse, h.get_cons]
      dsimp only
      rw [expectSequence_eq h, Doc.value]
      rfl
    | false =>
      rw [Doc.render, if_neg Bool.false_ne_true] at h ⊢
      rw [parse, h.get_cons]
      dsimp only
      rw [expectSequence_eq h, Doc.value]
      rfl
  | number n =>
    rw [Doc.render] at h ⊢
    obtain ⟨c, t, hc, hd⟩ := n.head
    rw [hc] at h
    rw [parse_number h.get_cons hd]
    rw [← hc] at h
    rw [parseNumber_eq h hrest, Doc.value]
  | string s =>
    rw [Doc.render] at h ⊢
    have hq : At json i ('"' :: (s.render ++ '"' :: rest)) := by simpa using h
    rw [parse, hq.get_cons]
    dsimp only
    rw [parseString_eq hq, Doc.value]
    simp [Except.map]
    omega
  | emptyArray inner =>
    rw [Doc.render] at h ⊢
    have hws : At json (i + 1) (inner.render ++ ']' :: rest) := by simpa using h.next
    have hskip := skip_ws hws (by rintro _ ⟨⟩; rfl)
    rw [parse, h.get_cons]
    dsimp only
    rw [parseArray]
    dsimp only
    rw [hskip, if_pos hws.move.get_cons, Doc.value]
    simp
    omega
  | array es =>
    rw [Doc.render] at h hfuel ⊢
    have hws : At json (i + 1) (es.before.render ++ (es.body ++ ']' :: rest)) := by simpa using h.next
    obtain ⟨c, t, hc, hstart⟩ := es.head
    have hskip := skip_ws hws (es.solid_head _)
    have hbody := hws.move
    have hne : json[i + 1 + es.before.render.length]? ≠ some ']' := by
      rw [hbody.get, hc]
      intro heq
      exact startsValue_ne hstart (x := ']') rfl (Option.some.inj heq)
    rw [parse, h.get_cons]
    dsimp only
    rw [parseArray]
    dsimp only
    rw [hskip, if_neg hne, Elems.loop_eq es _ _ [] hbody (by simp at hfuel; omega), Doc.value]
    simp [Except.map]
    omega
  | emptyObject inner =>
    rw [Doc.render] at h ⊢
    have hws : At json (i + 1) (inner.render ++ '}' :: rest) := by simpa using h.next
    have hskip := skip_ws hws (by rintro _ ⟨⟩; rfl)
    rw [parse, h.get_cons]
    dsimp only
    rw [parseObject]
    dsimp only
    rw [hskip, if_pos hws.move.get_cons, Doc.value]
    simp
    omega
  | object opening hopen ms =>
    rw [Doc.render] at h hfuel ⊢
    have hws : At json (i + 1)
        (ms.before.render ++ opening.char :: (ms.body ++ '}' :: rest)) := by simpa using h.next
    have hskip := skip_ws hws (by
      rintro _ ⟨⟩
      exact opening.solid)
    have hbody := hws.move
    have hne : json[i + 1 + ms.before.render.length]? ≠ some '}' := by
      rw [hbody.get_cons]
      exact fun heq => hopen (Option.some.inj heq)
    rw [parse, h.get_cons]
    dsimp only
    rw [parseObject]
    dsimp only
    rw [hskip, if_neg hne, Members.loop_eq ms _ _ [] hbody (by simp at hfuel; omega), Doc.value]
    simp [Except.map]
    omega

theorem Elems.loop_eq (es : Elems) {rest : Text} (fuel i : Nat) (acc : List (Value F))
    (h : At json i (es.body ++ ']' :: rest)) (hfuel : 3 * es.body.length + 1 ≤ fuel) :
    arrayLoop fuel json i acc = .ok (acc ++ es.values, i + es.body.length) := by
  obtain ⟨fuel, rfl⟩ : ∃ f, fuel = f + 1 := ⟨fuel - 1, by omega⟩
  cases es with
  | last before d after =>
    rw [Elems.body] at h hfuel ⊢
    rw [List.append_assoc] at h
    rw [List.length_append] at hfuel
    have hstops : d.Stops (after.render ++ ']' :: rest) :=
      Doc.Stops.of_delimited (Delimited.of_ws (Delimited.cons rfl))
    have hparse := Doc.parse_eq d fuel i h hstops (by omega)
    have hend := h.move.move
    rw [arrayLoop, hparse]
    dsimp only [bind, Except.bind]
    rw [skip_ws h.move (by rintro _ ⟨⟩; rfl), if_pos hend.get_cons, Elems.values, List.length_append,
      Nat.add_assoc]
  | cons before d after more =>
    rw [Elems.body] at h hfuel ⊢
    rw [List.append_assoc, List.append_assoc, List.cons_append, List.append_assoc] at h
    simp only [List.length_append, List.length_cons] at hfuel
    have hstops : d.Stops (after.render ++
        ',' :: (more.before.render ++ (more.body ++ ']' :: rest))) :=
      Doc.Stops.of_delimited (Delimited.of_ws (Delimited.cons rfl))
    have hparse := Doc.parse_eq d fuel i h hstops (by omega)
    have hcomma := h.move.move
    have hnext := hcomma.next.move
    have hskip := skip_ws hcomma.next (more.solid_head _)
    have hne : json[i + d.render.length + after.render.length]? ≠ some ']' := by
      rw [hcomma.get_cons]
      simp
    have hloop := Elems.loop_eq more fuel _ (acc ++ [d.value]) hnext (by omega)
    rw [arrayLoop, hparse]
    dsimp only [bind, Except.bind]
    rw [skip_ws h.move (by rintro _ ⟨⟩; rfl), if_neg hne, expect_eq hcomma]
    dsimp only
    rw [hskip, hloop, Elems.values, List.append_assoc]
    simp only [List.length_append, List.length_cons, List.singleton_append]
    congr 2
    omega

theorem Members.loop_eq (ms : Members) {rest : Text} {c : Char} (fuel i : Nat)
    (acc : List (Text × Value F)) (h : At json i (c :: (ms.body ++ '}' :: rest)))
    (hfuel : 3 * ms.body.length + 1 ≤ fuel) :
    objectLoop fuel json i acc = .ok (ms.addTo acc, i + 1 + ms.body.length) := by
  obtain ⟨fuel, rfl⟩ : ∃ f, fuel = f + 1 := ⟨fuel - 1, by omega⟩
  cases ms with
  | last name d after =>
    rw [Members.body] at h hfuel ⊢
    rw [List.append_assoc, List.append_assoc] at h
    rw [List.length_append, List.length_append] at hfuel
    obtain ⟨j, k, hkey, hcolon, hvalue⟩ := name.read_eq h (d.solid_head _)
    have hd := h.next.move
    have hstops : d.Stops (after.render ++ '}' :: rest) :=
      Doc.Stops.of_delimited (Delimited.of_ws (Delimited.cons rfl))
    have hparse := Doc.parse_eq d fuel _ hd hstops (by omega)
    have hend := hd.move.move
    rw [objectLoop, hkey]
    dsimp only [bind, Except.bind]
    rw [hcolon]
    dsimp only
    rw [hvalue, hparse]
    dsimp only
    rw [skip_ws hd.move (by rintro _ ⟨⟩; rfl), if_pos hend.get_cons, Members.addTo,
      List.length_append, List.length_append]
    congr 2
    omega
  | cons name d after opening more =>
    rw [Members.body] at h hfuel ⊢
    rw [List.append_assoc, List.append_assoc, List.append_assoc, List.cons_append,
      List.append_assoc, List.cons_append] at h
    simp only [List.length_append, List.length_cons] at hfuel
    obtain ⟨j, k, hkey, hcolon, hvalue⟩ := name.read_eq h (d.solid_head _)
    have hd := h.next.move
    have hstops : d.Stops (after.render ++
        ',' :: (more.before.render ++ opening.char :: (more.body ++ '}' :: rest))) :=
      Doc.Stops.of_delimited (Delimited.of_ws (Delimited.cons rfl))
    have hparse := Doc.parse_eq d fuel _ hd hstops (by omega)
    have hcomma := hd.move.move
    have hnext := hcomma.next.move
    have hskip := skip_ws hcomma.next (by
      rintro _ ⟨⟩
      exact opening.solid)
    have hne : json[i + 1 + name.body.length + d.render.length + after.render.length]? ≠
        some '}' := by
      rw [hcomma.get_cons]
      simp
    have hloop := Members.loop_eq more fuel _ (hashSet acc name.key.denote d.value) hnext (by omega)
    rw [objectLoop, hkey]
    dsimp only [bind, Except.bind]
    rw [hcolon]
    dsimp only
    rw [hvalue, hparse]
    dsimp only
    rw [skip_ws hd.move (by rintro _ ⟨⟩; rfl), if_neg hne, expect_eq hcomma]
    dsimp only
    rw [hskip, hloop, Members.addTo]
    simp only [List.length_append, List.length_cons]
    congr 2
    omega

end

/-- `JSON.parse` of a text of the grammar is its value; what follows the text is not read. -/
theorem parseText_eq (d : Doc) {rest : Text} (hrest : d.Stops rest) :
    parseText (d.render ++ rest) = .ok (d.value : Value F) := by
  have hlen : 3 * d.render.length ≤ 3 * (d.render ++ rest).length + 3 := by
    rw [List.length_append]
    omega
  rw [parseText, d.parse_eq _ 0 (At.start _) hrest hlen]
  rfl

end Values

end PicoRuby.Json
