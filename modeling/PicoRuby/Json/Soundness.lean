import PicoRuby.Json.Completeness
import PicoRuby.Shared.Results

/-!
# The parser reads nothing but texts of the grammar

Where `JSON::Parser` returns a value, the text up to the new index is a `Doc` with that
value; where it does not, it raises a `JSON::JSONError`.
-/

namespace PicoRuby.Json

open Shared

set_option autoImplicit false

/-! ## Tokens -/

section Tokens
variable {json : Text} {i j : Nat} {c : Char}

theorem exists_blank (h : isWhitespace c = true) : ∃ b : Blank, b.char = c := by
  have hcases : c = ' ' ∨ c = '\t' ∨ c = '\n' ∨ c = '\r' := by
    simpa [isWhitespace, or_assoc] using h
  rcases hcases with rfl | rfl | rfl | rfl
  · exact ⟨.space, rfl⟩
  · exact ⟨.tab, rfl⟩
  · exact ⟨.newline, rfl⟩
  · exact ⟨.carriageReturn, rfl⟩

theorem exists_ws_run {run : Text} (h : ∀ c ∈ run, isWhitespace c = true) :
    ∃ ws : Ws, ws.render = run := by
  induction run with
  | nil => exact ⟨[], rfl⟩
  | cons c run ih =>
    obtain ⟨b, rfl⟩ := exists_blank (h c List.mem_cons_self)
    obtain ⟨ws, rfl⟩ := ih fun c hc => h c (List.mem_cons_of_mem _ hc)
    exact ⟨b :: ws, rfl⟩

theorem exists_ws (json : Text) (i : Nat) : ∃ (ws : Ws) (t : Text), At json i (ws.render ++ t) ∧
    (∀ c ∈ t.head?, isWhitespace c = false) ∧
    skipWhitespace json i = i + ws.render.length := by
  obtain ⟨run, t, hsplit, hrun, ht⟩ := exists_run isWhitespace (json.drop i)
  obtain ⟨ws, rfl⟩ := exists_ws_run hrun
  exact ⟨ws, t, hsplit, ht, skip_ws hsplit ht⟩

theorem expect_sound (h : expect json c i = .ok j) : ∃ t, At json i (c :: t) ∧ j = i + 1 := by
  unfold expect at h
  split at h
  · rename_i hget
    obtain ⟨t, ht⟩ := At.of_get hget
    exact ⟨t, ht, (Except.ok.inj h).symm⟩
  · cases h

theorem expectSequence_sound {l : Text} (h : expectSequence json l i = .ok j) :
    ∃ t, At json i (l ++ t) ∧ j = i + l.length := by
  induction l generalizing i with
  | nil => exact ⟨_, rfl, (Except.ok.inj h).symm⟩
  | cons c l ih =>
    rw [expectSequence] at h
    split at h
    · rename_i k hk
      obtain ⟨t, ht, rfl⟩ := expect_sound hk
      obtain ⟨t', ht', rfl⟩ := ih h
      refine ⟨t', ?_, by rw [List.length_cons]; omega⟩
      rw [ht.next.symm.trans ht'] at ht
      exact ht
    · cases h

end Tokens

/-! ## Strings -/

section Strings
variable {t raw s : Text} {n : Nat}

theorem exists_escape {c : Char} (h : unescape c = .ok s) :
    ∃ e : Escape, e.letter = c ∧ e.denote = s := by
  unfold unescape at h
  split at h
  · exact ⟨.quote, rfl, Except.ok.inj h⟩
  · exact ⟨.backslash, rfl, Except.ok.inj h⟩
  · exact ⟨.slash, rfl, Except.ok.inj h⟩
  · exact ⟨.b, rfl, Except.ok.inj h⟩
  · exact ⟨.f, rfl, Except.ok.inj h⟩
  · exact ⟨.n, rfl, Except.ok.inj h⟩
  · exact ⟨.r, rfl, Except.ok.inj h⟩
  · exact ⟨.t, rfl, Except.ok.inj h⟩
  · exact ⟨.u, rfl, Except.ok.inj h⟩
  · cases h

/-- The two passes of `parse_string` together read the items of a literal. -/
theorem rawString_sound (h : rawString t = .ok (raw, n)) (hs : replaceEscapeSequence raw = .ok s) :
    ∃ (lit : StrLit) (rest : Text), t = lit.render ++ '"' :: rest ∧ n = lit.render.length ∧
      lit.denote = s := by
  induction t using rawString.induct generalizing raw n s with
  | case1 => cases h
  | case2 rest =>
    cases h
    exact ⟨[], rest, rfl, rfl, Except.ok.inj hs⟩
  | case3 => cases h
  | case4 c rest ih =>
    obtain ⟨⟨raw', n'⟩, hraw, heq⟩ := map_eq_ok.mp h
    cases heq
    rw [replaceEscapeSequence] at hs
    split at hs
    · rename_i s₁ hc
      obtain ⟨s₂, hs₂, rfl⟩ := map_eq_ok.mp hs
      obtain ⟨e, rfl, rfl⟩ := exists_escape hc
      obtain ⟨lit, rest', rfl, rfl, rfl⟩ := ih hraw hs₂
      exact ⟨.escape e :: lit, rest', rfl, rfl, rfl⟩
    · cases hs
  | case5 c rest hq hend hb ih =>
    have hplain : isPlain c = true := by
      have hslash : c ≠ '\\' := by
        intro hc
        cases rest with
        | nil => exact hend hc rfl
        | cons c' rest => exact hb c' rest hc rfl
      simpa [isPlain, hslash] using hq
    rw [rawString_plain hplain] at h
    obtain ⟨⟨raw', n'⟩, hraw, heq⟩ := map_eq_ok.mp h
    cases heq
    rw [replaceEscapeSequence_plain hplain] at hs
    obtain ⟨s₂, hs₂, rfl⟩ := map_eq_ok.mp hs
    obtain ⟨lit, rest', rfl, rfl, rfl⟩ := ih hraw hs₂
    exact ⟨.char c hplain :: lit, rest', rfl, rfl, rfl⟩

theorem parseString_sound {json : Text} {i j : Nat} (h : parseString json i = .ok (s, j)) :
    ∃ (c : Char) (lit : StrLit) (rest : Text), At json i (c :: (lit.render ++ '"' :: rest)) ∧
      lit.denote = s ∧ j = i + lit.render.length + 2 := by
  unfold parseString at h
  split at h
  · rename_i raw n hraw
    obtain ⟨s', hs, heq⟩ := map_eq_ok.mp h
    cases heq
    obtain ⟨lit, rest, hsplit, rfl, rfl⟩ := rawString_sound hraw hs
    have hlt : i < json.length := by
      have hlen := congrArg List.length hsplit
      rw [List.length_drop, List.length_append, List.length_cons] at hlen
      omega
    refine ⟨json[i], lit, rest, ?_, rfl, by omega⟩
    rw [At, List.drop_eq_getElem_cons hlt, hsplit]
  · cases h

end Strings

/-! ## Numbers -/

section Numbers
variable {t : Text}

theorem exists_digits (t : Text) : ∃ (d : Digits) (rest : Text), t = d.chars ++ rest ∧
    ∀ c ∈ rest.head?, isDigit c = false := by
  obtain ⟨run, rest, hsplit, hrun, hrest⟩ := exists_run isDigit t
  exact ⟨⟨run, hrun⟩, rest, hsplit, hrest⟩

/-- What ends an exponent; `e` is the exponent that was read. -/
def ExponentStops (e : Option Exponent) (rest : Text) : Prop :=
  ∀ c ∈ rest.head?, isDigit c = false ∧
    match e with
    | none => isExponentMark c = false
    | some e => e.sign = none → e.digits.chars = [] → isSign c = false

theorem exists_signed (t : Text) : ∃ (sign : Option Sign) (d : Digits) (rest : Text),
    t = (sign.map Sign.char).toList ++ (d.chars ++ rest) ∧
    ∀ c ∈ rest.head?, isDigit c = false ∧ (sign = none → d.chars = [] → isSign c = false) := by
  by_cases hsign : ∃ sg : Sign, ∃ t', t = sg.char :: t'
  · obtain ⟨sg, t', rfl⟩ := hsign
    obtain ⟨d, rest, rfl, hrest⟩ := exists_digits t'
    exact ⟨some sg, d, rest, rfl, fun c hc => ⟨hrest c hc, nofun⟩⟩
  · obtain ⟨d, rest, rfl, hrest⟩ := exists_digits t
    refine ⟨none, d, rest, rfl, fun c hc => ⟨hrest c hc, fun _ hnil => ?_⟩⟩
    rw [hnil, List.nil_append] at hsign
    by_contra hc'
    rw [Bool.not_eq_false, isSign, Bool.or_eq_true, decide_eq_true_iff, decide_eq_true_iff] at hc'
    obtain ⟨t', rfl⟩ := List.head?_eq_some_iff.mp hc
    rcases hc' with rfl | rfl
    · exact hsign ⟨.plus, t', rfl⟩
    · exact hsign ⟨.minus, t', rfl⟩

theorem exists_exponent (ht : ∀ c ∈ t.head?, isDigit c = false) :
    ∃ (e : Option Exponent) (rest : Text),
      t = (e.map Exponent.render).getD [] ++ rest ∧ ExponentStops e rest := by
  by_cases hmark : ∃ c t', t = c :: t' ∧ isExponentMark c = true
  · obtain ⟨c, t', rfl, hc⟩ := hmark
    obtain ⟨sign, d, rest, rfl, hrest⟩ := exists_signed t'
    have hupper : c = if decide (c = 'E') then 'E' else 'e' := by
      rw [isExponentMark, Bool.or_eq_true, decide_eq_true_iff, decide_eq_true_iff] at hc
      rcases hc with rfl | rfl <;> rfl
    refine ⟨some ⟨c = 'E', sign, d⟩, rest, ?_, hrest⟩
    simpa [Exponent.render] using hupper
  · refine ⟨none, t, rfl, fun c hc => ⟨ht c hc, ?_⟩⟩
    obtain ⟨t', rfl⟩ := List.head?_eq_some_iff.mp hc
    exact Bool.eq_false_iff.mpr fun hc' => hmark ⟨c, t', rfl, hc'⟩

theorem exists_fraction (ht : ∀ c ∈ t.head?, isDigit c = false) :
    ∃ (f : Option Digits) (rest : Text),
      t = (f.map fun d => '.' :: d.chars).getD [] ++ rest ∧
      (∀ c ∈ rest.head?, isDigit c = false) ∧ (f = none → ∀ c ∈ rest.head?, c ≠ '.') := by
  by_cases hdot : ∃ t', t = '.' :: t'
  · obtain ⟨t', rfl⟩ := hdot
    obtain ⟨d, rest, rfl, hrest⟩ := exists_digits t'
    exact ⟨some d, rest, rfl, hrest, nofun⟩
  · refine ⟨none, t, rfl, ht, ?_⟩
    rintro - c hc rfl
    obtain ⟨t', rfl⟩ := List.head?_eq_some_iff.mp hc
    exact hdot ⟨t', rfl⟩

theorem exists_number {c : Char} (hc : c ∈ t.head?) (hstart : c = '-' ∨ isDigit c = true) :
    ∃ (n : Number) (rest : Text), t = n.render ++ rest ∧ n.Stops rest := by
  obtain ⟨t, rfl⟩ := List.head?_eq_some_iff.mp hc
  obtain ⟨sign, t₁, hsplit⟩ : ∃ (sign : Bool) (t₁ : Text),
      c :: t = (if sign then ['-'] else []) ++ t₁ ∧
        (sign = true ∨ ∃ c ∈ t₁.head?, isDigit c = true) := by
    rcases hstart with rfl | hd
    · exact ⟨true, t, rfl, Or.inl rfl⟩
    · exact ⟨false, c :: t, rfl, Or.inr ⟨c, rfl, hd⟩⟩
  obtain ⟨hsplit, hstarts⟩ := hsplit
  obtain ⟨d, t₂, rfl, ht₂⟩ := exists_digits t₁
  obtain ⟨f, t₃, rfl, ht₃, hdot⟩ := exists_fraction ht₂
  obtain ⟨e, rest, rfl, hrest⟩ := exists_exponent ht₃
  have hne : sign = true ∨ d.chars ≠ [] := by
    refine hstarts.imp_right ?_
    rintro ⟨c, hc, hd⟩ hnil
    rw [hnil] at hc
    exact absurd (ht₂ c hc) (by simp [hd])
  refine ⟨⟨sign, d, f, e, hne⟩, rest, ?_, ?_⟩
  · rw [hsplit]
    cases f <;> cases e <;>
      simp [Number.render, Number.sign, Number.fractionText, Number.exponentText]
  · intro c hc
    refine ⟨(hrest c hc).1, ?_⟩
    cases e with
    | none => exact ⟨(hrest c hc).2, fun hf => hdot hf c hc⟩
    | some e => exact (hrest c hc).2

end Numbers

/-! ## Values -/

section Values
variable {F : Type} [FloatArith F] {json : Text}

/-- The parser went over `d` from `i` to `j` and returned its value. -/
structure Reads (json : Text) (i j : Nat) (v : Value F) (d : Doc) (rest : Text) : Prop where
  text : At json i (d.render ++ rest)
  stops : d.Stops rest
  value : d.value = v
  index : j = i + d.render.length

/-- What `objectLoop` read in front of the value of a member. -/
theorem Name.read_sound {i j k : Nat} {key : Text} (hkey : parseString json i = .ok (key, j))
    (hcolon : expect json ':' (skipWhitespace json j) = .ok k) (before : Ws) :
    ∃ (c : Char) (name : Name) (t : Text), At json i (c :: (name.body ++ t)) ∧
      name.before = before ∧ name.key.denote = key ∧
      skipWhitespace json k = i + 1 + name.body.length := by
  obtain ⟨c, lit, t, hat, rfl, rfl⟩ := parseString_sound hkey
  obtain ⟨afterKey, t₁, hws, _, hskip⟩ := exists_ws json (i + lit.render.length + 2)
  rw [hskip] at hcolon
  obtain ⟨t₂, ht₂, rfl⟩ := expect_sound hcolon
  obtain ⟨afterColon, t₃, ht₃, _, hskip'⟩ := exists_ws json
    (i + lit.render.length + 2 + afterKey.render.length + 1)
  have hrest : At json (i + lit.render.length + 2) t := by
    have hnext := hat.next.move.next
    rwa [show i + 1 + lit.render.length + 1 = i + lit.render.length + 2 by omega] at hnext
  rw [hrest.symm.trans hws, hws.move.symm.trans ht₂, ht₂.next.symm.trans ht₃] at hat
  refine ⟨c, ⟨before, lit, afterKey, afterColon⟩, t₃, ?_, rfl, rfl, ?_⟩
  · simpa [Name.body] using hat
  · rw [hskip']
    simp only [Name.body, List.length_append, List.length_cons]
    omega

mutual

theorem parse_sound : (fuel : Nat) → {i j : Nat} → {v : Value F} →
    parse fuel json i = .ok (v, j) → ∃ d rest, Reads json i j v d rest
  | 0, _, _, _, h => by
    rw [parse] at h
    cases h
  | fuel + 1, i, j, v, h => by
    rw [parse] at h
    split at h
    · exact parseObject_sound fuel h ‹_›
    · exact parseArray_sound fuel h ‹_›
    · rename_i hget
      obtain ⟨⟨s, k⟩, hs, heq⟩ := map_eq_ok.mp h
      cases heq
      obtain ⟨c, lit, rest, hat, rfl, rfl⟩ := parseString_sound hs
      have hc : c = '"' := Option.some.inj (hat.get_cons.symm.trans hget)
      subst hc
      exact ⟨.string lit, rest, by simpa [Doc.render] using hat, trivial, by rw [Doc.value], by
        simp [Doc.render]; omega⟩
    · obtain ⟨k, hk, heq⟩ := map_eq_ok.mp h
      cases heq
      obtain ⟨t, hat, rfl⟩ := expectSequence_sound hk
      exact ⟨.bool true, t, by simpa [Doc.render] using hat, trivial, by rw [Doc.value], by
        simp [Doc.render]⟩
    · obtain ⟨k, hk, heq⟩ := map_eq_ok.mp h
      cases heq
      obtain ⟨t, hat, rfl⟩ := expectSequence_sound hk
      exact ⟨.bool false, t, by simpa [Doc.render] using hat, trivial, by rw [Doc.value], by
        simp [Doc.render]⟩
    · obtain ⟨k, hk, heq⟩ := map_eq_ok.mp h
      cases heq
      obtain ⟨t, hat, rfl⟩ := expectSequence_sound hk
      exact ⟨.null, t, by simpa [Doc.render] using hat, trivial, by rw [Doc.value], by
        simp [Doc.render]⟩
    · rename_i c _ _ _ _ _ _ hget
      split at h
      · rename_i hstart
        have hhead : c ∈ (json.drop i).head? := by
          rw [List.head?_drop]
          exact hget
        obtain ⟨n, rest, hsplit, hstops⟩ := exists_number hhead (by simpa using hstart)
        have hat : At json i (n.render ++ rest) := hsplit
        have heq := Except.ok.inj h
        rw [parseNumber_eq hat hstops] at heq
        cases heq
        exact ⟨.number n, rest, by simpa [Doc.render] using hat, hstops, by rw [Doc.value], by
          simp [Doc.render]⟩
      · cases h
    · cases h

theorem parseObject_sound : (fuel : Nat) → {i j : Nat} → {v : Value F} →
    parseObject fuel json i = .ok (v, j) → json[i]? = some '{' → ∃ d rest, Reads json i j v d rest
  | 0, _, _, _, h, _ => by
    rw [parseObject] at h
    cases h
  | fuel + 1, i, j, v, h, hget => by
    obtain ⟨t, ht⟩ := At.of_get hget
    obtain ⟨ws, t', hws, hsolid, hskip⟩ := exists_ws json (i + 1)
    have hopen : At json i ('{' :: (ws.render ++ t')) := by
      rwa [← ht.next.symm.trans hws]
    rw [parseObject, hskip] at h
    dsimp only at h
    split at h
    · rename_i hclose
      cases h
      obtain ⟨c, hc⟩ := At.of_get hclose
      rw [hws.move.symm.trans hc] at hopen
      exact ⟨.emptyObject ws, c, by simpa [Doc.render] using hopen, trivial, by rw [Doc.value], by
        simp [Doc.render]; omega⟩
    · rename_i hclose
      obtain ⟨⟨l, k⟩, hl, heq⟩ := map_eq_ok.mp h
      cases heq
      obtain ⟨c, ms, rest, hat, hbefore, rfl, rfl⟩ := objectLoop_sound fuel hl ws
      rw [hws.move.symm.trans hat] at hopen
      have hc : isWhitespace c = false := hsolid c (by rw [hws.move.symm.trans hat]; rfl)
      have hne : c ≠ '}' := by
        rintro rfl
        exact hclose hat.get_cons
      refine ⟨.object ⟨c, hc⟩ hne ms, rest, ?_, trivial, by rw [Doc.value], ?_⟩
      · simpa [Doc.render, hbefore] using hopen
      · simp [Doc.render, hbefore]
        omega

theorem objectLoop_sound : (fuel : Nat) → {i j : Nat} → {acc l : List (Text × Value F)} →
    objectLoop fuel json i acc = .ok (l, j) → (before : Ws) →
    ∃ (c : Char) (ms : Members) (rest : Text), At json i (c :: (ms.body ++ '}' :: rest)) ∧
      ms.before = before ∧ ms.addTo acc = l ∧ j = i + 1 + ms.body.length
  | 0, _, _, _, _, h, _ => by
    rw [objectLoop] at h
    cases h
  | fuel + 1, i, j, acc, l, h, before => by
    rw [objectLoop] at h
    obtain ⟨⟨key, k₁⟩, hkey, h⟩ := bind_eq_ok.mp h
    obtain ⟨k₂, hcolon, h⟩ := bind_eq_ok.mp h
    obtain ⟨⟨v, k₃⟩, hv, h⟩ := bind_eq_ok.mp h
    obtain ⟨c, name, t, hat, rfl, rfl, hvalue⟩ := Name.read_sound hkey hcolon before
    rw [hvalue] at hv
    obtain ⟨d, t', hd⟩ := parse_sound fuel hv
    obtain ⟨rfl⟩ := hd.index
    obtain ⟨after, t₁, hws, hsolid, hskip⟩ := exists_ws json
      (i + 1 + name.body.length + d.render.length)
    have htext := hd.text
    rw [htext.move.symm.trans hws] at htext
    rw [hat.next.move.symm.trans htext] at hat
    dsimp only at h
    rw [hskip] at h
    split at h
    · rename_i hclose
      cases h
      obtain ⟨rest, hrest⟩ := At.of_get hclose
      rw [hws.move.symm.trans hrest] at hat
      refine ⟨c, .last name d after, rest, ?_, rfl, ?_, ?_⟩
      · simpa [Members.body] using hat
      · rw [Members.addTo, hd.value]
      · simp only [Members.body, List.length_append]
        omega
    · obtain ⟨m, hm, h⟩ := bind_eq_ok.mp h
      obtain ⟨t₂, ht₂, rfl⟩ := expect_sound hm
      obtain ⟨next, t₃, hnext, hsolid', hskip'⟩ := exists_ws json
        (i + 1 + name.body.length + d.render.length + after.render.length + 1)
      rw [hskip'] at h
      obtain ⟨c', ms, rest, hms, hbefore, rfl, rfl⟩ := objectLoop_sound fuel h next
      have hc' : isWhitespace c' = false := hsolid' c' (by rw [hnext.move.symm.trans hms]; rfl)
      rw [hws.move.symm.trans ht₂, ht₂.next.symm.trans hnext, hnext.move.symm.trans hms] at hat
      refine ⟨c, .cons name d after ⟨c', hc'⟩ ms, rest, ?_, rfl, ?_, ?_⟩
      · simpa [Members.body, hbefore] using hat
      · rw [Members.addTo, hd.value]
      · simp only [Members.body, List.length_append, List.length_cons, hbefore]
        omega

theorem parseArray_sound : (fuel : Nat) → {i j : Nat} → {v : Value F} →
    parseArray fuel json i = .ok (v, j) → json[i]? = some '[' → ∃ d rest, Reads json i j v d rest
  | 0, _, _, _, h, _ => by
    rw [parseArray] at h
    cases h
  | fuel + 1, i, j, v, h, hget => by
    obtain ⟨t, ht⟩ := At.of_get hget
    obtain ⟨ws, t', hws, hsolid, hskip⟩ := exists_ws json (i + 1)
    have hopen : At json i ('[' :: (ws.render ++ t')) := by
      rwa [← ht.next.symm.trans hws]
    rw [parseArray, hskip] at h
    dsimp only at h
    split at h
    · rename_i hclose
      cases h
      obtain ⟨c, hc⟩ := At.of_get hclose
      rw [hws.move.symm.trans hc] at hopen
      exact ⟨.emptyArray ws, c, by simpa [Doc.render] using hopen, trivial, by rw [Doc.value], by
        simp [Doc.render]; omega⟩
    · obtain ⟨⟨l, k⟩, hl, heq⟩ := map_eq_ok.mp h
      cases heq
      obtain ⟨es, rest, hat, hbefore, rfl, rfl⟩ := arrayLoop_sound fuel hl ws
      rw [hws.move.symm.trans hat] at hopen
      refine ⟨.array es, rest, ?_, trivial, by rw [Doc.value]; rfl, ?_⟩
      · simpa [Doc.render, hbefore] using hopen
      · simp [Doc.render, hbefore]
        omega

theorem arrayLoop_sound : (fuel : Nat) → {i j : Nat} → {acc l : List (Value F)} →
    arrayLoop fuel json i acc = .ok (l, j) → (before : Ws) →
    ∃ (es : Elems) (rest : Text), At json i (es.body ++ ']' :: rest) ∧
      es.before = before ∧ acc ++ es.values = l ∧ j = i + es.body.length
  | 0, _, _, _, _, h, _ => by
    rw [arrayLoop] at h
    cases h
  | fuel + 1, i, j, acc, l, h, before => by
    rw [arrayLoop] at h
    obtain ⟨⟨v, k⟩, hv, h⟩ := bind_eq_ok.mp h
    obtain ⟨d, t, hd⟩ := parse_sound fuel hv
    obtain ⟨rfl⟩ := hd.index
    obtain ⟨after, t', hws, hsolid, hskip⟩ := exists_ws json (i + d.render.length)
    have hat := hd.text
    rw [hat.move.symm.trans hws] at hat
    dsimp only at h
    rw [hskip] at h
    split at h
    · rename_i hclose
      cases h
      obtain ⟨rest, hrest⟩ := At.of_get hclose
      rw [hws.move.symm.trans hrest] at hat
      refine ⟨.last before d after, rest, ?_, rfl, ?_, ?_⟩
      · simpa [Elems.body] using hat
      · rw [Elems.values, hd.value]
      · rw [Elems.body, List.length_append]
        omega
    · obtain ⟨m, hm, h⟩ := bind_eq_ok.mp h
      obtain ⟨t₁, ht₁, rfl⟩ := expect_sound hm
      obtain ⟨next, t₂, hnext, _, hskip'⟩ := exists_ws json
        (i + d.render.length + after.render.length + 1)
      rw [hskip'] at h
      obtain ⟨es, rest, hes, hbefore, rfl, rfl⟩ := arrayLoop_sound fuel h next
      rw [hws.move.symm.trans ht₁, ht₁.next.symm.trans hnext, hnext.move.symm.trans hes] at hat
      refine ⟨.cons before d after es, rest, ?_, rfl, ?_, ?_⟩
      · simpa [Elems.body, hbefore] using hat
      · rw [Elems.values, hd.value, List.append_assoc]
        rfl
      · simp only [Elems.body, List.length_append, List.length_cons, hbefore]
        omega

end

end Values

/-! ## Errors -/

/-- The errors of `x` are JSON errors; in particular it does not run out of fuel. -/
abbrev RaisesJson {α : Type} (x : Except Failure α) : Prop := ErrorsIn (·.isJson = true) x

section Errors
variable {json t : Text} {i : Nat}

theorem expect_errors {c : Char} : RaisesJson (expect json c i) := by
  unfold expect
  split
  · exact ErrorsIn.ok
  · exact ErrorsIn.error rfl

theorem expectSequence_errors {l : Text} : RaisesJson (expectSequence json l i) := by
  induction l generalizing i with
  | nil => exact ErrorsIn.ok
  | cons c l ih =>
    rw [expectSequence]
    split
    · exact ih
    · rename_i e he
      exact ErrorsIn.error (expect_errors e he)

theorem rawString_errors : RaisesJson (rawString t) := by
  induction t using rawString.induct with
  | case1 => exact ErrorsIn.error rfl
  | case2 rest => exact ErrorsIn.ok
  | case3 => exact ErrorsIn.error rfl
  | case4 c rest ih =>
    rw [rawString]
    exact ih.map
  | case5 c rest hq hend hb ih =>
    rw [rawString]
    · exact ih.map
    · exact hq
    · exact hend
    · exact hb

theorem unescape_errors {c : Char} : RaisesJson (unescape c) := by
  unfold unescape
  split
  all_goals first | exact ErrorsIn.ok | exact ErrorsIn.error rfl

theorem replaceEscapeSequence_errors : RaisesJson (replaceEscapeSequence t) := by
  induction t using replaceEscapeSequence.induct with
  | case1 => exact ErrorsIn.ok
  | case2 => exact ErrorsIn.error rfl
  | case3 c rest s hs ih =>
    rw [replaceEscapeSequence, hs]
    exact ih.map
  | case4 c rest e he =>
    rw [replaceEscapeSequence, he]
    exact ErrorsIn.error (unescape_errors e he)
  | case5 c rest hend hb ih =>
    rw [replaceEscapeSequence]
    · exact ih.map
    · exact hend
    · exact hb

theorem parseString_errors : RaisesJson (parseString json i) := by
  unfold parseString
  split
  · exact replaceEscapeSequence_errors.map
  · rename_i e he
    exact ErrorsIn.error (rawString_errors e he)

variable {F : Type} [FloatArith F]

theorem parse_advances {fuel j : Nat} {v : Value F} (h : parse fuel json i = .ok (v, j)) :
    i < j ∧ j ≤ json.length := by
  obtain ⟨d, rest, hd⟩ := parse_sound fuel h
  obtain ⟨c, t, hc, _⟩ := d.head
  have hne : d.render ≠ [] := by simp [hc]
  have hpos := List.length_pos_iff.mpr hne
  have hend := hd.text.end_le hne
  rw [hd.index]
  omega

mutual

theorem parse_errors : (fuel i : Nat) → 3 * (json.length - i) + 1 ≤ fuel →
    RaisesJson (parse (F := F) fuel json i)
  | 0, _, h => by omega
  | fuel + 1, i, h => by
    rw [parse]
    split
    · exact parseObject_errors fuel i (by omega) (List.getElem?_eq_some_iff.mp ‹_›).1
    · exact parseArray_errors fuel i (by omega) (List.getElem?_eq_some_iff.mp ‹_›).1
    · exact parseString_errors.map
    · exact expectSequence_errors.map
    · exact expectSequence_errors.map
    · exact expectSequence_errors.map
    · split
      · exact ErrorsIn.ok
      · exact ErrorsIn.error rfl
    · exact ErrorsIn.error rfl

theorem parseObject_errors : (fuel i : Nat) → 3 * (json.length - i) ≤ fuel → i < json.length →
    RaisesJson (parseObject (F := F) fuel json i)
  | 0, _, h, hi => by omega
  | fuel + 1, i, h, hi => by
    have hle := le_skipWhile isWhitespace json (i + 1)
    rw [parseObject]
    dsimp only
    split
    · exact ErrorsIn.ok
    · exact (objectLoop_errors fuel _ [] (by unfold skipWhitespace; omega)).map

theorem objectLoop_errors : (fuel i : Nat) → (acc : List (Text × Value F)) →
    3 * (json.length - i) + 2 ≤ fuel → RaisesJson (objectLoop fuel json i acc)
  | 0, _, _, h => by omega
  | fuel + 1, i, acc, h => by
    rw [objectLoop]
    refine parseString_errors.bind ?_
    rintro ⟨key, k₁⟩ hkey
    obtain ⟨c, lit, t, hat, _, rfl⟩ := parseString_sound hkey
    have hi := hat.end_le (t := [c]) (by simp)
    have hk₁ := le_skipWhile isWhitespace json (i + lit.render.length + 2)
    refine expect_errors.bind ?_
    intro k₂ hcolon
    obtain ⟨t', _, rfl⟩ := expect_sound hcolon
    have hk₂ := le_skipWhile isWhitespace json
      (skipWhitespace json (i + lit.render.length + 2) + 1)
    unfold skipWhitespace at hk₂ ⊢
    simp only [List.length_cons, List.length_nil] at hi
    refine (parse_errors fuel _ (by omega)).bind ?_
    rintro ⟨v, k₃⟩ hv
    have hk₃ := parse_advances hv
    have hk₄ := le_skipWhile isWhitespace json k₃
    dsimp only at hk₂ ⊢
    split
    · exact ErrorsIn.ok
    · refine expect_errors.bind ?_
      intro k₅ hcomma
      obtain ⟨t'', _, rfl⟩ := expect_sound hcomma
      have hk₆ := le_skipWhile isWhitespace json (Shared.skipWhile isWhitespace json k₃ + 1)
      exact objectLoop_errors fuel _ _ (by omega)

theorem parseArray_errors : (fuel i : Nat) → 3 * (json.length - i) ≤ fuel → i < json.length →
    RaisesJson (parseArray (F := F) fuel json i)
  | 0, _, h, hi => by omega
  | fuel + 1, i, h, hi => by
    have hle := le_skipWhile isWhitespace json (i + 1)
    rw [parseArray]
    dsimp only
    split
    · exact ErrorsIn.ok
    · exact (arrayLoop_errors fuel _ [] (by unfold skipWhitespace; omega)).map

theorem arrayLoop_errors : (fuel i : Nat) → (acc : List (Value F)) →
    3 * (json.length - i) + 2 ≤ fuel → RaisesJson (arrayLoop fuel json i acc)
  | 0, _, _, h => by omega
  | fuel + 1, i, acc, h => by
    rw [arrayLoop]
    refine (parse_errors fuel i (by omega)).bind ?_
    rintro ⟨v, k⟩ hv
    have hk := parse_advances hv
    have hk₁ := le_skipWhile isWhitespace json k
    unfold skipWhitespace
    dsimp only
    split
    · exact ErrorsIn.ok
    · refine expect_errors.bind ?_
      intro k₂ hcomma
      obtain ⟨t, _, rfl⟩ := expect_sound hcomma
      have hk₃ := le_skipWhile isWhitespace json (Shared.skipWhile isWhitespace json k + 1)
      exact arrayLoop_errors fuel _ _ (by omega)

end

/-- `JSON.parse` returns a value or raises a `JSON::JSONError`. -/
theorem parseText_errors : RaisesJson (parseText (F := F) json) :=
  (parse_errors _ 0 (by omega)).map

theorem parseText_sound {v : Value F} (h : parseText json = .ok v) :
    ∃ (d : Doc) (rest : Text), json = d.render ++ rest ∧ d.Stops rest ∧ d.value = v := by
  obtain ⟨⟨v', j⟩, hv, rfl⟩ := map_eq_ok.mp h
  obtain ⟨d, rest, hd⟩ := parse_sound _ hv
  exact ⟨d, rest, hd.text, hd.stops, hd.value⟩

end Errors

end PicoRuby.Json
