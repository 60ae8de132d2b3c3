import PicoRuby.Json.Completeness
import PicoRuby.Json.Digger

/-!
# What the Digger passes over

`dig_value` steps over a value that it does not look into. It comes out right behind the
value unless the value holds one of the texts that throw the scanner off: an exponent with
a plus sign, white space in front of the bracket that closes an array, white space between
the braces of an empty object. An array stays on the stack.
-/

namespace PicoRuby.Json

open Shared

set_option autoImplicit false

/-! ## Texts that are passed over -/

/-- Every member name opens with a quote. -/
abbrev Doc.Quoted (d : Doc) : Prop := d.Conforms (fun _ => True) fun _ => True

abbrev Elems.Quoted (es : Elems) : Prop := es.Conforms (fun _ => True) fun _ => True

abbrev Members.Quoted (ms : Members) : Prop := ms.Conforms (fun _ => True) fun _ => True

def Number.noPlus (n : Number) : Prop := ∀ e ∈ n.exponent, e.sign ≠ some .plus

mutual

/-- The scanner comes out right behind the value. -/
def Doc.Skips : Doc → Prop
  | .number n => n.noPlus
  | .array es => es.Skips
  | .emptyObject inner => inner = []
  | .object _ _ ms => ms.Skips
  | _ => True

def Elems.Skips : Elems → Prop
  | .last _ d after => d.Skips ∧ after = []
  | .cons _ d _ rest => d.Skips ∧ rest.Skips

def Members.Skips : Members → Prop
  | .last _ d _ => d.Skips
  | .cons _ d _ _ rest => d.Skips ∧ rest.Skips

end

mutual

/-- What the value leaves on the stack: nothing takes an array off it again, and an object
takes off what is on top. -/
def Doc.leftover : Doc → List Container
  | .emptyArray _ => [.array]
  | .array es => es.leftover ++ [.array]
  | .object _ _ ms => (ms.leftover ++ [Container.object]).tail
  | _ => []

def Elems.leftover : Elems → List Container
  | .last _ d _ => d.leftover
  | .cons _ d _ rest => rest.leftover ++ d.leftover

def Members.leftover : Members → List Container
  | .last _ d _ => d.leftover
  | .cons _ d _ _ rest => rest.leftover ++ d.leftover

end

/-- The names as they are written. -/
def Members.written : Members → List Text
  | .last name _ _ => [name.key.render]
  | .cons name _ _ _ rest => name.key.render :: rest.written

/-! ## Tokens -/

section Tokens
variable {json t rest : Text} {w : Ws} {s : Scan} {c : Char}

theorem literalLength_plain (h : isPlain c = true) :
    literalLength (c :: t) = (literalLength t).map (· + 1) := by
  obtain ⟨_, hb⟩ := isPlain_ne h
  cases t with
  | nil => simp [literalLength, hb]
  | cons => simp [literalLength, hb]

theorem literalLength_render (lit : StrLit) :
    literalLength (lit.render ++ '"' :: t) = some lit.render.length := by
  induction lit with
  | nil => rfl
  | cons item lit ih =>
    cases item with
    | char c h =>
      change literalLength (c :: (StrLit.render lit ++ '"' :: t)) = _
      rw [literalLength_plain h, ih]
      rfl
    | escape e =>
      change literalLength ('\\' :: e.letter :: (StrLit.render lit ++ '"' :: t)) = _
      rw [literalLength, ih]
      rfl

/-- `dig_string` returns the literal as it is written, escapes and all. -/
theorem digString_eq (needReturn : Bool) {lit : StrLit}
    (h : At json s.index (w.render ++ '"' :: (lit.render ++ '"' :: t))) :
    digString needReturn json s = .ok (if needReturn then some lit.render else none,
      s.goTo (s.index + w.render.length + lit.render.length + 2)) := by
  have hquote := h.move
  have hlit := hquote.next
  rw [digString, skip_ws h (by rintro _ ⟨⟩; rfl), expect_eq hquote]
  dsimp only [bind, Except.bind]
  rw [hlit, literalLength_render]
  dsimp only
  rw [hlit.slice]
  congr 3
  omega

theorem Number.parts (n : Number) (h : n.noPlus) : ∀ c ∈ n.render, isNumberPart c = true := by
  have hdigit : ∀ d : Digits, ∀ c ∈ d.chars, isNumberPart c = true := by
    intro d c hc
    simp [isNumberPart, d.digit c hc]
  intro c hc
  obtain ⟨negative, integer, fraction, exponent, starts⟩ := n
  simp only [Number.render, List.mem_append] at hc
  rcases hc with hc | hc | hc | hc
  · cases negative with
    | true =>
      cases List.mem_singleton.mp hc
      rfl
    | false => cases hc
  · exact hdigit integer c hc
  · cases fraction with
    | none => cases hc
    | some d =>
      rcases List.mem_cons.mp hc with rfl | hc
      · rfl
      · exact hdigit d c hc
  · cases exponent with
    | none => cases hc
    | some e =>
      rcases List.mem_cons.mp hc with rfl | hc
      · cases e.upper <;> rfl
      · rcases List.mem_append.mp hc with hc | hc
        · have hplus := h e rfl
          cases hsign : e.sign with
          | none =>
            rw [hsign] at hc
            cases hc
          | some sg =>
            rw [hsign] at hc hplus
            cases sg with
            | plus => exact absurd rfl hplus
            | minus =>
              cases List.mem_singleton.mp hc
              rfl
        · exact hdigit e.digits c hc

theorem Delimited.not_numberPart (h : Delimited rest) :
    ∀ c ∈ rest.head?, isNumberPart c = false := by
  intro c hc
  rcases isDelimiter_cases (h c hc) with rfl | rfl | rfl | rfl | rfl | rfl | rfl <;> rfl

theorem digNumber_eq {n : Number} (h : At json s.index (n.render ++ rest)) (hn : n.noPlus)
    (hrest : Delimited rest) : digNumber json s = s.goTo (s.index + n.render.length) := by
  rw [digNumber, h.skipWhile (n.parts hn) hrest.not_numberPart]

/-- What `dig_object` does in front of the value of a member. -/
theorem Name.dig_eq (name : Name) (h : At json s.index (w.render ++ '"' :: (name.body ++ t))) :
    ∃ j k, digString true json s = .ok (some name.key.render, s.goTo j) ∧
      expect json ':' (skipWhitespace json j) = .ok k ∧
      At json k (name.afterColon.render ++ t) ∧
      k + name.afterColon.render.length = s.index + w.render.length + 1 + name.body.length := by
  have hkey : At json s.index (w.render ++ '"' :: (name.key.render ++ '"' ::
      (name.afterKey.render ++ ':' :: (name.afterColon.render ++ t)))) := by
    simpa [Name.body] using h
  have hafter := hkey.move.next.move.next
  have hcolon := hafter.move
  have hj : s.index + w.render.length + name.key.render.length + 2 =
      s.index + w.render.length + 1 + name.key.render.length + 1 := by omega
  refine ⟨_, _, digString_eq true hkey, ?_, hcolon.next, ?_⟩
  · rw [hj, skip_ws hafter (by rintro _ ⟨⟩; rfl), expect_eq hcolon]
  · simp only [Name.body, List.length_append, List.length_cons]
    omega

end Tokens

/-! ## Values -/

section Values
variable {json rest : Text} {w : Ws} {s : Scan} {fuel : Nat}

theorem digValue_number {i : Nat} {c : Char} (hi : skipWhitespace json s.index = i)
    (hc : json[i]? = some c) (hd : c = '-' ∨ isDigit c = true) :
    digValue (fuel + 1) json s = .ok (digNumber json (s.goTo i)) := by
  rw [digValue, hi, hc]
  split
  · exact absurd (Option.some.inj ‹_›) (startsNumber_ne hd rfl (by decide))
  · exact absurd (Option.some.inj ‹_›) (startsNumber_ne hd rfl (by decide))
  · exact absurd (Option.some.inj ‹_›) (startsNumber_ne hd rfl (by decide))
  · exact absurd (Option.some.inj ‹_›) (startsNumber_ne hd rfl (by decide))
  · exact absurd (Option.some.inj ‹_›) (startsNumber_ne hd rfl (by decide))
  · exact absurd (Option.some.inj ‹_›) (startsNumber_ne hd rfl (by decide))
  · rename_i heq
    cases heq
    rw [if_pos (startsNumber_true hd)]
  · cases ‹_›

theorem keyword_eq {word : Text} (h : At json s.index (word ++ rest))
    (hsolid : ∀ c ∈ word.head?, isWhitespace c = false) (hne : word ≠ []) :
    (expectSequence json word (skipWhitespace json s.index)).map s.goTo =
      .ok (s.goTo (s.index + word.length)) := by
  have hskip : skipWhitespace json s.index = s.index := by
    refine At.skipWhile_none h ?_
    cases word with
    | nil => exact absurd rfl hne
    | cons c word => exact hsolid
  rw [hskip, expectSequence_eq h]
  rfl

/-- What `objectScan` does with a member that is not the one looked for: behind the value it
goes on with the next member or ends. -/
theorem member_scan {key : Option Text} {name : Name} {d : Doc} {after : Ws} {c : Char} {t : Text}
    {s' : Scan} (hkey : key ≠ some name.key.render)
    (h : At json s.index (w.render ++ '"' ::
      (name.body ++ (d.render ++ (after.render ++ c :: t)))))
    (hc : isWhitespace c = false)
    (hvalue : ∀ k, At json k (name.afterColon.render ++ (d.render ++ (after.render ++ c :: t))) →
      k + name.afterColon.render.length = s.index + w.render.length + 1 + name.body.length →
      digValue fuel json (s.goTo k) = .ok s')
    (hindex : s'.index =
      s.index + w.render.length + 1 + name.body.length + d.render.length) :
    objectScan (fuel + 1) json key s =
      if c = '}' then keyNotFound key (s'.goTo (s'.index + after.render.length + 1)).popStack
      else (expect json ',' (s'.index + after.render.length)).bind fun i =>
        objectScan fuel json key (s'.goTo (skipWhitespace json i)) := by
  obtain ⟨j, k, hname, hcolon, hk, hkindex⟩ := name.dig_eq h
  have hafter : At json s'.index (after.render ++ c :: t) := by
    have hmove := hk.move.move
    rwa [hkindex, ← hindex] at hmove
  have hskip := skip_ws hafter (by rintro _ ⟨⟩; exact hc)
  obtain ⟨c₀, hc₀, hopen⟩ : ∃ c₀, json[s.index]? = some c₀ ∧ c₀ ≠ '}' := by
    cases w with
    | nil => exact ⟨'"', h.get_cons, by decide⟩
    | cons b w => exact ⟨b.char, h.get_cons, by cases b <;> decide⟩
  have hfound : ¬ (key.isSome && (some name.key.render : Option Text) = key) = true := by
    rw [Bool.and_eq_true, decide_eq_true_iff]
    exact fun hand => hkey hand.2.symm
  rw [objectScan, hc₀]
  dsimp only
  rw [if_neg hopen, decide_eq_false hopen, Bool.false_and, if_neg Bool.false_ne_true, hname]
  dsimp only [bind, Except.bind]
  rw [show (s.goTo j).index = j from rfl, hcolon]
  dsimp only
  rw [if_neg hfound, show (s.goTo j).goTo k = s.goTo k from rfl, hvalue k hk hkindex]
  dsimp only
  rw [hskip, hafter.move.get_cons]
  by_cases hbrace : c = '}'
  · rw [if_pos hbrace, if_pos (by rw [hbrace])]
  · rw [if_neg hbrace, if_neg (fun heq => hbrace (Option.some.inj heq))]

theorem tail_leftover (left stack : List Container) (c : Container) :
    (left ++ c :: stack).tail = (left ++ [c]).tail ++ stack := by
  cases left <;> simp

/-- Where the scanner is behind a value it has passed over. -/
def Scan.past (s : Scan) (i : Nat) (left : List Container) : Scan :=
  ⟨i, s.startIndex, left ++ s.stack⟩

theorem member_next {key : Option Text} {name : Name} {d : Doc} {after next : Ws} {t : Text}
    (hkey : key ≠ some name.key.render)
    (h : At json s.index (w.render ++ '"' ::
      (name.body ++ (d.render ++ (after.render ++ ',' :: (next.render ++ '"' :: t))))))
    (hvalue : ∀ k, At json k (name.afterColon.render ++
        (d.render ++ (after.render ++ ',' :: (next.render ++ '"' :: t)))) →
      k + name.afterColon.render.length = s.index + w.render.length + 1 + name.body.length →
      digValue fuel json (s.goTo k) = .ok (s.past
        (s.index + w.render.length + 1 + name.body.length + d.render.length) d.leftover)) :
    objectScan (fuel + 1) json key s = objectScan fuel json key (s.past
      (s.index + w.render.length + 1 + name.body.length + d.render.length + after.render.length +
        1 + next.render.length) d.leftover) := by
  have hcomma := h.move.next.move.move.move
  rw [member_scan hkey h rfl hvalue rfl, if_neg (by decide), Scan.past, expect_eq hcomma]
  dsimp only [Except.bind]
  rw [skip_ws hcomma.next (by rintro _ ⟨⟩; rfl)]
  rfl

theorem digArray_open {pos : Option Nat} {t : Text} (h : At json s.index ('[' :: (w.render ++ t)))
    (ht : ∀ c ∈ t.head?, isWhitespace c = false) :
    digArray (fuel + 1) json pos s = arrayScan fuel json pos 0
      ⟨s.index + 1 + w.render.length,
        if pos.isSome then s.index + 1 + w.render.length else s.startIndex, .array :: s.stack⟩ := by
  have hskip : skipWhitespace json s.index = s.index :=
    At.skipWhile_none h (by rintro _ ⟨⟩; rfl)
  rw [digArray]
  dsimp only [bind, Except.bind]
  rw [show (s.pushStack .array).index = s.index from rfl, hskip, expect_eq h]
  dsimp only
  rw [skip_ws h.next ht]
  cases pos <;> rfl

theorem digObject_open {key : Option Text} {t : Text} (h : At json s.index ('{' :: t)) :
    digObject (fuel + 1) json key s =
      objectScan fuel json key ⟨s.index + 1, s.startIndex, .object :: s.stack⟩ := by
  have hskip : skipWhitespace json s.index = s.index :=
    At.skipWhile_none h (by rintro _ ⟨⟩; rfl)
  rw [digObject]
  dsimp only [bind, Except.bind]
  rw [show (s.pushStack .object).index = s.index from rfl, hskip, expect_eq h]
  rfl

theorem digValue_array {i : Nat} (hi : skipWhitespace json s.index = i)
    (hc : json[i]? = some '[') : digValue (fuel + 1) json s = digArray fuel json none (s.goTo i) := by
  rw [digValue, hi, hc]
  rfl

theorem digValue_object {i : Nat} (hi : skipWhitespace json s.index = i)
    (hc : json[i]? = some '{') : digValue (fuel + 1) json s = digObject fuel json none (s.goTo i) := by
  rw [digValue, hi, hc]
  rfl

theorem objectScan_close {key : Option Text} (hc : json[s.index]? = some '}')
    (htop : s.top = some .object) :
    objectScan (fuel + 1) json key s = keyNotFound key (s.goTo (s.index + 1)).popStack := by
  have htop' : (s.goTo (s.index + 1)).top = some .object := htop
  rw [objectScan, hc]
  simp [htop']

section ArrayScan
variable {pos : Option Nat} {current : Nat} {c : Char}

theorem arrayScan_close (hc : json[s.index]? = some ']') :
    arrayScan (fuel + 1) json pos current s = .ok (s.goTo (s.index + 1)) := by
  rw [arrayScan, hc]
  rfl

theorem arrayScan_comma (hc : json[s.index]? = some ',') :
    arrayScan (fuel + 1) json none current s =
      arrayScan fuel json none current (s.goTo (s.index + 1)) := by
  rw [arrayScan, hc]
  simp

theorem arrayScan_value (hc : json[s.index]? = some c) (hclose : c ≠ ']') (hcomma : c ≠ ',') :
    arrayScan (fuel + 1) json pos current s =
      (digValue fuel json s).bind (arrayScan fuel json pos current) := by
  rw [arrayScan, hc]
  split
  · cases ‹some c = none›
  · exact absurd (Option.some.inj ‹_›) hclose
  · exact absurd (Option.some.inj ‹_›) hcomma
  · rfl

/-- An element is passed over from the white space in front of it on. -/
theorem arrayScan_element {d : Doc} {rest : Text} {s' : Scan}
    (h : At json s.index (w.render ++ (d.render ++ rest))) (hd : digValue fuel json s = .ok s') :
    arrayScan (fuel + 1) json pos current s = arrayScan fuel json pos current s' := by
  obtain ⟨c, t, hc, hstart⟩ := d.head
  have hrun : ∃ c, json[s.index]? = some c ∧ c ≠ ']' ∧ c ≠ ',' := by
    cases w with
    | nil =>
      rw [hc] at h
      exact ⟨c, h.get_cons, startsValue_ne hstart rfl, startsValue_ne hstart rfl⟩
    | cons b w => exact ⟨b.char, h.get_cons, by cases b <;> decide, by cases b <;> decide⟩
  obtain ⟨c, hget, hclose, hcomma⟩ := hrun
  rw [arrayScan_value hget hclose hcomma, hd]
  rfl

/-- Inside an array that is passed over, a comma counts for nothing, so it does no harm that
`dig_value` swallows one with white space in front of it. -/
theorem arrayScan_separator {t : Text} (h : At json s.index (w.render ++ ',' :: t)) :
    arrayScan (fuel + 2) json none current s =
      arrayScan (fuel + 1) json none current (s.goTo (s.index + w.render.length + 1)) := by
  cases w with
  | nil => exact arrayScan_comma h.get_cons
  | cons b w =>
    have hskip := skip_ws h (by rintro _ ⟨⟩; rfl)
    have hvalue : digValue (fuel + 1) json s =
        .ok (s.goTo (s.index + (Ws.render (b :: w)).length + 1)) := by
      rw [digValue, hskip, h.move.get_cons]
      rfl
    rw [arrayScan_value (c := b.char) h.get_cons (by cases b <;> decide) (by cases b <;> decide),
      hvalue]
    rfl

end ArrayScan

mutual

theorem Doc.scan_eq (d : Doc) {w : Ws} {rest : Text} (hq : d.Quoted) (hs : d.Skips) (fuel : Nat)
    (s : Scan) (h : At json s.index (w.render ++ (d.render ++ rest))) (hrest : Delimited rest)
    (hfuel : 3 * d.render.length ≤ fuel) :
    digValue fuel json s =
      .ok (s.past (s.index + w.render.length + d.render.length) d.leftover) := by
  obtain ⟨c, t, hc, hstart⟩ := d.head
  obtain ⟨fuel, rfl⟩ : ∃ f, fuel = f + 3 := by
    rw [hc, List.length_cons] at hfuel
    exact ⟨fuel - 3, by omega⟩
  have hskip := skip_ws h (d.solid_head rest)
  have hd := h.move
  cases d with
  | null =>
    rw [Doc.render] at hd ⊢
    rw [digValue, hskip, hd.get_cons]
    exact keyword_eq (s := s.goTo _) hd (by rintro _ ⟨⟩; rfl) (by decide)
  | bool b =>
    cases b with
    | true =>
      rw [Doc.render, if_pos rfl] at hd ⊢
      rw [digValue, hskip, hd.get_cons]
      exact keyword_eq (s := s.goTo _) hd (by rintro _ ⟨⟩; rfl) (by decide)
    | false =>
      rw [Doc.render, if_neg Bool.false_ne_true] at hd ⊢
      rw [digValue, hskip, hd.get_cons]
      exact keyword_eq (s := s.goTo _) hd (by rintro _ ⟨⟩; rfl) (by decide)
  | number n =>
    rw [Doc.render] at hd ⊢
    obtain ⟨c, t, hc, hdigit⟩ := n.head
    have hget : json[s.index + w.render.length]? = some c := by
      rw [hc] at hd
      exact hd.get_cons
    rw [digValue_number hskip hget hdigit, digNumber_eq (s := s.goTo _) hd hs hrest]
    rfl
  | string lit =>
    rw [Doc.render] at hd ⊢
    have hq : At json (s.index + w.render.length) ('"' :: (lit.render ++ '"' :: rest)) := by
      simpa using hd
    have hread := digString_eq false (w := []) (s := s.goTo _) hq
    rw [digValue, hskip, hq.get_cons, hread]
    simp [Except.map, Scan.goTo, Scan.past, Doc.leftover, Ws.render]
    omega
  | emptyArray inner =>
    rw [Doc.render] at hd ⊢
    have hopen : At json (s.index + w.render.length) ('[' :: (inner.render ++ ']' :: rest)) := by
      simpa using hd
    rw [digValue_array hskip hopen.get_cons,
      digArray_open (s := s.goTo _) hopen (by rintro _ ⟨⟩; rfl),
      arrayScan_close hopen.next.move.get_cons]
    simp [Scan.goTo, Scan.past, Doc.leftover]
    omega
  | array es =>
    rw [Doc.render] at hd hfuel ⊢
    have hopen : At json (s.index + w.render.length)
        ('[' :: (es.before.render ++ (es.body ++ ']' :: rest))) := by simpa using hd
    have hfirst := es.solid_head (']' :: rest)
    have hfuel' : 3 * es.body.length + 3 ≤ fuel + 1 := by
      simp only [List.length_cons, List.length_append] at hfuel
      omega
    rw [digValue_array hskip hopen.get_cons, digArray_open (s := s.goTo _) hopen hfirst,
      Elems.scan_eq es (w := []) hq hs _ 0 _ hopen.next.move hfuel']
    simp [Scan.goTo, Scan.past, Doc.leftover, Ws.render]
    omega
  | emptyObject inner =>
    obtain rfl : inner = [] := hs
    rw [Doc.render] at hd ⊢
    have hopen : At json (s.index + w.render.length) ('{' :: '}' :: rest) := hd
    rw [digValue_object hskip hopen.get_cons, digObject_open (s := s.goTo _) hopen,
      objectScan_close hopen.next.get_cons rfl]
    simp [Scan.goTo, Scan.past, Doc.leftover, Scan.popStack, keyNotFound, Ws.render]
  | object opening hopen ms =>
    rw [Doc.render, hq.1] at hd hfuel
    rw [Doc.render]
    have hbrace : At json (s.index + w.render.length)
        ('{' :: (ms.before.render ++ '"' :: (ms.body ++ '}' :: rest))) := by simpa using hd
    have hfuel' : 3 * ms.body.length + 1 ≤ fuel + 1 := by
      simp only [List.length_cons, List.length_append] at hfuel
      omega
    rw [digValue_object hskip hbrace.get_cons, digObject_open (s := s.goTo _) hbrace,
      Members.scan_eq ms none hq.2 hs nofun _ _ hbrace.next hfuel']
    simp only [Scan.goTo, Scan.past, Doc.leftover, Scan.popStack, keyNotFound,
      List.length_append, List.length_cons, List.length_nil]
    rw [tail_leftover]
    congr 2
    omega

theorem Elems.scan_eq (es : Elems) {w : Ws} {rest : Text} (hq : es.Quoted) (hs : es.Skips)
    (fuel current : Nat) (s : Scan) (h : At json s.index (w.render ++ (es.body ++ ']' :: rest)))
    (hfuel : 3 * es.body.length + 3 ≤ fuel) :
    arrayScan fuel json none current s =
      .ok (s.past (s.index + w.render.length + es.body.length + 1) es.leftover) := by
  obtain ⟨fuel, rfl⟩ : ∃ f, fuel = f + 3 := ⟨fuel - 3, by omega⟩
  cases es with
  | last before d after =>
    obtain ⟨hd, rfl⟩ := hs
    rw [Elems.body, List.append_assoc] at h
    rw [Elems.body, List.length_append] at hfuel
    have hvalue := Doc.scan_eq d hq hd (fuel + 2) s h (Delimited.cons rfl) (by omega)
    have hclose := h.move.move
    rw [arrayScan_element h hvalue, arrayScan_close hclose.get_cons]
    simp [Scan.goTo, Scan.past, Elems.leftover, Elems.body, Ws.render]
  | cons before d after more =>
    obtain ⟨hqd, hqmore⟩ := hq
    obtain ⟨hd, hmore⟩ := hs
    rw [Elems.body, List.append_assoc, List.append_assoc, List.cons_append, List.append_assoc] at h
    rw [Elems.body] at hfuel
    simp only [List.length_append, List.length_cons] at hfuel
    have hdelim : Delimited (after.render ++
        ',' :: (more.before.render ++ (more.body ++ ']' :: rest))) :=
      Delimited.of_ws (Delimited.cons rfl)
    have hvalue := Doc.scan_eq d hqd hd (fuel + 2) s h hdelim (by omega)
    have hafter := h.move.move
    have hnext := hafter.move.next
    rw [arrayScan_element h hvalue, arrayScan_separator hafter,
      Elems.scan_eq more hqmore hmore (fuel + 1) current _ hnext (by omega)]
    simp [Scan.goTo, Scan.past, Elems.leftover, Elems.body]
    omega

theorem Members.scan_eq (ms : Members) {w : Ws} {rest : Text} (key : Option Text) (hq : ms.Quoted)
    (hs : ms.Skips) (hkey : ∀ k ∈ key, k ∉ ms.written) (fuel : Nat) (s : Scan)
    (h : At json s.index (w.render ++ '"' :: (ms.body ++ '}' :: rest)))
    (hfuel : 3 * ms.body.length + 1 ≤ fuel) :
    objectScan fuel json key s =
      keyNotFound key (s.past (s.index + w.render.length + 1 + ms.body.length + 1)
        ms.leftover).popStack := by
  obtain ⟨fuel, rfl⟩ : ∃ f, fuel = f + 1 := ⟨fuel - 1, by omega⟩
  cases ms with
  | last name d after =>
    rw [Members.body, List.append_assoc, List.append_assoc] at h
    rw [Members.body] at hfuel
    simp only [List.length_append] at hfuel
    have hne : key ≠ some name.key.render := by
      rintro rfl
      exact hkey _ rfl List.mem_cons_self
    have hdelim : Delimited (after.render ++ '}' :: rest) := Delimited.of_ws (Delimited.cons rfl)
    have hvalue : ∀ k, At json k (name.afterColon.render ++
        (d.render ++ (after.render ++ '}' :: rest))) →
        k + name.afterColon.render.length = s.index + w.render.length + 1 + name.body.length →
        digValue fuel json (s.goTo k) = .ok (s.past
          (s.index + w.render.length + 1 + name.body.length + d.render.length) d.leftover) := by
      intro k hk hindex
      have hscan := Doc.scan_eq d hq.2 hs fuel (s.goTo k) hk hdelim (by omega)
      rw [show (s.goTo k).index = k from rfl, hindex] at hscan
      exact hscan
    rw [member_scan hne h rfl hvalue rfl, if_pos rfl]
    simp only [Scan.goTo, Scan.past, Members.leftover, Members.body, List.length_append]
    congr 3
    omega
  | cons name d after opening more =>
    obtain ⟨_, hqd, hopen, hqmore⟩ := hq
    obtain ⟨hsd, hsmore⟩ := hs
    rw [Members.body, hopen, List.append_assoc, List.append_assoc, List.append_assoc,
      List.cons_append, List.append_assoc, List.cons_append] at h
    rw [Members.body] at hfuel
    simp only [List.length_append, List.length_cons] at hfuel
    have hne : key ≠ some name.key.render := by
      rintro rfl
      exact hkey _ rfl List.mem_cons_self
    have hdelim : Delimited (after.render ++
        ',' :: (more.before.render ++ '"' :: (more.body ++ '}' :: rest))) :=
      Delimited.of_ws (Delimited.cons rfl)
    have hvalue : ∀ k, At json k (name.afterColon.render ++ (d.render ++ (after.render ++
        ',' :: (more.before.render ++ '"' :: (more.body ++ '}' :: rest))))) →
        k + name.afterColon.render.length = s.index + w.render.length + 1 + name.body.length →
        digValue fuel json (s.goTo k) = .ok (s.past
          (s.index + w.render.length + 1 + name.body.length + d.render.length) d.leftover) := by
      intro k hk hindex
      have hscan := Doc.scan_eq d hqd hsd fuel (s.goTo k) hk hdelim (by omega)
      rw [show (s.goTo k).index = k from rfl, hindex] at hscan
      exact hscan
    have hnext := h.move.next.move.move.move.next.move
    rw [member_next hne h hvalue,
      Members.scan_eq more (w := []) key hqmore hsmore
        (fun k hk hmem => hkey k hk (List.mem_cons_of_mem _ hmem)) fuel _ hnext (by omega)]
    simp only [Scan.past, Members.leftover, Members.body, List.length_append,
      List.length_cons, List.append_assoc, Ws.render, List.map_nil, List.length_nil]
    congr 3
    omega

end

theorem Doc.scan_member {d : Doc} {rest : Text} {i n : Nat} (hq : d.Quoted) (hs : d.Skips)
    (h : At json i (w.render ++ (d.render ++ rest))) (hrest : Delimited rest)
    (hindex : i + w.render.length = n) (hfuel : 3 * d.render.length ≤ fuel) :
    digValue fuel json (s.goTo i) = .ok (s.past (n + d.render.length) d.leftover) := by
  have hscan := d.scan_eq hq hs fuel (s.goTo i) h hrest hfuel
  rw [show (s.goTo i).index = i from rfl, hindex] at hscan
  exact hscan

end Values

end PicoRuby.Json
