import PicoRuby.Json.Soundness
import Mathlib.Algebra.Order.Field.Rat
import Mathlib.Algebra.Order.Field.Power
import Mathlib.Tactic.Ring
import Mathlib.Tactic.FieldSimp

/-!
# What a JSON text denotes

The value of a text, said without the parser: an integer literal is the number it writes in
base ten, and of repeated keys the last one counts. `JSON::Parser` returns this value for
every text without fractions; it reads the digits behind the point as if they stood in
front of it.
-/

namespace PicoRuby.Json

open Shared

set_option autoImplicit false

/-- The digits in front of the point and behind it. -/
def Number.mantissa (n : Number) : Text := n.integer.chars ++ ((n.fraction.map Digits.chars).getD [])

/-- The integer that the digits of a literal write, with its sign. -/
def Number.integerValue (n : Number) : Int :=
  if n.negative then -Nat.ofDigitChars 10 n.integer.chars 0 else Nat.ofDigitChars 10 n.integer.chars 0

section Denotes
variable {F : Type}

/-- `real` gives the literals with a fraction or an exponent. -/
def Number.denotes (real : Number → F) (n : Number) : Value F :=
  if n.isFloat then .float (real n) else .int n.integerValue

mutual

def Doc.denotes (real : Number → F) : Doc → Value F
  | .null => .null
  | .bool b => .bool b
  | .number n => n.denotes real
  | .string s => .string s.denote
  | .emptyArray _ => .array []
  | .array es => .array (es.denotes real)
  | .emptyObject _ => .object []
  | .object _ _ ms => .object (storeInto [] (ms.denotes real))

def Elems.denotes (real : Number → F) : Elems → List (Value F)
  | .last _ d _ => [d.denotes real]
  | .cons _ d _ rest => d.denotes real :: rest.denotes real

/-- The pairs of key and value in the order of the text. -/
def Members.denotes (real : Number → F) : Members → List (Text × Value F)
  | .last name d _ => [(name.key.denote, d.denotes real)]
  | .cons name d _ _ rest => (name.key.denote, d.denotes real) :: rest.denotes real

end

end Denotes

/-- The keys in the order of the text. -/
def Members.names : Members → List Text
  | .last name _ _ => [name.key.denote]
  | .cons name _ _ _ rest => name.key.denote :: rest.names

mutual

/-- `p` holds of the numbers that count: not of those under a key that is repeated later. -/
def Doc.Numbers (p : Number → Prop) : Doc → Prop
  | .number n => p n
  | .array es => es.Numbers p
  | .object _ _ ms => ms.Numbers p
  | _ => True

def Elems.Numbers (p : Number → Prop) : Elems → Prop
  | .last _ d _ => d.Numbers p
  | .cons _ d _ rest => d.Numbers p ∧ rest.Numbers p

def Members.Numbers (p : Number → Prop) : Members → Prop
  | .last _ d _ => d.Numbers p
  | .cons name d _ _ rest => (name.key.denote ∈ rest.names ∨ d.Numbers p) ∧ rest.Numbers p

end

theorem Members.denotes_keys {F : Type} (real : Number → F) (ms : Members) :
    (ms.denotes real).map Prod.fst = ms.names := by
  match ms with
  | .last name d _ => rw [Members.denotes]; rfl
  | .cons name d _ _ rest =>
    rw [Members.denotes]
    exact congrArg (name.key.denote :: ·) (Members.denotes_keys real rest)

/-- Under one key in front of other pairs, the values count if the key does not come again. -/
theorem lastValue_cons_iff {F : Type} {k : Text} {v v' : Value F} {l l' : List (Text × Value F)}
    (hkeys : l.map Prod.fst = l'.map Prod.fst) :
    (∀ a, lastValue ((k, v) :: l) a = lastValue ((k, v') :: l') a) ↔
      (k ∈ l.map Prod.fst ∨ v = v') ∧ ∀ a, lastValue l a = lastValue l' a := by
  have hsome : ∀ a, (lastValue l a).isSome = (lastValue l' a).isSome := by
    intro a
    rw [Bool.eq_iff_iff, lastValue_isSome, lastValue_isSome, hkeys]
  constructor
  · intro h
    have htail : ∀ a, lastValue l a = lastValue l' a := by
      intro a
      have ha := h a
      have hiff := hsome a
      rw [lastValue, lastValue] at ha
      cases hl : lastValue l a <;> cases hl' : lastValue l' a <;> simp_all
    refine ⟨?_, htail⟩
    by_cases hk : k ∈ l.map Prod.fst
    · exact Or.inl hk
    · have hnone : lastValue l k = none := by
        rw [← Option.not_isSome_iff_eq_none, lastValue_isSome]
        exact hk
      have hhead := h k
      rw [lastValue, lastValue, ← htail, hnone, if_pos rfl, if_pos rfl] at hhead
      exact Or.inr (Option.some.inj hhead)
  · rintro ⟨hhead, htail⟩ a
    rw [lastValue, lastValue, ← htail]
    rcases hhead with hk | rfl
    · by_cases ha : k = a
      · subst ha
        obtain ⟨w, hw⟩ := Option.isSome_iff_exists.mp (lastValue_isSome.mpr hk)
        rw [hw]
        rfl
      · rw [if_neg ha, if_neg ha]
    · rfl

section Agreement
variable {F : Type} [FloatArith F]

/-- The pairs as the parser stores them. -/
def Members.pairs : Members → List (Text × Value F)
  | .last name d _ => [(name.key.denote, d.value)]
  | .cons name d _ _ rest => (name.key.denote, d.value) :: rest.pairs

theorem Members.addTo_eq (ms : Members) (l : List (Text × Value F)) :
    ms.addTo l = storeInto l ms.pairs := by
  match ms with
  | .last name d _ => rw [Members.addTo]; rfl
  | .cons name d _ _ rest =>
    rw [Members.addTo, Members.addTo_eq rest]
    rfl

theorem Members.pairs_keys (ms : Members) :
    (ms.pairs : List (Text × Value F)).map Prod.fst = ms.names := by
  match ms with
  | .last name d _ => rfl
  | .cons name d _ _ rest => exact congrArg (name.key.denote :: ·) (Members.pairs_keys rest)

mutual

/-- The parser's value is the denoted one exactly if it gets the numbers that count right. -/
theorem Doc.value_eq_iff (real : Number → F) : (d : Doc) →
    (d.value = d.denotes real ↔ d.Numbers fun n => n.value = n.denotes real)
  | .null => by simp [Doc.value, Doc.denotes, Doc.Numbers]
  | .bool b => by simp [Doc.value, Doc.denotes, Doc.Numbers]
  | .number n => by simp [Doc.value, Doc.denotes, Doc.Numbers]
  | .string s => by simp [Doc.value, Doc.denotes, Doc.Numbers]
  | .emptyArray inner => by simp [Doc.value, Doc.denotes, Doc.Numbers]
  | .array es => by
    rw [Doc.value, Doc.denotes, Doc.Numbers, Value.array.injEq]
    exact Elems.values_eq_iff real es
  | .emptyObject inner => by simp [Doc.value, Doc.denotes, Doc.Numbers]
  | .object opening hopen ms => by
    have hkeys := (ms.pairs_keys (F := F)).trans (ms.denotes_keys real).symm
    rw [Doc.value, Doc.denotes, Doc.Numbers, Value.object.injEq, Members.addTo_eq,
      storeInto_eq_iff hkeys]
    exact Members.pairs_eq_iff real ms

theorem Elems.values_eq_iff (real : Number → F) : (es : Elems) →
    (es.values = es.denotes real ↔ es.Numbers fun n => n.value = n.denotes real)
  | .last before d after => by
    rw [Elems.values, Elems.denotes, Elems.Numbers, List.cons.injEq, Doc.value_eq_iff real d]
    simp
  | .cons before d after rest => by
    rw [Elems.values, Elems.denotes, Elems.Numbers, List.cons.injEq, Doc.value_eq_iff real d,
      Elems.values_eq_iff real rest]

theorem Members.pairs_eq_iff (real : Number → F) : (ms : Members) →
    ((∀ k, lastValue ms.pairs k = lastValue (ms.denotes real) k) ↔
      ms.Numbers fun n => n.value = n.denotes real)
  | .last name d after => by
    rw [Members.pairs, Members.denotes, Members.Numbers, lastValue_cons_iff rfl,
      Doc.value_eq_iff real d]
    simp
  | .cons name d after opening rest => by
    have hkeys := (rest.pairs_keys (F := F)).trans (rest.denotes_keys real).symm
    rw [Members.pairs, Members.denotes, Members.Numbers, lastValue_cons_iff hkeys,
      Doc.value_eq_iff real d, Members.pairs_keys, Members.pairs_eq_iff real rest]

end

end Agreement

/-! ## Integers -/

theorem digits_foldl (l : Text) (acc : Nat) :
    l.foldl (fun result c => result * 10 + (digitValue c : Int)) (acc : Int) =
      (Nat.ofDigitChars 10 l acc : Int) := by
  induction l generalizing acc with
  | nil => simp
  | cons c l ih =>
    rw [List.foldl_cons, Nat.ofDigitChars_cons, ← ih]
    congr 1
    rw [digitValue]
    push_cast
    omega

theorem parseInteger_unsigned {d : Digits} (hne : d.chars ≠ []) :
    parseInteger d.chars = (Nat.ofDigitChars 10 d.chars 0 : Int) := by
  obtain ⟨c, t, hc, hd⟩ := Digits.head hne
  have hno : d.chars.head? ≠ some '-' := by
    rw [hc]
    intro heq
    exact isDigit_ne hd (x := '-') rfl (Option.some.inj heq)
  simp only [parseInteger, hno, if_false]
  exact_mod_cast digits_foldl d.chars 0

theorem parseInteger_negative (d : Digits) :
    parseInteger ('-' :: d.chars) = -(Nat.ofDigitChars 10 d.chars 0 : Int) := by
  simp only [parseInteger, List.head?_cons, if_true, List.tail_cons]
  exact congrArg _ (by exact_mod_cast digits_foldl d.chars 0)

theorem Number.value_of_integral {F : Type} [FloatArith F] (real : Number → F) {n : Number}
    (h : n.isFloat = false) : n.value = n.denotes real := by
  have hnone : n.fraction = none ∧ n.exponent = none := by simpa [Number.isFloat] using h
  have hrender : n.render = n.sign ++ n.integer.chars := by
    simp [Number.render, Number.fractionText, Number.exponentText, hnone.1, hnone.2]
  rw [Number.value, Number.denotes, h, hrender, Number.integerValue, Number.sign]
  cases hneg : n.negative with
  | true => simpa using parseInteger_negative n.integer
  | false =>
    have hne : n.integer.chars ≠ [] := n.starts.resolve_left (by simp [hneg])
    simpa using parseInteger_unsigned hne

mutual

theorem Doc.Numbers.imp {pn q q' : Number → Prop} {pi : StrItem → Prop}
    (himp : ∀ n, pn n → q n → q' n) : (d : Doc) → d.Conforms pn pi → d.Numbers q → d.Numbers q'
  | .null, _, _ => trivial
  | .bool _, _, _ => trivial
  | .number n, h, hq => himp n h hq
  | .string _, _, _ => trivial
  | .emptyArray _, _, _ => trivial
  | .array es, h, hq => Elems.Numbers.imp himp es h hq
  | .emptyObject _, _, _ => trivial
  | .object _ _ ms, h, hq => Members.Numbers.imp himp ms h.2 hq

theorem Elems.Numbers.imp {pn q q' : Number → Prop} {pi : StrItem → Prop}
    (himp : ∀ n, pn n → q n → q' n) :
    (es : Elems) → es.Conforms pn pi → es.Numbers q → es.Numbers q'
  | .last _ d _, h, hq => Doc.Numbers.imp himp d h hq
  | .cons _ d _ rest, h, hq =>
    ⟨Doc.Numbers.imp himp d h.1 hq.1, Elems.Numbers.imp himp rest h.2 hq.2⟩

theorem Members.Numbers.imp {pn q q' : Number → Prop} {pi : StrItem → Prop}
    (himp : ∀ n, pn n → q n → q' n) :
    (ms : Members) → ms.Conforms pn pi → ms.Numbers q → ms.Numbers q'
  | .last _ d _, h, hq => Doc.Numbers.imp himp d h.2 hq
  | .cons _ d _ _ rest, h, hq =>
    ⟨hq.1.imp_right (Doc.Numbers.imp himp d h.2.1), Members.Numbers.imp himp rest h.2.2.2 hq.2⟩

end

mutual

theorem Doc.numbers_true : (d : Doc) → d.Numbers fun _ => True
  | .null => trivial
  | .bool _ => trivial
  | .number _ => trivial
  | .string _ => trivial
  | .emptyArray _ => trivial
  | .array es => Elems.numbers_true es
  | .emptyObject _ => trivial
  | .object _ _ ms => Members.numbers_true ms

theorem Elems.numbers_true : (es : Elems) → es.Numbers fun _ => True
  | .last _ d _ => Doc.numbers_true d
  | .cons _ d _ rest => ⟨Doc.numbers_true d, Elems.numbers_true rest⟩

theorem Members.numbers_true : (ms : Members) → ms.Numbers fun _ => True
  | .last _ d _ => Doc.numbers_true d
  | .cons _ d _ _ rest => ⟨Or.inr (Doc.numbers_true d), Members.numbers_true rest⟩

end

theorem Ws.delimited (ws : Ws) : Delimited ws.render := by
  cases ws with
  | nil => nofun
  | cons b ws =>
    rintro _ ⟨⟩
    simp [isDelimiter, b.whitespace]

/-- `JSON.parse` returns the denoted value of every text of integers, strings, arrays and
objects, wherever white space stands behind the first character. -/
theorem parse_integral {F : Type} [FloatArith F] (real : Number → F) (d : Doc)
    (h : d.Conforms Number.Integral StrItem.Plain) (trailing : Ws) :
    parseText (d.render ++ trailing.render) = .ok (d.denotes real) := by
  have hnumbers := Doc.Numbers.imp (q := fun _ => True)
    (fun n hn _ => Number.value_of_integral real hn.integral) d h d.numbers_true
  rw [parseText_eq d (Doc.Stops.of_delimited trailing.delimited),
    (Doc.value_eq_iff real d).mpr hnumbers]

theorem parse_integral_array :
    parseText ['[', ' ', '-', '4', '2', '\t', ']', '\n'] = .ok (.array [.int (-42)] : Value Rat) :=
  parse_integral (fun _ => 0)
    (.array (.last [.space] (.number ⟨true, .ofText ['4', '2'] rfl, none, none, Or.inl rfl⟩) [.tab]))
    ⟨by decide, rfl⟩ [.newline]

end PicoRuby.Json
