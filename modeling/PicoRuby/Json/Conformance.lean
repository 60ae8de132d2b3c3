import PicoRuby.Json.Denotation

/-!
# Which texts the parser treats as RFC 8259 says

`parse_float` never divides by the place of a digit: the scale it keeps for that is
still one when the first digit behind the point arrives. With the float operations taken
as exact, a literal gets its value if it has no fraction or no digit but zeros.
-/

namespace PicoRuby.Json

open Shared

set_option autoImplicit false

/-! ## Floats in exact arithmetic -/

theorem tenPow_eq (e : Int) : (FloatArith.tenPow e : Rat) = 10 ^ e := by
  change (if 0 ≤ e then (10 : Rat) ^ e.toNat else 1 / 10 ^ (-e).toNat) = _
  split
  · rename_i h
    obtain ⟨n, rfl⟩ := Int.eq_ofNat_of_zero_le h
    simp
  · rename_i h
    obtain ⟨n, hn⟩ := Int.eq_ofNat_of_zero_le (show 0 ≤ -e by omega)
    obtain rfl : e = -(n : Int) := by omega
    simp

/-- The digits in front of the exponent are read as one integer. -/
theorem foldl_mantissa {l : Text} (hl : ∀ c ∈ l, isDigit c = true) (m : Nat) :
    l.foldl floatStep (⟨(m : Rat), 1, 0, false, false⟩ : FloatScan Rat) =
      ⟨(Nat.ofDigitChars 10 l m : Rat), 1, 0, false, false⟩ := by
  induction l generalizing m with
  | nil => simp
  | cons c l ih =>
    have hc := hl c List.mem_cons_self
    have hstep : floatStep (⟨(m : Rat), 1, 0, false, false⟩ : FloatScan Rat) c =
        ⟨((10 * m + digitValue c : Nat) : Rat), 1, 0, false, false⟩ := by
      have hone : FloatArith.isOne (1 : Rat) = true := rfl
      rw [floatStep, if_pos hc]
      dsimp only
      rw [if_neg Bool.false_ne_true, if_pos hone]
      change (⟨(m : Rat) * (10 : Nat) + (digitValue c : Rat), 1, 0, false, false⟩ : FloatScan Rat) = _
      congr 1
      push_cast
      ring
    rw [List.foldl_cons, hstep, ih (fun a ha => hl a (List.mem_cons_of_mem _ ha)),
      Nat.ofDigitChars_cons, digitValue]

theorem foldl_exponent {l : Text} (hl : ∀ c ∈ l, isDigit c = true) (m : Rat) (e : Nat) (neg : Bool) :
    l.foldl floatStep ⟨m, 1, e, neg, true⟩ = ⟨m, 1, Nat.ofDigitChars 10 l e, neg, true⟩ := by
  induction l generalizing e with
  | nil => simp
  | cons c l ih =>
    have hc := hl c List.mem_cons_self
    have hstep : floatStep (⟨m, 1, e, neg, true⟩ : FloatScan Rat) c =
        ⟨m, 1, 10 * e + digitValue c, neg, true⟩ := by
      rw [floatStep, if_pos hc, Nat.mul_comm]
      rfl
    rw [List.foldl_cons, hstep, ih (fun a ha => hl a (List.mem_cons_of_mem _ ha)),
      Nat.ofDigitChars_cons, digitValue]

/-- The power of ten behind the exponent mark. -/
def Number.exponentValue (n : Number) : Int :=
  match n.exponent with
  | none => 0
  | some e =>
    if e.sign = some .minus then -(Nat.ofDigitChars 10 e.digits.chars 0)
    else Nat.ofDigitChars 10 e.digits.chars 0

/-- All digits of the literal in front of the exponent, as one integer. -/
def Number.mantissaValue (n : Number) : Nat := Nat.ofDigitChars 10 n.mantissa 0

def Number.fractionLength (n : Number) : Nat := ((n.fraction.map Digits.chars).getD []).length

def Number.signValue (n : Number) : Rat := if n.negative then -1 else 1

/-- The rational number that the literal writes. -/
def Number.rational (n : Number) : Rat :=
  n.signValue * n.mantissaValue * 10 ^ (n.exponentValue - n.fractionLength)

theorem foldl_exponentText (n : Number) (m : Rat) :
    ∃ (e : Nat) (neg parsing : Bool),
      n.exponentText.foldl floatStep (⟨m, 1, 0, false, false⟩ : FloatScan Rat) =
        ⟨m, 1, e, neg, parsing⟩ ∧ (if neg then -(e : Int) else e) = n.exponentValue := by
  unfold Number.exponentText Number.exponentValue
  cases n.exponent with
  | none => exact ⟨0, false, false, rfl, rfl⟩
  | some x =>
    obtain ⟨upper, sign, digits⟩ := x
    have hmark : floatStep (⟨m, 1, 0, false, false⟩ : FloatScan Rat) (if upper then 'E' else 'e') =
        ⟨m, 1, 0, false, true⟩ := by
      cases upper <;> rfl
    simp only [Exponent.render, List.cons_append, List.foldl_cons, hmark, List.foldl_append]
    rcases sign with _ | (_ | _)
    · exact ⟨Nat.ofDigitChars 10 digits.chars 0, false, true, foldl_exponent digits.digit m 0 false,
        by simp⟩
    · exact ⟨Nat.ofDigitChars 10 digits.chars 0, false, true, foldl_exponent digits.digit m 0 false,
        by simp⟩
    · exact ⟨Nat.ofDigitChars 10 digits.chars 0, true, true, foldl_exponent digits.digit m 0 true,
        by simp⟩

/-- The part of a literal behind its sign. -/
def Number.unsigned (n : Number) : Text := n.integer.chars ++ (n.fractionText ++ n.exponentText)

theorem foldl_unsigned (n : Number) :
    n.unsigned.foldl floatStep (⟨0, 1, 0, false, false⟩ : FloatScan Rat) =
      n.exponentText.foldl floatStep ⟨(n.mantissaValue : Rat), 1, 0, false, false⟩ := by
  have hint := foldl_mantissa n.integer.digit 0
  rw [Nat.cast_zero] at hint
  rw [Number.unsigned, List.foldl_append, hint, List.foldl_append]
  congr 1
  unfold Number.mantissaValue Number.mantissa Number.fractionText
  cases n.fraction with
  | none => simp
  | some d =>
    have hdot : ∀ m : Rat, floatStep (⟨m, 1, 0, false, false⟩ : FloatScan Rat) '.' =
        ⟨m, 1, 0, false, false⟩ := fun _ => rfl
    rw [List.foldl_cons, hdot, foldl_mantissa d.digit]
    simp [Nat.ofDigitChars_append]

/-- What `parse_float` computes: the fraction is read but not scaled. -/
theorem parseFloat_eq (n : Number) :
    (parseFloat n.render : Rat) = n.signValue * n.mantissaValue * 10 ^ n.exponentValue := by
  obtain ⟨e, neg, parsing, hfold, he⟩ := foldl_exponentText n n.mantissaValue
  have hscan := (foldl_unsigned n).trans hfold
  have hvalue : ∀ sign : Bool, (if sign then FloatArith.neg else id)
      (FloatArith.mul (n.mantissaValue : Rat) (FloatArith.tenPow n.exponentValue)) =
        (if sign then -1 else 1) * n.mantissaValue * 10 ^ n.exponentValue := by
    intro sign
    rw [tenPow_eq]
    cases sign with
    | true =>
      change -((n.mantissaValue : Rat) * 10 ^ n.exponentValue) = _
      simp
    | false =>
      change (n.mantissaValue : Rat) * 10 ^ n.exponentValue = _
      simp
  have hzero : (FloatArith.ofNat 0 : Rat) = 0 := Nat.cast_zero
  have hone : (FloatArith.ofNat 1 : Rat) = 1 := Nat.cast_one
  rw [Number.signValue, ← hvalue]
  cases hneg : n.negative with
  | true =>
    have hrender : n.render = '-' :: n.unsigned := by
      simp [Number.render, Number.sign, hneg, Number.unsigned]
    simp only [parseFloat, hrender, List.head?_cons, if_true, List.tail_cons, hzero, hone, hscan, he]
  | false =>
    have hrender : n.render = n.unsigned := by
      simp [Number.render, Number.sign, hneg, Number.unsigned]
    obtain ⟨c, t, hc, hd⟩ := Digits.head (n.starts.resolve_left (by simp [hneg]))
    have hno : n.unsigned.head? ≠ some '-' := by
      rw [Number.unsigned, hc]
      intro heq
      exact isDigit_ne hd (x := '-') rfl (Option.some.inj heq)
    simp only [parseFloat, hrender, hno, if_false, hzero, hone, hscan, he]
    rfl

theorem isDigit_le {c : Char} (h : isDigit c = true) : 48 ≤ c.toNat := by
  rw [isDigit, Bool.and_eq_true, decide_eq_true_iff] at h
  exact h.1

theorem ofDigitChars_eq_zero {l : Text} (hl : ∀ c ∈ l, isDigit c = true) :
    Nat.ofDigitChars 10 l 0 = 0 ↔ ∀ c ∈ l, c = '0' := by
  induction l with
  | nil => simp
  | cons c l ih =>
    have hge := isDigit_le (hl c List.mem_cons_self)
    have hc : c.toNat - 48 = 0 ↔ c = '0' := by
      rw [← Char.toNat_inj]
      change _ ↔ c.toNat = 48
      omega
    rw [Nat.ofDigitChars_cons, Nat.ofDigitChars_eq_ofDigitChars_zero, List.forall_mem_cons,
      ← ih fun a ha => hl a (List.mem_cons_of_mem _ ha), ← hc]
    simp

/-- The literal has no fraction, or no digit but zeros in front of the exponent. -/
def Number.Exact (n : Number) : Prop := n.fraction = none ∨ ∀ c ∈ n.mantissa, c = '0'

theorem Number.mantissa_digit (n : Number) : ∀ c ∈ n.mantissa, isDigit c = true := by
  intro c hc
  rcases List.mem_append.mp hc with hc | hc
  · exact n.integer.digit c hc
  · cases hfrac : n.fraction with
    | none =>
      rw [hfrac] at hc
      cases hc
    | some d =>
      rw [hfrac] at hc
      exact d.digit c hc

theorem Number.value_eq_iff {n : Number} (h : n.Strict) :
    n.value = n.denotes Number.rational ↔ n.Exact := by
  cases hfloat : n.isFloat with
  | false =>
    have hnone : n.fraction = none ∧ n.exponent = none := by simpa [Number.isFloat] using hfloat
    exact iff_of_true (Number.value_of_integral _ hfloat) (Or.inl hnone.1)
  | true =>
    have hten : (0 : Rat) < 10 := by decide
    have hsign : n.signValue ≠ 0 := by
      unfold Number.signValue
      split <;> decide
    have hlength : n.fractionLength = 0 ↔ n.fraction = none := by
      unfold Number.fractionLength
      cases hfrac : n.fraction with
      | none => simp
      | some d => simpa using h.fraction d hfrac
    rw [Number.value, Number.denotes, hfloat, if_pos rfl, if_pos rfl, Value.float.injEq, parseFloat_eq,
      Number.rational, Number.Exact, ← ofDigitChars_eq_zero n.mantissa_digit, ← hlength]
    change _ ↔ n.fractionLength = 0 ∨ n.mantissaValue = 0
    by_cases hm : n.mantissaValue = 0
    · simp [hm]
    · have hne : n.signValue * (n.mantissaValue : Rat) ≠ 0 :=
        mul_ne_zero hsign (by exact_mod_cast hm)
      rw [mul_right_inj' hne, zpow_right_inj₀ hten (by decide)]
      simp only [hm, or_false]
      omega

/-! ## Texts -/

/-- `s` is a text of RFC 8259 without `\u`, and `v` is what it denotes. -/
def Denotes (s : Text) (v : Value Rat) : Prop :=
  ∃ (leading : Ws) (d : Doc) (trailing : Ws), d.Strict ∧
    s = leading.render ++ (d.render ++ trailing.render) ∧ d.denotes Number.rational = v

/-- `JSON.parse` returns a value only if the text denotes it, and raises a JSON error for a
text that denotes none. -/
def ParsedSoundly (s : Text) : Prop :=
  (∀ v, parseText s = .ok v → Denotes s v) ∧
    ((∀ v, ¬ Denotes s v) → ∃ e, parseText (F := Rat) s = .error e ∧ e.isJson = true)

/-- `s` starts with a text of the grammar that the parser follows. -/
def Accepted (s : Text) : Prop := ∃ (d : Doc) (rest : Text), s = d.render ++ rest ∧ d.Stops rest

/-- `s` is a text of RFC 8259 with no white space in front, and its fractions are zero. -/
def Regular (s : Text) : Prop :=
  ∃ (d : Doc) (trailing : Ws), s = d.render ++ trailing.render ∧ d.Strict ∧ d.Numbers Number.Exact

theorem Doc.value_eq_denotes {d : Doc} (h : d.Strict) :
    d.value = d.denotes Number.rational ↔ d.Numbers Number.Exact := by
  rw [Doc.value_eq_iff]
  exact ⟨Doc.Numbers.imp (fun n hn => (Number.value_eq_iff hn).mp) d h,
    Doc.Numbers.imp (fun n hn => (Number.value_eq_iff hn).mpr) d h⟩

theorem leading_nil {leading : Ws} {s t : Text} (hsplit : s = leading.render ++ t)
    (hs : ∀ c ∈ s.head?, isWhitespace c = false) : leading = [] := by
  cases leading with
  | nil => rfl
  | cons b leading =>
    have hb : isWhitespace b.char = false := hs b.char (by rw [hsplit]; rfl)
    rw [b.whitespace] at hb
    cases hb

theorem parsedSoundly_iff (s : Text) : ParsedSoundly s ↔ (Accepted s → Regular s) := by
  constructor
  · rintro ⟨hok, _⟩ ⟨d, rest, rfl, hstops⟩
    obtain ⟨leading, d', trailing, hstrict, hsplit, hvalue⟩ := hok _ (parseText_eq d hstops)
    obtain rfl := leading_nil hsplit (d.solid_head rest)
    have hsplit' : d.render ++ rest = d'.render ++ trailing.render := hsplit
    refine ⟨d', trailing, hsplit', hstrict, (Doc.value_eq_denotes hstrict).mp ?_⟩
    have hd := parseText_eq (F := Rat) d hstops
    rw [hsplit', parseText_eq d' (Doc.Stops.of_delimited trailing.delimited)] at hd
    exact (Except.ok.inj hd).trans hvalue.symm
  · intro h
    have hok : ∀ v, parseText s = .ok v → Denotes s v := by
      intro v hv
      obtain ⟨d, rest, hsplit, hstops, _⟩ := parseText_sound hv
      obtain ⟨d', trailing, rfl, hstrict, hexact⟩ := h ⟨d, rest, hsplit, hstops⟩
      refine ⟨[], d', trailing, hstrict, rfl, ?_⟩
      rw [parseText_eq d' (Doc.Stops.of_delimited trailing.delimited)] at hv
      exact ((Doc.value_eq_denotes hstrict).mpr hexact).symm.trans (Except.ok.inj hv)
    refine ⟨hok, fun hno => ?_⟩
    cases hparse : parseText (F := Rat) s with
    | ok v => exact absurd (hok v hparse) (hno v)
    | error e => exact ⟨e, rfl, parseText_errors e hparse⟩

/-- What stands behind the value is not looked at. -/
theorem trailing_character_accepted : ¬ ∀ s, ParsedSoundly s := by
  intro h
  have hparse : parse 7 ['1', 'x'] 0 = .ok ((.int 1 : Value Rat), 1) := by rfl
  have htext : parseText ['1', 'x'] = .ok (.int 1 : Value Rat) := by rfl
  obtain ⟨leading, d, trailing, _, hsplit, _⟩ := (h ['1', 'x']).1 _ htext
  obtain rfl := leading_nil hsplit (by rintro _ ⟨⟩; rfl)
  have hat : At ['1', 'x'] 0 (d.render ++ trailing.render) := hsplit
  have hlen := hat.length_le
  rw [List.length_append] at hlen
  have hread := d.parse_eq (F := Rat) 7 0 hat (Doc.Stops.of_delimited trailing.delimited)
    (by simp at hlen; omega)
  have hend : 1 = 0 + d.render.length := congrArg Prod.snd (Except.ok.inj (hparse.symm.trans hread))
  have hrest : At ['1', 'x'] 1 trailing.render := by
    have hmove := hat.move
    rwa [← hend] at hmove
  have hx := trailing.whitespace 'x' (hrest ▸ List.mem_cons_self)
  cases hx

end PicoRuby.Json
