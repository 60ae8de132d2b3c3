import PicoRuby.Yaml.Parser

/-!
# Scalars that are read back

What is written for a scalar is a text on one line without blanks around it, and is read as the scalar, unless it
is a String that looks like another one.
-/

namespace PicoRuby.Yaml

set_option autoImplicit false

/-! ## Blanks -/

/-- No blank at either end. -/
structure Trimmed (s : Text) : Prop where
  head : ∀ c, s.head? = some c → isBlank c = false
  last : ∀ c, s.getLast? = some c → isBlank c = false ∧ c ≠ '\x00'

/-- A text that fits behind a key. -/
structure OneLine (s : Text) : Prop where
  nonempty : s ≠ []
  unbroken : '\n' ∉ s
  trimmed : Trimmed s

variable {s t : Text} {c : Char}

theorem lstrip_of_head (h : ∀ c, s.head? = some c → isBlank c = false) : lstrip s = s := by
  cases s with
  | nil => rfl
  | cons c s =>
    unfold lstrip
    rw [List.dropWhile_cons_of_neg]
    simp [h c rfl]

theorem rstrip_of_last (h : ∀ c, s.getLast? = some c → isBlank c = false ∧ c ≠ '\x00') : rstrip s = s := by
  unfold rstrip
  rw [List.rdropWhile_eq_self_iff]
  intro hne
  obtain ⟨hblank, hnul⟩ := h _ (List.getLast?_eq_some_getLast hne)
  simp [hblank, hnul]

theorem Trimmed.strip (h : Trimmed s) : strip s = s := by
  unfold Yaml.strip
  rw [lstrip_of_head h.head, rstrip_of_last h.last]

theorem isBlank_space : isBlank ' ' = true := by decide

theorem lstrip_spaces (n : Nat) (s : Text) : lstrip (spaces n ++ s) = lstrip s := by
  induction n with
  | zero => rfl
  | succ n ih =>
    unfold spaces at ih ⊢
    rw [List.replicate_succ, List.cons_append]
    unfold lstrip
    rw [List.dropWhile_cons_of_pos isBlank_space]
    exact ih

theorem Trimmed.append (h : ∀ c, s.head? = some c → isBlank c = false) (hs : s ≠ [])
    (ht : ∀ c, t.getLast? = some c → isBlank c = false ∧ c ≠ '\x00') (htne : t ≠ []) : Trimmed (s ++ t) := by
  constructor
  · intro c hc
    apply h
    rwa [List.head?_append_of_ne_nil _ hs] at hc
  · intro c hc
    apply ht
    rwa [List.getLast?_append_of_ne_nil _ htne] at hc

theorem trimmed_of_forall (h : ∀ c ∈ s, isBlank c = false ∧ c ≠ '\x00') : Trimmed s :=
  ⟨fun c hc => (h c (List.mem_of_mem_head? hc)).1, fun c hc => h c (List.mem_of_mem_getLast? hc)⟩

/-! ## Words -/

/-- A word is a key: it has no blank and no colon, and does not begin as an item or a comment does. -/
structure Word (s : Text) : Prop where
  nonempty : s ≠ []
  solid : ∀ c ∈ s, isBlank c = false ∧ c ≠ '\x00'
  colon : ':' ∉ s
  head : ∀ c, s.head? = some c → c ≠ '-' ∧ c ≠ '#'

/-- Digits, dots and minus signs only. -/
def LooksNumeric (s : Text) : Prop := ∀ c ∈ s, isDigit c = true ∨ c = '.' ∨ c = '-'

/-- A word that is not spelled as a number, a boolean or null. -/
structure PlainWord (s : Text) : Prop where
  word : Word s
  numeric : ¬ LooksNumeric s
  keyword : downcase s ≠ "true".toList ∧ downcase s ≠ "false".toList ∧ downcase s ≠ "null".toList

theorem Word.trimmed (h : Word s) : Trimmed s := trimmed_of_forall h.solid

theorem oneLine_of_solid (hne : s ≠ []) (h : ∀ c ∈ s, isBlank c = false ∧ c ≠ '\x00') : OneLine s := by
  refine ⟨hne, fun hmem => ?_, trimmed_of_forall h⟩
  have hblank := (h '\n' hmem).1
  revert hblank
  decide

theorem Word.oneLine (h : Word s) : OneLine s := oneLine_of_solid h.nonempty h.solid

theorem isInteger_looksNumeric (hsolid : Trimmed s) (h : isInteger s = true) : LooksNumeric s := by
  unfold isInteger at h
  rw [hsolid.strip] at h
  split at h
  · cases h
  · intro c hc
    rcases List.mem_cons.mp hc with rfl | hc
    · exact Or.inr (Or.inr rfl)
    · exact Or.inl (List.all_eq_true.mp h c hc)
  · intro c hc
    exact Or.inl (List.all_eq_true.mp h c hc)

theorem mem_splitOn (sep : Char) : ∀ {s : Text}, c ∈ s → c = sep ∨ ∃ part ∈ s.splitOn sep, c ∈ part := by
  intro s
  induction s with
  | nil => exact fun h => absurd h List.not_mem_nil
  | cons d s ih =>
    intro h
    rw [List.splitOn_cons_eq_if_modifyHead]
    obtain ⟨first, rest, hsplit⟩ := List.exists_cons_of_ne_nil (List.splitOn_ne_nil sep s)
    rw [hsplit] at ih ⊢
    split
    · rename_i heq
      rcases List.mem_cons.mp h with rfl | h
      · exact Or.inl (beq_iff_eq.mp heq)
      · rcases ih h with hsep | ⟨part, hpart, hmem⟩
        · exact Or.inl hsep
        · exact Or.inr ⟨part, List.mem_cons_of_mem _ hpart, hmem⟩
    · rw [List.modifyHead_cons]
      rcases List.mem_cons.mp h with rfl | h
      · exact Or.inr ⟨_, List.mem_cons_self, List.mem_cons_self⟩
      · rcases ih h with hsep | ⟨part, hpart, hmem⟩
        · exact Or.inl hsep
        · right
          rcases List.mem_cons.mp hpart with rfl | hpart
          · exact ⟨_, List.mem_cons_self, List.mem_cons_of_mem _ hmem⟩
          · exact ⟨part, List.mem_cons_of_mem _ hpart, hmem⟩

theorem mem_split (sep : Char) (h : c ∈ s) : c = sep ∨ ∃ part ∈ split s sep, c ∈ part := by
  rcases mem_splitOn sep h with hsep | ⟨part, hpart, hmem⟩
  · exact Or.inl hsep
  · refine Or.inr ⟨part, ?_, hmem⟩
    rw [← List.rdropWhile_append_rtakeWhile (p := List.isEmpty) (l := s.splitOn sep)] at hpart
    rcases List.mem_append.mp hpart with hpart | hpart
    · exact hpart
    · have hempty := List.mem_rtakeWhile_imp hpart
      rw [List.isEmpty_iff] at hempty
      rw [hempty] at hmem
      exact absurd hmem List.not_mem_nil

theorem mem_of_mem_splitOn {sep : Char} {part : Text} (hc : c ∈ part) : ∀ {s : Text}, part ∈ s.splitOn sep →
    c ∈ s := by
  intro s
  induction s generalizing part with
  | nil =>
    intro h
    rw [List.splitOn_nil, List.mem_singleton] at h
    rwa [h] at hc
  | cons d s ih =>
    intro h
    rw [List.splitOn_cons_eq_if_modifyHead] at h
    obtain ⟨first, rest, hsplit⟩ := List.exists_cons_of_ne_nil (List.splitOn_ne_nil sep s)
    rw [hsplit] at ih h
    split at h
    · rcases List.mem_cons.mp h with rfl | h
      · exact absurd hc List.not_mem_nil
      · exact List.mem_cons_of_mem d (ih hc h)
    · rw [List.modifyHead_cons] at h
      rcases List.mem_cons.mp h with rfl | h
      · rcases List.mem_cons.mp hc with rfl | hc
        · exact List.mem_cons_self
        · exact List.mem_cons_of_mem d (ih hc List.mem_cons_self)
      · exact List.mem_cons_of_mem d (ih hc (List.mem_cons_of_mem _ h))

theorem mem_of_mem_split {sep : Char} {part : Text} (h : part ∈ split s sep) (hc : c ∈ part) : c ∈ s :=
  mem_of_mem_splitOn hc ((List.rdropWhile_prefix (p := List.isEmpty) _).subset h)

theorem isFloat_looksNumeric (hsolid : ∀ c ∈ s, isBlank c = false ∧ c ≠ '\x00') (h : isFloat s = true) :
    LooksNumeric s := by
  unfold isFloat at h
  rw [(trimmed_of_forall hsolid).strip] at h
  split at h
  · rename_i whole fraction hsplit
    rw [Bool.and_eq_true] at h
    have hpart {part : Text} (hmem : part ∈ split s '.') : ∀ c ∈ part, isBlank c = false ∧ c ≠ '\x00' :=
      fun c hc => hsolid c (mem_of_mem_split hmem hc)
    intro c hc
    rcases mem_split '.' hc with rfl | ⟨part, hmem, hc⟩
    · exact Or.inr (Or.inl rfl)
    · have htrimmed := trimmed_of_forall (hpart hmem)
      rw [hsplit, List.mem_cons, List.mem_singleton] at hmem
      rcases hmem with rfl | rfl
      · exact isInteger_looksNumeric htrimmed h.1 c hc
      · exact isInteger_looksNumeric htrimmed h.2 c hc
  · cases h

theorem PlainWord.parseValue (h : PlainWord s) : parseValue s = .string s := by
  have hinteger : isInteger s = false := by
    by_contra htrue
    exact h.numeric (isInteger_looksNumeric h.word.trimmed (by simpa using htrue))
  have hfloat : isFloat s = false := by
    by_contra htrue
    exact h.numeric (isFloat_looksNumeric h.word.solid (by simpa using htrue))
  unfold Yaml.parseValue isBoolean isNull
  obtain ⟨htrue, hfalse, hnull⟩ := h.keyword
  rw [if_neg (by simp [hinteger]), if_neg (by simp [hfloat]), if_neg, if_neg]
  · rw [beq_iff_eq]
    exact hnull
  · rw [Bool.or_eq_true, beq_iff_eq, beq_iff_eq, not_or]
    exact ⟨htrue, hfalse⟩

/-! ## Integers -/

theorem isDigit_of_mem_toDigits {n : Nat} (h : c ∈ Nat.toDigits 10 n) : isDigit c = true := by
  have hd : c.isDigit = true := Nat.isDigit_of_mem_toDigits (by decide) (by decide) h
  have hrange : 48 ≤ c.val ∧ c.val ≤ 57 := by simpa [Char.isDigit] using hd
  rw [isDigit, Bool.and_eq_true, decide_eq_true_iff, decide_eq_true_iff]
  exact hrange

theorem isBlank_of_isDigit (h : isDigit c = true) : isBlank c = false ∧ c ≠ '\x00' ∧ c ≠ '-' := by
  refine ⟨?_, ?_, ?_⟩
  · by_contra htrue
    have hblank : c ∈ blanks := by simpa [isBlank] using htrue
    have hall : ∀ c ∈ blanks, isDigit c = false := by simp [blanks, isDigit]
    rw [hall c hblank] at h
    cases h
  · rintro rfl
    revert h
    decide
  · rintro rfl
    revert h
    decide

theorem digits_all (n : Nat) : (Nat.toDigits 10 n).all isDigit = true :=
  List.all_eq_true.mpr fun _ => isDigit_of_mem_toDigits

theorem integerToS_solid (i : Int) : ∀ c ∈ integerToS i, isBlank c = false ∧ c ≠ '\x00' := by
  have hdigits (n : Nat) (c : Char) (hc : c ∈ Nat.toDigits 10 n) : isBlank c = false ∧ c ≠ '\x00' := by
    obtain ⟨hblank, hnul, -⟩ := isBlank_of_isDigit (isDigit_of_mem_toDigits hc)
    exact ⟨hblank, hnul⟩
  cases i with
  | ofNat n => exact hdigits n
  | negSucc n =>
    intro c hc
    rcases List.mem_cons.mp hc with rfl | hc
    · decide
    · exact hdigits (n + 1) c hc

/-- The digits of a number, which do not begin with a sign. -/
theorem exists_digits (n : Nat) : ∃ d rest, Nat.toDigits 10 n = d :: rest ∧ d ≠ '-' := by
  obtain ⟨d, rest, hcons⟩ := List.exists_cons_of_ne_nil (Nat.toDigits_ne_nil (b := 10) (n := n))
  refine ⟨d, rest, hcons, ?_⟩
  exact (isBlank_of_isDigit (isDigit_of_mem_toDigits (n := n) (hcons ▸ List.mem_cons_self))).2.2

theorem parseValue_integer (i : Int) : parseValue (integerToS i) = .integer i := by
  have hstrip := (trimmed_of_forall (integerToS_solid i)).strip
  have hinteger : isInteger (integerToS i) = true := by
    unfold isInteger
    rw [hstrip]
    cases i with
    | ofNat n =>
      obtain ⟨d, rest, hcons, hne⟩ := exists_digits n
      have hall := digits_all n
      have htext : integerToS (.ofNat n) = d :: rest := hcons
      rw [hcons] at hall
      rw [htext]
      split
      · rename_i heq
        cases heq
      · rename_i heq
        cases heq
        exact absurd rfl hne
      · exact hall
    | negSucc n => exact digits_all (n + 1)
  have hvalue : toI (integerToS i) = i := by
    cases i with
    | ofNat n =>
      obtain ⟨d, rest, hcons, hne⟩ := exists_digits n
      have htext : integerToS (.ofNat n) = d :: rest := hcons
      rw [htext]
      unfold toI
      split
      · rename_i heq
        cases heq
        exact absurd rfl hne
      · rw [← hcons, Nat.ofDigitChars_ten_toDigits]
        rfl
    | negSucc n =>
      have hdigits : Nat.ofDigitChars 10 (Nat.toDigits 10 (n + 1)) 0 = n + 1 := Nat.ofDigitChars_ten_toDigits
      have hvalue : toI (integerToS (.negSucc n)) =
          -(Nat.ofDigitChars 10 (Nat.toDigits 10 (n + 1)) 0 : Int) := rfl
      rw [hvalue, hdigits]
      rfl
  unfold parseValue
  rw [if_pos hinteger, hvalue]

/-! ## What is written -/

/-- A scalar that is not spelled as another one; there are no Floats. -/
def Scalar.Plain : Scalar → Prop
  | .string s => PlainWord s
  | .float _ => False
  | _ => True

theorem integerToS_ne_nil (i : Int) : integerToS i ≠ [] := by
  cases i with
  | ofNat n => exact Nat.toDigits_ne_nil
  | negSucc n => exact List.cons_ne_nil _ _

theorem Scalar.Plain.oneLine {x : Scalar} (h : x.Plain) : OneLine x.written := by
  cases x with
  | string s => exact PlainWord.word h |>.oneLine
  | integer i => exact oneLine_of_solid (integerToS_ne_nil i) (integerToS_solid i)
  | float s => exact h.elim
  | boolean b =>
    cases b
    · exact oneLine_of_solid (by decide) (by simp [written, toS, isBlank, blanks])
    · exact oneLine_of_solid (by decide) (by simp [written, toS, isBlank, blanks])
  | null => exact oneLine_of_solid (by decide) (by simp [written, isBlank, blanks])

theorem Scalar.Plain.parseValue {x : Scalar} (h : x.Plain) : parseValue x.written = x := by
  cases x with
  | string s => exact PlainWord.parseValue h
  | integer i => exact parseValue_integer i
  | float s => exact h.elim
  | boolean b => cases b <;> decide
  | null => decide

end PicoRuby.Yaml
