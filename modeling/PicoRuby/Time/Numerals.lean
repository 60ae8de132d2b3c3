import Mathlib.Data.List.Infix
import PicoRuby.Time.IntegerArgument

/-!
# Numerals

A numeral is digits with single underscores between them, behind a sign or without one. `mrbc_Integer` against it:
which Strings it converts or rejects as it should, and which ones make it leave its memory or pass for numerals.
-/

namespace PicoRuby.Time

set_option autoImplicit false

/-! ## What a text denotes -/

/-- Digits, with single underscores between them. -/
def isNumeral : Bytes → Bool
  | [] => false
  | [c] => isDigit c
  | c :: d :: s => isDigit c && (isNumeral (d :: s) || (d = underscore && isNumeral s))

/-- What follows the sign. -/
def unsigned : Bytes → Bytes
  | [] => []
  | c :: s => if c = plus ∨ c = minus then s else c :: s

def isNegative (s : Bytes) : Prop := s.head? = some minus

instance (s : Bytes) : Decidable (isNegative s) := inferInstanceAs (Decidable (_ = _))

def digitsOf (s : Bytes) : Bytes := s.filter (· ≠ underscore)

/-- The value of digits. -/
def decimal (digits : Bytes) : Nat := digits.foldl (fun n c => 10 * n + (c.toNat - 0x30)) 0

/-- The integer that a text stands for. -/
def number (s : Bytes) : Option Int :=
  if isNumeral (unsigned s) then
    some (if isNegative s then -(decimal (digitsOf (unsigned s)) : Int) else decimal (digitsOf (unsigned s)))
  else none

/-- The call stays in its memory, gives the integer that the text stands for, if its digits are in the range of
`mrbc_int_t`, and rejects any other text. -/
structure Converts (atoi : Bytes → Int) (max : Nat) (s : Bytes) : Prop where
  safe (fault : Fault) : mrbcInteger atoi (.string s) ≠ .error (.fault fault)
  value (n : Int) (hn : number s = some n) (hmax : n.natAbs ≤ max) : mrbcInteger atoi (.string s) = .ok n
  rejects (hnone : number s = none) : mrbcInteger atoi (.string s) = .error invalidValue

/-- Every byte is a digit or an underscore. -/
def Loose (s : Bytes) : Prop := ∀ c ∈ s, isDigit c = true ∨ c = underscore

instance (s : Bytes) : Decidable (Loose s) := inferInstanceAs (Decidable (∀ c ∈ s, _))

/-- Something other than a digit is in the text, something follows its sign, and underscores that neither begin it
nor end it stand between digits. -/
structure Convertible (s : Bytes) : Prop where
  other : ∃ c ∈ s, isDigit c = false
  unsigned_ne : unsigned s ≠ []
  underscores (hloose : Loose (unsigned s)) (hhead : s.head? ≠ some underscore)
    (hlast : s.getLast? ≠ some underscore) :
    (unsigned s).head? ≠ some underscore ∧ ¬ [underscore, underscore] <:+: unsigned s

section Numerals
variable {s : Bytes} {c : UInt8}

@[simp] theorem loose_nil : Loose [] := List.forall_mem_nil _

@[simp] theorem loose_cons : Loose (c :: s) ↔ (isDigit c = true ∨ c = underscore) ∧ Loose s := List.forall_mem_cons

theorem isDigit_ne_underscore (h : isDigit c = true) : c ≠ underscore := by
  rintro rfl
  exact absurd h (by decide)

theorem pair_infix_cons {d : UInt8} : [underscore, underscore] <:+: c :: d :: s ↔
    c = underscore ∧ d = underscore ∨ [underscore, underscore] <:+: d :: s := by
  rw [List.infix_cons_iff, List.cons_prefix_cons, List.cons_prefix_cons]
  simp [eq_comm]

theorem not_pair_infix_singleton : ¬ [underscore, underscore] <:+: [c] := by
  intro h
  have hle := h.length_le
  simp at hle

theorem isNumeral_iff : isNumeral s = true ↔ s ≠ [] ∧ Loose s ∧ s.head? ≠ some underscore ∧
    s.getLast? ≠ some underscore ∧ ¬ [underscore, underscore] <:+: s := by
  induction s using isNumeral.induct with
  | case1 => simp [isNumeral]
  | case2 c =>
    simp only [isNumeral, Loose, List.forall_mem_singleton, List.head?_cons, List.getLast?_singleton]
    constructor
    · intro h
      have hne := isDigit_ne_underscore h
      simp [h, hne, not_pair_infix_singleton]
    · rintro ⟨-, hloose, hhead, -⟩
      exact hloose.resolve_right fun heq => hhead (congrArg some heq)
  | case3 c d s ih₁ ih₂ =>
    rw [isNumeral, Bool.and_eq_true, Bool.or_eq_true, Bool.and_eq_true, decide_eq_true_eq, ih₁, ih₂,
      pair_infix_cons, List.getLast?_cons_cons]
    constructor
    · rintro ⟨hc, ⟨-, hloose, -, hlast, hpair⟩ | ⟨rfl, hne, hloose, hhead, hlast, hpair⟩⟩
      · have hcne := isDigit_ne_underscore hc
        exact ⟨List.cons_ne_nil _ _, List.forall_mem_cons.mpr ⟨Or.inl hc, hloose⟩, by simpa using hcne, hlast,
          by simp [hcne, hpair]⟩
      · have hcne := isDigit_ne_underscore hc
        obtain ⟨e, s, rfl⟩ := List.exists_cons_of_ne_nil hne
        have hene : e ≠ underscore := by simpa using hhead
        refine ⟨List.cons_ne_nil _ _, ?_, by simpa using hcne, by rwa [List.getLast?_cons_cons], ?_⟩
        · exact List.forall_mem_cons.mpr ⟨Or.inl hc, List.forall_mem_cons.mpr ⟨Or.inr rfl, hloose⟩⟩
        · simp [hcne, pair_infix_cons, hene, hpair]
    · rintro ⟨-, hloose, hhead, hlast, hpair⟩
      rw [not_or] at hpair
      have hcne : c ≠ underscore := by simpa using hhead
      have hc : isDigit c = true := (hloose c List.mem_cons_self).resolve_right hcne
      have htail : Loose (d :: s) := fun e he => hloose e (List.mem_cons_of_mem _ he)
      refine ⟨hc, ?_⟩
      rcases htail d List.mem_cons_self with hd | rfl
      · have hdne := isDigit_ne_underscore hd
        exact Or.inl ⟨List.cons_ne_nil _ _, htail, by simpa using hdne, hlast, hpair.2⟩
      · right
        cases s with
        | nil => exact absurd rfl hlast
        | cons e s =>
          rw [pair_infix_cons, not_or] at hpair
          have hene : e ≠ underscore := fun heq => hpair.2.1 ⟨rfl, heq⟩
          exact ⟨rfl, List.cons_ne_nil _ _, fun a ha => htail a (List.mem_cons_of_mem _ ha), by simpa using hene,
            by rwa [List.getLast?_cons_cons] at hlast, hpair.2.2⟩

end Numerals

/-! ## The buffer -/

/-- The buffer of the loop, with the digits that it has copied. -/
def filled (len : Nat) (digits : Bytes) : Buffer := digits.map some ++ List.replicate (len - digits.length) none

section Buffer
variable {len rounds i : Nat} {digits rest data : Bytes} {c : UInt8}

theorem write_filled (h : digits.length < len) :
    write (filled len digits) digits.length c = .ok (filled len (digits ++ [c])) := by
  have hlen : (filled len digits).length = len := by
    simp [filled]
    omega
  obtain ⟨k, hk⟩ := Nat.exists_eq_succ_of_ne_zero (Nat.sub_ne_zero_of_lt h)
  have hk' : len - (digits ++ [c]).length = k := by
    rw [List.length_append, List.length_singleton]
    omega
  unfold write
  rw [hlen, if_pos h]
  unfold filled
  rw [hk', hk, List.replicate_succ, List.set_append_right _ _ (by simp), List.length_map, Nat.sub_self]
  simp

theorem cString_filled (hdigits : ∀ c ∈ digits, c ≠ 0) (more : Buffer) (j : Nat) :
    cString j (digits.map some ++ some 0 :: more) = .ok digits := by
  induction digits generalizing j with
  | nil => simp [cString]
  | cons c digits ih =>
    rw [List.forall_mem_cons] at hdigits
    rw [List.map_cons, List.cons_append, cString, if_neg hdigits.1, ih hdigits.2]
    rfl

theorem write_full (h : digits.length = len) :
    write (filled len digits) digits.length 0 = .error (.fault (.bufferWrite len)) := by
  rw [h]
  refine if_neg ?_
  simp [filled, ← h]

/-- With room for the NUL, the buffer becomes the C string of its digits. -/
theorem exists_terminated (h : digits.length < len) (hdigits : ∀ c ∈ digits, c ≠ 0) :
    ∃ str, write (filled len digits) digits.length 0 = .ok str ∧ cString 0 str = .ok digits := by
  refine ⟨_, write_filled h, ?_⟩
  rw [filled, List.map_append, List.append_assoc]
  exact cString_filled hdigits _ 0

/-- The loop copies the digits, or comes to something that is neither a digit nor an underscore. -/
theorem copyDigits_eq (rounds : Nat) (digits : Bytes) (hdata : data.drop i = rest) (hrounds : rest.length ≤ rounds)
    (hlen : digits.length ≤ i) (hin : i ≤ data.length) :
    copyDigits data rounds i digits.length (filled data.length digits) =
      if Loose rest then
        .ok ((digits ++ digitsOf rest).length, filled data.length (digits ++ digitsOf rest))
      else .error invalidValue := by
  induction rounds generalizing i digits rest with
  | zero =>
    obtain rfl := List.eq_nil_of_length_eq_zero (Nat.le_zero.mp hrounds)
    simp [copyDigits, digitsOf]
  | succ rounds ih =>
    cases rest with
    | nil =>
      have hend : ¬ i < data.length := by
        rw [List.drop_eq_nil_iff] at hdata
        omega
      rw [copyDigits, if_neg hend]
      simp [digitsOf]
    | cons c rest =>
      have hdrop : data.length - i = rest.length + 1 := by rw [← List.length_drop, hdata, List.length_cons]
      have hread : readData data i = .ok c := by
        have hget : data[i]? = (data.drop i)[0]? := by simp
        rw [readData, hget, hdata]
        rfl
      have hnext : data.drop (i + 1) = rest := by rw [← List.tail_drop, hdata, List.tail_cons]
      rw [List.length_cons, Nat.succ_le_succ_iff] at hrounds
      rw [copyDigits, if_pos (by omega), hread]
      change (if c = underscore then _ else _) = _
      by_cases hunderscore : c = underscore
      · rw [if_pos hunderscore, ih _ hnext hrounds (by omega) (by omega)]
        simp [hunderscore, digitsOf]
      · rw [if_neg hunderscore]
        by_cases hc : isDigit c = true
        · rw [if_pos hc, write_filled (by omega)]
          change copyDigits data rounds (i + 1) (digits.length + 1) _ = _
          have hcopied := ih (digits ++ [c]) hnext hrounds (by simp; omega) (by omega)
          rw [List.length_append, List.length_singleton] at hcopied
          rw [hcopied]
          simp [hc, hunderscore, digitsOf]
        · rw [if_neg hc, if_neg]
          rw [loose_cons]
          exact fun hall => hall.1.elim hc hunderscore

end Buffer

/-! ## The call -/

section Call
variable {atoi : Bytes → Int} {max : Nat} {s t : Bytes} {c : UInt8}

theorem isDigit_ne_zero (h : isDigit c = true) : c ≠ 0 := by
  rintro rfl
  exact absurd h (by decide)

theorem digitsOf_digits (hloose : Loose s) : ∀ c ∈ digitsOf s, isDigit c = true := by
  intro c hc
  obtain ⟨hmem, hne⟩ := List.mem_filter.mp hc
  exact (hloose c hmem).resolve_right (by simpa using hne)

theorem unsigned_cons : unsigned (c :: t) = if c = plus ∨ c = minus then t else c :: t := rfl

theorem unsigned_length_le (s : Bytes) : (unsigned s).length ≤ s.length := by
  unfold unsigned
  split
  · exact Nat.le_refl _
  · split <;> simp

theorem digitsOf_length_le (s : Bytes) : (digitsOf (unsigned s)).length ≤ s.length :=
  Nat.le_trans (List.length_filter_le _ _) (unsigned_length_le s)

/-- What follows the loop. -/
theorem finish_eq (hloose : Loose t) (hne : s ≠ []) (hle : (digitsOf t).length ≤ s.length) (result : Bytes → Int) :
    (do
      let c ← read (filled s.length (digitsOf t)) 0
      if c = 0 then .error invalidValue
      else do
        let str ← write (filled s.length (digitsOf t)) (digitsOf t).length 0
        let digits ← cString 0 str
        return result digits) =
      if digitsOf t = [] then .error (.fault (.unwritten 0))
      else if (digitsOf t).length = s.length then .error (.fault (.bufferWrite s.length))
      else Except.ok (result (digitsOf t)) := by
  have hdigits := digitsOf_digits hloose
  generalize digitsOf t = digits at hle hdigits ⊢
  cases digits with
  | nil =>
    cases s with
    | nil => exact absurd rfl hne
    | cons c s => rfl
  | cons d digits =>
    have hread : read (filled s.length (d :: digits)) 0 = .ok d := rfl
    have hd : d ≠ 0 := isDigit_ne_zero (hdigits d List.mem_cons_self)
    rw [hread, if_neg (List.cons_ne_nil _ _)]
    change (if d = 0 then _ else _) = _
    rw [if_neg hd]
    by_cases hfull : (d :: digits).length = s.length
    · rw [if_pos hfull, write_full hfull]
      rfl
    · obtain ⟨str, hwrite, hstring⟩ := exists_terminated (Nat.lt_of_le_of_ne hle hfull)
        fun c hc => isDigit_ne_zero (hdigits c hc)
      rw [if_neg hfull, hwrite]
      change (cString 0 str >>= _) = _
      rw [hstring]
      rfl

/-- The sign is what is skipped in front of the loop. -/
theorem drop_sign (c : UInt8) (t : Bytes) :
    (c :: t).drop (if (if c = plus then 1 else if c = minus then -1 else 0 : Int) = 0 then 0 else 1) =
      unsigned (c :: t) := by
  rw [unsigned_cons]
  by_cases hplus : c = plus
  · simp [hplus]
  · by_cases hminus : c = minus
    · simp [hminus, plus, minus]
    · simp [hplus, hminus]

theorem sign_neg (c : UInt8) (t : Bytes) :
    ((if c = plus then 1 else if c = minus then -1 else 0 : Int) < 0) = isNegative (c :: t) := by
  unfold isNegative
  by_cases hplus : c = plus
  · simp [hplus, plus, minus]
  · by_cases hminus : c = minus
    · simp [hminus, plus, minus]
    · simp [hplus, hminus]

/-- What the call does with a String whose first and last bytes it accepts. -/
theorem mrbcInteger_eq (atoi : Bytes → Int) (hne : s ≠ []) (hhead : s.head? ≠ some underscore)
    (hlast : s.getLast? ≠ some underscore) :
    mrbcInteger atoi (.string s) =
      if Loose (unsigned s) then
        if digitsOf (unsigned s) = [] then .error (.fault (.unwritten 0))
        else if (digitsOf (unsigned s)).length = s.length then .error (.fault (.bufferWrite s.length))
        else .ok (if isNegative s then atoi (digitsOf (unsigned s)) * -1 else atoi (digitsOf (unsigned s)))
      else .error invalidValue := by
  obtain ⟨c, t, rfl⟩ := List.exists_cons_of_ne_nil hne
  have hc : c ≠ underscore := by simpa using hhead
  obtain ⟨last, hgetLast⟩ := Option.isSome_iff_exists.mp (List.getLast?_isSome.mpr hne)
  have hlastne : last ≠ underscore := by
    rintro rfl
    exact hlast hgetLast
  have hfirst : readData (c :: t) 0 = .ok c := rfl
  have hread : readData (c :: t) ((c :: t).length - 1) = .ok last := by
    rw [readData, ← List.getLast?_eq_getElem?, hgetLast]
  have hloop := copyDigits_eq (c :: t).length [] (drop_sign c t) (unsigned_length_le _) (Nat.zero_le _)
    (by split_ifs <;> simp)
  have hempty : filled (c :: t).length [] = List.replicate (c :: t).length none := rfl
  rw [List.length_nil, hempty, List.nil_append] at hloop
  unfold mrbcInteger
  dsimp only
  rw [hfirst]
  simp only [bind, Except.bind, if_neg hc, hread, if_neg hlastne]
  rw [hloop]
  by_cases hloose : Loose (unsigned (c :: t))
  · have hfinish := finish_eq hloose hne (digitsOf_length_le (c :: t)) fun digits =>
      if (if c = plus then 1 else if c = minus then -1 else 0 : Int) < 0 then atoi digits * -1 else atoi digits
    simp only [bind, Except.bind] at hfinish
    rw [if_pos hloose, if_pos hloose]
    dsimp only
    rw [hfinish]
    simp only [sign_neg c t]
  · rw [if_neg hloose, if_neg hloose]

theorem mrbcInteger_edge (h : s.head? = some underscore ∨ s.getLast? = some underscore) :
    mrbcInteger atoi (.string s) = .error invalidValue := by
  cases s with
  | nil => simp at h
  | cons c t =>
    have hfirst : readData (c :: t) 0 = .ok c := rfl
    unfold mrbcInteger
    dsimp only
    rw [hfirst]
    simp only [bind, Except.bind]
    by_cases hc : c = underscore
    · rw [if_pos hc]
    · have hlast : (c :: t).getLast? = some underscore := h.resolve_left (by simpa using hc)
      rw [if_neg hc, readData, ← List.getLast?_eq_getElem?, hlast]
      rfl

/-! ## Numerals and the text around them -/

theorem number_eq_none_iff : number s = none ↔ ¬ isNumeral (unsigned s) = true := by
  unfold number
  split <;> simp_all

theorem unsigned_suffix (s : Bytes) : unsigned s <:+ s := by
  unfold unsigned
  split
  · exact List.suffix_refl _
  · split
    · exact List.suffix_cons _ _
    · exact List.suffix_refl _

theorem unsigned_getLast? (h : unsigned s ≠ []) : (unsigned s).getLast? = s.getLast? := by
  obtain ⟨front, hs⟩ := unsigned_suffix s
  have hlast := List.getLast?_append_of_ne_nil front h
  rw [hs] at hlast
  exact hlast.symm

/-- Underscores at an end keep a text from being a numeral. -/
theorem number_edge (h : s.head? = some underscore ∨ s.getLast? = some underscore) : number s = none := by
  rw [number_eq_none_iff, isNumeral_iff]
  rintro ⟨hne, -, hhead, hlast, -⟩
  rcases h with h | h
  · cases s with
    | nil => simp at h
    | cons c t =>
      obtain rfl : c = underscore := by simpa using h
      rw [unsigned_cons, if_neg (by decide)] at hhead
      exact hhead rfl
  · rw [unsigned_getLast? hne] at hlast
    exact hlast h

theorem convertible_edge (h : s.head? = some underscore ∨ s.getLast? = some underscore) : Convertible s := by
  have hmem : underscore ∈ s := h.elim List.mem_of_mem_head? List.mem_of_getLast?
  refine ⟨⟨underscore, hmem, by decide⟩, ?_, fun _ hhead hlast => (h.elim hhead hlast).elim⟩
  intro hnil
  cases s with
  | nil => cases hmem
  | cons c t =>
    rw [unsigned_cons] at hnil
    split at hnil
    · rename_i hsign
      rw [hnil, List.mem_singleton] at hmem
      exact absurd (hmem ▸ hsign) (by decide)
    · cases hnil

/-- Digits alone are copied whole. -/
theorem digitsOf_length_eq_iff (hloose : Loose (unsigned s)) :
    (digitsOf (unsigned s)).length = s.length ↔ ∀ c ∈ s, isDigit c = true := by
  constructor
  · intro h
    have hfilter : (digitsOf (unsigned s)).length ≤ (unsigned s).length := List.length_filter_le _ _
    have hsame : unsigned s = s :=
      (unsigned_suffix s).eq_of_length (Nat.le_antisymm (unsigned_length_le s) (by omega))
    have hdigits := digitsOf_digits hloose
    rw [hsame] at h hdigits
    rw [digitsOf, List.length_filter_eq_length_iff] at h
    intro c hc
    exact hdigits c (List.mem_filter.mpr ⟨hc, h c hc⟩)
  · intro h
    have hsame : unsigned s = s := by
      cases s with
      | nil => rfl
      | cons c t =>
        have hc : isDigit c = true := h c List.mem_cons_self
        rw [unsigned_cons, if_neg]
        rintro (rfl | rfl) <;> exact absurd hc (by decide)
    rw [hsame, digitsOf, List.length_filter_eq_length_iff]
    intro c hc
    simpa using isDigit_ne_underscore (h c hc)

theorem digitsOf_eq_nil_iff (hloose : Loose (unsigned s)) (hlast : s.getLast? ≠ some underscore) :
    digitsOf (unsigned s) = [] ↔ unsigned s = [] := by
  constructor
  · intro h
    by_contra hne
    obtain ⟨last, hgetLast⟩ := Option.isSome_iff_exists.mp (List.getLast?_isSome.mpr hne)
    have hmem := List.mem_of_getLast? hgetLast
    rcases hloose last hmem with hdigit | rfl
    · have hkept : last ∈ digitsOf (unsigned s) :=
        List.mem_filter.mpr ⟨hmem, by simpa using isDigit_ne_underscore hdigit⟩
      rw [h] at hkept
      cases hkept
    · exact hlast ((unsigned_getLast? hne).symm.trans hgetLast)
  · intro h
    rw [h]
    rfl

theorem Converts.of_rejected (hcall : mrbcInteger atoi (.string s) = .error invalidValue) (hnumber : number s = none) :
    Converts atoi max s where
  safe fault := by
    rw [hcall]
    exact Except.error.inj.mt nofun
  value n hn _ := by cases hnumber.symm.trans hn
  rejects _ := hcall

/-- A text with something that is neither a digit nor an underscore behind its sign. -/
theorem Convertible.of_not_loose (h : ¬ Loose (unsigned s)) : Convertible s := by
  refine ⟨?_, ?_, fun hloose => absurd hloose h⟩
  · by_contra hall
    push Not at hall
    exact h fun c hc => Or.inl (by simpa using hall c ((unsigned_suffix s).mem hc))
  · intro hnil
    rw [hnil] at h
    exact h loose_nil

/-- Where the loop has copied some digits and left room for the NUL, everything hangs on the underscores. -/
theorem converts_copied_iff (hatoi : ∀ digits, digits ≠ [] → (∀ c ∈ digits, isDigit c = true) →
    decimal digits ≤ max → atoi digits = decimal digits) (hloose : Loose (unsigned s))
    (hdigits : digitsOf (unsigned s) ≠ []) (hcall : mrbcInteger atoi (.string s) =
      .ok (if isNegative s then atoi (digitsOf (unsigned s)) * -1 else atoi (digitsOf (unsigned s)))) :
    Converts atoi max s ↔ isNumeral (unsigned s) = true := by
  constructor
  · intro h
    by_contra hnumeral
    have hrejected := h.rejects (number_eq_none_iff.mpr hnumeral)
    rw [hcall] at hrejected
    cases hrejected
  · intro hnumeral
    refine ⟨fun fault => ?_, fun n hn hmax => ?_, fun hnone => ?_⟩
    · rw [hcall]
      exact nofun
    · rw [hcall]
      rw [number, if_pos hnumeral, Option.some.injEq] at hn
      have hmagnitude : decimal (digitsOf (unsigned s)) ≤ max := by
        split at hn <;> omega
      rw [hatoi _ hdigits (digitsOf_digits hloose) hmagnitude, ← hn]
      split
      · rw [Int.mul_neg_one]
      · rfl
    · exact absurd hnumeral (number_eq_none_iff.mp hnone)

/-- **Integers in Strings.** A String is converted or rejected as it should, within the memory of the call, just if it
has something other than digits, something behind its sign, and no loose underscore inside. -/
theorem converts_iff
    (hatoi : ∀ digits, digits ≠ [] → (∀ c ∈ digits, isDigit c = true) → decimal digits ≤ max →
      atoi digits = decimal digits) :
    Converts atoi max s ↔ Convertible s := by
  by_cases hne : s = []
  · subst hne
    constructor
    · intro h
      exact absurd rfl (h.safe (.inputRead 0))
    · rintro ⟨⟨c, hc, -⟩, -, -⟩
      cases hc
  by_cases hedge : s.head? = some underscore ∨ s.getLast? = some underscore
  · exact ⟨fun _ => convertible_edge hedge, fun _ => .of_rejected (mrbcInteger_edge hedge) (number_edge hedge)⟩
  rw [not_or] at hedge
  have hcall := mrbcInteger_eq atoi hne hedge.1 hedge.2
  by_cases hloose : Loose (unsigned s)
  · rw [if_pos hloose] at hcall
    by_cases hempty : digitsOf (unsigned s) = []
    · rw [if_pos hempty] at hcall
      constructor
      · intro h
        exact absurd hcall (h.safe _)
      · intro h
        exact absurd ((digitsOf_eq_nil_iff hloose hedge.2).mp hempty) h.unsigned_ne
    rw [if_neg hempty] at hcall
    by_cases hfull : (digitsOf (unsigned s)).length = s.length
    · rw [if_pos hfull] at hcall
      constructor
      · intro h
        exact absurd hcall (h.safe _)
      · rintro ⟨⟨c, hc, hother⟩, -, -⟩
        rw [(digitsOf_length_eq_iff hloose).mp hfull c hc] at hother
        cases hother
    rw [if_neg hfull] at hcall
    have hunsigned : unsigned s ≠ [] := (digitsOf_eq_nil_iff hloose hedge.2).not.mp hempty
    rw [converts_copied_iff hatoi hloose hempty hcall, isNumeral_iff]
    constructor
    · rintro ⟨-, -, hhead, -, hpair⟩
      refine ⟨?_, hunsigned, fun _ _ _ => ⟨hhead, hpair⟩⟩
      by_contra hall
      push Not at hall
      exact hfull ((digitsOf_length_eq_iff hloose).mpr fun c hc => by simpa using hall c hc)
    · intro h
      obtain ⟨hhead, hpair⟩ := h.underscores hloose hedge.1 hedge.2
      exact ⟨hunsigned, hloose, hhead, unsigned_getLast? hunsigned ▸ hedge.2, hpair⟩
  · rw [if_neg hloose] at hcall
    have hnumber : number s = none := by
      rw [number_eq_none_iff, isNumeral_iff]
      exact fun h => hloose h.2.1
    exact ⟨fun _ => .of_not_loose hloose, fun _ => .of_rejected hcall hnumber⟩

end Call

def ascii (s : String) : Bytes := s.toList.map fun c => UInt8.ofNat c.toNat

/-- A negative number with an underscore. -/
theorem converts_minus_twelve_thousand : Converts (fun digits => decimal digits) 2147483647 (ascii "-12_000") := by
  apply (converts_iff fun digits _ _ _ => rfl).mpr
  refine ⟨⟨minus, by decide, by decide⟩, by decide, fun _ _ _ => ⟨by decide, ?_⟩⟩
  decide

/-- Digits alone are ended one byte behind the buffer, an empty String is read where it has no byte, a sign alone
leaves the first byte unwritten, and underscores in a row pass. -/
theorem integers_mistaken : ¬ Converts (fun digits => decimal digits) 2147483647 (ascii "12") ∧
    ¬ Converts (fun digits => decimal digits) 2147483647 [] ∧
    ¬ Converts (fun digits => decimal digits) 2147483647 (ascii "-") ∧
    ¬ Converts (fun digits => decimal digits) 2147483647 (ascii "1__2") := by
  refine ⟨fun h => h.safe (.bufferWrite 2) rfl, fun h => h.safe (.inputRead 0) rfl, fun h => h.safe (.unwritten 0) rfl,
    fun h => ?_⟩
  cases h.rejects rfl

end PicoRuby.Time
