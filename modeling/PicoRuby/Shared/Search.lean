import Mathlib.Data.List.Infix

/-!
# Searching a text

Where a pattern is in a text, and the text up to the end of its first occurrence. What is cut off a text behind
an occurrence does not change where it is found.
-/

namespace PicoRuby.Shared

set_option autoImplicit false

universe u
variable {α : Type u}

/-- `pattern` is at index `i` of `s`. -/
def OccursAt (pattern s : List α) (i : Nat) : Prop := i ≤ s.length ∧ pattern <+: s.drop i

instance [DecidableEq α] (pattern s : List α) (i : Nat) : Decidable (OccursAt pattern s i) :=
  inferInstanceAs (Decidable (_ ∧ _))

/-- `s.index(pattern, offset)`. -/
def indexFrom [DecidableEq α] (pattern s : List α) (offset : Nat) : Option Nat :=
  (List.range' offset (s.length + 1 - offset)).find? fun i => OccursAt pattern s i

/-- The text up to the end of the first `pattern`, all of it where there is none. -/
def upto [DecidableEq α] (pattern s : List α) : List α :=
  match indexFrom pattern s 0 with
  | some i => s.take (i + pattern.length)
  | none => s

variable {pattern s : List α} {i n offset offset' : Nat}

theorem OccursAt.end_le (h : OccursAt pattern s i) : i + pattern.length ≤ s.length := by
  have hlen := h.2.length_le
  rw [List.length_drop] at hlen
  have hle := h.1
  omega

/-- What is cut off behind an occurrence was not part of it. -/
theorem occursAt_take : OccursAt pattern (s.take n) i ↔ OccursAt pattern s i ∧ i + pattern.length ≤ n := by
  constructor
  · intro h
    have hend := h.end_le
    rw [List.length_take] at hend
    refine ⟨⟨by omega, ?_⟩, by omega⟩
    exact h.2.trans ((List.take_prefix n s).drop i)
  · rintro ⟨h, hn⟩
    have hend := h.end_le
    refine ⟨by rw [List.length_take]; omega, ?_⟩
    rw [List.drop_take, List.prefix_take_iff]
    exact ⟨h.2, by omega⟩

theorem occursAt_drop (h : n ≤ s.length) : OccursAt pattern (s.drop n) i ↔ OccursAt pattern s (i + n) := by
  unfold OccursAt
  rw [List.length_drop, List.drop_drop, Nat.add_comm n i]
  exact and_congr_left fun _ => by omega

theorem occursAt_singleton {a : α} : OccursAt [a] s i ↔ s[i]? = some a := by
  rw [← List.head?_drop]
  constructor
  · rintro ⟨-, hin⟩
    obtain ⟨more, heq⟩ := hin
    rw [← heq]
    rfl
  · intro h
    obtain ⟨more, heq⟩ := List.head?_eq_some_iff.mp h
    have hlen := congrArg List.length heq
    rw [List.length_drop, List.length_cons] at hlen
    refine ⟨by omega, ?_⟩
    rw [heq]
    exact ⟨more, rfl⟩

section Index
variable [DecidableEq α]

theorem indexFrom_eq_some_iff : indexFrom pattern s offset = some i ↔
    offset ≤ i ∧ OccursAt pattern s i ∧ ∀ j, offset ≤ j → j < i → ¬ OccursAt pattern s j := by
  unfold indexFrom
  rw [List.find?_range'_eq_some]
  simp only [decide_eq_true_eq, List.mem_range'_1, Bool.not_eq_true', decide_eq_false_iff_not]
  constructor
  · rintro ⟨hocc, ⟨hle, -⟩, hfirst⟩
    exact ⟨hle, hocc, hfirst⟩
  · rintro ⟨hle, hocc, hfirst⟩
    have hlen := hocc.1
    exact ⟨hocc, ⟨hle, by omega⟩, hfirst⟩

theorem indexFrom_eq_none_iff : indexFrom pattern s offset = none ↔
    ∀ i, offset ≤ i → ¬ OccursAt pattern s i := by
  unfold indexFrom
  rw [List.find?_range'_eq_none]
  simp only [Bool.not_eq_true', decide_eq_false_iff_not]
  constructor
  · intro h i hle hocc
    have hlen := hocc.1
    exact h i hle (by omega) hocc
  · intro h i hle _
    exact h i hle

/-- A search may start later where nothing is passed over. -/
theorem indexFrom_skip (hle : offset ≤ offset') (h : ∀ i, offset ≤ i → i < offset' → ¬ OccursAt pattern s i) :
    indexFrom pattern s offset' = indexFrom pattern s offset := by
  cases hindex : indexFrom pattern s offset' with
  | none =>
    rw [indexFrom_eq_none_iff] at hindex
    symm
    rw [indexFrom_eq_none_iff]
    intro i hi
    by_cases hlt : i < offset'
    · exact h i hi hlt
    · exact hindex i (by omega)
  | some i =>
    rw [indexFrom_eq_some_iff] at hindex
    obtain ⟨hi, hocc, hfirst⟩ := hindex
    symm
    rw [indexFrom_eq_some_iff]
    refine ⟨by omega, hocc, ?_⟩
    intro j hj hji
    by_cases hlt : j < offset'
    · exact h j hj hlt
    · exact hfirst j (by omega) hji

theorem indexFrom_take : indexFrom pattern (s.take n) offset =
    (indexFrom pattern s offset).filter (· + pattern.length ≤ n) := by
  cases hindex : indexFrom pattern s offset with
  | none =>
    rw [indexFrom_eq_none_iff] at hindex
    rw [Option.filter_none, indexFrom_eq_none_iff]
    intro i hi hocc
    exact hindex i hi (occursAt_take.mp hocc).1
  | some i =>
    rw [indexFrom_eq_some_iff] at hindex
    obtain ⟨hi, hocc, hfirst⟩ := hindex
    by_cases hn : i + pattern.length ≤ n
    · rw [Option.filter_some_pos (by simpa using hn), indexFrom_eq_some_iff]
      refine ⟨hi, occursAt_take.mpr ⟨hocc, hn⟩, ?_⟩
      intro j hj hji hbefore
      exact hfirst j hj hji (occursAt_take.mp hbefore).1
    · rw [Option.filter_some_neg (by simpa using hn), indexFrom_eq_none_iff]
      intro j hj hafter
      obtain ⟨hthere, hend⟩ := occursAt_take.mp hafter
      exact hfirst j hj (by omega) hthere

/-- A search in the rest of a text is a search from there on. -/
theorem indexFrom_drop (h : n ≤ s.length) : indexFrom pattern s n = (indexFrom pattern (s.drop n) 0).map (· + n) := by
  cases hindex : indexFrom pattern (s.drop n) 0 with
  | none =>
    rw [indexFrom_eq_none_iff] at hindex
    rw [Option.map_none, indexFrom_eq_none_iff]
    intro i hi hocc
    rw [← Nat.sub_add_cancel hi] at hocc
    exact hindex (i - n) (Nat.zero_le _) ((occursAt_drop h).mpr hocc)
  | some i =>
    rw [indexFrom_eq_some_iff] at hindex
    obtain ⟨-, hocc, hfirst⟩ := hindex
    rw [Option.map_some, indexFrom_eq_some_iff]
    refine ⟨Nat.le_add_left n i, (occursAt_drop h).mp hocc, ?_⟩
    intro j hj hji hbefore
    rw [← Nat.sub_add_cancel hj] at hbefore
    exact hfirst (j - n) (Nat.zero_le _) (by omega) ((occursAt_drop h).mpr hbefore)

/-- What is found in the beginning of a text is found in the text. -/
theorem indexFrom_of_take (h : indexFrom pattern (s.take n) offset = some i) :
    indexFrom pattern s offset = some i ∧ i + pattern.length ≤ n := by
  rw [indexFrom_take, Option.filter_eq_some_iff] at h
  exact ⟨h.1, by simpa using h.2⟩

theorem indexFrom_nil (h : offset ≤ s.length) : indexFrom [] s offset = some offset := by
  rw [indexFrom_eq_some_iff]
  refine ⟨Nat.le_refl _, ⟨h, List.nil_prefix⟩, ?_⟩
  intro j hj hlt
  omega

/-! ## Up to the first occurrence -/

theorem upto_eq_some (h : indexFrom pattern s 0 = some i) : upto pattern s = s.take (i + pattern.length) := by
  unfold upto
  rw [h]

theorem upto_eq_none (h : indexFrom pattern s 0 = none) : upto pattern s = s := by
  unfold upto
  rw [h]

theorem upto_isPrefix : upto pattern s <+: s := by
  unfold upto
  split
  · exact List.take_prefix _ _
  · exact List.prefix_rfl

theorem upto_nil : upto [] s = [] := by
  rw [upto_eq_some (indexFrom_nil (Nat.zero_le _))]
  rfl

@[simp] theorem upto_empty : upto pattern ([] : List α) = [] := List.prefix_nil.mp upto_isPrefix

theorem upto_ne_nil (hpattern : pattern ≠ []) (hs : s ≠ []) : upto pattern s ≠ [] := by
  unfold upto
  split
  · have hpos := List.length_pos_iff.mpr hpattern
    rw [ne_eq, List.take_eq_nil_iff, not_or]
    exact ⟨by omega, hs⟩
  · exact hs

/-- The first occurrence is found in what is left of the text where it ends in it. -/
theorem upto_take : upto pattern (s.take n) = (upto pattern s).take n := by
  cases hindex : indexFrom pattern s 0 with
  | none => rw [upto_eq_none hindex, upto_eq_none (by rw [indexFrom_take, hindex, Option.filter_none])]
  | some i =>
    rw [upto_eq_some hindex]
    by_cases hn : i + pattern.length ≤ n
    · rw [upto_eq_some (i := i) (by rw [indexFrom_take, hindex, Option.filter_some_pos (by simpa using hn)]),
        List.take_take, List.take_take, Nat.min_eq_left hn, Nat.min_eq_right hn]
    · rw [upto_eq_none (by rw [indexFrom_take, hindex, Option.filter_some_neg (by simpa using hn)]),
        List.take_take, Nat.min_eq_left (by omega)]

end Index

end PicoRuby.Shared
