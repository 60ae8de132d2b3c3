import Mathlib.Data.List.DropRight

/-!
# Lines that end with two characters

Splitting a text at every line end of two different characters, and putting the lines together again.
-/

namespace PicoRuby.Shared

set_option autoImplicit false

universe u
variable {α : Type u}

/-! ## Lists without a blank end -/

section DropRight
variable {p : α → Bool} {l l' : List α} {x : α}

theorem rdropWhile_cons : (x :: l).rdropWhile p =
    if l.rdropWhile p = [] ∧ p x then [] else x :: l.rdropWhile p := by
  induction l using List.reverseRecOn with
  | nil => by_cases hx : p x <;> simp [List.rdropWhile_singleton, hx]
  | append_singleton l y ih =>
    rw [← List.cons_append, List.rdropWhile_concat, List.rdropWhile_concat]
    by_cases hy : p y
    · rw [if_pos hy, if_pos hy]
      exact ih
    · rw [if_neg hy, if_neg hy]
      simp

/-- Nothing is dropped from what would be kept by itself. -/
theorem rdropWhile_append (h : ∀ x ∈ l, ¬ p x) : (l ++ l').rdropWhile p = l ++ l'.rdropWhile p := by
  induction l with
  | nil => rfl
  | cons x l ih =>
    rw [List.forall_mem_cons] at h
    rw [List.cons_append, rdropWhile_cons, if_neg fun hx => h.1 hx.2, ih h.2]
    rfl

end DropRight

/-! ## Lines -/

/-- `String#split` at every `a` with `b` behind it, with the empty strings at the end. -/
def splitPair [DecidableEq α] (a b : α) : List α → List (List α)
  | [] => [[]]
  | [c] => [[c]]
  | c :: d :: s =>
    if c = a ∧ d = b then [] :: splitPair a b s else (splitPair a b (d :: s)).modifyHead (c :: ·)

/-- The lines with a line end between each two. -/
def joinPair (a b : α) : List (List α) → List α
  | [] => []
  | [line] => line
  | line :: lines => line ++ a :: b :: joinPair a b lines

section Pair
variable {a b c : α} {line s : List α} {lines : List (List α)}

theorem joinPair_cons (h : lines ≠ []) : joinPair a b (line :: lines) = line ++ a :: b :: joinPair a b lines := by
  cases lines with
  | nil => exact absurd rfl h
  | cons line' lines => rfl

theorem joinPair_modifyHead (h : lines ≠ []) :
    joinPair a b (lines.modifyHead (c :: ·)) = c :: joinPair a b lines := by
  cases lines with
  | nil => exact absurd rfl h
  | cons line lines =>
    cases lines with
    | nil => rfl
    | cons line' lines => rfl

theorem joinPair_concat (h : lines ≠ []) :
    joinPair a b (lines ++ [line]) = joinPair a b lines ++ a :: b :: line := by
  induction lines with
  | nil => exact absurd rfl h
  | cons line' lines ih =>
    cases hlines : lines with
    | nil => rfl
    | cons line'' lines' =>
      rw [← hlines, List.cons_append, joinPair_cons (by simp), ih (by simp [hlines]), joinPair_cons (by simp [hlines])]
      simp

/-- Fewer lines are less text. -/
theorem joinPair_length_le {lines' : List (List α)} (h : lines' <+: lines) :
    (joinPair a b lines').length ≤ (joinPair a b lines).length := by
  obtain ⟨rest, rfl⟩ := h
  induction rest using List.reverseRecOn with
  | nil => simp
  | append_singleton rest line ih =>
    by_cases hempty : lines' ++ rest = []
    · obtain ⟨rfl, rfl⟩ := List.append_eq_nil_iff.mp hempty
      simp [joinPair]
    · rw [← List.append_assoc, joinPair_concat hempty, List.length_append]
      omega

variable [DecidableEq α]

theorem splitPair_ne_nil : splitPair a b s ≠ [] := by
  induction s using splitPair.induct a b with
  | case1 => exact List.cons_ne_nil _ _
  | case2 c => exact List.cons_ne_nil _ _
  | case3 c d s h ih =>
    rw [splitPair, if_pos h]
    exact List.cons_ne_nil _ _
  | case4 c d s h ih =>
    rw [splitPair, if_neg h]
    simpa using ih

theorem splitPair_cons (h : c ≠ a) : splitPair a b (c :: s) = (splitPair a b s).modifyHead (c :: ·) := by
  cases s with
  | nil => rfl
  | cons d s =>
    rw [splitPair, if_neg]
    exact fun hc => h hc.1

/-- A line is split off at its end. -/
theorem splitPair_line (h : a ∉ line) : splitPair a b (line ++ a :: b :: s) = line :: splitPair a b s := by
  induction line with
  | nil =>
    rw [List.nil_append, splitPair]
    exact if_pos ⟨rfl, rfl⟩
  | cons c line ih =>
    rw [List.mem_cons, not_or] at h
    rw [List.cons_append, splitPair_cons (Ne.symm h.1), ih h.2]
    rfl

theorem splitPair_lines (h : ∀ line ∈ lines, a ∉ line) :
    splitPair a b (lines.flatMap (· ++ [a, b]) ++ s) = lines ++ splitPair a b s := by
  induction lines with
  | nil => rfl
  | cons line lines ih =>
    rw [List.forall_mem_cons] at h
    have hassoc : (line :: lines).flatMap (· ++ [a, b]) ++ s =
        line ++ a :: b :: (lines.flatMap (· ++ [a, b]) ++ s) := by simp
    rw [hassoc, splitPair_line h.1, ih h.2]
    rfl

theorem joinPair_splitPair : joinPair a b (splitPair a b s) = s := by
  induction s using splitPair.induct a b with
  | case1 => rfl
  | case2 c => rfl
  | case3 c d s h ih =>
    rw [splitPair, if_pos h, joinPair_cons splitPair_ne_nil, ih, h.1, h.2]
    rfl
  | case4 c d s h ih => rw [splitPair, if_neg h, joinPair_modifyHead splitPair_ne_nil, ih]

theorem splitPair_concat (hne : a ≠ b) : splitPair a b (s ++ [a, b]) = splitPair a b s ++ [[]] := by
  induction s using splitPair.induct a b with
  | case1 => simp [splitPair]
  | case2 c => simp [splitPair, hne]
  | case3 c d s h ih =>
    rw [List.cons_append, List.cons_append, splitPair, if_pos h, splitPair, if_pos h, ih]
    rfl
  | case4 c d s h ih =>
    rw [List.cons_append, List.cons_append, splitPair, if_neg h, splitPair, if_neg h, ← List.cons_append, ih]
    cases hlines : splitPair a b (d :: s) with
    | nil => exact absurd hlines splitPair_ne_nil
    | cons line lines => rfl

/-- The text without the empty lines at its end is all of it just if it does not end with a line end. -/
theorem joinPair_rdropWhile_iff (hne : a ≠ b) :
    joinPair a b ((splitPair a b s).rdropWhile (· = [])) = s ↔ ¬ [a, b] <:+ s := by
  constructor
  · rintro h ⟨t, rfl⟩
    have hle := joinPair_length_le (a := a) (b := b) (List.rdropWhile_prefix (· = []) (l := splitPair a b t))
    rw [splitPair_concat hne, List.rdropWhile_concat_pos _ _ _ (by simp)] at h
    rw [h, joinPair_splitPair, List.length_append, List.length_cons] at hle
    omega
  · intro h
    rcases List.eq_nil_or_concat (splitPair a b s) with hnil | ⟨lines', line', hlines⟩
    · exact absurd hnil splitPair_ne_nil
    · have hjoin := joinPair_splitPair (a := a) (b := b) (s := s)
      by_cases hline : line' = []
      · by_cases hempty : lines' = []
        · rw [hlines, hline, hempty] at hjoin
          rw [hlines, hline, hempty, ← hjoin]
          simp [joinPair, List.rdropWhile_singleton]
        · rw [hlines, hline, List.concat_eq_append, joinPair_concat hempty] at hjoin
          exact absurd ⟨_, hjoin⟩ h
      · rw [hlines, List.concat_eq_append, List.rdropWhile_concat_neg _ _ _ (by simpa using hline),
          ← List.concat_eq_append, ← hlines, hjoin]

end Pair

end PicoRuby.Shared
