import Mathlib.Data.List.Basic

/-!
# Positions in a text

A scanner holds a text and an index into it. `At s i t` says that `t` is what is left
of `s` at index `i`; reading, skipping and slicing are stated in terms of it, so that
a proof about a scanner never mentions the part of the text it has passed.
-/

namespace PicoRuby.Shared

set_option autoImplicit false

universe u
variable {α : Type u}

/-- What is left of `s` at index `i` is `t`. -/
def At (s : List α) (i : Nat) (t : List α) : Prop := s.drop i = t

/-- The text from index `i` up to index `j`. -/
def slice (s : List α) (i j : Nat) : List α := (s.drop i).take (j - i)

/-- The index behind the longest run of elements with `p`. -/
def skipWhile (p : α → Bool) (s : List α) (i : Nat) : Nat := i + ((s.drop i).takeWhile p).length

section Reading
variable {s t u : List α} {i j : Nat} {a : α} {p : α → Bool}

theorem At.start (s : List α) : At s 0 s := rfl

theorem At.get (h : At s i t) : s[i]? = t.head? := by
  rw [← h, List.head?_drop]

theorem At.get_cons (h : At s i (a :: t)) : s[i]? = some a := h.get

theorem At.move (h : At s i (t ++ u)) : At s (i + t.length) u := by
  unfold At at h ⊢
  rw [← List.drop_drop, h, List.drop_left]

theorem At.next (h : At s i (a :: t)) : At s (i + 1) t := At.move (t := [a]) h

theorem At.length_le (h : At s i t) : t.length ≤ s.length := by
  rw [← h, List.length_drop]
  omega

theorem At.end_le (h : At s i (t ++ u)) (ht : t ≠ []) : i + t.length ≤ s.length := by
  have hlen : (t ++ u).length = s.length - i := by
    rw [← h, List.length_drop]
  have hpos := List.length_pos_iff.mpr ht
  rw [List.length_append] at hlen
  omega

theorem At.slice (h : At s i (t ++ u)) : slice s i (i + t.length) = t := by
  unfold Shared.slice
  rw [h, Nat.add_sub_cancel_left, List.take_left]

theorem At.skipWhile (h : At s i (t ++ u)) (ht : ∀ a ∈ t, p a = true)
    (hu : ∀ a ∈ u.head?, p a = false) : skipWhile p s i = i + t.length := by
  unfold Shared.skipWhile
  rw [h, List.takeWhile_append_of_pos ht]
  cases u with
  | nil => simp
  | cons a u =>
    have ha : p a = false := hu a rfl
    simp [ha]

theorem le_skipWhile (p : α → Bool) (s : List α) (i : Nat) : i ≤ Shared.skipWhile p s i :=
  Nat.le_add_right _ _

theorem At.skipWhile_none (h : At s i u) (hu : ∀ a ∈ u.head?, p a = false) :
    Shared.skipWhile p s i = i := At.skipWhile (t := []) h nofun hu

theorem At.of_get (h : s[i]? = some a) : ∃ t, At s i (a :: t) := by
  obtain ⟨hi, ha⟩ := List.getElem?_eq_some_iff.mp h
  exact ⟨s.drop (i + 1), by rw [At, List.drop_eq_getElem_cons hi, ha]⟩

theorem exists_run (p : α → Bool) (t : List α) :
    ∃ run rest, t = run ++ rest ∧ (∀ a ∈ run, p a = true) ∧ ∀ a ∈ rest.head?, p a = false := by
  induction t with
  | nil => exact ⟨[], [], rfl, nofun, nofun⟩
  | cons a t ih =>
    cases ha : p a with
    | false =>
      refine ⟨[], a :: t, rfl, nofun, ?_⟩
      rintro _ ⟨⟩
      exact ha
    | true =>
      obtain ⟨run, rest, rfl, hrun, hrest⟩ := ih
      refine ⟨a :: run, rest, rfl, ?_, hrest⟩
      intro b hb
      rcases List.mem_cons.mp hb with rfl | hb
      · exact ha
      · exact hrun b hb

end Reading

end PicoRuby.Shared
