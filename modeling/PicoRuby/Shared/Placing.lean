import Mathlib.Data.List.Sort
import Mathlib.Data.List.Range

/-!
# Lists that are kept by placing

A list changes by taking elements out and by placing elements, each behind every element in front of the first larger
key. What holds of all pairs in order survives these changes when it holds of the pairs with a placed element.
-/

namespace PicoRuby.Shared

set_option autoImplicit false

universe u
variable {α : Type u} {key : α → Nat}

/-- In front of the first element with a larger key. -/
def placeBy (key : α → Nat) (p : α) (l : List α) : List α := l.orderedInsert (fun a b => key a < key b) p

theorem mem_placeBy {p a : α} {l : List α} : a ∈ placeBy key p l ↔ a = p ∨ a ∈ l := by
  simp [placeBy]

/-- A relation that a placed element has to what is in front of it and to what is behind it. -/
structure Suits (key : α → Nat) (R : α → α → Prop) (p : α) : Prop where
  front : ∀ a, key a ≤ key p → R a p
  next : ∀ b, key p < key b → R p b
  later : ∀ b c, key p < key b → R b c → R p c

theorem placeBy_pairwise {R : α → α → Prop} {p : α} {l : List α} (hp : Suits key R p) (h : l.Pairwise R) :
    (placeBy key p l).Pairwise R := by
  induction l with
  | nil => exact List.pairwise_singleton R p
  | cons b l ih =>
    obtain ⟨hb, hl⟩ := List.pairwise_cons.mp h
    unfold placeBy
    rw [List.orderedInsert]
    split
    · rename_i hlt
      refine List.pairwise_cons.mpr ⟨?_, h⟩
      intro c hc
      rcases List.mem_cons.mp hc with rfl | hc
      · exact hp.next c hlt
      · exact hp.later b c hlt (hb c hc)
    · rename_i hle
      refine List.pairwise_cons.mpr ⟨?_, ih hl⟩
      intro a ha
      rcases mem_placeBy.mp ha with rfl | ha
      · exact hp.front b (Nat.le_of_not_lt hle)
      · exact hb a ha

variable [DecidableEq α] {Moved : α → Prop} {l l' l'' : List α}

/-- The list becomes another one by moves of the elements that `Moved` allows. -/
inductive Moves (key : α → Nat) (Moved : α → Prop) (l : List α) : List α → Prop where
  | refl : Moves key Moved l l
  | remove {l' : List α} {p : α} : Moves key Moved l l' → Moved p → Moves key Moved l (l'.erase p)
  | place {l' : List α} {p : α} : Moves key Moved l l' → Moved p → Moves key Moved l (placeBy key p l')

namespace Moves

theorem trans (h : Moves key Moved l l') (h' : Moves key Moved l' l'') : Moves key Moved l l'' := by
  induction h' with
  | refl => exact h
  | remove _ hp ih => exact .remove ih hp
  | place _ hp ih => exact .place ih hp

theorem pairwise {R : α → α → Prop} (h : Moves key Moved l l') (hR : ∀ p, Moved p → Suits key R p)
    (hl : l.Pairwise R) : l'.Pairwise R := by
  induction h with
  | refl => exact hl
  | remove _ _ ih => exact ih.sublist List.erase_sublist
  | place _ hp ih => exact placeBy_pairwise (hR _ hp) ih

end Moves

end PicoRuby.Shared

/-!
# Grids in reading order

The cells of a grid, row by row, and the place of a cell in that order.
-/

namespace PicoRuby.Shared

set_option autoImplicit false

universe u
variable {α : Type u} {rows cols : Nat} {f : Nat → Nat → α}

def grid (rows cols : Nat) (f : Nat → Nat → α) : List α :=
  (List.range rows).flatMap fun row => (List.range cols).map (f row)

theorem grid_succ : grid (rows + 1) cols f = grid rows cols f ++ (List.range cols).map (f rows) := by
  simp [grid, List.range_succ, List.flatMap_append]

theorem grid_eq_map : grid rows cols f = (List.range (rows * cols)).map fun i => f (i / cols) (i % cols) := by
  induction rows with
  | zero => simp [grid]
  | succ rows ih =>
    rw [grid_succ, ih, Nat.succ_mul, List.range_add, List.map_append, List.map_map]
    congr 1
    apply List.map_congr_left
    intro col hcol
    have hlt := List.mem_range.mp hcol
    have hpos : 0 < cols := Nat.lt_of_le_of_lt (Nat.zero_le _) hlt
    have hdiv : (rows * cols + col) / cols = rows := by
      rw [Nat.add_comm, Nat.add_mul_div_right _ _ hpos, Nat.div_eq_of_lt hlt, Nat.zero_add]
    have hmod : (rows * cols + col) % cols = col := by
      rw [Nat.add_comm, Nat.add_mul_mod_self_right, Nat.mod_eq_of_lt hlt]
    simp [hdiv, hmod]

@[simp] theorem grid_length : (grid rows cols f).length = rows * cols := by simp [grid_eq_map]

theorem grid_getElem {i : Nat} (h : i < (grid rows cols f).length) :
    (grid rows cols f)[i] = f (i / cols) (i % cols) := by
  simp [grid_eq_map]

theorem mem_grid {x : α} : x ∈ grid rows cols f ↔ ∃ row < rows, ∃ col < cols, x = f row col := by
  simp only [grid, List.mem_flatMap, List.mem_range, List.mem_map]
  constructor
  · rintro ⟨row, hrow, col, hcol, rfl⟩
    exact ⟨row, hrow, col, hcol, rfl⟩
  · rintro ⟨row, hrow, col, hcol, rfl⟩
    exact ⟨row, hrow, col, hcol, rfl⟩

end PicoRuby.Shared
