import Mathlib.Data.List.TakeDrop
import Mathlib.Data.Nat.ModEq
import Mathlib.Logic.Function.Basic

/-!
# Windows of a circular buffer

`window data n head count` is what `count` cells of a buffer of `n` cells hold, from `head` on
and around its end. A queue kept between two indices is such a window; one cell has to stay
free for its length to be told from the indices.
-/

namespace PicoRuby.Shared

set_option autoImplicit false

universe u
variable {α : Type u} {data : Nat → α} {n head tail count m : Nat} {x : α}

def window (data : Nat → α) (n head count : Nat) : List α :=
  (List.range count).map fun i => data ((head + i) % n)

/-- The number of cells from `head` up to `tail`. -/
def ringDist (n head tail : Nat) : Nat := (tail + n - head) % n

@[simp] theorem window_length : (window data n head count).length = count := by
  rw [window, List.length_map, List.length_range]

theorem window_succ : window data n head (count + 1) =
    window data n head count ++ [data ((head + count) % n)] := by
  rw [window, List.range_succ, List.map_append]
  rfl

theorem window_getElem {i : Nat} (h : i < (window data n head count).length) :
    (window data n head count)[i] = data ((head + i) % n) := by
  simp [window]

theorem window_cons : window data n head (count + 1) =
    data (head % n) :: window data n ((head + 1) % n) count := by
  rw [window, List.range_succ_eq_map, List.map_cons, List.map_map]
  congr 1
  apply List.map_congr_left
  intro i _
  change data ((head + (i + 1)) % n) = data (((head + 1) % n + i) % n)
  rw [Nat.mod_add_mod, Nat.add_right_comm, Nat.add_assoc]

theorem window_take (h : m ≤ count) : (window data n head count).take m = window data n head m := by
  apply List.ext_getElem
  · rw [List.length_take, window_length, window_length, Nat.min_eq_left h]
  · intro i h₁ h₂
    rw [List.getElem_take, window_getElem, window_getElem]

theorem window_drop :
    (window data n head count).drop m = window data n ((head + m) % n) (count - m) := by
  apply List.ext_getElem
  · rw [List.length_drop, window_length, window_length]
  · intro i h₁ h₂
    rw [List.getElem_drop, window_getElem, window_getElem, Nat.mod_add_mod, Nat.add_assoc]

/-- The cell behind a window that leaves one free is not in the window. -/
theorem window_update (h : count < n) :
    window (Function.update data ((head + count) % n) x) n head count = window data n head count := by
  apply List.map_congr_left
  intro i hi
  apply Function.update_of_ne
  intro heq
  have hlt : i < count := List.mem_range.mp hi
  have hmod : i % n = count % n := by
    have hsum : Nat.ModEq n (head + i) (head + count) := heq
    exact Nat.ModEq.add_left_cancel' head hsum
  rw [Nat.mod_eq_of_lt (by omega), Nat.mod_eq_of_lt h] at hmod
  omega

/-- Writing the cell behind a window that leaves one free, and counting it. -/
theorem window_push (h : count < n) :
    window (Function.update data ((head + count) % n) x) n head (count + 1) =
      window data n head count ++ [x] := by
  rw [window_succ, window_update h, Function.update_self]

theorem ringDist_lt (htail : tail < n) : ringDist n head tail < n := Nat.mod_lt _ (by omega)

section Distance
variable (hhead : head < n) (htail : tail < n)
include hhead htail

/-- Walking the distance from `head` ends at `tail`. -/
theorem add_ringDist : (head + ringDist n head tail) % n = tail := by
  rw [ringDist, Nat.add_mod_mod, show head + (tail + n - head) = tail + n by omega,
    Nat.add_mod_right, Nat.mod_eq_of_lt htail]

theorem ringDist_eq_iff : ringDist n head tail = count ↔ count < n ∧ (head + count) % n = tail := by
  constructor
  · rintro rfl
    exact ⟨ringDist_lt htail, add_ringDist hhead htail⟩
  · rintro ⟨hlt, hsum⟩
    have hwalk : Nat.ModEq n (head + ringDist n head tail) (head + count) :=
      (add_ringDist hhead htail).trans hsum.symm
    have hmod : ringDist n head tail % n = count % n := Nat.ModEq.add_left_cancel' head hwalk
    rwa [Nat.mod_eq_of_lt (ringDist_lt htail), Nat.mod_eq_of_lt hlt] at hmod

theorem ringDist_eq_zero_iff : ringDist n head tail = 0 ↔ tail = head := by
  rw [ringDist_eq_iff hhead htail, Nat.add_zero, Nat.mod_eq_of_lt hhead]
  constructor
  · rintro ⟨_, heq⟩
    exact heq.symm
  · intro heq
    exact ⟨by omega, heq.symm⟩

/-- One cell more, up to the cell that has to stay free. -/
theorem ringDist_succ_tail (h : ringDist n head tail + 1 < n) :
    ringDist n head ((tail + 1) % n) = ringDist n head tail + 1 := by
  rw [ringDist_eq_iff hhead (Nat.mod_lt _ (by omega))]
  refine ⟨h, ?_⟩
  rw [← Nat.add_assoc, ← Nat.mod_add_mod, add_ringDist hhead htail]

/-- A window over all cells looks like an empty one. -/
theorem ringDist_wrap (h : ringDist n head tail + 1 = n) : ringDist n head ((tail + 1) % n) = 0 := by
  rw [ringDist_eq_iff hhead (Nat.mod_lt _ (by omega))]
  refine ⟨by omega, ?_⟩
  rw [← add_ringDist hhead htail, Nat.mod_add_mod, Nat.add_assoc, h, Nat.add_mod_right, Nat.add_zero]

theorem ringDist_add_head (h : m ≤ ringDist n head tail) :
    ringDist n ((head + m) % n) tail = ringDist n head tail - m := by
  have hlt : ringDist n head tail < n := ringDist_lt htail
  rw [ringDist_eq_iff (Nat.mod_lt _ (by omega)) htail]
  refine ⟨by omega, ?_⟩
  have hsum : head + m + (ringDist n head tail - m) = head + ringDist n head tail := by omega
  rw [Nat.mod_add_mod, hsum, add_ringDist hhead htail]

/-- There is no free cell for the writer when only the one that stays free is left. -/
theorem ring_full_iff : (tail + 1) % n = head ↔ ringDist n head tail + 1 = n := by
  constructor
  · intro hfull
    by_contra hne
    have hlt : ringDist n head tail < n := ringDist_lt htail
    have hsucc := ringDist_succ_tail hhead htail (by omega)
    rw [hfull, (ringDist_eq_zero_iff hhead hhead).mpr rfl] at hsucc
    omega
  · intro hfull
    have hzero := ringDist_wrap hhead htail hfull
    exact (ringDist_eq_zero_iff hhead (Nat.mod_lt _ (by omega))).mp hzero

/-- Writing at `tail` and moving it on appends to a ring that is not full. -/
theorem ring_push (hroom : (tail + 1) % n ≠ head) :
    window (Function.update data tail x) n head (ringDist n head ((tail + 1) % n)) =
      window data n head (ringDist n head tail) ++ [x] := by
  have hlt : ringDist n head tail < n := ringDist_lt htail
  have hfree : ringDist n head tail + 1 < n := by
    apply Nat.lt_of_le_of_ne hlt
    intro hfull
    exact hroom ((ring_full_iff hhead htail).mpr hfull)
  have hpush : window (Function.update data ((head + ringDist n head tail) % n) x) n head
      (ringDist n head tail + 1) = window data n head (ringDist n head tail) ++ [x] :=
    window_push (Nat.lt_of_succ_lt hfree)
  rw [add_ringDist hhead htail] at hpush
  rw [ringDist_succ_tail hhead htail hfree]
  exact hpush

/-- Moving `head` on takes the first element of a ring that is not empty. -/
theorem ring_pop (hne : head ≠ tail) :
    window data n head (ringDist n head tail) =
      data head :: window data n ((head + 1) % n) (ringDist n ((head + 1) % n) tail) := by
  have hpos : 1 ≤ ringDist n head tail := by
    apply Nat.one_le_iff_ne_zero.mpr
    rw [Ne, ringDist_eq_zero_iff hhead htail]
    exact fun heq => hne heq.symm
  obtain ⟨k, hk⟩ := Nat.exists_eq_add_of_le' hpos
  rw [ringDist_add_head hhead htail hpos, hk, window_cons, Nat.mod_eq_of_lt hhead,
    Nat.add_sub_cancel]

end Distance

end PicoRuby.Shared
