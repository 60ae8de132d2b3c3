import Mathlib.Algebra.Order.Group.Abs
import Mathlib.Algebra.Order.Ring.Int
import Mathlib.Tactic.Linarith
import Mathlib.Tactic.Ring

/-!
# Tours around a cycle

A walk around a cycle of `n` places is followed on the integers, where places that are `n` apart are the same.
The complete turns are counted at each visit of the place from which the walk has started.
-/

namespace PicoRuby.Shared

set_option autoImplicit false

/-- Where a walk is, and the turns at its last visit of the start. -/
structure Tour where
  position : Int
  turns : Int
deriving DecidableEq, Repr

namespace Tour

def start : Tour := ⟨0, 0⟩

def step (n : Int) (t : Tour) (d : Int) : Tour where
  position := t.position + d
  turns := if n ∣ t.position + d then (t.position + d) / n else t.turns

/-- How far the walk is away from its last visit of the start. -/
def offset (n : Int) (t : Tour) : Int := t.position - n * t.turns

/-- Since the last visit no other place of the start has been passed. -/
def Within (n : Int) (t : Tour) : Prop := |t.offset n| < n

variable {n d : Int} {t : Tour}

theorem start_within (hn : 0 < n) : start.Within n := by
  simp [Within, offset, start, hn]

theorem dvd_position_iff (a : Int) : n ∣ t.position + a ↔ n ∣ t.offset n + a := by
  have hsplit : t.position + a = n * t.turns + (t.offset n + a) := by
    unfold offset
    ring
  rw [hsplit]
  exact Int.dvd_add_right (Dvd.intro _ rfl)

theorem step_turns (k : Int) (hn : 0 < n) (h : t.offset n + d = n * k) : (t.step n d).turns = t.turns + k := by
  have hposition : t.position + d = n * (t.turns + k) := by
    unfold offset at h
    linarith
  unfold step
  dsimp only
  rw [hposition, if_pos (Dvd.intro _ rfl), Int.mul_ediv_cancel_left _ (by omega)]

/-- A step goes on, or completes a turn in one direction or in the other. -/
theorem step_cases (hn : 0 < n) (h : t.Within n) (hd : |d| ≤ 1) :
    (|t.offset n + d| < n ∧ (t.step n d).turns = t.turns ∧ (t.step n d).offset n = t.offset n + d) ∨
      (t.offset n + d = n ∧ (t.step n d).turns = t.turns + 1 ∧ (t.step n d).offset n = 0) ∨
      (t.offset n + d = -n ∧ (t.step n d).turns = t.turns - 1 ∧ (t.step n d).offset n = 0) := by
  have hoffset : (t.step n d).offset n = t.offset n + d - n * ((t.step n d).turns - t.turns) := by
    unfold offset step
    dsimp only
    ring
  unfold Within at h
  rw [abs_lt] at h
  rw [abs_le] at hd
  by_cases hup : t.offset n + d = n
  · have hturns := step_turns 1 hn (by rw [hup, mul_one])
    refine Or.inr (Or.inl ⟨hup, hturns, ?_⟩)
    rw [hoffset, hturns, hup]
    ring
  by_cases hdown : t.offset n + d = -n
  · have hturns := step_turns (-1) hn (by rw [hdown, mul_neg_one])
    refine Or.inr (Or.inr ⟨hdown, hturns, ?_⟩)
    rw [hoffset, hturns, hdown]
    ring
  · have habs : |t.offset n + d| < n := by
      rw [abs_lt]
      omega
    have hturns : (t.step n d).turns = t.turns := by
      by_cases hdvd : n ∣ t.position + d
      · have hzero : t.offset n + d = 0 :=
          Int.eq_zero_of_abs_lt_dvd ((dvd_position_iff d).mp hdvd) habs
        have hturns := step_turns 0 hn (by rw [hzero, mul_zero])
        rw [hturns, add_zero]
      · exact if_neg hdvd
    refine Or.inl ⟨habs, hturns, ?_⟩
    rw [hoffset, hturns]
    ring

theorem step_within (hn : 0 < n) (h : t.Within n) (hd : |d| ≤ 1) : (t.step n d).Within n := by
  unfold Within
  rcases step_cases hn h hd with ⟨habs, -, hoffset⟩ | ⟨-, -, hoffset⟩ | ⟨-, -, hoffset⟩
  · rw [hoffset]
    exact habs
  · rw [hoffset, abs_zero]
    exact hn
  · rw [hoffset, abs_zero]
    exact hn

end Tour

end PicoRuby.Shared
