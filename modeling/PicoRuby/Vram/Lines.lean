import Mathlib.Algebra.Order.Field.Basic
import Mathlib.Data.List.Chain
import Mathlib.Data.Rat.Cast.Order
import Mathlib.Tactic.FieldSimp
import PicoRuby.Vram.Drawing

/-!
# The points of a line

What `draw_line` plots, against the segment between its ends.
-/

namespace PicoRuby.Vram

set_option autoImplicit false

universe u

/-- From a point to one of its eight neighbours, not backwards on the way from one end to the other. -/
structure LineStep (x0 y0 x1 y1 : Int) (p q : Int × Int) : Prop where
  moves : p ≠ q
  x : |q.1 - p.1| ≤ 1
  y : |q.2 - p.2| ≤ 1
  right (h : x0 ≤ x1) : p.1 ≤ q.1
  left (h : x1 ≤ x0) : q.1 ≤ p.1
  down (h : y0 ≤ y1) : p.2 ≤ q.2
  up (h : y1 ≤ y0) : q.2 ≤ p.2

/-- The points of the segment on the grid; off the segment by at most a half along the minor axis. -/
structure GridLine (x0 y0 x1 y1 : Int) (points : List (Int × Int)) : Prop where
  length : points.length = max (x1 - x0).natAbs (y1 - y0).natAbs + 1
  head : points.head? = some (x0, y0)
  last : points.getLast? = some (x1, y1)
  steps : points.IsChain (LineStep x0 y0 x1 y1)
  flat (h : |y1 - y0| ≤ |x1 - x0|) : ∀ p ∈ points,
    |(p.2 : ℚ) - (y0 + (p.1 - x0) * (y1 - y0) / (x1 - x0))| ≤ 1 / 2
  steep (h : |x1 - x0| ≤ |y1 - y0|) : ∀ p ∈ points,
    |(p.1 : ℚ) - (x0 + (p.2 - y0) * (x1 - x0) / (y1 - y0))| ≤ 1 / 2

/-! ## One axis -/

section Axis
variable {u0 u1 v0 v1 a b i j : Int} {su sv : Int}

theorem abs_side (hsu : su = 1 ∨ su = -1) (ha : 0 ≤ a) (hu : u0 + su * a = u1) : |u1 - u0| = a := by
  have hdiff : u1 - u0 = su * a := by omega
  rw [hdiff]
  rcases hsu with rfl | rfl
  · rw [one_mul, abs_of_nonneg ha]
  · rw [neg_one_mul, abs_neg, abs_of_nonneg ha]

/-- Half a step along a side is half a pixel. -/
theorem half_pixel (hsu : su = 1 ∨ su = -1) (hsv : sv = 1 ∨ sv = -1) (hu : u0 + su * a = u1)
    (hv : v0 + sv * b = v1) (ha : 0 ≤ a) (hj : a = 0 → j = 0) (hnear : |2 * (j * a - i * b)| ≤ a) :
    |((v0 + sv * j : Int) : ℚ) - (v0 + ((u0 + su * i : Int) - u0) * (v1 - v0) / (u1 - u0))| ≤ 1 / 2 := by
  subst hu hv
  push_cast
  rcases eq_or_lt_of_le ha with rfl | hpos
  · rw [hj rfl]
    simp
  · have hpos' : (0 : ℚ) < a := by exact_mod_cast hpos
    have hside : (su : ℚ) * su = 1 := by rcases hsu with rfl | rfl <;> norm_num
    have hdist : (v0 + sv * j : ℚ) - (v0 + (u0 + su * i - u0) * (v0 + sv * b - v0) / (u0 + su * a - u0)) =
        sv * ((2 * (j * a - i * b)) / (2 * a)) := by
      have hsu' : (su : ℚ) ≠ 0 := by
        intro hzero
        rw [hzero] at hside
        norm_num at hside
      field_simp
      ring
    have hcast : |2 * ((j : ℚ) * a - i * b)| ≤ a := by exact_mod_cast hnear
    have hsign : |(sv : ℚ)| = 1 := by rcases hsv with rfl | rfl <;> norm_num
    rw [hdist, abs_mul, hsign, one_mul, abs_div, abs_of_pos (by linarith : (0 : ℚ) < 2 * a),
      div_le_div_iff₀ (by linarith) (by norm_num)]
    linarith

end Axis

/-! ## The line -/

section Line
variable {x0 y0 x1 y1 dx dy sx sy : Int} {rounds : Nat} {steps : List (Int × Int)}

theorem lineStep_of_oneStep (h : Sides x0 y0 x1 y1 dx dy sx sy) {p q : Int × Int} (hstep : OneStep p q)
    (hx : dx = 0 → p.1 = q.1) (hy : dy = 0 → p.2 = q.2) :
    LineStep x0 y0 x1 y1 (x0 + sx * p.1, y0 + sy * p.2) (x0 + sx * q.1, y0 + sy * q.2) := by
  obtain ⟨h1, h2, hne⟩ := hstep
  obtain ⟨hsx, hsy⟩ := And.intro h.sx h.sy
  have hends := And.intro h.x h.y
  have hdx := h.dx
  have hdy := h.dy
  have hne' : p.1 ≠ q.1 ∨ p.2 ≠ q.2 := by
    by_contra hsame
    rw [not_or, not_not, not_not] at hsame
    exact hne (Prod.ext hsame.1 hsame.2)
  constructor
  · intro heq
    rw [Prod.mk.injEq] at heq
    rcases hsx with rfl | rfl <;> rcases hsy with rfl | rfl <;> omega
  · rw [abs_le]
    rcases hsx with rfl | rfl <;> constructor <;> dsimp only <;> omega
  · rw [abs_le]
    rcases hsy with rfl | rfl <;> constructor <;> dsimp only <;> omega
  all_goals
    intro hdir
    dsimp only
    rcases hsx with rfl | rfl <;> rcases hsy with rfl | rfl <;> omega

theorem gridLine_of_trail (h : Sides x0 y0 x1 y1 dx dy sx sy)
    (htrail : Trail dx dy (max dx dy).toNat 0 0 steps) :
    GridLine x0 y0 x1 y1 (steps.map fun p => (x0 + sx * p.1, y0 + sy * p.2)) := by
  have hdx : |x1 - x0| = dx := abs_side h.sx h.dx h.x
  have hdy : |y1 - y0| = dy := abs_side h.sy h.dy h.y
  constructor
  · rw [List.length_map, htrail.length]
    have hx : ((x1 - x0).natAbs : Int) = dx := (Int.natCast_natAbs _).trans hdx
    have hy : ((y1 - y0).natAbs : Int) = dy := (Int.natCast_natAbs _).trans hdy
    omega
  · rw [List.head?_map, htrail.head]
    simp
  · rw [List.getLast?_map, htrail.last]
    simp [h.x, h.y]
  · rw [List.isChain_map]
    apply htrail.chain.imp_of_mem_imp
    intro p q hp hq hstep
    have hbetween := htrail.between p hp
    have hbetween' := htrail.between q hq
    exact lineStep_of_oneStep h hstep (by omega) (by omega)
  · intro hle p hp
    obtain ⟨q, hq, rfl⟩ := List.mem_map.mp hp
    rw [hdx, hdy] at hle
    have hbetween := htrail.between q hq
    exact half_pixel h.sx h.sy h.x h.y h.dx (by omega) ((htrail.near q hq).flat hle)
  · intro hle p hp
    obtain ⟨q, hq, rfl⟩ := List.mem_map.mp hp
    rw [hdx, hdy] at hle
    have hbetween := htrail.between q hq
    exact half_pixel h.sy h.sx h.y h.x h.dy (by omega) ((htrail.near q hq).steep hle)

end Line

/-- **Lines.** The loop of `draw_line` ends, and whatever it draws on, it plots the points of one grid line
from end to end. -/
theorem drawLine_gridLine (x0 y0 x1 y1 color : Int) : ∃ points, GridLine x0 y0 x1 y1 points ∧
    ∀ (S : Type u) (d : Surface S) (s : S), drawLine d s x0 y0 x1 y1 color =
      some (points.foldl (fun s p => d.plot s p.1 p.2 (UInt32.ofInt color)) s) := by
  obtain ⟨dx, dy, sx, sy, steps, hsides, htrail, hdraws⟩ := drawLine_visits.{u} x0 y0 x1 y1 color
  refine ⟨_, gridLine_of_trail hsides htrail, fun S d s => ?_⟩
  rw [hdraws S d s, List.foldl_map]
  rfl

end PicoRuby.Vram
