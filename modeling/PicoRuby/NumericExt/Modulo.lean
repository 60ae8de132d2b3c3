import Mathlib.Algebra.Order.Archimedean.Basic
import Mathlib.Tactic.Linarith
import Mathlib.Tactic.NormNum
import Mathlib.Tactic.Ring

/-!
# Float#%

The modulo of picoruby-numeric-ext, with rational numbers for floats.
-/

namespace PicoRuby.NumericExt

set_option autoImplicit false

/-- The loop of `Float#%`, for a number of rounds. -/
def modulo (right : ℚ) : Nat → ℚ → Option ℚ
  | 0, _ => none
  | rounds + 1, left => if right < left then modulo right rounds (left - right) else some left

/-- `left % right` ends, and gives `r`. -/
def Returns (left right r : ℚ) : Prop := ∃ rounds, modulo right rounds left = some r

/-- What a modulo is. -/
structure IsModulo (x y r : ℚ) : Prop where
  quotient : ∃ q : ℤ, x = q * y + r
  sign : r = 0 ∨ 0 < r * y
  bound : |r| < |y|

section Loop
variable {x y r : ℚ}

theorem sub_shift (x y : ℚ) (i : Nat) : x - y - i * y = x - (i + 1 : Nat) * y := by
  push_cast
  ring

/-- What is returned is left by some rounds, each of which had too much. -/
theorem modulo_some {rounds : Nat} (h : modulo y rounds x = some r) :
    ∃ n : Nat, r = x - n * y ∧ r ≤ y ∧ ∀ i < n, y < x - i * y := by
  induction rounds generalizing x with
  | zero => cases h
  | succ rounds ih =>
    rw [modulo] at h
    by_cases hgo : y < x
    · rw [if_pos hgo] at h
      obtain ⟨n, hr, hle, hbefore⟩ := ih h
      refine ⟨n + 1, hr.trans (sub_shift x y n), hle, fun i hi => ?_⟩
      cases i with
      | zero => simpa using hgo
      | succ i =>
        rw [← sub_shift]
        exact hbefore i (Nat.lt_of_succ_lt_succ hi)
    · rw [if_neg hgo] at h
      refine ⟨0, ?_, ?_, nofun⟩
      · simpa using (Option.some.inj h).symm
      · rw [← Option.some.inj h]
        exact le_of_not_gt hgo

theorem modulo_of_rounds (n : Nat) (hle : x - n * y ≤ y) (hbefore : ∀ i < n, y < x - i * y) :
    modulo y (n + 1) x = some (x - n * y) := by
  induction n generalizing x with
  | zero =>
    have hstop : ¬ y < x := by simpa using hle
    rw [modulo, if_neg hstop]
    simp
  | succ n ih =>
    have hgo : y < x := by simpa using hbefore 0 n.succ_pos
    rw [modulo, if_pos hgo, ih, sub_shift]
    · rw [sub_shift]
      exact hle
    · intro i hi
      rw [sub_shift]
      exact hbefore (i + 1) (Nat.succ_lt_succ hi)

/-- Two positive numbers leave something that is not 0, but may be the divisor itself. -/
theorem returns_of_pos (hy : 0 < y) (hx : 0 < x) :
    ∃ n : Nat, Returns x y (x - n * y) ∧ 0 < x - n * y ∧ x - n * y ≤ y := by
  obtain ⟨m, ⟨hpos, hle⟩, -⟩ := existsUnique_sub_zsmul_mem_Ioc hy x 0
  rw [zsmul_eq_mul] at hpos hle
  have hm : 0 ≤ m := by
    by_contra hneg
    have hcast : (m : ℚ) ≤ -1 := by exact_mod_cast Int.le_sub_one_of_lt (Int.not_le.mp hneg)
    nlinarith
  obtain ⟨n, rfl⟩ := Int.eq_ofNat_of_zero_le hm
  rw [Int.cast_natCast] at hpos hle
  rw [zero_add] at hle
  refine ⟨n, ⟨n + 1, modulo_of_rounds n hle fun i hi => ?_⟩, hpos, hle⟩
  have hcast : (i : ℚ) + 1 ≤ n := by exact_mod_cast hi
  nlinarith

theorem returns_of_le (h : x ≤ y) : Returns x y x := by
  refine ⟨1, ?_⟩
  rw [modulo, if_neg (not_lt_of_ge h)]

/-- A modulo that is not above the divisor tells the signs. -/
theorem IsModulo.range (h : IsModulo x y r) (hle : r ≤ y) : 0 < y ∧ 0 ≤ r ∧ r < y := by
  have hbound := h.bound
  have hy : 0 < y := by
    by_contra hy
    rw [abs_of_nonpos (not_lt.mp hy), abs_of_nonpos (le_trans hle (not_lt.mp hy))] at hbound
    linarith
  have hnonneg : 0 ≤ r := by
    rcases h.sign with hzero | hsign
    · exact le_of_eq hzero.symm
    · exact le_of_lt ((mul_pos_iff_of_pos_right hy).mp hsign)
  rw [abs_of_nonneg hnonneg, abs_of_pos hy] at hbound
  exact ⟨hy, hnonneg, hbound⟩

theorem isModulo_rounds {n : Nat} (hpos : 0 < x - n * y) (hlt : x - n * y < y) : IsModulo x y (x - n * y) := by
  have hy : 0 < y := lt_trans hpos hlt
  refine ⟨⟨n, ?_⟩, .inr (mul_pos hpos hy), ?_⟩
  · rw [Int.cast_natCast]
    ring
  · rwa [abs_of_pos hpos, abs_of_pos hy]

theorem isModulo_zero (hy : 0 < y) : IsModulo 0 y 0 := by
  refine ⟨⟨0, by ring⟩, .inl rfl, ?_⟩
  rwa [abs_zero, abs_of_pos hy]

end Loop

theorem modulo_iff (x y : ℚ) :
    (∃ r, Returns x y r ∧ IsModulo x y r) ↔ 0 < y ∧ 0 ≤ x ∧ ∀ n : Nat, x ≠ (n + 1) * y := by
  constructor
  · rintro ⟨r, ⟨rounds, h⟩, hmodulo⟩
    obtain ⟨n, hr, hle, hbefore⟩ := modulo_some h
    obtain ⟨hy, hnonneg, hless⟩ := hmodulo.range hle
    refine ⟨hy, ?_, fun k hk => ?_⟩
    · have hn : (0 : ℚ) ≤ n := Nat.cast_nonneg n
      nlinarith
    · rcases Nat.lt_or_ge k n with hlt | hge
      · have htoo := hbefore k hlt
        rw [hk] at htoo
        linarith
      · have hcast : (n : ℚ) ≤ k := Nat.cast_le.mpr hge
        rw [hk] at hr
        nlinarith
  · rintro ⟨hy, hx, hmultiple⟩
    rcases eq_or_lt_of_le hx with rfl | hpos
    · exact ⟨0, returns_of_le (le_of_lt hy), isModulo_zero hy⟩
    · obtain ⟨n, hreturns, hr, hle⟩ := returns_of_pos hy hpos
      refine ⟨_, hreturns, isModulo_rounds hr (lt_of_le_of_ne hle fun heq => ?_)⟩
      apply hmultiple n
      linarith

example : modulo 2 2 4 = some 2 := by decide +kernel

/-- An exact multiple leaves the divisor, a negative number is left as it is, and a negative divisor is taken away
without end. -/
theorem modulo_astray :
    (¬ ∃ r, Returns 4 2 r ∧ IsModulo 4 2 r) ∧ (¬ ∃ r, Returns (-1) 2 r ∧ IsModulo (-1) 2 r) ∧
      ¬ ∃ r, Returns 1 (-1) r := by
  refine ⟨?_, ?_, ?_⟩
  · rintro ⟨r, ⟨rounds, h⟩, hmodulo⟩
    obtain ⟨n, hr, hle, hbefore⟩ := modulo_some h
    have hn : n < 2 := by
      by_contra hn
      have htoo := hbefore 1 (by omega)
      norm_num at htoo
    have hcast : (n : ℚ) ≤ 1 := by exact_mod_cast Nat.le_of_lt_succ hn
    have hbound := lt_of_le_of_lt (le_abs_self r) hmodulo.bound
    rw [abs_of_pos (by norm_num)] at hbound
    linarith
  · rintro ⟨r, ⟨rounds, h⟩, hmodulo⟩
    obtain ⟨n, hr, -, -⟩ := modulo_some h
    have hn : (0 : ℚ) ≤ n := Nat.cast_nonneg n
    rcases hmodulo.sign with hzero | hsign
    · linarith
    · linarith
  · rintro ⟨r, rounds, h⟩
    obtain ⟨n, hr, hle, -⟩ := modulo_some h
    have hn : (0 : ℚ) ≤ n := Nat.cast_nonneg n
    linarith

end PicoRuby.NumericExt
