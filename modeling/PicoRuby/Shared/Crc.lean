import Mathlib.Algebra.Field.ZMod
import Mathlib.Algebra.Polynomial.Div
import Mathlib.Algebra.Polynomial.OfFn
import Mathlib.Tactic.LinearCombination

/-!
# Cyclic redundancy checks

A register of so many bits is read as a polynomial over GF(2), its lowest bit being the coefficient of the highest
degree. A shift of the register multiplies the polynomial by `X` and reduces it by the generator, so that a register
that has taken a message holds the remainder of a polynomial division.
-/

namespace PicoRuby.Shared

open Polynomial

set_option autoImplicit false

namespace Crc

def bit (b : Bool) : ZMod 2 := if b then 1 else 0

/-- The polynomial with the coefficients `f 0` to `f (w - 1)`. -/
noncomputable def poly (w : Nat) (f : Nat → Bool) : (ZMod 2)[X] := ofFn w fun i => bit (f i)

variable {w : Nat}

/-- The polynomial of a generator as it is written, without its leading term. -/
noncomputable def plain (r : BitVec w) : (ZMod 2)[X] := poly w r.getLsbD

noncomputable def reflected (r : BitVec w) : (ZMod 2)[X] := poly w r.getMsbD

noncomputable def generator (p : BitVec w) : (ZMod 2)[X] := X ^ w + plain p

/-- The first bit of a message is the lowest one of its first byte, and has the highest degree. -/
noncomputable def message : List (BitVec 8) → (ZMod 2)[X]
  | [] => 0
  | b :: l => reflected b * X ^ (8 * l.length) + message l

/-- The register whose polynomial has these coefficients. -/
def ofPoly (w : Nat) (f : (ZMod 2)[X]) : BitVec w :=
  (BitVec.ofBoolListBE ((List.range w).map fun i => decide (f.coeff i = 1))).setWidth w

/-- The check of a message: all bits of the initial value and of the final mask are ones. -/
noncomputable def check (p : BitVec w) (l : List (BitVec 8)) : BitVec w :=
  ~~~ ofPoly w ((X ^ w * message l + X ^ (8 * l.length) * poly w fun _ => true) %ₘ generator p)

/-! ## Registers as polynomials -/

@[simp] theorem bit_xor (a b : Bool) : bit (a ^^ b) = bit a + bit b := by
  cases a <;> cases b <;> decide

theorem poly_coeff (w : Nat) (f : Nat → Bool) (i : Nat) : (poly w f).coeff i = if i < w then bit (f i) else 0 := by
  unfold poly
  split
  · rename_i h
    exact ofFn_coeff_eq_val_of_lt _ h
  · rename_i h
    exact ofFn_coeff_eq_zero_of_ge _ (Nat.le_of_not_lt h)

theorem poly_degree_lt (w : Nat) (f : Nat → Bool) : (poly w f).degree < w := ofFn_degree_lt _

theorem reflected_coeff (r : BitVec w) (i : Nat) : (reflected r).coeff i = bit (r.getMsbD i) := by
  rw [reflected, poly_coeff]
  split
  · rfl
  · rename_i h
    rw [BitVec.getMsbD_of_ge _ _ (Nat.le_of_not_lt h)]
    rfl

theorem reflected_xor (r s : BitVec w) : reflected (r ^^^ s) = reflected r + reflected s := by
  ext i
  rw [coeff_add, reflected_coeff, reflected_coeff, reflected_coeff, BitVec.getMsbD_xor, bit_xor]

theorem reflected_allOnes : reflected (BitVec.allOnes w) = poly w fun _ => true := by
  ext i
  rw [reflected_coeff, poly_coeff, BitVec.getMsbD_eq_getLsbD, BitVec.getLsbD_allOnes]
  by_cases h : i < w
  · have hlast : w - 1 - i < w := by omega
    simp [h, hlast]
  · simp [h, bit]

theorem plain_reverse (r : BitVec w) : plain r = reflected r.reverse := by
  ext i
  rw [plain, reflected, poly_coeff, poly_coeff, BitVec.getMsbD_reverse]

theorem ofPoly_reflected (r : BitVec w) : ofPoly w (reflected r) = r := by
  have hbit : ∀ b : Bool, decide (bit b = 1) = b := by decide
  apply BitVec.eq_of_getMsbD_eq
  intro i hi
  have hindex : i + w - w = i := Nat.add_sub_cancel i w
  rw [ofPoly, BitVec.getMsbD_setWidth, BitVec.getMsbD_ofBoolListBE]
  simp [hi, hindex, hbit, reflected_coeff]

/-- A byte takes the upper end of a wider register's polynomial. -/
theorem reflected_setWidth (h : 8 ≤ w) (b : BitVec 8) : reflected (b.setWidth w) = X ^ (w - 8) * reflected b := by
  ext i
  rw [reflected_coeff, coeff_X_pow_mul', BitVec.getMsbD_setWidth]
  by_cases hi : w - 8 ≤ i
  · have hindex : i + 8 - w = i - (w - 8) := by omega
    rw [if_pos hi, reflected_coeff, hindex, decide_eq_true hi, Bool.true_and]
  · rw [if_neg hi, decide_eq_false hi, Bool.false_and]
    rfl

/-! ## The generator -/

theorem generator_monic (p : BitVec w) : (generator p).Monic := monic_X_pow_add (poly_degree_lt w _)

theorem generator_degree (p : BitVec w) : (generator p).degree = w := by
  have hdegree : (X ^ w : (ZMod 2)[X]).degree = w := degree_X_pow w
  rw [generator, degree_add_eq_left_of_degree_lt, hdegree]
  rw [hdegree]
  exact poly_degree_lt w _

/-- A polynomial that fits into the register is the remainder of whatever it is congruent to. -/
theorem eq_modByMonic (p r : BitVec w) {f : (ZMod 2)[X]} (h : generator p ∣ reflected r - f) :
    reflected r = f %ₘ generator p := by
  obtain ⟨q, hq⟩ := h
  apply Eq.symm
  refine (div_modByMonic_unique (-q) _ (generator_monic p) ⟨?_, ?_⟩).2
  · linear_combination hq
  · rw [generator_degree]
    exact poly_degree_lt w _

/-! ## Shifting -/

/-- One round: the lowest bit falls out, and the reflected generator is added when it was set. -/
def shift (q r : BitVec w) : BitVec w := if r.getLsbD 0 then r >>> 1 ^^^ q else r >>> 1

/-- A byte is added to the lowest bits and shifted out. -/
def step (q r : BitVec w) (b : BitVec 8) : BitVec w := (shift q)^[8] (r ^^^ b.setWidth w)

theorem X_mul_reflected (hw : 0 < w) (r : BitVec w) :
    X * reflected r = reflected (r >>> 1) + C (bit (r.getLsbD 0)) * X ^ w := by
  ext i
  rw [coeff_add, coeff_C_mul, coeff_X_pow, reflected_coeff, BitVec.getMsbD_ushiftRight]
  cases i with
  | zero => simp [hw.ne, bit]
  | succ i =>
    rw [coeff_X_mul, reflected_coeff, Nat.add_sub_cancel]
    rcases Nat.lt_trichotomy (i + 1) w with hi | hi | hi
    · simp [hi, hi.ne]
    · subst hi
      simp [BitVec.getMsbD_eq_getLsbD, bit]
    · have hge : w ≤ i := by omega
      simp [hi.ne', Nat.not_lt.mpr hi.le, BitVec.getMsbD_of_ge _ _ hge, bit]

variable {p q r : BitVec w}

/-- A shift is a multiplication by `X`. -/
theorem shift_dvd (hw : 0 < w) (hq : q = p.reverse) (r : BitVec w) :
    generator p ∣ reflected (shift q r) - X * reflected r := by
  have hmul := X_mul_reflected hw r
  unfold shift
  split
  · rename_i hbit
    rw [hbit] at hmul
    refine ⟨-1, ?_⟩
    have hone : C (bit true) = (1 : (ZMod 2)[X]) := C_1
    rw [hone] at hmul
    have htwo : (2 : (ZMod 2)[X]) = 0 := CharTwo.two_eq_zero
    rw [reflected_xor, generator, plain_reverse, hq]
    linear_combination (-1 : (ZMod 2)[X]) * hmul + reflected p.reverse * htwo
  · rename_i hbit
    rw [Bool.not_eq_true] at hbit
    rw [hbit] at hmul
    have hzero : C (bit false) = (0 : (ZMod 2)[X]) := C_0
    rw [hzero, zero_mul, add_zero] at hmul
    rw [hmul, sub_self]
    exact dvd_zero _

theorem shifts_dvd (hw : 0 < w) (hq : q = p.reverse) (n : Nat) (r : BitVec w) :
    generator p ∣ reflected ((shift q)^[n] r) - X ^ n * reflected r := by
  induction n with
  | zero => simp
  | succ n ih =>
    have hlast := shift_dvd hw hq ((shift q)^[n] r)
    have hsum := dvd_add hlast (ih.mul_left X)
    rw [Function.iterate_succ_apply']
    refine hsum.trans (dvd_of_eq ?_)
    ring

theorem step_dvd (hw : 8 ≤ w) (hq : q = p.reverse) (r : BitVec w) (b : BitVec 8) :
    generator p ∣ reflected (step q r b) - (X ^ 8 * reflected r + X ^ w * reflected b) := by
  have hshifts := shifts_dvd (by omega) hq 8 (r ^^^ b.setWidth w)
  have hpow : (X ^ w : (ZMod 2)[X]) = X ^ 8 * X ^ (w - 8) := by
    rw [← pow_add]
    congr 1
    omega
  rw [reflected_xor, reflected_setWidth hw] at hshifts
  refine hshifts.trans (dvd_of_eq ?_)
  rw [hpow, step]
  ring

/-- Taking a message multiplies what the register held by its length in bits, and adds the message. -/
theorem foldl_step_dvd (hw : 8 ≤ w) (hq : q = p.reverse) (l : List (BitVec 8)) (r : BitVec w) :
    generator p ∣ reflected (l.foldl (step q) r) - (X ^ w * message l + X ^ (8 * l.length) * reflected r) := by
  induction l generalizing r with
  | nil => simp [message]
  | cons b l ih =>
    have hstep := (step_dvd hw hq r b).mul_left (X ^ (8 * l.length))
    have hsum := dvd_add (ih (step q r b)) hstep
    refine hsum.trans (dvd_of_eq ?_)
    rw [List.foldl_cons, message, List.length_cons, Nat.mul_succ, pow_add]
    ring

/-- The complemented register, started with ones, is the check. -/
theorem not_foldl_step (hw : 8 ≤ w) (hq : q = p.reverse) (l : List (BitVec 8)) :
    ~~~ l.foldl (step q) (BitVec.allOnes w) = check p l := by
  have hdvd := foldl_step_dvd hw hq l (BitVec.allOnes w)
  rw [reflected_allOnes] at hdvd
  rw [check, ← eq_modByMonic p _ hdvd, ofPoly_reflected]

end Crc

end PicoRuby.Shared
