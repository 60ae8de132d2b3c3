import Mathlib.Algebra.Order.Group.Abs
import PicoRuby.Psg.SampleArithmetic

/-!
# The triangle timbre

The phase has to be folded at its half. The mask `idx >> 12` has one bit only, so that the fold changes
the lowest bit of `idx` and nothing else, and that bit is shifted out again: the triangle is the sawtooth.
-/

namespace PicoRuby.Psg

set_option autoImplicit false

namespace Track

/-- The track at another phase. -/
def atPhase (t : Track) (p : UInt32) : Track := { t with tonePhase := p }

/-- No vibrato, and `PSG_TIMBRE_TRIANGLE`. -/
structure PlainTriangle (t : Track) : Prop where
  timbre : t.timbre = 1
  lfoDepth : t.lfoDepth = 0

/-- The next sample is at most one step of the slope away. -/
def Smooth (t : Track) : Prop :=
  |(t.updatePhase.toneAmp.toNat : Int) - t.toneAmp.toNat| ≤ (t.toneInc.toNat / 2 ^ 19 : Nat) + 1

/-- The wave is a triangle, seen from the phase of the track. -/
structure TriangleAt (t : Track) : Prop where
  bottom : (t.atPhase 0).toneAmp.toNat = 0 ∧ (t.atPhase 0xFFFFFFFF).toneAmp.toNat = 0
  top : (t.atPhase 0x7FFFFFFF).toneAmp.toNat = 4095 ∧ (t.atPhase 0x80000000).toneAmp.toNat = 4095
  rises (p : UInt32) (hle : t.tonePhase ≤ p) (hhalf : p.toNat < 2 ^ 31) :
    t.toneAmp.toNat ≤ (t.atPhase p).toneAmp.toNat
  falls (p : UInt32) (hhalf : 2 ^ 31 ≤ t.tonePhase.toNat) (hle : t.tonePhase ≤ p) :
    (t.atPhase p).toneAmp.toNat ≤ t.toneAmp.toNat
  mirrored : (t.atPhase (0xFFFFFFFF - t.tonePhase)).toneAmp = t.toneAmp
  smooth : t.Smooth

variable {t : Track}

@[simp] theorem atPhase_tonePhase (t : Track) (p : UInt32) : (t.atPhase p).tonePhase = p := rfl

@[simp] theorem atPhase_timbre (t : Track) (p : UInt32) : (t.atPhase p).timbre = t.timbre := rfl

/-! ## The fold -/

/-- A number of 13 bits that is folded with its highest bit as the mask changes in its lowest bit only. -/
theorem fold_shiftRight {n : Nat} (h : n < 2 ^ 13) :
    ((n ^^^ n >>> 12) &&& 0x1FFF) >>> 1 = n >>> 1 := by
  have hmask : (0x1FFF : Nat) = 2 ^ 13 - 1 := rfl
  rw [hmask]
  apply Nat.eq_of_testBit_eq
  intro i
  have hlow (k : Nat) (hk : 13 ≤ k) : n.testBit k = false :=
    Nat.testBit_lt_two_pow (h.trans_le (Nat.pow_le_pow_right (by omega) hk))
  have hflip : n.testBit (12 + (1 + i)) = false := hlow _ (by omega)
  simp only [Nat.testBit_shiftRight, Nat.testBit_and, Nat.testBit_xor, Nat.testBit_two_pow_sub_one,
    hflip, Bool.xor_false]
  by_cases hi : 1 + i < 13
  · simp [hi]
  · simp [hlow (1 + i) (by omega)]

/-- The triangle is the sawtooth. -/
theorem toneAmp_triangle (h : t.timbre = 1) : t.toneAmp.toNat = t.tonePhase.toNat / 2 ^ 20 := by
  have hphase : t.tonePhase.toNat < 2 ^ 32 := t.tonePhase.toNat_lt
  have hidx : t.tonePhase.toNat >>> 19 < 2 ^ 13 := by
    rw [Nat.shiftRight_eq_div_pow]
    omega
  have hfold : t.toneAmp.toNat =
      ((t.tonePhase.toNat >>> 19 ^^^ (t.tonePhase.toNat >>> 19) >>> 12) &&& 0x1FFF) >>> 1 := by
    unfold toneAmp
    rw [h]
    rfl
  rw [hfold, fold_shiftRight hidx, ← Nat.shiftRight_add, Nat.shiftRight_eq_div_pow]

theorem atPhase_toneAmp (h : t.timbre = 1) (p : UInt32) :
    (t.atPhase p).toneAmp.toNat = p.toNat / 2 ^ 20 :=
  toneAmp_triangle (t := t.atPhase p) h

theorem phaseInc_plain (h : t.lfoDepth = 0) : t.phaseInc = t.toneInc := by
  have hzero : (0 : UInt8).toInt8.toInt = 0 := by decide
  unfold phaseInc
  rw [h, hzero]
  apply UInt32.toNat.inj
  simp [UInt32.ofInt]

theorem next_toneAmp (h : t.PlainTriangle) :
    t.updatePhase.toneAmp.toNat = (t.tonePhase + t.toneInc).toNat / 2 ^ 20 := by
  have hnext : t.updatePhase.timbre = 1 := by
    unfold updatePhase
    split
    · exact h.timbre
    · exact h.timbre
  rw [toneAmp_triangle hnext, updatePhase_tonePhase, phaseInc_plain h.lfoDepth]

/-! ## What is left of the triangle -/

/-- The step is small as long as the phase does not wrap; where it does, from an increment of about a third
of the period on. -/
theorem smooth_iff (h : t.PlainTriangle) (hinc : t.toneInc.toNat < 2 ^ 31) :
    t.Smooth ↔ t.tonePhase.toNat + t.toneInc.toNat < 2 ^ 32 ∨
      4095 ≤ t.toneInc.toNat / 2 ^ 19 + (t.tonePhase.toNat % 2 ^ 20 + t.toneInc.toNat) / 2 ^ 20 := by
  have hphase : t.tonePhase.toNat < 2 ^ 32 := t.tonePhase.toNat_lt
  have hsum : (t.tonePhase + t.toneInc).toNat = (t.tonePhase.toNat + t.toneInc.toNat) % 2 ^ 32 :=
    UInt32.toNat_add _ _
  unfold Smooth
  rw [next_toneAmp h, toneAmp_triangle h.timbre, hsum, abs_le]
  by_cases hwrap : t.tonePhase.toNat + t.toneInc.toNat < 2 ^ 32
  · rw [Nat.mod_eq_of_lt hwrap]
    omega
  · have hrest : (t.tonePhase.toNat + t.toneInc.toNat) % 2 ^ 32 =
        t.tonePhase.toNat + t.toneInc.toNat - 2 ^ 32 := by omega
    rw [hrest]
    omega

/-- Below the half of the period the amplitude rises, but to 2047 only. -/
theorem rising_half (h : t.timbre = 1) {p q : UInt32} (hle : p ≤ q) (hhalf : q.toNat < 2 ^ 31) :
    (t.atPhase p).toneAmp.toNat ≤ (t.atPhase q).toneAmp.toNat ∧ (t.atPhase q).toneAmp.toNat ≤ 2047 := by
  have hle : p.toNat ≤ q.toNat := hle
  rw [atPhase_toneAmp h, atPhase_toneAmp h]
  omega

/-- From the half of the period on it rises further. -/
theorem falls_iff (h : t.timbre = 1) {p q : UInt32} (hle : p ≤ q) :
    (t.atPhase q).toneAmp.toNat ≤ (t.atPhase p).toneAmp.toNat ↔ p.toNat / 2 ^ 20 = q.toNat / 2 ^ 20 := by
  have hle : p.toNat ≤ q.toNat := hle
  rw [atPhase_toneAmp h, atPhase_toneAmp h]
  omega

/-- No phase has the amplitude of its mirror image. -/
theorem not_mirrored (h : t.timbre = 1) : (t.atPhase (0xFFFFFFFF - t.tonePhase)).toneAmp ≠ t.toneAmp := by
  have hphase : t.tonePhase.toNat < 2 ^ 32 := t.tonePhase.toNat_lt
  have hle : t.tonePhase ≤ 0xFFFFFFFF := Nat.le_of_lt_succ hphase
  have hmirror : (0xFFFFFFFF - t.tonePhase).toNat = 2 ^ 32 - 1 - t.tonePhase.toNat :=
    UInt32.toNat_sub_of_le _ _ hle
  intro heq
  have hamp := congrArg UInt32.toNat heq
  rw [atPhase_toneAmp h, toneAmp_triangle h, hmirror] at hamp
  omega

/-- **The triangle timbre is a triangle at no phase.** -/
theorem not_triangleAt (h : t.PlainTriangle) : ¬ t.TriangleAt := by
  intro htriangle
  exact not_mirrored h.timbre htriangle.mirrored

/-- A track of `resetPsg` with the triangle timbre, before the wrap of its phase. -/
def wrappingTriangle : Track := { resetPsg.track (Fin.last 2) with timbre := 1, toneInc := 1, tonePhase := 0xFFFFFFFF }

theorem not_triangleAt_wrapping : ¬ wrappingTriangle.TriangleAt := not_triangleAt ⟨rfl, rfl⟩

/-- The highest amplitude is followed by the lowest. -/
theorem triangle_jumps : wrappingTriangle.toneAmp = 4095 ∧ wrappingTriangle.updatePhase.toneAmp = 0 ∧
    ¬ wrappingTriangle.TriangleAt := by
  have hlast : wrappingTriangle.toneAmp = 4095 := by decide
  have hnext : wrappingTriangle.updatePhase.toneAmp = 0 := by decide +kernel
  refine ⟨hlast, hnext, fun h => ?_⟩
  have hsmooth := h.smooth
  unfold Smooth at hsmooth
  rw [hlast, hnext] at hsmooth
  exact absurd hsmooth (by decide)

end Track

end PicoRuby.Psg
