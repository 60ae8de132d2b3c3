import PicoRuby.Codec.Base64
import PicoRuby.Shared.Crc

/-!
# picoruby-crc

The register of `generate_crc32` is that of a cyclic redundancy check, complemented on the way in and on the way out.
-/

namespace PicoRuby.Codec

open Shared

set_option autoImplicit false

/-- One round of the inner loop. -/
def crcShift (crcValue : UInt32) : UInt32 :=
  if crcValue &&& 1 ≠ 0 then (crcValue >>> 1) ^^^ 0xEDB88320 else crcValue >>> 1

def crcByte (crcValue : UInt32) (b : UInt8) : UInt32 := crcShift^[8] (crcValue ^^^ b.toUInt32)

def generateCrc32 (str : Bytes) (crc : UInt32) : UInt32 := ~~~ str.foldl crcByte (~~~ crc)

/-- `CRC.crc32`; the argument is cast to `uint32_t`. -/
def crc32 (string : Option Bytes) (crc : Int) : Int :=
  match string with
  | none => 0
  | some s => (generateCrc32 s (UInt32.ofBitVec (BitVec.ofInt 32 crc))).toNat

/-- The check of CRC-32. -/
noncomputable def standardCrc32 (str : Bytes) : UInt32 :=
  UInt32.ofBitVec (Crc.check 0x04C11DB7#32 (str.map UInt8.toBitVec))

/-! ## The register -/

theorem crcShift_toBitVec (v : UInt32) : (crcShift v).toBitVec = Crc.shift 0xEDB88320#32 v.toBitVec := by
  have hbit : v &&& 1 ≠ 0 ↔ v.toBitVec.getLsbD 0 = true := by
    have hzero : v &&& 1 = 0 ↔ v.toNat % 2 = 0 := by
      rw [← UInt32.toNat_inj, UInt32.toNat_and]
      have hone : (1 : UInt32).toNat = 2 ^ 1 - 1 := rfl
      rw [hone, Nat.and_two_pow_sub_one_eq_mod]
      rfl
    rw [Ne, hzero, BitVec.getLsbD, Nat.testBit_zero, UInt32.toNat_toBitVec, decide_eq_true_iff]
    omega
  unfold crcShift Crc.shift
  by_cases h : v &&& 1 ≠ 0
  · rw [if_pos h, if_pos (hbit.mp h)]
    rfl
  · rw [if_neg h, if_neg fun hset => h (hbit.mpr hset)]
    rfl

theorem crcByte_toBitVec (v : UInt32) (b : UInt8) :
    (crcByte v b).toBitVec = Crc.step 0xEDB88320#32 v.toBitVec b.toBitVec := by
  have hshifts : ∀ (n : Nat) (v : UInt32),
      (crcShift^[n] v).toBitVec = (Crc.shift 0xEDB88320#32)^[n] v.toBitVec := by
    intro n
    induction n with
    | zero => exact fun v => rfl
    | succ n ih =>
      intro v
      rw [Function.iterate_succ_apply, Function.iterate_succ_apply, ih, crcShift_toBitVec]
  exact hshifts 8 _

theorem foldl_crcByte_toBitVec (str : Bytes) (v : UInt32) : (str.foldl crcByte v).toBitVec =
    (str.map UInt8.toBitVec).foldl (Crc.step 0xEDB88320#32) v.toBitVec := by
  induction str generalizing v with
  | nil => rfl
  | cons b str ih => rw [List.foldl_cons, List.map_cons, List.foldl_cons, ih, crcByte_toBitVec]

/-- The complement that one call ends with is undone by the next one. -/
theorem generateCrc32_append (a b : Bytes) (crc : UInt32) :
    generateCrc32 (a ++ b) crc = generateCrc32 b (generateCrc32 a crc) := by
  unfold generateCrc32
  rw [List.foldl_append, UInt32.not_not]

theorem generateCrc32_zero (a : Bytes) : generateCrc32 a 0 = standardCrc32 a := by
  have hreverse : 0xEDB88320#32 = (0x04C11DB7#32).reverse := by decide +kernel
  have hcheck := Crc.not_foldl_step (by decide) hreverse (a.map UInt8.toBitVec)
  apply UInt32.toBitVec_inj.mp
  rw [generateCrc32, UInt32.toBitVec_not, foldl_crcByte_toBitVec]
  exact hcheck

/-- The checks of two parts are chained, and the check that starts from 0 is the standard one. -/
theorem crc32_incremental (a b : Bytes) (c : UInt32) :
    crc32 (some (a ++ b)) c.toNat = crc32 (some b) (crc32 (some a) c.toNat) ∧
      crc32 (some a) 0 = (standardCrc32 a).toNat := by
  have hcast : ∀ c : UInt32, UInt32.ofBitVec (BitVec.ofInt 32 (c.toNat : Int)) = c := by
    intro c
    apply UInt32.toBitVec_inj.mp
    exact (BitVec.ofInt_natCast 32 c.toNat).trans (BitVec.ofNat_toNat 32 c.toBitVec)
  constructor
  · unfold crc32
    dsimp only
    rw [hcast, hcast, generateCrc32_append]
  · rw [← generateCrc32_zero]
    rfl

end PicoRuby.Codec
