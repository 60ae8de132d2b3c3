import Mathlib.Data.List.TakeDrop
import Mathlib.Data.Nat.Bitwise
import Mathlib.Tactic.Ring
import Mathlib.Algebra.Order.Ring.Nat

/-!
# Bits of numbers

A number of so many bits as the list of them, the highest first, and such a list cut into octets.
-/

namespace PicoRuby.Shared

set_option autoImplicit false

/-- The lowest `width` bits of a number. -/
def toBits : Nat → Nat → List Bool
  | 0, _ => []
  | width + 1, n => n.testBit width :: toBits width n

def ofBits (l : List Bool) : Nat := l.foldl (fun n b => 2 * n + b.toNat) 0

/-- The whole octets; what is left over is dropped. -/
def octets (l : List Bool) : List UInt8 :=
  (List.range (l.length / 8)).map fun k => UInt8.ofNat (ofBits ((l.drop (8 * k)).take 8))

section Bits
variable {l m : List Bool} {width n : Nat}

@[simp] theorem toBits_length (width n : Nat) : (toBits width n).length = width := by
  induction width with
  | zero => rfl
  | succ width ih => exact congrArg Nat.succ ih

theorem foldl_bits (l : List Bool) (n : Nat) :
    l.foldl (fun n b => 2 * n + b.toNat) n = n * 2 ^ l.length + ofBits l := by
  induction l generalizing n with
  | nil => simp [ofBits]
  | cons b l ih =>
    unfold ofBits
    rw [List.foldl_cons, List.foldl_cons, ih, ih (2 * 0 + b.toNat), List.length_cons, Nat.pow_succ]
    ring

theorem ofBits_append : ofBits (l ++ m) = ofBits l * 2 ^ m.length + ofBits m := by
  rw [ofBits, List.foldl_append]
  exact foldl_bits m (ofBits l)

theorem ofBits_cons (b : Bool) (l : List Bool) : ofBits (b :: l) = b.toNat * 2 ^ l.length + ofBits l := by
  have hone : ofBits [b] = b.toNat := by simp [ofBits]
  have happend := @ofBits_append [b] l
  rwa [hone] at happend

theorem ofBits_lt (l : List Bool) : ofBits l < 2 ^ l.length := by
  induction l with
  | nil => exact Nat.one_pos
  | cons b l ih =>
    rw [ofBits_cons, List.length_cons, Nat.pow_succ]
    cases b with
    | false =>
      rw [Bool.toNat_false, Nat.zero_mul]
      omega
    | true =>
      rw [Bool.toNat_true, Nat.one_mul]
      omega

theorem ofBits_toBits (width n : Nat) : ofBits (toBits width n) = n % 2 ^ width := by
  induction width with
  | zero => rw [Nat.pow_zero, Nat.mod_one, toBits, ofBits, List.foldl_nil]
  | succ width ih =>
    rw [toBits, ofBits_cons, ih, toBits_length, Nat.mod_pow_succ, Nat.toNat_testBit, Nat.add_comm, Nat.mul_comm]

theorem ofBits_take (l : List Bool) (k : Nat) : ofBits (l.take k) = ofBits l / 2 ^ (l.length - k) := by
  have hlt := ofBits_lt (l.drop k)
  rw [List.length_drop] at hlt
  conv_rhs => rw [← List.take_append_drop k l, ofBits_append, List.length_drop]
  rw [List.length_append, List.length_take, List.length_drop]
  have hlength : min k l.length + (l.length - k) - k = l.length - k := by omega
  rw [hlength, Nat.mul_comm, Nat.mul_add_div (Nat.two_pow_pos _), Nat.div_eq_of_lt hlt, Nat.add_zero]

theorem ofBits_drop (l : List Bool) (k : Nat) : ofBits (l.drop k) = ofBits l % 2 ^ (l.length - k) := by
  have hlt := ofBits_lt (l.drop k)
  rw [List.length_drop] at hlt
  conv_rhs => rw [← List.take_append_drop k l, ofBits_append, List.length_drop]
  rw [List.length_append, List.length_take, List.length_drop]
  have hlength : min k l.length + (l.length - k) - k = l.length - k := by omega
  rw [hlength, Nat.mul_comm, Nat.mul_add_mod, Nat.mod_eq_of_lt hlt]

/-! ## Octets -/

/-- Each octet is the number without the bits behind it. -/
theorem octets_eq (l : List Bool) : octets l =
    (List.range (l.length / 8)).map fun k => UInt8.ofNat (ofBits l / 2 ^ (l.length - 8 * (k + 1))) := by
  apply List.map_congr_left
  intro k hk
  have hk := List.mem_range.mp hk
  have hlength : l.length - 8 * k - 8 = l.length - 8 * (k + 1) := by omega
  have hsplit : 2 ^ (l.length - 8 * k) = 2 ^ (l.length - 8 * (k + 1)) * 256 := by
    have hsum : l.length - 8 * k = l.length - 8 * (k + 1) + 8 := by omega
    rw [hsum, Nat.pow_add]
  rw [ofBits_take, ofBits_drop, List.length_drop, hlength, hsplit, Nat.mod_mul_right_div_self]
  apply UInt8.toNat_inj.mp
  rw [UInt8.toNat_ofNat', UInt8.toNat_ofNat', Nat.mod_mod]

theorem octets_append (h : 8 ∣ l.length) (m : List Bool) : octets (l ++ m) = octets l ++ octets m := by
  obtain ⟨n, hn⟩ := h
  have hdiv : (l ++ m).length / 8 = n + m.length / 8 := by
    rw [List.length_append, hn, Nat.mul_add_div (by decide)]
  unfold octets
  rw [hdiv, List.range_add, List.map_append, List.map_map, hn, Nat.mul_div_cancel_left _ (by decide)]
  congr 1
  · apply List.map_congr_left
    intro k hk
    have hk := List.mem_range.mp hk
    rw [List.drop_append_of_le_length (by omega), List.take_append_of_le_length (by rw [List.length_drop]; omega)]
  · apply List.map_congr_left
    intro k _
    rw [Function.comp_apply, Nat.mul_add, ← hn, List.drop_length_add_append]

end Bits

end PicoRuby.Shared

/-!
# Little endian numbers

A number in so many bytes, the lowest first.
-/

namespace PicoRuby.Shared

set_option autoImplicit false

/-- The lowest `width` bytes of a number. -/
def toLittleEndian : Nat → Nat → List UInt8
  | 0, _ => []
  | width + 1, n => UInt8.ofNat n :: toLittleEndian width (n / 256)

def ofLittleEndian : List UInt8 → Nat
  | [] => 0
  | b :: bytes => b.toNat + 256 * ofLittleEndian bytes

section LittleEndian
variable {n width : Nat} {bytes : List UInt8}

@[simp] theorem toLittleEndian_length : (toLittleEndian width n).length = width := by
  induction width generalizing n with
  | zero => rfl
  | succ width ih => exact congrArg Nat.succ ih

theorem ofLittleEndian_toLittleEndian : ofLittleEndian (toLittleEndian width n) = n % 256 ^ width := by
  induction width generalizing n with
  | zero => exact (Nat.mod_one n).symm
  | succ width ih =>
    change (UInt8.ofNat n).toNat + 256 * ofLittleEndian (toLittleEndian width (n / 256)) = _
    have hlow : (UInt8.ofNat n).toNat = n % 256 := UInt8.toNat_ofNat'
    have hpow : 256 ^ (width + 1) = 256 * 256 ^ width := Nat.pow_succ'
    rw [ih, hlow, hpow, Nat.mod_mul]

theorem ofLittleEndian_lt : ofLittleEndian bytes < 256 ^ bytes.length := by
  induction bytes with
  | nil => exact Nat.one_pos
  | cons b bytes ih =>
    have hb : b.toNat < 256 := b.toNat_lt
    change b.toNat + 256 * ofLittleEndian bytes < 256 ^ (bytes.length + 1)
    rw [Nat.pow_succ']
    omega

theorem toLittleEndian_ofLittleEndian (bytes : List UInt8) :
    toLittleEndian bytes.length (ofLittleEndian bytes) = bytes := by
  induction bytes with
  | nil => rfl
  | cons b bytes ih =>
    have hb : b.toNat < 256 := b.toNat_lt
    have hlow : UInt8.ofNat (b.toNat + 256 * ofLittleEndian bytes) = b := by
      apply UInt8.toNat.inj
      rw [UInt8.toNat_ofNat']
      omega
    have hhigh : (b.toNat + 256 * ofLittleEndian bytes) / 256 = ofLittleEndian bytes := by omega
    rw [List.length_cons, ofLittleEndian, toLittleEndian, hlow, hhigh, ih]

/-- As many bytes with the same number are the same bytes. -/
theorem ofLittleEndian_inj {bytes' : List UInt8} (hlength : bytes.length = bytes'.length)
    (h : ofLittleEndian bytes = ofLittleEndian bytes') : bytes = bytes' := by
  rw [← toLittleEndian_ofLittleEndian bytes, ← toLittleEndian_ofLittleEndian bytes', hlength, h]

/-- Two bytes put together with a shift. -/
theorem or_shiftLeft_eight (a b : UInt8) : a.toNat ||| b.toNat <<< 8 = a.toNat + 256 * b.toNat := by
  have ha : a.toNat < 2 ^ 8 := a.toNat_lt
  rw [Nat.lor_comm, ← Nat.shiftLeft_add_eq_or_of_lt ha, Nat.shiftLeft_eq]
  omega

end LittleEndian

end PicoRuby.Shared
