import PicoRuby.Ble.Advertising

/-!
# Short UUIDs

A UUID of 32 bits stands for the one of 128 bits that has it in front of the Bluetooth Base UUID. A packet
carries the 128 bits with the lowest byte first.
-/

namespace PicoRuby.Ble

open Shared

set_option autoImplicit false

/-- The 128 bits of a short UUID, the highest byte first. -/
def longUuid (u : UInt32) : Bytes := (toLittleEndian 4 u.toNat).reverse ++ baseUuid

/-- What `packet_callback` makes of the 16 bytes of a service. -/
def serviceUuid32 (packet : Bytes) : Except Error (Option Nat) :=
  (reverse128 (some packet)).map uuid128ToUuid32

/-- The short UUID comes back, and no other one comes from a packet. -/
structure Recovers (u : UInt32) : Prop where
  short : serviceUuid32 (longUuid u).reverse = .ok (some u.toNat)
  foreign (packet : Bytes) (hlength : packet.length = 16) (h : ∀ u, packet.reverse ≠ longUuid u) :
    serviceUuid32 packet = .ok none

section Recovery
variable {u : UInt32} {packet high : Bytes}

/-- Four bytes put together with shifts. -/
theorem or_shiftLeft_bytes (a b c d : UInt8) :
    a.toNat ||| b.toNat <<< 8 ||| c.toNat <<< 16 ||| d.toNat <<< 24 = ofLittleEndian [a, b, c, d] := by
  have ha : a.toNat < 256 := a.toNat_lt
  have hb : b.toNat < 256 := b.toNat_lt
  have hc : c.toNat < 256 := c.toNat_lt
  have hlow : a.toNat + 256 * b.toNat < 2 ^ 16 := by omega
  have hmid : c.toNat <<< 16 + (a.toNat + 256 * b.toNat) < 2 ^ 24 := by
    rw [Nat.shiftLeft_eq]
    omega
  rw [or_shiftLeft_eight, Nat.lor_comm _ (c.toNat <<< 16), ← Nat.shiftLeft_add_eq_or_of_lt hlow,
    Nat.lor_comm _ (d.toNat <<< 24), ← Nat.shiftLeft_add_eq_or_of_lt hmid]
  simp only [ofLittleEndian, Nat.shiftLeft_eq]
  omega

/-- The four bytes in front of the Base UUID are read with the lowest one first. -/
theorem uuid128ToUuid32_append (h : high.length = 4) :
    uuid128ToUuid32 (high ++ baseUuid) = some (ofLittleEndian high) := by
  match high, h with
  | [a, b, c, d], _ =>
    rw [← or_shiftLeft_bytes]
    rfl

theorem uuid128ToUuid32_foreign (h : ∀ high : Bytes, high.length = 4 → packet ≠ high ++ baseUuid) :
    uuid128ToUuid32 packet = none := by
  apply if_neg
  rintro ⟨hlength, hslice⟩
  apply h (packet.take 4) (by simp [hlength])
  unfold slice at hslice
  rw [if_neg (by omega), List.take_of_length_le (by simp [hlength]), Option.some.injEq] at hslice
  rw [← hslice, List.take_append_drop]

/-- Every four bytes in front of the Base UUID are a short UUID. -/
theorem exists_longUuid (h : high.length = 4) : ∃ u, high ++ baseUuid = longUuid u := by
  have hlength : high.reverse.length = 4 := by rw [List.length_reverse, h]
  have hlt : ofLittleEndian high.reverse < 2 ^ 32 := by
    apply lt_of_lt_of_eq ofLittleEndian_lt
    rw [hlength]
    rfl
  refine ⟨UInt32.ofNat (ofLittleEndian high.reverse), ?_⟩
  unfold longUuid
  rw [UInt32.toNat_ofNat_of_lt' hlt, ← hlength, toLittleEndian_ofLittleEndian, List.reverse_reverse]

theorem serviceUuid32_eq (h : packet.length = 16) :
    serviceUuid32 packet = .ok (uuid128ToUuid32 packet.reverse) := by
  unfold serviceUuid32 reverse128
  dsimp only
  rw [if_pos h]
  rfl

theorem serviceUuid32_short (u : UInt32) : serviceUuid32 (longUuid u).reverse =
    .ok (some (ofLittleEndian (toLittleEndian 4 u.toNat).reverse)) := by
  have hhigh : (toLittleEndian 4 u.toNat).reverse.length = 4 := by simp
  rw [serviceUuid32_eq (by simp [longUuid, baseUuid]), List.reverse_reverse]
  unfold longUuid
  rw [uuid128ToUuid32_append hhigh]

/-- **Short UUIDs.** One is recovered just if its bytes read the same in both orders; what is not in the family
of the Base UUID never gives one. -/
theorem recovers_iff (u : UInt32) :
    Recovers u ↔ (toLittleEndian 4 u.toNat).reverse = toLittleEndian 4 u.toNat := by
  have hvalue : ofLittleEndian (toLittleEndian 4 u.toNat) = u.toNat := by
    rw [ofLittleEndian_toLittleEndian]
    exact Nat.mod_eq_of_lt u.toNat_lt
  constructor
  · intro h
    have hshort := (serviceUuid32_short u).symm.trans h.short
    apply ofLittleEndian_inj (List.length_reverse)
    rw [hvalue]
    exact Option.some.inj (Except.ok.inj hshort)
  · intro hsame
    constructor
    · rw [serviceUuid32_short, hsame, hvalue]
    · intro packet hlength hforeign
      rw [serviceUuid32_eq hlength, uuid128ToUuid32_foreign]
      intro high hhigh heq
      obtain ⟨v, hv⟩ := exists_longUuid hhigh
      exact hforeign v (heq.trans hv)

/-- The Battery Service, 0x0000180F, becomes 0x0F180000. -/
theorem battery_service_swapped : serviceUuid32
    [0xFB, 0x34, 0x9B, 0x5F, 0x80, 0x00, 0x00, 0x80, 0x00, 0x10, 0x00, 0x00, 0x0F, 0x18, 0x00, 0x00] =
      .ok (some 0x0F180000) ∧ longUuid 0x180F =
    [0x00, 0x00, 0x18, 0x0F, 0x00, 0x00, 0x10, 0x00, 0x80, 0x00, 0x00, 0x80, 0x5F, 0x9B, 0x34, 0xFB] ∧
      ¬ Recovers 0x180F := by
  have hlong : longUuid 0x180F =
      [0x00, 0x00, 0x18, 0x0F, 0x00, 0x00, 0x10, 0x00, 0x80, 0x00, 0x00, 0x80, 0x5F, 0x9B, 0x34, 0xFB] := rfl
  refine ⟨rfl, hlong, fun h => ?_⟩
  have hshort := h.short
  rw [hlong] at hshort
  have hswapped : some 0x0F180000 = some (0x180F : UInt32).toNat := Except.ok.inj hshort
  exact absurd hswapped (by decide)

end Recovery

end PicoRuby.Ble
