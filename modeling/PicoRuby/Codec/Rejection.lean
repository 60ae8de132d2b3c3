import PicoRuby.Codec.RoundTrip
import PicoRuby.Shared.Bits

/-!
# What decode64 takes

A text of the alphabet stands for the bits of its digits, six for each, of which the whole octets count. `decode64`
gives them, and it takes every other byte for the digit 0.
-/

namespace PicoRuby.Codec

open Shared

set_option autoImplicit false

/-- What is in front of the padding. -/
def unpadded (input : Bytes) : Bytes := input.takeWhile (· ≠ pad)

/-- The octets that the digits of RFC 4648 stand for. -/
def denoted (text : Bytes) : Bytes := octets (text.flatMap fun b => toBits 6 (base64chars.idxOf b))

/-- `ArgumentError` is raised for the texts with a foreign byte, and the others are decoded. -/
structure RejectsForeign (input : Bytes) : Prop where
  rejects : (∃ message, decode64 input = .error message) ↔ ∃ b ∈ unpadded input, b ∉ base64chars
  decodes : (∀ b ∈ unpadded input, b ∈ base64chars) → decode64 input = .ok (denoted (unpadded input))

/-! ## Digits -/

section Digits
variable {i j k l : Nat} {is : List Nat}

theorem digitChar_idxOf {b : UInt8} (h : b ∈ base64chars) : digitChar (base64chars.idxOf b) = b := by
  have hlt := List.idxOf_lt_length_of_mem h
  unfold digitChar
  rw [List.getD_eq_getElem _ _ hlt, List.getElem_idxOf]

/-- The value that the loop takes for an error is never given. -/
theorem base64Convert_ne (d : UInt8) : base64Convert d ≠ 255 := by
  have hall : ∀ d : Fin 256, base64Convert (UInt8.ofNat d) ≠ 255 := by decide +kernel
  have hd := hall ⟨d.toNat, d.toNat_lt⟩
  rwa [UInt8.ofNat_toNat] at hd

theorem decodeStep_ok (s : DecodeState) (d : UInt8) : ∃ s', decodeStep s d = .ok s' := by
  unfold decodeStep
  dsimp only
  rw [if_neg (base64Convert_ne d)]
  split
  · exact ⟨_, rfl⟩
  · exact ⟨_, rfl⟩

theorem foldlM_decodeStep_ok (text : Bytes) (s : DecodeState) : ∃ s', text.foldlM decodeStep s = .ok s' := by
  induction text generalizing s with
  | nil => exact ⟨s, rfl⟩
  | cons d text ih =>
    obtain ⟨s', hs'⟩ := decodeStep_ok s d
    rw [List.foldlM_cons, hs']
    exact ih s'

theorem ofBits_sextet (m : List Bool) (h : i < 64) : ofBits (m ++ toBits 6 i) = ofBits m * 64 + i := by
  have h64 : 2 ^ 6 = 64 := rfl
  rw [ofBits_append, toBits_length, ofBits_toBits, h64, Nat.mod_eq_of_lt h]

theorem sextets_two (hi : i < 64) (hj : j < 64) : ofBits ([i, j].flatMap (toBits 6)) = i * 64 + j := by
  have happend : [i, j].flatMap (toBits 6) = ([] ++ toBits 6 i) ++ toBits 6 j := by simp
  rw [happend, ofBits_sextet _ hj, ofBits_sextet _ hi]
  simp [ofBits]

theorem sextets_three (hi : i < 64) (hj : j < 64) (hk : k < 64) :
    ofBits ([i, j, k].flatMap (toBits 6)) = (i * 64 + j) * 64 + k := by
  have happend : [i, j, k].flatMap (toBits 6) = [i, j].flatMap (toBits 6) ++ toBits 6 k := by simp
  rw [happend, ofBits_sextet _ hk, sextets_two hi hj]

theorem sextets_four (hi : i < 64) (hj : j < 64) (hk : k < 64) (hl : l < 64) :
    ofBits ([i, j, k, l].flatMap (toBits 6)) = ((i * 64 + j) * 64 + k) * 64 + l := by
  have happend : [i, j, k, l].flatMap (toBits 6) = [i, j, k].flatMap (toBits 6) ++ toBits 6 l := by simp
  rw [happend, ofBits_sextet _ hl, sextets_three hi hj hk]

/-- A byte of the buffer is an octet of the number. -/
theorem octet_eq {w s : UInt32} {n k : Nat} (hs : s.toNat = k) (hk : k < 32) (hw : w.toNat = n) :
    (w >>> s).toUInt8 = UInt8.ofNat (n / 2 ^ k) := by
  apply byte_eq hs hk
  rw [hw, UInt8.toNat_ofNat']

theorem decode_digits : ∀ (is : List Nat) (output : Bytes), (∀ i ∈ is, i < 64) →
    ((is.map digitChar).foldlM decodeStep ⟨0, 0, output⟩).map DecodeState.flush =
      .ok (output ++ octets (is.flatMap (toBits 6)))
  | [], output, _ => congrArg Except.ok (List.append_nil output).symm
  | [i], output, h => by
    obtain ⟨buf, -, hstep⟩ := decode_digit 0 (by decide) 0 output (h i List.mem_cons_self)
    have hbits : octets ([i].flatMap (toBits 6)) = [] := by simp [octets]
    rw [hbits, List.append_nil]
    exact congrArg (Except.map DecodeState.flush) (hstep [])
  | [i, j], output, h => by
    have hi := h i (by simp)
    have hj := h j (by simp)
    obtain ⟨buf, hbuf, hsteps⟩ := decode_two output hi hj
    have hfirst : (buf >>> 4).toUInt8 = _ := octet_eq rfl (by decide) hbuf
    have hbits : octets ([i, j].flatMap (toBits 6)) = [(buf >>> 4).toUInt8] := by
      rw [octets_eq, sextets_two hi hj, hfirst]
      simp [List.range_succ]
    rw [hbits]
    exact congrArg (Except.map DecodeState.flush) (hsteps [])
  | [i, j, k], output, h => by
    have hi := h i (by simp)
    have hj := h j (by simp)
    have hk := h k (by simp)
    obtain ⟨buf, hbuf, hsteps⟩ := decode_three output hi hj hk
    have hfirst : (buf >>> 10).toUInt8 = _ := octet_eq rfl (by decide) hbuf
    have hsecond : (buf >>> 2).toUInt8 = _ := octet_eq rfl (by decide) hbuf
    have hbits : octets ([i, j, k].flatMap (toBits 6)) = [(buf >>> 10).toUInt8, (buf >>> 2).toUInt8] := by
      rw [octets_eq, sextets_three hi hj hk, hfirst, hsecond]
      simp [List.range_succ]
    rw [hbits]
    exact congrArg (Except.map DecodeState.flush) (hsteps [])
  | i :: j :: k :: l :: is, output, h => by
    have hi := h i (by simp)
    have hj := h j (by simp)
    have hk := h k (by simp)
    have hl := h l (by simp)
    obtain ⟨buf, hbuf, hsteps⟩ := decode_four output hi hj hk hl
    have hfirst : (buf >>> 16).toUInt8 = _ := octet_eq rfl (by decide) hbuf
    have hsecond : (buf >>> 8).toUInt8 = _ := octet_eq rfl (by decide) hbuf
    have hthird : buf.toUInt8 = UInt8.ofNat _ := congrArg UInt8.ofNat hbuf
    have hgroup : octets ([i, j, k, l].flatMap (toBits 6)) =
        [(buf >>> 16).toUInt8, (buf >>> 8).toUInt8, buf.toUInt8] := by
      rw [octets_eq, sextets_four hi hj hk hl, hfirst, hsecond, hthird]
      simp [List.range_succ]
    have happend : (i :: j :: k :: l :: is).flatMap (toBits 6) =
        [i, j, k, l].flatMap (toBits 6) ++ is.flatMap (toBits 6) := by simp
    rw [happend, octets_append (by simp), hgroup, ← List.append_assoc]
    refine (congrArg (Except.map DecodeState.flush) (hsteps (is.map digitChar))).trans ?_
    apply decode_digits
    intro n hn
    exact h n (by simp [hn])

/-! ## Texts of the alphabet -/

theorem decode64_ok (input : Bytes) : ∃ data, decode64 input = .ok data := by
  obtain ⟨s, hs⟩ := foldlM_decodeStep_ok (unpadded input) ⟨0, 0, []⟩
  exact ⟨s.flush, congrArg (Except.map DecodeState.flush) hs⟩

theorem decode64_denoted {input : Bytes} (h : ∀ b ∈ unpadded input, b ∈ base64chars) :
    decode64 input = .ok (denoted (unpadded input)) := by
  have hdigits : ((unpadded input).map fun b => base64chars.idxOf b).map digitChar = unpadded input := by
    rw [List.map_map]
    refine (List.map_congr_left ?_).trans (List.map_id _)
    exact fun b hb => digitChar_idxOf (h b hb)
  have hlt : ∀ i ∈ (unpadded input).map fun b => base64chars.idxOf b, i < 64 := by
    intro i hi
    obtain ⟨b, hb, rfl⟩ := List.mem_map.mp hi
    exact List.idxOf_lt_length_of_mem (h b hb)
  have hdecode := decode_digits _ [] hlt
  rw [hdigits, List.flatMap_map] at hdecode
  exact hdecode

end Digits

/-- No text raises anything, so a foreign byte is not rejected. -/
theorem rejectsForeign_iff (input : Bytes) : RejectsForeign input ↔ ∀ b ∈ unpadded input, b ∈ base64chars := by
  obtain ⟨data, hdata⟩ := decode64_ok input
  constructor
  · intro h b hb
    by_contra hforeign
    obtain ⟨message, hraise⟩ := h.rejects.mpr ⟨b, hb, hforeign⟩
    rw [hdata] at hraise
    cases hraise
  · intro h
    refine ⟨⟨?_, ?_⟩, fun _ => decode64_denoted h⟩
    · rintro ⟨message, hraise⟩
      rw [hdata] at hraise
      cases hraise
    · rintro ⟨b, hb, hforeign⟩
      exact absurd (h b hb) hforeign

/-- The text `*` is decoded, to nothing. -/
theorem star_not_rejected : ¬ RejectsForeign (ascii "*") := by
  intro h
  obtain ⟨message, hraise⟩ := h.rejects.mpr ⟨0x2a, by decide, by decide⟩
  cases hraise

end PicoRuby.Codec
