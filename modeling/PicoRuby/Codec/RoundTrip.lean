import Mathlib.Algebra.Order.Ring.Nat
import Mathlib.Data.Nat.Bitwise
import PicoRuby.Codec.Base64

/-!
# Decoding what was encoded

A group is read through the number that its bytes stand for: the encoder writes four digits of it to the base 64, and
the decoder collects them again.
-/

namespace PicoRuby.Codec

set_option autoImplicit false

/-! ## Digits -/

/-- The number of a group. -/
def groupValue (a : UInt8) (b c : Option UInt8) : Nat :=
  a.toNat * 65536 + (b.getD 0).toNat * 256 + (c.getD 0).toNat

/-- The digit of a number at the place of `64 ^ i`. -/
def digit (n i : Nat) : Nat := n / 64 ^ i % 64

def digitChar (i : Nat) : UInt8 := base64chars.getD i 0

variable {a : UInt8} {b c : Option UInt8} {i n : Nat}

theorem digit_lt (n i : Nat) : digit n i < 64 := Nat.mod_lt _ (by decide)

theorem groupValue_lt (a : UInt8) (b c : Option UInt8) : groupValue a b c < 2 ^ 24 := by
  have ha := a.toNat_lt
  have hb := (b.getD 0).toNat_lt
  have hc := (c.getD 0).toNat_lt
  unfold groupValue
  omega

theorem digitChar_spec (h : i < 64) : base64Convert (digitChar i) = UInt8.ofNat i ∧ digitChar i ≠ pad := by
  have hall : ∀ i : Fin 64, base64Convert (digitChar i) = UInt8.ofNat i ∧ digitChar i ≠ pad := by decide +kernel
  exact hall ⟨i, h⟩

/-- What the encoder holds in `n`. -/
def groupWord (a : UInt8) (b c : Option UInt8) : UInt32 :=
  (a.toUInt32 <<< 16) + (b.getD 0).toUInt32 <<< 8 + (c.getD 0).toUInt32

theorem groupWord_toNat (a : UInt8) (b c : Option UInt8) : (groupWord a b c).toNat = groupValue a b c := by
  have ha := a.toNat_lt
  have hb := (b.getD 0).toNat_lt
  have hc := (c.getD 0).toNat_lt
  unfold groupWord groupValue
  simp only [UInt32.toNat_add, UInt32.toNat_shiftLeft, UInt8.toNat_toUInt32, UInt32.toNat_ofNat, Nat.shiftLeft_eq,
    Nat.reducePow, Nat.reduceMod]
  omega

theorem sextet (w : UInt32) (s : UInt32) (h : s.toNat < 32) :
    ((w >>> s).toUInt8 &&& 63).toNat = w.toNat / 2 ^ s.toNat % 64 := by
  rw [UInt8.toNat_and, UInt32.toNat_toUInt8, UInt32.toNat_shiftRight, Nat.mod_eq_of_lt h, Nat.shiftRight_eq_div_pow]
  have h63 : (63 : UInt8).toNat = 2 ^ 6 - 1 := rfl
  rw [h63, Nat.and_two_pow_sub_one_eq_mod, Nat.mod_mod_of_dvd _ (by decide)]

theorem encodeGroup_eq (a : UInt8) (b c : Option UInt8) : encodeGroup a b c =
    [digitChar (digit (groupValue a b c) 3), digitChar (digit (groupValue a b c) 2),
      if b.isSome then digitChar (digit (groupValue a b c) 1) else pad,
      if c.isSome then digitChar (digit (groupValue a b c) 0) else pad] := by
  have hdigit (s : UInt32) (i : Nat) (h : s.toNat < 32) (hs : s.toNat = 6 * i) :
      base64chars.getD ((groupWord a b c >>> s).toUInt8 &&& 63).toNat 0 = digitChar (digit (groupValue a b c) i) := by
    rw [sextet _ _ h, groupWord_toNat, hs, Nat.pow_mul]
    rfl
  unfold encodeGroup
  dsimp only
  rw [← hdigit 18 3 (by decide) rfl, ← hdigit 12 2 (by decide) rfl, ← hdigit 6 1 (by decide) rfl,
    ← hdigit 0 0 (by decide) rfl]
  rfl

/-! ## Groups -/

/-- The bits of a digit are appended to those that were collected. -/
theorem collected {buf : UInt32} (hbuf : buf.toNat < 2 ^ 26) (h : i < 64) :
    (buf <<< 6 ||| (UInt8.ofNat i).toUInt32).toNat = buf.toNat * 64 + i := by
  have hi : (UInt8.ofNat i).toNat = i := by
    rw [UInt8.toNat_ofNat']
    omega
  rw [UInt32.toNat_or, UInt32.toNat_shiftLeft, UInt8.toNat_toUInt32, hi]
  have hshift : buf.toNat <<< ((6 : UInt32).toNat % 32) % 2 ^ 32 = 2 ^ 6 * buf.toNat := by
    simp only [UInt32.toNat_ofNat, Nat.shiftLeft_eq, Nat.reducePow, Nat.reduceMod]
    omega
  rw [hshift, ← Nat.two_pow_add_eq_or_of_lt (by omega)]
  omega

theorem decode_digit (buf : UInt32) (hbuf : buf.toNat < 2 ^ 18) (iter : Nat) (output : Bytes) (h : i < 64) :
    ∃ buf' : UInt32, buf'.toNat = buf.toNat * 64 + i ∧ ∀ rest : Bytes,
      (digitChar i :: rest).foldlM decodeStep ⟨buf, iter, output⟩ = rest.foldlM decodeStep (if iter + 1 = 4 then
        ⟨0, 0, output ++ [(buf' >>> 16).toUInt8, (buf' >>> 8).toUInt8, buf'.toUInt8]⟩
      else ⟨buf', iter + 1, output⟩) := by
  refine ⟨_, collected (by omega) h, fun rest => ?_⟩
  have hvalid : UInt8.ofNat i ≠ 255 := by
    intro heq
    have hnat := congrArg UInt8.toNat heq
    rw [UInt8.toNat_ofNat'] at hnat
    have h255 : (255 : UInt8).toNat = 255 := rfl
    omega
  rw [List.foldlM_cons]
  unfold decodeStep
  dsimp only
  rw [(digitChar_spec h).1, if_neg hvalid]
  split
  · rfl
  · rfl

theorem byte_eq {w s : UInt32} {x : UInt8} {k : Nat} (hs : s.toNat = k) (h : k < 32)
    (hx : w.toNat / 2 ^ k % 256 = x.toNat) : (w >>> s).toUInt8 = x := by
  apply UInt8.toNat_inj.mp
  rw [UInt32.toNat_toUInt8, UInt32.toNat_shiftRight, hs, Nat.mod_eq_of_lt h, Nat.shiftRight_eq_div_pow]
  exact hx

section Groups

variable (output : Bytes) {i j k l : Nat}

theorem decode_two (hi : i < 64) (hj : j < 64) : ∃ buf : UInt32, buf.toNat = i * 64 + j ∧ ∀ rest : Bytes,
    (digitChar i :: digitChar j :: rest).foldlM decodeStep ⟨0, 0, output⟩ =
      rest.foldlM decodeStep ⟨buf, 2, output⟩ := by
  obtain ⟨buf, hbuf, hstep⟩ := decode_digit 0 (by decide) 0 output hi
  rw [UInt32.toNat_zero] at hbuf
  obtain ⟨buf', hbuf', hstep'⟩ := decode_digit buf (by omega) 1 output hj
  refine ⟨buf', by omega, fun rest => ?_⟩
  rw [hstep]
  exact hstep' rest

theorem decode_three (hi : i < 64) (hj : j < 64) (hk : k < 64) : ∃ buf : UInt32,
    buf.toNat = (i * 64 + j) * 64 + k ∧ ∀ rest : Bytes,
    (digitChar i :: digitChar j :: digitChar k :: rest).foldlM decodeStep ⟨0, 0, output⟩ =
      rest.foldlM decodeStep ⟨buf, 3, output⟩ := by
  obtain ⟨buf, hbuf, hsteps⟩ := decode_two output hi hj
  obtain ⟨buf', hbuf', hstep⟩ := decode_digit buf (by omega) 2 output hk
  refine ⟨buf', by omega, fun rest => ?_⟩
  rw [hsteps]
  exact hstep rest

theorem decode_four (hi : i < 64) (hj : j < 64) (hk : k < 64) (hl : l < 64) : ∃ buf : UInt32,
    buf.toNat = ((i * 64 + j) * 64 + k) * 64 + l ∧ ∀ rest : Bytes,
    (digitChar i :: digitChar j :: digitChar k :: digitChar l :: rest).foldlM decodeStep ⟨0, 0, output⟩ =
      rest.foldlM decodeStep ⟨0, 0, output ++ [(buf >>> 16).toUInt8, (buf >>> 8).toUInt8, buf.toUInt8]⟩ := by
  obtain ⟨buf, hbuf, hsteps⟩ := decode_three output hi hj hk
  obtain ⟨buf', hbuf', hstep⟩ := decode_digit buf (by omega) 3 output hl
  refine ⟨buf', by omega, fun rest => ?_⟩
  rw [hsteps]
  exact hstep rest

end Groups

/-! ## The round trip -/

/-- The loop over what is in front of the padding. -/
def decodeLoop (input output : Bytes) : Except String DecodeState :=
  (input.takeWhile (· ≠ pad)).foldlM decodeStep ⟨0, 0, output⟩

theorem takeWhile_digit (h : i < 64) (rest : Bytes) :
    (digitChar i :: rest).takeWhile (· ≠ pad) = digitChar i :: rest.takeWhile (· ≠ pad) := by
  apply List.takeWhile_cons_of_pos
  simpa using (digitChar_spec h).2

theorem takeWhile_pad (rest : Bytes) : (pad :: rest).takeWhile (· ≠ pad) = [] := by
  apply List.takeWhile_cons_of_neg
  simp

/-- Three bytes are four digits. -/
theorem groupValue_digits (a : UInt8) (b c : Option UInt8) :
    ((digit (groupValue a b c) 3 * 64 + digit (groupValue a b c) 2) * 64 + digit (groupValue a b c) 1) * 64 +
      digit (groupValue a b c) 0 = groupValue a b c := by
  have hlt := groupValue_lt a b c
  unfold digit
  omega

theorem encodeGroup_one (a : UInt8) : encodeGroup a none none =
    [digitChar (digit (groupValue a none none) 3), digitChar (digit (groupValue a none none) 2), pad, pad] :=
  encodeGroup_eq a none none

theorem encodeGroup_two (a b : UInt8) : encodeGroup a (some b) none =
    [digitChar (digit (groupValue a (some b) none) 3), digitChar (digit (groupValue a (some b) none) 2),
      digitChar (digit (groupValue a (some b) none) 1), pad] :=
  encodeGroup_eq a (some b) none

theorem encodeGroup_three (a b c : UInt8) : encodeGroup a (some b) (some c) =
    [digitChar (digit (groupValue a (some b) (some c)) 3), digitChar (digit (groupValue a (some b) (some c)) 2),
      digitChar (digit (groupValue a (some b) (some c)) 1), digitChar (digit (groupValue a (some b) (some c)) 0)] :=
  encodeGroup_eq a (some b) (some c)

theorem decodeLoop_encode64 (data : Bytes) : ∀ output : Bytes,
    (decodeLoop (encode64 data) output).map DecodeState.flush = .ok (output ++ data) := by
  induction data using encode64.induct with
  | case1 =>
    intro output
    rw [List.append_nil]
    rfl
  | case2 a =>
    intro output
    obtain ⟨buf, hbuf, hsteps⟩ := decode_two output (digit_lt (groupValue a none none) 3)
      (digit_lt (groupValue a none none) 2)
    have hvalue : groupValue a none none = a.toNat * 65536 := by simp [groupValue]
    have hbyte : (buf >>> 4).toUInt8 = a := by
      apply byte_eq (k := 4) rfl (by decide)
      have ha := a.toNat_lt
      unfold digit at hbuf
      rw [hvalue] at hbuf
      omega
    unfold decodeLoop encode64
    rw [encodeGroup_one, takeWhile_digit (digit_lt _ _), takeWhile_digit (digit_lt _ _), takeWhile_pad, hsteps]
    have hflush : DecodeState.flush ⟨buf, 2, output⟩ = output ++ [(buf >>> 4).toUInt8] := rfl
    rw [hbyte] at hflush
    exact congrArg Except.ok hflush
  | case3 a b =>
    intro output
    obtain ⟨buf, hbuf, hsteps⟩ := decode_three output (digit_lt (groupValue a (some b) none) 3)
      (digit_lt (groupValue a (some b) none) 2) (digit_lt (groupValue a (some b) none) 1)
    have hdigits := groupValue_digits a (some b) none
    rw [← hbuf] at hdigits
    have hlow := digit_lt (groupValue a (some b) none) 0
    have hvalue : groupValue a (some b) none = a.toNat * 65536 + b.toNat * 256 := by simp [groupValue]
    have hb := b.toNat_lt
    have hbytes : (buf >>> 10).toUInt8 = a ∧ (buf >>> 2).toUInt8 = b := by
      have ha := a.toNat_lt
      constructor
      · apply byte_eq (k := 10) rfl (by decide)
        omega
      · apply byte_eq (k := 2) rfl (by decide)
        omega
    unfold decodeLoop encode64
    rw [encodeGroup_two, takeWhile_digit (digit_lt _ _), takeWhile_digit (digit_lt _ _), takeWhile_digit (digit_lt _ _),
      takeWhile_pad, hsteps]
    have hflush : DecodeState.flush ⟨buf, 3, output⟩ = output ++ [(buf >>> 10).toUInt8, (buf >>> 2).toUInt8] := rfl
    rw [hbytes.1, hbytes.2] at hflush
    exact congrArg Except.ok hflush
  | case4 a b c data ih =>
    intro output
    obtain ⟨buf, hbuf, hsteps⟩ := decode_four output (digit_lt (groupValue a (some b) (some c)) 3)
      (digit_lt (groupValue a (some b) (some c)) 2) (digit_lt (groupValue a (some b) (some c)) 1)
      (digit_lt (groupValue a (some b) (some c)) 0)
    rw [groupValue_digits] at hbuf
    have hvalue : groupValue a (some b) (some c) = a.toNat * 65536 + b.toNat * 256 + c.toNat := rfl
    have hc := c.toNat_lt
    have hb := b.toNat_lt
    have hbytes : (buf >>> 16).toUInt8 = a ∧ (buf >>> 8).toUInt8 = b ∧ buf.toUInt8 = c := by
      have ha := a.toNat_lt
      refine ⟨?_, ?_, ?_⟩
      · apply byte_eq (k := 16) rfl (by decide)
        omega
      · apply byte_eq (k := 8) rfl (by decide)
        omega
      · apply UInt8.toNat_inj.mp
        rw [UInt32.toNat_toUInt8]
        omega
    have hloop := ih (output ++ [a, b, c])
    rw [List.append_assoc] at hloop
    refine Eq.trans ?_ hloop
    unfold decodeLoop
    rw [encode64, encodeGroup_three]
    simp only [List.cons_append, List.nil_append]
    rw [takeWhile_digit (digit_lt _ _), takeWhile_digit (digit_lt _ _), takeWhile_digit (digit_lt _ _),
      takeWhile_digit (digit_lt _ _), hsteps, hbytes.1, hbytes.2.1, hbytes.2.2]

theorem decode64_encode64 (data : Bytes) : decode64 (encode64 data) = .ok data := decodeLoop_encode64 data []

/-! ## What is written -/

theorem digitChar_mem (h : i < 64) : digitChar i ∈ base64chars := by
  unfold digitChar
  rw [List.getD_eq_getElem _ _ h]
  exact List.getElem_mem _

/-- Characters of the alphabet, and behind them the padding. -/
theorem encode64_padded (data : Bytes) : ∃ body k, encode64 data = body ++ List.replicate k pad ∧ k < 4 ∧
    ∀ b ∈ body, b ∈ base64chars := by
  have hdigit (n i : Nat) : digitChar (digit n i) ∈ base64chars := digitChar_mem (digit_lt n i)
  induction data using encode64.induct with
  | case1 => exact ⟨[], 0, rfl, by decide, nofun⟩
  | case2 a =>
    refine ⟨[digitChar (digit (groupValue a none none) 3), digitChar (digit (groupValue a none none) 2)], 2,
      encodeGroup_one a, by decide, ?_⟩
    simp [hdigit]
  | case3 a b =>
    refine ⟨[digitChar (digit (groupValue a (some b) none) 3), digitChar (digit (groupValue a (some b) none) 2),
      digitChar (digit (groupValue a (some b) none) 1)], 1, encodeGroup_two a b, by decide, ?_⟩
    simp [hdigit]
  | case4 a b c data ih =>
    obtain ⟨body, k, hbody, hk, hmem⟩ := ih
    refine ⟨encodeGroup a (some b) (some c) ++ body, k, ?_, hk, ?_⟩
    · rw [encode64, hbody, List.append_assoc]
    · apply List.forall_mem_append.mpr ⟨?_, hmem⟩
      rw [encodeGroup_three]
      simp [hdigit]

/-- Only characters of the alphabet and the padding are. -/
theorem encode64_mem (data : Bytes) : ∀ b ∈ encode64 data, b ∈ base64chars ∨ b = pad := by
  obtain ⟨body, k, heq, -, hmem⟩ := encode64_padded data
  intro b hb
  rw [heq, List.mem_append] at hb
  rcases hb with hb | hb
  · exact Or.inl (hmem b hb)
  · exact Or.inr (List.eq_of_mem_replicate hb)

theorem encode64_length (data : Bytes) : (encode64 data).length = (data.length + 2) / 3 * 4 := by
  induction data using encode64.induct with
  | case1 => rfl
  | case2 a =>
    have hgroup : (encodeGroup a none none).length = 4 := rfl
    rw [encode64, hgroup]
    simp
  | case3 a b =>
    have hgroup : (encodeGroup a (some b) none).length = 4 := rfl
    rw [encode64, hgroup]
    simp
  | case4 a b c data ih =>
    have hgroup : (encodeGroup a (some b) (some c)).length = 4 := rfl
    rw [encode64, List.length_append, hgroup, ih]
    simp only [List.length_cons]
    omega

/-! ## base64.rb -/

theorem urlsafe_spec {b : UInt8} (h : b ∈ base64chars) : ofUrlsafe (toUrlsafe b) = b ∧ toUrlsafe b ≠ pad := by
  have hall : base64chars.all (fun b => decide (ofUrlsafe (toUrlsafe b) = b ∧ toUrlsafe b ≠ pad)) = true := by decide
  exact of_decide_eq_true (List.all_eq_true.mp hall b h)

/-- The padding is left out. -/
theorem urlsafeEncode64_eq {data body : Bytes} {k : Nat} (h : encode64 data = body ++ List.replicate k pad)
    (hmem : ∀ b ∈ body, b ∈ base64chars) : urlsafeEncode64 data = body.map toUrlsafe := by
  have hbody : (body.map toUrlsafe).filter (· ≠ pad) = body.map toUrlsafe := by
    apply List.filter_eq_self.mpr
    intro a ha
    obtain ⟨b, hb, rfl⟩ := List.mem_map.mp ha
    exact decide_eq_true (urlsafe_spec (hmem b hb)).2
  have hpad : (List.replicate k (toUrlsafe pad)).filter (· ≠ pad) = [] := by
    apply List.filter_eq_nil_iff.mpr
    intro b hb
    rw [List.eq_of_mem_replicate hb]
    decide
  rw [urlsafeEncode64, h, List.map_append, List.map_replicate, List.filter_append, hbody, hpad, List.append_nil]

theorem urlsafeEncode64_mem (data : Bytes) : ∀ b ∈ urlsafeEncode64 data, b ∈ base64chars.map toUrlsafe := by
  obtain ⟨body, k, heq, -, hmem⟩ := encode64_padded data
  rw [urlsafeEncode64_eq heq hmem]
  exact fun b hb => List.map_subset toUrlsafe hmem hb

/-- The padding is restored from the length. -/
theorem urlsafeDecode64_urlsafeEncode64 (data : Bytes) : urlsafeDecode64 (urlsafeEncode64 data) = .ok data := by
  obtain ⟨body, k, heq, hk, hmem⟩ := encode64_padded data
  have hback : (body.map toUrlsafe).map ofUrlsafe = body := by
    rw [List.map_map]
    refine (List.map_congr_left ?_).trans body.map_id
    exact fun b hb => (urlsafe_spec (hmem b hb)).1
  have hlength : body.length + k = (data.length + 2) / 3 * 4 := by
    rw [← encode64_length, heq, List.length_append, List.length_replicate]
  have hk' : (body.length + 3) / 4 * 4 - body.length = k := by omega
  rw [urlsafeEncode64_eq heq hmem, urlsafeDecode64, hback, ljust, List.length_map, hk', ← heq]
  exact decode64_encode64 data

end PicoRuby.Codec
