import PicoRuby.Codec.Rejection
import PicoRuby.Shared.Output

/-!
# Base64 in the mruby/c build

Both functions write into what `mrbc_alloc` returns. The encoder leaves out what a short last group lacks and pads it
behind the loop; the decoder counts in `actual_out_size` what it wrote, and it has no error.
-/

namespace PicoRuby.Codec

open Shared

set_option autoImplicit false

/-- One round of the loop. -/
def cEncodeRound (a : UInt8) (b c : Option UInt8) (output : Output UInt8) : Output UInt8 :=
  let n : UInt32 := (a.toUInt32 <<< 16) + (b.getD 0).toUInt32 <<< 8 + (c.getD 0).toUInt32
  let encoded (shift : UInt32) : UInt8 :=
    base64chars.getD ((n >>> shift).toUInt8 &&& 63).toNat 0
  let output := (output.put (encoded 18)).put (encoded 12)
  let output := if b.isSome then output.put (encoded 6) else output
  if c.isSome then output.put (encoded 0) else output

def cEncodeLoop : Bytes → Output UInt8 → Output UInt8
  | [], output => output
  | [a], output => cEncodeRound a none none output
  | [a, b], output => cEncodeRound a (some b) none output
  | a :: b :: c :: data, output => cEncodeLoop data (cEncodeRound a (some b) (some c) output)

def cBase64Encode (garbage : Nat → UInt8) (input : Bytes) : Bytes :=
  let outSize := (input.length + 2) / 3 * 4 + 1
  let output := cEncodeLoop input (Output.alloc garbage outSize)
  let padding := input.length % 3
  let output := if 0 < padding then output.puts (List.replicate (3 - padding) pad) else output
  output.memory.take (outSize - 1)

structure CDecodeState where
  buf : UInt32
  iter : Nat
  output : Output UInt8
  actualOutSize : Nat

def cDecodeStep (s : CDecodeState) (d : UInt8) : CDecodeState :=
  let c := base64Convert d
  let buf := s.buf <<< 6 ||| c.toUInt32
  if s.iter + 1 = 4 then
    ⟨0, 0, ((s.output.put (buf >>> 16).toUInt8).put (buf >>> 8).toUInt8).put buf.toUInt8, s.actualOutSize + 3⟩
  else ⟨buf, s.iter + 1, s.output, s.actualOutSize⟩

/-- What is left in `buf` behind the loop. -/
def CDecodeState.flush (s : CDecodeState) : CDecodeState :=
  if s.iter = 3 then
    { s with
      output := (s.output.put (s.buf >>> 10).toUInt8).put (s.buf >>> 2).toUInt8
      actualOutSize := s.actualOutSize + 2 }
  else if s.iter = 2 then
    { s with output := s.output.put (s.buf >>> 4).toUInt8, actualOutSize := s.actualOutSize + 1 }
  else s

def cBase64Decode (garbage : Nat → UInt8) (input : Bytes) : Bytes :=
  let outSize := (input.length + 3) / 4 * 3 + 1
  let s := ((input.takeWhile (· ≠ pad)).foldl cDecodeStep ⟨0, 0, Output.alloc garbage outSize, 0⟩).flush
  s.output.memory.take s.actualOutSize

/-- base64.rb over the functions of this build. -/
def cUrlsafeEncode64 (garbage : Nat → UInt8) (string : Bytes) : Bytes :=
  ((cBase64Encode garbage string).map toUrlsafe).filter (· ≠ pad)

def cUrlsafeDecode64 (garbage : Nat → UInt8) (string : Bytes) : Bytes :=
  cBase64Decode garbage (ljust (string.map ofUrlsafe) ((string.length + 3) / 4 * 4))

/-! ## The encoders agree -/

/-- The padding behind the last group. -/
def paddingLength (data : Bytes) : Nat := if 0 < data.length % 3 then 3 - data.length % 3 else 0

theorem cEncodeRound_one (a : UInt8) (output : Output UInt8) :
    cEncodeRound a none none output = output.puts ((encodeGroup a none none).take 2) := rfl

theorem cEncodeRound_two (a b : UInt8) (output : Output UInt8) :
    cEncodeRound a (some b) none output = output.puts ((encodeGroup a (some b) none).take 3) := rfl

theorem cEncodeRound_three (a b c : UInt8) (output : Output UInt8) :
    cEncodeRound a (some b) (some c) output = output.puts (encodeGroup a (some b) (some c)) := rfl

/-- The loop writes the digits, and the padding is all that is missing behind them. -/
theorem cEncodeLoop_spec (data : Bytes) : ∃ body, encode64 data = body ++ List.replicate (paddingLength data) pad ∧
    ∀ (output : Output UInt8) (l : Bytes) (room : Nat), output.Holds l (body.length + room) →
      (cEncodeLoop data output).Holds (l ++ body) room := by
  induction data using encode64.induct with
  | case1 =>
    refine ⟨[], rfl, fun output l room h => ?_⟩
    exact Output.Holds.puts (m := []) h
  | case2 a =>
    refine ⟨(encodeGroup a none none).take 2, rfl, fun output l room h => ?_⟩
    rw [cEncodeLoop, cEncodeRound_one]
    exact h.puts
  | case3 a b =>
    refine ⟨(encodeGroup a (some b) none).take 3, rfl, fun output l room h => ?_⟩
    rw [cEncodeLoop, cEncodeRound_two]
    exact h.puts
  | case4 a b c data ih =>
    obtain ⟨body, hbody, hloop⟩ := ih
    refine ⟨encodeGroup a (some b) (some c) ++ body, ?_, fun output l room h => ?_⟩
    · have hpadding : paddingLength (a :: b :: c :: data) = paddingLength data := by
        unfold paddingLength
        have hmod : (a :: b :: c :: data).length % 3 = data.length % 3 := Nat.add_mod_right data.length 3
        rw [hmod]
      rw [encode64, hbody, hpadding, List.append_assoc]
    · rw [cEncodeLoop, cEncodeRound_three, ← List.append_assoc]
      apply hloop
      apply Output.Holds.puts
      rwa [List.length_append, Nat.add_assoc] at h

theorem puts_padding (data : Bytes) (output : Output UInt8) :
    (if 0 < data.length % 3 then output.puts (List.replicate (3 - data.length % 3) pad) else output) =
      output.puts (List.replicate (paddingLength data) pad) := by
  unfold paddingLength
  split
  · rfl
  · rfl

theorem cBase64Encode_eq (garbage : Nat → UInt8) (data : Bytes) : cBase64Encode garbage data = encode64 data := by
  obtain ⟨body, hbody, hloop⟩ := cEncodeLoop_spec data
  have hlength := encode64_length data
  rw [hbody, List.length_append, List.length_replicate] at hlength
  have hstart := Output.alloc_holds garbage ((data.length + 2) / 3 * 4 + 1)
  rw [← hlength, Nat.add_assoc] at hstart
  have hdigits := hloop _ _ _ hstart
  rw [List.nil_append] at hdigits
  rw [← List.length_replicate (n := paddingLength data) (a := pad)] at hdigits
  have htake := hdigits.puts.take_eq
  rw [← hbody, encode64_length] at htake
  unfold cBase64Encode
  dsimp only
  rw [puts_padding]
  rw [List.length_replicate, ← Nat.add_assoc, hlength] at htake
  exact htake

/-! ## The decoders agree -/

/-- The two states of the loops, with room for what the rest of the text is decoded to. -/
structure DecodersAgree (s : DecodeState) (t : CDecodeState) (rest : Nat) : Prop where
  buf_eq : t.buf = s.buf
  iter_eq : t.iter = s.iter
  iter_lt : s.iter < 4
  size_eq : t.actualOutSize = s.output.length
  holds : ∃ room, (s.iter + rest + 3) / 4 * 3 ≤ room ∧ t.output.Holds s.output room

theorem decodeStep_agree {s : DecodeState} {t : CDecodeState} {rest : Nat} (h : DecodersAgree s t (rest + 1))
    (d : UInt8) : ∃ s', decodeStep s d = .ok s' ∧ DecodersAgree s' (cDecodeStep t d) rest := by
  obtain ⟨room, hroom, hholds⟩ := h.holds
  have hiter := h.iter_lt
  have hvalid := base64Convert_ne d
  unfold decodeStep cDecodeStep
  dsimp only
  rw [if_neg hvalid, h.buf_eq, h.iter_eq]
  by_cases hfull : s.iter + 1 = 4
  · rw [if_pos hfull, if_pos hfull]
    refine ⟨_, rfl, rfl, rfl, Nat.zero_lt_succ 3, ?_, room - 3, ?_, ?_⟩
    · rw [List.length_append, h.size_eq]
      rfl
    · dsimp only
      omega
    · apply Output.Holds.puts (m := [_, _, _])
      have hsum : 3 + (room - 3) = room := by omega
      rw [List.length_cons, List.length_cons, List.length_singleton, hsum]
      exact hholds
  · rw [if_neg hfull, if_neg hfull]
    refine ⟨_, rfl, rfl, rfl, ?_, h.size_eq, room, ?_, hholds⟩
    · dsimp only
      omega
    · dsimp only
      omega

theorem foldl_decodeStep_agree : ∀ (text : Bytes) {s : DecodeState} {t : CDecodeState} {rest : Nat},
    DecodersAgree s t (text.length + rest) → ∃ s', text.foldlM decodeStep s = .ok s' ∧
      DecodersAgree s' (text.foldl cDecodeStep t) rest
  | [], s, t, rest, h => by
    rw [List.length_nil, Nat.zero_add] at h
    exact ⟨s, rfl, h⟩
  | d :: text, s, t, rest, h => by
    rw [List.length_cons, Nat.add_right_comm] at h
    obtain ⟨s', hstep, hagree⟩ := decodeStep_agree h d
    obtain ⟨s'', hloop, hagree'⟩ := foldl_decodeStep_agree text hagree
    rw [List.foldlM_cons, hstep]
    exact ⟨s'', hloop, hagree'⟩

theorem flush_agree {s : DecodeState} {t : CDecodeState} (h : DecodersAgree s t 0) :
    t.flush.output.memory.take t.flush.actualOutSize = s.flush := by
  obtain ⟨buf, iter, output, size⟩ := t
  obtain ⟨rfl, rfl, hiter, rfl, room, hroom, hholds⟩ := h
  unfold CDecodeState.flush DecodeState.flush
  dsimp only at hholds ⊢
  split
  · rename_i hthree
    have hsum : 2 + (room - 2) = room := by omega
    rw [← hsum] at hholds
    have hputs := (Output.Holds.puts (m := [(s.buf >>> 10).toUInt8, (s.buf >>> 2).toUInt8]) hholds).take_eq
    rwa [List.length_append] at hputs
  · split
    · rename_i htwo
      have hsum : 1 + (room - 1) = room := by omega
      rw [← hsum] at hholds
      have hputs := (Output.Holds.puts (m := [(s.buf >>> 4).toUInt8]) hholds).take_eq
      rwa [List.length_append] at hputs
    · exact hholds.take_eq

theorem decode64_eq_cBase64Decode (garbage : Nat → UInt8) (input : Bytes) :
    decode64 input = .ok (cBase64Decode garbage input) := by
  have hlength := (List.takeWhile_prefix (l := input) fun b => decide (b ≠ pad)).length_le
  have hstart : DecodersAgree ⟨0, 0, []⟩
      ⟨0, 0, Output.alloc garbage ((input.length + 3) / 4 * 3 + 1), 0⟩ ((unpadded input).length + 0) := by
    refine ⟨rfl, rfl, by decide, rfl, _, ?_, Output.alloc_holds garbage _⟩
    unfold unpadded
    dsimp only
    omega
  obtain ⟨s, hloop, hagree⟩ := foldl_decodeStep_agree _ hstart
  have hflush := flush_agree hagree
  unfold decode64 cBase64Decode
  dsimp only
  unfold unpadded at hloop hflush
  rw [hloop, hflush]
  rfl

/-! ## Both builds -/

/-- Whatever the allocations hold, both builds give back what they encoded, and the same bytes. -/
theorem base64_round_trip (garbage garbage' : Nat → UInt8) (s : Bytes) :
    decode64 (encode64 s) = .ok s ∧ urlsafeDecode64 (urlsafeEncode64 s) = .ok s ∧
      cBase64Decode garbage' (cBase64Encode garbage s) = s ∧
      cUrlsafeDecode64 garbage' (cUrlsafeEncode64 garbage s) = s ∧
      cBase64Encode garbage s = encode64 s ∧
      decode64 (encode64 s) = .ok (cBase64Decode garbage' (encode64 s)) := by
  have hencode := cBase64Encode_eq garbage s
  have hplain := decode64_eq_cBase64Decode garbage' (encode64 s)
  have hurlsafe : urlsafeDecode64 (urlsafeEncode64 s) = .ok (cUrlsafeDecode64 garbage' (urlsafeEncode64 s)) :=
    decode64_eq_cBase64Decode garbage' _
  have hround := decode64_encode64 s
  have hroundUrlsafe := urlsafeDecode64_urlsafeEncode64 s
  refine ⟨hround, hroundUrlsafe, ?_, ?_, hencode, hplain⟩
  · rw [hencode]
    rw [hround] at hplain
    exact (Except.ok.inj hplain).symm
  · rw [hroundUrlsafe] at hurlsafe
    unfold cUrlsafeEncode64
    rw [hencode]
    exact (Except.ok.inj hurlsafe).symm

end PicoRuby.Codec
