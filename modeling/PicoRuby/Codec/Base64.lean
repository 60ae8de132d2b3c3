import Mathlib.Data.List.GetD

/-!
# picoruby-base64

A String is the list of its bytes. `encode64` and `decode64` are the functions of the
mruby build; the url-safe forms are those of base64.rb.
-/

namespace PicoRuby.Codec

set_option autoImplicit false

/-- The bytes of a Ruby String. -/
abbrev Bytes := List UInt8

/-- The bytes of an ASCII literal. -/
def ascii (s : String) : Bytes := s.toList.map fun c => c.toNat.toUInt8

def base64chars : Bytes :=
  ascii "ABCDEFGHIJKLMNOPQRSTUVWXYZabcdefghijklmnopqrstuvwxyz0123456789+/"

def base64Convert (n : UInt8) : UInt8 :=
  if 0x30 ≤ n ∧ n ≤ 0x39 then n + 4
  else if 0x41 ≤ n ∧ n ≤ 0x5a then n - 65
  else if 0x61 ≤ n ∧ n ≤ 0x7a then n - 71
  else if n = 0x2b then 62
  else if n = 0x2f then 63
  else 0

/-- The byte `=`. -/
def pad : UInt8 := 0x3d

/-! ## Encoding -/

/-- One round of the loop: the bytes at `index`, `index + 1` and `index + 2`, where the
input has them, in the 24 bits of `n`. -/
def encodeGroup (a : UInt8) (b c : Option UInt8) : Bytes :=
  let n : UInt32 := (a.toUInt32 <<< 16) + (b.getD 0).toUInt32 <<< 8 + (c.getD 0).toUInt32
  let encoded (shift : UInt32) : UInt8 :=
    base64chars.getD ((n >>> shift).toUInt8 &&& 63).toNat 0
  [encoded 18, encoded 12, if b.isSome then encoded 6 else pad, if c.isSome then encoded 0 else pad]

def encode64 : Bytes → Bytes
  | [] => []
  | [a] => encodeGroup a none none
  | [a, b] => encodeGroup a (some b) none
  | a :: b :: c :: data => encodeGroup a (some b) (some c) ++ encode64 data

/-! ## Decoding -/

structure DecodeState where
  buf : UInt32
  iter : Nat
  output : Bytes

/-- The body of the loop; the error is the message of the `ArgumentError`. -/
def decodeStep (s : DecodeState) (d : UInt8) : Except String DecodeState :=
  let c := base64Convert d
  if c = 255 then .error "Invalid base64 character"
  else
    let buf := s.buf <<< 6 ||| c.toUInt32
    if s.iter + 1 = 4 then
      .ok ⟨0, 0, s.output ++ [(buf >>> 16).toUInt8, (buf >>> 8).toUInt8, buf.toUInt8]⟩
    else .ok ⟨buf, s.iter + 1, s.output⟩

/-- What the bits of an incomplete group are decoded to. -/
def DecodeState.flush (s : DecodeState) : Bytes :=
  if s.iter = 3 then s.output ++ [(s.buf >>> 10).toUInt8, (s.buf >>> 2).toUInt8]
  else if s.iter = 2 then s.output ++ [(s.buf >>> 4).toUInt8]
  else s.output

def decode64 (input : Bytes) : Except String Bytes :=
  ((input.takeWhile (· ≠ pad)).foldlM decodeStep ⟨0, 0, []⟩).map DecodeState.flush

/-! ## base64.rb -/

/-- `tr('+/', '-_')`. -/
def toUrlsafe (b : UInt8) : UInt8 := if b = 0x2b then 0x2d else if b = 0x2f then 0x5f else b

/-- `tr('-_', '+/')`. -/
def ofUrlsafe (b : UInt8) : UInt8 := if b = 0x2d then 0x2b else if b = 0x5f then 0x2f else b

/-- `String#ljust` with `=`. -/
def ljust (s : Bytes) (width : Nat) : Bytes := s ++ List.replicate (width - s.length) pad

def urlsafeEncode64 (string : Bytes) : Bytes :=
  ((encode64 string).map toUrlsafe).filter (· ≠ pad)

def urlsafeDecode64 (string : Bytes) : Except String Bytes :=
  decode64 (ljust (string.map ofUrlsafe) ((string.length + 3) / 4 * 4))

/-- The first character stands for the upper six bits of the first byte, never for padding. -/
theorem urlsafeEncode64_ne_nil {string : Bytes} (h : string ≠ []) : urlsafeEncode64 string ≠ [] := by
  have hkeep : ∀ (i : Nat), toUrlsafe (base64chars.getD i 0) ≠ pad := by
    intro i
    by_cases hi : i < base64chars.length
    · rw [List.getD_eq_getElem _ _ hi]
      have hall : base64chars.all (fun b => decide (toUrlsafe b ≠ pad)) = true := by decide
      exact of_decide_eq_true (List.all_eq_true.mp hall _ (List.getElem_mem hi))
    · rw [List.getD_eq_default _ _ (Nat.le_of_not_lt hi)]
      decide
  have hhead : ∃ i t, encode64 string = base64chars.getD i 0 :: t := by
    match string with
    | [_] => exact ⟨_, _, rfl⟩
    | [_, _] => exact ⟨_, _, rfl⟩
    | _ :: _ :: _ :: _ => exact ⟨_, _, rfl⟩
  obtain ⟨i, t, heq⟩ := hhead
  rw [urlsafeEncode64, heq, List.map_cons, List.filter_cons_of_pos (by simpa using hkeep i)]
  exact List.cons_ne_nil _ _

end PicoRuby.Codec
