import PicoRuby.Keyboard.Scan
import PicoRuby.RotaryEncoder.Callback
import PicoRuby.Shared.Bits

/-!
# The halves of a split keyboard

The anchor asks the partner for 24 bits in each round of its loop. What puts them on the wire is not here: `link`
stands for what the anchor is given of a word that the partner puts.
-/

namespace PicoRuby.Keyboard

open Shared RotaryEncoder

set_option autoImplicit false

/-! ## prk-keyboard.c -/

/-- `NIL`. -/
def nilWord : Nat := 0xFFFFFF

/-- `buffer` and `buffer_index`. -/
structure Uart where
  buffer : Nat
  bufferIndex : Nat
deriving DecidableEq, Repr

namespace Uart

def idle : Uart := ⟨0, 0⟩

/-- `uart_partner_push8`. -/
def push8 (u : Uart) (keycode : Int) : Uart :=
  if 2 < u.bufferIndex then u
  else
    { buffer := u.buffer ||| ((keycode % 2 ^ 32).toNat <<< (u.bufferIndex * 8)) % 2 ^ 32
      bufferIndex := u.bufferIndex + 1 }

/-- What `uart_partner` puts. -/
def word (u : Uart) : Nat :=
  match u.bufferIndex with
  | 0 => nilWord
  | 1 => u.buffer ||| 0xFFFF00
  | 2 => u.buffer ||| 0xFF0000
  | _ => u.buffer

end Uart

/-! ## Encoders -/

/-- A RotaryEncoder of a keymap; `id` tells its Procs apart. -/
structure Knob where
  id : Nat
  number : Option (Fin maxEncoderCount)
  splitLeft : Bool
  partnerKeycodeCw : Int
  partnerKeycodeCcw : Int
deriving DecidableEq, Repr

inductive Turn where
  | cw
  | ccw
deriving DecidableEq, Repr

namespace Knob

/-- `RotaryEncoder#create_keycodes`. -/
def createKeycodes (e : Knob) (encodersSize : Nat) : Knob :=
  { e with
    partnerKeycodeCw := 0b11111110 - encodersSize * 2
    partnerKeycodeCcw := 0b11111110 - encodersSize * 2 - 1 }

/-- `RotaryEncoder#call_proc_if`. -/
def callProcIf (e : Knob) (keycode : Int) : Option (Nat × Turn) :=
  if keycode = e.partnerKeycodeCw then some (e.id, .cw)
  else if keycode = e.partnerKeycodeCcw then some (e.id, .ccw)
  else none

/-- `RotaryEncoder#consume_rotation_partner`. -/
def consumeRotationPartner (e : Knob) (arrays : Encoders) : Int × Encoders :=
  match e.number with
  | none => (0, arrays)
  | some number =>
    let (value, arrays) := arrays.consumeEncoder number
    (if value = 1 then e.partnerKeycodeCw else if value = -1 then e.partnerKeycodeCcw else 0, arrays)

end Knob

/-- A half of a split keyboard: what `append` works on, and the arrays of its encoders. -/
structure Half where
  anchor : Bool
  anchorLeft : Bool
  arrays : Encoders
  encoders : List Knob
  partnerEncoders : List Knob

namespace Half

/-- `RotaryEncoder#init_pins`; `none` if it raises. -/
def initPins (h : Half) (e : Knob) (pinA pinB : UInt8) : Option (Half × Knob) := do
  let (arrays, number) ← h.arrays.initEncoder pinA pinB
  let number ← if h : number < maxEncoderCount then some (⟨number, h⟩ : Fin maxEncoderCount) else none
  return ({ h with arrays }, { e with number := some number })

/-- Whether the pins of an encoder are on this half. -/
def mine (h : Half) (e : Knob) : Bool := if h.anchorLeft then h.anchor == e.splitLeft else h.anchor != e.splitLeft

/-- `Keyboard#append` for an encoder and its pins. -/
def append (h : Half) (e : Knob) (pinA pinB : UInt8) : Option Half := do
  let e := e.createKeycodes h.partnerEncoders.length
  let (h, e) ← if h.mine e then (h.initPins e pinA pinB).map fun (h, e) => ({ h with encoders := h.encoders ++ [e] }, e)
    else some (h, e)
  if h.anchor && (h.anchorLeft != e.splitLeft) then return { h with partnerEncoders := h.partnerEncoders ++ [e] }
  else return h

end Half

/-! ## A round of the partner -/

/-- The encoders in turn: what is pushed of each, and the arrays. -/
def consumeAll : List Knob → Encoders → List Int × Encoders
  | [], arrays => ([], arrays)
  | e :: encoders, arrays =>
    let (data, arrays) := e.consumeRotationPartner arrays
    let (pushed, arrays) := consumeAll encoders arrays
    (if 0 < data then data :: pushed else pushed, arrays)

/-- A switch in eight bits. -/
def switchCode (switch : Switch) : Int := switch.1 * 2 ^ 5 + switch.2

/-- What the partner pushes. -/
def pushes (turned : List Int) (switches : List Switch) : List Int := turned ++ switches.map switchCode

/-- The word that the partner puts. -/
def partnerWord (turned : List Int) (switches : List Switch) : Nat :=
  ((pushes turned switches).foldl Uart.push8 Uart.idle).word

/-! ## A round of the anchor -/

def bytesOf (data24 : Nat) : List Nat := [data24 &&& 0xFF, (data24 >>> 8) &&& 0xFF, data24 >>> 16]

/-- The switches and the calls of Procs. -/
structure Received where
  switches : List Switch
  calls : List (Nat × Turn)
deriving DecidableEq, Repr

namespace Received

def byte (partnerEncoders : List Knob) (r : Received) (data : Nat) : Received :=
  if data = 0xFF then r
  else if 246 < data then { r with calls := r.calls ++ partnerEncoders.filterMap fun e => e.callProcIf data }
  else
    let switch : Switch := (data >>> 5, (data &&& 0b00011111 : Nat))
    if r.switches.contains switch then r else { r with switches := r.switches ++ [switch] }

end Received

/-- What the anchor makes of 24 bits. -/
def receive (partnerEncoders : List Knob) (switches : List Switch) (data24 : Nat) : Received :=
  (bytesOf data24).foldl (Received.byte partnerEncoders) ⟨switches, []⟩

/-! ## Three bytes -/

theorem or_shiftLeft {a n : Nat} (h : a < 2 ^ n) (b : Nat) : a ||| b <<< n = a + b * 2 ^ n := by
  rw [Nat.lor_comm, ← Nat.shiftLeft_add_eq_or_of_lt h, Nat.shiftLeft_eq, Nat.add_comm]

theorem bytesOf_eq (n : Nat) : bytesOf n = [n % 256, n / 256 % 256, n / 65536] := by
  have hmask : ∀ m : Nat, m &&& 0xFF = m % 256 := fun m => Nat.and_two_pow_sub_one_eq_mod m 8
  unfold bytesOf
  rw [hmask, hmask, Nat.shiftRight_eq_div_pow, Nat.shiftRight_eq_div_pow]

theorem byte_lt (b : UInt8) : b.toNat < 256 := b.toNat_lt

theorem bytesOf_sum {a b : Nat} (ha : a < 256) (hb : b < 256) (c : Nat) :
    bytesOf (a + 256 * (b + 256 * c)) = [a, b, c] := by
  have hlow : (a + 256 * (b + 256 * c)) % 256 = a := by omega
  have hmid : (a + 256 * (b + 256 * c)) / 256 % 256 = b := by omega
  have hhigh : (a + 256 * (b + 256 * c)) / 65536 = c := by omega
  rw [bytesOf_eq, hlow, hmid, hhigh]

theorem take_append_of_take (bytes more : List UInt8) (n : Nat) :
    (bytes.take n ++ more).take n = (bytes ++ more).take n := by
  have hlen : n - (bytes.take n).length = n - bytes.length := by
    rw [List.length_take]
    omega
  rw [List.take_append, List.take_append, List.take_take, Nat.min_self, hlen]

namespace Uart

/-- The bytes that have been pushed. -/
structure Holds (u : Uart) (bytes : List UInt8) : Prop where
  buffer : u.buffer = ofLittleEndian bytes
  index : u.bufferIndex = bytes.length
  room : bytes.length ≤ 3

theorem push8_byte (u : Uart) (hroom : u.bufferIndex ≤ 2) (b : UInt8) :
    u.push8 b.toNat = ⟨u.buffer ||| b.toNat <<< (u.bufferIndex * 8), u.bufferIndex + 1⟩ := by
  have hb := b.toNat_lt
  have hnat : (((b.toNat : Int) % 2 ^ 32).toNat) = b.toNat := by omega
  have hpow : 2 ^ (u.bufferIndex * 8) ≤ 2 ^ 16 := Nat.pow_le_pow_right (by decide) (by omega)
  have hfits : b.toNat <<< (u.bufferIndex * 8) < 2 ^ 32 := by
    rw [Nat.shiftLeft_eq]
    calc b.toNat * 2 ^ (u.bufferIndex * 8) ≤ 255 * 2 ^ 16 := Nat.mul_le_mul (by omega) hpow
      _ < 2 ^ 32 := by decide
  rw [push8, if_neg (by omega), hnat, Nat.mod_eq_of_lt hfits]

theorem ofLittleEndian_concat (bytes : List UInt8) (b : UInt8) :
    ofLittleEndian (bytes ++ [b]) = ofLittleEndian bytes + b.toNat * 256 ^ bytes.length := by
  induction bytes with
  | nil => simp [ofLittleEndian]
  | cons x bytes ih =>
    rw [List.cons_append, ofLittleEndian, ofLittleEndian, ih, List.length_cons, Nat.pow_succ]
    ring

theorem Holds.push8 {u : Uart} {bytes : List UInt8} (h : u.Holds bytes) (b : UInt8) :
    (u.push8 b.toNat).Holds ((bytes ++ [b]).take 3) := by
  have hindex := h.index
  have hroom := h.room
  by_cases hfull : 2 < u.bufferIndex
  · have hkeep : (bytes ++ [b]).take 3 = bytes := by
      rw [List.take_append_of_le_length (by omega), List.take_of_length_le hroom]
    rw [Uart.push8, if_pos hfull, hkeep]
    exact h
  · have hall : (bytes ++ [b]).take 3 = bytes ++ [b] := by
      apply List.take_of_length_le
      rw [List.length_append, List.length_singleton]
      omega
    have hlt : u.buffer < 2 ^ (u.bufferIndex * 8) := by
      rw [h.buffer, hindex, Nat.mul_comm, Nat.pow_mul]
      exact ofLittleEndian_lt
    rw [push8_byte u (by omega), hall]
    refine ⟨?_, ?_, ?_⟩
    · change u.buffer ||| b.toNat <<< (u.bufferIndex * 8) = _
      rw [or_shiftLeft hlt, h.buffer, hindex, ofLittleEndian_concat, Nat.mul_comm bytes.length, Nat.pow_mul]
    · rw [List.length_append, ← hindex]
      rfl
    · rw [List.length_append, List.length_singleton]
      omega

theorem holds_foldl (pushed : List UInt8) {u : Uart} {bytes : List UInt8} (h : u.Holds bytes) :
    ((pushed.map fun b => (b.toNat : Int)).foldl Uart.push8 u).Holds ((bytes ++ pushed).take 3) := by
  induction pushed generalizing u bytes with
  | nil =>
    rw [List.append_nil, List.take_of_length_le h.room]
    exact h
  | cons b pushed ih =>
    have hnext := ih (h.push8 b)
    rwa [take_append_of_take, List.append_assoc] at hnext

end Uart

/-- What is put has the first three bytes that were pushed; 0xFF stands for what is missing. -/
theorem bytesOf_word (pushed : List UInt8) :
    bytesOf ((pushed.map fun b => (b.toNat : Int)).foldl Uart.push8 Uart.idle).word =
      ((pushed.map UInt8.toNat) ++ List.replicate 3 0xFF).take 3 := by
  have hidle : Uart.idle.Holds [] := ⟨rfl, rfl, Nat.zero_le _⟩
  have hholds := Uart.holds_foldl pushed hidle
  rw [List.nil_append] at hholds
  generalize (pushed.map fun b => (b.toNat : Int)).foldl Uart.push8 Uart.idle = u at hholds
  have hbuffer := hholds.buffer
  have hindex := hholds.index
  unfold Uart.word
  rw [hindex, hbuffer]
  match pushed with
  | [] => rfl
  | [a] =>
    have hlt : ofLittleEndian [a] < 2 ^ 8 := ofLittleEndian_lt
    have hword : ofLittleEndian [a] ||| 0xFFFF00 = a.toNat + 256 * (255 + 256 * 255) := by
      refine (or_shiftLeft hlt 0xFFFF).trans ?_
      rw [ofLittleEndian, ofLittleEndian]
      omega
    change bytesOf (ofLittleEndian [a] ||| 0xFFFF00) = [a.toNat, 255, 255]
    rw [hword, bytesOf_sum (byte_lt a) (by decide)]
  | [a, b] =>
    have hlt : ofLittleEndian [a, b] < 2 ^ 16 := calc
      ofLittleEndian [a, b] < 256 ^ 2 := ofLittleEndian_lt
      _ = 2 ^ 16 := by decide
    have hword : ofLittleEndian [a, b] ||| 0xFF0000 = a.toNat + 256 * (b.toNat + 256 * 255) := by
      refine (or_shiftLeft hlt 0xFF).trans ?_
      rw [ofLittleEndian, ofLittleEndian, ofLittleEndian]
      omega
    change bytesOf (ofLittleEndian [a, b] ||| 0xFF0000) = [a.toNat, b.toNat, 255]
    rw [hword, bytesOf_sum (byte_lt a) (byte_lt b)]
  | a :: b :: c :: rest =>
    change bytesOf (a.toNat + 256 * (b.toNat + 256 * (c.toNat + 256 * 0))) = [a.toNat, b.toNat, c.toNat]
    rw [bytesOf_sum (byte_lt a) (byte_lt b)]
    rfl

/-! ## What the anchor makes of them -/

/-- The switch that a byte stands for. -/
def switchOf (data : Nat) : Switch := (data >>> 5, (data &&& 0b00011111 : Nat))

/-- A switch that has a code of its own. -/
def InRange (switch : Switch) : Prop := switch.1 < 8 ∧ 0 ≤ switch.2 ∧ switch.2 < 32

instance (switch : Switch) : Decidable (InRange switch) := inferInstanceAs (Decidable (_ ∧ _))

theorem InRange.code {switch : Switch} (h : InRange switch) :
    ∃ b : UInt8, switchCode switch = b.toNat ∧ switchOf b.toNat = switch := by
  obtain ⟨row, col⟩ := switch
  obtain ⟨hrow, hlow, hhigh⟩ := h
  dsimp only at hrow hlow hhigh
  obtain ⟨c, rfl⟩ := Int.eq_ofNat_of_zero_le hlow
  have hmask : ∀ m : Nat, m &&& 0b00011111 = m % 32 := fun m => Nat.and_two_pow_sub_one_eq_mod m 5
  have hb : (UInt8.ofNat (row * 32 + c)).toNat = row * 32 + c := UInt8.toNat_ofNat_of_lt' (by
    change row * 32 + c < 256
    omega)
  refine ⟨UInt8.ofNat (row * 32 + c), ?_, ?_⟩
  · rw [hb]
    unfold switchCode
    dsimp only
    omega
  · rw [hb]
    unfold switchOf
    rw [hmask, Nat.shiftRight_eq_div_pow]
    have hdiv : (row * 32 + c) / 2 ^ 5 = row := by omega
    have hmod : (row * 32 + c) % 32 = c := by omega
    rw [hdiv, hmod]

namespace Received
variable {partnerEncoders : List Knob} {r : Received} {data : List Nat} {switch : Switch}

theorem byte_calls (partnerEncoders : List Knob) (r : Received) (d : Nat) :
    (r.byte partnerEncoders d).calls =
      r.calls ++ if 246 < d ∧ d ≠ 0xFF then partnerEncoders.filterMap fun e => e.callProcIf d else [] := by
  unfold byte
  by_cases hnone : d = 0xFF
  · rw [if_pos hnone, if_neg fun h => h.2 hnone, List.append_nil]
  by_cases hcode : 246 < d
  · rw [if_neg hnone, if_pos hcode, if_pos ⟨hcode, hnone⟩]
  have hquiet : ¬ (246 < d ∧ d ≠ 0xFF) := fun h => hcode h.1
  rw [if_neg hnone, if_neg hcode, if_neg hquiet, List.append_nil]
  dsimp only
  split
  · rfl
  · rfl

theorem foldl_calls : (data.foldl (byte partnerEncoders) r).calls = r.calls ++
    (data.filter fun d => 246 < d ∧ d ≠ 0xFF).flatMap fun d => partnerEncoders.filterMap fun e => e.callProcIf d := by
  induction data generalizing r with
  | nil => simp
  | cons d data ih =>
    rw [List.foldl_cons, ih, byte_calls, List.append_assoc]
    congr 1
    by_cases hcode : 246 < d ∧ d ≠ 0xFF
    · rw [if_pos hcode, List.filter_cons_of_pos (by simpa using hcode), List.flatMap_cons]
    · rw [if_neg hcode, List.filter_cons_of_neg (by simpa using hcode), List.nil_append]

end Received

end PicoRuby.Keyboard
