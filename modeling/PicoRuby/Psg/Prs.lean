import PicoRuby.Psg.Driver
import PicoRuby.Shared.Records

/-!
# PRS

The file that `PRS::Compiler` writes for a song, and how `play_prs` plays it.
-/

namespace PicoRuby.Psg

open Shared

set_option autoImplicit false

/-- What is raised. -/
inductive PrsError where
  | compile (x : Failure)
  | running
  | zeroDivision
  | noMethod
  | headerSize
  | signature
deriving DecidableEq, Repr

/-- `"PRS\\0"`. -/
def signature : Bytes := [80, 82, 83, 0]

def prsVersion : Bytes := [0, 1]

def headerSize : Nat := 32

def lengthOffset : Nat := 8

def loopStartOffset : Nat := 12

def opMute : Nat := 0x10
def opSendReg : Nat := 0x20
def opSetLegato : Nat := 0x30
def opSetPan : Nat := 0x40
def opSetTimbre : Nat := 0x50
def opSetLfo : Nat := 0x60
def opWait : Nat := 0x70

def chipClock : Int := 2000000

/-! ## PRS::Compiler -/

/-- `(value & 0xFF).chr`. -/
def chr (value : Int) : UInt8 := UInt8.ofNat (value % 256).toNat

/-- The code of `gen2`. -/
def gen2 (op reg : Nat) (value : Int) : Bytes := [chr (op ||| (reg &&& 0xF) : Nat), chr value]

/-- The code of `gen4`. -/
def gen4 (op reg : Nat) (val1 val2 val3 : Int) : Bytes :=
  [chr (op ||| (reg &&& 0xF) : Nat), chr val1, chr val2, chr val3]

/-- What the compiler has written behind the header, with `@length` and the locals of `save_to`. -/
structure Compiler where
  body : Bytes
  length : Nat
  mixer : Nat
  loopStartPos : Nat

/-- A code is written and counted. -/
def Compiler.gen (c : Compiler) (code : Bytes) : Compiler :=
  { c with body := c.body ++ code, length := c.length + code.length }

/-- `(chip_clock / (32 * args[0])).to_i`. -/
def pitchValue (arg0 : Int) : Except PrsError Int :=
  if arg0 = 0 then throw .zeroDivision else return Int.fdiv chipClock (32 * arg0)

/-- `OP_WAIT` for a delta. -/
def waitCode (delta : Int) : Bytes :=
  if 0 < delta then gen4 opWait 0 (delta % 256) (delta / 256 % 256) (delta / 65536 % 256) else []

/-- The branches of `case command`: the mixer and the code. There is none for `:legato`, and `:lfo` has
no `args[1]`. -/
def commandCode (mixer : Nat) (y : Yield) : Except PrsError (Nat × Bytes) :=
  match y.command with
  | .segno => return (mixer, [])
  | .mute => return (mixer, gen2 opMute y.track y.arg0)
  | .play => do
    let value ← pitchValue y.arg0
    return (mixer, gen2 opSendReg (y.track * 2) (value % 256) ++
      gen2 opSendReg (y.track * 2 + 1) (value / 256 % 16))
  | .volume => return (mixer, gen2 opSendReg (y.track + 8) y.arg0)
  | .envPeriod => return (mixer, gen2 opSendReg 11 (y.arg0 % 256) ++
      gen2 opSendReg 12 (y.arg0 / 256 % 256))
  | .envShape => return (mixer, gen2 opSendReg 13 y.arg0)
  | .timbre => return (mixer, gen2 opSetTimbre y.track y.arg0)
  | .pan => return (mixer, gen2 opSetPan y.track y.arg0)
  | .lfo => throw .noMethod
  | .mixer =>
    let mixer := mixerAfter mixer y.track y.arg0
    return (mixer, gen2 opSendReg 7 mixer)
  | .noise => return (mixer, gen2 opSendReg 6 y.arg0)
  | .legato => return (mixer, [])

/-- The block in `save_to`. -/
def saveYield (c : Compiler) (y : Yield) : Except PrsError Compiler := do
  let c := c.gen (waitCode y.delta)
  let c := if y.command = .segno then { c with loopStartPos := c.length + headerSize } else c
  let (mixer, code) ← commandCode c.mixer y
  return { c with mixer }.gen code

/-- The header as it is written at first, with the song name in 16 bytes. -/
def placeholderHeader (size : Nat) (songname : Bytes) : Bytes :=
  signature ++ prsVersion ++ [UInt8.ofNat size] ++ [0] ++ [0, 0, 0, 0] ++ [0, 0, 0, 0] ++
    (songname.take 16 ++ List.replicate (16 - (songname.take 16).length) 0)

/-- The file with the length and the loop start written over their placeholders. -/
def Compiler.file (c : Compiler) (size : Nat) (songname : Bytes) : Bytes :=
  overwrite
    (overwrite (placeholderHeader size songname ++ c.body) lengthOffset (toLittleEndian 4 c.length))
    loopStartOffset (toLittleEndian 4 c.loopStartPos)

/-- `PRS::Compiler.save`. -/
def save (F : Type) [MmlFloat F] (fuel steps : Nat) (tracks : List Bytes) (songname : Bytes) :
    Except PrsError Bytes := do
  let (yields, ending) := compileMulti F true false fuel steps tracks
  let c ← yields.foldlM saveYield ⟨[], 0, mixerAtFirst, 0⟩
  match ending with
  | .returned _ => return c.file tracks.length songname
  | .raised x => throw (.compile x)
  | .running => throw .running

/-! ## play_prs -/

/-- `val | (val2 << 8) | (val3 << 16)`. -/
def waitValue (val val2 val3 : UInt8) : Nat :=
  val.toNat ||| val2.toNat <<< 8 ||| val3.toNat <<< 16

/-- What stands at a place of the file. -/
inductive PrsStep where
  | wait (delta : Nat)
  | issue (c : Invoke)
  | skip
deriving DecidableEq, Repr

/-- The branches of `case op & 0xF0`, with the bytes behind. None is that bytes are missing. -/
def readStep (op val : UInt8) (rest : Bytes) : Option (PrsStep × Bytes) :=
  let code := op.toNat &&& 0xF0
  let track := op.toNat &&& 0x0F
  if code = opWait then
    match rest with
    | val2 :: val3 :: rest => some (.wait (waitValue val val2 val3), rest)
    | _ => none
  else if code = opMute then some (.issue (.mute track val.toNat), rest)
  else if code = opSendReg then some (.issue (.sendReg track val.toNat), rest)
  else if code = opSetLegato then some (.issue (.setLegato track val.toNat), rest)
  else if code = opSetPan then some (.issue (.setPan track val.toNat), rest)
  else if code = opSetTimbre then some (.issue (.setTimbre track val.toNat), rest)
  else if code = opSetLfo then
    match rest with
    | val2 :: val3 :: rest => some (.issue (.setLfo val.toNat val2.toNat val3.toNat), rest)
    | _ => none
  else some (.skip, rest)

/-- How `play_prs` ends: behind the last command, where bytes are missing, or by a raise. `running` is
that the fuel is used up. -/
inductive PrsEnding where
  | finished
  | cut
  | raised
  | running
deriving DecidableEq, Repr

/-- The loop in `play_prs`, with the bytes from its position on. -/
def playSteps (file : Bytes) (loopStartPos : Nat) : Nat → Bytes → Nat → List Delayed × PrsEnding
  | 0, _, _ => ([], .running)
  | fuel + 1, op :: val :: rest, delta =>
    match readStep op val rest with
    | none => ([], .cut)
    | some (.wait delta, rest) => playSteps file loopStartPos fuel rest delta
    | some (.skip, rest) => playSteps file loopStartPos fuel rest 0
    | some (.issue c, rest) =>
      if c.rejected then (muteAll 3 1 0, .raised)
      else
        let later := playSteps file loopStartPos fuel rest 0
        ((delta, c) :: later.1, later.2)
  | fuel + 1, _, delta =>
    if 0 < loopStartPos then
      let later := playSteps file loopStartPos fuel (file.drop loopStartPos) delta
      (muteAll 3 0 0 ++ later.1, later.2)
    else ([], .finished)

/-- `header[offset, 4]` as a number. -/
def headerNumber (header : Bytes) (offset : Nat) : Nat :=
  ofLittleEndian ((header.drop offset).take 4)

/-- `PRS.check_header`. -/
def checkHeader (header : Bytes) : Except PrsError (Nat × Nat) :=
  if header.length < headerSize then throw .headerSize
  else if header.take 4 ≠ signature then throw .signature
  else return (headerNumber header lengthOffset, headerNumber header loopStartOffset)

def playPrs (fuel : Nat) (file : Bytes) : List Delayed × PrsEnding :=
  match checkHeader (file.take headerSize) with
  | .error _ => (muteAll 3 1 0, .raised)
  | .ok (_, loopStartPos) => playSteps file loopStartPos fuel (file.drop headerSize) 0

end PicoRuby.Psg
