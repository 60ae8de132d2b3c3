import Mathlib.Data.List.Basic
import Mathlib.Algebra.Order.Field.Rat
import Mathlib.Algebra.Order.Round
import Mathlib.Data.Rat.Floor

/-!
# MML

The parser of mml.rb: a track becomes events, one for each call of `reduce_next`. A track is the
list of its bytes and the Float arithmetic is a parameter. `@loop` never changes and is passed along.
With it `reduce_next` may go on without an end, so its loop has a number of passes.
-/

namespace PicoRuby.Psg

set_option autoImplicit false

abbrev Bytes := List UInt8

/-! ## Floats -/

/-- What the parser does with Floats. `toI` is `to_i`, which raises for a NaN and an infinity. -/
class MmlFloat (F : Type) where
  ofInt : Int → F
  /-- The literal `n` with so many decimals. -/
  decimal : Nat → Nat → F
  add : F → F → F
  mul : F → F → F
  div : F → F → F
  pow : F → F → F
  toI : F → Option Int

/-- Exact arithmetic, to run the definitions; powers with whole exponents. -/
instance : MmlFloat Rat where
  ofInt n := n
  decimal n decimals := n / 10 ^ decimals
  add := (· + ·)
  mul := (· * ·)
  div := (· / ·)
  pow b e := if 0 ≤ e then b ^ e.floor.toNat else 1 / b ^ (-e).floor.toNat
  toI x := some (if 0 ≤ x then x.floor else x.ceil)

/-! ## Events -/

inductive Command where
  | segno
  | timbre
  | play
  | mute
  | lfo
  | pan
  | volume
  | envShape
  | envPeriod
  | mixer
  | noise
  | legato
deriving DecidableEq, Repr

structure Event where
  command : Command
  arg0 : Int
  arg1 : Int
deriving DecidableEq, Repr

/-- What is raised. -/
inductive MmlError where
  | noTracks
  | tooManyTracks (size : Nat)
  | loopNestingTooDeep
  | invalidCharacter (trackId : Nat) (c : Nat) (position : Nat)
  | comparisonOfNil
  | divisionByNil
  | floatDomain
deriving DecidableEq, Repr

/-- Why there is no next event: something is raised, or the passes of the loop are used up. -/
inductive Failure where
  | raised (e : MmlError)
  | endless
deriving DecidableEq, Repr

/-! ## expand -/

def isDigit (c : UInt8) : Bool := 48 ≤ c && c ≤ 57

/-- The number that digits make. -/
def number (digits : Bytes) : Nat := digits.foldl (fun val c => val * 10 + (c.toNat - 48)) 0

/-- `expand`: what the loops in `str` come to behind `result`, and the rest of `str` behind the `]`
that ends it. The fuel is enough if there is one for each byte. -/
def expand : Nat → Bytes → Nat → Bytes → Except MmlError (Bytes × Bytes)
  | 0, str, _, result => .ok (result, str)
  | _ + 1, [], _, result => .ok (result, [])
  | fuel + 1, c :: str, depth, result =>
    if c = 91 then
      if 8 < depth + 1 then throw .loopNestingTooDeep
      else do
        let (inner, rest) ← expand fuel str (depth + 1) []
        let count := number (rest.takeWhile isDigit)
        expand fuel (rest.dropWhile isDigit) depth (result ++ (List.replicate count inner).flatten)
    else if c = 93 then return (result, str)
    else if c = 124 then expand fuel str depth result
    else expand fuel str depth (result ++ [c])

def expandLoops (str : Bytes) : Except MmlError Bytes := do
  let (result, _) ← expand str.length str 0 []
  return result

def downcase (str : Bytes) : Bytes := str.map fun c => if 65 ≤ c ∧ c ≤ 90 then c + 32 else c

/-! ## The parser -/

/-- `modRate` is the local `mod_rate` of `reduce_next`, which its loop does not reset. -/
structure Mml where
  trackId : Nat
  raiseErr : Bool
  octave : Int
  tempo : Nat
  q : Int
  transpose : Int
  detune : Nat
  track : Bytes
  cursor : Nat
  commonDuration : Int
  eventQueue : List Event
  segnoPos : Nat
  finished : Bool
  modRate : Option Nat

namespace Mml
section Float
variable (F : Type) [MmlFloat F]
open MmlFloat

def durationBase : F := ofInt (1000 * 60 * 4)

/-- `(x + 0.5).to_i`. -/
def rounded (x : F) : Except MmlError Int :=
  match toI (add x (decimal 5 1)) with
  | some n => return n
  | none => throw .floatDomain

def updateCommonDuration (fraction : F) (m : Mml) : Except MmlError Mml := do
  let commonDuration ← rounded F (div (div (durationBase F) (ofInt m.tempo)) fraction)
  return { m with commonDuration }

/-- `MML.new`. -/
def new (trackId : Nat) (track : Bytes) (exception : Bool) : Except MmlError Mml := do
  let expanded ← expandLoops track
  updateCommonDuration F (ofInt 4) {
    trackId
    raiseErr := exception
    octave := 4
    tempo := 120
    q := 8
    transpose := 0
    detune := 0
    track := downcase expanded
    cursor := 0
    commonDuration := 0
    eventQueue := []
    segnoPos := 0
    finished := false
    modRate := none }

/-- `@track.getbyte(i)`. -/
def getbyte (m : Mml) (i : Nat) : Option Nat := m.track[i]?.map UInt8.toNat

def pushEvent (m : Mml) (command : Command) (arg0 arg1 : Int) : Mml :=
  { m with eventQueue := m.eventQueue ++ [⟨command, arg0, arg1⟩] }

/-- Past the cursor by so many bytes. -/
def move (m : Mml) (n : Nat) : Mml := { m with cursor := m.cursor + n }

/-- The bytes behind the cursor that are there for `subvalue` and `punti_coef` to read. -/
def behind (m : Mml) (p : UInt8 → Bool) : Bytes := (m.track.drop (m.cursor + 1)).takeWhile p

/-- `subvalue`: the number behind the cursor, where 0 is nil. -/
def subvalue (m : Mml) : Option Nat × Mml :=
  let digits := m.behind isDigit
  let val := number digits
  (if val = 0 then none else some val, m.move digits.length)

/-- `COEF_TABLE[punti] || 2.0`. -/
def coefTable (punti : Nat) : F :=
  if punti = 0 then decimal 10 1
  else if punti = 1 then decimal 15 1
  else if punti = 2 then decimal 175 2
  else if punti = 3 then decimal 1875 3
  else decimal 20 1

/-- `punti_coef`: the dots behind the cursor. -/
def puntiCoef (m : Mml) : F × Mml :=
  let punti := (m.behind (· = 46)).length
  (coefTable F punti, m.move punti)

/-- `NOTES[note]`, with the notes in the order of the table. -/
def notes (note : Nat) : Int :=
  if note = 97 then 0
  else if note = 98 then 2
  else if note = 99 then 3
  else if note = 100 then 5
  else if note = 101 then 7
  else if note = 102 then 8
  else 10

/-- `2 << n`, to the right for a negative `n`. -/
def twoShifted (n : Int) : Int := if 0 ≤ n then 2 <<< n.toNat else 2 >>> (-n).toNat

/-- `PERIOD_FACTOR`, which is an Integer. -/
def periodFactor : Int := 2000000 / 32

/-- The pitch of a note. -/
def pitch (m : Mml) (octaveFix val : Int) : F :=
  let pitch : F := mul (mul (decimal 6875 3) (ofInt (twoShifted (m.octave + octaveFix))))
    (pow (ofInt 2) (div (ofInt val) (decimal 120 1)))
  let pitch := if m.transpose ≠ 0 then
    mul pitch (pow (ofInt 2) (div (ofInt m.transpose) (decimal 120 1))) else pitch
  if m.detune ≠ 0 then
    div pitch (pow (ofInt 2) (div (ofInt m.detune) (decimal 1280 1))) else pitch

def getTonePeriod (m : Mml) (note : Nat) (semitone : Option Nat) : Except MmlError (Int × Mml) :=
  let octaveFix : Int := if note = 97 ∨ note = 98 then 1 else 0
  let (octaveFix, val, m) : Int × Int × Mml :=
    if semitone = some 45 then
      if note = 97 then (0, notes note + 11, m.move 1) else (octaveFix, notes note - 1, m.move 1)
    else if semitone = some 43 ∨ semitone = some 35 then (octaveFix, notes note + 1, m.move 1)
    else (octaveFix, notes note, m)
  match toI (div (ofInt periodFactor) (m.pitch F octaveFix val)) with
  | some period => return (period, m)
  | none => throw .floatDomain

/-- `[value, 15].min`. -/
def min15 (value : Option Nat) : Except MmlError Nat :=
  match value with
  | some n => return min n 15
  | none => throw .comparisonOfNil

/-- The tone period of a note or a rest, which has -1. -/
def tonePeriod (m : Mml) (c : Nat) : Except MmlError (Int × Mml) :=
  if c = 114 then return (-1, m) else m.getTonePeriod F c (m.getbyte (m.cursor + 1))

/-- The length that stands behind a note or a rest. -/
def noteLength (m : Mml) : Except MmlError (Int × Mml) :=
  match m.getbyte (m.cursor + 1) with
  | none => return (m.commonDuration, m)
  | some b =>
    if (49 ≤ b ∧ b ≤ 57) ∨ b = 46 then
      let (fraction, m) := m.subvalue
      let (coef, m) := m.puntiCoef F
      let length : F := match fraction with
        | none => ofInt m.commonDuration
        | some fraction => div (div (durationBase F) (ofInt m.tempo)) (ofInt fraction)
      do
        let length ← rounded F (mul length coef)
        return (length, m)
    else return (m.commonDuration, m)

/-- The part of a length that sounds. -/
def sustainOf (m : Mml) (tonePeriod length : Int) : Except MmlError Int :=
  if tonePeriod < 0 then return 0
  else if m.q = 8 then return length
  else match toI (mul (div (ofInt length) (decimal 80 1)) (ofInt m.q) : F) with
    | some sustain => return sustain
    | none => throw .floatDomain

/-- The branch of `j`. -/
def lfoCommand (m : Mml) : Mml :=
  match m.subvalue with
  | (none, m) => m
  | (some depth, m) =>
    let m := if m.getbyte (m.cursor + 1) = some 44 then
        let (modRate, m) := (m.move 1).subvalue
        { m with modRate }
      else m
    m.pushEvent .lfo (depth * 100) (m.modRate.getD 0)

/-- The branch of `k`. The sign is a byte and is compared with a String, so it is never `"+"`. -/
def transposeCommand (m : Mml) : Mml :=
  let sign := m.getbyte (m.cursor + 1)
  if sign = some 43 ∨ sign = some 45 then
    let (n, m) := (m.move 1).subvalue
    { m with transpose := -(n.getD 0 : Int) }
  else m

/-- The byte behind the cursor, which moves there. -/
def letter (m : Mml) (default : Nat) : Int × Mml :=
  let m := m.move 1
  ((m.getbyte m.cursor).getD default, m)

/-- The branches of `case c` but for notes and rests. -/
def command (m : Mml) (c : Nat) : Except MmlError Mml :=
  if c = 36 then return { m with segnoPos := m.cursor + 1 }.pushEvent .segno 0 0
  else if c = 60 then return { m with octave := if 1 < m.octave then m.octave - 1 else m.octave }
  else if c = 62 then return { m with octave := if m.octave < 8 then m.octave + 1 else m.octave }
  else if c = 64 then
    let (timbre, m) := m.letter 48
    return m.pushEvent .timbre (timbre - 48) 0
  else if c = 106 then return m.lfoCommand
  else if c = 107 then return m.transposeCommand
  else if c = 108 then
    match m.subvalue with
    | (none, m) => return m
    | (some fraction, m) =>
      let (coef, m) := m.puntiCoef F
      m.updateCommonDuration F (mul (ofInt fraction) coef)
  else if c = 111 then
    let (octave, m) := m.letter 52
    return { m with octave := octave - 48 }
  else if c = 112 then do
    let (value, m) := m.subvalue
    let pan ← min15 value
    return m.pushEvent .pan pan 0
  else if c = 113 then
    let (q, m) := m.letter 56
    return { m with q := if q - 48 < 1 ∨ 8 < q - 48 then 8 else q - 48 }
  else if c = 115 then
    let (value, m) := (m.pushEvent .volume 16 0).subvalue
    return m.pushEvent .envShape (value.getD 0 &&& 0x0F : Nat) 0
  else if c = 109 then
    let (value, m) := m.subvalue
    return m.pushEvent .envPeriod (value.getD 0 &&& 0xFFFF : Nat) 0
  else if c = 116 then
    match m.subvalue with
    | (none, _) => throw .divisionByNil
    | (some tempo, m) => { m with tempo }.updateCommonDuration F (ofInt 4)
  else if c = 118 then do
    let (value, m) := m.subvalue
    let volume ← min15 value
    return m.pushEvent .volume volume 0
  else if c = 120 then
    let (mixer, m) := m.letter 0
    return m.pushEvent .mixer mixer 0
  else if c = 121 then
    let (noise, m) := m.letter 0
    return m.pushEvent .noise noise 0
  else if c = 122 then
    let (detune, m) := m.subvalue
    return { m with detune := detune.getD 0 }
  else if c = 123 then return m.pushEvent .legato 1 0
  else if c = 125 then return m.pushEvent .legato 0 0
  else if c = 32 ∨ c = 124 then return m
  else if m.raiseErr then throw (.invalidCharacter m.trackId c m.cursor)
  else return m

/-- The events of a note or a rest. -/
def pushNote (m : Mml) (tonePeriod sustain release : Int) : Mml :=
  let m := if 0 < sustain then m.pushEvent .play tonePeriod sustain else m
  if 0 < release then (m.pushEvent .mute 1 release).pushEvent .mute 0 0 else m

/-- A note or a rest, and `@cursor += 1`. -/
def note (m : Mml) (c : Nat) : Except MmlError Mml := do
  let (period, m) ← m.tonePeriod F c
  let (length, m) ← m.noteLength F
  let m := m.move 1
  let sustain ← m.sustainOf F period length
  return m.pushNote period sustain (length - sustain)

/-- One pass of the loop in `reduce_next`, and whether it breaks. -/
def pass (loop : Bool) (m : Mml) : Except MmlError (Mml × Bool) :=
  match m.getbyte m.cursor with
  | none =>
    if loop ∧ 0 < m.segnoPos then return ({ m with cursor := m.segnoPos }, false)
    else return ({ m with finished := true }.pushEvent .mute 1 0, true)
  | some c =>
    if (97 ≤ c ∧ c ≤ 103) ∨ c = 114 then do
      let m ← m.note F c
      return (m, !m.eventQueue.isEmpty)
    else do
      let m ← m.command F c
      return (m.move 1, false)

/-- The loop in `reduce_next`. -/
def passes (loop : Bool) : Nat → Mml → Except Failure Mml
  | 0, _ => .error .endless
  | fuel + 1, m =>
    match m.pass F loop with
    | .error e => .error (.raised e)
    | .ok (m, stop) => if stop then .ok m else passes loop fuel m

def shiftEvent (m : Mml) : Option (Event × Mml) :=
  match m.eventQueue with
  | [] => none
  | event :: events => some (event, { m with eventQueue := events })

def reduceNext (loop : Bool) (fuel : Nat) (m : Mml) : Except Failure (Option (Event × Mml)) :=
  if m.eventQueue ≠ [] then return m.shiftEvent
  else if m.finished then return none
  else do
    let m ← passes F loop fuel { m with modRate := none }
    return m.shiftEvent

end Float
end Mml

end PicoRuby.Psg
