import PicoRuby.Psg.Packets

/-!
# The sound engine of picoruby-psg

What psg.c does with a packet and how it calculates a sample. An index outside of its array is `none`.
-/

namespace PicoRuby.Psg

open Shared

set_option autoImplicit false

/-- `env_*` of one track. -/
structure Envelope where
  cnt : UInt16
  level : UInt8
  dir : UInt8
  running : Bool
  cont : UInt8
  attack : UInt8
  alternate : UInt8
  hold : UInt8
deriving DecidableEq, Repr

/-- One track of the arrays of `psg_t`, all of which have three. -/
structure Track where
  tonePeriod : UInt16
  volume : UInt8
  toneInc : UInt32
  tonePhase : UInt32
  env : Envelope
  legato : Bool
  lfoPhase : UInt16
  lfoInc : UInt16
  lfoDepth : UInt8
  pan : UInt8
  timbre : UInt8
deriving DecidableEq, Repr

/-- `psg_t`. -/
structure PsgState where
  track : Fin 3 → Track
  noisePeriod : UInt8
  mixer : UInt8
  envelopePeriod : UInt16
  envelopeShape : UInt8
  noiseShift : UInt32
  noiseCnt : UInt32
  muteMask : UInt8

/-- `reset_psg`. -/
def resetPsg : PsgState where
  track := fun _ =>
    { tonePeriod := 0, volume := 15, toneInc := 0, tonePhase := 0
      env := ⟨0, 0, 0, false, 0, 0, 0, 0⟩
      legato := false, lfoPhase := 0, lfoInc := 0, lfoDepth := 0, pan := 8, timbre := 0 }
  noisePeriod := 0
  mixer := 0x38
  envelopePeriod := 0
  envelopeShape := 0
  noiseShift := 0
  noiseCnt := 0
  muteMask := 0x07

/-! ## Packets -/

def sampleRate : Nat := 22050

/-- `CHIP_CLOCK`. -/
def chipClockHz : Nat := 2000000

/-- `calc_inc`. -/
def calcInc (period : UInt16) : UInt32 :=
  if period = 0 then 0
  else UInt32.ofNat (((chipClockHz / (32 * period.toNat)) <<< 32) / sampleRate)

/-- `RESET_ENVELOPE`. -/
def Envelope.reset (e : Envelope) : Envelope :=
  { e with
    dir := e.attack
    level := if e.attack ≠ 0 then 0 else 15
    running := true
    cnt := 0 }

def Track.usesEnvelope (t : Track) : Bool := t.volume &&& 0x10 ≠ 0

namespace Track

/-- The registers 0, 2 and 4. -/
def writeToneLsb (t : Track) (val : UInt8) : Track :=
  { t with tonePeriod := (t.tonePeriod &&& (0x0F00 : UInt16)) ||| val.toUInt16 }

/-- The registers 1, 3 and 5. -/
def writeToneMsb (t : Track) (val : UInt8) : Track :=
  let tonePeriod := (t.tonePeriod &&& (0x00FF : UInt16)) ||| ((val &&& 0x0F).toUInt16 <<< 8)
  { t with
    tonePeriod
    toneInc := calcInc tonePeriod
    env := if t.usesEnvelope && !t.legato then t.env.reset else t.env }

/-- The registers 8, 9 and 10. -/
def writeVolume (t : Track) (val : UInt8) : Track := { t with volume := val &&& 0x1F }

/-- What register 13 does with each track. -/
def writeShape (t : Track) (val : UInt8) : Track :=
  { t with env := { t.env with
      cont := (val >>> 3) &&& 1
      attack := (val >>> 2) &&& 1
      alternate := (val >>> 1) &&& 1
      hold := val &&& 1 }.reset }

def setLfo (t : Track) (depth rate : UInt8) : Track :=
  { t with lfoDepth := depth, lfoInc := UInt16.ofNat (rate.toNat * 65536 / 1000) }

end Track

namespace PsgState

def setTrack (s : PsgState) (tr : Fin 3) (t : Track) : PsgState :=
  { s with track := Function.update s.track tr t }

/-- `PSG_write_reg`. -/
def writeReg (s : PsgState) (reg val : UInt8) : PsgState :=
  match reg.toNat with
  | 0 => s.setTrack 0 ((s.track 0).writeToneLsb val)
  | 1 => s.setTrack 0 ((s.track 0).writeToneMsb val)
  | 2 => s.setTrack 1 ((s.track 1).writeToneLsb val)
  | 3 => s.setTrack 1 ((s.track 1).writeToneMsb val)
  | 4 => s.setTrack 2 ((s.track 2).writeToneLsb val)
  | 5 => s.setTrack 2 ((s.track 2).writeToneMsb val)
  | 6 => { s with noisePeriod := val &&& 0x1F }
  | 7 => { s with mixer := val &&& 0x3F }
  | 8 => s.setTrack 0 ((s.track 0).writeVolume val)
  | 9 => s.setTrack 1 ((s.track 1).writeVolume val)
  | 10 => s.setTrack 2 ((s.track 2).writeVolume val)
  | 11 => { s with envelopePeriod := (s.envelopePeriod &&& (0xFF00 : UInt16)) ||| val.toUInt16 }
  | 12 => { s with envelopePeriod := (s.envelopePeriod &&& (0x00FF : UInt16)) ||| (val.toUInt16 <<< 8) }
  | 13 =>
    { s with
      envelopeShape := val &&& 0x0F
      track := fun tr => (s.track tr).writeShape val }
  | _ => s

/-- An index of the arrays of `psg_t`. -/
def index (tr : UInt8) : Option (Fin 3) :=
  if h : tr.toNat < 3 then some ⟨tr.toNat, h⟩ else none

/-- `psg_opcode_t`. -/
def pktRegWrite : UInt8 := 0
def pktLfoSet : UInt8 := 1
def pktChMute : UInt8 := 2
def pktPanSet : UInt8 := 3
def pktTimbreSet : UInt8 := 4
def pktLegatoSet : UInt8 := 5

def maxLfoDepth : Nat := 127
def maxLfoRate : Nat := 255

/-- A packet that sets something of the track `pkt->reg & 0x03`. -/
def setOfTrack (s : PsgState) (pkt : Packet) (f : Track → Track) : Option PsgState := do
  let tr ← index (pkt.reg &&& 0x03)
  return s.setTrack tr (f (s.track tr))

/-- `PSG_PKT_CH_MUTE`. -/
def setMute (s : PsgState) (pkt : Packet) : PsgState :=
  let bit := (1 : UInt8) <<< (pkt.reg &&& 0x03)
  { s with muteMask := if pkt.val ≠ 0 then s.muteMask ||| bit else s.muteMask &&& ~~~bit }

/-- `PSG_process_packet`. -/
def processPacket (s : PsgState) (pkt : Packet) : Option PsgState :=
  if pkt.op = pktRegWrite then some (s.writeReg pkt.reg pkt.val)
  else if pkt.op = pktLfoSet then
    if maxLfoDepth < pkt.val.toNat ∨ maxLfoRate < pkt.arg.toNat then some s
    else s.setOfTrack pkt fun t => t.setLfo pkt.val pkt.arg
  else if pkt.op = pktChMute then some (s.setMute pkt)
  else if pkt.op = pktPanSet then s.setOfTrack pkt fun t => { t with pan := pkt.val &&& 0x0F }
  else if pkt.op = pktTimbreSet then s.setOfTrack pkt fun t => { t with timbre := pkt.val }
  else if pkt.op = pktLegatoSet then s.setOfTrack pkt fun t => { t with legato := pkt.val ≠ 0 }
  else some s

end PsgState

/-! ## Samples -/

/-- The end of the envelope is reached, in the direction it has. -/
def Envelope.atEnd (e : Envelope) : Bool := if e.dir ≠ 0 then ¬ e.level < 15 else ¬ 0 < e.level

/-- A step of the envelope, and whether `update_envelope` returns from it. -/
def Envelope.advance (e : Envelope) : Envelope × Bool :=
  if !e.atEnd then ({ e with level := if e.dir ≠ 0 then e.level + 1 else e.level - 1 }, true)
  else if e.cont = 0 then ({ e with running := false }, true)
  else if e.hold ≠ 0 then ({ e with running := false }, true)
  else
    let dir := if e.alternate ≠ 0 then e.dir ^^^ 1 else e.attack
    ({ e with dir, level := if dir ≠ 0 then 0 else 15 }, false)

/-- The body of the loop in `update_envelope`, and whether it returns. -/
def Envelope.update (e : Envelope) (used : Bool) (period : UInt16) : Envelope × Bool :=
  if !used then (e, false)
  else if !e.running || period = 0 then (e, false)
  else
    let cnt := e.cnt + 1
    if cnt < period then ({ e with cnt }, false)
    else { e with cnt := 0 }.advance

namespace PsgState

/-- The loop in `update_envelope`. -/
def updateEnvelopes (s : PsgState) : List (Fin 3) → PsgState
  | [] => s
  | tr :: trs =>
    let t := s.track tr
    let (env, returns) := t.env.update t.usesEnvelope s.envelopePeriod
    let s := s.setTrack tr { t with env }
    if returns then s else s.updateEnvelopes trs

/-- `update_envelope`. -/
def updateEnvelope (s : PsgState) : PsgState := s.updateEnvelopes [0, 1, 2]

/-- `PSG_tick_1ms`. -/
def tick1ms (s : PsgState) : PsgState :=
  { s with track := fun tr => { s.track tr with lfoPhase := (s.track tr).lfoPhase + (s.track tr).lfoInc } }

/-- The noise LFSR in `PSG_calc_sample`. -/
def updateNoise (s : PsgState) : PsgState :=
  let noiseCnt := s.noiseCnt + 1
  if s.noisePeriod.toNat + 1 ≤ noiseCnt.toNat then
    let fb := (s.noiseShift ^^^ (s.noiseShift >>> 3)) &&& 1
    { s with noiseShift := (s.noiseShift >>> 1) ||| (fb <<< 16), noiseCnt := 0 }
  else { s with noiseCnt }

end PsgState

def volTab : List UInt32 :=
  [0, 258, 307, 365, 434, 516, 613, 728, 865, 1029, 1223, 1453, 1727, 2052, 2439, 2899]

def panTabL : List UInt32 :=
  [4095, 4095, 4069, 3992, 3865, 3689, 3467, 3202, 2896, 2553, 2179, 1777, 1352, 911, 458, 0]

def panTabR : List UInt32 :=
  [0, 0, 458, 911, 1352, 1777, 2179, 2553, 2896, 3202, 3467, 3689, 3865, 3992, 4069, 4095]

/-- `MAX_SAMPLE_WIDTH`. -/
def maxSampleWidth : UInt32 := 4095

/-- `soft_clip`. -/
def softClip (x : UInt32) : UInt32 :=
  let knee : UInt32 := 3600
  if x ≤ knee then x
  else
    let d := x - knee
    let y := knee + ((d >>> 3) - (d >>> 7))
    if maxSampleWidth < y then maxSampleWidth else y

namespace Track

/-- `tri` of the LFO in `PSG_calc_sample`. -/
def lfoTriangle (t : Track) : Int :=
  if t.lfoPhase.toNat < 32768 then t.lfoPhase.toNat else 65535 - t.lfoPhase.toNat

/-- `inc` in `PSG_calc_sample`, the increment with the vibrato. -/
def phaseInc (t : Track) : UInt32 :=
  let cent := (t.lfoDepth.toInt8.toInt * t.lfoTriangle) >>> (15 : Nat)
  let frac := (cent * 38) >>> (8 : Nat)
  t.toneInc + ((t.toneInc * UInt32.ofInt frac) >>> 16)

def updatePhase (t : Track) : Track :=
  if t.toneInc ≠ 0 then { t with tonePhase := t.tonePhase + t.phaseInc } else t

/-- `tone_amp` for `psg_timbre_t`. -/
def toneAmp (t : Track) : UInt32 :=
  match t.timbre.toNat with
  | 1 =>
    let idx := t.tonePhase >>> 19
    ((idx ^^^ (idx >>> 12)) &&& 0x1FFF) >>> 1
  | 2 => t.tonePhase >>> 20
  | 3 => (4095 : UInt32) - (t.tonePhase >>> 20)
  | _ => if t.tonePhase >>> 31 ≠ 0 then 4095 else 0

/-- The index of `vol_tab`. -/
def volIndex (t : Track) : UInt8 := (if t.usesEnvelope then t.env.level else t.volume) &&& 0x0F

end Track

namespace PsgState

/-- `active_amp` of a track. -/
def activeAmp (s : PsgState) (tr : Fin 3) (toneAmp : UInt32) : UInt32 :=
  let useTone := s.mixer &&& ((1 : UInt8) <<< UInt8.ofNat tr) = 0
  let useNoise := s.mixer &&& ((1 : UInt8) <<< UInt8.ofNat (tr + 3)) = 0
  if useNoise ∧ s.noiseShift &&& 1 ≠ 0 then 4095 else if useTone then toneAmp else 0

/-- What a track adds to `mix_l` and `mix_r`. -/
def trackMix (s : PsgState) (tr : Fin 3) : Option (UInt32 × UInt32) :=
  let t := s.track tr
  let activeAmp := s.activeAmp tr t.toneAmp
  if s.muteMask &&& ((1 : UInt8) <<< UInt8.ofNat tr) ≠ 0 then some (0, 0)
  else if activeAmp = 0 then some (0, 0)
  else do
    let gain ← volTab[t.volIndex.toNat]?
    let amp := (activeAmp * gain) >>> 12
    let left ← panTabL[t.pan.toNat]?
    let right ← panTabR[t.pan.toNat]?
    return ((amp * left) >>> 12, (amp * right) >>> 12)

/-- The loop in `PSG_calc_sample`. -/
def mixTracks (s : PsgState) (mixL mixR : UInt32) : List (Fin 3) → Option (UInt32 × UInt32 × PsgState)
  | [] => some (mixL, mixR, s)
  | tr :: trs => do
    let s := s.setTrack tr (s.track tr).updatePhase
    let (l, r) ← s.trackMix tr
    s.mixTracks (mixL + l) (mixR + r) trs

/-- `PSG_calc_sample`. -/
def calcSample (s : PsgState) : Option ((UInt16 × UInt16) × PsgState) := do
  let (mixL, mixR, s) ← s.updateEnvelope.updateNoise.mixTracks 0 0 [0, 1, 2]
  return (((softClip mixL).toUInt16, (softClip mixR).toUInt16), s)

end PsgState

/-! ## Runs -/

inductive EngineAction where
  | packet (pkt : Packet)
  | sample
  | tick
deriving DecidableEq, Repr

namespace PsgState

def next (s : PsgState) : EngineAction → Option PsgState
  | .packet pkt => s.processPacket pkt
  | .sample => s.calcSample.map Prod.snd
  | .tick => some s.tick1ms

def run (s : PsgState) (actions : List EngineAction) : Option PsgState := actions.foldlM next s

end PsgState

end PicoRuby.Psg
