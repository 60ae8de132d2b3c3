import Mathlib.Data.List.Basic

/-!
# picoruby-prk-rgb

The RGB keys of the anchor, and the message that each of them sends to the partner. What only the animation reads is
left out.
-/

namespace PicoRuby.PrkRgb

set_option autoImplicit false

inductive Effect where
  | swirl
  | rainbowMood
  | breath
  | nokogiri
  | static
  | circle
deriving DecidableEq, Repr

/-- `EFFECTS`. -/
def effects : List Effect := [.swirl, .rainbowMood, .breath, .nokogiri, .static, .circle]

/-- `@max_value` is a whole number, which `value=` keeps between 0 and 31. -/
@[ext] structure Settings where
  offed : Bool
  effect : Effect
  hue : Int
  saturation : Int
  maxValue : Nat
  maxValue_le : maxValue ≤ 31
  speed : Int
deriving DecidableEq, Repr

namespace Settings

variable (s : Settings)

def toggle : Settings := { s with offed := !s.offed }

/-- `hue=`. -/
def setHue (val : Int) : Settings := { s with hue := if val < 0 then 348 else if 348 < val then 0 else val }

/-- `saturation=`. -/
def setSaturation (val : Int) : Settings :=
  { s with saturation := if val < 0 then 0 else if 100 < val then 100 else val }

def clampValue (val : Int) : Nat := if val < 0 then 0 else if 31 < val then 31 else val.toNat

theorem clampValue_le (val : Int) : clampValue val ≤ 31 := by
  unfold clampValue
  split
  · exact Nat.zero_le 31
  · split
    · exact Nat.le_refl 31
    · omega

/-- `value=`. -/
def setValue (val : Int) : Settings := { s with maxValue := clampValue val, maxValue_le := clampValue_le val }

/-- `speed=`. -/
def setSpeed (val : Int) : Settings := { s with speed := if val < 0 then 0 else if 31 < val then 31 else val }

def initValues : Settings := { s.setSpeed s.speed with hue := 0, saturation := 100 }

/-- `effect=`. -/
def setEffect (name : Effect) : Settings := { { s with effect := name }.initValues with offed := false }

/-- The effect after the one in force, and the one before it. -/
def nextEffect : Effect := ((effects[effects.idxOf s.effect + 1]?).or effects.head?).getD .swirl

def previousEffect : Effect :=
  (if effects.idxOf s.effect = 0 then effects.getLast? else effects[effects.idxOf s.effect - 1]?).getD .swirl

end Settings

/-! ## The anchor -/

inductive Key where
  | tog
  | modeForward
  | mod
  | modeReverse
  | rmod
  | hui
  | hud
  | sai
  | sad
  | vai
  | vad
  | spi
  | spd
deriving DecidableEq, Repr

structure Rgb extends Settings where
  lastKey : Option Key
deriving DecidableEq, Repr

namespace Settings

variable (s : Settings)

/-- A new effect, with its message. -/
def changeEffect (name : Effect) : Nat × Settings :=
  (0x20 + (effects.idxOf (s.setEffect name).effect + 2), s.setEffect name)

def changeHue (val : Int) : Nat × Settings := (0x40 ||| ((s.setHue val).hue / 12).toNat, s.setHue val)

def changeSaturation (val : Int) : Nat × Settings :=
  (0x60 ||| ((s.setSaturation val).saturation / 5).toNat, s.setSaturation val)

/-- The message has the brightness from before. -/
def changeValue (val : Int) : Nat × Settings := (0x80 ||| s.maxValue, s.setValue val)

def changeSpeed (val : Int) : Nat × Settings := (0xa0 ||| (s.setSpeed val).speed.toNat, s.setSpeed val)

/-- The message of a key, and what it changes. -/
def press : Key → Nat × Settings
  | .tog => (0x20 + (if s.toggle.offed then 0 else 1), s.toggle)
  | .modeForward => s.changeEffect s.nextEffect
  | .mod => s.changeEffect s.nextEffect
  | .modeReverse => s.changeEffect s.previousEffect
  | .rmod => s.changeEffect s.previousEffect
  | .hui => s.changeHue (s.hue + 12)
  | .hud => s.changeHue (s.hue - 12)
  | .sai => s.changeSaturation (s.saturation + 5)
  | .sad => s.changeSaturation (s.saturation - 5)
  | .vai => s.changeValue (s.maxValue + 1)
  | .vad => s.changeValue (s.maxValue - 1)
  | .spi => s.changeSpeed (s.speed + 1)
  | .spd => s.changeSpeed (s.speed - 1)

end Settings

/-- The second of two equal keys does nothing. -/
def Rgb.invokeAnchor (a : Rgb) (key : Key) : Nat × Rgb :=
  if a.lastKey = some key then (0, { a with lastKey := none })
  else ((a.press key).1, { toSettings := (a.press key).2, lastKey := some key })

/-! ## The partner -/

namespace Settings

variable (s : Settings)

/-- What a method does with its value. -/
def obey (method val : Nat) : Settings :=
  match method with
  | 1 =>
    if val ≤ 1 then { s with offed := val == 1 }.toggle
    else (effects[val - 2]?).elim s s.setEffect
  | 2 => s.setHue (val * 12)
  | 3 => s.setSaturation (val * 5)
  | 4 => s.setValue val
  | 5 => s.setSpeed val
  | 7 => if s.effect = .rainbowMood then { s with hue := 0 } else s
  | _ => s

end Settings

def Rgb.invokePartner (p : Rgb) (message : Nat) : Rgb :=
  { p with toSettings := p.obey (message >>> 5) (message &&& 0b00011111) }

/-! ## The two halves -/

structure Halves where
  anchor : Rgb
  partner : Rgb
deriving DecidableEq, Repr

/-- A key on the anchor, whose message is fed to the partner. -/
def Halves.press (h : Halves) (key : Key) : Halves :=
  ⟨(h.anchor.invokeAnchor key).2, h.partner.invokePartner (h.anchor.invokeAnchor key).1⟩

end PicoRuby.PrkRgb
