import Mathlib.Logic.Function.Basic
import PicoRuby.PrkRgb.Keys
import PicoRuby.Shared.Results

/-!
# The pixels

The functions of prk-rgb.c that `RGB` calls, and what it does with them. What `hsv2rgb` computes in floating point, and
what `rand` gives, comes with the operations. `written` and `frames` only watch.
-/

namespace PicoRuby.PrkRgb

open Shared

set_option autoImplicit false

def maxPixelSize : Nat := 150

/-- An access behind the end of an array. -/
inductive Fault where
  | pixels (index : Nat)
  | dma (index : Nat)
  | distance (index : Nat)
deriving DecidableEq, Repr

abbrev Frame := List (Nat × UInt32)

/-- The static variables, the entries that were written since the last frame, and the frames of an operation. -/
structure Ws2812 where
  pixels : Nat → Int32
  lastAppendIndex : Nat
  swirlIndex : Nat
  matrixCoordinate : Nat → UInt8 × UInt8
  pixelDistance : Nat → UInt32
  circleCenter : UInt8 × UInt8
  written : Frame
  frames : List Frame

namespace Ws2812
variable (w : Ws2812)

/-- `pixels[index]`. -/
def pixel (index : Nat) : Except Fault Int32 :=
  if index < maxPixelSize + 1 then .ok (w.pixels index) else .error (.pixels index)

/-- `ws2812_set_pixel_at`; the index is a `uint8_t`. -/
def setPixelAt (index : Nat) (value : Int32) : Except Fault Ws2812 :=
  if index % 256 < maxPixelSize + 1 then .ok { w with pixels := Function.update w.pixels (index % 256) value }
  else .error (.pixels (index % 256))

def showPixels : Ws2812 := { w with lastAppendIndex := 0, written := [], frames := w.frames ++ [w.written] }

def rgb2grb (val : Int32) : UInt32 :=
  ((val.toUInt32 &&& 0xff0000) >>> 8) ||| ((val.toUInt32 &&& 0x00ff00) <<< 8) ||| (val.toUInt32 &&& 0x0000ff)

/-- `put_pixel`; the index is a `uint8_t`. -/
def putPixel (pixelRgb : Int32) : Except Fault Ws2812 :=
  if w.lastAppendIndex < maxPixelSize then
    .ok { w with
      lastAppendIndex := (w.lastAppendIndex + 1) % 256
      written := w.written ++ [(w.lastAppendIndex, rgb2grb pixelRgb <<< 8)] }
  else .error (.dma w.lastAppendIndex)

/-- `ws2812_fill`. -/
def fill (color : Int32) (size : Int) : Except Fault Ws2812 := do
  let w ← loop (fun _ w => w.putPixel color) 0 size.toNat w
  return w.showPixels

/-- The body of the loop in `ws2812_rotate_swirl`, with its local `at`. -/
def swirlPixel (s : Nat × Ws2812) : Except Fault (Nat × Ws2812) := do
  let pixelRgb ← s.2.pixel s.1
  let w ← s.2.putPixel pixelRgb
  let next ← w.pixel (s.1 + 1)
  return (if next < 0 then 0 else s.1 + 1, w)

/-- `ws2812_rotate_swirl`. -/
def rotateSwirl (stop : Int) : Except Fault (Bool × Ws2812) := do
  let s ← loop (fun _ => swirlPixel) 0 stop.toNat (w.swirlIndex, w)
  let next ← s.2.pixel (s.2.swirlIndex + 1)
  if next < 0 then return (true, { s.2 with swirlIndex := 0 }.showPixels)
  else return (false, { s.2 with swirlIndex := s.2.swirlIndex + 1 }.showPixels)

/-- The loop of `ws2812_rand_show`, which counts twice. -/
def randLoop (color : Int32) (limit : Nat) (roll : Nat → Nat) (size : Int) (i : Nat) (w : Ws2812) :
    Except Fault Ws2812 :=
  if i < size then
    match w.putPixel (if limit < roll i % 16 then color else 0) with
    | .ok w => randLoop color limit roll size (i + 2) w
    | .error e => .error e
  else .ok w
termination_by (size - i).toNat
decreasing_by omega

/-- `ws2812_rand_show`. -/
def randShow (color : Int32) (limit : Nat) (roll : Nat → Nat) (size : Int) : Except Fault Ws2812 := do
  let w ← randLoop color limit roll size 0 w
  return w.showPixels

/-! ## The circle -/

/-- The distance of a pixel from the center. -/
def distance (i : Nat) : UInt32 :=
  let x : Int := (w.matrixCoordinate i).1.toNat - w.circleCenter.1.toNat
  let y : Int := ((w.matrixCoordinate i).2.toNat - w.circleCenter.2.toNat) * 3
  .ofNat (x * x + y * y).toNat

/-- `ws2812_init_pixel_distance`. -/
def initPixelDistance (size : Int) : Except Fault Ws2812 :=
  loop (fun i w =>
    if i < maxPixelSize then .ok { w with pixelDistance := Function.update w.pixelDistance i (w.distance i) }
    else .error (.distance i)) 0 size.toNat w

/-- The squares that end the groups of `get_distance_group`. -/
def groupEnds : List UInt32 :=
  [400, 1600, 3600, 6400, 10000, 14400, 19600, 25600, 32800, 40000, 48400, 57600]

def getDistanceGroup (d : UInt32) : Nat := groupEnds.findIdx (d < ·)

/-- What red, green and blue are multiples of in each group. -/
def circleColors : List (Nat × Nat × Nat) :=
  [(4, 0, 0), (3, 1, 0), (2, 2, 0), (1, 3, 0), (0, 4, 0), (0, 3, 1), (0, 2, 2), (0, 1, 3), (0, 0, 4), (1, 0, 3),
    (2, 0, 2), (3, 0, 1)]

/-- `RGB(r, g, b)` of a group; `lv` is a `uint8_t`. -/
def circleColor (group value : Nat) : Int32 :=
  let lv := value * 2 % 256
  let (r, g, b) := circleColors.getD group (1, 1, 1)
  .ofNat ((lv * r) <<< 16 ||| (lv * g) <<< 8 ||| lv * b)

/-- `ws2812_circle`. -/
def circle (count : Int) (value circleDiameter : Nat) : Except Fault Ws2812 := do
  let w ← loop (fun i w =>
    if i < maxPixelSize then w.putPixel (circleColor ((getDistanceGroup (w.pixelDistance i) + circleDiameter) % 12) value)
    else .error (.distance i)) 0 count.toNat w
  return w.showPixels

end Ws2812

/-! ## RGB -/

/-- `fifo` is how much is in `@fifo`, and `thunders` whether `@action` is `:thunder`. -/
structure Lights extends Ws2812 where
  pixelSize : Int
  offed : Bool
  effect : Option Effect
  effectInit : Bool
  circleDiameter : Nat
  fifo : Nat
  thunders : Bool

/-- `RGB.new`. -/
def Lights.new (underglowSize backlightSize : Int) (matrixCoordinate : Nat → UInt8 × UInt8)
    (circleCenter : UInt8 × UInt8) : Lights :=
  { pixels := fun _ => 0
    lastAppendIndex := 0
    swirlIndex := 0
    matrixCoordinate
    pixelDistance := fun _ => 0
    circleCenter
    written := []
    frames := []
    pixelSize := underglowSize + backlightSize
    offed := true
    effect := none
    effectInit := false
    circleDiameter := 0
    fifo := 0
    thunders := false }

namespace Lights
variable (l : Lights)

/-- The strip is changed. -/
def lift (r : Except Fault Ws2812) : Except Fault Lights := r.map fun w => { l with toWs2812 := w }

/-- `reset_pixel`. -/
def resetPixel (colors : Nat → Int32) : Except Fault Lights :=
  match l.effect with
  | some .swirl => l.lift do
    let w ← loop (fun i w => w.setPixelAt i (colors i)) 0 72 l.toWs2812
    w.setPixelAt 72 (-1)
  | _ => .ok l

/-- `effect=`. -/
def setEffect (name : Effect) (colors : Nat → Int32) : Except Fault Lights := do
  let l ← { l with offed := true, effect := some name, effectInit := false }.resetPixel colors
  return { l with offed := false }

def toggle (colors : Nat → Int32) : Except Fault Lights :=
  if l.offed then do
    let l ← l.resetPixel colors
    return { l with offed := false }
  else .ok { l with offed := true }

def fifoPush : Lights := if 2 < l.fifo then l else { l with fifo := l.fifo + 1 }

/-- `thunder`. -/
def thunder (rolls : Nat → Nat → Nat) : Except Fault Lights := do
  let l ← l.lift (loop (fun salt w => w.randShow 0x202020 ((salt + 1) * 2) (rolls salt) l.pixelSize) 0 4 l.toWs2812)
  return { l with fifo := l.fifo - 1 }

/-- The ping of `invoke_partner`. -/
def ping : Lights :=
  match l.effect with
  | some .swirl => { l with swirlIndex := 0 }
  | some .circle => { l with circleDiameter := 11 }
  | _ => l

/-- The start of the effect `circle`. -/
def initCircle : Except Fault Lights :=
  if l.effectInit then .ok l
  else (l.lift (l.initPixelDistance l.pixelSize)).map fun l => { l with circleDiameter := 0, effectInit := true }

/-- The effect `circle` of `show`; below 0 `@circle_diameter` becomes 11. -/
def showCircle (value : Nat) : Except Fault Lights := do
  let l ← l.initCircle
  let l := { l with circleDiameter := if l.circleDiameter = 0 then 11 else l.circleDiameter - 1 }
  l.lift (l.circle l.pixelSize value l.circleDiameter)

/-- What `show` draws of the effect. -/
def showEffect (color : Int32) (value : Nat) : Except Fault Lights :=
  match l.effect with
  | none => .ok l
  | some .swirl => l.lift ((l.rotateSwirl l.pixelSize).map Prod.snd)
  | some .circle => l.showCircle value
  | some _ => l.lift (l.fill color l.pixelSize)

def showLights (color : Int32) (value : Nat) (rolls : Nat → Nat → Nat) : Except Fault Lights :=
  if l.offed then l.lift (l.fill 0 l.pixelSize)
  else do
    let l ← if l.fifo ≠ 0 ∧ l.thunders then l.thunder rolls else .ok l
    l.showEffect color value

end Lights

/-- The operations, with the colors of `hsv2rgb`, the whole part of `@max_value` and the numbers of `rand`. -/
inductive Op where
  | effect (name : Effect) (colors : Nat → Int32)
  /-- `hue=`, `saturation=` and `value=` -/
  | color (colors : Nat → Int32)
  | toggle (colors : Nat → Int32)
  | turnOn
  | turnOff
  | fifoPush
  | action (thunder : Bool)
  | thunder (rolls : Nat → Nat → Nat)
  | ping
  | showLights (color : Int32) (value : Nat) (rolls : Nat → Nat → Nat)

/-- An operation; its frames are those since it began. -/
def Lights.apply (l : Lights) (op : Op) : Except Fault Lights :=
  let l := { l with frames := [] }
  match op with
  | .effect name colors => l.setEffect name colors
  | .color colors => l.resetPixel colors
  | .toggle colors => l.toggle colors
  | .turnOn => .ok { l with offed := false }
  | .turnOff => .ok { l with offed := true }
  | .fifoPush => .ok l.fifoPush
  | .action thunders => .ok { l with thunders }
  | .thunder rolls => l.thunder rolls
  | .ping => .ok l.ping
  | .showLights color value rolls => l.showLights color value rolls

end PicoRuby.PrkRgb
