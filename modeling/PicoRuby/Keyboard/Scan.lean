import PicoRuby.Keyboard.Layout

/-!
# The scan loop

A round of the loop in `start!`: the composite keys and the mode keys act on the switches that are pressed,
a layer is selected, the other switches are looked up in it, and a report is sent. Joystick, mouse, RGB,
macros, filters and Procs are left out; the switches of a partner are among those that are pressed.
-/

namespace PicoRuby.Keyboard

open Shared

set_option autoImplicit false

abbrev Switch := Nat × Int

/-! ## Keymaps -/

/-- An `:on_release`: key codes, several in an Array. -/
inductive ReleaseAction where
  | nothing
  | key (keycode : Int)
  | keys (keycodes : List Int)
deriving DecidableEq, Repr

/-- An `:on_hold`: a Symbol is a layer, an Integer a modifier. -/
inductive HoldAction where
  | nothing
  | layer (name : String)
  | modifier (bits : Nat)
deriving DecidableEq, Repr

structure LayerAction where
  onRelease : ReleaseAction
  onHold : HoldAction
  releaseThreshold : Int
  repushThreshold : Int
deriving DecidableEq, Repr

inductive PrevState where
  | released
  | pushed
  | pushedInterrupted
  | pushedThenReleased
  | pushedThenReleasedThenPushed
deriving DecidableEq, Repr

/-- An element of `@mode_keys`, as `define_mode_key` makes it. -/
structure ModeKey where
  prevState : PrevState
  pushedAt : Int
  releasedAt : Int
  layers : List (String × LayerAction)
deriving DecidableEq, Repr

/-- An element of `@composite_keys`, of key codes and modifiers. -/
structure CompositeAction where
  layer : String
  keycodes : List Int
  switch : Switch
deriving DecidableEq, Repr

structure Keymap where
  defaultLayer : String
  keymaps : List (String × List (List (Option Stored)))
  compositeKeys : List CompositeAction
deriving DecidableEq, Repr

/-! ## A round -/

/-- The variables that a round hands to the next. -/
structure Loop where
  layer : Option String
  lockedLayer : Option String
  prevLayer : String
  modeKeys : List (Switch × ModeKey)
  earlierReportSize : Nat
deriving DecidableEq, Repr

/-- The variables that the composite keys and the mode keys work on. -/
structure Pass where
  layer : Option String
  lockedLayer : Option String
  prevLayer : String
  desiredLayer : Option String
  modifier : Nat
  keycodes : List Int
deriving DecidableEq, Repr

namespace Pass

/-- A key code of an Array in `action_on_release`. -/
def arrayKey (p : Pass) (key : Int) : Pass :=
  if key < -255 then
    { p with keycodes := p.keycodes ++ [(key + 0x100) * -1], modifier := p.modifier ||| 0b00000010 }
  else if key < 0 then { p with keycodes := p.keycodes ++ [key * -1] }
  else { p with modifier := p.modifier ||| key.toNat }

/-- `Keyboard#action_on_release`. -/
def actionOnRelease (p : Pass) : ReleaseAction → Pass
  | .nothing => p
  | .key modeKey =>
    if modeKey < -255 then
      { p with keycodes := p.keycodes ++ [(modeKey + 0x100) * -1], modifier := p.modifier ||| 0b00000010 }
    else { p with keycodes := p.keycodes ++ [modeKey * -1] }
  | .keys keycodes => keycodes.foldl arrayKey p

/-- The `:on_hold` of a key that is held. -/
def hold (p : Pass) : HoldAction → Pass
  | .nothing => p
  | .layer name => { p with desiredLayer := some name, lockedLayer := none }
  | .modifier bits => { p with modifier := p.modifier ||| bits }

end Pass

namespace ModeKey

/-- A mode key that is pressed. -/
def press (modeKey : ModeKey) (action : LayerAction) (now : Int) (earlierReportSize : Nat) (p : Pass) :
    ModeKey × Pass :=
  match modeKey.prevState with
  | .released =>
    if earlierReportSize = 0 then
      ({ modeKey with pushedAt := now, prevState := .pushed }, p.hold action.onHold)
    else (modeKey, p)
  | .pushed | .pushedInterrupted =>
    (if 0 < earlierReportSize then { modeKey with prevState := .pushedInterrupted } else modeKey,
      p.hold action.onHold)
  | .pushedThenReleased =>
    (if now - modeKey.releasedAt ≤ action.repushThreshold then
      { modeKey with prevState := .pushedThenReleasedThenPushed } else modeKey, p)
  | .pushedThenReleasedThenPushed => (modeKey, p.actionOnRelease action.onRelease)

/-- A mode key that is not. -/
def leave (modeKey : ModeKey) (defaultLayer : String) (action : LayerAction) (now : Int)
    (earlierReportSize : Nat) (p : Pass) : ModeKey × Pass :=
  match modeKey.prevState with
  | .released => (modeKey, p)
  | .pushed =>
    let tapped := earlierReportSize = 0 ∧ now - modeKey.pushedAt ≤ action.releaseThreshold
    let p := if tapped then p.actionOnRelease action.onRelease else p
    let prevState := if tapped ∧ action.repushThreshold ≠ 0 then .pushedThenReleased else .released
    ({ modeKey with prevState, releasedAt := now },
      { p with layer := some p.prevLayer, prevLayer := defaultLayer })
  | .pushedInterrupted | .pushedThenReleasedThenPushed => ({ modeKey with prevState := .released }, p)
  | .pushedThenReleased =>
    (if action.releaseThreshold < now - modeKey.releasedAt then { modeKey with prevState := .released }
      else modeKey, p)

end ModeKey

/-- The switches that a round finds pressed, and its time. -/
structure Scan where
  switches : List Switch
  now : Int
deriving DecidableEq, Repr

namespace Keymap

/-- A composite key in a round. -/
def compositeKey (scan : Scan) (p : Pass) (key : CompositeAction) : Pass :=
  if some key.layer ≠ p.layer then p
  else if key.switch ∈ scan.switches then p.actionOnRelease (.keys key.keycodes)
  else p

/-- A mode key in a round. -/
def modeKey (k : Keymap) (scan : Scan) (earlierReportSize : Nat) (switch : Switch) (key : ModeKey) (p : Pass) :
    ModeKey × Pass :=
  match hashGet key.layers (p.layer.getD k.defaultLayer) with
  | none => (key, p)
  | some action =>
    if switch ∈ scan.switches then key.press action scan.now earlierReportSize p
    else key.leave k.defaultLayer action scan.now earlierReportSize p

/-- The loop over `@mode_keys`. -/
def scanModeKeys (k : Keymap) (scan : Scan) (earlierReportSize : Nat) :
    List (Switch × ModeKey) → Pass → List (Switch × ModeKey) × Pass
  | [], p => ([], p)
  | (switch, key) :: keys, p =>
    let (key, p) := k.modeKey scan earlierReportSize switch key p
    let (keys, p) := k.scanModeKeys scan earlierReportSize keys p
    ((switch, key) :: keys, p)

/-- The change of the layer behind the loop. -/
def selectLayer (k : Keymap) (p : Pass) : Pass :=
  if p.layer ≠ p.desiredLayer then
    { p with
      prevLayer := if p.prevLayer ≠ k.defaultLayer then p.layer.getD k.defaultLayer else p.prevLayer
      layer := p.desiredLayer }
  else p

/-- A round up to the selected layer. -/
def select (k : Keymap) (s : Loop) (scan : Scan) : List (Switch × ModeKey) × Pass :=
  let p : Pass := ⟨s.layer, s.lockedLayer, s.prevLayer, s.layer, 0, []⟩
  let p := k.compositeKeys.foldl (compositeKey scan) p
  let (modeKeys, p) := k.scanModeKeys scan s.earlierReportSize s.modeKeys p
  (modeKeys, k.selectLayer p)

/-- The name of the layer in which the switches are looked up. -/
def layerName (k : Keymap) (p : Pass) : String := (p.lockedLayer.or p.layer).getD k.defaultLayer

/-- `keymap[switch[0]][switch[1]]`; what is not there is skipped. -/
def lookUp (k : Keymap) (layer : String) (switch : Switch) : Option Stored := do
  let keymap ← hashGet k.keymaps layer
  let row ← keymap[switch.1]?
  arrayAt row switch.2

/-- What goes into a report, and the switches that are modifiers, the last one first. -/
structure Collected where
  modifier : Nat
  keycodes : List Int
  consumerKeycode : Int
  modifierSwitchPositions : List Nat
deriving DecidableEq, Repr

/-- A switch in a round. -/
def collect (k : Keymap) (layer : String) (c : Collected) (item : Switch × Nat) : Collected :=
  match k.lookUp layer item.1 with
  | some (.code keycode) =>
    if keycode < -0xFF then
      { c with
        keycodes := c.keycodes ++ [(keycode + 0x100) * -1]
        modifier := c.modifier ||| 0b00100000 }
    else if keycode < 0 then { c with keycodes := c.keycodes ++ [keycode * -1] }
    else if keycode < 0x100 then
      { c with
        modifier := c.modifier ||| keycode.toNat
        modifierSwitchPositions := item.2 :: c.modifierSwitchPositions }
    else if keycode < 0x400 then c
    else if keycode < 0x700 then { c with consumerKeycode := keycode - 0x400 }
    else c
  | _ => c

/-- The arguments of `USB.hid_task`. -/
structure Report where
  modifier : Nat
  keycodes : List Int
  consumerKeycode : Int
deriving DecidableEq, Repr

/-- A round of the loop in `Keyboard#start!`. -/
def round (k : Keymap) (s : Loop) (scan : Scan) : Loop × Report :=
  let (modeKeys, p) := k.select s scan
  let c := scan.switches.zipIdx.foldl (k.collect (k.layerName p)) ⟨p.modifier, p.keycodes, 0, []⟩
  let switches := c.modifierSwitchPositions.foldl List.eraseIdx scan.switches
  let layer := match p.lockedLayer with
    | some locked => some locked
    | none => if switches.isEmpty then some k.defaultLayer else p.layer
  (⟨layer, p.lockedLayer, p.prevLayer, modeKeys, c.keycodes.length⟩,
    ⟨c.modifier, c.keycodes, c.consumerKeycode⟩)

/-- The variables before the loop. -/
def start (k : Keymap) (modeKeys : List (Switch × List (String × LayerAction))) : Loop :=
  ⟨some "default", none, k.defaultLayer,
    modeKeys.map fun key => (key.1, ⟨.released, 0, 0, key.2⟩), 0⟩

/-- The variables after some rounds. -/
def rounds (k : Keymap) (s : Loop) (scans : List Scan) : Loop := scans.foldl (fun s scan => (k.round s scan).1) s

end Keymap

end PicoRuby.Keyboard
