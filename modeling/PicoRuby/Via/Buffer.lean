import PicoRuby.Via.Keycodes
import PicoRuby.Keyboard.Layout
import PicoRuby.Shared.Placing

/-!
# Keymaps of VIA

VIA has its own keymaps, a grid of key codes for each layer. It saves them as layers of the keyboard and
takes layers of the keyboard in.
-/

namespace PicoRuby.Via

open Shared Keyboard

set_option autoImplicit false

/-! ## The keyboard -/

/-- The variables of a Keyboard that VIA works on. -/
structure Kbd where
  layout : Layout
  defaultLayer : Option String
  keymaps : List (String × List (List (Option Stored)))
  layerNames : List String
  compositeKeys : List (String × CompositeKey)
deriving DecidableEq, Repr

namespace Kbd

/-- `Keyboard#add_layer`. -/
def addLayer (gems : Gems) (kbd : Kbd) (name : String) (map : List MapKey) : Option Kbd := do
  let p ← kbd.layout.addLayer gems map
  return { kbd with
    defaultLayer := kbd.defaultLayer.or (some name)
    keymaps := hashSet kbd.keymaps name p.newMap
    layerNames := if name ∈ kbd.layerNames then kbd.layerNames else kbd.layerNames ++ [name]
    compositeKeys := kbd.compositeKeys ++ p.compositeKeys.map fun key => (name, key) }

/-- `Keyboard#get_layer`. -/
def getLayer (kbd : Kbd) (name : Option String) (num : Nat) : Option (List (List (Option Stored))) :=
  (name.bind (hashGet kbd.keymaps)).or (kbd.layerNames[num]?.bind (hashGet kbd.keymaps))

/-- `Keyboard#delete_mode_keys`, as far as the composite keys. -/
def deleteModeKeys (kbd : Kbd) (layerName : String) : Kbd :=
  { kbd with compositeKeys := kbd.compositeKeys.filter fun item => item.1 ≠ layerName }

end Kbd

/-- A keyboard without layers. -/
def newKbd (k : Layout) : Kbd := ⟨k, none, [], [], []⟩

@[simp] theorem newKbd_layout {k : Layout} : (newKbd k).layout = k := rfl

/-! ## VIA -/

/-- An object of class VIA. -/
structure ViaState where
  layerCount : Nat
  keymaps : List (List (List (Option Nat)))
  keymapSaved : Bool
  compositeKeys : List String
deriving DecidableEq, Repr

/-- `VIA#cols_size`. -/
def colsSize (k : Layout) : Nat := k.colsSize * if k.split then 2 else 1

/-- `VIA#rows_size`. -/
def rowsSize (k : Layout) : Nat := k.rowsSize

/-- `VIA#via_get_layer_name`. -/
def viaGetLayerName (i : Nat) : String := if i = 0 then "default" else "VIA_LAYER" ++ toString i

namespace ViaState

/-- The key code in a cell of a keymap, 0 where there is none. -/
def keycodeAt (v : ViaState) (layer row col : Nat) : Option Nat := do
  let rows ← v.keymaps[layer]?
  let cells ← rows[row]?
  return (arrayGet cells col).getD 0

/-- The symbols of a layer, row by row. -/
def keysymbols (required : Required) (k : Layout) (v : ViaState) (layer : Nat) : Option (List String) :=
  (grid (rowsSize k) (colsSize k) fun row col => do
    let keycode ← v.keycodeAt layer row col
    viaKeycodeIntoKeysymbol required keycode).mapM id

/-- `@composite_keys << keysymbol`, for a symbol that is none of a key. -/
def noteCompositeKey (compositeKeys : List String) (keysymbol : String) : List String :=
  if keysymbol.startsWith "KC" ∨ keysymbol.startsWith "VIA_FUNC" ∨ keysymbol ∈ compositeKeys then compositeKeys
  else compositeKeys ++ [keysymbol]

/-- A layer in `save_on_keyboard`. -/
def saveLayer (gems : Gems) (required : Required) (state : ViaState × Kbd) (layer : Nat) : Option (ViaState × Kbd) := do
  let (v, kbd) := state
  let layerName := viaGetLayerName layer
  let map ← v.keysymbols required kbd.layout layer
  let kbd ← (kbd.deleteModeKeys layerName).addLayer gems layerName (map.map .symbol)
  return ({ v with compositeKeys := map.foldl noteCompositeKey v.compositeKeys }, kbd)

/-- `VIA#save_on_keyboard`, but for the mode keys and composite keys, which are only noted. -/
def saveOnKeyboard (gems : Gems) (required : Required) (v : ViaState) (kbd : Kbd) : Option (ViaState × Kbd) :=
  (List.range v.layerCount).foldlM (saveLayer gems required) (v, kbd)

/-- The column of a keymap for a column of a layer. -/
def syncCol (k : Layout) (col : Nat) : Int :=
  let colsSize : Int := colsSize k
  if k.split ∧ k.splitStyle = .rightSideFlippedSplit ∧ (col : Int) > colsSize / 2 - 1 then
    colsSize - 1 - col + colsSize / 2
  else col

/-- A cell of a layer in `sync_keymap`. -/
def syncCell (gems : Gems) (required : Required) (k : Layout) (row : List (Option Nat))
    (item : Option Stored × Nat) : Option (List (Option Nat)) := do
  let keycode ← match item.1 with
    | some cell => prkKeycodeIntoViaKeycode gems required cell
    | none => some 0
  arraySet row (syncCol k item.2) keycode

/-- A layer in `sync_keymap`. -/
def syncLayer (gems : Gems) (required : Required) (kbd : Kbd) (init : Bool) (v : ViaState) (i : Nat) : Option ViaState :=
  match kbd.getLayer (if init then none else some (viaGetLayerName i)) i with
  | some layer => do
    let viaMap ← layer.mapM fun cells => cells.zipIdx.foldlM (syncCell gems required kbd.layout) []
    return { v with keymaps := v.keymaps.set i viaMap }
  | none => some v

/-- `VIA#sync_keymap`. -/
def syncKeymap (gems : Gems) (required : Required) (kbd : Kbd) (v : ViaState) (init : Bool) : Option ViaState :=
  (List.range v.layerCount).foldlM (syncLayer gems required kbd init) v

end ViaState

end PicoRuby.Via

/-!
# Buffers of VIA

The host reads and writes a keymap as one buffer of two bytes a key, layer after layer. Reading and
writing each divide the offset into a layer, a row and a column on their own: on a keyboard that is not
split, writing divides by the number of rows where reading divides by the number of columns.
-/

namespace PicoRuby.Via

open Shared Keyboard

set_option autoImplicit false

abbrev Data := List (Option Nat)

namespace ViaState

/-- The place of a key in a keymap: behind the rows of the left half, those of the right half. -/
def mirror (k : Layout) (row col : Nat) : Nat × Int :=
  if k.split ∧ rowsSize k ≤ row then (row - rowsSize k, (colsSize k : Int) - col - 1) else (row, col)

/-- `VIA#dynamic_keymap_get_keycode`; `none` is a NoMethodError. -/
def dynamicKeymapGetKeycode (k : Layout) (v : ViaState) (layer row col : Nat) : Option Nat := do
  let (row, col) := mirror k row col
  let rows ← v.keymaps[layer]?
  let cells ← rows[row]?
  return (arrayAt cells col).getD 0

/-- `VIA#dynamic_keymap_set_keycode`. -/
def dynamicKeymapSetKeycode (k : Layout) (v : ViaState) (layer row col keycode : Nat) : Option ViaState := do
  let (row, col) := mirror k row col
  let rows ← v.keymaps[layer]?
  let cells ← rows[row]?
  let cells ← arraySet cells col keycode
  return { v with keymaps := v.keymaps.set layer (rows.set row cells), keymapSaved := false }

/-- The loop of `dynamic_keymap_get_buffer`, from the round `i` on. -/
def getLoop (k : Layout) (v : ViaState) : Nat → Nat → Nat → Nat → Data → Option Data
  | 0, _, _, _, data => some data
  | rounds + 1, i, layerNum, keyIndex, data => do
    let (layerNum, keyIndex) :=
      if keyIndex = colsSize k * rowsSize k then (layerNum + 1, 0) else (layerNum, keyIndex)
    let width := if k.split then colsSize k / 2 else colsSize k
    let keycode ← v.dynamicKeymapGetKeycode k layerNum (keyIndex / width) (keyIndex % width)
    let data := setGrow data (i * 2 + 4) ((keycode >>> 8) &&& 0xFF)
    let data := setGrow data (i * 2 + 5) (keycode &&& 0xFF)
    getLoop k v rounds (i + 1) layerNum (keyIndex + 1) data

/-- `VIA#dynamic_keymap_get_buffer`; `none` is also a ZeroDivisionError. -/
def dynamicKeymapGetBuffer (k : Layout) (v : ViaState) (data : Data) : Option Data := do
  let offset := (← arrayGet data 1) <<< 8 ||| (← arrayGet data 2)
  let size ← arrayGet data 3
  if colsSize k * rowsSize k = 0 then none
  else
    let layerNum := offset / 2 / (colsSize k * rowsSize k)
    let keyIndex := offset / 2 - layerNum * (colsSize k * rowsSize k)
    getLoop k v (size / 2) 0 layerNum keyIndex data

/-- The loop of `dynamic_keymap_set_buffer`, from the round `i` on. -/
def setLoop (k : Layout) (data : Data) : Nat → Nat → Nat → Nat → ViaState → Option ViaState
  | 0, _, _, _, v => some v
  | rounds + 1, i, layerNum, keyIndex, v => do
    let keycode := (← arrayGet data (i * 2 + 4)) <<< 8 ||| (← arrayGet data (i * 2 + 5))
    let (layerNum, keyIndex) :=
      if keyIndex = colsSize k * rowsSize k then (layerNum + 1, 0) else (layerNum, keyIndex)
    let width := if k.split then colsSize k / 2 else rowsSize k
    let v ← v.dynamicKeymapSetKeycode k layerNum (keyIndex / width) (keyIndex % width) keycode
    setLoop k data rounds (i + 1) layerNum (keyIndex + 1) v

/-- `VIA#dynamic_keymap_set_buffer`. -/
def dynamicKeymapSetBuffer (k : Layout) (v : ViaState) (data : Data) : Option ViaState := do
  let offset := (← arrayGet data 1) <<< 8 ||| (← arrayGet data 2)
  let size ← arrayGet data 3
  if colsSize k * rowsSize k = 0 then none
  else
    let layerNum := offset / 2 / (colsSize k * rowsSize k)
    let keyIndex := offset / 2 - layerNum * (colsSize k * rowsSize k)
    setLoop k data (size / 2) 0 layerNum keyIndex v

/-- The commands about buffers. -/
inductive Command where
  | viaGetBuffer
  | viaSetBuffer
deriving DecidableEq, Repr

/-- `VIA#raw_hid_receive` of a command about buffers. -/
def rawHidReceive (gems : Gems) (required : Required) (command : Command) (data : Data)
    (state : ViaState × Kbd) : Option (Data × ViaState × Kbd) := do
  let (v, kbd) := state
  match command with
  | .viaGetBuffer =>
    let data ← v.dynamicKeymapGetBuffer kbd.layout data
    if v.keymapSaved then return (data, v, kbd)
    else
      let (v, kbd) ← v.saveOnKeyboard gems required kbd
      return (data, { v with keymapSaved := true }, kbd)
  | .viaSetBuffer =>
    let v ← v.dynamicKeymapSetBuffer kbd.layout data
    return (data, v, kbd)

end ViaState

end PicoRuby.Via
