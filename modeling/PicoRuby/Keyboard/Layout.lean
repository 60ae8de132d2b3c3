import PicoRuby.Shared.Hash
import PicoRuby.Shared.RubyArray

/-!
# Key codes of prk-keyboard

The tables of keyboard.rb and what a key symbol stands for in a keymap. A Symbol is its name.
-/

namespace PicoRuby.Keyboard

open Shared

set_option autoImplicit false

/-- `MOD_KEYCODE`. -/
def modKeycode : List (String × Int) := [
  ("KC_LCTL", 0b00000001), ("KC_LSFT", 0b00000010), ("KC_LALT", 0b00000100),
  ("KC_LGUI", 0b00001000), ("KC_RCTL", 0b00010000), ("KC_RSFT", 0b00100000),
  ("KC_RALT", 0b01000000), ("KC_RGUI", 0b10000000)]

/-- `KEYCODE`. -/
def keycodes : List String := [
  "KC_NO", "KC_ROLL_OVER", "KC_POST_FAIL", "KC_UNDEFINED", "KC_A", "KC_B", "KC_C", "KC_D",
  "KC_E", "KC_F", "KC_G", "KC_H", "KC_I", "KC_J", "KC_K", "KC_L", "KC_M", "KC_N", "KC_O",
  "KC_P", "KC_Q", "KC_R", "KC_S", "KC_T", "KC_U", "KC_V", "KC_W", "KC_X", "KC_Y", "KC_Z",
  "KC_1", "KC_2", "KC_3", "KC_4", "KC_5", "KC_6", "KC_7", "KC_8", "KC_9", "KC_0", "KC_ENTER",
  "KC_ESCAPE", "KC_BSPACE", "KC_TAB", "KC_SPACE", "KC_MINUS", "KC_EQUAL", "KC_LBRACKET",
  "KC_RBRACKET", "KC_BSLASH", "KC_NONUS_HASH", "KC_SCOLON", "KC_QUOTE", "KC_GRAVE", "KC_COMMA",
  "KC_DOT", "KC_SLASH", "KC_CAPSLOCK", "KC_F1", "KC_F2", "KC_F3", "KC_F4", "KC_F5", "KC_F6",
  "KC_F7", "KC_F8", "KC_F9", "KC_F10", "KC_F11", "KC_F12", "KC_PSCREEN", "KC_SCROLLLOCK",
  "KC_PAUSE", "KC_INSERT", "KC_HOME", "KC_PGUP", "KC_DELETE", "KC_END", "KC_PGDOWN", "KC_RIGHT",
  "KC_LEFT", "KC_DOWN", "KC_UP", "KC_NUMLOCK", "KC_KP_SLASH", "KC_KP_ASTERISK", "KC_KP_MINUS",
  "KC_KP_PLUS", "KC_KP_ENTER", "KC_KP_1", "KC_KP_2", "KC_KP_3", "KC_KP_4", "KC_KP_5", "KC_KP_6",
  "KC_KP_7", "KC_KP_8", "KC_KP_9", "KC_KP_0", "KC_KP_DOT", "KC_NONUS_BSLASH", "KC_APPLICATION",
  "KC_POWER", "KC_KP_EQUAL", "KC_F13", "KC_F14", "KC_F15", "KC_F16", "KC_F17", "KC_F18",
  "KC_F19", "KC_F20", "KC_F21", "KC_F22", "KC_F23", "KC_F24", "KC_EXECUTE", "KC_HELP",
  "KC_MENU", "KC_SELECT", "KC_STOP", "KC_AGAIN", "KC_UNDO", "KC_CUT", "KC_COPY", "KC_PASTE",
  "KC_FIND", "KC_KB_MUTE", "KC_KB_VOLUME_UP", "KC_KB_VOLUME_DOWN", "KC_LOCKING_CAPS_LOCK",
  "KC_LOCKING_NUM_LOCK", "KC_LOCKING_SCROLL_LOCK", "KC_KP_COMMA", "KC_KP_EQUAL_AS400",
  "KC_INT1", "KC_INT2", "KC_INT3", "KC_INT4", "KC_INT5", "KC_INT6", "KC_INT7", "KC_INT8",
  "KC_INT9", "KC_LANG1", "KC_LANG2", "KC_LANG3", "KC_LANG4", "KC_LANG5", "KC_LANG6", "KC_LANG7",
  "KC_LANG8", "KC_LANG9", "KC_ALT_ERASE", "KC_SYSREQ", "KC_CANCEL", "KC_CLEAR", "KC_PRIOR",
  "KC_RETURN", "KC_SEPARATOR", "KC_OUT", "KC_OPER", "KC_CLEAR_AGAIN", "KC_CRSEL", "KC_EXSEL"]

/-- `KEYCODE_SFT`. -/
def keycodeSft : List (String × Int) := [
  ("KC_EXLM", 0x1e), ("KC_AT", 0x1f), ("KC_HASH", 0x20), ("KC_DLR", 0x21), ("KC_PERC", 0x22),
  ("KC_CIRC", 0x23), ("KC_AMPR", 0x24), ("KC_ASTER", 0x25), ("KC_LPRN", 0x26),
  ("KC_RPRN", 0x27), ("KC_UNDS", 0x2d), ("KC_PLUS", 0x2e), ("KC_LCBR", 0x2f), ("KC_RCBR", 0x30),
  ("KC_PIPE", 0x31), ("KC_COLON", 0x33), ("KC_DQUO", 0x34), ("KC_TILD", 0x35),
  ("KC_LABK", 0x36), ("KC_RABK", 0x37), ("KC_QUES", 0x38)]

/-- `KC_ALIASES`. -/
def kcAliases : List (String × String) := [
  ("KC_ENT", "KC_ENTER"), ("KC_ESC", "KC_ESCAPE"), ("KC_BSPC", "KC_BSPACE"),
  ("KC_SPC", "KC_SPACE"), ("KC_MINS", "KC_MINUS"), ("KC_EQL", "KC_EQUAL"),
  ("KC_LBRC", "KC_LBRACKET"), ("KC_RBRC", "KC_RBRACKET"), ("KC_BSLS", "KC_BSLASH"),
  ("KC_SCLN", "KC_SCOLON"), ("KC_QUOT", "KC_QUOTE"), ("KC_GRV", "KC_GRAVE"),
  ("KC_ZKHK", "KC_GRAVE"), ("KC_COMM", "KC_COMMA"), ("KC_SLSH", "KC_SLASH"),
  ("KC_CAPS", "KC_CAPSLOCK"), ("KC_SLCK", "KC_SCROLLLOCK"), ("KC_NLCK", "KC_NUMLOCK"),
  ("KC_KANA", "KC_INT2"), ("KC_HENK", "KC_INT4"), ("KC_MHEN", "KC_INT5"),
  ("KC_HAEN", "KC_LANG1"), ("KC_HANJ", "KC_LANG2"), ("KC_INS", "KC_INSERT"),
  ("KC_DEL", "KC_DELETE"), ("KC_PGDN", "KC_PGDOWN"), ("KC_RGHT", "KC_RIGHT"),
  ("XXXXXXX", "KC_NO")]

/-- What a keymap holds: a key code, or a Symbol that is looked up elsewhere. -/
inductive Stored where
  | code (n : Int)
  | symbol (name : String)
deriving DecidableEq, Repr

/-- The tables of the gems that are required, `mouse`, `rgb` and `consumer_key`, in this order. -/
structure Gems where
  keycode : String → Option Int

def resolveKeyAlias (sym : String) : String := (hashGet kcAliases sym).getD sym

/-- `String#to_i` of digits. -/
def digitsToInt (s : List Char) : Int :=
  (s.takeWhile Char.isDigit).foldl (fun n c => n * 10 + (c.toNat - '0'.toNat : Nat)) 0

/-- The hats of a joystick. -/
def jsHats : List (String × Int) := [
  ("JS_HAT_RIGHT", 0b0001 + 0x100), ("JS_HAT_UP", 0b0010 + 0x100),
  ("JS_HAT_DOWN", 0b0100 + 0x100), ("JS_HAT_LEFT", 0b1000 + 0x100)]

/-- `Keyboard#find_keycode_index`. -/
def findKeycodeIndex (gems : Gems) (key : String) : Stored :=
  let key := resolveKeyAlias key
  match keycodes.idxOf? key with
  | some keycode => .code (-keycode)
  | none =>
    match hashGet keycodeSft key with
    | some keycode => .code (-(keycode + 0x100))
    | none =>
      match hashGet modKeycode key with
      | some keycode => .code keycode
      | none =>
        match gems.keycode key with
        | some keycode => .code keycode
        | none =>
          if key.startsWith "JS_BUTTON" then .code (digitsToInt ((key.toList.drop 9).take 10) + 0x200)
          else if key.startsWith "JS_HAT_" then
            match hashGet jsHats key with
            | some keycode => .code keycode
            | none => .symbol key
          else .symbol key

/-- `Keyboard#convert_composite_keys`; a Symbol that is no modifier either is `nil`. -/
def convertCompositeKeys (keys : List String) : List (Option Int) :=
  keys.map fun sym =>
    let sym := resolveKeyAlias sym
    match keycodes.idxOf? sym with
    | some keycode => some (-keycode)
    | none =>
      match hashGet keycodeSft sym with
      | some keycode => some (-(keycode + 0x100))
      | none => hashGet modKeycode sym

end PicoRuby.Keyboard

/-!
# Matrix and layers

How keyboard.rb takes in the pins of the matrix, lays the keys of a map out in a layer, and tells the
rows and columns of the switches that a scan finds closed.
-/

namespace PicoRuby.Keyboard

open Shared

set_option autoImplicit false

abbrev Pin := Nat

/-- A cell of the matrix: the out pin and the in pin of a switch, or nothing. -/
abbrev Cell := Option (Pin × Pin)

inductive SplitStyle where
  | standardSplit
  | rightSideFlippedSplit
deriving DecidableEq, Repr

/-- The variables of a Keyboard that say where its switches are. -/
structure Layout where
  split : Bool
  splitStyle : SplitStyle
  anchor : Bool
  anchorLeft : Bool
  colsSize : Nat
  rowsSize : Nat
  matrix : List (Pin × List (Pin × (Nat × Nat)))
  skipPositions : List (Nat × Nat)
  offsetA : Int
  offsetB : Int
deriving DecidableEq, Repr

/-- The cells of a matrix with their rows and columns. -/
def matrixCells (matrix : List (List Cell)) : List (Cell × Nat × Nat) :=
  matrix.zipIdx.flatMap fun row => row.1.zipIdx.map fun cell => (cell.1, row.2, cell.2)

/-- `@matrix[cell[0]][cell[1]] = [row_index, col_index]`. -/
def storeSwitch (matrix : List (Pin × List (Pin × (Nat × Nat)))) (item : Cell × Nat × Nat) :
    List (Pin × List (Pin × (Nat × Nat))) :=
  match item.1 with
  | some (outPin, inPin) =>
    hashSet matrix outPin (hashSet ((hashGet matrix outPin).getD []) inPin item.2)
  | none => matrix

/-- `Keyboard#init_matrix_pins`. -/
def initMatrixPins (split : Bool) (splitStyle : SplitStyle) (anchor anchorLeft : Bool)
    (matrix : List (List Cell)) : Layout :=
  let colsSize := matrix.foldl (fun size cols => max cols.length size) 0
  let offsetA : Int := (colsSize + 1) / 2
  { split, splitStyle, anchor, anchorLeft, colsSize
    rowsSize := matrix.length
    matrix := (matrixCells matrix).foldl storeSwitch []
    skipPositions := ((matrixCells matrix).filter fun item => item.1.isNone).map Prod.snd
    offsetA
    offsetB := colsSize * 2 - offsetA - 1 }

namespace Layout

def entireColsSize (k : Layout) : Nat := if k.split then k.colsSize * 2 else k.colsSize

/-- `Keyboard#skip_position?`. -/
def skipPosition (k : Layout) (row col : Nat) : Bool :=
  let col2 : Int :=
    if col < k.colsSize then col
    else
      match k.splitStyle with
      | .rightSideFlippedSplit => col - k.colsSize
      | .standardSplit => ((col : Int) - k.colsSize + 1) * -1 + k.colsSize
  k.skipPositions.any fun pos => pos.1 = row && (pos.2 : Int) = col2

/-- `Keyboard#calculate_col_position`. -/
def calculateColPosition (k : Layout) (colIndex : Nat) : Int :=
  if !k.split then colIndex
  else
    match k.splitStyle with
    | .rightSideFlippedSplit =>
      if colIndex < k.colsSize then colIndex
      else (k.entireColsSize : Int) - (colIndex - k.colsSize) - 1
    | .standardSplit => colIndex

end Layout

/-! ## Layers -/

/-- An element of a map: a Symbol or an Array of them. -/
inductive MapKey where
  | symbol (name : String)
  | keys (names : List String)
deriving DecidableEq, Repr

/-- What `add_layer` stores for a key. -/
def MapKey.stored (gems : Gems) : MapKey → Stored
  | symbol name => findKeycodeIndex gems name
  | keys names => .symbol (String.intercalate "_" names)

structure CompositeKey where
  keycodes : List (Option Int)
  switch : Nat × Int
deriving DecidableEq, Repr

/-- The variables of `add_layer`, with the cells that the keys so far have got. -/
structure Placing where
  newMap : List (List (Option Stored))
  rowIndex : Nat
  colIndex : Nat
  compositeKeys : List CompositeKey
  placed : List (Nat × Int)
deriving DecidableEq, Repr

namespace Placing

/-- `new_map[row_index][col] = value`. -/
def put (p : Placing) (col : Int) (value : Stored) : Option Placing := do
  let row ← p.newMap[p.rowIndex]?
  let row ← arraySet row col value
  return { p with newMap := p.newMap.set p.rowIndex row }

end Placing

namespace Layout

/-- The next row, at the end of a row. -/
def wrapRow (k : Layout) (p : Placing) : Placing :=
  if k.entireColsSize ≤ p.colIndex then
    { p with rowIndex := p.rowIndex + 1, colIndex := 0, newMap := p.newMap ++ [[]] }
  else p

/-- The `while` loop of `add_layer`; `none` also if `rounds` do not end it. -/
def skipHoles (k : Layout) : Nat → Placing → Option Placing
  | 0, p => if k.skipPosition p.rowIndex p.colIndex then none else some p
  | rounds + 1, p =>
    if k.skipPosition p.rowIndex p.colIndex then do
      let p ← p.put (k.calculateColPosition p.colIndex) (.code 0)
      k.skipHoles rounds (k.wrapRow { p with colIndex := p.colIndex + 1 })
    else some p

/-- The body of the loop in `add_layer`. -/
def addKey (gems : Gems) (k : Layout) (p : Placing) (key : MapKey) : Option Placing := do
  let p ← k.skipHoles (k.rowsSize * k.entireColsSize) (k.wrapRow p)
  let colPosition := k.calculateColPosition p.colIndex
  let p ← p.put colPosition (key.stored gems)
  let compositeKeys := match key with
    | .symbol _ => p.compositeKeys
    | .keys names => p.compositeKeys ++ [⟨convertCompositeKeys names, (p.rowIndex, colPosition)⟩]
  return { p with
    compositeKeys
    colIndex := p.colIndex + 1
    placed := p.placed ++ [(p.rowIndex, colPosition)] }

/-- `Keyboard#add_layer`, to the layer that it stores; `none` is an IndexError. -/
def addLayer (gems : Gems) (k : Layout) (map : List MapKey) : Option Placing :=
  map.foldlM (k.addKey gems) ⟨[[]], 0, 0, [], []⟩

/-! ## Scans -/

/-- The column that `scan_matrix!` reports for a column of the matrix. -/
def scanCol (k : Layout) (col : Nat) : Int :=
  if k.anchorLeft then
    if k.anchor then col else ((col : Int) - k.offsetA) * -1 + k.offsetB
  else
    if !k.anchor then col else ((col : Int) - k.offsetA) * -1 + k.offsetB

/-- `Keyboard#scan_matrix!`; `resolve` says of an in pin and an out pin that the switch is open. -/
def scanMatrix (k : Layout) (resolve : Pin → Pin → Bool) : List (Nat × Int) :=
  k.matrix.flatMap fun out =>
    (out.2.filter fun item => !resolve item.1 out.1).map fun item => (item.2.1, k.scanCol item.2.2)

end Layout

/-- The cell of a layer. -/
def cellOf (newMap : List (List (Option Stored))) (cell : Nat × Int) : Option Stored :=
  (newMap[cell.1]?).bind fun row => arrayGet row cell.2.toNat

end PicoRuby.Keyboard
