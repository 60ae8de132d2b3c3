import PicoRuby.Keyboard.Layout
import Mathlib.Data.List.DropRight

/-!
# Key codes of VIA

via.rb names the key codes of the VIA protocol by the key symbols of a keymap, and gives what a layer
holds a key code of the protocol. A few key codes have no name: the byte 0xE8 under a modifier.
-/

namespace PicoRuby.Via

open Shared Keyboard

set_option autoImplicit false

/-- Whether the gems with key codes of their own are required. -/
structure Required where
  consumerKey : Bool
  rgb : Bool
deriving DecidableEq, Repr

/-! ## Tables of the gems -/

/-- `ConsumerKey::KEYCODE`. -/
def consumerKeycode : List (String × Int) := [
  ("KC_SYSTEM_POWER", 0x081), ("KC_SYSTEM_SLEEP", 0x082), ("KC_SYSTEM_WAKE", 0x083),
  ("KC_MEDIA_FAST_FORWARD", 0x0b3), ("KC_MEDIA_REWIND", 0x0b4), ("KC_MEDIA_NEXT_TRACK", 0x0B5),
  ("KC_MEDIA_PREV_TRACK", 0x0B6), ("KC_MEDIA_STOP", 0x0B7), ("KC_MEDIA_EJECT", 0x0B8),
  ("KC_MEDIA_PLAY_PAUSE", 0x0CD), ("KC_MEDIA_SELECT", 0x183), ("KC_AUDIO_MUTE", 0x0E2),
  ("KC_AUDIO_VOL_UP", 0x0E9), ("KC_AUDIO_VOL_DOWN", 0x0EA), ("KC_BRIGHTNESS_UP", 0x06F),
  ("KC_BRIGHTNESS_DOWN", 0x070), ("KC_MAIL", 0x18B), ("KC_CALCULATOR", 0x192),
  ("KC_MY_COMPUTER", 0x194), ("KC_WWW_SEARCH", 0x221), ("KC_WWW_HOME", 0x223),
  ("KC_WWW_BACK", 0x224), ("KC_WWW_FORWARD", 0x225), ("KC_WWW_STOP", 0x226),
  ("KC_WWW_REFRESH", 0x227), ("KC_WWW_FAVORITES", 0x22A)]

/-- `ConsumerKey::VIACODE`. -/
def consumerViacode : List (Nat × String) := [
  (0xA5, "KC_SYSTEM_POWER"), (0xA6, "KC_SYSTEM_SLEEP"), (0xA7, "KC_SYSTEM_WAKE"),
  (0xBB, "KC_MEDIA_FAST_FORWARD"), (0xBC, "KC_MEDIA_REWIND"), (0xAB, "KC_MEDIA_NEXT_TRACK"),
  (0xAC, "KC_MEDIA_PREV_TRACK"), (0xAD, "KC_MEDIA_STOP"), (0xB0, "KC_MEDIA_EJECT"),
  (0xAE, "KC_MEDIA_PLAY_PAUSE"), (0xAF, "KC_MEDIA_SELECT"), (0xA8, "KC_AUDIO_MUTE"),
  (0xA9, "KC_AUDIO_VOL_UP"), (0xAA, "KC_AUDIO_VOL_DOWN"), (0xBD, "KC_BRIGHTNESS_UP"),
  (0xBE, "KC_BRIGHTNESS_DOWN"), (0xB1, "KC_MAIL"), (0xB2, "KC_CALCULATOR"),
  (0xB3, "KC_MY_COMPUTER"), (0xB4, "KC_WWW_SEARCH"), (0xB5, "KC_WWW_HOME"),
  (0xB6, "KC_WWW_BACK"), (0xB7, "KC_WWW_FORWARD"), (0xB8, "KC_WWW_STOP"),
  (0xB9, "KC_WWW_REFRESH"), (0xBA, "KC_WWW_FAVORITES")]

/-- `RGB::KEYCODE`. -/
def rgbKeycode : List (String × Int) := [
  ("RGB_TOG", 0x701), ("RGB_MODE_FORWARD", 0x702), ("RGB_MOD", 0x703),
  ("RGB_MODE_REVERSE", 0x704), ("RGB_RMOD", 0x705), ("RGB_HUI", 0x706), ("RGB_HUD", 0x707),
  ("RGB_SAI", 0x708), ("RGB_SAD", 0x709), ("RGB_VAI", 0x70a), ("RGB_VAD", 0x70b),
  ("RGB_SPI", 0x70c), ("RGB_SPD", 0x70d)]

/-- `Hash#key`. -/
def hashKey {K V : Type} [DecidableEq V] (l : List (K × V)) (v : V) : Option K :=
  (l.find? fun kv => kv.2 = v).map Prod.fst

/-- `ConsumerKey.viacode_from_mapcode`. -/
def viacodeFromMapcode (mapcode : Int) : Option Nat :=
  hashKey consumerViacode ((hashKey consumerKeycode (mapcode - 0x400)).getD "KC_NO")

/-! ## From VIA to symbols -/

/-- `String#split`, which leaves empty strings at the end away. -/
def split (sep : Char) (s : String) : List String :=
  ((s.toList.splitOn sep).rdropWhile List.isEmpty).map String.ofList

def modifierNames : List String := ["LCTL", "LSFT", "LALT", "LGUI", "RCTL", "RSFT", "RALT", "RGUI"]

/-- `VIA#get_modifier_name`. -/
def getModifierName (bits : Nat) : String :=
  String.intercalate "_" ((modifierNames.zipIdx.filter fun name => bits.testBit name.2).map Prod.fst)

/-- `VIA#check_for_keycode_shift`. -/
def checkForKeycodeShift (keycode : Nat) : Option String :=
  if (keycode >>> 8) &&& 0x0F = 0x02 then
    let code := keycode &&& 0x00FF
    if code < 0x1e ∨ 0x38 < code then none else hashKey keycodeSft code
  else none

/-- `VIA#via_keycode_into_keysymbol` of a byte. -/
def viaByteIntoKeysymbol (required : Required) (keycode : Nat) : String :=
  if 0x00C0 ≤ keycode ∧ keycode ≤ 0x00DF then "VIA_FUNC" ++ toString (keycode - 0x00C0)
  else if keycode < 0xE0 then
    match keycodes[keycode &&& 0x00FF]? with
    | some sym => sym
    | none =>
      if required.consumerKey then (hashGet consumerViacode (keycode &&& 0x00FF)).getD "KC_NO" else "KC_NO"
  else if 8 < keycode - 0xE0 then "KC_NO"
  else "KC_" ++ getModifierName (1 <<< (keycode - 0xE0))

/-- The name of a key under modifiers; a key without a name behind its `KC_` is a TypeError. -/
def modifiedKeysymbol (required : Required) (modifiers key : Nat) : Option String :=
  (split '_' (viaByteIntoKeysymbol required key))[1]?.map fun name =>
    getModifierName modifiers ++ "_" ++ name

/-- `VIA#via_keycode_into_keysymbol`; `none` is a TypeError. -/
def viaKeycodeIntoKeysymbol (required : Required) (keycode : Nat) : Option String :=
  if keycode >>> 8 = 0 then some (viaByteIntoKeysymbol required keycode)
  else
    match (keycode >>> 12) &&& 0x0F with
    | 0x0 =>
      match checkForKeycodeShift keycode with
      | some keysymbol => some keysymbol
      | none => modifiedKeysymbol required ((keycode >>> 8) &&& 0x0F) (keycode &&& 0x00FF)
    | 0x1 =>
      match checkForKeycodeShift keycode with
      | some keysymbol => some keysymbol
      | none => modifiedKeysymbol required (((keycode >>> 8) &&& 0x0F) <<< 4) (keycode &&& 0x00FF)
    | 0x5 =>
      if !required.rgb then some "KC_NO"
      else if keycode = 0x5CC2 then some "RGB_TOG"
      else if keycode = 0x5CC3 then some "RGB_MOD"
      else if keycode = 0x5CC4 then some "RGB_RMOD"
      else if 0x5CC5 ≤ keycode ∧ keycode ≤ 0x5CCC then
        some (((rgbKeycode.map Prod.fst)[keycode &&& 0x0F]?).getD "")
      else some "KC_NO"
    | _ => some "KC_NO"

/-! ## Key codes without a name -/

/-- A modifier or more over the byte 0xE8. -/
def Unnamed (keycode : Nat) : Prop :=
  keycode >>> 8 ≠ 0 ∧ (keycode >>> 12) &&& 0x0F < 2 ∧ keycode &&& 0x00FF = 0xE8

instance : DecidablePred Unnamed := fun _ => inferInstanceAs (Decidable (_ ∧ _))

section Names
variable {required : Required}

theorem keycodes_name : ∀ name ∈ keycodes, (split '_' name)[1]?.isSome = true := by decide +kernel

theorem consumerViacode_name :
    ∀ kv ∈ consumerViacode, (split '_' kv.2)[1]?.isSome = true := by decide +kernel

theorem viaFunc_name : ∀ n < 32, (split '_' ("VIA_FUNC" ++ toString n))[1]?.isSome = true := by
  decide +kernel

theorem modifier_name :
    ∀ i ≤ 8, (split '_' ("KC_" ++ getModifierName (1 <<< i)))[1]?.isSome = true ↔ i ≠ 8 := by
  decide +kernel

/-- The byte 0xE8 is the only one with nothing behind its `KC_`. -/
theorem byte_name {key : Nat} (hkey : key < 0x100) :
    (split '_' (viaByteIntoKeysymbol required key))[1]?.isSome = true ↔ key ≠ 0xE8 := by
  have hno : (split '_' "KC_NO")[1]?.isSome = true :=
    keycodes_name "KC_NO" List.mem_cons_self
  unfold viaByteIntoKeysymbol
  by_cases hfunc : 0x00C0 ≤ key ∧ key ≤ 0x00DF
  · have hname := viaFunc_name (key - 0xC0) (by omega)
    rw [if_pos hfunc]
    simp only [hname, true_iff]
    omega
  · rw [if_neg hfunc]
    by_cases hlow : key < 0xE0
    · have hne : key ≠ 0xE8 := by omega
      rw [if_pos hlow]
      simp only [hne, ne_eq, not_false_eq_true, iff_true]
      cases hsym : keycodes[key &&& 0x00FF]? with
      | some sym => exact keycodes_name sym (List.mem_of_getElem? hsym)
      | none =>
        dsimp only
        split
        · cases hget : hashGet consumerViacode (key &&& 0x00FF) with
          | none =>
            rw [Option.getD_none]
            exact hno
          | some sym =>
            have hname := consumerViacode_name _ (hashGet_mem hget)
            rw [Option.getD_some]
            exact hname
        · exact hno
    · rw [if_neg hlow]
      by_cases hhigh : 8 < key - 0xE0
      · rw [if_pos hhigh]
        simp only [hno, true_iff]
        omega
      · rw [if_neg hhigh, modifier_name _ (by omega)]
        omega

theorem modifiedKeysymbol_isSome {modifiers key : Nat} (hkey : key < 0x100) :
    (modifiedKeysymbol required modifiers key).isSome = true ↔ key ≠ 0xE8 := by
  rw [modifiedKeysymbol, Option.isSome_map, byte_name hkey]

/-- Exactly these have no name. -/
theorem viaKeycodeIntoKeysymbol_isSome {keycode : Nat} :
    (viaKeycodeIntoKeysymbol required keycode).isSome = true ↔ ¬ Unnamed keycode := by
  have hkey : keycode &&& 0x00FF < 0x100 := Nat.lt_succ_of_le Nat.and_le_right
  have hshift (h : keycode &&& 0x00FF = 0xE8) : checkForKeycodeShift keycode = none := by
    unfold checkForKeycodeShift
    rw [h]
    simp
  unfold viaKeycodeIntoKeysymbol Unnamed
  by_cases hbyte : keycode >>> 8 = 0
  · simp [hbyte]
  · rw [if_neg hbyte]
    split
    · rename_i hhigh
      simp only [hbyte, hhigh, ne_eq, not_false_eq_true, true_and, Nat.zero_lt_two]
      cases hsft : checkForKeycodeShift keycode with
      | none => exact modifiedKeysymbol_isSome hkey
      | some sym =>
        simp only [Option.isSome_some, true_iff]
        intro hlow
        simp [hshift hlow] at hsft
    · rename_i hhigh
      simp only [hbyte, hhigh, ne_eq, not_false_eq_true, true_and, Nat.one_lt_two]
      cases hsft : checkForKeycodeShift keycode with
      | none => exact modifiedKeysymbol_isSome hkey
      | some sym =>
        simp only [Option.isSome_some, true_iff]
        intro hlow
        simp [hshift hlow] at hsft
    · rename_i hhigh
      rw [hhigh]
      split_ifs <;> simp
    · rename_i hzero hone _
      have hge : ¬ (keycode >>> 12) &&& 0x0F < 2 := by
        intro hlt
        rcases Nat.lt_or_ge ((keycode >>> 12) &&& 0x0F) 1 with h | h
        · exact hzero (by omega)
        · exact hone (by omega)
      simp [hge]

end Names

/-! ## From layers to VIA -/

/-- `VIA#prk_keycode_into_via_keycode` of an Integer; `none` is a TypeError. -/
def prkCodeIntoViaKeycode (required : Required) (key : Int) : Option Nat :=
  if 0 < key then
    if key < 0x100 then some (((List.range 8).find? fun i => key.toNat >>> i = 1).elim 0 (0xE0 + ·))
    else if key < 0x101 then some 0
    else if required.consumerKey ∧ key < 0x600 then some ((viacodeFromMapcode key).getD 0)
    else if required.rgb ∧ key ≤ 0x70d then
      if key < 0x606 then
        let i := if key - 0x601 < 0 then key - 0x601 + 5 else key - 0x601
        if i < 0 then none else [2, 3, 3, 4, 4][i.toNat]?.map (0x5CC0 + ·)
      else some (0x5CC5 + key - 0x606).toNat
    else some 0
  else if key < -255 then some ((0x12 <<< 8) ||| (key * (-1) - 0x100).toNat)
  else some (-key).toNat

/-- A part of a name in `get_via_composite_keycode`. -/
def compositePart (gems : Gems) (required : Required) (acc : Nat × Nat) (n : String) :
    Option (Nat × Nat) :=
  match modifierNames.idxOf? n with
  | some i => some (acc.1 ||| 1 <<< i, acc.2)
  | none =>
    match findKeycodeIndex gems ("KC_" ++ n) with
    | .code prkKeycode => (prkCodeIntoViaKeycode required prkKeycode).map fun keycode => (acc.1, keycode)
    | .symbol _ => some (acc.1, 0)

/-- `VIA#get_via_composite_keycode`. -/
def getViaCompositeKeycode (gems : Gems) (required : Required) (keyname : String) : Option Nat := do
  let (modifier, viaKeycode) ← (split '_' keyname).foldlM (compositePart gems required) (0, 0)
  if 0x0F &&& modifier = 0 then
    return (viaKeycode ||| (modifier <<< 4 &&& 0x0F00)) ||| 0x1000
  else
    return viaKeycode ||| modifier <<< 8

/-- `VIA#prk_keycode_into_via_keycode`. -/
def prkKeycodeIntoViaKeycode (gems : Gems) (required : Required) : Stored → Option Nat
  | .code key => prkCodeIntoViaKeycode required key
  | .symbol key =>
    if key = "KC_NO" then some 0
    else if key.startsWith "VIA_FUNC" then
      some (0x00C0 + ((split 'C' key)[1]?.elim 0 fun digits => (digitsToInt digits.toList).toNat))
    else if !key.startsWith "KC_" then getViaCompositeKeycode gems required key
    else some 0

end PicoRuby.Via
