import PicoRuby.Shared.Bits
import PicoRuby.Shared.Hash

/-!
# BLE::Utils

The methods of ble_utils.rb that the central and the GATT database use. A String is the list of its
bytes, and a method that raises is an `Except`.
-/

namespace PicoRuby.Ble

open Shared

set_option autoImplicit false

abbrev Bytes := List UInt8

/-- What is raised, with the value that its message shows. -/
inductive Error where
  | invalidLength (str : Option Bytes)
deriving DecidableEq, Repr

/-- `str[i]`. -/
def charAt (str : Bytes) (i : Nat) : Option Bytes := str[i]?.map fun b => [b]

/-- `str[i, length]`. -/
def slice (str : Bytes) (i length : Nat) : Option Bytes :=
  if str.length < i then none else some ((str.drop i).take length)

/-- `str[i]&.ord`. -/
def ordAt (str : Bytes) (i : Nat) : Option Nat := str[i]?.map UInt8.toNat

/-! ## ble_utils.rb -/

/-- `Utils.reverse_128`. -/
def reverse128 (src : Option Bytes) : Except Error Bytes :=
  match src with
  | none => .error (.invalidLength none)
  | some src => if src.length = 16 then .ok src.reverse else .error (.invalidLength (some src))

/-- What follows the first four bytes of a UUID that is short for a number. -/
def baseUuid : Bytes := [0x00, 0x00, 0x10, 0x00, 0x80, 0x00, 0x00, 0x80, 0x5F, 0x9B, 0x34, 0xFB]

/-- `Utils.uuid128_to_uuid32`. -/
def uuid128ToUuid32 (uuid128 : Bytes) : Option Nat :=
  if uuid128.length = 16 ∧ slice uuid128 4 12 = some baseUuid then
    some ((ordAt uuid128 0).getD 0 ||| (ordAt uuid128 1).getD 0 <<< 8 |||
      (ordAt uuid128 2).getD 0 <<< 16 ||| (ordAt uuid128 3).getD 0 <<< 24)
  else none

/-- `Utils.int16_to_little_endian`. -/
def int16ToLittleEndian (value : Nat) : Bytes :=
  [UInt8.ofNat (value &&& 0xff), UInt8.ofNat (value >>> 8 &&& 0xff)]

/-- `Utils.int32_to_little_endian`. -/
def int32ToLittleEndian (value : Nat) : Bytes :=
  int16ToLittleEndian (value &&& 0xffff) ++ int16ToLittleEndian (value >>> 16 &&& 0xffff)

/-- `Utils.little_endian_to_int16`. -/
def littleEndianToInt16 (str : Option Bytes) : Except Error Nat :=
  match str with
  | none => .error (.invalidLength none)
  | some str =>
    if 2 < str.length then .error (.invalidLength (some str))
    else .ok ((ordAt str 0).getD 0 ||| (ordAt str 1).getD 0 <<< 8)

/-! ## What they come to -/

theorem int16ToLittleEndian_eq (value : Nat) :
    int16ToLittleEndian value = toLittleEndian 2 value := by
  have hmask (n : Nat) : UInt8.ofNat (n &&& 0xff) = UInt8.ofNat n := by
    apply UInt8.toNat.inj
    rw [UInt8.toNat_ofNat', UInt8.toNat_ofNat', Nat.and_two_pow_sub_one_eq_mod n 8, Nat.mod_mod]
  unfold int16ToLittleEndian
  rw [hmask, hmask, Nat.shiftRight_eq_div_pow]
  rfl

/-- One byte is read as a number below 256. -/
theorem littleEndianToInt16_charAt {str : Bytes} {i : Nat} {b : UInt8} (h : str[i]? = some b) :
    littleEndianToInt16 (charAt str i) = .ok b.toNat := by
  unfold littleEndianToInt16 charAt
  rw [h]
  exact congrArg Except.ok (Nat.or_zero _)

end PicoRuby.Ble

/-!
# Advertising data

`BLE::AdvertisingData`, which puts structures together, and `AdvertisingReport#inspect_reports`, which takes them
apart. A structure is its length, its type and its value; the length counts the type and the value.
-/

namespace PicoRuby.Ble

open Shared

set_option autoImplicit false

/-! ## ble_advertising_data.rb -/

/-- An argument of `add`; `other` has the text that the message shows. -/
inductive Field where
  | str (s : Bytes)
  | int (n : Int)
  | null
  | other (text : String)
deriving DecidableEq, Repr

inductive AdvertisingError where
  | invalidDataType (text : String)
  | tooLong (length : Nat)
  | charRange (n : Int)
deriving DecidableEq, Repr

/-- `Integer#chr`. -/
def chr (n : Int) : Except AdvertisingError UInt8 :=
  if 0 ≤ n ∧ n < 256 then .ok (UInt8.ofNat n.toNat) else .error (.charRange n)

/-- The `while 0 < d` loop of `add`. -/
def integerLoop : Nat → Int → Bytes → Nat → Bytes × Nat
  | 0, _, data, length => (data, length)
  | rounds + 1, d, data, length =>
    if 0 < d then integerLoop rounds (d >>> (8 : Nat)) (data ++ [UInt8.ofNat (d % 256).toNat]) (length + 1)
    else (data, length)

/-- A round of `values.each` in `add`. -/
def addField (data : Bytes) (length : Nat) : Field → Except AdvertisingError (Bytes × Nat)
  | .str d => .ok (data ++ d, length + d.length)
  | .int d => if d = 0 then .ok (data ++ [0], length + 1) else .ok (integerLoop d.toNat d data length)
  | .null => .ok (data ++ [0], length + 1)
  | .other text => .error (.invalidDataType text)

/-- `AdvertisingData#add`. -/
def addStructure (data : Bytes) (type : Int) (values : List Field) : Except AdvertisingError Bytes := do
  let lengthPos := data.length
  let data := data ++ [0]
  let data := data ++ [← chr type]
  let (data, length) ← values.foldlM (fun acc d => addField acc.1 acc.2 d) (data, 1)
  return data.set lengthPos (← chr length)

/-- `AdvertisingData.build` with a block that adds some structures. -/
def build (structures : List (Int × List Field)) : Except AdvertisingError Bytes := do
  let data ← structures.foldlM (fun data (type, values) => addStructure data type values) []
  if 31 < data.length then throw (.tooLong data.length) else return data

/-! ## ble_advertising_report.rb -/

inductive EventType where
  | connectableAdvertisingInd
  | flags
  | incompleteList16BitServiceClassUuids
  | completeList16BitServiceClassUuids
  | incompleteList32BitServiceClassUuids
  | completeList32BitServiceClassUuids
  | incompleteList128BitServiceClassUuids
  | completeList128BitServiceClassUuids
  | shortenedLocalName
  | completeLocalName
  | txPowerLevel
  | manufacturerSpecificData
deriving DecidableEq, Repr

/-- `EVENT_TYPE`. -/
def eventTypes : List (Nat × EventType) :=
  [(0x00, .connectableAdvertisingInd), (0x01, .flags), (0x02, .incompleteList16BitServiceClassUuids),
    (0x03, .completeList16BitServiceClassUuids), (0x04, .incompleteList32BitServiceClassUuids),
    (0x05, .completeList32BitServiceClassUuids), (0x06, .incompleteList128BitServiceClassUuids),
    (0x07, .completeList128BitServiceClassUuids), (0x08, .shortenedLocalName), (0x09, .completeLocalName),
    (0x0A, .txPowerLevel), (0xff, .manufacturerSpecificData)]

/-- A key of `@reports`. -/
inductive ReportKey where
  | event (type : EventType)
  | number (type : Nat)
deriving DecidableEq, Repr

/-- `EVENT_TYPE[type_num] || type_num`. -/
def reportKey (typeNum : Nat) : ReportKey :=
  match hashGet eventTypes typeNum with
  | some type => .event type
  | none => .number typeNum

/-- `str[i, length]` with a length that may be negative. -/
def sliceInt (str : Bytes) (i : Nat) (length : Int) : Option Bytes :=
  if length < 0 then none else slice str i length.toNat

/-- The loop of `inspect_reports`; `none` if `rounds` rounds do not end it. -/
def inspectLoop (data : Bytes) : Nat → List (ReportKey × Bytes) → Nat → Option (List (ReportKey × Bytes))
  | 0, _, _ => none
  | rounds + 1, reports, index =>
    if index < data.length then
      match ordAt data index with
      | none => some reports
      | some length =>
        match ordAt data (index + 1) with
        | none => some reports
        | some typeNum =>
          let value := (sliceInt data (index + 2) ((length : Int) - 1)).getD []
          if value = [] then some reports
          else inspectLoop data rounds (hashSet reports (reportKey typeNum) value) (index + (length + 1))
    else some reports

/-- `AdvertisingReport#inspect_reports`. -/
def inspectReports (data : Bytes) : Option (List (ReportKey × Bytes)) := inspectLoop data (data.length + 1) [] 0

end PicoRuby.Ble
