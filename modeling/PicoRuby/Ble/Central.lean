import PicoRuby.Ble.Advertising
import PicoRuby.Shared.Results
import Mathlib.Data.List.Basic

/-!
# The central of picoruby-ble

`BLE#packet_callback` of ble_central.rb in the central role. What a callback asks the GATT client
for is part of its result, and whether the client takes it is a parameter. The debug lines are left
out, and so is `advertising_report_callback`, which is there to be overridden.
-/

namespace PicoRuby.Ble

set_option autoImplicit false

inductive State where
  | tcOff
  | tcIdle
  | tcW4ScanResult
  | tcW4Connect
  | tcW4ServiceResult
  | tcW4CharacteristicResult
  | tcW4CharacteristicValueResult
  | tcW4AllCharacteristicDescriptorsResult
  | tcW4CharacteristicDescriptorValueResult
deriving DecidableEq, Repr

structure Descriptor where
  handle : Nat
  uuid128 : Bytes
  uuid32 : Option Nat
  value : Option Bytes
deriving DecidableEq, Repr

structure Characteristic where
  startHandle : Nat
  valueHandle : Nat
  endHandle : Nat
  properties : Nat
  uuid128 : Bytes
  uuid32 : Option Nat
  value : Option Bytes
  descriptors : List Descriptor
deriving DecidableEq, Repr

structure Service where
  startHandle : Nat
  endHandle : Nat
  uuid128 : Bytes
  uuid32 : Option Nat
  characteristics : List Characteristic
deriving DecidableEq, Repr

/-- What the methods that ask the GATT client are called with, the connection handle apart. -/
inductive Request where
  | discoverPrimaryServices
  | discoverCharacteristicsForService (startHandle endHandle : Nat)
  | readValueOfCharacteristicUsingValueHandle (valueHandle : Nat)
  | discoverCharacteristicDescriptors (valueHandle endHandle : Nat)
deriving DecidableEq, Repr

structure Query where
  connHandle : Nat
  request : Request
deriving DecidableEq, Repr

/-- The instance variables; a range is the pair of the handles it is kept with. -/
structure Central where
  state : State
  connHandle : Nat
  services : List Service
  characteristicHandleRanges : List (Nat × Nat)
  valueHandles : List Nat
  descriptorHandleRanges : List (Nat × Nat)
  descriptorHandles : List Nat
deriving DecidableEq, Repr

def hciConHandleInvalid : Nat := 0xffff

def initCentral : Central := ⟨.tcOff, hciConHandleInvalid, [], [], [], [], []⟩

/-! ## Events -/

def HCI_SUBEVENT_LE_CONNECTION_COMPLETE : Nat := 0x01
def HCI_EVENT_DISCONNECTION_COMPLETE : Nat := 0x05
def HCI_STATE_WORKING : Nat := 2
def BTSTACK_EVENT_STATE : Nat := 0x60
def HCI_EVENT_LE_META : Nat := 0x3E
def GATT_EVENT_QUERY_COMPLETE : Nat := 0xA0
def GATT_EVENT_SERVICE_QUERY_RESULT : Nat := 0xA1
def GATT_EVENT_CHARACTERISTIC_QUERY_RESULT : Nat := 0xA2
def GATT_EVENT_ALL_CHARACTERISTIC_DESCRIPTORS_QUERY_RESULT : Nat := 0xA4
def GATT_EVENT_CHARACTERISTIC_VALUE_QUERY_RESULT : Nat := 0xA5
def GATT_EVENT_LONG_CHARACTERISTIC_VALUE_QUERY_RESULT : Nat := 0xA6

/-! ## What a packet is decoded to -/

/-- `Utils.little_endian_to_int16(event_packet[i])`, as it stands. -/
def int16At (packet : Bytes) (i : Nat) : Except Error Nat := littleEndianToInt16 (charAt packet i)

/-- The service of a `GATT_EVENT_SERVICE_QUERY_RESULT`. -/
def serviceOf (packet : Bytes) : Except Error Service := do
  let startHandle ← int16At packet 4
  let endHandle ← int16At packet 6
  let uuid128 ← reverse128 (slice packet 8 16)
  return ⟨startHandle, endHandle, uuid128, uuid128ToUuid32 uuid128, []⟩

/-- The characteristic of a `GATT_EVENT_CHARACTERISTIC_QUERY_RESULT`. -/
def characteristicOf (packet : Bytes) : Except Error Characteristic := do
  let startHandle ← int16At packet 4
  let valueHandle ← int16At packet 6
  let endHandle ← int16At packet 8
  let uuid128 ← reverse128 (slice packet 12 16)
  let properties ← int16At packet 10
  return ⟨startHandle, valueHandle, endHandle, properties, uuid128, uuid128ToUuid32 uuid128, none, []⟩

/-- The descriptor of a `GATT_EVENT_ALL_CHARACTERISTIC_DESCRIPTORS_QUERY_RESULT`. -/
def descriptorOf (packet : Bytes) : Except Error Descriptor := do
  let handle ← int16At packet 4
  let uuid128 ← reverse128 (slice packet 6 16)
  return ⟨handle, uuid128, uuid128ToUuid32 uuid128, none⟩

/-- The handle that a `GATT_EVENT_CHARACTERISTIC_VALUE_QUERY_RESULT` is compared by. -/
def valueHandleOf (packet : Bytes) : Except Error Nat := int16At packet 4

/-- The number of bytes that are taken as the value. -/
def valueLengthOf (packet : Bytes) : Except Error Nat := int16At packet 6

/-- The value of a `GATT_EVENT_CHARACTERISTIC_VALUE_QUERY_RESULT`. -/
def valueOf (packet : Bytes) : Except Error (Option Bytes) := do
  let length ← valueLengthOf packet
  return slice packet 8 length

/-! ## The loops over `@services` -/

/-- The characteristic goes to the first service that it lies in. -/
def addCharacteristic (chara : Characteristic) : List Service → List Service
  | [] => []
  | service :: services =>
    if service.startHandle < chara.startHandle ∧ chara.endHandle ≤ service.endHandle then
      { service with characteristics := service.characteristics ++ [chara] } :: services
    else service :: addCharacteristic chara services

/-- The inner loop for the value of a characteristic, which ends at the first one that fits. -/
def setCharacteristicValue (packet : Bytes) :
    List Characteristic → Except Error (List Characteristic)
  | [] => return []
  | chara :: charas => do
    if chara.valueHandle = (← valueHandleOf packet) then
      return { chara with value := ← valueOf packet } :: charas
    else return chara :: (← setCharacteristicValue packet charas)

/-- The inner loop for the value of a descriptor. -/
def setDescriptorValue (packet : Bytes) : List Descriptor → Except Error (List Descriptor)
  | [] => return []
  | descriptor :: descriptors => do
    if descriptor.handle = (← valueHandleOf packet) then
      return { descriptor with value := ← valueOf packet } :: descriptors
    else return descriptor :: (← setDescriptorValue packet descriptors)

def setCharacteristicValues (packet : Bytes) (services : List Service) :
    Except Error (List Service) :=
  services.mapM fun service => do
    return { service with characteristics := ← setCharacteristicValue packet service.characteristics }

def setDescriptorValueOf (packet : Bytes) (chara : Characteristic) : Except Error Characteristic := do
  return { chara with descriptors := ← setDescriptorValue packet chara.descriptors }

def setDescriptorValues (packet : Bytes) (services : List Service) : Except Error (List Service) :=
  services.mapM fun service => do
    return { service with
      characteristics := ← service.characteristics.mapM (setDescriptorValueOf packet) }

/-- The descriptor goes to every characteristic that it lies in. -/
def addDescriptor (descriptor : Descriptor) (services : List Service) : List Service :=
  services.map fun service => { service with
    characteristics := service.characteristics.map fun chara =>
      if chara.valueHandle < descriptor.handle ∧ descriptor.handle ≤ chara.endHandle then
        { chara with descriptors := chara.descriptors ++ [descriptor] }
      else chara }

section Loops
variable {packet : Bytes} {handle : Nat} {value : Option Bytes}

theorem map_ite_of_ne {α : Type} {key : α → Nat} {f : α → α} {xs : List α}
    (h : ∀ x ∈ xs, key x ≠ handle) : (xs.map fun x => if key x = handle then f x else x) = xs := by
  have hsame : ∀ x ∈ xs, (if key x = handle then f x else x) = id x := fun x hx => if_neg (h x hx)
  rw [List.map_congr_left hsame, List.map_id]

/-- Where the handles are different, the value goes to the characteristic with its handle. -/
theorem setCharacteristicValue_eq_map (hhandle : valueHandleOf packet = .ok handle)
    (hvalue : valueOf packet = .ok value) {charas : List Characteristic}
    (hnodup : (charas.map Characteristic.valueHandle).Nodup) :
    setCharacteristicValue packet charas = .ok (charas.map fun chara =>
      if chara.valueHandle = handle then { chara with value } else chara) := by
  induction charas with
  | nil => rfl
  | cons chara charas ih =>
    rw [List.map_cons, List.nodup_cons] at hnodup
    unfold setCharacteristicValue
    rw [hhandle, hvalue, List.map_cons]
    change (if chara.valueHandle = handle then _ else _) = _
    by_cases hmatch : chara.valueHandle = handle
    · rw [if_pos hmatch, if_pos hmatch, map_ite_of_ne]
      · rfl
      · intro other hother heq
        exact hnodup.1 (List.mem_map.mpr ⟨other, hother, heq.trans hmatch.symm⟩)
    · rw [if_neg hmatch, if_neg hmatch, ih hnodup.2]
      rfl

end Loops

/-! ## packet_callback -/

namespace Central

/-- Asking for the characteristics in a range. -/
def discoverCharacteristics (c : Central) (range : Nat × Nat) : Option Query :=
  some ⟨c.connHandle, .discoverCharacteristicsForService range.1 range.2⟩

def readValue (c : Central) (handle : Nat) : Option Query :=
  some ⟨c.connHandle, .readValueOfCharacteristicUsingValueHandle handle⟩

def discoverDescriptors (c : Central) (range : Nat × Nat) : Option Query :=
  some ⟨c.connHandle, .discoverCharacteristicDescriptors range.1 range.2⟩

/-- The branch of `:TC_W4_SERVICE_RESULT`. -/
def serviceResult (c : Central) (eventType : Nat) (packet : Bytes) :
    Except Error (Central × Option Query) :=
  if eventType = GATT_EVENT_SERVICE_QUERY_RESULT then do
    let service ← serviceOf packet
    return ({ c with
      services := c.services ++ [service]
      characteristicHandleRanges :=
        c.characteristicHandleRanges ++ [(service.startHandle, service.endHandle)] }, none)
  else if eventType = GATT_EVENT_QUERY_COMPLETE then
    match c.characteristicHandleRanges with
    | range :: ranges =>
      return ({ c with
        characteristicHandleRanges := ranges
        state := .tcW4CharacteristicResult }, c.discoverCharacteristics range)
    | [] => return ({ c with state := .tcIdle }, none)
  else return (c, none)

/-- The branch of `:TC_W4_CHARACTERISTIC_RESULT`. -/
def characteristicResult (c : Central) (eventType : Nat) (packet : Bytes) :
    Except Error (Central × Option Query) :=
  if eventType = GATT_EVENT_CHARACTERISTIC_QUERY_RESULT then do
    let chara ← characteristicOf packet
    return ({ c with
      services := addCharacteristic chara c.services
      valueHandles := c.valueHandles ++ [chara.valueHandle]
      descriptorHandleRanges :=
        if chara.valueHandle < chara.endHandle then
          c.descriptorHandleRanges ++ [(chara.valueHandle, chara.endHandle)]
        else c.descriptorHandleRanges }, none)
  else if eventType = GATT_EVENT_QUERY_COMPLETE then
    match c.characteristicHandleRanges with
    | range :: ranges =>
      return ({ c with characteristicHandleRanges := ranges }, c.discoverCharacteristics range)
    | [] =>
      match c.valueHandles with
      | handle :: handles =>
        return ({ c with
          valueHandles := handles
          state := .tcW4CharacteristicValueResult }, c.readValue handle)
      | [] => return (c, none)
  else return (c, none)

/-- The branch of `:TC_W4_CHARACTERISTIC_VALUE_RESULT`. -/
def characteristicValueResult (c : Central) (eventType : Nat) (packet : Bytes) :
    Except Error (Central × Option Query) :=
  if eventType = GATT_EVENT_CHARACTERISTIC_VALUE_QUERY_RESULT then do
    let services ← setCharacteristicValues packet c.services
    match c.valueHandles with
    | handle :: handles =>
      return ({ c with services, valueHandles := handles }, c.readValue handle)
    | [] => return ({ c with services }, none)
  else if eventType = GATT_EVENT_QUERY_COMPLETE then
    match c.descriptorHandleRanges with
    | range :: ranges =>
      return ({ c with
        descriptorHandleRanges := ranges
        state := .tcW4AllCharacteristicDescriptorsResult }, c.discoverDescriptors range)
    | [] => return ({ c with state := .tcIdle }, none)
  else return (c, none)

/-- The branch of `:TC_W4_ALL_CHARACTERISTIC_DESCRIPTORS_RESULT`. -/
def allCharacteristicDescriptorsResult (c : Central) (eventType : Nat) (packet : Bytes) :
    Except Error (Central × Option Query) :=
  if eventType = GATT_EVENT_ALL_CHARACTERISTIC_DESCRIPTORS_QUERY_RESULT then do
    let descriptor ← descriptorOf packet
    return ({ c with
      services := addDescriptor descriptor c.services
      descriptorHandles := c.descriptorHandles ++ [descriptor.handle] }, none)
  else if eventType = GATT_EVENT_QUERY_COMPLETE then
    match c.descriptorHandleRanges with
    | range :: ranges =>
      return ({ c with descriptorHandleRanges := ranges }, c.discoverDescriptors range)
    | [] =>
      match c.descriptorHandles with
      | handle :: handles =>
        return ({ c with
          descriptorHandles := handles
          state := .tcW4CharacteristicDescriptorValueResult }, c.readValue handle)
      | [] => return ({ c with state := .tcIdle }, none)
  else return (c, none)

/-- The branch of `:TC_W4_CHARACTERISTIC_DESCRIPTOR_VALUE_RESULT`. -/
def characteristicDescriptorValueResult (c : Central) (eventType : Nat) (packet : Bytes) :
    Except Error (Central × Option Query) :=
  if eventType = GATT_EVENT_CHARACTERISTIC_VALUE_QUERY_RESULT then do
    let services ← setDescriptorValues packet c.services
    match c.descriptorHandles with
    | handle :: handles =>
      return ({ c with services, descriptorHandles := handles }, c.readValue handle)
    | [] => return ({ c with services }, none)
  else if eventType = GATT_EVENT_QUERY_COMPLETE then return ({ c with state := .tcIdle }, none)
  else return (c, none)

/-- The branch of the GATT events. -/
def gattEvent (c : Central) (eventType : Nat) (packet : Bytes) :
    Except Error (Central × Option Query) :=
  match c.state with
  | .tcW4ServiceResult => c.serviceResult eventType packet
  | .tcW4CharacteristicResult => c.characteristicResult eventType packet
  | .tcW4CharacteristicValueResult => c.characteristicValueResult eventType packet
  | .tcW4AllCharacteristicDescriptorsResult => c.allCharacteristicDescriptorsResult eventType packet
  | .tcW4CharacteristicDescriptorValueResult => c.characteristicDescriptorValueResult eventType packet
  | _ => return (c, none)

/-- The branch of `HCI_EVENT_LE_META`. -/
def leMeta (c : Central) (accepts : Query → Bool) (packet : Bytes) :
    Except Error (Central × Option Query) :=
  if c.state ≠ .tcW4Connect then return (c, none)
  else if ordAt packet 2 = some HCI_SUBEVENT_LE_CONNECTION_COMPLETE then do
    let connHandle ← littleEndianToInt16 (slice packet 4 2)
    let query : Query := ⟨connHandle, .discoverPrimaryServices⟩
    return ({ c with
      connHandle
      state := if accepts query then .tcW4ServiceResult else .tcIdle
      services := [] }, some query)
  else if ordAt packet 2 = some HCI_EVENT_DISCONNECTION_COMPLETE then
    return ({ c with connHandle := hciConHandleInvalid }, none)
  else return (c, none)

/-- `BLE#packet_callback`. `accepts` is whether the GATT client takes a query. -/
def packetCallback (c : Central) (accepts : Query → Bool) (packet : Bytes) :
    Except Error (Central × Option Query) :=
  match ordAt packet 0 with
  | none => return (c, none)
  | some eventType =>
    if eventType = BTSTACK_EVENT_STATE then
      if c.state ≠ .tcOff ∧ c.state ≠ .tcIdle then return (c, none)
      else if ordAt packet 2 = some HCI_STATE_WORKING then
        return ({ c with state := .tcW4ScanResult }, none)
      else return ({ c with state := .tcOff }, none)
    else if eventType = HCI_EVENT_LE_META then c.leMeta accepts packet
    else if GATT_EVENT_QUERY_COMPLETE ≤ eventType ∧
        eventType ≤ GATT_EVENT_LONG_CHARACTERISTIC_VALUE_QUERY_RESULT then
      c.gattEvent eventType packet
    else return (c, none)

end Central

end PicoRuby.Ble
