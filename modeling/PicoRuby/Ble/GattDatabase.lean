import PicoRuby.Ble.Advertising
import PicoRuby.Shared.Hash

/-!
# BLE::GattDatabase

The database of ble_gatt_database.rb. `MbedTLS::CMAC` is a parameter: the digest for a key and what
it is updated with. An instance is made with a block, whose calls are a tree.
-/

namespace PicoRuby.Ble

open Shared

set_option autoImplicit false

/-! ## Constants -/

def ATT_DB_VERSION : UInt8 := 0x01
def READ : Nat := 0x02
def WRITE_WITHOUT_RESPONSE : Nat := 0x04
def WRITE : Nat := 0x08
def NOTIFY : Nat := 0x10
def INDICATE : Nat := 0x20
def DYNAMIC : Nat := 0x100
def LONG_UUID : Nat := 0x200
def READ_PERMISSION_BIT_0 : Nat := 0x400
def READ_PERMISSION_BIT_1 : Nat := 0x800
def ENCRYPTION_KEY_SIZE_MASK : Nat := 0xf000
def AUTHENTICATION_REQUIRED : Nat := 0x00020000
def AUTHORIZATION_REQUIRED : Nat := 0x00040000
def READ_ENCRYPTED : Nat := 0x00100000
def READ_AUTHENTICATED : Nat := 0x00200000
def READ_AUTHENTICATED_SC : Nat := 0x00400000
def READ_AUTHORIZED : Nat := 0x00800000
def WRITE_ENCRYPTED : Nat := 0x02000000
def WRITE_AUTHENTICATED : Nat := 0x04000000
def WRITE_AUTHENTICATED_SC : Nat := 0x08000000
def WRITE_AUTHORIZED : Nat := 0x10000000
def WRITE_PERMISSION_BIT_0 : Nat := 0x01
def WRITE_PERMISSION_BIT_1 : Nat := 0x10
def READ_PERMISSION_SC : Nat := 0x20
def WRITE_PERMISSION_SC : Nat := 0x80

/-- What is passed as a UUID. -/
inductive Uuid where
  | int (n : Int)
  | str (s : Bytes)
deriving DecidableEq, Repr

def GATT_PRIMARY_SERVICE_UUID : Uuid := .int 0x2800
def GATT_SECONDARY_SERVICE_UUID : Uuid := .int 0x2801
def GATT_CHARACTERISTIC_UUID : Nat := 0x2803
def CHARACTERISTIC_DATABASE_HASH : Uuid := .int 0x2b2a

/-- What is raised. `noMethod` is `[]=` of nil, where there is nothing in the table. -/
inductive DatabaseError where
  | invalidUuid (uuid : Uuid)
  | invalidHashKey (value : Option Bytes)
  | noDigest (i : Nat)
  | noMethod
deriving DecidableEq, Repr

/-! ## Flags and UUIDs -/

/-- The level of security and whether a secure connection is required. -/
def securityLevel (properties authorized authenticated authenticatedSc encrypted : Nat) : Nat × Bool :=
  if 0 < properties &&& authorized then (3, false)
  else if 0 < properties &&& authenticated then (2, false)
  else if 0 < properties &&& authenticatedSc then (2, true)
  else if 0 < properties &&& encrypted then (1, false)
  else (0, false)

/-- `properties |= flag if condition`. -/
def orIf (properties flag : Nat) (condition : Prop) [Decidable condition] : Nat :=
  if condition then properties ||| flag else properties

def attFlags (properties : Nat) : Nat :=
  let properties := properties &&& 0xfffff4e
  let distinctPermissionsUsed : Bool := properties &&& 0x1ff80000 != 0
  let encryptionKeySizeSpecified : Bool := properties &&& ENCRYPTION_KEY_SIZE_MASK != 0
  let properties := orIf properties (READ_ENCRYPTED ||| WRITE_ENCRYPTED)
    (encryptionKeySizeSpecified ∧ ¬ distinctPermissionsUsed)
  let properties := orIf properties (READ_AUTHENTICATED ||| WRITE_AUTHENTICATED)
    (0 < properties &&& AUTHENTICATION_REQUIRED ∧ ¬ distinctPermissionsUsed)
  let properties := orIf properties (READ_AUTHORIZED ||| WRITE_AUTHORIZED)
    (0 < properties &&& AUTHORIZATION_REQUIRED ∧ ¬ distinctPermissionsUsed)
  let (readSecurityLevel, readRequiresSc) := securityLevel properties READ_AUTHORIZED
    READ_AUTHENTICATED READ_AUTHENTICATED_SC READ_ENCRYPTED
  let (writeSecurityLevel, writeRequiresSc) := securityLevel properties WRITE_AUTHORIZED
    WRITE_AUTHENTICATED WRITE_AUTHENTICATED_SC WRITE_ENCRYPTED
  let properties := orIf properties READ_PERMISSION_BIT_1 (0 < readSecurityLevel &&& 2)
  let properties := orIf properties READ_PERMISSION_BIT_0 (0 < readSecurityLevel &&& 1)
  let properties := orIf properties READ_PERMISSION_SC readRequiresSc
  let properties := orIf properties WRITE_PERMISSION_BIT_1 (0 < writeSecurityLevel &&& 2)
  let properties := orIf properties WRITE_PERMISSION_BIT_0 (0 < writeSecurityLevel &&& 1)
  orIf properties WRITE_PERMISSION_SC writeRequiresSc

def writePermissionsAndKeySizeFlagsFromProperties (properties : Nat) : Nat :=
  attFlags properties &&&
    (ENCRYPTION_KEY_SIZE_MASK ||| WRITE_PERMISSION_BIT_0 ||| WRITE_PERMISSION_BIT_1)

/-- `flag` of flag_by_uuid. -/
def flagOf (properties : Nat) : Nat :=
  if properties &&& (NOTIFY ||| INDICATE) ≠ 0 then
    writePermissionsAndKeySizeFlagsFromProperties properties ||| READ ||| WRITE |||
      WRITE_WITHOUT_RESPONSE ||| DYNAMIC
  else properties

def flagByUuid (uuid : Uuid) (properties : Nat) : Except DatabaseError Bytes :=
  match uuid with
  | .str s =>
    if s.length = 16 then return int16ToLittleEndian (flagOf properties ||| LONG_UUID)
    else throw (.invalidUuid uuid)
  | .int _ => return int16ToLittleEndian (flagOf properties)

def uuid2str (uuid : Uuid) : Except DatabaseError Bytes :=
  match uuid with
  | .str s => if s.length = 16 then return s else throw (.invalidUuid uuid)
  | .int n =>
    if n < 0 then throw (.invalidUuid uuid)
    else if n < 0x10000 then return int16ToLittleEndian n.toNat
    else return int32ToLittleEndian n.toNat

/-! ## The state -/

/-- What `@handle_table[service_uuid][char_uuid]` holds. -/
structure CharacteristicTable where
  handle : Option Nat
  valueHandle : Option Nat
  descriptors : List (Uuid × Nat)

/-- What `@handle_table[service_uuid]` holds. -/
structure ServiceTable where
  handle : Nat
  characteristics : List (Uuid × CharacteristicTable)

structure GattDatabase where
  profileData : Bytes
  handleTable : List (Uuid × ServiceTable)
  currentHandle : Nat
  hashSrc : Bytes
  hashPos : Option Nat
  databaseHashKey : Option Bytes
  serviceUuid : Option Uuid
  charUuid : Option Uuid

/-- The calls in a block, in their order. -/
inductive Calls where
  | done
  | addService (uuid serviceUuid : Uuid) (block rest : Calls)
  | addCharacteristic (properties : Nat) (charUuid : Uuid) (valueProperties : Nat)
      (value : Option Bytes) (block rest : Calls)
  | addDescriptor (properties : Nat) (descUuid : Uuid) (value : Bytes) (rest : Calls)

namespace GattDatabase

def empty : GattDatabase := ⟨[ATT_DB_VERSION], [], 0, [], none, none, none, none⟩

def pushHandle (db : GattDatabase) : Bytes × GattDatabase :=
  (int16ToLittleEndian (db.currentHandle + 1), { db with currentHandle := db.currentHandle + 1 })

def seekHandle (db : GattDatabase) : Bytes := int16ToLittleEndian (db.currentHandle + 1)

def addLine (db : GattDatabase) (line : Bytes) : GattDatabase :=
  { db with profileData := db.profileData ++ (int16ToLittleEndian (line.length + 2) ++ line) }

def addHashSrc (db : GattDatabase) (tail : Bytes) : GattDatabase :=
  { db with hashSrc := db.hashSrc ++ tail }

/-- `@handle_table[@service_uuid]`, with the UUID. -/
def currentService (db : GattDatabase) : Option (Uuid × ServiceTable) := do
  let serviceUuid ← db.serviceUuid
  return (serviceUuid, ← hashGet db.handleTable serviceUuid)

/-- `@handle_table[@service_uuid][char_uuid] = entry`. -/
def storeCharacteristic (db : GattDatabase) (charUuid : Uuid) (entry : CharacteristicTable) :
    Except DatabaseError GattDatabase :=
  match db.currentService with
  | none => throw .noMethod
  | some (serviceUuid, service) => return { db with
      handleTable := hashSet db.handleTable serviceUuid { service with
        characteristics := hashSet service.characteristics charUuid entry } }

/-- `@handle_table[@service_uuid][@char_uuid][desc_uuid] = @current_handle`. -/
def storeDescriptor (db : GattDatabase) (descUuid : Uuid) : Except DatabaseError GattDatabase :=
  match db.currentService, db.charUuid with
  | some (_, service), some charUuid =>
    match hashGet service.characteristics charUuid with
    | none => throw .noMethod
    | some entry => db.storeCharacteristic charUuid { entry with
        descriptors := hashSet entry.descriptors descUuid db.currentHandle }
  | _, _ => throw .noMethod

/-- `add_service` up to its block. -/
def beginService (db : GattDatabase) (uuid serviceUuid : Uuid) :
    Except DatabaseError GattDatabase :=
  if uuid ≠ GATT_PRIMARY_SERVICE_UUID ∧ uuid ≠ GATT_SECONDARY_SERVICE_UUID then
    throw (.invalidUuid uuid)
  else do
    let line := int16ToLittleEndian READ
    let (handle, db) := db.pushHandle
    let tail := handle ++ (← uuid2str uuid) ++ (← uuid2str serviceUuid)
    let db := (db.addHashSrc tail).addLine (line ++ tail)
    return { db with
      handleTable := hashSet db.handleTable serviceUuid ⟨db.currentHandle, []⟩
      serviceUuid := some serviceUuid }

/-- The database hash key, and the position of the value that follows `line`. -/
def takeHashKey (db : GattDatabase) (charUuid : Uuid) (value : Option Bytes) (line : Bytes) :
    Except DatabaseError GattDatabase :=
  if charUuid = CHARACTERISTIC_DATABASE_HASH then
    match value with
    | none => throw (.invalidHashKey value)
    | some key =>
      if key.length ≠ 16 then throw (.invalidHashKey value)
      else return { db with
        databaseHashKey := some key
        hashPos := some (db.profileData.length + line.length - 3) }
  else return db

/-- The value of a characteristic, if there is one. -/
def addValue (db : GattDatabase) (charUuid : Uuid) (valueProperties : Nat) (value : Option Bytes) :
    Except DatabaseError GattDatabase :=
  match value with
  | none => return db
  | some value => do
    let line ← flagByUuid charUuid valueProperties
    let (handle, db) := db.pushHandle
    let line := line ++ handle ++ (← uuid2str charUuid) ++ value
    let db := db.addLine line
    db.storeCharacteristic charUuid ⟨none, some db.currentHandle, []⟩

/-- `add_characteristic` up to its block. -/
def beginCharacteristic (db : GattDatabase) (properties : Nat) (charUuid : Uuid)
    (valueProperties : Nat) (value : Option Bytes) : Except DatabaseError GattDatabase := do
  let line := int16ToLittleEndian READ
  let (handle, db) := db.pushHandle
  let tail := handle ++ int16ToLittleEndian GATT_CHARACTERISTIC_UUID ++
    [UInt8.ofNat (properties &&& 0xff)] ++ db.seekHandle ++ (← uuid2str charUuid)
  let line := line ++ tail
  let db := (db.addHashSrc tail).addLine line
  let db ← db.storeCharacteristic charUuid ⟨some db.currentHandle, none, []⟩
  let db ← db.takeHashKey charUuid value line
  let db ← db.addValue charUuid valueProperties value
  return { db with charUuid := some charUuid }

def addDescriptor (db : GattDatabase) (properties : Nat) (descUuid : Uuid) (value : Bytes) :
    Except DatabaseError GattDatabase := do
  let line ← flagByUuid descUuid properties
  let (handle, db) := db.pushHandle
  let tail := handle ++ (← uuid2str descUuid) ++ value
  let db := (db.addHashSrc tail).addLine (line ++ tail)
  db.storeDescriptor descUuid

/-- The calls, one after the other. -/
def run : Calls → GattDatabase → Except DatabaseError GattDatabase
  | .done, db => return db
  | .addService uuid serviceUuid block rest, db => do
    let db ← db.beginService uuid serviceUuid
    let db ← run block db
    run rest { db with serviceUuid := none }
  | .addCharacteristic properties charUuid valueProperties value block rest, db => do
    let db ← db.beginCharacteristic properties charUuid valueProperties value
    let db ← run block db
    run rest { db with charUuid := none }
  | .addDescriptor properties descUuid value rest, db => do
    let db ← db.addDescriptor properties descUuid value
    run rest db

section New
variable (cmac : Bytes → Bytes → Bytes)

/-- `@profile_data[@hash_pos + i] = c`, with the byte of the digest. -/
def writeByte (digest : Bytes) (hashPos : Nat) (profileData : Bytes) (i : Nat) :
    Except DatabaseError Bytes :=
  match digest[15 - i]? with
  | none => throw (.noDigest (15 - i))
  | some c => return profileData.set (hashPos + i) c

/-- The loop of insert_database_hash, which writes the digest from its end. -/
def writeDigest (digest : Bytes) (hashPos : Nat) (profileData : Bytes) : Except DatabaseError Bytes :=
  (List.range 16).foldlM (writeByte digest hashPos) profileData

def insertDatabaseHash (db : GattDatabase) (key : Bytes) : Except DatabaseError GattDatabase := do
  let profileData ← writeDigest (cmac key db.hashSrc) (db.hashPos.getD 0) db.profileData
  return { db with profileData }

/-- `insert_database_hash if @database_hash_key`. -/
def insertIfKey (db : GattDatabase) : Except DatabaseError GattDatabase :=
  match db.databaseHashKey with
  | some key => db.insertDatabaseHash cmac key
  | none => return db

/-- `GattDatabase.new` with a block. -/
def new (calls : Calls) : Except DatabaseError GattDatabase := do
  let db ← run calls empty
  let db ← db.insertIfKey cmac
  return { db with profileData := db.profileData ++ [0x00, 0x00] }

end New

end GattDatabase

end PicoRuby.Ble
