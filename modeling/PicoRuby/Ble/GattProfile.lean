import PicoRuby.Ble.GattDatabase
import PicoRuby.Shared.Records
import PicoRuby.Shared.Results

/-!
# The profile data

The attributes that the calls add, and how they stand in the profile data.
-/

namespace PicoRuby.Ble

open Shared

set_option autoImplicit false

/-! ## Attributes -/

/-- An attribute as it is added. -/
inductive Entry where
  | service (uuid serviceUuid : Uuid)
  | declaration (properties : Nat) (charUuid : Uuid)
  | value (properties : Nat) (charUuid : Uuid) (value : Bytes)
  | descriptor (properties : Nat) (descUuid : Uuid) (value : Bytes)
deriving DecidableEq

/-- The attributes that the calls add, in their order. -/
def Calls.entries : Calls → List Entry
  | .done => []
  | .addService uuid serviceUuid block rest =>
    .service uuid serviceUuid :: (block.entries ++ rest.entries)
  | .addCharacteristic properties charUuid valueProperties value block rest =>
    .declaration properties charUuid ::
      ((value.map (Entry.value valueProperties charUuid)).toList ++ (block.entries ++ rest.entries))
  | .addDescriptor properties descUuid value rest =>
    .descriptor properties descUuid value :: rest.entries

/-- No value is nil. -/
def Calls.Valued : Calls → Prop
  | .done => True
  | .addService _ _ block rest => block.Valued ∧ rest.Valued
  | .addCharacteristic _ _ _ value block rest => value.isSome = true ∧ block.Valued ∧ rest.Valued
  | .addDescriptor _ _ _ rest => rest.Valued

def Uuid.bytes : Uuid → Bytes
  | .str s => s
  | .int n => if n < 0x10000 then int16ToLittleEndian n.toNat else int32ToLittleEndian n.toNat

/-- The flags with the one for a UUID of 16 bytes. -/
def Uuid.flags (uuid : Uuid) (flag : Nat) : Nat :=
  match uuid with
  | .str _ => flag ||| LONG_UUID
  | .int _ => flag

namespace Entry

def flags : Entry → Nat
  | .service _ _ => READ
  | .declaration _ _ => READ
  | .value properties charUuid _ => charUuid.flags (flagOf properties)
  | .descriptor properties descUuid _ => descUuid.flags (flagOf properties)

def uuidBytes : Entry → Bytes
  | .service uuid _ => uuid.bytes
  | .declaration _ _ => int16ToLittleEndian GATT_CHARACTERISTIC_UUID
  | .value _ charUuid _ => charUuid.bytes
  | .descriptor _ descUuid _ => descUuid.bytes

/-- The value of the attribute with the handle. -/
def valueBytes (handle : Nat) : Entry → Bytes
  | .service _ serviceUuid => serviceUuid.bytes
  | .declaration properties charUuid =>
    [UInt8.ofNat (properties &&& 0xff)] ++ int16ToLittleEndian (handle + 1) ++ charUuid.bytes
  | .value _ _ bytes => bytes
  | .descriptor _ _ bytes => bytes

def tail (handle : Nat) (e : Entry) : Bytes :=
  int16ToLittleEndian handle ++ e.uuidBytes ++ e.valueBytes handle

/-- The flags, the handle, the UUID and the value. -/
def line (handle : Nat) (e : Entry) : Bytes := int16ToLittleEndian e.flags ++ e.tail handle

/-- What the database hash is made of. -/
def hashed (handle : Nat) (e : Entry) : Bytes :=
  match e with
  | .value _ _ _ => []
  | e => e.tail handle

/-- The value of a Database Hash characteristic. -/
def hashKey : Entry → Option Bytes
  | .value _ charUuid bytes => if charUuid = CHARACTERISTIC_DATABASE_HASH then some bytes else none
  | _ => none

def withValue (e : Entry) (bytes : Bytes) : Entry :=
  match e with
  | .value properties charUuid _ => .value properties charUuid bytes
  | e => e

end Entry

/-- The lines of attributes with the handles `n + 1`, `n + 2` and so on. -/
def lines (n : Nat) : List Entry → List Bytes
  | [] => []
  | e :: es => e.line (n + 1) :: lines (n + 1) es

def hashSource (n : Nat) : List Entry → Bytes
  | [] => []
  | e :: es => e.hashed (n + 1) ++ hashSource (n + 1) es

/-- The attributes with the hash as the value of the last Database Hash characteristic. -/
def withHash (hash : Bytes → Bytes) : List Entry → List Entry
  | [] => []
  | e :: es =>
    if es.all fun e => e.hashKey.isNone then
      (match e.hashKey with
        | some key => e.withValue (hash key)
        | none => e) :: es
    else e :: withHash hash es

/-- The bytes of the database hash, the last byte of the digest first. -/
def databaseHash (cmac : Bytes → Bytes → Bytes) (entries : List Entry) (key : Bytes) : Bytes :=
  ((cmac key (hashSource 0 entries)).take 16).reverse

/-! ## What is promised -/

/-- The handle that a line is read with. -/
def handleField (line : Bytes) : Nat := ofLittleEndian ((line.drop 2).take 2)

/-- The handle of the value in the line of a declaration. -/
def valueHandleField (line : Bytes) : Nat := ofLittleEndian ((line.drop 7).take 2)

/-- The lines are those of the attributes, with the handles from 1 on, and a declaration tells the
handle of the value that follows it. -/
structure Describes (hash : Bytes → Bytes) (entries : List Entry) (found : List Bytes) : Prop where
  attributes : found = lines 0 (withHash hash entries)
  handles : found.map handleField = List.range' 1 entries.length
  valueHandles : ∀ i properties charUuid, entries[i]? = some (.declaration properties charUuid) →
    ∃ valueProperties value line next,
      entries[i + 1]? = some (.value valueProperties charUuid value) ∧
      found[i]? = some line ∧ found[i + 1]? = some next ∧ valueHandleField line = handleField next

/-- Behind the version, the lengths lead to the lines of the attributes and to the end. -/
def WellFormed (hash : Bytes → Bytes) (entries : List Entry) (profileData : Bytes) : Prop :=
  profileData.head? = some ATT_DB_VERSION ∧
    ∃ found, records profileData.tail = some found ∧ Describes hash entries found

/-! ## Lines -/

section Lines
variable {es fs : List Entry} {e : Entry} {n : Nat}

theorem lines_append : lines n (es ++ fs) = lines n es ++ lines (n + es.length) fs := by
  induction es generalizing n with
  | nil => rfl
  | cons e es ih =>
    change e.line (n + 1) :: lines (n + 1) (es ++ fs) = _
    rw [ih, List.length_cons, Nat.add_assoc, Nat.add_comm 1]
    rfl

theorem hashSource_append :
    hashSource n (es ++ fs) = hashSource n es ++ hashSource (n + es.length) fs := by
  induction es generalizing n with
  | nil => rfl
  | cons e es ih =>
    change e.hashed (n + 1) ++ hashSource (n + 1) (es ++ fs) = _
    rw [ih, List.length_cons, Nat.add_assoc, Nat.add_comm 1, ← List.append_assoc]
    rfl

theorem lines_getElem? (i : Nat) : (lines n es)[i]? = es[i]?.map (Entry.line (n + i + 1)) := by
  induction es generalizing n i with
  | nil => rfl
  | cons e es ih =>
    cases i with
    | zero => rfl
    | succ i =>
      change (lines (n + 1) es)[i]? = es[i]?.map _
      rw [ih, Nat.add_assoc n 1 i, Nat.add_comm 1 i]

theorem lines_length : (lines n es).length = es.length := by
  induction es generalizing n with
  | nil => rfl
  | cons e es ih => exact congrArg Nat.succ ih

theorem mem_lines {line : Bytes} (h : line ∈ lines n es) :
    ∃ (i : Nat) (x : Entry), es[i]? = some x ∧ line = x.line (n + i + 1) := by
  obtain ⟨i, hi⟩ := List.mem_iff_getElem?.mp h
  rw [lines_getElem?, Option.map_eq_some_iff] at hi
  obtain ⟨x, hx, rfl⟩ := hi
  exact ⟨i, x, hx, rfl⟩

/-! ## The Database Hash characteristic -/

theorem withHash_of_none {hash : Bytes → Bytes} (h : ∀ e ∈ es, e.hashKey = none) :
    withHash hash es = es := by
  cases es with
  | nil => rfl
  | cons e es =>
    have hall : (es.all fun e => e.hashKey.isNone) = true := by
      rw [List.all_eq_true]
      intro f hf
      rw [h f (List.mem_cons_of_mem _ hf)]
      rfl
    rw [withHash, if_pos hall, h e List.mem_cons_self]

theorem withHash_append {hash : Bytes → Bytes} {key : Bytes} (hkey : e.hashKey = some key)
    (hafter : ∀ f ∈ fs, f.hashKey = none) :
    withHash hash (es ++ e :: fs) = es ++ e.withValue (hash key) :: fs := by
  induction es with
  | nil =>
    have hall : (fs.all fun f => f.hashKey.isNone) = true := by
      rw [List.all_eq_true]
      intro f hf
      rw [hafter f hf]
      rfl
    rw [List.nil_append, withHash, if_pos hall, hkey]
    rfl
  | cons f es ih =>
    have hnot : ¬ ((es ++ e :: fs).all fun f => f.hashKey.isNone) = true := by
      rw [List.all_eq_true]
      intro hall
      have he := hall e (List.mem_append_right _ List.mem_cons_self)
      rw [hkey] at he
      exact absurd he Bool.false_ne_true
    rw [List.cons_append, withHash, if_neg hnot, ih]
    rfl

end Lines

end PicoRuby.Ble
