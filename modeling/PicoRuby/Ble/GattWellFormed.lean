import PicoRuby.Ble.GattBuild

/-!
# Walking the profile data

The lengths lead through the profile data from attribute to attribute, where there are fewer than
65536 of them and each fits its length. Calls that are nested as they should be raise nothing.
-/

namespace PicoRuby.Ble

open Shared

set_option autoImplicit false

/-! ## The fields of a line -/

section Fields
variable {e : Entry} {handle : Nat}

theorem int16_read (n : Nat) : ofLittleEndian (int16ToLittleEndian n) = n % 65536 := by
  rw [int16ToLittleEndian_eq, ofLittleEndian_toLittleEndian]
  rfl

theorem handleField_line : handleField (e.line handle) = handle % 65536 := int16_read handle

theorem valueHandleField_declaration (properties : Nat) (charUuid : Uuid) :
    valueHandleField ((Entry.declaration properties charUuid).line handle) =
      (handle + 1) % 65536 := int16_read (handle + 1)

theorem handleField_lt (line : Bytes) : handleField line < 65536 := by
  have hlength : ((line.drop 2).take 2).length ≤ 2 := List.length_take_le 2 _
  have hlt := @ofLittleEndian_lt ((line.drop 2).take 2)
  have hpow : 256 ^ ((line.drop 2).take 2).length ≤ 256 ^ 2 :=
    Nat.pow_le_pow_right (by decide) hlength
  unfold handleField
  omega

end Fields

/-! ## What the hash leaves -/

theorem withHash_getElem? {hash : Bytes → Bytes} {es : List Entry} (i : Nat) :
    (withHash hash es)[i]? = es[i]? ∨ ∃ e key, es[i]? = some e ∧ e.hashKey = some key ∧
      (withHash hash es)[i]? = some (e.withValue (hash key)) := by
  induction es generalizing i with
  | nil => exact Or.inl rfl
  | cons e es ih =>
    unfold withHash
    by_cases hall : (es.all fun e => e.hashKey.isNone) = true
    · rw [if_pos hall]
      cases hkey : e.hashKey with
      | none => exact Or.inl rfl
      | some key =>
        cases i with
        | zero => exact Or.inr ⟨e, key, rfl, hkey, rfl⟩
        | succ i => exact Or.inl rfl
    · rw [if_neg hall]
      cases i with
      | zero => exact Or.inl rfl
      | succ i => exact ih i

theorem withHash_length {hash : Bytes → Bytes} (es : List Entry) :
    (withHash hash es).length = es.length := by
  induction es with
  | nil => rfl
  | cons e es ih =>
    unfold withHash
    split
    · rfl
    · exact congrArg Nat.succ ih

theorem hashKey_cases {e : Entry} {key : Bytes} (h : e.hashKey = some key) :
    ∃ properties, e = .value properties CHARACTERISTIC_DATABASE_HASH key := by
  cases e with
  | service uuid serviceUuid => cases h
  | declaration properties charUuid => cases h
  | descriptor properties descUuid bytes => cases h
  | value properties charUuid bytes =>
    unfold Entry.hashKey at h
    dsimp only at h
    split at h
    · rename_i huuid
      cases h
      exact ⟨properties, by rw [huuid]⟩
    · cases h

/-- A hash of 16 bytes at most fits, where everything else does. -/
theorem withHash_fits {hash : Bytes → Bytes} (hhash : ∀ key, (hash key).length ≤ 16)
    {es : List Entry} (hlines : ∀ line ∈ lines 0 es, line.length + 2 < 65536) :
    ∀ line ∈ lines 0 (withHash hash es), line.length + 2 < 65536 := by
  intro line hline
  obtain ⟨i, e, he, rfl⟩ := mem_lines hline
  rcases @withHash_getElem? hash es i with hsame | ⟨f, key, -, hkey, hchanged⟩
  · apply hlines
    rw [List.mem_iff_getElem?]
    refine ⟨i, ?_⟩
    rw [lines_getElem?, ← hsame, he]
    rfl
  · rw [he, Option.some.injEq] at hchanged
    obtain ⟨properties, rfl⟩ := hashKey_cases hkey
    have hle := hhash key
    have hlength : (e.line (0 + i + 1)).length = (hash key).length + 6 := by
      rw [hchanged]
      rfl
    omega

/-! ## Declarations and their values -/

/-- Each declaration is followed by its value. -/
def Paired : List Entry → Prop
  | [] => True
  | e :: es => (∀ properties charUuid, e = .declaration properties charUuid →
      ∃ valueProperties value after, es = .value valueProperties charUuid value :: after) ∧ Paired es

theorem paired_append {es fs : List Entry} (hes : Paired es) (hfs : Paired fs) :
    Paired (es ++ fs) := by
  induction es with
  | nil => exact hfs
  | cons e es ih =>
    refine ⟨?_, ih hes.2⟩
    intro properties charUuid heq
    obtain ⟨valueProperties, value, after, rfl⟩ := hes.1 properties charUuid heq
    exact ⟨valueProperties, value, after ++ fs, rfl⟩

theorem paired_entries {calls : Calls} (h : calls.Valued) : Paired calls.entries := by
  induction calls with
  | done => trivial
  | addService uuid serviceUuid block rest ihBlock ihRest =>
    refine ⟨?_, paired_append (ihBlock h.1) (ihRest h.2)⟩
    intro properties charUuid heq
    cases heq
  | addCharacteristic properties charUuid valueProperties value block rest ihBlock ihRest =>
    obtain ⟨bytes, rfl⟩ := Option.isSome_iff_exists.mp h.1
    change Paired (_ :: .value valueProperties charUuid bytes :: (block.entries ++ rest.entries))
    refine ⟨?_, ?_, paired_append (ihBlock h.2.1) (ihRest h.2.2)⟩
    · intro _ _ heq
      cases heq
      exact ⟨valueProperties, bytes, _, rfl⟩
    · intro _ _ heq
      cases heq
  | addDescriptor properties descUuid value rest ihRest =>
    refine ⟨?_, ihRest h⟩
    intro _ _ heq
    cases heq

theorem Paired.getElem? {es : List Entry} (h : Paired es) {i properties : Nat} {charUuid : Uuid}
    (hi : es[i]? = some (.declaration properties charUuid)) :
    ∃ valueProperties value, es[i + 1]? = some (.value valueProperties charUuid value) := by
  induction es generalizing i with
  | nil => cases hi
  | cons e es ih =>
    cases i with
    | zero =>
      obtain ⟨valueProperties, value, after, rfl⟩ := h.1 _ _ (Option.some.inj hi)
      exact ⟨valueProperties, value, rfl⟩
    | succ i => exact ih h.2 hi

/-! ## What is found -/

section Found
variable {hash : Bytes → Bytes} {es : List Entry} {profileData : Bytes}

/-- The line at a place has its handle. -/
theorem found_getElem? (i : Nat) (hi : i < es.length) :
    ∃ line, (lines 0 (withHash hash es))[i]? = some line ∧ handleField line = (i + 1) % 65536 := by
  have hlt : i < (withHash hash es).length := by rwa [withHash_length]
  refine ⟨((withHash hash es)[i]).line (0 + i + 1), ?_, ?_⟩
  · rw [lines_getElem?, List.getElem?_eq_getElem hlt]
    rfl
  · rw [handleField_line, Nat.zero_add]

theorem found_declaration {i properties : Nat} {charUuid : Uuid}
    (hi : es[i]? = some (.declaration properties charUuid)) :
    (lines 0 (withHash hash es))[i]? =
      some ((Entry.declaration properties charUuid).line (i + 1)) := by
  have hsame : (withHash hash es)[i]? = es[i]? := by
    rcases @withHash_getElem? hash es i with hsame | ⟨e, key, he, hkey, -⟩
    · exact hsame
    · rw [hi, Option.some.injEq] at he
      rw [← he] at hkey
      cases hkey
  rw [lines_getElem?, hsame, hi, Nat.zero_add]
  rfl

theorem describes (hpaired : Paired es) (hcount : es.length < 65536) :
    Describes hash es (lines 0 (withHash hash es)) := by
  constructor
  · rfl
  · apply List.ext_getElem?
    intro i
    by_cases hi : i < es.length
    · obtain ⟨line, hline, hhandle⟩ := @found_getElem? hash es i hi
      rw [List.getElem?_map, hline, List.getElem?_range' hi, Option.map_some, hhandle,
        Nat.mod_eq_of_lt (by omega), Nat.one_mul, Nat.add_comm]
    · rw [List.getElem?_eq_none, List.getElem?_eq_none]
      · rw [List.length_range']
        omega
      · rw [List.length_map, lines_length, withHash_length]
        omega
  · intro i properties charUuid hi
    obtain ⟨valueProperties, value, hvalue⟩ := hpaired.getElem? hi
    have hnext : i + 1 < es.length := (List.getElem?_eq_some_iff.mp hvalue).1
    obtain ⟨next, hline, hhandle⟩ := @found_getElem? hash es (i + 1) hnext
    refine ⟨valueProperties, value, _, next, hvalue, found_declaration hi, hline, ?_⟩
    rw [valueHandleField_declaration, hhandle]

/-- The last handle does not fit its field. -/
theorem not_wellFormed_of_many (hcount : 65536 ≤ es.length) : ¬ WellFormed hash es profileData := by
  rintro ⟨-, found, -, hdescribes⟩
  have hlast : (found.map handleField)[65535]? = (List.range' 1 es.length)[65535]? := by
    rw [hdescribes.handles]
  rw [List.getElem?_map, List.getElem?_range' (by omega), Option.map_eq_some_iff] at hlast
  obtain ⟨line, -, hhandle⟩ := hlast
  have hlt := handleField_lt line
  omega

end Found

/-! ## Calls that raise nothing -/

/-- Where a call stands. -/
inductive Level where
  | database
  | service
  | characteristic
deriving DecidableEq

/-- Characteristics are added in services and descriptors in characteristics, with valid UUIDs, and
the key of a database hash has its 16 bytes. -/
def Calls.Nested : Level → Calls → Prop
  | _, .done => True
  | level, .addService uuid serviceUuid block rest => level = .database ∧
    (uuid = GATT_PRIMARY_SERVICE_UUID ∨ uuid = GATT_SECONDARY_SERVICE_UUID) ∧ serviceUuid.Valid ∧
    block.Nested .service ∧ rest.Nested level
  | level, .addCharacteristic _ charUuid _ value block rest => level = .service ∧ charUuid.Valid ∧
    (charUuid = CHARACTERISTIC_DATABASE_HASH → ∃ key, value = some key ∧ key.length = 16) ∧
    block.Nested .characteristic ∧ rest.Nested level
  | level, .addDescriptor _ descUuid _ rest => level = .characteristic ∧ descUuid.Valid ∧
    rest.Nested level

/-- The tables that the calls of a level need are there. -/
def Ready (db : GattDatabase) : Level → Prop
  | .database => True
  | .service => ∃ uuid service, db.currentService = some (uuid, service)
  | .characteristic => ∃ uuid service charUuid entry, db.currentService = some (uuid, service) ∧
    db.charUuid = some charUuid ∧ hashGet service.characteristics charUuid = some entry

section Total
variable {db : GattDatabase}

theorem currentService_eq {uuid : Uuid} {service : ServiceTable} :
    db.currentService = some (uuid, service) ↔
      db.serviceUuid = some uuid ∧ hashGet db.handleTable uuid = some service := by
  unfold GattDatabase.currentService
  cases db.serviceUuid with
  | none =>
    constructor
    · intro h
      cases h
    · intro h
      cases h.1
  | some other =>
    change (hashGet db.handleTable other >>= fun service => some (other, service)) = _ ↔ _
    cases hget : hashGet db.handleTable other with
    | none =>
      constructor
      · intro h
        cases h
      · rintro ⟨hsame, hfound⟩
        rw [← Option.some.inj hsame, hget] at hfound
        cases hfound
    | some found =>
      constructor
      · intro h
        cases h
        exact ⟨rfl, hget⟩
      · rintro ⟨hsame, hfound⟩
        cases hsame
        rw [hget] at hfound
        cases hfound
        rfl

theorem storeCharacteristic_ok {uuid charUuid : Uuid} {service : ServiceTable}
    {entry : CharacteristicTable} (h : db.currentService = some (uuid, service)) :
    ∃ db', db.storeCharacteristic charUuid entry = .ok db' ∧ db'.charUuid = db.charUuid ∧
      ∃ stored, db'.currentService = some (uuid, stored) ∧
        hashGet stored.characteristics charUuid = some entry := by
  unfold GattDatabase.storeCharacteristic
  rw [h]
  refine ⟨_, rfl, rfl, _, currentService_eq.mpr ⟨(currentService_eq.mp h).1, hashGet_hashSet_self⟩, ?_⟩
  exact hashGet_hashSet_self

theorem beginService_ok {uuid serviceUuid : Uuid}
    (huuid : uuid = GATT_PRIMARY_SERVICE_UUID ∨ uuid = GATT_SECONDARY_SERVICE_UUID)
    (hservice : serviceUuid.Valid) :
    ∃ db', db.beginService uuid serviceUuid = .ok db' ∧ Ready db' .service := by
  have hvalid : uuid.Valid := by
    rcases huuid with rfl | rfl
    · exact Int.zero_le_ofNat _
    · exact Int.zero_le_ofNat _
  have hnot : ¬ (uuid ≠ GATT_PRIMARY_SERVICE_UUID ∧ uuid ≠ GATT_SECONDARY_SERVICE_UUID) := by
    rintro ⟨hprimary, hsecondary⟩
    rcases huuid with heq | heq
    · exact hprimary heq
    · exact hsecondary heq
  unfold GattDatabase.beginService
  rw [if_neg hnot, uuid2str_of_valid hvalid, uuid2str_of_valid hservice]
  exact ⟨_, rfl, serviceUuid, _, currentService_eq.mpr ⟨rfl, hashGet_hashSet_self⟩⟩

theorem takeHashKey_ok {charUuid : Uuid} {value : Option Bytes} {line : Bytes}
    (h : charUuid = CHARACTERISTIC_DATABASE_HASH → ∃ key, value = some key ∧ key.length = 16) :
    ∃ db', db.takeHashKey charUuid value line = .ok db' ∧
      db'.currentService = db.currentService := by
  unfold GattDatabase.takeHashKey
  by_cases huuid : charUuid = CHARACTERISTIC_DATABASE_HASH
  · obtain ⟨key, rfl, hlength⟩ := h huuid
    rw [if_pos huuid]
    dsimp only
    rw [if_neg (not_not.mpr hlength)]
    exact ⟨_, rfl, rfl⟩
  · rw [if_neg huuid]
    exact ⟨db, rfl, rfl⟩

theorem addValue_ok {uuid charUuid : Uuid} {service : ServiceTable} {entry : CharacteristicTable}
    {properties : Nat} {value : Option Bytes} (hvalid : charUuid.Valid)
    (h : db.currentService = some (uuid, service))
    (hentry : hashGet service.characteristics charUuid = some entry) :
    ∃ db', db.addValue charUuid properties value = .ok db' ∧ ∃ stored found,
      db'.currentService = some (uuid, stored) ∧
        hashGet stored.characteristics charUuid = some found := by
  cases value with
  | none => exact ⟨db, rfl, service, entry, h, hentry⟩
  | some bytes =>
    unfold GattDatabase.addValue
    dsimp only
    rw [flagByUuid_of_valid hvalid, uuid2str_of_valid hvalid]
    obtain ⟨db', hok, -, stored, hstored, hfound⟩ := @storeCharacteristic_ok
      (db.pushHandle.2.addLine (int16ToLittleEndian (charUuid.flags (flagOf properties)) ++
        db.pushHandle.1 ++ charUuid.bytes ++ bytes)) uuid charUuid service
      ⟨none, some (db.currentHandle + 1), []⟩ h
    exact ⟨db', hok, stored, _, hstored, hfound⟩

theorem beginCharacteristic_ok {properties valueProperties : Nat} {charUuid : Uuid}
    {value : Option Bytes} (hready : Ready db .service) (hvalid : charUuid.Valid)
    (hkey : charUuid = CHARACTERISTIC_DATABASE_HASH → ∃ key, value = some key ∧ key.length = 16) :
    ∃ db', db.beginCharacteristic properties charUuid valueProperties value = .ok db' ∧
      Ready db' .characteristic := by
  obtain ⟨uuid, service, hservice⟩ := hready
  unfold GattDatabase.beginCharacteristic
  refine exists_bind_ok (Q := (· = charUuid.bytes)) ⟨_, uuid2str_of_valid hvalid, rfl⟩ ?_
  rintro _ rfl
  refine exists_bind_ok (@storeCharacteristic_ok _ uuid _ service _ hservice) ?_
  rintro stored ⟨-, withEntry, hstored, hentry⟩
  refine exists_bind_ok (takeHashKey_ok hkey) ?_
  intro keyed hkeyed
  refine exists_bind_ok (addValue_ok hvalid (hkeyed.trans hstored) hentry) ?_
  rintro valued ⟨found, entry, hfound, hget⟩
  exact ⟨_, rfl, uuid, found, charUuid, entry, hfound, rfl, hget⟩

theorem storeDescriptor_ok {descUuid : Uuid} (hready : Ready db .characteristic) :
    ∃ db', db.storeDescriptor descUuid = .ok db' ∧ Ready db' .characteristic := by
  obtain ⟨uuid, service, charUuid, entry, hservice, hchar, hentry⟩ := hready
  unfold GattDatabase.storeDescriptor
  rw [hservice, hchar]
  dsimp only
  rw [hentry]
  obtain ⟨db', hok, hsame, stored, hstored, hfound⟩ := storeCharacteristic_ok hservice
  exact ⟨db', hok, uuid, stored, charUuid, _, hstored, hsame.trans hchar, hfound⟩

theorem addDescriptor_ok {properties : Nat} {descUuid : Uuid} {value : Bytes}
    (hready : Ready db .characteristic) (hvalid : descUuid.Valid) :
    ∃ db', db.addDescriptor properties descUuid value = .ok db' ∧ Ready db' .characteristic := by
  unfold GattDatabase.addDescriptor
  rw [flagByUuid_of_valid hvalid, uuid2str_of_valid hvalid]
  exact storeDescriptor_ok hready

/-- Calls that are nested as they should be raise nothing. -/
theorem run_ok (calls : Calls) {level : Level} (hnested : calls.Nested level)
    (hready : Ready db level) :
    ∃ db', GattDatabase.run calls db = .ok db' ∧ Ready db' level := by
  induction calls generalizing level db with
  | done => exact ⟨db, rfl, hready⟩
  | addService uuid serviceUuid block rest ihBlock ihRest =>
    obtain ⟨rfl, huuid, hservice, hblock, hrest⟩ := hnested
    refine exists_bind_ok (beginService_ok huuid hservice) ?_
    intro begun hbegun
    refine exists_bind_ok (ihBlock hblock hbegun) ?_
    intro ended _
    exact ihRest hrest trivial
  | addCharacteristic properties charUuid valueProperties value block rest ihBlock ihRest =>
    obtain ⟨rfl, hvalid, hkey, hblock, hrest⟩ := hnested
    refine exists_bind_ok (beginCharacteristic_ok hready hvalid hkey) ?_
    intro begun hbegun
    refine exists_bind_ok (ihBlock hblock hbegun) ?_
    rintro ended ⟨uuid, service, -, -, hservice, -, -⟩
    exact ihRest hrest ⟨uuid, service, hservice⟩
  | addDescriptor properties descUuid value rest ihRest =>
    obtain ⟨rfl, hvalid, hrest⟩ := hnested
    refine exists_bind_ok (addDescriptor_ok hready hvalid) ?_
    intro added hadded
    exact ihRest hrest hadded

theorem new_ok {cmac : Bytes → Bytes → Bytes} (hcmac : ∀ key src, (cmac key src).length = 16)
    {calls : Calls} (hnested : calls.Nested .database) :
    ∃ db, GattDatabase.new cmac calls = .ok db := by
  obtain ⟨added, hadded, -⟩ := @run_ok GattDatabase.empty calls .database hnested trivial
  have hhash : ∃ hashed, added.insertIfKey cmac = .ok hashed := by
    have hkey := (run_built calls built_empty hadded).key
    have hdata := (run_built calls built_empty hadded).profileData
    obtain ⟨profileData, handleTable, currentHandle, hashSrc, hashPos, databaseHashKey, serviceUuid,
      charUuid⟩ := added
    generalize [] ++ calls.entries = entries at hkey hdata
    cases hkey with
    | absent pos hnone => exact ⟨_, rfl⟩
    | found before after properties key hes hafter hlength =>
      have hdigest : 16 ≤ (cmac key hashSrc).length := Nat.le_of_eq (hcmac key hashSrc).symm
      have hfits := hashPos_le hes hlength
      rw [← hdata] at hfits
      have hwritten := writeDigest_eq hdigest hfits
      unfold GattDatabase.insertIfKey GattDatabase.insertDatabaseHash
      dsimp only [Option.getD_some] at hwritten ⊢
      rw [hwritten]
      exact ⟨_, rfl⟩
  obtain ⟨hashed, hhash⟩ := hhash
  refine ⟨{ hashed with profileData := hashed.profileData ++ [0x00, 0x00] }, ?_⟩
  exact bind_eq_ok.mpr ⟨added, hadded, bind_eq_ok.mpr ⟨hashed, hhash, rfl⟩⟩

end Total

/-! ## The database -/

theorem databaseHash_length_le (cmac : Bytes → Bytes → Bytes) (entries : List Entry) (key : Bytes) :
    (databaseHash cmac entries key).length ≤ 16 := by
  rw [databaseHash, List.length_reverse]
  exact List.length_take_le 16 _

theorem wellFormed_of_lines {hash : Bytes → Bytes} {entries : List Entry} {profileData : Bytes}
    (hdata : profileData = ATT_DB_VERSION ::
      (((lines 0 (withHash hash entries)).map withLength).flatten ++ [0x00, 0x00]))
    (hhash : ∀ key, (hash key).length ≤ 16) (hpaired : Paired entries)
    (hcount : entries.length < 65536)
    (hlines : ∀ line ∈ lines 0 entries, line.length + 2 < 65536) :
    WellFormed hash entries profileData := by
  rw [hdata]
  refine ⟨rfl, lines 0 (withHash hash entries), ?_, describes hpaired hcount⟩
  exact records_lines (withHash_fits hhash hlines)

/-- With fewer than 65536 attributes, each of which fits its length, what is built is well formed;
and calls that are nested as they should be do build it. -/
theorem wellFormed_profile (cmac : Bytes → Bytes → Bytes) (calls : Calls) (hvalued : calls.Valued)
    (hcount : calls.entries.length < 65536)
    (hlines : ∀ line ∈ lines 0 calls.entries, (withLength line).length < 65536) :
    (∀ db, GattDatabase.new cmac calls = .ok db →
      WellFormed (databaseHash cmac calls.entries) calls.entries db.profileData) ∧
    (calls.Nested .database → (∀ key src, (cmac key src).length = 16) →
      ∃ db, GattDatabase.new cmac calls = .ok db) := by
  constructor
  · intro db hnew
    apply wellFormed_of_lines (new_profileData hnew) (databaseHash_length_le cmac calls.entries)
      (paired_entries hvalued) hcount
    intro line hline
    rw [← withLength_length]
    exact hlines line hline
  · intro hnested hcmac
    exact new_ok hcmac hnested

/-- A service with a Database Hash characteristic and a descriptor of it. -/
def hashedCalls : Calls :=
  .addService GATT_PRIMARY_SERVICE_UUID (.int 0x1801)
    (.addCharacteristic READ CHARACTERISTIC_DATABASE_HASH READ (some (List.replicate 16 0))
      (.addDescriptor READ (.int 0x2901) [72] .done) .done) .done

theorem wellFormed_profile_hashed :
    (∀ db, GattDatabase.new (fun _ _ => List.replicate 16 7) hashedCalls = .ok db →
      WellFormed (databaseHash (fun _ _ => List.replicate 16 7) hashedCalls.entries)
        hashedCalls.entries db.profileData) ∧
    (hashedCalls.Nested .database → (∀ _ _ : Bytes, (List.replicate 16 (7 : UInt8)).length = 16) →
      ∃ db, GattDatabase.new (fun _ _ => List.replicate 16 7) hashedCalls = .ok db) :=
  wellFormed_profile _ hashedCalls ⟨⟨rfl, trivial, trivial⟩, trivial⟩ (by decide) (by decide)

/-! ## Too many attributes, and a line that is too long -/

/-- So many services. -/
def services : Nat → Calls
  | 0 => .done
  | n + 1 => .addService GATT_PRIMARY_SERVICE_UUID (.int 0x1800) .done (services n)

theorem services_entries (n : Nat) : (services n).entries =
    List.replicate n (.service GATT_PRIMARY_SERVICE_UUID (.int 0x1800)) := by
  induction n with
  | zero => rfl
  | succ n ih =>
    change _ :: ([] ++ (services n).entries) = _
    rw [ih]
    rfl

theorem services_nested (n : Nat) : (services n).Nested .database := by
  induction n with
  | zero => trivial
  | succ n ih => exact ⟨rfl, Or.inl rfl, Int.zero_le_ofNat _, trivial, ih⟩

theorem services_line {n : Nat} {line : Bytes} (h : line ∈ lines 0 (services n).entries) :
    line.length = 8 := by
  obtain ⟨i, e, he, rfl⟩ := mem_lines h
  rw [services_entries] at he
  rw [List.eq_of_mem_replicate (List.mem_of_getElem? he)]
  rfl

/-- A characteristic with a value of so many bytes. -/
def valueOfLength (n : Nat) : Calls :=
  .addService GATT_PRIMARY_SERVICE_UUID (.int 0x1800)
    (.addCharacteristic READ (.int 0x2a00) READ (some (List.replicate n 0)) .done .done) .done

theorem valueOfLength_lines (n : Nat) : ∃ first second last : Bytes,
    lines 0 (valueOfLength n).entries = [first, second, last] ∧ first.length = 8 ∧
      second.length = 11 ∧ last.length = n + 6 := by
  refine ⟨_, _, _, rfl, rfl, rfl, ?_⟩
  change (List.replicate n (0 : UInt8)).length + 6 = n + 6
  rw [List.length_replicate]

theorem new_valueOfLength {cmac : Bytes → Bytes → Bytes} {n : Nat} {db : GattDatabase}
    (hn : n + 8 = 65536) (hnew : GattDatabase.new cmac (valueOfLength n) = .ok db)
    (hash : Bytes → Bytes) :
    ¬ WellFormed hash (valueOfLength n).entries db.profileData := by
  rintro ⟨-, found, hrecords, -⟩
  have hsame : withHash (databaseHash cmac (valueOfLength n).entries) (valueOfLength n).entries =
      (valueOfLength n).entries := by
    apply withHash_of_none
    intro e he
    have hcases : e = .service GATT_PRIMARY_SERVICE_UUID (.int 0x1800) ∨
        e = .declaration READ (.int 0x2a00) ∨
        e = .value READ (.int 0x2a00) (List.replicate n 0) := by
      rcases List.mem_cons.mp he with heq | he
      · exact Or.inl heq
      · rcases List.mem_cons.mp he with heq | he
        · exact Or.inr (Or.inl heq)
        · exact Or.inr (Or.inr (List.mem_singleton.mp he))
    rcases hcases with rfl | rfl | rfl
    · rfl
    · rfl
    · rfl
  obtain ⟨first, second, last, hlines, hfirst, hsecond, hlast⟩ := valueOfLength_lines n
  have hshort : ∀ line ∈ [first, second], line.length + 2 < 65536 := by
    intro line hline
    rcases List.mem_pair.mp hline with rfl | rfl
    · omega
    · omega
  have hnone (fuel : Nat) := @recordsFrom_wrapped last [0x00, 0x00] [first, second] fuel hshort (by omega)
  rw [new_profileData hnew, hsame, hlines] at hrecords
  have hrecords : records (([first, second, last].map withLength).flatten ++ [0x00, 0x00]) =
    some found := hrecords
  have hsplit : ([first, second, last].map withLength).flatten ++ [0x00, 0x00] =
      ([first, second].map withLength).flatten ++ (withLength last ++ [0x00, 0x00]) := by
    simp only [List.map_cons, List.map_nil, List.flatten_cons, List.flatten_nil, List.append_nil,
      List.append_assoc]
  rw [hsplit, records, hnone] at hrecords
  cases hrecords

/-- The handle of the 65536th attribute and the length of a line of 65534 bytes do not fit. -/
theorem profile_wraps :
    (∃ db, GattDatabase.new (fun _ _ => List.replicate 16 0) (services 65536) = .ok db ∧
      (∀ line ∈ lines 0 (services 65536).entries, line.length < 65536) ∧
      ∀ hash, ¬ WellFormed hash (services 65536).entries db.profileData) ∧
    (∃ db, GattDatabase.new (fun _ _ => List.replicate 16 0) (valueOfLength 65528) = .ok db ∧
      (∀ line ∈ lines 0 (valueOfLength 65528).entries, line.length < 65536) ∧
      ∀ hash, ¬ WellFormed hash (valueOfLength 65528).entries db.profileData) := by
  have hcmac : ∀ _ _ : Bytes, (List.replicate 16 (0 : UInt8)).length = 16 := fun _ _ => rfl
  constructor
  · obtain ⟨db, hnew⟩ := new_ok hcmac (services_nested 65536)
    refine ⟨db, hnew, ?_, ?_⟩
    · intro line hline
      have hlength := services_line hline
      omega
    · intro hash
      apply not_wellFormed_of_many
      rw [services_entries, List.length_replicate]
  · have hother : Uuid.int 0x2a00 ≠ CHARACTERISTIC_DATABASE_HASH := by decide
    have hnested : (valueOfLength 65528).Nested .database :=
      ⟨rfl, Or.inl rfl, Int.zero_le_ofNat _, ⟨rfl, Int.zero_le_ofNat _, fun h => absurd h hother,
        trivial, trivial⟩, trivial⟩
    obtain ⟨db, hnew⟩ := new_ok hcmac hnested
    refine ⟨db, hnew, ?_, new_valueOfLength rfl hnew⟩
    obtain ⟨first, second, last, hlines, hfirst, hsecond, hlast⟩ := valueOfLength_lines 65528
    rw [hlines]
    intro line hline
    rcases List.mem_cons.mp hline with rfl | hline
    · omega
    · rcases List.mem_pair.mp hline with rfl | rfl
      · omega
      · omega

end PicoRuby.Ble
