import PicoRuby.Ble.GattProfile

/-!
# Building the profile data

What each call leaves in the profile data, and what is there in the end.
-/

namespace PicoRuby.Ble

open Shared

set_option autoImplicit false

/-! ## UUIDs -/

/-- What `uuid2str` takes. -/
def Uuid.Valid : Uuid → Prop
  | .str s => s.length = 16
  | .int n => 0 ≤ n

section Uuids
variable {uuid : Uuid} {properties : Nat} {bytes : Bytes}

theorem uuid2str_of_valid (h : uuid.Valid) : uuid2str uuid = .ok uuid.bytes := by
  cases uuid with
  | str s => exact if_pos h
  | int n =>
    have hnot : ¬ n < 0 := Int.not_lt.mpr h
    unfold uuid2str Uuid.bytes
    dsimp only
    rw [if_neg hnot]
    split
    · rfl
    · rfl

theorem bytes_of_uuid2str (h : uuid2str uuid = .ok bytes) : bytes = uuid.bytes := by
  cases uuid with
  | str s =>
    unfold uuid2str at h
    dsimp only at h
    split at h
    · cases h
      rfl
    · cases h
  | int n =>
    unfold uuid2str at h
    unfold Uuid.bytes
    dsimp only at h ⊢
    split at h
    · cases h
    · split at h
      · rename_i hlt
        cases h
        rw [if_pos hlt]
      · rename_i hlt
        cases h
        rw [if_neg hlt]

theorem flagByUuid_of_valid (h : uuid.Valid) :
    flagByUuid uuid properties = .ok (int16ToLittleEndian (uuid.flags (flagOf properties))) := by
  cases uuid with
  | str s => exact if_pos h
  | int n => rfl

theorem flags_of_flagByUuid (h : flagByUuid uuid properties = .ok bytes) :
    bytes = int16ToLittleEndian (uuid.flags (flagOf properties)) := by
  cases uuid with
  | str s =>
    unfold flagByUuid at h
    dsimp only at h
    split at h
    · cases h
      rfl
    · cases h
  | int n =>
    cases h
    rfl

end Uuids

/-! ## What is there after some calls -/

/-- Where the key of the database hash was found: the last Database Hash characteristic. -/
inductive KeyAt (es : List Entry) : Option Bytes → Option Nat → Prop where
  | absent (pos : Option Nat) (h : ∀ e ∈ es, e.hashKey = none) : KeyAt es none pos
  | found (before after : List Entry) (properties : Nat) (key : Bytes)
      (hes : es = before ++ .value properties CHARACTERISTIC_DATABASE_HASH key :: after)
      (hafter : ∀ e ∈ after, e.hashKey = none) (hlength : key.length = 16) :
    KeyAt es (some key) (some (1 + ((lines 0 before).map withLength).flatten.length + 8))

/-- The attributes have been added. -/
structure Built (es : List Entry) (db : GattDatabase) : Prop where
  profileData : db.profileData = ATT_DB_VERSION :: ((lines 0 es).map withLength).flatten
  currentHandle : db.currentHandle = es.length
  hashSrc : db.hashSrc = hashSource 0 es
  key : KeyAt es db.databaseHashKey db.hashPos

section Steps
variable {es : List Entry} {e : Entry} {db db' : GattDatabase}

theorem KeyAt.snoc {key : Option Bytes} {pos : Option Nat} (h : KeyAt es key pos)
    (he : e.hashKey = none) : KeyAt (es ++ [e]) key pos := by
  have hsnoc {xs : List Entry} (hxs : ∀ x ∈ xs, x.hashKey = none) :
      ∀ x ∈ xs ++ [e], x.hashKey = none := by
    intro x hx
    rcases List.mem_append.mp hx with hx | hx
    · exact hxs x hx
    · rw [List.mem_singleton.mp hx, he]
  cases h with
  | absent pos h => exact .absent pos (hsnoc h)
  | found before after properties key hes hafter hlength =>
    refine .found before (after ++ [e]) properties key ?_ (hsnoc hafter) hlength
    rw [hes, List.append_assoc]
    rfl

theorem withLength_eq (line : Bytes) :
    withLength line = int16ToLittleEndian (line.length + 2) ++ line := by
  rw [int16ToLittleEndian_eq]
  rfl

theorem flatten_snoc (es : List Entry) (e : Entry) :
    ((lines 0 (es ++ [e])).map withLength).flatten =
      ((lines 0 es).map withLength).flatten ++ withLength (e.line (es.length + 1)) := by
  rw [lines_append, List.map_append, List.flatten_append, Nat.zero_add]
  change _ ++ (withLength (e.line (es.length + 1)) ++ []) = _
  rw [List.append_nil]

theorem Built.add (h : Built es db) (e : Entry) {key : Option Bytes} {pos : Option Nat}
    (hkey : KeyAt (es ++ [e]) key pos)
    (hdata : db'.profileData = db.profileData ++
      (int16ToLittleEndian ((e.line (es.length + 1)).length + 2) ++ e.line (es.length + 1)))
    (hhandle : db'.currentHandle = db.currentHandle + 1)
    (hsrc : db'.hashSrc = db.hashSrc ++ e.hashed (es.length + 1))
    (hkey' : db'.databaseHashKey = key) (hpos' : db'.hashPos = pos) : Built (es ++ [e]) db' := by
  constructor
  · rw [hdata, h.profileData, ← withLength_eq, flatten_snoc]
    rfl
  · rw [hhandle, h.currentHandle, List.length_append, List.length_singleton]
  · rw [hsrc, h.hashSrc, hashSource_append, Nat.zero_add]
    change _ = _ ++ (e.hashed (es.length + 1) ++ [])
    rw [List.append_nil]
  · rw [hkey', hpos']
    exact hkey

/-- A line of the profile and its part of the hash source, under the next handle. -/
theorem Built.pushed (h : Built es db) (he : e.hashKey = none) {tail line : Bytes}
    (htail : tail = e.hashed (db.currentHandle + 1))
    (hline : line = e.line (db.currentHandle + 1)) :
    Built (es ++ [e]) ((db.pushHandle.2.addHashSrc tail).addLine line) := by
  rw [h.currentHandle] at htail hline
  subst htail hline
  exact h.add e (h.key.snoc he) rfl rfl rfl rfl rfl

theorem storeCharacteristic_frame {charUuid : Uuid} {entry : CharacteristicTable}
    (h : db.storeCharacteristic charUuid entry = .ok db') :
    ∃ table, db' = { db with handleTable := table } := by
  unfold GattDatabase.storeCharacteristic at h
  split at h
  · cases h
  · cases h
    exact ⟨_, rfl⟩

theorem storeDescriptor_frame {descUuid : Uuid} (h : db.storeDescriptor descUuid = .ok db') :
    ∃ table, db' = { db with handleTable := table } := by
  unfold GattDatabase.storeDescriptor at h
  split at h
  · split at h
    · cases h
    · exact storeCharacteristic_frame h
  · cases h

theorem Built.frame (h : Built es db) (table : List (Uuid × ServiceTable))
    (serviceUuid charUuid : Option Uuid) :
    Built es { db with handleTable := table, serviceUuid, charUuid } :=
  ⟨h.profileData, h.currentHandle, h.hashSrc, h.key⟩

theorem beginService_built (h : Built es db) {uuid serviceUuid : Uuid}
    (hok : db.beginService uuid serviceUuid = .ok db') :
    Built (es ++ [.service uuid serviceUuid]) db' := by
  unfold GattDatabase.beginService at hok
  split at hok
  · cases hok
  · obtain ⟨uuidBytes, huuid, hok⟩ := bind_eq_ok.mp hok
    obtain ⟨serviceBytes, hservice, hok⟩ := bind_eq_ok.mp hok
    cases hok
    rw [bytes_of_uuid2str huuid, bytes_of_uuid2str hservice]
    exact Built.frame (h.pushed rfl rfl rfl) _ _ _

theorem addDescriptor_built (h : Built es db) {properties : Nat} {descUuid : Uuid} {value : Bytes}
    (hok : db.addDescriptor properties descUuid value = .ok db') :
    Built (es ++ [.descriptor properties descUuid value]) db' := by
  unfold GattDatabase.addDescriptor at hok
  obtain ⟨flags, hflags, hok⟩ := bind_eq_ok.mp hok
  obtain ⟨uuidBytes, huuid, hok⟩ := bind_eq_ok.mp hok
  obtain ⟨table, rfl⟩ := storeDescriptor_frame hok
  rw [flags_of_flagByUuid hflags, bytes_of_uuid2str huuid]
  exact Built.frame (h.pushed rfl rfl rfl) _ _ _

theorem takeHashKey_cases {charUuid : Uuid} {value : Option Bytes} {line : Bytes}
    (h : db.takeHashKey charUuid value line = .ok db') :
    (charUuid ≠ CHARACTERISTIC_DATABASE_HASH ∧ db' = db) ∨
      ∃ key, charUuid = CHARACTERISTIC_DATABASE_HASH ∧ value = some key ∧ key.length = 16 ∧
        db' = { db with
          databaseHashKey := some key
          hashPos := some (db.profileData.length + line.length - 3) } := by
  unfold GattDatabase.takeHashKey at h
  split at h
  · rename_i huuid
    split at h
    · cases h
    · split at h
      · cases h
      · rename_i key hlength
        cases h
        exact Or.inr ⟨key, huuid, rfl, not_not.mp hlength, rfl⟩
  · rename_i huuid
    cases h
    exact Or.inl ⟨huuid, rfl⟩

theorem addValue_some {charUuid : Uuid} {properties : Nat} {value line : Bytes}
    (hline : line = (Entry.value properties charUuid value).line (db.currentHandle + 1))
    (h : db.addValue charUuid properties (some value) = .ok db') : ∃ table, db' = { db with
      currentHandle := db.currentHandle + 1
      profileData := db.profileData ++ (int16ToLittleEndian (line.length + 2) ++ line)
      handleTable := table } := by
  unfold GattDatabase.addValue at h
  obtain ⟨flags, hflags, h⟩ := bind_eq_ok.mp h
  obtain ⟨uuidBytes, huuid, h⟩ := bind_eq_ok.mp h
  obtain ⟨table, rfl⟩ := storeCharacteristic_frame h
  refine ⟨table, ?_⟩
  have heq : flags ++ int16ToLittleEndian (db.currentHandle + 1) ++ uuidBytes ++ value = line := by
    rw [hline, flags_of_flagByUuid hflags, bytes_of_uuid2str huuid, List.append_assoc,
      List.append_assoc, ← List.append_assoc (int16ToLittleEndian (db.currentHandle + 1))]
    rfl
  dsimp only [GattDatabase.addLine, GattDatabase.pushHandle]
  rw [heq]

theorem beginCharacteristic_built (h : Built es db) {properties valueProperties : Nat}
    {charUuid : Uuid} {value : Option Bytes}
    (hok : db.beginCharacteristic properties charUuid valueProperties value = .ok db') :
    Built (es ++ .declaration properties charUuid ::
      (value.map (Entry.value valueProperties charUuid)).toList) db' := by
  unfold GattDatabase.beginCharacteristic at hok
  obtain ⟨uuidBytes, huuid, hok⟩ := bind_eq_ok.mp hok
  obtain ⟨stored, hstored, hok⟩ := bind_eq_ok.mp hok
  obtain ⟨keyed, hkeyed, hok⟩ := bind_eq_ok.mp hok
  obtain ⟨valued, hvalued, hok⟩ := bind_eq_ok.mp hok
  cases hok
  have hdeclared : Built (es ++ [.declaration properties charUuid]) stored := by
    obtain ⟨table, rfl⟩ := storeCharacteristic_frame hstored
    rw [bytes_of_uuid2str huuid]
    rw [List.append_assoc, List.append_assoc]
    exact Built.frame (h.pushed rfl rfl rfl) _ _ _
  refine Built.frame ?_ _ _ _
  rw [← List.singleton_append, ← List.append_assoc]
  have hframe : keyed.profileData = stored.profileData ∧
      keyed.currentHandle = stored.currentHandle ∧ keyed.hashSrc = stored.hashSrc := by
    rcases takeHashKey_cases hkeyed with ⟨-, rfl⟩ | ⟨key, -, -, -, rfl⟩
    · exact ⟨rfl, rfl, rfl⟩
    · exact ⟨rfl, rfl, rfl⟩
  obtain ⟨hdata, hhandle, hsrc⟩ := hframe
  cases value with
  | none =>
    cases hvalued
    rcases takeHashKey_cases hkeyed with ⟨-, rfl⟩ | ⟨key, -, hvalue, -, -⟩
    · rw [Option.map_none, Option.toList_none, List.append_nil]
      exact hdeclared
    · cases hvalue
  | some bytes =>
    obtain ⟨table, rfl⟩ := addValue_some rfl hvalued
    rw [hhandle, hdeclared.currentHandle, hdata]
    have hkey : KeyAt ((es ++ [.declaration properties charUuid]) ++
        [.value valueProperties charUuid bytes]) keyed.databaseHashKey keyed.hashPos := by
      rcases takeHashKey_cases hkeyed with ⟨hother, rfl⟩ | ⟨key, hhash, hvalue, hlength, rfl⟩
      · exact hdeclared.key.snoc (if_neg hother)
      · cases hvalue
        subst hhash
        have hpos : stored.profileData.length + 11 - 3 =
            1 + ((lines 0 (es ++ [.declaration properties
              CHARACTERISTIC_DATABASE_HASH])).map withLength).flatten.length + 8 := by
          rw [hdeclared.profileData, List.length_cons]
          omega
        dsimp only
        rw [bytes_of_uuid2str huuid]
        change KeyAt _ _ (some (stored.profileData.length + 11 - 3))
        rw [hpos]
        exact .found _ [] _ _ rfl (fun _ he => absurd he List.not_mem_nil) hlength
    refine hdeclared.add (.value valueProperties charUuid bytes) hkey rfl ?_ ?_ rfl rfl
    · rw [hdeclared.currentHandle]
    · rw [hsrc]
      exact (List.append_nil _).symm

end Steps

theorem run_built (calls : Calls) {es : List Entry} {db db' : GattDatabase} (h : Built es db)
    (hok : GattDatabase.run calls db = .ok db') : Built (es ++ calls.entries) db' := by
  induction calls generalizing es db db' with
  | done =>
    cases hok
    rw [Calls.entries, List.append_nil]
    exact h
  | addService uuid serviceUuid block rest ihBlock ihRest =>
    obtain ⟨begun, hbegun, hok⟩ := bind_eq_ok.mp hok
    obtain ⟨ended, hended, hok⟩ := bind_eq_ok.mp hok
    have hservice := beginService_built h hbegun
    have hblock := (ihBlock hservice hended).frame ended.handleTable none ended.charUuid
    have hrest := ihRest hblock hok
    rw [List.append_assoc, List.append_assoc] at hrest
    exact hrest
  | addCharacteristic properties charUuid valueProperties value block rest ihBlock ihRest =>
    obtain ⟨begun, hbegun, hok⟩ := bind_eq_ok.mp hok
    obtain ⟨ended, hended, hok⟩ := bind_eq_ok.mp hok
    have hcharacteristic := beginCharacteristic_built h hbegun
    have hblock := (ihBlock hcharacteristic hended).frame ended.handleTable ended.serviceUuid none
    have hrest := ihRest hblock hok
    rw [List.append_assoc, List.append_assoc, List.cons_append] at hrest
    exact hrest
  | addDescriptor properties descUuid value rest ihRest =>
    obtain ⟨added, hadded, hok⟩ := bind_eq_ok.mp hok
    have hrest := ihRest (addDescriptor_built h hadded) hok
    rw [List.append_assoc] at hrest
    exact hrest

theorem built_empty : Built [] GattDatabase.empty :=
  ⟨rfl, rfl, rfl, .absent none fun _ he => absurd he List.not_mem_nil⟩

/-! ## The database hash -/

section Digest
variable {digest bytes : Bytes} {pos : Nat}

theorem digest_reversed (h : 16 ≤ digest.length) :
    (List.range 16).map (fun i => digest[15 - i]?.getD 0) = (digest.take 16).reverse := by
  apply List.ext_getElem?
  intro i
  by_cases hi : i < 16
  · have hlt : 15 - i < digest.length := by omega
    rw [List.getElem?_map, List.getElem?_range hi, List.getElem?_reverse (by
      rw [List.length_take]
      omega), List.length_take, Nat.min_eq_left h, List.getElem?_take_of_lt (by omega)]
    have hindex : 16 - 1 - i = 15 - i := by omega
    rw [hindex, List.getElem?_eq_getElem hlt, Option.map_some, List.getElem?_eq_getElem hlt]
    rfl
  · rw [List.getElem?_eq_none (by rw [List.length_map, List.length_range]; omega),
      List.getElem?_eq_none (by rw [List.length_reverse, List.length_take]; omega)]

/-- A digest of 16 bytes or more is written from its end. -/
theorem writeDigest_eq (h : 16 ≤ digest.length) (hpos : pos + 16 ≤ bytes.length) :
    GattDatabase.writeDigest digest pos bytes = .ok (overwrite bytes pos (digest.take 16).reverse) := by
  have hloop (n : Nat) (hn : n ≤ 16) :
      (List.range n).foldlM (GattDatabase.writeByte digest pos) bytes =
        .ok (overwrite bytes pos ((List.range n).map fun i => digest[15 - i]?.getD 0)) := by
    induction n with
    | zero =>
      rw [List.range_zero, List.map_nil, overwrite, List.append_nil, List.length_nil, Nat.add_zero,
        List.take_append_drop]
      rfl
    | succ n ih =>
      have hget : digest[15 - n]? = some (digest[15 - n]?.getD 0) := by
        rw [List.getElem?_eq_getElem (by omega)]
        rfl
      have hlength : ((List.range n).map fun i => digest[15 - i]?.getD 0).length = n := by
        rw [List.length_map, List.length_range]
      have hset := @overwrite_set bytes ((List.range n).map fun i => digest[15 - i]?.getD 0) pos
        (digest[15 - n]?.getD 0) (by omega)
      rw [hlength] at hset
      rw [List.range_succ, List.foldlM_append, ih (by omega), List.map_append, List.map_singleton,
        ← hset]
      change (GattDatabase.writeByte digest pos _ n >>= pure) = _
      unfold GattDatabase.writeByte
      rw [hget]
      rfl
  rw [← digest_reversed h]
  exact hloop 16 (Nat.le_refl 16)

/-- A digest of fewer bytes raises. -/
theorem writeDigest_short (h : digest.length < 16) :
    GattDatabase.writeDigest digest pos bytes = .error (.noDigest 15) := by
  have hnone : digest[15 - 0]? = none := List.getElem?_eq_none (by omega)
  unfold GattDatabase.writeDigest
  rw [List.range_eq_range', List.range'_succ, List.foldlM_cons, GattDatabase.writeByte, hnone]
  rfl

end Digest

/-- What stands before the value of a Database Hash characteristic. -/
def hashHeader (properties handle length : Nat) : Bytes :=
  toLittleEndian 2 (length + 8) ++ int16ToLittleEndian (flagOf properties) ++
    int16ToLittleEndian handle ++ int16ToLittleEndian 0x2b2a

theorem withLength_hash (properties handle : Nat) (key : Bytes) :
    withLength ((Entry.value properties CHARACTERISTIC_DATABASE_HASH key).line handle) =
      hashHeader properties handle key.length ++ key := rfl

/-- The profile data around the value of a Database Hash characteristic. -/
theorem profile_split {before after : List Entry} {properties : Nat} {bytes : Bytes}
    (h : bytes.length = 16) : ATT_DB_VERSION :: ((lines 0 (before ++
        .value properties CHARACTERISTIC_DATABASE_HASH bytes :: after)).map withLength).flatten =
      (ATT_DB_VERSION :: ((lines 0 before).map withLength).flatten ++
        hashHeader properties (before.length + 1) 16) ++ bytes ++
        ((lines (before.length + 1) after).map withLength).flatten := by
  rw [lines_append, List.map_append, List.flatten_append, Nat.zero_add]
  change _ :: (_ ++ (withLength ((Entry.value properties CHARACTERISTIC_DATABASE_HASH bytes).line
    (before.length + 1)) ++ _)) = _
  rw [withLength_hash, h, List.cons_append, List.cons_append, List.cons_append,
    List.append_assoc, List.append_assoc, List.append_assoc]

/-- The hash goes over the value of the last Database Hash characteristic. -/
theorem overwrite_hash {before after : List Entry} {properties : Nat} {key : Bytes}
    (hlength : key.length = 16) (hafter : ∀ e ∈ after, e.hashKey = none) {hash : Bytes → Bytes}
    (hhash : (hash key).length = 16) :
    overwrite (ATT_DB_VERSION :: ((lines 0 (before ++
        .value properties CHARACTERISTIC_DATABASE_HASH key :: after)).map withLength).flatten)
      (1 + ((lines 0 before).map withLength).flatten.length + 8) (hash key) =
    ATT_DB_VERSION :: ((lines 0 (withHash hash (before ++
      .value properties CHARACTERISTIC_DATABASE_HASH key :: after))).map withLength).flatten := by
  have hkey : (Entry.value properties CHARACTERISTIC_DATABASE_HASH key).hashKey = some key :=
    rfl
  have hpos : 1 + ((lines 0 before).map withLength).flatten.length + 8 =
      (ATT_DB_VERSION :: ((lines 0 before).map withLength).flatten ++
        hashHeader properties (before.length + 1) 16).length := by
    rw [List.length_append, List.length_cons, Nat.add_comm 1]
    rfl
  rw [withHash_append hkey hafter, profile_split hlength, hpos,
    overwrite_append (hlength.trans hhash.symm), Entry.withValue, profile_split hhash]

theorem hashPos_le {entries before after : List Entry} {properties : Nat} {key : Bytes}
    (hes : entries = before ++ .value properties CHARACTERISTIC_DATABASE_HASH key :: after)
    (hlength : key.length = 16) : 1 + ((lines 0 before).map withLength).flatten.length + 8 + 16 ≤
      (ATT_DB_VERSION :: ((lines 0 entries).map withLength).flatten).length := by
  have hheader : (hashHeader properties (before.length + 1) 16).length = 8 := rfl
  rw [hes, profile_split hlength, List.length_append, List.length_append, List.length_append,
    List.length_cons, hheader, hlength]
  omega

section New
variable {cmac : Bytes → Bytes → Bytes} {calls : Calls} {db : GattDatabase}

theorem insertIfKey_profileData {added : GattDatabase} (hbuilt : Built calls.entries added)
    (h : added.insertIfKey cmac = .ok db) : db.profileData = ATT_DB_VERSION ::
      ((lines 0 (withHash (databaseHash cmac calls.entries) calls.entries)).map
        withLength).flatten := by
  obtain ⟨profileData, handleTable, currentHandle, hashSrc, hashPos, databaseHashKey, serviceUuid,
    charUuid⟩ := added
  obtain ⟨rfl, -, rfl, hkey⟩ := hbuilt
  generalize hentries : calls.entries = entries at hkey h ⊢
  cases hkey with
  | absent pos hnone =>
    cases h
    rw [withHash_of_none hnone]
  | found before after properties key hes hafter hlength =>
    obtain ⟨data, hdata, h⟩ := bind_eq_ok.mp h
    cases h
    dsimp only [Option.getD_some] at hdata ⊢
    have hdigest : 16 ≤ (cmac key (hashSource 0 entries)).length := by
      by_contra hshort
      rw [writeDigest_short (Nat.not_le.mp hshort)] at hdata
      cases hdata
    have hhash : (databaseHash cmac entries key).length = 16 := by
      rw [databaseHash, List.length_reverse, List.length_take, Nat.min_eq_left hdigest]
    have hover := @overwrite_hash before after properties key hlength hafter _ hhash
    rw [← hes] at hover
    rw [writeDigest_eq hdigest (hashPos_le hes hlength), ← databaseHash, hover] at hdata
    cases hdata
    rfl

theorem new_profileData (h : GattDatabase.new cmac calls = .ok db) : db.profileData =
    ATT_DB_VERSION :: (((lines 0 (withHash (databaseHash cmac calls.entries)
      calls.entries)).map withLength).flatten ++ [0x00, 0x00]) := by
  obtain ⟨added, hadded, h⟩ := bind_eq_ok.mp h
  have hbuilt := run_built calls built_empty hadded
  rw [List.nil_append] at hbuilt
  obtain ⟨hashed, hhashed, h⟩ := bind_eq_ok.mp h
  cases h
  dsimp only
  rw [insertIfKey_profileData hbuilt hhashed]
  rfl

end New

end PicoRuby.Ble
