import Mathlib.Logic.Equiv.Basic
import Mathlib.Algebra.Group.End
import PicoRuby.Codec.RoundTrip
import PicoRuby.Wifi.Config
import PicoRuby.Yaml.RoundTrip

/-!
# Reading the configuration back

The names go through the file as plain scalars, and `parse_value` may take them for something else; the password is
a Base64 text there, which is a String unless all its characters are digits.
-/

namespace PicoRuby.Wifi

open Codec Shared Yaml

set_option autoImplicit false

/-! ## Keys -/

theorem flatten_replicate_length (n : Nat) (s : Bytes) : (List.replicate n s).flatten.length = n * s.length := by
  rw [List.length_flatten, List.map_replicate, List.sum_replicate_nat]

theorem repeated_length {uniqueId : Bytes} (h : uniqueId ≠ []) (size : Nat) : (repeated uniqueId size).length = size := by
  have hpos : 0 < uniqueId.length := List.length_pos_of_ne_nil h
  unfold repeated
  rw [List.length_take, flatten_replicate_length]
  apply Nat.min_eq_left
  have hlt : size < (size / uniqueId.length + 1) * uniqueId.length := by
    rw [Nat.mul_comm]
    exact Nat.lt_mul_div_succ size hpos
  exact Nat.le_trans (Nat.le_of_lt hlt) (Nat.le_mul_of_pos_right _ hpos)

/-- What is known of AES-256-CBC with the padding of PKCS7. -/
structure Cipher.Inverts (c : Cipher) : Prop where
  decrypt : ∀ {key iv : Bytes}, key.length = keyLen → iv.length = ivLen →
    ∀ data : Bytes, c.decrypt key iv (c.encrypt key iv data) = some data
  length : ∀ {key iv : Bytes}, key.length = keyLen → iv.length = ivLen →
    ∀ data : Bytes, (c.encrypt key iv data).length = (data.length / 16 + 1) * 16

variable {d : Device}

theorem decryptPassword_encryptPassword (h : d.cipher.Inverts) (password : Bytes) :
    d.decryptPassword (d.encryptPassword password) = some password :=
  h.decrypt (repeated_length d.nonempty _) (repeated_length d.nonempty _) password

theorem encryptPassword_length (h : d.cipher.Inverts) (password : Bytes) :
    (d.encryptPassword password).length = (password.length / 16 + 1) * 16 :=
  h.length (repeated_length d.nonempty _) (repeated_length d.nonempty _) password

/-! ## Base64 texts -/

theorem toBytes_ofBytes (s : Bytes) : toBytes (ofBytes s) = s := by
  have hchar (b : UInt8) : (Char.ofNat b.toNat).toNat.toUInt8 = b := by
    have hvalid : b.toNat.isValidChar := Or.inl (Nat.lt_trans b.toNat_lt (by decide))
    have hcode : (Char.ofNat b.toNat).toNat = b.toNat := by
      unfold Char.ofNat
      rw [dif_pos hvalid]
      rfl
    rw [hcode]
    exact UInt8.ofNat_toNat
  unfold toBytes ofBytes
  rw [List.map_map]
  exact List.map_id'' hchar s

/-- The characters of Base64 are no blanks, and none of them is in a number but the digits. -/
theorem char_of_mem {data : Bytes} {c : Char} (h : c ∈ ofBytes (encode64 data)) :
    isBlank c = false ∧ c ≠ '\x00' ∧ c ≠ '-' ∧ c ≠ '.' := by
  obtain ⟨b, hb, rfl⟩ := List.mem_map.mp h
  have hall : (pad :: base64chars).all (fun b => !isBlank (Char.ofNat b.toNat) && Char.ofNat b.toNat != '\x00' &&
      Char.ofNat b.toNat != '-' && Char.ofNat b.toNat != '.') = true := by decide +kernel
  have hmem : b ∈ pad :: base64chars := by
    rcases encode64_mem data b hb with hb | rfl
    · exact List.mem_cons_of_mem _ hb
    · exact List.mem_cons_self
  simpa [and_assoc] using List.all_eq_true.mp hall b hmem

theorem encoded_solid (data : Bytes) : ∀ c ∈ ofBytes (encode64 data), isBlank c = false ∧ c ≠ '\x00' := by
  intro c hc
  obtain ⟨hblank, hnul, -⟩ := char_of_mem hc
  exact ⟨hblank, hnul⟩

theorem encoded_length {data : Bytes} (h : 16 ≤ data.length) : 24 ≤ (ofBytes (encode64 data)).length := by
  unfold ofBytes
  rw [List.length_map, encode64_length]
  omega

theorem isInteger_encoded {data : Bytes} (h : 16 ≤ data.length) :
    isInteger (ofBytes (encode64 data)) = (ofBytes (encode64 data)).all isDigit := by
  have hlength := encoded_length h
  have hstrip := (trimmed_of_forall (encoded_solid data)).strip
  unfold isInteger
  rw [hstrip]
  split
  · rename_i heq
    rw [heq] at hlength
    exact absurd hlength (by decide)
  · rename_i digits heq
    have hdash : '-' ∈ ofBytes (encode64 data) := heq ▸ List.mem_cons_self
    exact absurd rfl (char_of_mem hdash).2.2.1
  · rfl

theorem isFloat_encoded (data : Bytes) : isFloat (ofBytes (encode64 data)) = false := by
  have hdot : '.' ∉ ofBytes (encode64 data) := fun hmem => (char_of_mem hmem).2.2.2 rfl
  unfold isFloat split
  rw [(trimmed_of_forall (encoded_solid data)).strip, List.splitOn_eq_singleton hdot]
  split
  · rename_i heq
    have hprefix := List.rdropWhile_prefix (p := List.isEmpty) [ofBytes (encode64 data)]
    rw [heq] at hprefix
    exact absurd hprefix.length_le (by simp)
  · rfl

/-- A Base64 text of that length is read as a String, or as an Integer. -/
theorem parseValue_encoded {data : Bytes} (h : 16 ≤ data.length) : parseValue (ofBytes (encode64 data)) =
    if (ofBytes (encode64 data)).all isDigit then .integer (toI (ofBytes (encode64 data)))
    else .string (ofBytes (encode64 data)) := by
  have hlength := encoded_length h
  have hkeyword (word : Text) (hword : word.length < 24) : (downcase (ofBytes (encode64 data)) == word) = false := by
    rw [beq_eq_false_iff_ne]
    rintro rfl
    unfold downcase at hword
    rw [List.length_map] at hword
    omega
  unfold parseValue isBoolean isNull
  rw [isInteger_encoded h, isFloat_encoded, hkeyword "true".toList (by decide), hkeyword "false".toList (by decide),
    hkeyword "null".toList (by decide)]
  rfl

/-! ## What is loaded -/

theorem word_of_letters {s : Text} (hne : s ≠ []) (h : s.all (fun c => ('a' ≤ c && c ≤ 'z') || c == '_') = true) :
    Word s := by
  have hletter : ∀ c ∈ s, ('a' ≤ c ∧ c ≤ 'z') ∨ c = '_' := by simpa using h
  have hother (c : Char) (hc : c ∈ s) (hfirst : ¬ ('a' ≤ c ∧ c ≤ 'z')) (hunderscore : c ≠ '_') : False :=
    (hletter c hc).elim hfirst hunderscore
  refine ⟨hne, fun c hc => ⟨?_, ?_⟩, fun hc => hother _ hc (by decide) (by decide), fun c hc => ⟨?_, ?_⟩⟩
  · by_contra htrue
    have hblank : c ∈ blanks := by simpa [isBlank] using htrue
    have hall : ∀ c ∈ blanks, ¬ ('a' ≤ c ∧ c ≤ 'z') ∧ c ≠ '_' := by simp [blanks]
    exact hother c hc (hall c hblank).1 (hall c hblank).2
  · rintro rfl
    exact hother _ hc (by decide) (by decide)
  · rintro rfl
    exact hother _ (List.mem_of_mem_head? hc) (by decide) (by decide)
  · rintro rfl
    exact hother _ (List.mem_of_mem_head? hc) (by decide) (by decide)

theorem oneLine_boolean (b : Bool) : OneLine (Scalar.boolean b).written := by
  have hplain : (Scalar.boolean b).Plain := trivial
  exact hplain.oneLine

theorem parseValue_boolean (b : Bool) : parseValue (Scalar.boolean b).written = .boolean b := by
  have hplain : (Scalar.boolean b).Plain := trivial
  exact hplain.parseValue

theorem encodedPassword_oneLine (h : d.cipher.Inverts) (password : Bytes) :
    OneLine (Scalar.string (ofBytes (encode64 (d.encryptPassword password)))).written := by
  have hlength : 16 ≤ (d.encryptPassword password).length := by
    rw [encryptPassword_length h]
    omega
  refine oneLine_of_solid ?_ (encoded_solid _)
  have htext := encoded_length hlength
  rintro heq
  have hnil : ofBytes (encode64 (d.encryptPassword password)) = [] := heq
  rw [hnil] at htext
  exact absurd htext (by decide)

theorem encodedPassword_written (h : d.cipher.Inverts) (password : Option Bytes) :
    OneLine (d.encodedPassword password).written := by
  have hnull : OneLine Scalar.null.written := (show Scalar.Plain .null from trivial).oneLine
  cases password with
  | none => exact hnull
  | some password =>
    unfold Device.encodedPassword
    dsimp only
    by_cases hempty : password.isEmpty = true
    · rw [if_pos hempty]
      exact hnull
    · rw [if_neg hempty]
      exact encodedPassword_oneLine h password

/-- What is read of the file of nmcli.rb. -/
def Device.loadedNmcli (d : Device) (a : Answers) : Value :=
  .hash [
    ("wifi".toList, .hash [
      ("ssid".toList, .scalar (parseValue a.ssid)),
      ("encoded_password".toList, .scalar (parseValue (d.encodedPassword a.password).written)),
      ("auto_connect".toList, .scalar (.boolean (a.autoConnect == "y".toList))),
      ("retry_if_failed".toList, .scalar (.boolean (a.retryIfFailed == "y".toList))),
      ("watchdog".toList, .scalar (.boolean (a.watchdog == "y".toList)))]),
    ("country_code".toList, .scalar (parseValue a.countryCode))]

theorem load_nmcli (h : d.cipher.Inverts) {a : Answers} (hssid : OneLine a.ssid) (hcountry : OneLine a.countryCode) :
    load (d.nmcli a) = some (d.loadedNmcli a) := by
  unfold Device.nmcli
  rw [load_dump _ (fun x => by simp)]
  · simp only [Value.kept, keptEntries, parseValue_boolean]
    rfl
  · have htop : ["wifi".toList, "country_code".toList].Nodup := by decide
    have hwifi : ["ssid".toList, "encoded_password".toList, "auto_connect".toList, "retry_if_failed".toList,
        "watchdog".toList].Nodup := by decide
    refine ⟨by simp, htop, word_of_letters (by decide) (by decide), ⟨by simp, hwifi, ?_⟩,
      word_of_letters (by decide) (by decide), hcountry, trivial⟩
    exact ⟨word_of_letters (by decide) (by decide), hssid, word_of_letters (by decide) (by decide),
      encodedPassword_written h _, word_of_letters (by decide) (by decide), oneLine_boolean _,
      word_of_letters (by decide) (by decide), oneLine_boolean _, word_of_letters (by decide) (by decide),
      oneLine_boolean _, trivial⟩

/-- What is read of the file of nmble.rb. -/
def Device.loadedReceived (d : Device) (r : Received) : Value :=
  .hash [
    ("country_code".toList, .scalar (parseValue r.country)),
    ("wifi".toList, .hash [
      ("ssid".toList, .scalar (parseValue r.ssid)),
      ("encoded_password".toList, .scalar (parseValue (ofBytes (encode64 (d.encryptPassword r.password))))),
      ("auto_connect".toList, .scalar (.boolean true)),
      ("watchdog".toList, .scalar (.boolean (r.watchdog == "y".toList)))])]

theorem load_saveWifiConfig (h : d.cipher.Inverts) {r : Received} (hssid : OneLine r.ssid)
    (hcountry : OneLine r.country) : load (d.saveWifiConfig r) = some (d.loadedReceived r) := by
  unfold Device.saveWifiConfig
  rw [load_dump _ (fun x => by simp)]
  · simp only [Value.kept, keptEntries, parseValue_boolean]
    rfl
  · have htop : ["country_code".toList, "wifi".toList].Nodup := by decide
    have hwifi : ["ssid".toList, "encoded_password".toList, "auto_connect".toList, "watchdog".toList].Nodup := by decide
    refine ⟨by simp, htop, word_of_letters (by decide) (by decide), hcountry,
      word_of_letters (by decide) (by decide), ⟨by simp, hwifi, ?_⟩, trivial⟩
    exact ⟨word_of_letters (by decide) (by decide), hssid, word_of_letters (by decide) (by decide),
      encodedPassword_oneLine h _, word_of_letters (by decide) (by decide), oneLine_boolean _,
      word_of_letters (by decide) (by decide), oneLine_boolean _, trivial⟩

/-! ## What is restored -/

/-- `wifi_connect.rb` finds the settings in the file. -/
def Restores (d : Device) (file : Text) (s : Settings) : Prop := ∀ checkAutoConnect : Bool,
  d.wifiConnect checkAutoConnect file =
    if checkAutoConnect && !truthy s.autoConnect then .disabled else .connecting s

/-- With open authentication exactly for the empty password. -/
def entered (countryCode ssid : Text) (password : Bytes) (autoConnect retryIfFailed watchdog : Scalar) : Settings where
  countryCode := .scalar (.string countryCode)
  ssid := .scalar (.string ssid)
  auth := if password = [] then .OPEN else .WPA2_MIXED_PSK
  password := if password = [] then none else some password
  autoConnect := .scalar autoConnect
  retryIfFailed := .scalar retryIfFailed
  watchdog := .scalar watchdog

/-- What a configuration says, when `wifi` is a Hash and has what is asked for. -/
theorem loadConfig_eq (d : Device) (checkAutoConnect : Bool) {config wifi ssid encodedPassword countryCode : Value}
    {s : Settings} (hwifi : index config "wifi".toList = some wifi) (hssid : index wifi "ssid".toList = some ssid)
    (hencoded : index wifi "encoded_password".toList = some encodedPassword)
    (hcountry : index config "country_code".toList = some countryCode)
    (hauto : index wifi "auto_connect".toList = some s.autoConnect)
    (hretry : index wifi "retry_if_failed".toList = some s.retryIfFailed)
    (hwatchdog : index wifi "watchdog".toList = some s.watchdog) :
    d.loadConfig checkAutoConnect config =
      if truthy countryCode then
        if checkAutoConnect && !truthy s.autoConnect then .disabled
        else ((d.credentials encodedPassword).map fun c => Outcome.connecting
          ⟨countryCode, ssid, c.1, c.2, s.autoConnect, s.retryIfFailed, s.watchdog⟩).getD .raised
      else .noCountryCode := by
  have hconnect : d.connect wifi ssid encodedPassword countryCode = (d.credentials encodedPassword).map fun c =>
      ⟨countryCode, ssid, c.1, c.2, s.autoConnect, s.retryIfFailed, s.watchdog⟩ := by
    unfold Device.connect
    rw [hauto, hretry, hwatchdog]
    cases d.credentials encodedPassword with
    | none => rfl
    | some c => rfl
  unfold Device.loadConfig
  rw [hwifi]
  dsimp only
  rw [hssid, hencoded, hcountry]
  dsimp only
  rw [hauto, hconnect, Option.any_some, Option.map_map]
  rfl

theorem loadConfig_restores_iff {config wifi ssid encodedPassword countryCode : Value} {s : Settings}
    (hwifi : index config "wifi".toList = some wifi) (hssid : index wifi "ssid".toList = some ssid)
    (hencoded : index wifi "encoded_password".toList = some encodedPassword)
    (hcountry : index config "country_code".toList = some countryCode)
    (hauto : index wifi "auto_connect".toList = some s.autoConnect)
    (hretry : index wifi "retry_if_failed".toList = some s.retryIfFailed)
    (hwatchdog : index wifi "watchdog".toList = some s.watchdog) (htruthy : truthy s.countryCode = true) :
    (∀ checkAutoConnect, d.loadConfig checkAutoConnect config =
      if checkAutoConnect && !truthy s.autoConnect then .disabled else .connecting s) ↔
      ssid = s.ssid ∧ countryCode = s.countryCode ∧ d.credentials encodedPassword = some (s.auth, s.password) := by
  have heq (checkAutoConnect : Bool) := loadConfig_eq d checkAutoConnect hwifi hssid hencoded hcountry hauto hretry
    hwatchdog
  constructor
  · intro h
    have hfalse := h false
    rw [heq] at hfalse
    simp only [Bool.false_and, Bool.false_eq_true, if_false] at hfalse
    split at hfalse
    · cases hc : d.credentials encodedPassword with
      | none =>
        rw [hc] at hfalse
        cases hfalse
      | some c =>
        rw [hc] at hfalse
        have hs := Outcome.connecting.inj hfalse
        have hpair : some c = some (s.auth, s.password) :=
          congrArg some (Prod.ext (congrArg Settings.auth hs) (congrArg Settings.password hs))
        exact ⟨congrArg Settings.ssid hs, congrArg Settings.countryCode hs, hpair⟩
    · cases hfalse
  · rintro ⟨rfl, rfl, hc⟩ checkAutoConnect
    rw [heq, if_pos htruthy, hc]
    rfl

/-- `parse_value` does not take the text for an Integer, a Float, a boolean or null. -/
def Untyped (s : Text) : Prop := isInteger s = false ∧ isFloat s = false ∧ isBoolean s = false ∧ isNull s = false

theorem parseValue_string_iff {s : Text} : Value.scalar (parseValue s) = .scalar (.string s) ↔ Untyped s := by
  rw [Value.scalar.injEq]
  unfold parseValue Untyped
  cases isInteger s
  · cases isFloat s
    · cases isBoolean s
      · cases isNull s <;> simp
      · simp
    · simp
  · simp

/-- The Base64 text for the password has no other characters than digits. -/
def DigitsOnly (d : Device) (password : Bytes) : Prop :=
  (ofBytes (encode64 (d.encryptPassword password))).all isDigit = true

theorem credentials_encoded (h : d.cipher.Inverts) (password : Bytes) (c : Auth × Option Bytes) :
    d.credentials (.scalar (parseValue (ofBytes (encode64 (d.encryptPassword password))))) = some c ↔
      ¬ DigitsOnly d password ∧ c = (.WPA2_MIXED_PSK, some password) := by
  have hlength : 16 ≤ (d.encryptPassword password).length := by
    rw [encryptPassword_length h]
    omega
  unfold DigitsOnly
  rw [parseValue_encoded hlength]
  by_cases hdigits : (ofBytes (encode64 (d.encryptPassword password))).all isDigit = true
  · rw [if_pos hdigits]
    simp [hdigits, Device.credentials]
  · have hne : (ofBytes (encode64 (d.encryptPassword password))).isEmpty = false := by
      rw [List.isEmpty_eq_false_iff, ← List.length_pos_iff_ne_nil]
      exact Nat.lt_of_lt_of_le (by decide) (encoded_length hlength)
    have hcredentials : d.credentials (.scalar (.string (ofBytes (encode64 (d.encryptPassword password))))) =
        some (.WPA2_MIXED_PSK, some password) := by
      unfold Device.credentials
      dsimp only
      rw [if_neg (by simp [hne]), toBytes_ofBytes, decode64_encode64]
      have hdecrypt := decryptPassword_encryptPassword h password
      simp [Except.toOption, hdecrypt]
    rw [if_neg hdigits, hcredentials]
    simp [hdigits, eq_comm]

theorem credentials_nmcli (h : d.cipher.Inverts) (password : Bytes) :
    d.credentials (.scalar (parseValue (d.encodedPassword (some password)).written)) =
        some (if password = [] then .OPEN else .WPA2_MIXED_PSK, if password = [] then none else some password) ↔
      (password ≠ [] → ¬ DigitsOnly d password) := by
  by_cases hempty : password = []
  · have hnull : d.encodedPassword (some password) = .null := if_pos (List.isEmpty_iff.mpr hempty)
    have hparse : parseValue (Scalar.null).written = .null := by decide
    rw [hnull, hparse, if_pos hempty, if_pos hempty]
    simp [hempty, Device.credentials]
  · have hencoded : d.encodedPassword (some password) = .string (ofBytes (encode64 (d.encryptPassword password))) :=
      if_neg (by simpa using hempty)
    rw [hencoded, if_neg hempty, if_neg hempty]
    refine (credentials_encoded h password _).trans ?_
    simp [hempty]

/-- What is entered in nmcli.rb. -/
def Answers.settings (a : Answers) (password : Bytes) : Settings :=
  entered a.countryCode a.ssid password (.boolean (a.autoConnect == "y".toList))
    (.boolean (a.retryIfFailed == "y".toList)) (.boolean (a.watchdog == "y".toList))

/-- What nmble.rb has received; it always connects, and does not retry. -/
def Received.settings (r : Received) : Settings :=
  entered r.country r.ssid r.password (.boolean true) .null (.boolean (r.watchdog == "y".toList))

theorem nmcli_restores_iff (h : d.cipher.Inverts) {a : Answers} {password : Bytes} (hpassword : a.password = some password)
    (hssid : OneLine a.ssid) (hcountry : OneLine a.countryCode) :
    Restores d (d.nmcli a) (a.settings password) ↔
      Untyped a.ssid ∧ Untyped a.countryCode ∧ (password ≠ [] → ¬ DigitsOnly d password) := by
  have hload := load_nmcli h hssid hcountry
  unfold Restores Device.wifiConnect
  rw [hload]
  refine (loadConfig_restores_iff rfl rfl rfl rfl rfl rfl rfl rfl).trans ?_
  rw [hpassword]
  exact and_congr parseValue_string_iff (and_congr parseValue_string_iff (credentials_nmcli h password))

theorem saveWifiConfig_restores_iff (h : d.cipher.Inverts) {r : Received} (hssid : OneLine r.ssid)
    (hcountry : OneLine r.country) :
    Restores d (d.saveWifiConfig r) r.settings ↔
      Untyped r.ssid ∧ Untyped r.country ∧ r.password ≠ [] ∧ ¬ DigitsOnly d r.password := by
  have hload := load_saveWifiConfig h hssid hcountry
  unfold Restores Device.wifiConnect
  rw [hload]
  refine (loadConfig_restores_iff rfl rfl rfl rfl rfl rfl rfl rfl).trans ?_
  refine and_congr parseValue_string_iff (and_congr parseValue_string_iff ((credentials_encoded h r.password _).trans ?_))
  by_cases hempty : r.password = []
  · simp [Received.settings, entered, hempty]
  · simp [Received.settings, entered, hempty]

/-- **The file of nmcli.rb, and that of nmble.rb, restore what was entered** exactly when neither name looks like
another scalar, the Base64 text of the password is no number, and, for nmble.rb, there is a password. -/
theorem restores_iff (d : Device) (h : d.cipher.Inverts) :
    (∀ (a : Answers) (password : Bytes), a.password = some password → OneLine a.ssid → OneLine a.countryCode →
      (Restores d (d.nmcli a) (a.settings password) ↔
        Untyped a.ssid ∧ Untyped a.countryCode ∧ (password ≠ [] → ¬ DigitsOnly d password))) ∧
    ∀ r : Received, OneLine r.ssid → OneLine r.country →
      (Restores d (d.saveWifiConfig r) r.settings ↔
        Untyped r.ssid ∧ Untyped r.country ∧ r.password ≠ [] ∧ ¬ DigitsOnly d r.password) :=
  ⟨fun _ _ hpassword hssid hcountry => nmcli_restores_iff h hpassword hssid hcountry,
    fun _ hssid hcountry => saveWifiConfig_restores_iff h hssid hcountry⟩

/-! ## A device -/

/-- The padding of PKCS7. -/
def padded (data : Bytes) : Bytes :=
  data ++ List.replicate (16 - data.length % 16) (UInt8.ofNat (16 - data.length % 16))

def unpadded (data : Bytes) : Option Bytes := some (data.take (data.length - (data.getLastD 0).toNat))

theorem padded_length (data : Bytes) : (padded data).length = (data.length / 16 + 1) * 16 := by
  unfold padded
  rw [List.length_append, List.length_replicate]
  omega

theorem unpadded_padded (data : Bytes) : unpadded (padded data) = some data := by
  have hlast : ((padded data).getLastD 0).toNat = 16 - data.length % 16 := by
    have hpos : 16 - data.length % 16 ≠ 0 := by omega
    unfold padded
    rw [List.getLastD_eq_getLast?, List.getLast?_append, List.getLast?_replicate, if_neg hpos, Option.some_or,
      Option.getD_some, UInt8.toNat_ofNat']
    omega
  unfold unpadded
  rw [hlast, padded_length]
  unfold padded
  rw [List.take_append_of_le_length (by omega), List.take_of_length_le (by omega)]

/-- The ciphertexts of two passwords under AES-256-CBC, with the key and the IV of the device below. -/
def ciphertextEmpty : Bytes := [167, 10, 51, 126, 89, 156, 143, 10, 150, 89, 118, 18, 184, 220, 0, 121]

def ciphertextPicoruby : Bytes := [1, 171, 206, 204, 64, 136, 125, 37, 87, 234, 23, 197, 120, 121, 128, 31]

/-- The blocks of the two passwords and their ciphertexts are exchanged, everything else is only padded. -/
def exchange : Equiv.Perm Bytes :=
  Equiv.swap ciphertextEmpty (padded []) * Equiv.swap ciphertextPicoruby (padded (ascii "picoruby"))

def sampleCipher : Cipher where
  encrypt _ _ data := exchange (padded data)
  decrypt _ _ data := unpadded (exchange.symm data)

def sampleDevice : Device := ⟨sampleCipher, ascii "e6614103e7452d2f", by decide⟩

theorem length_exchange (data : Bytes) : (exchange data).length = data.length := by
  have hswap (x y data : Bytes) (hx : x.length = 16) (hy : y.length = 16) : (Equiv.swap x y data).length = data.length := by
    rw [Equiv.swap_apply_def]
    split
    · rename_i heq
      rw [heq, hx, hy]
    · split
      · rename_i heq
        rw [heq, hx, hy]
      · rfl
  exact (hswap _ _ _ rfl rfl).trans (hswap _ _ _ rfl rfl)

theorem sampleCipher_inverts : sampleCipher.Inverts where
  decrypt _ _ data := by
    have hcancel : exchange.symm (exchange (padded data)) = padded data := Equiv.symm_apply_apply _ _
    exact (congrArg unpadded hcancel).trans (unpadded_padded data)
  length _ _ data := (length_exchange _).trans (padded_length data)

/-- The SSID `12345`, and an empty password over nmble.rb. -/
theorem numeric_ssid_lost :
    sampleDevice.wifiConnect false (sampleDevice.nmcli
      ⟨"JP".toList, "12345".toList, some [], "y".toList, "n".toList, "n".toList⟩) =
      .connecting ⟨.scalar (.string "JP".toList), .scalar (.integer 12345), .OPEN, none, .scalar (.boolean true),
        .scalar (.boolean false), .scalar (.boolean false)⟩ ∧
    sampleDevice.wifiConnect false (sampleDevice.saveWifiConfig ⟨"home".toList, [], "JP".toList, "n".toList⟩) =
      .connecting ⟨.scalar (.string "JP".toList), .scalar (.string "home".toList), .WPA2_MIXED_PSK, some [],
        .scalar (.boolean true), .scalar .null, .scalar (.boolean false)⟩ :=
  ⟨rfl, rfl⟩

theorem picoruby_restored :
    Restores sampleDevice
      (sampleDevice.nmcli
        ⟨"JP".toList, "a:b 5".toList, some (ascii "picoruby"), "y".toList, "n".toList, "y".toList⟩)
      (entered "JP".toList "a:b 5".toList (ascii "picoruby") (.boolean true) (.boolean false) (.boolean true)) ∧
    Restores sampleDevice
      (sampleDevice.saveWifiConfig ⟨"a:b 5".toList, ascii "picoruby", "JP".toList, "n".toList⟩)
      (entered "JP".toList "a:b 5".toList (ascii "picoruby") (.boolean true) .null (.boolean false)) := by
  have hJP : OneLine "JP".toList := oneLine_of_solid (by decide) (by simp [isBlank, blanks])
  have hssid : OneLine "a:b 5".toList := by
    refine ⟨by decide, by decide, ?_, ?_⟩
    · intro c hc
      cases hc
      decide
    · intro c hc
      cases hc
      decide
  have hdigits : ¬ DigitsOnly sampleDevice (ascii "picoruby") := by
    unfold DigitsOnly
    decide +kernel
  constructor
  · exact ((restores_iff sampleDevice sampleCipher_inverts).1
      ⟨"JP".toList, "a:b 5".toList, some (ascii "picoruby"), "y".toList, "n".toList, "y".toList⟩ (ascii "picoruby") rfl
      hssid hJP).mpr ⟨by unfold Untyped; decide, by unfold Untyped; decide, fun _ => hdigits⟩
  · exact ((restores_iff sampleDevice sampleCipher_inverts).2
      ⟨"a:b 5".toList, ascii "picoruby", "JP".toList, "n".toList⟩ hssid hJP).mpr
      ⟨by unfold Untyped; decide, by unfold Untyped; decide, by decide, hdigits⟩

end PicoRuby.Wifi
