import Mathlib.Data.List.Infix
import PicoRuby.Codec.Base64
import PicoRuby.Yaml.Parser

/-!
# The WiFi configuration file

nmcli.rb and nmble.rb write it, wifi_connect.rb reads it. What is typed for a name is a text; a password is the
list of its bytes, since it goes through the cipher.
-/

namespace PicoRuby.Wifi

open Codec Shared Yaml

set_option autoImplicit false

/-! ## The cipher -/

/-- `cipher.update(data) + cipher.finish` of `MbedTLS::Cipher.new("AES-256-CBC")` with `cipher.key` and `cipher.iv`.
There is no tag: `write_tag` is empty. -/
structure Cipher where
  encrypt (key iv : Bytes) : Bytes → Bytes
  decrypt (key iv : Bytes) : Bytes → Option Bytes

def keyLen : Nat := 32

def ivLen : Nat := 16

structure Device where
  cipher : Cipher
  uniqueId : Bytes
  nonempty : uniqueId ≠ []

/-- `(unique_id * ((size / len + 1) * len))[0, size]`. -/
def repeated (uniqueId : Bytes) (size : Nat) : Bytes :=
  (List.replicate ((size / uniqueId.length + 1) * uniqueId.length) uniqueId).flatten.take size

namespace Device

variable (d : Device)

def key : Bytes := repeated d.uniqueId keyLen

def iv : Bytes := repeated d.uniqueId ivLen

/-- `encrypt_proc` and `encrypt_password`. -/
def encryptPassword (password : Bytes) : Bytes := d.cipher.encrypt d.key d.iv password

/-- `decrypt_proc`. -/
def decryptPassword (ciphertext : Bytes) : Option Bytes := d.cipher.decrypt d.key d.iv ciphertext

end Device

/-- A String of the Base64 alphabet, in the file. -/
def ofBytes (s : Bytes) : Text := s.map fun b => Char.ofNat b.toNat

def toBytes (s : Text) : Bytes := s.map fun c => c.toNat.toUInt8

/-! ## Writing -/

/-- What is entered in nmcli.rb. -/
structure Answers where
  countryCode : Text
  ssid : Text
  password : Option Bytes
  autoConnect : Text
  retryIfFailed : Text
  watchdog : Text

def Device.encodedPassword (d : Device) : Option Bytes → Scalar
  | none => .null
  | some password =>
    if password.isEmpty then .null else .string (ofBytes (encode64 (d.encryptPassword password)))

def Device.nmcli (d : Device) (a : Answers) : Text :=
  dump (.hash [
    ("wifi".toList, .hash [
      ("ssid".toList, .scalar (.string a.ssid)),
      ("encoded_password".toList, .scalar (d.encodedPassword a.password)),
      ("auto_connect".toList, .scalar (.boolean (a.autoConnect == "y".toList))),
      ("retry_if_failed".toList, .scalar (.boolean (a.retryIfFailed == "y".toList))),
      ("watchdog".toList, .scalar (.boolean (a.watchdog == "y".toList)))]),
    ("country_code".toList, .scalar (.string a.countryCode))])

/-- What nmble.rb has received. -/
structure Received where
  ssid : Text
  password : Bytes
  country : Text
  watchdog : Text

def Device.saveWifiConfig (d : Device) (r : Received) : Text :=
  dump (.hash [
    ("country_code".toList, .scalar (.string r.country)),
    ("wifi".toList, .hash [
      ("ssid".toList, .scalar (.string r.ssid)),
      ("encoded_password".toList, .scalar (.string (ofBytes (encode64 (d.encryptPassword r.password))))),
      ("auto_connect".toList, .scalar (.boolean true)),
      ("watchdog".toList, .scalar (.boolean (r.watchdog == "y".toList)))])])

/-! ## Reading -/

/-- `value[key]`; what is no Hash and no String raises. -/
def index : Value → Text → Option Value
  | .hash entries, key => some ((hashGet entries key).getD (.scalar .null))
  | .scalar (.string s), key => some (if key <:+: s then .scalar (.string key) else .scalar .null)
  | _, _ => none

def truthy : Value → Bool
  | .scalar (.boolean false) => false
  | .scalar .null => false
  | _ => true

/-- `CYW43::Auth`. -/
inductive Auth where
  | OPEN
  | WPA2_MIXED_PSK
deriving DecidableEq, Repr

/-- What `wifi_connect` goes on with. -/
structure Settings where
  countryCode : Value
  ssid : Value
  auth : Auth
  password : Option Bytes
  autoConnect : Value
  retryIfFailed : Value
  watchdog : Value

inductive Outcome where
  | raised
  /-- "Invalid configuration file" -/
  | invalid
  /-- "Country code not found in configuration file" -/
  | noCountryCode
  /-- "Auto connect is disabled" -/
  | disabled
  | connecting (s : Settings)

/-- From `encoded_password` to `auth` and `password`. -/
def Device.credentials (d : Device) : Value → Option (Auth × Option Bytes)
  | .scalar .null => some (.OPEN, none)
  | .scalar (.string s) =>
    if s.isEmpty then some (.OPEN, none)
    else do
      let decodedPassword ← (decode64 (toBytes s)).toOption
      let password ← d.decryptPassword decodedPassword
      return (.WPA2_MIXED_PSK, some password)
  | .hash entries => if entries.isEmpty then some (.OPEN, none) else none
  | .array items => if items.isEmpty then some (.OPEN, none) else none
  | _ => none

/-- The connection, once the country code is set. -/
def Device.connect (d : Device) (wifi ssid encodedPassword countryCode : Value) : Option Settings := do
  let (auth, password) ← d.credentials encodedPassword
  let autoConnect ← index wifi "auto_connect".toList
  let retryIfFailed ← index wifi "retry_if_failed".toList
  let watchdog ← index wifi "watchdog".toList
  return ⟨countryCode, ssid, auth, password, autoConnect, retryIfFailed, watchdog⟩

def Device.loadConfig (d : Device) (checkAutoConnect : Bool) (config : Value) : Outcome :=
  match index config "wifi".toList with
  | none => .invalid
  | some wifi =>
    match index wifi "ssid".toList, index wifi "encoded_password".toList with
    | some ssid, some encodedPassword =>
      match index config "country_code".toList with
      | none => .raised
      | some countryCode =>
        if truthy countryCode then
          if checkAutoConnect && !(index wifi "auto_connect".toList).any truthy then .disabled
          else ((d.connect wifi ssid encodedPassword countryCode).map Outcome.connecting).getD .raised
        else .noCountryCode
    | _, _ => .invalid

/-- `wifi_connect`, up to the radio. -/
def Device.wifiConnect (d : Device) (checkAutoConnect : Bool) (file : Text) : Outcome :=
  match load file with
  | none => .raised
  | some config => d.loadConfig checkAutoConnect config

end PicoRuby.Wifi
