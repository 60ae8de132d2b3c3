import PicoRuby.Codec.Base64
import PicoRuby.Json.Value
import PicoRuby.Json.Parser
import PicoRuby.Shared.Paths
import Mathlib.Data.List.Infix

/-!
# JWT.decode

The token and the keys are byte strings; `JSON.parse` reads a byte as the character of its
code. The two virtual machines bind `MbedTLS::HMAC.new` differently.
-/

namespace PicoRuby.Jwt

open Shared Json Codec

set_option autoImplicit false

/-! ## Exceptions -/

/-- The classes of jwt.rb and of Ruby that its code raises. -/
inductive ErrorClass where
  | verificationError | decodeError | incorrectAlgorithm | expiredSignature
  | typeError | argumentError | noMethodError
deriving DecidableEq, Repr

inductive Failure where
  | raised (cls : ErrorClass) (message : String)
  | json (e : Json.Failure)
deriving DecidableEq, Repr

/-! ## Values -/

/-- `to_s` of a Float, and of an Array or a Hash, by the characters it starts with. -/
class CoreText (F : Type) extends FloatText F where
  inspect : Value F → Text
  float_head : ∀ x, (toS x).head? ∈ "-0123456789IN".toList.map some
  array_head : ∀ l, (inspect (.array l)).head? = some '['
  object_head : ∀ l, (inspect (.object l)).head? = some '{'

def downcase (s : Text) : Text := s.map Char.toLower

section Values
variable {F : Type}

def toS [CoreText F] : Value F → Text
  | .null => []
  | .bool b => (if b then "true" else "false").toList
  | .int i => integerToS i
  | .float x => FloatText.toS x
  | .string s => s
  | v => CoreText.inspect v

/-- `value[key]` with a String; `Value.null` is nil. -/
def aref (key : Text) : Value F → Except Failure (Value F)
  | .object l => .ok ((hashGet l key).getD .null)
  | .string s => .ok (if key <:+: s then .string key else .null)
  | .array _ => .error (.raised .typeError "String cannot be converted to Integer")
  | _ => .error (.raised .noMethodError "undefined method '[]'")

/-- `empty?`, which Integer, Float, nil and the Booleans do not have. -/
def isEmpty : Value F → Except Failure Bool
  | .object l => .ok l.isEmpty
  | .string s => .ok s.isEmpty
  | .array l => .ok l.isEmpty
  | _ => .error (.raised .noMethodError "undefined method 'empty?'")

end Values

/-! ## MbedTLS -/

inductive Vm where
  | mruby | mrubyc
deriving DecidableEq, Repr

/-- HMAC-SHA256 of a key and a message, and RSASSA-PKCS1-v1_5 verification of a signature
over the SHA-256 digest of a message. -/
structure MbedTls (K : Type) where
  hmacSha256 : Bytes → Bytes → Bytes
  hmac_length : ∀ key data, (hmacSha256 key data).length = 32
  rsaVerify : K → Bytes → Bytes → Bool

/-- The second argument of `JWT.decode`. -/
inductive Key (K : Type) where
  | nil
  | string (s : Bytes)
  | rsa (k : K)

/-- `MbedTLS::HMAC.new`: the key of the context. The mruby binding takes the name of the
algorithm first. -/
def hmacNew : Vm → Bytes → Bytes → Except Failure Bytes
  | .mruby, algorithm, key =>
    if 0 ∈ algorithm then .error (.raised .argumentError "string contains null byte")
    else if algorithm ≠ ascii "sha256" then
      .error (.raised .argumentError "unsupported hash algorithm")
    else .ok key
  | .mrubyc, key, algorithm =>
    if algorithm.takeWhile (· ≠ 0) ≠ ascii "sha256" then
      .error (.raised .argumentError "unsupported hash algorithm")
    else .ok key

/-! ## JWT::Decoder -/

/-- The byte `.`. -/
def dot : UInt8 := 0x2e

/-- `token.split(".")`: empty strings at the end are left out. -/
def split (token : Bytes) : List Bytes := fields dot token

/-- `JSON.parse(Base64.urlsafe_decode64(segment))`. -/
def parseSegment {F : Type} [FloatArith F] (segment : Bytes) : Except Failure (Value F) :=
  match urlsafeDecode64 segment with
  | .error message => .error (.raised .argumentError message)
  | .ok json =>
    match parseText (json.map fun b => Char.ofNat b.toNat) with
    | .error e => .error (.json e)
    | .ok v => .ok v

structure Decoder (F K : Type) where
  header : Value F
  payload : Value F
  signatureB64 : Option Bytes
  data : Bytes
  key : Key K

section Decode
variable {F K : Type}

/-- `JWT::Decoder#initialize`. -/
def Decoder.initialize [FloatArith F] [CoreText F] (token : Bytes) (key : Key K) (algorithm : Text) :
    Except Failure (Decoder F K) := do
  let headerB64 := ((split token)[0]?).getD []
  let payloadB64 := ((split token)[1]?).getD []
  let header ← parseSegment headerB64
  let alg ← aref "alg".toList header
  if downcase (toS alg) ≠ algorithm then
    .error (.raised .incorrectAlgorithm
      ("Expected a different algorithm. " ++
        s!"Expected: {String.ofList algorithm}, Got: {String.ofList (toS alg)}"))
  else
    let payload ← parseSegment payloadB64
    let exp ← aref "exp".toList payload
    match exp with
    | .null => .error (.raised .decodeError "Missing expiration time in header")
    | _ => .ok ⟨header, payload, (split token)[2]?, headerB64 ++ dot :: payloadB64, key⟩

/-- `JWT::Decoder#base64_url_decode`. -/
def base64UrlDecode (str : Bytes) : Except String Bytes :=
  urlsafeDecode64 (str ++ List.replicate ((4 - str.length % 4) % 4) pad)

/-- `JWT::Decoder#verify_hmac`. -/
def Decoder.verifyHmac (vm : Vm) (m : MbedTls K) (d : Decoder F K) : Except Failure Unit :=
  match d.key with
  | .string key => do
    let k ← hmacNew vm key (ascii "sha256")
    if d.signatureB64 ≠ some (urlsafeEncode64 (m.hmacSha256 k d.data)) then
      .error (.raised .verificationError "Signature verification failed")
    else .ok ()
  | _ => .error (.raised .typeError "HMAC secret must be a String")

/-- `JWT::Decoder#verify_rsa`. -/
def Decoder.verifyRsa (m : MbedTls K) (d : Decoder F K) : Except Failure Unit :=
  match d.key with
  | .rsa key =>
    match base64UrlDecode (d.signatureB64.getD []) with
    | .error message => .error (.raised .argumentError message)
    | .ok signature =>
      if m.rsaVerify key signature d.data then .ok ()
      else .error (.raised .verificationError "Signature verification failed")
  | _ => .error (.raised .typeError "RSA public key required")

/-! ## JWT.decode -/

/-- The guard on the expiry: only an Integer is compared with the clock. -/
def expired (now : Int) : Value F → Bool
  | .int exp => exp < now
  | _ => false

/-- The `case` of `JWT.decode` on the algorithm of the header. -/
def Decoder.verify [CoreText F] (vm : Vm) (m : MbedTls K) (d : Decoder F K) : Except Failure Unit := do
  let alg ← aref "alg".toList d.header
  if downcase (toS alg) = "none".toList then
    if ← isEmpty d.payload then .ok ()
    else .error (.raised .verificationError "Signature verification failed")
  else if downcase (toS alg) = "hs256".toList then d.verifyHmac vm m
  else if downcase (toS alg) = "rs256".toList then d.verifyRsa m
  else .error (.raised .decodeError s!"Algorithm: {String.ofList (toS alg)} not supported")

/-- `JWT.decode`; `now` is `Time.now.to_i`. -/
def decode [FloatArith F] [CoreText F] (vm : Vm) (m : MbedTls K) (token : Bytes) (key : Key K)
    (validate : Bool) (algorithm : Text) (ignoreExp : Bool) (now : Int) :
    Except Failure (Value F × Value F) := do
  let decoder ← Decoder.initialize token key (downcase algorithm)
  if validate then
    let exp ← aref "exp".toList decoder.payload
    if !ignoreExp && expired now exp then
      .error (.raised .expiredSignature "Signature has expired")
    else
      decoder.verify vm m
      .ok (decoder.payload, decoder.header)
  else .ok (decoder.payload, decoder.header)

end Decode

end PicoRuby.Jwt
