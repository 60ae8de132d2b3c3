import PicoRuby.Codec.RoundTrip
import PicoRuby.Json.RoundTrip
import PicoRuby.Jwt.Verification

/-!
# JWT.encode and JWT.decode

A token carries its payload as the JSON of a Hash, so a payload comes back when JSON gives it back and
`MbedTLS::HMAC.new` of the virtual machine takes the secret as the key.
-/

namespace PicoRuby.Jwt

open Shared Json Codec

set_option autoImplicit false

variable {F K : Type}

/-! ## JWT.encode -/

/-- MbedTLS with private keys; `rsaSign` signs the SHA-256 digest of a message. -/
structure Signer (K : Type) extends MbedTls K where
  rsaSign : K → Bytes → Except Failure Bytes

/-- An exception of a function that is called, and the RuntimeError of `encode` itself. -/
inductive EncodeFailure where
  | failed (e : Failure)
  | unsupported (message : String)
deriving DecidableEq, Repr

/-- The bytes of a text, whose characters stand for them. -/
def toBytes (t : Text) : Bytes := t.map fun c => c.toNat.toUInt8

/-- `Base64.urlsafe_encode64(JSON.generate(value))`. -/
def generateSegment [FloatText F] (v : Value F) : Except Failure Bytes :=
  match generate v with
  | .text t => .ok (urlsafeEncode64 (toBytes t))
  | .bool b => .error (.raised .typeError s!"{b} cannot be converted to String")

/-- `segments.join('.')`. -/
def joinSegments (segments : List Bytes) : Bytes := [dot].intercalate segments

/-- The headers with `alg` and `typ`. -/
def namedHeaders (headers : List (Text × Value F)) (algorithm : Text) : List (Text × Value F) :=
  hashSet (hashSet headers "alg".toList (.string algorithm)) "typ".toList (.string "JWT".toList)

/-- The `case` of `JWT.encode` on the algorithm. -/
def signature (vm : Vm) (m : Signer K) (secret : Key K) (algorithm : Text) (signingInput : Bytes) :
    Except EncodeFailure Bytes :=
  if downcase algorithm = "none".toList then .ok []
  else if downcase algorithm = "hs256".toList then
    match secret with
    | .string s =>
      ((hmacNew vm s (ascii "sha256")).map fun key => m.hmacSha256 key signingInput).mapError .failed
    | _ => .error (.failed (.raised .typeError "secret must be a string"))
  else if downcase algorithm = "rs256".toList then
    match secret with
    | .rsa key => (m.rsaSign key signingInput).mapError .failed
    | _ => .error (.failed (.raised .typeError "RSA private key required"))
  else .error (.unsupported s!"Algorithm: {String.ofList algorithm} not supported")

/-- `JWT.encode`; the keys of the headers are Strings. -/
def encode [FloatText F] (vm : Vm) (m : Signer K) (payload : Value F) (secret : Key K) (algorithm : Text)
    (headers : List (Text × Value F)) : Except EncodeFailure Bytes := do
  let header ← (generateSegment (.object (namedHeaders headers algorithm))).mapError .failed
  let body ← (generateSegment payload).mapError .failed
  let s ← signature vm m secret algorithm (joinSegments [header, body])
  .ok (joinSegments [header, body, urlsafeEncode64 s])

/-! ## Payloads -/

/-- The characters stand for bytes. -/
def IsBytes (s : Text) : Prop := ∀ c ∈ s, c.toNat < 256

theorem isBytes_of_all {s : Text} (h : s.all (·.toNat < 256) = true) : IsBytes s :=
  fun c hc => of_decide_eq_true (List.all_eq_true.mp h c hc)

/-- A Hash without a Float, with an Integer `exp`. -/
structure Payload (F : Type) where
  members : List (Text × Value F)
  exp : Int
  noFloat : (Value.object members).Every Value.noFloat
  distinctKeys : (Value.object members).Every Value.distinctKeys
  bytes : (Value.object members).Every (Value.strings IsBytes)
  hasExp : hashGet members "exp".toList = some (.int exp)

namespace Payload

def value (p : Payload F) : Value F := .object p.members

def datum (p : Payload F) : Datum F := ⟨p.value, p.noFloat, p.distinctKeys⟩

/-- `JWT.decode` of what `JWT.encode` returns is the payload again. -/
def RoundTrips [FloatArith F] [CoreText F] (vm : Vm) (m : Signer K) (p : Payload F) (secret : Bytes) (now : Int) :
    Prop :=
  ∃ token payload header, encode vm m p.value (.string secret) "HS256".toList [] = .ok token ∧
    decode vm m.toMbedTls token (.string secret) true "hs256".toList false now = .ok (payload, header) ∧
    p.value.Equal payload

end Payload

/-! ## Segments -/

/-- No segment has a dot. -/
theorem dot_not_mem (data : Bytes) : dot ∉ urlsafeEncode64 data := by
  have hall : dot ∉ base64chars.map toUrlsafe := by decide
  exact fun hmem => hall (urlsafeEncode64_mem data dot hmem)

theorem splitOn_joinSegments {segments : List Bytes} (hdot : ∀ s ∈ segments, dot ∉ s) (hne : segments ≠ []) :
    (joinSegments segments).splitOn dot = segments :=
  List.splitOn_intercalate dot hdot hne

theorem joinSegments_pair (s t : Bytes) : joinSegments [s, t] = s ++ dot :: t := by simp [joinSegments]

theorem chars_toBytes {t : Text} (h : IsBytes t) : (toBytes t).map (fun b => Char.ofNat b.toNat) = t := by
  rw [toBytes, List.map_map]
  refine (List.map_congr_left ?_).trans t.map_id
  intro c hc
  have hbyte : c.toNat.toUInt8.toNat = c.toNat := by
    rw [Nat.toUInt8_eq, UInt8.toNat_ofNat']
    exact Nat.mod_eq_of_lt (h c hc)
  rw [Function.comp, hbyte, Char.ofNat_toNat, id]

/-- A segment is read as its text is. -/
theorem parseSegment_eq_ok_iff [FloatArith F] {t : Text} {v : Value F} (h : IsBytes t) :
    parseSegment (urlsafeEncode64 (toBytes t)) = .ok v ↔ parseText t = .ok v := by
  rw [parseSegment, urlsafeDecode64_urlsafeEncode64]
  dsimp only
  rw [chars_toBytes h]
  cases hparse : (parseText t : Except Json.Failure (Value F)) with
  | error e =>
    constructor
    · intro hv
      cases hv
    · intro hv
      cases hv
  | ok w => exact ⟨fun h => congrArg Except.ok (Except.ok.inj h), fun h => congrArg Except.ok (Except.ok.inj h)⟩

theorem generateString_bytes {s : Text} (h : IsBytes s) : IsBytes (generateString s) := by
  have hquote : ('"').toNat < 256 := by decide
  refine List.forall_mem_cons.mpr ⟨hquote, List.forall_mem_append.mpr ⟨?_, List.forall_mem_singleton.mpr hquote⟩⟩
  refine List.forall_mem_map.mpr ?_
  intro c hc
  rw [trChar_eq]
  split
  · exact h c hc
  · exact hquote

theorem isDigit_toNat_lt {c : Char} (h : isDigit c = true) : c.toNat < 256 := by
  rw [isDigit, Bool.and_eq_true, decide_eq_true_iff, decide_eq_true_iff] at h
  have hle : c.toNat ≤ ('9').toNat := h.2
  have hnine : ('9').toNat = 57 := rfl
  omega

/-- The text of a value whose Strings are made of bytes is made of bytes. -/
theorem generate_bytes [FloatText F] {v : Value F} (hfloat : v.Every Value.noFloat)
    (h : v.Every (Value.strings IsBytes)) : IsBytes (generate v).toS := by
  have hmarks : WrittenMarks (·.toNat < 256) := by
    refine .of_bool (q := (·.toNat < 256)) (fun c hc => of_decide_eq_true hc) (by decide) ?_
    exact fun c hc => isDigit_toNat_lt hc
  apply generate_forall hmarks v hfloat
  refine Value.Every.imp₃ ?_ v h h h
  intro w hw _ _
  cases w with
  | string s => exact generateString_bytes hw
  | object l => exact fun kv hkv => generateString_bytes (hw kv hkv)
  | _ => trivial

/-! ## Tokens -/

/-- The segment of a Hash. -/
def objectSegment [FloatText F] (l : List (Text × Value F)) : Bytes :=
  urlsafeEncode64 (toBytes (generate (.object l)).toS)

theorem generateSegment_object [FloatText F] (l : List (Text × Value F)) :
    generateSegment (.object l) = .ok (objectSegment l) := by
  rw [generateSegment, objectSegment, generate]
  rfl

/-- The headers of a token that names nothing but the algorithm. -/
def hs256Headers : List (Text × Value F) :=
  [("alg".toList, .string "HS256".toList), ("typ".toList, .string "JWT".toList)]

section Token
variable [CoreText F] {vm : Vm} {m : Signer K} {secret token : Bytes} {now : Int} {l : List (Text × Value F)}

/-- The token of a payload. -/
def hs256Token (m : Signer K) (l : List (Text × Value F)) (secret : Bytes) : Bytes :=
  joinSegments [objectSegment (F := F) hs256Headers, objectSegment l,
    urlsafeEncode64 (m.hmacSha256 secret (joinSegments [objectSegment (F := F) hs256Headers, objectSegment l]))]

omit [CoreText F] in
theorem signature_eq_ok_iff {input s : Bytes} :
    signature vm m (.string secret) "HS256".toList input = .ok s ↔
      Usable vm (.string secret : Key K) ∧ s = m.hmacSha256 secret input := by
  have hnone : downcase "HS256".toList ≠ "none".toList := by decide
  have hname : downcase "HS256".toList = "hs256".toList := by decide
  rw [signature, if_neg hnone, if_pos hname, mapError_eq_ok, map_eq_ok]
  constructor
  · rintro ⟨key, hnew, rfl⟩
    obtain ⟨rfl, husable⟩ := hmacNew_eq_ok_iff.mp hnew
    exact ⟨fun hvm s hs => by cases hs; exact husable hvm, rfl⟩
  · rintro ⟨husable, rfl⟩
    exact ⟨secret, hmacNew_eq_ok_iff.mpr ⟨rfl, fun hvm => husable hvm secret rfl⟩, rfl⟩

theorem encode_eq_ok_iff : encode vm m (.object l) (.string secret) "HS256".toList [] = .ok token ↔
    Usable vm (.string secret : Key K) ∧ token = hs256Token m l secret := by
  unfold encode
  rw [generateSegment_object, generateSegment_object]
  constructor
  · intro h
    obtain ⟨header, hheader, h⟩ := bind_eq_ok.mp h
    obtain ⟨body, hbody, h⟩ := bind_eq_ok.mp h
    obtain ⟨s, hs, h⟩ := bind_eq_ok.mp h
    cases hheader
    cases hbody
    obtain ⟨husable, rfl⟩ := signature_eq_ok_iff.mp hs
    cases h
    exact ⟨husable, rfl⟩
  · rintro ⟨husable, rfl⟩
    exact bind_eq_ok.mpr ⟨_, rfl, bind_eq_ok.mpr ⟨_, rfl, bind_eq_ok.mpr
      ⟨_, signature_eq_ok_iff.mpr ⟨husable, rfl⟩, rfl⟩⟩⟩

/-- The dots of a token are those between its three segments. -/
theorem splitOn_hs256Token (m : Signer K) (l : List (Text × Value F)) (secret : Bytes) :
    (hs256Token m l secret).splitOn dot = [objectSegment (F := F) hs256Headers, objectSegment l,
      urlsafeEncode64 (m.hmacSha256 secret
        (joinSegments [objectSegment (F := F) hs256Headers, objectSegment l]))] := by
  apply splitOn_joinSegments ?_ (List.cons_ne_nil _ _)
  simp [objectSegment, dot_not_mem]

end Token

/-! ## The round trip -/

section RoundTrip
variable [FloatArith F] [CoreText F] {vm : Vm} {m : Signer K} {p : Payload F} {secret : Bytes} {now : Int}

theorem parseSegment_hs256Headers :
    parseSegment (objectSegment (F := F) hs256Headers) = .ok (.object hs256Headers : Value F) := by
  have hplain (s : String) (h : s.toList.all isPlain = true) : PlainText s.toList := List.all_eq_true.mp h
  have hkeys : ["alg".toList, "typ".toList].Nodup := by decide
  have hwritable : (Value.object (hs256Headers (F := F))).Every Value.Writable := by
    refine ⟨⟨trivial, ?_, hkeys⟩, ⟨trivial, hplain "HS256" (by decide), trivial⟩,
      ⟨trivial, hplain "JWT" (by decide), trivial⟩, trivial⟩
    exact List.forall_mem_cons.mpr ⟨hplain "alg" (by decide), List.forall_mem_singleton.mpr (hplain "typ" (by decide))⟩
  have hfloat : (Value.object (hs256Headers (F := F))).Every Value.noFloat := ⟨trivial, trivial, trivial, trivial⟩
  have hchars : (Value.object (hs256Headers (F := F))).Every (Value.strings IsBytes) := by
    refine ⟨?_, isBytes_of_all rfl, isBytes_of_all rfl, trivial⟩
    exact List.forall_mem_cons.mpr ⟨isBytes_of_all rfl, List.forall_mem_singleton.mpr (isBytes_of_all rfl)⟩
  exact (parseSegment_eq_ok_iff (generate_bytes hfloat hchars)).mpr (parseText_generate hwritable)

theorem Payload.parseSegment_iff {w : Value F} :
    parseSegment (objectSegment p.members) = .ok w ↔ parseText (generate p.value).toS = .ok w :=
  parseSegment_eq_ok_iff (generate_bytes p.noFloat p.bytes)

/-- What `decode` takes a token of `encode` for. -/
theorem Payload.authentic (h : p.value.Every Value.plainNode) :
    Authentic m.toMbedTls (hs256Token m p.members secret) (.string secret) "hs256".toList p.value
      (.object hs256Headers) := by
  have hname : downcase "HS256".toList = "hs256".toList := by decide
  refine ⟨_, _, _, "HS256".toList, splitOn_hs256Token m p.members secret, parseSegment_hs256Headers, ?_, rfl, ?_, ?_⟩
  · exact p.parseSegment_iff.mpr (parseText_generate (Datum.writable (v := p.datum) h))
  · decide
  · rw [hname, ← joinSegments_pair]
    exact .hs256 secret _

theorem Payload.RoundTrips.usable (h : p.RoundTrips vm m secret now) : Usable vm (.string secret : Key K) := by
  obtain ⟨token, _, _, hencode, -, -⟩ := h
  exact (encode_eq_ok_iff.mp hencode).1

theorem Payload.RoundTrips.plain (h : p.RoundTrips vm m secret now) : p.value.Every Value.plainNode := by
  obtain ⟨token, w, header, hencode, hdecode, hequal⟩ := h
  obtain ⟨-, rfl⟩ := encode_eq_ok_iff.mp hencode
  obtain ⟨⟨s₀, s₁, rest, alg, hsegments, -, hpayload, -, -, -⟩, -, -⟩ := decode_eq_ok_iff.mp hdecode
  rw [splitOn_hs256Token] at hsegments
  cases hsegments
  exact p.datum.plain_of_parse (p.parseSegment_iff.mp hpayload) hequal

/-- **The payload of a token comes back** exactly when JSON gives it back, which takes Strings and keys without a
quote and a backslash, and the secret is one that `MbedTLS::HMAC.new` takes. -/
theorem decode_encode_iff (vm : Vm) (m : Signer K) (p : Payload F) (secret : Bytes) (now : Int) (h : now ≤ p.exp) :
    p.RoundTrips vm m secret now ↔
      p.value.Every Value.plainNode ∧ Usable vm (.string secret : Key K) := by
  constructor
  · intro hround
    exact ⟨hround.plain, hround.usable⟩
  · rintro ⟨hplain, husable⟩
    refine ⟨hs256Token m p.members secret, p.value, .object hs256Headers, encode_eq_ok_iff.mpr ⟨husable, rfl⟩, ?_,
      Value.Equal.refl p.value p.distinctKeys⟩
    have hexp : aref "exp".toList p.value = .ok (.int p.exp) := by
      rw [Payload.value, aref, p.hasExp]
      rfl
    exact decode_eq_ok_iff.mpr ⟨p.authentic hplain, husable, .int p.exp, hexp, nofun, decide_eq_false (not_lt.mpr h)⟩

end RoundTrip

/-! ## Two payloads -/

/-- `{"exp" => 10, "n" => [nil, true]}`. -/
def listPayload : Payload Rat where
  members := [("exp".toList, .int 10), ("n".toList, .array [.null, .bool true])]
  exp := 10
  noFloat := ⟨trivial, trivial, ⟨trivial, trivial, trivial, trivial⟩, trivial⟩
  distinctKeys := by
    have hkeys : ["exp".toList, "n".toList].Nodup := by decide
    exact ⟨hkeys, trivial, ⟨trivial, trivial, trivial, trivial⟩, trivial⟩
  bytes := by
    refine ⟨?_, trivial, ⟨trivial, trivial, trivial, trivial⟩, trivial⟩
    exact List.forall_mem_cons.mpr ⟨isBytes_of_all rfl, List.forall_mem_singleton.mpr (isBytes_of_all rfl)⟩
  hasExp := rfl

/-- `{"exp" => 10, "q" => '"'}`. -/
def quotePayload : Payload Rat where
  members := [("exp".toList, .int 10), ("q".toList, .string ['"'])]
  exp := 10
  noFloat := ⟨trivial, trivial, trivial, trivial⟩
  distinctKeys := by
    have hkeys : ["exp".toList, "q".toList].Nodup := by decide
    exact ⟨hkeys, trivial, trivial, trivial⟩
  bytes := by
    refine ⟨?_, trivial, isBytes_of_all rfl, trivial⟩
    exact List.forall_mem_cons.mpr ⟨isBytes_of_all rfl, List.forall_mem_singleton.mpr (isBytes_of_all rfl)⟩
  hasExp := rfl

/-- MbedTLS on one message, without keys of RSA. -/
def oneSigner : Signer Unit where
  toMbedTls := oneMessage
  rsaSign _ _ := .error (.raised .verificationError "no key")

theorem decode_encode_list : listPayload.RoundTrips .mrubyc oneSigner secret 0 := by
  apply (decode_encode_iff .mrubyc oneSigner listPayload secret 0 (by decide)).mpr
  refine ⟨⟨?_, trivial, ⟨trivial, trivial, trivial, trivial⟩, trivial⟩, nofun⟩
  have hexp : PlainText "exp".toList := List.all_eq_true.mp (by decide)
  have hn : PlainText "n".toList := List.all_eq_true.mp (by decide)
  exact List.forall_mem_cons.mpr ⟨hexp, List.forall_mem_singleton.mpr hn⟩

/-- On mruby/c a payload with a quote does not come back, and on mruby no payload does under this secret. -/
theorem decode_encode_fails :
    ¬ quotePayload.RoundTrips .mrubyc oneSigner secret 0 ∧ ¬ listPayload.RoundTrips .mruby oneSigner secret 0 := by
  constructor
  · intro h
    have hplain : PlainText ['"'] := h.plain.2.2.1
    exact absurd (hplain '"' List.mem_cons_self) (by decide)
  · intro h
    exact absurd (h.usable rfl secret rfl) (by decide)

end PicoRuby.Jwt
