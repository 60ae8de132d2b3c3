import PicoRuby.Jwt.Decoder
import PicoRuby.Shared.Results
import Mathlib.Tactic.NormNum

/-!
# What an accepted token proves

`Authentic` is what a token has to show apart from its expiry: two segments that are the JSON of
the header and of the payload, an algorithm that is the one asked for, and a signature over exactly
these two segments. `decode` returns when the token is authentic and its `exp` passes the
guard, which an `exp` that is no Integer always does.
-/

namespace PicoRuby.Jwt

open Shared Json Codec

set_option autoImplicit false

variable {F K : Type}

/-! ## Segments -/

theorem split_getD (token : Bytes) (i : Nat) :
    ((split token)[i]?).getD [] = ((token.splitOn dot)[i]?).getD [] :=
  fields_getD dot token i

theorem exists_segments {token : Bytes} (h : ((split token)[1]?).getD [] ≠ []) :
    ∃ s₀ s₁ rest, token.splitOn dot = s₀ :: s₁ :: rest := by
  rw [split_getD] at h
  match token.splitOn dot, h with
  | s₀ :: s₁ :: rest, _ => exact ⟨s₀, s₁, rest, rfl⟩

theorem parseSegment_nil [FloatArith F] :
    ∃ e, (parseSegment [] : Except Failure (Value F)) = .error e :=
  ⟨_, rfl⟩

theorem parseSegment_ne_nil [FloatArith F] {segment : Bytes} {v : Value F}
    (h : parseSegment segment = .ok v) : segment ≠ [] := by
  intro hnil
  rw [hnil] at h
  obtain ⟨e, he⟩ := parseSegment_nil (F := F)
  rw [he] at h
  cases h

/-! ## Names of algorithms -/

/-- A character that no name of a signing algorithm starts with. -/
def opensNoName (c : Char) : Bool := c.toLower ≠ 'h' && c.toLower ≠ 'r'

theorem digit_mem {c : Char} (h : c.isDigit = true) : c ∈ "-0123456789IN".toList := by
  have hrange : 48 ≤ c.toNat ∧ c.toNat ≤ 57 := by
    simpa [Char.isDigit, UInt32.le_iff_toNat_le] using h
  have hall : ∀ n < 10, Char.ofNat (48 + n) ∈ "-0123456789IN".toList := by decide
  have hc : Char.ofNat (48 + (c.toNat - 48)) = c := by
    rw [Nat.add_sub_cancel' hrange.1, Char.ofNat_toNat]
  exact hc ▸ hall (c.toNat - 48) (by omega)

theorem opensNoName_of_mem {c : Char} (h : c ∈ "-0123456789IN".toList) : opensNoName c = true := by
  have hall : "-0123456789IN".toList.all opensNoName = true := by decide
  exact List.all_eq_true.mp hall _ h

theorem integerToS_opensNoName {i : Int} {c : Char} (h : (integerToS i).head? = some c) :
    opensNoName c = true := by
  unfold integerToS at h
  split at h
  · cases h
    rfl
  · exact opensNoName_of_mem (digit_mem (Nat.isDigit_of_mem_toDigits (by decide) (by decide)
      (List.mem_of_head? h)))

/-- `to_s` of a value that is no String names no signing algorithm. -/
theorem toS_opensNoName [CoreText F] {v : Value F} (hv : ∀ s, v ≠ .string s) {c : Char}
    (h : (toS v).head? = some c) : opensNoName c = true := by
  cases v with
  | null => cases h
  | bool b => cases b <;> (cases h; rfl)
  | int i => exact integerToS_opensNoName h
  | float x =>
    have hmem := CoreText.float_head x
    rw [show toS (.float x) = FloatText.toS x from rfl] at h
    rw [h, List.mem_map] at hmem
    obtain ⟨_, hc, heq⟩ := hmem
    cases heq
    exact opensNoName_of_mem hc
  | string s => exact absurd rfl (hv s)
  | array l =>
    rw [show toS (.array l) = CoreText.inspect (.array l) from rfl, CoreText.array_head] at h
    cases h
    rfl
  | object l =>
    rw [show toS (.object l) = CoreText.inspect (.object l) from rfl, CoreText.object_head] at h
    cases h
    rfl

/-- A value that reads as the name of a signing algorithm is a String. -/
theorem eq_string_of_toS [CoreText F] {v : Value F} {name : Text} (h : downcase (toS v) = name)
    (hname : name = "hs256".toList ∨ name = "rs256".toList) : v = .string (toS v) := by
  by_cases hv : ∃ s, v = .string s
  · obtain ⟨s, rfl⟩ := hv
    rfl
  · exfalso
    have hne : ∀ s, v ≠ .string s := fun s hs => hv ⟨s, hs⟩
    have hhead : ∃ c, (toS v).head? = some c ∧ (c.toLower = 'h' ∨ c.toLower = 'r') := by
      unfold downcase at h
      rcases hname with rfl | rfl
      · obtain ⟨c, t, heq, hc, _⟩ := List.map_eq_cons_iff.mp h
        exact ⟨c, by rw [heq]; rfl, Or.inl hc⟩
      · obtain ⟨c, t, heq, hc, _⟩ := List.map_eq_cons_iff.mp h
        exact ⟨c, by rw [heq]; rfl, Or.inr hc⟩
    obtain ⟨c, hc, hlower⟩ := hhead
    have hno := toS_opensNoName hne hc
    rw [opensNoName, Bool.and_eq_true, decide_eq_true_iff, decide_eq_true_iff] at hno
    rcases hlower with hl | hl
    · exact hno.1 hl
    · exact hno.2 hl

/-! ## Signatures -/

/-- The segment is a signature of the data under the key, by the algorithm of the name. -/
inductive Signs (m : MbedTls K) : Key K → Text → Bytes → Bytes → Prop where
  | hs256 (secret data : Bytes) :
    Signs m (.string secret) "hs256".toList (urlsafeEncode64 (m.hmacSha256 secret data)) data
  | rs256 {k : K} {segment signature data : Bytes} (hdecode : base64UrlDecode segment = .ok signature)
    (hverify : m.rsaVerify k signature data = true) : Signs m (.rsa k) "rs256".toList segment data

/-- The two names, each with its kind of key. -/
theorem Signs.name {m : MbedTls K} {key : Key K} {name : Text} {segment data : Bytes}
    (h : Signs m key name segment data) :
    (name = "hs256".toList ∧ ∃ secret, key = .string secret) ∨
      (name = "rs256".toList ∧ ∃ k, key = .rsa k) := by
  cases h with
  | hs256 secret => exact Or.inl ⟨rfl, secret, rfl⟩
  | rs256 => exact Or.inr ⟨rfl, _, rfl⟩

/-- `MbedTLS::HMAC.new` takes the key: on mruby it reads it as the name of the algorithm. -/
def Usable (vm : Vm) (key : Key K) : Prop :=
  vm = .mruby → ∀ secret, key = .string secret → secret = ascii "sha256"

theorem hmacNew_eq_ok_iff {vm : Vm} {secret k : Bytes} :
    hmacNew vm secret (ascii "sha256") = .ok k ↔
      k = secret ∧ (vm = .mruby → secret = ascii "sha256") := by
  cases vm with
  | mruby =>
    by_cases hs : secret = ascii "sha256"
    · subst hs
      exact ⟨fun h => ⟨(Except.ok.inj h).symm, fun _ => rfl⟩, fun h => by rw [h.1]; rfl⟩
    · rw [hmacNew]
      constructor
      · intro h
        split at h
        · cases h
        · cases h
      · intro h
        exact absurd (h.2 rfl) hs
  | mrubyc => exact ⟨fun h => ⟨(Except.ok.inj h).symm, nofun⟩, fun h => h.1 ▸ rfl⟩

section Verify
variable {vm : Vm} {m : MbedTls K} {d : Decoder F K}

theorem verifyHmac_eq_ok_iff : d.verifyHmac vm m = .ok () ↔
    Usable vm d.key ∧ Signs m d.key "hs256".toList (d.signatureB64.getD []) d.data := by
  have hne : ∀ secret, urlsafeEncode64 (m.hmacSha256 secret d.data) ≠ [] := fun secret =>
    urlsafeEncode64_ne_nil fun hnil => by simpa [hnil] using m.hmac_length secret d.data
  unfold Decoder.verifyHmac
  constructor
  · intro h
    split at h
    · rename_i secret hkey
      obtain ⟨k, hnew, hcompare⟩ := bind_eq_ok.mp h
      obtain ⟨rfl, husable⟩ := hmacNew_eq_ok_iff.mp hnew
      split at hcompare
      · cases hcompare
      · rename_i hsig
        rw [hkey]
        refine ⟨fun hvm s hs => by cases hs; exact husable hvm, ?_⟩
        rw [not_not.mp hsig]
        exact .hs256 k d.data
    · cases h
  · rintro ⟨husable, hsigns⟩
    generalize hkey : d.key = key at husable hsigns
    generalize hsig : d.signatureB64.getD [] = segment at hsigns
    generalize hname : "hs256".toList = name at hsigns
    cases hsigns with
    | hs256 secret =>
      have hsome : d.signatureB64 = some (urlsafeEncode64 (m.hmacSha256 secret d.data)) := by
        cases hopt : d.signatureB64 with
        | none => exact absurd (by rw [← hsig, hopt]; rfl) (hne secret)
        | some s => rw [hopt] at hsig; exact congrArg some hsig
      refine bind_eq_ok.mpr ⟨secret, hmacNew_eq_ok_iff.mpr ⟨rfl, fun hvm => husable hvm _ rfl⟩, ?_⟩
      rw [if_neg (not_not.mpr hsome)]
    | rs256 => cases hname

theorem verifyRsa_eq_ok_iff : d.verifyRsa m = .ok () ↔
    Signs m d.key "rs256".toList (d.signatureB64.getD []) d.data := by
  unfold Decoder.verifyRsa
  constructor
  · intro h
    split at h
    · rename_i k hkey
      split at h
      · cases h
      · rename_i signature hdecode
        split at h
        · rename_i hverify
          rw [hkey]
          exact .rs256 hdecode hverify
        · cases h
    · cases h
  · intro hsigns
    generalize hkey : d.key = key at hsigns
    generalize d.signatureB64.getD [] = segment at hsigns
    generalize hname : "rs256".toList = name at hsigns
    cases hsigns with
    | hs256 => cases hname
    | rs256 hdecode hverify =>
      dsimp only
      rw [hdecode]
      exact if_pos hverify

end Verify

/-! ## JWT.decode -/

/-- What a token proves apart from its expiry. -/
def Authentic [FloatArith F] (m : MbedTls K) (token : Bytes) (key : Key K) (algorithm : Text)
    (payload header : Value F) : Prop :=
  ∃ s₀ s₁ rest alg, token.splitOn dot = s₀ :: s₁ :: rest ∧
    parseSegment s₀ = .ok header ∧ parseSegment s₁ = .ok payload ∧
    aref "alg".toList header = .ok (.string alg) ∧ downcase alg = downcase algorithm ∧
    Signs m key (downcase alg) (rest.headD []) (s₀ ++ dot :: s₁)

theorem isEmpty_of_aref {payload e : Value F} (h : aref "exp".toList payload = .ok e)
    (he : e ≠ .null) : isEmpty payload = .ok false := by
  cases payload with
  | object l =>
    cases l with
    | nil => exact absurd (Except.ok.inj h).symm he
    | cons => rfl
  | string s =>
    cases s with
    | nil => exact absurd (Except.ok.inj h).symm he
    | cons => rfl
  | array => cases h
  | null => cases h
  | bool => cases h
  | int => cases h
  | float => cases h

section Decode
variable [CoreText F] {vm : Vm} {m : MbedTls K} {token : Bytes} {key : Key K}
  {algorithm : Text} {now : Int}

/-- The only branches that return are the two that verify. -/
theorem verify_eq_ok_iff {d : Decoder F K} {v e : Value F} (hv : aref "alg".toList d.header = .ok v)
    (he : aref "exp".toList d.payload = .ok e) (hnull : e ≠ .null) :
    d.verify vm m = .ok () ↔ Usable vm d.key ∧
      ∃ alg, v = .string alg ∧ Signs m d.key (downcase alg) (d.signatureB64.getD []) d.data := by
  unfold Decoder.verify
  rw [hv]
  change (if downcase (toS v) = "none".toList then _ else _) = _ ↔ _
  constructor
  · intro h
    split at h
    · rw [isEmpty_of_aref he hnull] at h
      cases h
    · split at h
      · rename_i hname
        obtain ⟨husable, hsigns⟩ := verifyHmac_eq_ok_iff.mp h
        exact ⟨husable, toS v, eq_string_of_toS hname (Or.inl rfl), hname ▸ hsigns⟩
      · split at h
        · rename_i hname
          have hsigns := verifyRsa_eq_ok_iff.mp h
          refine ⟨?_, toS v, eq_string_of_toS hname (Or.inr rfl), hname ▸ hsigns⟩
          intro hvm secret hkey
          rcases hsigns.name with ⟨hne, _⟩ | ⟨_, k, hrsa⟩
          · exact absurd hne (by decide)
          · rw [hrsa] at hkey
            cases hkey
        · cases h
  · rintro ⟨husable, alg, rfl, hsigns⟩
    have hts : toS (.string alg : Value F) = alg := rfl
    rw [hts]
    rcases hsigns.name with ⟨hname, _⟩ | ⟨hname, _⟩
    · rw [hname] at hsigns ⊢
      rw [if_neg (by decide), if_pos rfl]
      exact verifyHmac_eq_ok_iff.mpr ⟨husable, hsigns⟩
    · rw [hname] at hsigns ⊢
      rw [if_neg (by decide), if_neg (by decide), if_pos rfl]
      exact verifyRsa_eq_ok_iff.mpr hsigns

variable [FloatArith F]

theorem initialize_eq_ok_iff {d : Decoder F K} :
    Decoder.initialize token key algorithm = .ok d ↔
      ∃ v e, parseSegment (((split token)[0]?).getD []) = .ok d.header ∧
        aref "alg".toList d.header = .ok v ∧ downcase (toS v) = algorithm ∧
        parseSegment (((split token)[1]?).getD []) = .ok d.payload ∧
        aref "exp".toList d.payload = .ok e ∧ e ≠ .null ∧ d.signatureB64 = (split token)[2]? ∧
        d.data = ((split token)[0]?).getD [] ++ dot :: ((split token)[1]?).getD [] ∧ d.key = key := by
  unfold Decoder.initialize
  constructor
  · intro h
    obtain ⟨header, hheader, h₁⟩ := bind_eq_ok.mp h
    obtain ⟨v, hv, h₂⟩ := bind_eq_ok.mp h₁
    split at h₂
    · cases h₂
    · rename_i halg
      obtain ⟨payload, hpayload, h₃⟩ := bind_eq_ok.mp h₂
      obtain ⟨e, he, h₄⟩ := bind_eq_ok.mp h₃
      split at h₄
      · cases h₄
      · rename_i hnull
        cases h₄
        exact ⟨v, e, hheader, hv, not_not.mp halg, hpayload, he, fun heq => hnull heq, rfl, rfl, rfl⟩
  · rintro ⟨v, e, hheader, hv, halg, hpayload, he, hnull, hsig, hdata, hkey⟩
    refine bind_eq_ok.mpr ⟨d.header, hheader, bind_eq_ok.mpr ⟨v, hv, ?_⟩⟩
    rw [if_neg (not_not.mpr halg)]
    refine bind_eq_ok.mpr ⟨d.payload, hpayload, bind_eq_ok.mpr ⟨e, he, ?_⟩⟩
    rw [← hsig, ← hdata, ← hkey]
    cases e with
    | null => exact absurd rfl hnull
    | _ => rfl

/-- `decode` with the checks on returns for the authentic tokens that pass the guard. -/
theorem decode_eq_ok_iff {payload header : Value F} :
    decode vm m token key true algorithm false now = .ok (payload, header) ↔
      Authentic m token key algorithm payload header ∧ Usable vm key ∧
        ∃ e, aref "exp".toList payload = .ok e ∧ e ≠ .null ∧ expired now e = false := by
  unfold decode
  constructor
  · intro h
    obtain ⟨d, hd, h₁⟩ := bind_eq_ok.mp h
    obtain ⟨v, e, hheader, hv, halg, hpayload, he, hnull, hsig, hdata, hkey⟩ :=
      initialize_eq_ok_iff.mp hd
    rw [if_pos rfl] at h₁
    obtain ⟨e', he', h₂⟩ := bind_eq_ok.mp h₁
    rw [he, Except.ok.injEq] at he'
    subst he'
    split at h₂
    · cases h₂
    · rename_i hexp
      obtain ⟨⟨⟩, hverify, h₃⟩ := bind_eq_ok.mp h₂
      cases h₃
      obtain ⟨husable, alg, rfl, hsigns⟩ := (verify_eq_ok_iff hv he hnull).mp hverify
      obtain ⟨s₀, s₁, rest, hsegments⟩ := exists_segments (parseSegment_ne_nil hpayload)
      rw [split_getD, hsegments] at hheader hpayload
      rw [hdata, hkey, hsig, split_getD, split_getD, split_getD, hsegments] at hsigns
      rw [hkey] at husable
      refine ⟨⟨s₀, s₁, rest, alg, hsegments, hheader, hpayload, hv, halg, ?_⟩, husable, e, he,
        hnull, by simpa using hexp⟩
      rw [List.headD_eq_head?_getD, List.head?_eq_getElem?]
      exact hsigns
  · rintro ⟨⟨s₀, s₁, rest, alg, hsegments, hheader, hpayload, hv, halg, hsigns⟩, husable, e, he,
      hnull, hexp⟩
    have hget (i : Nat) : ((split token)[i]?).getD [] = ((s₀ :: s₁ :: rest)[i]?).getD [] := by
      rw [split_getD, hsegments]
    refine bind_eq_ok.mpr ⟨⟨header, payload, (split token)[2]?, s₀ ++ dot :: s₁, key⟩,
      initialize_eq_ok_iff.mpr ⟨.string alg, e, ?_, hv, halg, ?_, he, hnull, rfl, ?_, rfl⟩, ?_⟩
    · rw [hget]
      exact hheader
    · rw [hget]
      exact hpayload
    · rw [hget, hget]
      rfl
    · rw [if_pos rfl]
      refine bind_eq_ok.mpr ⟨e, he, ?_⟩
      rw [if_neg (by simp [hexp])]
      refine bind_eq_ok.mpr ⟨(), (verify_eq_ok_iff hv he hnull).mpr ⟨husable, alg, rfl, ?_⟩, rfl⟩
      rw [hget 2]
      rw [List.headD_eq_head?_getD, List.head?_eq_getElem?] at hsigns
      exact hsigns

/-! ## Expiry -/

/-- `exp` is a number that is not earlier than the clock. -/
def NotEarlier [LE F] (now : Int) : Value F → Prop
  | .int exp => now ≤ exp
  | .float exp => (if now < 0 then FloatArith.neg (FloatArith.ofNat now.natAbs)
      else FloatArith.ofNat now.natAbs : F) ≤ exp
  | _ => False

/-- The token is authentic and its payload carries an expiry that has not come. -/
def Verified [LE F] (m : MbedTls K) (token : Bytes) (key : Key K) (algorithm : Text) (now : Int)
    (payload header : Value F) : Prop :=
  Authentic m token key algorithm payload header ∧
    ∃ exp, aref "exp".toList payload = .ok exp ∧ NotEarlier now exp

/-- The guard on the expiry is not passed by an `exp` of another kind: where the token is
authentic, its `exp` is an Integer, or a Float that is not earlier than the clock. -/
def ExpTyped [LE F] (vm : Vm) (m : MbedTls K) (token : Bytes) (key : Key K) (algorithm : Text)
    (now : Int) : Prop :=
  ∀ payload header : Value F, Authentic m token key algorithm payload header → Usable vm key →
    ∀ exp, aref "exp".toList payload = .ok exp → exp ≠ .null →
      (∃ i, exp = .int i) ∨ ∃ x, exp = .float x ∧ NotEarlier now (.float x)

/-- `JWT.decode` with its default checks accepts nothing but verified tokens exactly when the guard
on the expiry sees the `exp` of the token. -/
theorem decode_sound_iff [LE F] (vm : Vm) (m : MbedTls K) (token : Bytes) (key : Key K)
    (algorithm : Text) (now : Int) :
    (∀ payload header : Value F,
      decode vm m token key true algorithm false now = .ok (payload, header) →
        Verified m token key algorithm now payload header) ↔
      ExpTyped (F := F) vm m token key algorithm now := by
  constructor
  · intro hsound payload header hauth husable exp hexp hnull
    by_cases hint : ∃ i, exp = .int i
    · exact Or.inl hint
    · have hguard : expired now exp = false := by
        cases exp with
        | int i => exact absurd ⟨i, rfl⟩ hint
        | _ => rfl
      obtain ⟨_, e, he, hclock⟩ := hsound payload header
        (decode_eq_ok_iff.mpr ⟨hauth, husable, exp, hexp, hnull, hguard⟩)
      rw [hexp, Except.ok.injEq] at he
      subst he
      cases exp with
      | float x => exact Or.inr ⟨x, rfl, hclock⟩
      | int i => exact absurd ⟨i, rfl⟩ hint
      | _ => exact hclock.elim
  · intro htyped payload header hdecode
    obtain ⟨hauth, husable, exp, hexp, hnull, hguard⟩ := decode_eq_ok_iff.mp hdecode
    refine ⟨hauth, exp, hexp, ?_⟩
    rcases htyped payload header hauth husable exp hexp hnull with ⟨i, rfl⟩ | ⟨x, rfl, hclock⟩
    · exact Int.not_lt.mp (of_decide_eq_false hguard)
    · exact hclock

end Decode

/-! ## A Float in the past -/

/-- Texts of exact numbers, to run the definitions. -/
instance : CoreText Rat where
  toS x := integerToS x.floor ++ ".0".toList
  inspect
    | .array _ => "[]".toList
    | _ => "{}".toList
  float_head x := by
    unfold integerToS
    split
    · exact List.mem_cons_self
    · cases hdigits : Nat.toDigits 10 x.floor.natAbs with
      | nil => exact absurd hdigits Nat.toDigits_ne_nil
      | cons c t =>
        have hc : c.isDigit = true :=
          Nat.isDigit_of_mem_toDigits (by decide) (by decide) (hdigits ▸ List.mem_cons_self)
        exact List.mem_map.mpr ⟨c, digit_mem hc, rfl⟩
  array_head _ := rfl
  object_head _ := rfl

def secret : Bytes := ascii "my$ecretK3"

/-- The segments `{"alg":"HS256"}` and `{"exp":1e9}`. -/
def headerSegment : Bytes := ascii "eyJhbGciOiJIUzI1NiJ9"

def payloadSegment : Bytes := ascii "eyJleHAiOjFlOX0"

/-- HMAC-SHA256 of the two segments under the secret. -/
def mac : Bytes :=
  [103, 36, 106, 123, 240, 180, 67, 151, 119, 47, 207, 29, 176, 110, 187, 181,
    114, 163, 62, 202, 7, 81, 168, 59, 163, 77, 205, 123, 54, 206, 223, 228]

def macSegment : Bytes := ascii "ZyRqe_C0Q5d3L88dsG67tXKjPsoHUag7o03NezbO3-Q"

/-- MbedTLS on this one message. -/
def oneMessage : MbedTls Unit where
  hmacSha256 key data :=
    if key = secret ∧ data = headerSegment ++ dot :: payloadSegment then mac else List.replicate 32 0
  hmac_length key data := by
    split
    · rfl
    · rfl
  rsaVerify _ _ _ := false

theorem parseSegment_of_texts [FloatArith F] {segment j : Bytes} {text : Text} {v : Value F}
    (hdecode : urlsafeDecode64 segment = .ok j)
    (htext : j.map (fun b => Char.ofNat b.toNat) = text) (hparse : parseText text = .ok v) :
    parseSegment segment = .ok v := by
  rw [parseSegment, hdecode]
  dsimp only
  rw [htext, hparse]

theorem pastToken_authentic [FloatArith F] : Authentic oneMessage
    (headerSegment ++ dot :: payloadSegment ++ dot :: macSegment) (.string secret) "HS256".toList
    (.object [("exp".toList, .float (parseFloat "1e9".toList))] : Value F)
    (.object [("alg".toList, .string "HS256".toList)]) := by
  refine ⟨headerSegment, payloadSegment, [macSegment], "HS256".toList, rfl, ?_, ?_, rfl, rfl, ?_⟩
  · exact parseSegment_of_texts (j := ascii "\x7b\"alg\":\"HS256\"\x7d") rfl rfl rfl
  · exact parseSegment_of_texts (j := ascii "\x7b\"exp\":1e9\x7d") rfl rfl rfl
  · exact .hs256 secret (headerSegment ++ dot :: payloadSegment)

/-- A token that expired in 2001 is accepted in 2023, because its `exp` is a Float. -/
theorem float_exp_accepted :
    ¬ ∀ payload header : Value Rat,
      decode .mrubyc oneMessage (headerSegment ++ dot :: payloadSegment ++ dot :: macSegment)
        (.string secret) true "HS256".toList false 1700000000 = .ok (payload, header) →
      Verified oneMessage (headerSegment ++ dot :: payloadSegment ++ dot :: macSegment)
        (.string secret) "HS256".toList 1700000000 payload header := by
  intro hsound
  obtain ⟨_, exp, hexp, hclock⟩ := hsound _ _
    (decode_eq_ok_iff.mpr ⟨pastToken_authentic, nofun, _, rfl, nofun, rfl⟩)
  cases hexp
  have hvalue : (parseFloat "1e9".toList : Rat) = 1000000000 := by
    simp [parseFloat, floatStep, isDigit, digitValue, FloatArith.ofNat, FloatArith.mul,
      FloatArith.add, FloatArith.tenPow, FloatArith.isOne]
    norm_num
  have hle : (1700000000 : Rat) ≤ parseFloat "1e9".toList := hclock
  rw [hvalue] at hle
  norm_num at hle

end PicoRuby.Jwt
