import PicoRuby.Json.Value

/-!
# JSON::Parser

Each definition takes `@json` and `@index` and returns the new index with its result.
The recursive methods take fuel; `parseText` passes enough for every text.
-/

namespace PicoRuby.Json

open Shared

set_option autoImplicit false

/-! ## JSON::Common -/

/-- A character, or nothing for nil, in an interpolated message. -/
def interpolate (c : Option Char) : String := (c.map Char.toString).getD ""

def expect (json : Text) (char : Char) (i : Nat) : Except Failure Nat :=
  if json[i]? = some char then .ok (i + 1)
  else
    let got := interpolate json[i]?
    .error (.raised .jsonError s!"Expected '{char}' at index {i}, but got '{got}'")

def isWhitespace (c : Char) : Bool := c = ' ' || c = '\t' || c = '\n' || c = '\r'

def skipWhitespace (json : Text) (i : Nat) : Nat := skipWhile isWhitespace json i

def expectSequence (json : Text) : Text → Nat → Except Failure Nat
  | [], i => .ok i
  | char :: sequence, i =>
    match expect json char i with
    | .ok i => expectSequence json sequence i
    | .error e => .error e

/-! ## Strings -/

/-- The loop of `parse_string` over the text behind the opening quote: the raw
characters and how many they are. -/
def rawString : Text → Except Failure (Text × Nat)
  | [] => .error (.raised .parserError "Unterminated string")
  | '"' :: _ => .ok ([], 0)
  | ['\\'] => .error (.raised .parserError "Unterminated string")
  | '\\' :: c :: rest => (rawString rest).map fun (raw, n) => ('\\' :: c :: raw, n + 2)
  | c :: rest => (rawString rest).map fun (raw, n) => (c :: raw, n + 1)

/-- The character an escape stands for; `\u` stands for nothing. -/
def unescape : Char → Except Failure Text
  | '"' => .ok ['"']
  | '\\' => .ok ['\\']
  | '/' => .ok ['/']
  | 'b' => .ok ['\x08']
  | 'f' => .ok ['\x0c']
  | 'n' => .ok ['\n']
  | 'r' => .ok ['\r']
  | 't' => .ok ['\t']
  | 'u' => .ok []
  | c => .error (.raised .parserError s!"Unknown escape sequence: \\{c}")

def replaceEscapeSequence : Text → Except Failure Text
  | [] => .ok []
  | ['\\'] => .error (.raised .parserError "Unterminated escape sequence")
  | '\\' :: c :: rest =>
    match unescape c with
    | .ok s => (replaceEscapeSequence rest).map (s ++ ·)
    | .error e => .error e
  | c :: rest => (replaceEscapeSequence rest).map (c :: ·)

/-- Skips the character at `i`, whatever it is, as the opening quote. -/
def parseString (json : Text) (i : Nat) : Except Failure (Text × Nat) :=
  match rawString (json.drop (i + 1)) with
  | .ok (raw, n) => (replaceEscapeSequence raw).map (·, i + 1 + n + 1)
  | .error e => .error e

/-! ## Numbers -/

def isDigit (c : Char) : Bool := '0' ≤ c && c ≤ '9'

/-- `char.ord - '0'.ord`. -/
def digitValue (c : Char) : Nat := c.toNat - '0'.toNat

/-- `parse_integer` on the characters between `start` and `end_index`. -/
def parseInteger (chars : Text) : Int :=
  let negative := chars.head? = some '-'
  let digits := if negative then chars.tail else chars
  let result := digits.foldl (fun result c => result * 10 + (digitValue c : Int)) 0
  if negative then -result else result

section Float
variable {F : Type} [FloatArith F]

/-- The local variables of `parse_float`. -/
structure FloatScan (F : Type) where
  result : F
  decimalDivider : F
  exponent : Nat
  exponentNegative : Bool
  parsingExponent : Bool

def floatStep (s : FloatScan F) (c : Char) : FloatScan F :=
  if isDigit c then
    if s.parsingExponent then { s with exponent := s.exponent * 10 + digitValue c }
    else if FloatArith.isOne s.decimalDivider then
      { s with
        result := FloatArith.add (FloatArith.mul s.result (FloatArith.ofNat 10))
          (FloatArith.ofNat (digitValue c)) }
    else
      let divider := FloatArith.mul s.decimalDivider (FloatArith.ofNat 10)
      { s with
        decimalDivider := divider
        result := FloatArith.add s.result
          (FloatArith.div (FloatArith.ofNat (digitValue c)) divider) }
  else if c = 'e' || c = 'E' then { s with parsingExponent := true }
  else if c = '-' then
    { s with exponentNegative := s.exponentNegative || s.parsingExponent }
  else s

/-- `parse_float` on the characters between `start` and `end_index`. -/
def parseFloat (chars : Text) : F :=
  let negative := chars.head? = some '-'
  let digits := if negative then chars.tail else chars
  let s := digits.foldl floatStep ⟨FloatArith.ofNat 0, FloatArith.ofNat 1, 0, false, false⟩
  let exponent : Int := if s.exponentNegative then -s.exponent else s.exponent
  let result := FloatArith.mul s.result (FloatArith.tenPow exponent)
  if negative then FloatArith.neg result else result

def digitsEnd (json : Text) (i : Nat) : Nat := skipWhile isDigit json i

/-- The fractional part: whether there is one, and the index behind it. -/
def fractionEnd (json : Text) (i : Nat) : Bool × Nat :=
  if json[i]? = some '.' then (true, digitsEnd json (i + 1)) else (false, i)

def isExponentMark (c : Char) : Bool := c = 'e' || c = 'E'

def isSign (c : Char) : Bool := c = '+' || c = '-'

def exponentEnd (json : Text) (i : Nat) : Bool × Nat :=
  if json[i]?.any isExponentMark then
    let i := i + 1
    let i := if json[i]?.any isSign then i + 1 else i
    (true, digitsEnd json i)
  else (false, i)

def parseNumber (json : Text) (start : Nat) : Value F × Nat :=
  let i := if json[start]? = some '-' then start + 1 else start
  let i := digitsEnd json i
  let (fraction, i) := fractionEnd json i
  let (exponent, i) := exponentEnd json i
  if fraction || exponent then (.float (parseFloat (slice json start i)), i)
  else (.int (parseInteger (slice json start i)), i)

end Float

/-! ## Values -/

section Parse
variable {F : Type} [FloatArith F]

mutual

def parse : Nat → Text → Nat → Except Failure (Value F × Nat)
  | 0, _, _ => .error .outOfFuel
  | fuel + 1, json, i =>
    match json[i]? with
    | some '{' => parseObject fuel json i
    | some '[' => parseArray fuel json i
    | some '"' => (parseString json i).map fun (s, i) => (.string s, i)
    | some 't' => (expectSequence json "true".toList i).map (.bool true, ·)
    | some 'f' => (expectSequence json "false".toList i).map (.bool false, ·)
    | some 'n' => (expectSequence json "null".toList i).map (.null, ·)
    | some c =>
      if c = '-' || isDigit c then .ok (parseNumber json i)
      else .error (.raised .parserError s!"Unexpected character at index {i}")
    | none => .error (.raised .parserError s!"Unexpected character at index {i}")
termination_by structural fuel => fuel

def parseObject : Nat → Text → Nat → Except Failure (Value F × Nat)
  | 0, _, _ => .error .outOfFuel
  | fuel + 1, json, i =>
    let i := skipWhitespace json (i + 1)
    if json[i]? = some '}' then .ok (.object [], i + 1)
    else (objectLoop fuel json i []).map fun (result, i) => (.object result, i + 1)
termination_by structural fuel => fuel

def objectLoop : Nat → Text → Nat → List (Text × Value F) →
    Except Failure (List (Text × Value F) × Nat)
  | 0, _, _, _ => .error .outOfFuel
  | fuel + 1, json, i, result => do
    let (key, i) ← parseString json i
    let i ← expect json ':' (skipWhitespace json i)
    let (value, i) ← parse fuel json (skipWhitespace json i)
    let result := hashSet result key value
    let i := skipWhitespace json i
    if json[i]? = some '}' then .ok (result, i)
    else
      let i ← expect json ',' i
      objectLoop fuel json (skipWhitespace json i) result
termination_by structural fuel => fuel

def parseArray : Nat → Text → Nat → Except Failure (Value F × Nat)
  | 0, _, _ => .error .outOfFuel
  | fuel + 1, json, i =>
    let i := skipWhitespace json (i + 1)
    if json[i]? = some ']' then .ok (.array [], i + 1)
    else (arrayLoop fuel json i []).map fun (result, i) => (.array result, i + 1)
termination_by structural fuel => fuel

def arrayLoop : Nat → Text → Nat → List (Value F) → Except Failure (List (Value F) × Nat)
  | 0, _, _, _ => .error .outOfFuel
  | fuel + 1, json, i, result => do
    let (value, i) ← parse fuel json i
    let result := result ++ [value]
    let i := skipWhitespace json i
    if json[i]? = some ']' then .ok (result, i)
    else
      let i ← expect json ',' i
      arrayLoop fuel json (skipWhitespace json i) result
termination_by structural fuel => fuel

end

/-- `JSON.parse`. -/
def parseText (json : Text) : Except Failure (Value F) :=
  (parse (3 * json.length + 3) json 0).map Prod.fst

end Parse

end PicoRuby.Json
