import PicoRuby.Json.Parser

/-!
# JSON texts as the parser reads them

A `Doc` is a text together with its structure, the white space between the tokens
included; `render` writes it out, and `value` is what `JSON::Parser` makes of it. The
grammar is the one the parser follows, which is wider than JSON: a member name opens with
any character, and a run of digits may be empty or start with a zero. `Doc.Conforms` narrows
it down, to RFC 8259 for one.
-/

namespace PicoRuby.Json

open Shared

set_option autoImplicit false

inductive Blank where
  | space | tab | newline | carriageReturn
deriving DecidableEq, Repr

def Blank.char : Blank → Char
  | space => ' '
  | tab => '\t'
  | newline => '\n'
  | carriageReturn => '\r'

/-- White space between two tokens. -/
abbrev Ws := List Blank

def Ws.render (ws : Ws) : Text := ws.map Blank.char

inductive Escape where
  | quote | backslash | slash | b | f | n | r | t | u
deriving DecidableEq, Repr

def Escape.letter : Escape → Char
  | quote => '"'
  | backslash => '\\'
  | slash => '/'
  | b => 'b'
  | f => 'f'
  | n => 'n'
  | r => 'r'
  | t => 't'
  | u => 'u'

def Escape.denote : Escape → Text
  | quote => ['"']
  | backslash => ['\\']
  | slash => ['/']
  | b => ['\x08']
  | f => ['\x0c']
  | n => ['\n']
  | r => ['\r']
  | t => ['\t']
  | u => []

/-- A character that stands for itself in a string literal. -/
def isPlain (c : Char) : Bool := c ≠ '"' && c ≠ '\\'

inductive StrItem where
  | char (c : Char) (h : isPlain c = true)
  | escape (e : Escape)
deriving DecidableEq

def StrItem.render : StrItem → Text
  | char c _ => [c]
  | escape e => ['\\', e.letter]

def StrItem.denote : StrItem → Text
  | char c _ => [c]
  | escape e => e.denote

/-- What stands between the quotes of a string literal. -/
abbrev StrLit := List StrItem

def StrLit.render (s : StrLit) : Text := s.flatMap StrItem.render

def StrLit.denote (s : StrLit) : Text := s.flatMap StrItem.denote

/-- A run of digits, which may be empty. -/
structure Digits where
  chars : Text
  digit : ∀ c ∈ chars, isDigit c = true

def Digits.ofText (chars : Text) (h : chars.all isDigit = true) : Digits :=
  ⟨chars, List.all_eq_true.mp h⟩

inductive Sign where
  | plus | minus
deriving DecidableEq, Repr

def Sign.char : Sign → Char
  | plus => '+'
  | minus => '-'

structure Exponent where
  upper : Bool
  sign : Option Sign
  digits : Digits

def Exponent.render (e : Exponent) : Text :=
  (if e.upper then 'E' else 'e') :: (e.sign.map Sign.char).toList ++ e.digits.chars

structure Number where
  negative : Bool
  integer : Digits
  fraction : Option Digits
  exponent : Option Exponent
  starts : negative = true ∨ integer.chars ≠ []

namespace Number

def sign (n : Number) : Text := if n.negative then ['-'] else []

def fractionText (n : Number) : Text :=
  match n.fraction with
  | some d => '.' :: d.chars
  | none => []

def exponentText (n : Number) : Text :=
  match n.exponent with
  | some e => e.render
  | none => []

def render (n : Number) : Text := n.sign ++ (n.integer.chars ++ (n.fractionText ++ n.exponentText))

def isFloat (n : Number) : Bool := n.fraction.isSome || n.exponent.isSome

def value {F : Type} [FloatArith F] (n : Number) : Value F :=
  if n.isFloat then .float (parseFloat n.render) else .int (parseInteger n.render)

end Number

/-- The character in front of a member name: `parse_string` steps over it unseen. -/
structure Opening where
  char : Char
  solid : isWhitespace char = false

/-- What stands around the key of a member, and the colon behind it. -/
structure Name where
  before : Ws
  key : StrLit
  afterKey : Ws
  afterColon : Ws

/-- The name behind its opening character. -/
def Name.body (n : Name) : Text :=
  n.key.render ++ '"' :: (n.afterKey.render ++ ':' :: n.afterColon.render)

mutual

inductive Doc where
  | null
  | bool (b : Bool)
  | number (n : Number)
  | string (s : StrLit)
  | emptyArray (inner : Ws)
  | array (es : Elems)
  | emptyObject (inner : Ws)
  | object (opening : Opening) (hopen : opening.char ≠ '}') (ms : Members)

/-- The elements of an array that is not empty, each with the white space around it. -/
inductive Elems where
  | last (before : Ws) (d : Doc) (after : Ws)
  | cons (before : Ws) (d : Doc) (after : Ws) (rest : Elems)

/-- The members of an object that is not empty; `opening` belongs to the next member. -/
inductive Members where
  | last (name : Name) (d : Doc) (after : Ws)
  | cons (name : Name) (d : Doc) (after : Ws) (opening : Opening) (rest : Members)

end

/-- The white space in front of the first element. -/
def Elems.before : Elems → Ws
  | last before _ _ => before
  | cons before _ _ _ => before

def Members.before : Members → Ws
  | last name _ _ => name.before
  | cons name _ _ _ _ => name.before

mutual

def Doc.render : Doc → Text
  | .null => "null".toList
  | .bool b => (if b then "true" else "false").toList
  | .number n => n.render
  | .string s => '"' :: (s.render ++ ['"'])
  | .emptyArray inner => '[' :: (inner.render ++ [']'])
  | .array es => '[' :: (es.before.render ++ (es.body ++ [']']))
  | .emptyObject inner => '{' :: (inner.render ++ ['}'])
  | .object opening _ ms =>
    '{' :: (ms.before.render ++ opening.char :: (ms.body ++ ['}']))

/-- The elements from the first character of the first one on. -/
def Elems.body : Elems → Text
  | .last _ d after => d.render ++ after.render
  | .cons _ d after rest => d.render ++ (after.render ++ ',' :: (rest.before.render ++ rest.body))

/-- The members from the key of the first one on, behind its opening character. -/
def Members.body : Members → Text
  | .last name d after => name.body ++ (d.render ++ after.render)
  | .cons name d after opening rest =>
    name.body ++ (d.render ++ (after.render ++
      ',' :: (rest.before.render ++ opening.char :: rest.body)))

end

section Values
variable {F : Type} [FloatArith F]

mutual

def Doc.value : Doc → Value F
  | .null => .null
  | .bool b => .bool b
  | .number n => n.value
  | .string s => .string s.denote
  | .emptyArray _ => .array []
  | .array es => .array es.values
  | .emptyObject _ => .object []
  | .object _ _ ms => .object (ms.addTo [])

def Elems.values : Elems → List (Value F)
  | .last _ d _ => [d.value]
  | .cons _ d _ rest => d.value :: rest.values

/-- The Hash `l` after the members have been stored one by one. -/
def Members.addTo : Members → List (Text × Value F) → List (Text × Value F)
  | .last name d _, l => hashSet l name.key.denote d.value
  | .cons name d _ _ rest, l => rest.addTo (hashSet l name.key.denote d.value)

end

end Values

/-! ## Where a text ends -/

/-- The character behind a number does not continue it. -/
def Number.Stops (n : Number) (rest : Text) : Prop :=
  ∀ c ∈ rest.head?, isDigit c = false ∧
    match n.exponent with
    | none => isExponentMark c = false ∧ (n.fraction = none → c ≠ '.')
    | some e => e.sign = none → e.digits.chars = [] → isSign c = false

/-- What follows the text does not belong to it. -/
def Doc.Stops : Doc → Text → Prop
  | .number n, rest => n.Stops rest
  | _, _ => True

/-! ## Narrower grammars -/

mutual

/-- Every number and every item of a string is of the given kind, and names are quoted. -/
def Doc.Conforms (number : Number → Prop) (item : StrItem → Prop) : Doc → Prop
  | .number n => number n
  | .string s => ∀ x ∈ s, item x
  | .array es => es.Conforms number item
  | .object opening _ ms => opening.char = '"' ∧ ms.Conforms number item
  | _ => True

def Elems.Conforms (number : Number → Prop) (item : StrItem → Prop) : Elems → Prop
  | .last _ d _ => d.Conforms number item
  | .cons _ d _ rest => d.Conforms number item ∧ rest.Conforms number item

def Members.Conforms (number : Number → Prop) (item : StrItem → Prop) : Members → Prop
  | .last name d _ => (∀ x ∈ name.key, item x) ∧ d.Conforms number item
  | .cons name d _ opening rest =>
    (∀ x ∈ name.key, item x) ∧ d.Conforms number item ∧ opening.char = '"' ∧
      rest.Conforms number item

end

/-- No leading zero, and no empty run of digits. -/
structure Number.Strict (n : Number) : Prop where
  integer : n.integer.chars = ['0'] ∨ ∃ c ∈ n.integer.chars.head?, c ≠ '0'
  fraction : ∀ d ∈ n.fraction, d.chars ≠ []
  exponent : ∀ e ∈ n.exponent, e.digits.chars ≠ []

/-- A control character has to be escaped; `\u` takes four digits that `StrItem` has not. -/
def StrItem.Strict : StrItem → Prop
  | char c _ => ' ' ≤ c
  | escape e => e ≠ .u

/-- The texts of RFC 8259 without `\u`. -/
def Doc.Strict (d : Doc) : Prop := d.Conforms Number.Strict StrItem.Strict

/-- A literal with neither a fraction nor an exponent. -/
structure Number.Integral (n : Number) : Prop where
  digits : n.integer.chars ≠ []
  integral : n.isFloat = false

/-- One of the eight two-character escapes, or a character that needs none. -/
def StrItem.Plain : StrItem → Prop
  | char _ _ => True
  | escape e => e ≠ .u

end PicoRuby.Json
