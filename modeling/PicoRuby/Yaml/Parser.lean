import Mathlib.Data.List.DropRight
import PicoRuby.Shared.Hash

/-!
# Values of yaml.rb

What `YAML.dump` writes, and what `YAML.parse_value` makes of a scalar. A Float is kept as the text that
`to_f` is given.
-/

namespace PicoRuby.Yaml

open Shared

set_option autoImplicit false

/-- The characters of a Ruby String. -/
abbrev Text := List Char

inductive Scalar where
  | string (s : Text)
  | integer (i : Int)
  | float (s : Text)
  | boolean (b : Bool)
  | null
deriving DecidableEq, Repr

/-- A Hash has its pairs in the order in which they were stored. -/
inductive Value where
  | scalar (s : Scalar)
  | hash (entries : List (Text × Value))
  | array (items : List Value)
deriving Repr

/-! ## Strings -/

def blanks : List Char := " \x0c\n\r\t\x0b".toList

def isBlank (c : Char) : Bool := blanks.contains c

def lstrip (s : Text) : Text := s.dropWhile isBlank

def rstrip (s : Text) : Text := s.rdropWhile fun c => isBlank c || c == '\x00'

def strip (s : Text) : Text := rstrip (lstrip s)

/-- `String#split` with a pattern of one character. -/
def split (s : Text) (c : Char) : List Text := (s.splitOn c).rdropWhile List.isEmpty

def downcase (s : Text) : Text := s.map Char.toLower

def isDigit (c : Char) : Bool := '0' ≤ c && c ≤ '9'

/-! ## Scalars -/

/-- `is_integer?`; a lone `-` is one. -/
def isInteger (s : Text) : Bool :=
  match strip s with
  | [] => false
  | '-' :: digits => digits.all isDigit
  | digits => digits.all isDigit

def isFloat (s : Text) : Bool :=
  match split (strip s) '.' with
  | [whole, fraction] => isInteger whole && isInteger fraction
  | _ => false

def isBoolean (s : Text) : Bool := downcase s == "true".toList || downcase s == "false".toList

def isNull (s : Text) : Bool := downcase s == "null".toList

/-- `String#to_i` of what is an integer. -/
def toI : Text → Int
  | '-' :: digits => -(Nat.ofDigitChars 10 digits 0 : Int)
  | digits => Nat.ofDigitChars 10 digits 0

def parseValue (s : Text) : Scalar :=
  if isInteger s then .integer (toI s)
  else if isFloat s then .float s
  else if isBoolean s then .boolean (downcase s == "true".toList)
  else if isNull s then .null
  else .string s

/-! ## Writing -/

/-- `Integer#to_s`. -/
def integerToS : Int → Text
  | .ofNat n => Nat.toDigits 10 n
  | .negSucc n => '-' :: Nat.toDigits 10 (n + 1)

/-- `to_s`. -/
def Scalar.toS : Scalar → Text
  | .string s => s
  | .integer i => integerToS i
  | .float s => s
  | .boolean true => "true".toList
  | .boolean false => "false".toList
  | .null => []

/-- What is written for a scalar in a Hash or an Array. -/
def Scalar.written : Scalar → Text
  | .null => "null".toList
  | s => s.toS

def spaces (indent : Nat) : Text := List.replicate indent ' '

mutual

def serialize : Value → Nat → Text
  | .scalar s, _ => s.toS
  | .hash entries, indent => serializeEntries entries indent
  | .array items, indent => serializeItems items indent

def serializeEntries : List (Text × Value) → Nat → Text
  | [], _ => []
  | (key, .scalar s) :: entries, indent =>
    spaces indent ++ key ++ ": ".toList ++ s.written ++ '\n' :: serializeEntries entries indent
  | (key, value) :: entries, indent =>
    spaces indent ++ key ++ ":\n".toList ++ serialize value (indent + 2) ++ serializeEntries entries indent

def serializeItems : List Value → Nat → Text
  | [], _ => []
  | .scalar s :: items, indent =>
    spaces indent ++ "- ".toList ++ s.written ++ '\n' :: serializeItems items indent
  | value :: items, indent =>
    spaces indent ++ "- \n".toList ++ serialize value (indent + 2) ++ serializeItems items indent

end

def dump (value : Value) : Text := serialize value 0

end PicoRuby.Yaml

/-!
# YAML.parse

Hashes and Arrays are objects; `stack` and `indent_stack` refer to those that are open. They grow and
shrink together, and are one list here, the last one first.
-/

namespace PicoRuby.Yaml

open Shared

set_option autoImplicit false

inductive Cell where
  | scalar (s : Scalar)
  | ref (i : Nat)
deriving DecidableEq, Repr

inductive Node where
  | hash (entries : List (Text × Cell))
  | array (items : List Cell)
deriving DecidableEq, Repr

structure Frame where
  object : Nat
  indent : Int
deriving DecidableEq, Repr

structure Parser where
  heap : List Node
  stack : List Frame
deriving DecidableEq, Repr

/-! ## Lines -/

def countLeadingSpaces (s : Text) : Nat := s.length - (lstrip s).length

/-- `string.split(':', 2)`, each part stripped. -/
def splitKeyValue (s : Text) : Text × Option Text :=
  match s.dropWhile (· != ':') with
  | [] => (strip s, none)
  | _ :: value => (strip (s.takeWhile (· != ':')), some (strip value))

/-- The second part of `string.split(' ', 2)`. -/
def parseListItem (s : Text) : Option Text :=
  match s.dropWhile (!isBlank ·) with
  | [] => none
  | rest => some (strip (lstrip rest))

/-! ## The stacks -/

/-- The loop that leaves what is not indented as much. -/
def dedent (indent : Int) : List Frame → List Frame
  | f :: g :: rest => if indent ≤ f.indent then dedent indent (g :: rest) else f :: g :: rest
  | stack => stack

namespace Parser

def start : Parser := ⟨[.hash []], [⟨0, -1⟩]⟩

/-- What has been opened for the item of a list becomes an Array, and takes the place of the last value if it is
in a Hash. -/
def toArray (s : Parser) : Option Parser :=
  match s.stack with
  | [] => none
  | top :: below =>
    match s.heap[top.object]? with
    | some (.array _) => some s
    | _ =>
      let newArray := s.heap.length
      let stack := { top with object := newArray } :: below
      match below with
      | [] => some ⟨s.heap ++ [.array []], stack⟩
      | parent :: _ =>
        match s.heap[parent.object]? with
        | some (.hash entries) =>
          entries.getLast?.map fun (lastKey, _) =>
            ⟨s.heap.set parent.object (.hash (hashSet entries lastKey (.ref newArray))) ++ [.array []], stack⟩
        | _ => some ⟨s.heap ++ [.array []], stack⟩

/-- `current_object << cell`, or `current_object[key] = cell`; an Array has no such key. -/
def place (heap : List Node) (object : Nat) (key : Option Text) (cell : Cell) : Option (List Node) :=
  match heap[object]?, key with
  | some (.array items), none => some (heap.set object (.array (items ++ [cell])))
  | some (.hash entries), some key => some (heap.set object (.hash (hashSet entries key cell)))
  | _, _ => none

/-- A value is put into the object that is open, or a Hash for what is below it. -/
def add (s : Parser) (key : Option Text) (value : Option Text) (indent : Int) : Option Parser :=
  match s.stack with
  | [] => none
  | top :: _ =>
    match value with
    | none | some [] =>
      (place (s.heap ++ [.hash []]) top.object key (.ref s.heap.length)).map fun heap =>
        ⟨heap, ⟨s.heap.length, indent⟩ :: s.stack⟩
    | some value =>
      (place s.heap top.object key (.scalar (parseValue value))).map fun heap => { s with heap }

/-- A line. -/
def step (s : Parser) (line : Text) : Option Parser :=
  let lineStrip := strip line
  match lineStrip with
  | [] | '#' :: _ => some s
  | c :: _ =>
    let indent : Int := countLeadingSpaces line
    let s := { s with stack := dedent indent s.stack }
    if c = '-' then do
      let s ← s.toArray
      s.add none (parseListItem lineStrip) indent
    else s.add (some (splitKeyValue lineStrip).1) (splitKeyValue lineStrip).2 indent

end Parser

/-- `YAML.parse`, with the objects that it has made; the first one is returned. -/
def parse (text : Text) : Option Parser := (split text '\n').foldlM Parser.step Parser.start

/-! ## What is returned -/

/-- The value of a cell, through so many objects. -/
def read (heap : List Node) : Nat → Cell → Value
  | _, .scalar s => .scalar s
  | 0, .ref _ => .scalar .null
  | depth + 1, .ref i =>
    match heap[i]? with
    | some (.hash entries) => .hash (entries.map fun (key, cell) => (key, read heap depth cell))
    | some (.array items) => .array (items.map (read heap depth))
    | none => .scalar .null

/-- `YAML.load`. -/
def load (text : Text) : Option Value := (parse text).map fun s => read s.heap s.heap.length (.ref 0)

end PicoRuby.Yaml
