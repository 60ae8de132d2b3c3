import PicoRuby.Json.Parser
import Mathlib.Data.List.DropRight

/-!
# JSON::Digger

The scanner keeps `@index`, `@start_index` and a stack of the containers it is in;
`dig` cuts the text between the two indices out and starts over on it.
-/

namespace PicoRuby.Json

open Shared

set_option autoImplicit false

inductive Container where
  | array | object
deriving DecidableEq, Repr

/-- The instance variables of a Digger while it scans `@json`; the stack has its top first. -/
structure Scan where
  index : Nat
  startIndex : Nat
  stack : List Container
deriving DecidableEq, Repr

namespace Scan

def reset : Scan := ⟨0, 0, []⟩

def pushStack (s : Scan) (type : Container) : Scan := { s with stack := type :: s.stack }

def popStack (s : Scan) : Scan := { s with stack := s.stack.tail }

def goTo (s : Scan) (i : Nat) : Scan := { s with index := i }

def top (s : Scan) : Option Container := s.stack.head?

end Scan

/-- The length of a string literal in front of its closing quote. -/
def literalLength : Text → Option Nat
  | [] => none
  | '"' :: _ => some 0
  | ['\\'] => none
  | '\\' :: _ :: rest => (literalLength rest).map (· + 2)
  | _ :: rest => (literalLength rest).map (· + 1)

def digString (needReturn : Bool) (json : Text) (s : Scan) :
    Except Failure (Option Text × Scan) := do
  let stringStart ← expect json '"' (skipWhitespace json s.index)
  match literalLength (json.drop stringStart) with
  | some n =>
    let i := stringStart + n
    .ok (if needReturn then some (slice json stringStart i) else none, s.goTo (i + 1))
  | none => .error (.raised .diggerError "Unterminated string")

def isNumberPart (c : Char) : Bool := c = '-' || c = '.' || c = 'e' || c = 'E' || isDigit c

def digNumber (json : Text) (s : Scan) : Scan := s.goTo (skipWhile isNumberPart json s.index)

/-- What `dig_object` does where its loop ends. -/
def keyNotFound (key : Option Text) (s : Scan) : Except Failure Scan :=
  match key with
  | some k =>
    let name := String.ofList k
    .error (.raised .diggerError s!"Key not found: {name}")
  | none => .ok s

mutual

def digValue : Nat → Text → Scan → Except Failure Scan
  | 0, _, _ => .error .outOfFuel
  | fuel + 1, json, s =>
    let i := skipWhitespace json s.index
    let s := s.goTo i
    match json[i]? with
    | some '{' => digObject fuel json none s
    | some '[' => digArray fuel json none s
    | some '"' => (digString false json s).map Prod.snd
    | some 't' => (expectSequence json "true".toList (skipWhitespace json i)).map s.goTo
    | some 'f' => (expectSequence json "false".toList (skipWhitespace json i)).map s.goTo
    | some 'n' => (expectSequence json "null".toList (skipWhitespace json i)).map s.goTo
    | some c => if c = '-' || isDigit c then .ok (digNumber json s) else .ok (s.goTo (i + 1))
    | none => .ok (s.goTo (i + 1))
termination_by structural fuel => fuel

def digObject : Nat → Text → Option Text → Scan → Except Failure Scan
  | 0, _, _, _ => .error .outOfFuel
  | fuel + 1, json, key, s => do
    let s := s.pushStack .object
    let i ← expect json '{' (skipWhitespace json s.index)
    objectScan fuel json key (s.goTo i)
termination_by structural fuel => fuel

def objectScan : Nat → Text → Option Text → Scan → Except Failure Scan
  | 0, _, _, _ => .error .outOfFuel
  | fuel + 1, json, key, s =>
    match json[s.index]? with
    | none => keyNotFound key s
    | some char =>
      let s := if char = '}' then s.goTo (s.index + 1) else s
      if char = '}' && s.top = some .object then keyNotFound key s.popStack
      else do
        let (foundKey, s) ← digString true json s
        let i ← expect json ':' (skipWhitespace json s.index)
        if key.isSome && foundKey = key then
          digValue fuel json { s with index := i, startIndex := i }
        else
          let s ← digValue fuel json (s.goTo i)
          let i := skipWhitespace json s.index
          if json[i]? = some '}' then keyNotFound key (s.goTo (i + 1)).popStack
          else
            let i ← expect json ',' i
            objectScan fuel json key (s.goTo (skipWhitespace json i))
termination_by structural fuel => fuel

def digArray : Nat → Text → Option Nat → Scan → Except Failure Scan
  | 0, _, _, _ => .error .outOfFuel
  | fuel + 1, json, arrayPos, s => do
    let s := s.pushStack .array
    let i ← expect json '[' (skipWhitespace json s.index)
    let i := skipWhitespace json i
    let s := s.goTo i
    arrayScan fuel json arrayPos 0 (if arrayPos.isSome then { s with startIndex := i } else s)
termination_by structural fuel => fuel

/-- Where the loop ends, the error for an index out of range is created but not raised. -/
def arrayScan : Nat → Text → Option Nat → Nat → Scan → Except Failure Scan
  | 0, _, _, _, _ => .error .outOfFuel
  | fuel + 1, json, arrayPos, currentArrayPos, s =>
    match json[s.index]? with
    | none => .ok s
    | some ']' => .ok (s.goTo (s.index + 1))
    | some ',' =>
      let s := s.goTo (s.index + 1)
      if s.top = some .array && arrayPos.isSome then
        if arrayPos = some currentArrayPos then .ok s.popStack
        else arrayScan fuel json arrayPos (currentArrayPos + 1) { s with startIndex := s.index }
      else arrayScan fuel json arrayPos currentArrayPos s
    | some _ => do
      let s ← digValue fuel json s
      arrayScan fuel json arrayPos currentArrayPos s
termination_by structural fuel => fuel

end

/-- The characters `String#strip!` removes. -/
def isStripped (c : Char) : Bool := c = '\x00' || c = '\x0b' || c = '\x0c' || isWhitespace c

def strip (s : Text) : Text := (s.dropWhile isStripped).rdropWhile isStripped

/-- An argument of `dig`; `other` has the name of its class. -/
inductive DigKey where
  | index (i : Int)
  | name (k : Text)
  | other (className : String)

/-- The next `@json`. -/
def cut (json : Text) (s : Scan) : Text := strip (slice json s.startIndex s.index)

/-- One round of `dig`. -/
def digKey (json : Text) : DigKey → Except Failure Text
  | .index i =>
    if i < 0 then .error (.raised .argumentError "Negative index is not supported")
    else (digArray (3 * json.length + 3) json (some i.toNat) Scan.reset).map (cut json)
  | .name k => (digObject (3 * json.length + 3) json (some k) Scan.reset).map (cut json)
  | .other className => .error (.raised .argumentError s!"Unsupported type: {className}")

/-- `dig(*keys)`: the `@json` that `parse` is called on. -/
def dig : Text → List DigKey → Except Failure Text
  | json, [] => .ok json
  | json, key :: keys => do
    let json ← digKey json key
    dig json keys

end PicoRuby.Json
