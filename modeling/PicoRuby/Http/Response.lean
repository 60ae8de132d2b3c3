import PicoRuby.Shared.Hash
import PicoRuby.Shared.LineEnds
import PicoRuby.Shared.Paths

/-!
# HTTP responses

`Net::HTTPUtil.format_response` of net.rb. A response is split into lines; its header lines are split at colons,
and the lines of its body are put together again.
-/

namespace PicoRuby.Http

open Shared

set_option autoImplicit false

abbrev Bytes := List UInt8

/-! ## Strings -/

def cr : UInt8 := 0x0D

def lf : UInt8 := 0x0A

def space : UInt8 := 0x20

def colon : UInt8 := 0x3A

def ascii (s : String) : Bytes := s.toList.map fun c => UInt8.ofNat c.toNat

def isBlank (c : UInt8) : Bool := c = space || (0x09 ≤ c && c ≤ 0x0D)

def isDigit (c : UInt8) : Bool := 0x30 ≤ c && c ≤ 0x39

/-- `String#strip`. -/
def strip (s : Bytes) : Bytes := (s.dropWhile isBlank).rdropWhile fun c => isBlank c || c = 0

/-- `String#split(' ')`, with what has been read of a word. -/
def words : Bytes → Bytes → List Bytes
  | [], word => if word = [] then [] else [word]
  | c :: s, word =>
    if isBlank c then if word = [] then words s [] else word :: words s []
    else words s (word ++ [c])

/-- The digits of `String#to_i`; an underscore may stand in front of another digit. -/
def digits : Nat → Bytes → Nat
  | value, [] => value
  | value, c :: s =>
    if isDigit c then digits (value * 10 + (c.toNat - 0x30)) s
    else if c = 0x5F ∧ s.head?.any isDigit then digits value s
    else value

/-- What follows the sign; an underscore does not begin a number. -/
def unsigned (s : Bytes) : Nat := if s.head?.any isDigit then digits 0 s else 0

/-- `String#to_i`. -/
def toI (s : Bytes) : Int :=
  match s.dropWhile isBlank with
  | 0x2B :: s => unsigned s
  | 0x2D :: s => -(unsigned s : Int)
  | s => unsigned s

/-- `split("\r\n")`. -/
def splitLines (s : Bytes) : List Bytes := (splitPair cr lf s).rdropWhile (· = [])

/-! ## net.rb -/

/-- The Hash that `format_response` returns; a name or a value that is not there is `nil`. -/
structure Formatted where
  status : Int
  headers : List (Option Bytes × Option Bytes)
  body : Bytes
deriving DecidableEq, Repr

structure Loop where
  lineNumber : Nat
  formatted : Formatted
  bodyStarted : Bool
deriving DecidableEq, Repr

/-- A round of the loop, with the lines behind the one that it reads. -/
def Loop.round (s : Loop) (line : Bytes) (rest : List Bytes) : Loop :=
  let f := s.formatted
  if s.lineNumber = 0 then
    { s with lineNumber := s.lineNumber + 1, formatted := { f with status := ((words line [])[1]?.map toI).getD 0 } }
  else if s.bodyStarted = false then
    if line.length = 0 then { s with lineNumber := s.lineNumber + 1, bodyStarted := true }
    else
      let fields := fields colon line
      { s with
        lineNumber := s.lineNumber + 1
        formatted := { f with headers := hashSet f.headers fields[0]? (fields[1]?.map strip) } }
  else
    let body := f.body ++ line
    let body := if rest = [] then body else body ++ [cr, lf]
    { s with lineNumber := s.lineNumber + 1, formatted := { f with body } }

def formatLoop : List Bytes → Loop → Loop
  | [], s => s
  | line :: lines, s => formatLoop lines (s.round line lines)

/-- `HTTPUtil.format_response`; `none` is what is not a String. -/
def formatResponse (rawResponse : Option Bytes) : Option Formatted :=
  rawResponse.map fun raw => (formatLoop (splitLines raw) ⟨0, ⟨0, [], []⟩, false⟩).formatted

end PicoRuby.Http
