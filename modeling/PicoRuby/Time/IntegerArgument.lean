import Mathlib.Data.List.Basic

/-!
# Arguments of Time.local

`mrbc_Integer` of time.c. What it reads and writes is stated: the bytes of the String, and a buffer of as many
bytes that are unwritten at first. From the first access outside of them on, nothing is known.
-/

namespace PicoRuby.Time

set_option autoImplicit false

abbrev Bytes := List UInt8

inductive Fault where
  | inputRead (i : Nat)
  | bufferRead (j : Nat)
  | unwritten (j : Nat)
  | bufferWrite (j : Nat)
deriving DecidableEq, Repr

/-- How a call ends without a result. -/
inductive Stop where
  | fault (fault : Fault)
  | argumentError (message : String)
deriving DecidableEq, Repr

def invalidValue : Stop := .argumentError "invalid value for Integer()"

inductive Value where
  | integer (i : Int)
  | string (data : Bytes)
  | other
deriving DecidableEq, Repr

/-! ## Memory -/

/-- `data[i]`. -/
def readData (data : Bytes) (i : Nat) : Except Stop UInt8 :=
  match data[i]? with
  | some c => .ok c
  | none => .error (.fault (.inputRead i))

/-- `char str[len]`. -/
abbrev Buffer := List (Option UInt8)

/-- `str[j]`. -/
def read (str : Buffer) (j : Nat) : Except Stop UInt8 :=
  match str[j]? with
  | some (some c) => .ok c
  | some none => .error (.fault (.unwritten j))
  | none => .error (.fault (.bufferRead j))

/-- `str[j] = c`. -/
def write (str : Buffer) (j : Nat) (c : UInt8) : Except Stop Buffer :=
  if j < str.length then .ok (str.set j (some c)) else .error (.fault (.bufferWrite j))

/-- What a function that is given the buffer reads from the index `j` on, up to the NUL. -/
def cString : Nat → Buffer → Except Stop Bytes
  | j, [] => .error (.fault (.bufferRead j))
  | j, none :: _ => .error (.fault (.unwritten j))
  | j, some c :: str => if c = 0 then .ok [] else (cString (j + 1) str).map (c :: ·)

/-! ## time.c -/

def minus : UInt8 := 0x2D

def plus : UInt8 := 0x2B

def underscore : UInt8 := 0x5F

/-- `47 < c && c < 58`. -/
def isDigit (c : UInt8) : Bool := 47 < c && c < 58

/-- The `for` loop, with the rounds that are left. -/
def copyDigits (data : Bytes) : Nat → Nat → Nat → Buffer → Except Stop (Nat × Buffer)
  | 0, _, j, str => .ok (j, str)
  | rounds + 1, i, j, str =>
    if i < data.length then do
      let c ← readData data i
      if c = underscore then copyDigits data rounds (i + 1) j str
      else if isDigit c then do
        let str ← write str j c
        copyDigits data rounds (i + 1) (j + 1) str
      else .error invalidValue
    else .ok (j, str)

/-- `mrbc_Integer`; `atoi` is `mrbc_atoi` with the base 10. -/
def mrbcInteger (atoi : Bytes → Int) : Value → Except Stop Int
  | .integer i => .ok i
  | .string data => do
    let len := data.length
    let first ← readData data 0
    let sign : Int := if first = plus then 1 else if first = minus then -1 else 0
    if first = underscore then .error invalidValue
    else do
      let last ← readData data (len - 1)
      if last = underscore then .error invalidValue
      else do
        let i := if sign = 0 then 0 else 1
        let (j, str) ← copyDigits data len i 0 (List.replicate len none)
        let c ← read str 0
        if c = 0 then .error invalidValue
        else do
          let str ← write str j 0
          let digits ← cString 0 str
          return if sign < 0 then atoi digits * -1 else atoi digits
  | .other => .error invalidValue

end PicoRuby.Time
