import PicoRuby.Codec.Crc

/-!
# System files

`Shell.ensure_system_file`. A storage may leave any bytes in a file that is written; what it says of a file is true.
`opened`, `closed` and `rounds` only count.
-/

namespace PicoRuby.Shell

open Codec

set_option autoImplicit false

inductive Vm where
  | mruby
  | mrubyc
deriving DecidableEq, Repr

/-- The bytes that a write leaves, and the memory from the address of the first cluster on, each once as many checks
have been made. Where there is no `physical_address`, there is no memory. -/
structure Device where
  vm : Vm
  written : Nat → Bytes
  memory : Option (Nat → Nat → UInt8)

structure Files where
  file : Option Bytes
  checks : Nat
  opened : Nat
  closed : Nat
  rounds : Nat
deriving DecidableEq, Repr

/-- How a block ends: with its value, with a `return`, or with an exception. -/
inductive Exit where
  | value
  | returned
  | raised
deriving DecidableEq, Repr

/-- `File.open` with a block. -/
def fileOpen (block : Files → Exit × Files) (s : Files) : Exit × Files :=
  match block { s with opened := s.opened + 1 } with
  | (.value, s) => (.value, { s with closed := s.closed + 1 })
  | left => left

/-- `CRC.crc32` with one argument; mruby takes no nil for a String. -/
def crc32? (vm : Vm) (string : Option Bytes) : Option UInt32 :=
  match string with
  | some s => some (generateCrc32 s 0)
  | none =>
    match vm with
    | .mruby => none
    | .mrubyc => some 0

section Methods
variable (d : Device) (code : Bytes) (crc : Option UInt32)

/-- `actual_crc`; an exception is `none`. -/
def actualCrc (content : Bytes) (checks : Nat) : Option UInt32 :=
  match d.memory with
  | some memory => some (generateCrc32 ((List.range code.length).map (memory checks)) 0)
  | none => crc32? d.vm (if 0 < content.length then some content else none)

/-- The block of the check. -/
def check (content : Bytes) (s : Files) : Exit × Files :=
  match actualCrc d code content s.checks with
  | none => (.raised, s)
  | some actual =>
    if content.length = code.length ∧ (crc = none ∨ crc = some actual) then (.returned, s) else (.value, s)

def round (s : Files) : Exit × Files :=
  let s := { s with rounds := s.rounds + 1 }
  match s.file with
  | some content =>
    match fileOpen (check d code crc content) s with
    | (.value, s) => (.value, { s with file := none, checks := s.checks + 1 })
    | left => left
  | none => fileOpen (fun s => (.value, { s with file := some (d.written s.checks) })) s

/-- `n.times do`. -/
def rounds : Nat → Files → Exit × Files
  | 0, s => (.value, s)
  | n + 1, s =>
    match round d code crc s with
    | (.value, s) => rounds n s
    | left => left

end Methods

/-! ## The property -/

section Condition
variable (d : Device) (code : Bytes) (crc : UInt32)

/-- The content that a check finds. -/
def found (file : Option Bytes) : Nat → Bytes
  | 0 => file.getD (d.written 0)
  | checks + 1 => d.written (checks + 1)

end Condition

/-! ## Rounds -/

section Rounds
variable {d : Device} {code content : Bytes} {crc : UInt32} {s : Files}

end Rounds

end PicoRuby.Shell
