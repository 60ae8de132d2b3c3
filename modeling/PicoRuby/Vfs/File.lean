import Mathlib.Order.Defs.LinearOrder
import PicoRuby.Shared.Search
import PicoRuby.Vfs.Volumes

/-!
# File

The methods of file.rb that read lines, and `puts`, on a driver that stores bytes. A String is the list of its
bytes.
-/

namespace PicoRuby.Vfs

open Shared

set_option autoImplicit false

abbrev Bytes := List UInt8

def newline : UInt8 := 10

def carriageReturn : UInt8 := 13

/-! ## The driver -/

/-- A file that the driver has open. -/
structure Handle where
  content : Bytes
  pos : Nat
deriving DecidableEq, Repr

namespace Handle

/-- What is behind the position. -/
def rest (f : Handle) : Bytes := f.content.drop f.pos

def seek (f : Handle) (pos : Nat) : Handle := { f with pos }

/-- `read(n)`; nil is `none`. -/
def read (f : Handle) (n : Nat) : Option Bytes × Handle :=
  (if f.rest.take n = [] then none else some (f.rest.take n), f.seek (f.pos + (f.rest.take n).length))

/-- `write(s)` at a position in the file or at its end. -/
def write (f : Handle) (s : Bytes) : Handle :=
  ⟨f.content.take f.pos ++ s ++ f.content.drop (f.pos + s.length), f.pos + s.length⟩

@[simp] theorem seek_content (f : Handle) (pos : Nat) : (f.seek pos).content = f.content := rfl

@[simp] theorem seek_seek (f : Handle) (p q : Nat) : (f.seek p).seek q = f.seek q := rfl

@[simp] theorem seek_pos (f : Handle) : f.seek f.pos = f := rfl

theorem rest_seek (f : Handle) (n : Nat) : (f.seek (f.pos + n)).rest = f.rest.drop n := by
  rw [rest, rest, List.drop_drop]
  rfl

/-- Behind the next `n` bytes, or as many as there are. -/
def advance (f : Handle) (n : Nat) : Handle := f.seek (f.pos + (f.rest.take n).length)

@[simp] theorem advance_zero (f : Handle) : f.advance 0 = f := rfl

@[simp] theorem advance_rest (f : Handle) (n : Nat) : (f.advance n).rest = f.rest.drop n := by
  rw [advance, rest_seek, List.length_take]
  by_cases hn : n ≤ f.rest.length
  · rw [Nat.min_eq_left hn]
  · rw [Nat.min_eq_right (by omega), List.drop_length, List.drop_of_length_le (by omega)]

theorem advance_advance (f : Handle) (k n : Nat) : (f.advance k).advance n = f.advance (k + n) := by
  have hpos : (f.advance k).advance n =
      f.seek (f.pos + (f.rest.take k).length + ((f.advance k).rest.take n).length) := rfl
  rw [hpos, advance_rest, advance, List.take_add, List.length_append, Nat.add_assoc]

theorem advance_nil {f : Handle} (n : Nat) (h : f.rest = []) : f.advance n = f := by
  rw [advance, h, List.take_nil]
  rfl

@[simp] theorem read_snd (f : Handle) (n : Nat) : (f.read n).2 = f.advance n := rfl

@[simp] theorem read_fst (f : Handle) (n : Nat) : (f.read n).1.getD [] = f.rest.take n := by
  unfold read
  split
  · rename_i h
    rw [h]
    rfl
  · rfl

theorem read_nil {f : Handle} (n : Nat) (h : f.rest = []) : f.read n = (none, f) := by
  rw [read, h, List.take_nil]
  rfl

theorem read_cons {f : Handle} {n : Nat} (hn : 0 < n) (h : f.rest ≠ []) :
    f.read n = (some (f.rest.take n), f.advance n) := by
  rw [read, if_neg, advance]
  rw [List.take_eq_nil_iff, not_or]
  exact ⟨by omega, h⟩

theorem read_lt {f g : Handle} {n : Nat} {chunk : Bytes} (hn : 0 < n) (h : f.read n = (some chunk, g)) :
    g.rest.length < f.rest.length := by
  by_cases hrest : f.rest = []
  · rw [read_nil n hrest] at h
    cases h
  · rw [read_cons hn hrest] at h
    cases h
    have hpos := List.length_pos_iff.mpr hrest
    rw [advance_rest, List.length_drop]
    omega

end Handle

/-! ## gets -/

def chunkSize : Nat := 127

/-- The arguments of `gets`: an Integer, a separator or nil, both, or more than that. -/
inductive Args where
  | none
  | integer (limit : Int)
  | separator (rs : Option Bytes)
  | both (rs : Option Bytes) (limit : Int)
  | more
deriving DecidableEq, Repr

/-- `rs` and `limit`; a `rs` of nil is the empty String. -/
def arguments : Args → Except Failure (Bytes × Option Int)
  | .none => .ok ([newline], .none)
  | .integer limit => .ok ([newline], some limit)
  | .separator rs => .ok (rs.getD [], .none)
  | .both rs limit => .ok (rs.getD [], some limit)
  | .more => .error ⟨.argumentError, "wrong number of arguments (expected 0..2)"⟩

/-- `String#chomp`, and `String#chomp("\n")`. -/
def chomp (s : Bytes) : Bytes :=
  if s.getLast? = some newline then
    if s.dropLast.getLast? = some carriageReturn then s.dropLast.dropLast else s.dropLast
  else if s.getLast? = some carriageReturn then s.dropLast
  else s

/-- `String#chomp("")`, from the end. -/
def chompLines : Bytes → Bytes
  | [] => []
  | [c] => if c = newline then [] else [c]
  | c :: d :: s =>
    if c = newline then
      if d = carriageReturn then chompLines s else chompLines (d :: s)
    else c :: d :: s

/-- `String#chomp(rs)`. -/
def chompBy (rs s : Bytes) : Bytes :=
  if rs = [newline] then chomp s
  else if rs = [] then (chompLines s.reverse).reverse
  else if rs <:+ s then s.take (s.length - rs.length)
  else s

namespace Handle

def rsAdjust (rs : Bytes) : Int := rs.length - 1

/-- `n.times do ... @file.read(limit) ... end`. -/
def readTimes (limit : Nat) : Nat → Bytes → Handle → Bytes × Handle
  | 0, result, f => (result, f)
  | n + 1, result, f => readTimes limit n (result ++ (f.read limit).1.getD []) (f.read limit).2

/-- What is read for a limit. -/
def readLimited (rs : Bytes) (limit : Int) (f : Handle) : Bytes × Handle :=
  let (result, f) := readTimes limit.toNat (limit / chunkSize).toNat [] f
  let (chunk, f) := f.read (limit % chunkSize).toNat
  let result := result ++ chunk.getD []
  match indexFrom rs result 0 with
  | some pos => (result.take (pos + 1 + rsAdjust rs).toNat, f)
  | none => (result, f)

/-- `while chunk = @file.read(chunk_size)`. -/
def readUntil (rs : Bytes) (indexAt : Nat) (result : Bytes) (f : Handle) : Bytes × Handle :=
  match _h : f.read chunkSize with
  | (none, f) => (result, f)
  | (some chunk, g) =>
    match indexFrom rs (result ++ chunk) (max (indexAt - rsAdjust rs) 0).toNat with
    | some pos => ((result ++ chunk).take (pos + 1 + rsAdjust rs).toNat, g)
    | none => readUntil rs (indexAt + chunkSize) (result ++ chunk) g
termination_by f.rest.length
decreasing_by exact read_lt (by decide) _h

/-- `gets` with the separator and the limit that the arguments stand for. -/
def getsWith (rs : Bytes) (limit : Option Int) (chomp : Bool) (f : Handle) : Option Bytes × Handle :=
  let (result, g) :=
    match limit with
    | some limit => readLimited rs limit f
    | none => readUntil rs 0 [] f
  if result.length = 0 then (none, g)
  else (some (if chomp then chompBy rs result else result), g.seek (f.pos + result.length))

def gets (args : Args) (chomp : Bool) (f : Handle) : Except Failure (Option Bytes × Handle) :=
  (arguments args).map fun (rs, limit) => getsWith rs limit chomp f

/-- A round of `puts`. -/
def puts (f : Handle) (line : Bytes) : Handle := (f.write line).write [newline]

end Handle

end PicoRuby.Vfs
