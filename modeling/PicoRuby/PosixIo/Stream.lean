import Mathlib.Algebra.GroupWithZero.Nat
import PicoRuby.Shared.Search

/-!
# IO of picoruby-posix-io

The read buffer of io.c, and the methods that take bytes out of it, put bytes back in front of it, or write where
the next byte would be read. `none` is an access outside of the buffer, or a loop that does not end in `rounds`.
-/

namespace PicoRuby.PosixIo

open Shared

set_option autoImplicit false

abbrev Bytes := List UInt8

/-- `PICORB_IO_BUF_SIZE`. -/
def ioBufSize : Nat := 4096

/-- `SHRT_MAX`. -/
def shrtMax : Nat := 32767

/-- What a `short` keeps of an `int`. -/
def short (n : Int) : Int := n.bmod 65536

/-! ## Files -/

/-- An open file. A read is given one byte at least, and no more than `given` says after that one. -/
structure Descriptor where
  content : Bytes
  offset : Nat
  reads : Nat
  given : Nat → Nat

inductive Whence where
  | set
  | cur
  | fileEnd
deriving DecidableEq, Repr

namespace Descriptor

def read (fd : Descriptor) (n : Nat) : Bytes × Descriptor :=
  let got := (fd.content.drop fd.offset).take (min n (fd.given fd.reads + 1))
  (got, { fd with offset := fd.offset + got.length, reads := fd.reads + 1 })

def write (fd : Descriptor) (data : Bytes) : Descriptor :=
  { fd with
    content := fd.content.take fd.offset ++ List.replicate (fd.offset - fd.content.length) 0 ++ data ++
      fd.content.drop (fd.offset + data.length)
    offset := fd.offset + data.length }

def lseek (fd : Descriptor) (offset : Int) (whence : Whence) : Option Descriptor :=
  let target : Int := match whence with
    | .set => offset
    | .cur => fd.offset + offset
    | .fileEnd => fd.content.length + offset
  if 0 ≤ target then some { fd with offset := target.toNat } else none

end Descriptor

/-! ## io.c -/

/-- `struct picorb_io_buf`. -/
structure IoBuf where
  start : Int
  len : Int
  mem : Bytes
  room : ioBufSize ≤ mem.length

/-- `struct picorb_io`, readable and writable. -/
structure Io where
  fd : Descriptor
  eof : Bool
  buf : IoBuf

namespace IoBuf

/-- The bytes from `buf->mem + buf->start` on. -/
def slice (b : IoBuf) (n : Int) : Option Bytes :=
  if 0 ≤ b.start ∧ 0 ≤ n ∧ b.start + n ≤ b.mem.length then some ((b.mem.drop b.start.toNat).take n.toNat) else none

/-- `io_buf_reset`. -/
def reset (b : IoBuf) : IoBuf := { b with start := 0, len := 0 }

/-- `io_buf_shift`. -/
def shift (b : IoBuf) (n : Int) : IoBuf :=
  { b with start := short (b.start + short n), len := short (b.len - short n) }

/-- `io_find_index`. -/
def findIndex (b : IoBuf) (rs : Bytes) : Option (Option Nat) := do
  let p ← b.slice b.len
  return indexFrom rs p 0

/-- The separator in the buffer, if there is one. -/
def findLine (b : IoBuf) (rs : Option Bytes) : Option (Option Nat) :=
  match rs with
  | none => some none
  | some rs => b.findIndex rs

end IoBuf

namespace Io

theorem filled_room (b : IoBuf) (got : Bytes) : ioBufSize ≤ (got ++ b.mem.drop got.length).length := by
  have hroom := b.room
  rw [List.length_append, List.length_drop]
  omega

/-- `io_fill_buf`. -/
def fillBuf (io : Io) : Io :=
  if 0 < io.buf.len then io
  else
    let (got, fd) := io.fd.read ioBufSize
    { fd
      eof := io.eof || got.isEmpty
      buf :=
        { start := 0
          len := short got.length
          mem := got ++ io.buf.mem.drop got.length
          room := filled_room io.buf got } }

/-- `io_buf_cat`. -/
def bufCat (io : Io) (outbuf : Bytes) (n : Int) : Option (Bytes × Io) := do
  let data ← io.buf.slice n
  return (outbuf ++ data, { io with buf := io.buf.shift n })

/-- `io_buf_cat_all`. -/
def bufCatAll (io : Io) (outbuf : Bytes) : Option (Bytes × Io) := do
  let data ← io.buf.slice io.buf.len
  return (outbuf ++ data, { io with buf := io.buf.reset })

/-- The reads that empty a file, with the one that finds its end. -/
def rounds (io : Io) : Nat := io.fd.content.length + io.buf.len.toNat + 2

/-- `io_read_all`. -/
def readAll : Nat → Io → Bytes → Option (Bytes × Io)
  | 0, _, _ => none
  | rounds + 1, io, outbuf => do
    let io := io.fillBuf
    if io.eof then return (outbuf, io)
    let (outbuf, io) ← io.bufCatAll outbuf
    readAll rounds io outbuf

/-- `IO#getbyte` and `IO#getc`. -/
def getbyte (io : Io) : Option (Option UInt8 × Io) :=
  let io := io.fillBuf
  if io.eof then some (none, io)
  else do
    let data ← io.buf.slice 1
    return (data.head?, { io with buf := io.buf.shift 1 })

/-- The loop of `c_io_read`. -/
def readLoop : Nat → Io → Int → Bytes → Option (Option Bytes × Io)
  | 0, _, _, _ => none
  | rounds + 1, io, length, outbuf => do
    let io := io.fillBuf
    if io.eof || length = 0 then return (if outbuf.isEmpty then none else some outbuf, io)
    if io.buf.len < length then
      let (outbuf, io') ← io.bufCatAll outbuf
      readLoop rounds io' (length - io.buf.len) outbuf
    else
      let (outbuf, io) ← io.bufCat outbuf length
      return (some outbuf, io)

/-- `IO#read`. -/
def read (io : Io) (length : Option Nat) (outbuf : Bytes) : Option (Option Bytes × Io) :=
  match length with
  | none => do
    let (outbuf, io) ← readAll io.rounds io outbuf
    return (some outbuf, io)
  | some 0 => some (some outbuf, io)
  | some length => readLoop io.rounds io length outbuf

end Io

inductive Arg where
  | nil
  | int (n : Nat)
  | str (s : Bytes)
deriving DecidableEq, Repr

inductive GetsArgs where
  | none
  | one (rs : Arg)
  | two (rs : Arg) (limit : Nat)
deriving DecidableEq, Repr

/-- The separator, two line ends for paragraphs. -/
def separator (s : Bytes) : Bytes := if s.isEmpty then [10, 10] else s

/-- What `c_io_gets` makes of its arguments: a separator and a limit. -/
def GetsArgs.resolve : GetsArgs → Except String (Option Bytes × Option Nat)
  | none => .ok (some [10], .none)
  | one .nil => .ok (some [10], .none)
  | one (.int n) => .ok (.none, some n)
  | one (.str s) => .ok (some (separator s), .none)
  | two .nil limit => .ok (.none, some limit)
  | two (.int _) _ => .error "wrong argument type (expected String)"
  | two (.str s) limit => .ok (some (separator s), some limit)

namespace Io

/-- The loop of `c_io_gets`. -/
def getsLoop (rs : Option Bytes) : Nat → Io → Option Nat → Bytes → Option (Option Bytes × Io)
  | 0, _, _, _ => none
  | rounds + 1, io, limit, outbuf => do
    match ← io.buf.findLine rs with
    | some idx =>
      let n := idx + (rs.getD []).length
      let (outbuf, io) ← io.bufCat outbuf ((limit.map (min n)).getD n : Nat)
      return (some outbuf, io)
    | none =>
      if limit.any fun limit : Nat => decide ((limit : Int) ≤ io.buf.len) then
        let (outbuf, io) ← io.bufCat outbuf (limit.getD 0 : Nat)
        return (some outbuf, io)
      else
        let limit := limit.map fun limit : Nat => ((limit : Int) - io.buf.len).toNat
        let (outbuf, io) ← io.bufCatAll outbuf
        let io := io.fillBuf
        if io.eof then return (if outbuf.isEmpty then none else some outbuf, io)
        getsLoop rs rounds io limit outbuf

/-- `IO#gets`. -/
def gets (io : Io) (args : GetsArgs) : Option (Except String (Option Bytes) × Io) :=
  match args.resolve with
  | .error e => some (.error e, io)
  | .ok (none, none) => do
    let (outbuf, io) ← readAll io.rounds io []
    return (.ok (some outbuf), io)
  | .ok (rs, limit) => do
    let io := io.fillBuf
    if io.eof then return (.ok none, io)
    if limit = some 0 then return (.ok (some []), io)
    let (line, io) ← getsLoop rs io.rounds io limit []
    return (.ok line, io)

/-- `mrbc_realloc` of the buffer; bytes that are new are zero. -/
def realloc (mem : Bytes) (n : Nat) : Bytes := mem.take n ++ List.replicate (n - mem.length) 0

theorem realloc_length (mem : Bytes) (n : Nat) : (realloc mem n).length = n := by
  rw [realloc, List.length_append, List.length_take, List.length_replicate]
  omega

/-- The buffer for `len` bytes more. -/
def grown (b : IoBuf) (len : Nat) : Bytes :=
  if (ioBufSize : Int) - b.len < len then realloc b.mem (b.len + len).toNat else b.mem

theorem grown_room (b : IoBuf) (len : Nat) : ioBufSize ≤ (grown b len).length := by
  unfold grown
  split
  · rw [realloc_length]
    omega
  · exact b.room

/-- `IO#ungetc`. -/
def ungetc (io : Io) (str : Bytes) : Option (Except String Io) :=
  if shrtMax < str.length then some (.error "string too long to ungetc")
  else
    let mem := grown io.buf str.length
    if h : 0 ≤ io.buf.start ∧ 0 ≤ io.buf.len ∧ io.buf.start + io.buf.len ≤ mem.length ∧
        str.length + io.buf.len ≤ mem.length then
      let kept := (mem.drop io.buf.start.toNat).take io.buf.len.toNat
      some (.ok { io with
        buf :=
          { start := 0
            len := short (io.buf.len + str.length)
            mem := str ++ kept ++ mem.drop (str.length + io.buf.len.toNat)
            room := by
              have hroom : ioBufSize ≤ mem.length := grown_room io.buf str.length
              rw [List.length_append, List.length_append, List.length_take, List.length_drop, List.length_drop]
              omega } })
    else none

/-- `IO#eof?`. -/
def eofQ (io : Io) : Bool × Io :=
  if io.eof then (true, io)
  else if 0 < io.buf.len then (false, io)
  else (io.fillBuf.eof, io.fillBuf)

/-- `IO#pos`. -/
def pos (io : Io) : Int := io.fd.offset - io.buf.len

/-- `IO#seek`. -/
def seek (io : Io) (offset : Int) (whence : Whence) : Except String Nat × Io :=
  let io := { io with buf := io.buf.reset }
  match io.fd.lseek offset whence with
  | none => (.error "sysseek failed", io)
  | some fd => (.ok 0, { io with fd, eof := false })

/-- `fd_write`. -/
def fdWrite (fd : Descriptor) (str : Bytes) : Descriptor := if str.isEmpty then fd else fd.write str

/-- `IO#write`. -/
def write (io : Io) (strs : List Bytes) : Except String Nat × Io :=
  if 0 < io.buf.len then
    match io.fd.lseek (io.fd.offset - io.buf.len) .set with
    | none => (.error "lseek(2) failed", io)
    | some fd => (.ok (strs.map List.length).sum, { io with fd := strs.foldl fdWrite fd, buf := io.buf.reset })
  else (.ok (strs.map List.length).sum, { io with fd := strs.foldl fdWrite io.fd })

end Io

/-! ## Calls -/

inductive Op where
  | getbyte
  | read (length : Option Nat) (outbuf : Bytes)
  | gets (args : GetsArgs)
  | ungetc (str : Bytes)
  | eofQ
  | pos
  | seek (offset : Int) (whence : Whence)
  | write (strs : List Bytes)
deriving DecidableEq, Repr

/-- What a call returns. -/
inductive Value where
  | nil
  | int (n : Int)
  | str (s : Bytes)
  | bool (b : Bool)
  | raised (message : String)
deriving DecidableEq, Repr

namespace Value

def ofStr : Option Bytes → Value
  | none => nil
  | some s => str s

def ofExcept {α : Type} (f : α → Value) : Except String α → Value
  | .error e => raised e
  | .ok a => f a

end Value

namespace Io

def step (io : Io) : Op → Option (Value × Io)
  | .getbyte => do
    let (c, io) ← io.getbyte
    return ((c.map fun c => Value.int c.toNat).getD .nil, io)
  | .read length outbuf => do
    let (data, io) ← io.read length outbuf
    return (.ofStr data, io)
  | .gets args => do
    let (line, io) ← io.gets args
    return (.ofExcept .ofStr line, io)
  | .ungetc str => do
    match ← io.ungetc str with
    | .error e => return (.raised e, io)
    | .ok io => return (.nil, io)
  | .eofQ => some (.bool io.eofQ.1, io.eofQ.2)
  | .pos => some (.int io.pos, io)
  | .seek offset whence =>
    let (result, io) := io.seek offset whence
    some (.ofExcept (fun n : Nat => .int n) result, io)
  | .write strs =>
    let (result, io) := io.write strs
    some (.ofExcept (fun n : Nat => .int n) result, io)

/-- Calls one after the other. -/
def run (io : Io) : List Op → Option (List Value × Io)
  | [] => some ([], io)
  | op :: ops => do
    let (value, io) ← io.step op
    let (values, io) ← io.run ops
    return (value :: values, io)

theorem step_getbyte (io : Io) : io.step .getbyte = (do
    let (c, io) ← io.getbyte
    return ((c.map fun c => Value.int c.toNat).getD .nil, io)) := rfl

theorem step_gets (io : Io) (args : GetsArgs) : io.step (.gets args) = (do
    let (line, io) ← io.gets args
    return (.ofExcept .ofStr line, io)) := rfl

theorem step_ungetc (io : Io) (str : Bytes) : io.step (.ungetc str) = (do
    match ← io.ungetc str with
    | .error e => return (.raised e, io)
    | .ok io => return (.nil, io)) := rfl

theorem run_cons {io io' io'' : Io} {op : Op} {ops : List Op} {value : Value} {values : List Value}
    (h : io.step op = some (value, io')) (h' : io'.run ops = some (values, io'')) :
    io.run (op :: ops) = some (value :: values, io'') := by
  rw [run, h]
  change (do let (values, io) ← io'.run ops; return (value :: values, io)) = _
  rw [h']
  rfl

/-- An IO with a file that has just been opened. -/
def opened (content : Bytes) (given : Nat → Nat) : Io :=
  { fd := ⟨content, 0, 0, given⟩
    eof := false
    buf := ⟨0, 0, List.replicate ioBufSize 0, by rw [List.length_replicate]⟩ }

end Io

/-! ## Without a buffer -/

/-- A file, the place of its next byte, what has been put back, and whether its end has been seen. -/
structure Stream where
  content : Bytes
  place : Nat
  pushed : Bytes
  eof : Bool
deriving DecidableEq, Repr

namespace Stream

/-- What is still to be read. -/
def rest (s : Stream) : Bytes := s.pushed ++ s.content.drop s.place

def advance (s : Stream) (n : Nat) : Stream :=
  { s with place := s.place + (n - s.pushed.length), pushed := s.pushed.drop n }

/-- With everything read, and its end seen. -/
def finish (s : Stream) : Stream := { s.advance s.rest.length with eof := true }

/-- After `n` bytes, or at the end where there are less of them. -/
def after (s : Stream) (n : Nat) : Stream := if s.rest.length < n then s.finish else s.advance n

def getbyte (s : Stream) : Value × Stream :=
  if s.eof then (.nil, s)
  else
    match s.rest with
    | [] => (.nil, s.finish)
    | c :: _ => (.int c.toNat, s.advance 1)

/-- A String, `nil` if it is empty. -/
def orNil (s : Bytes) : Value := if s.isEmpty then .nil else .str s

def read (s : Stream) (length : Option Nat) (outbuf : Bytes) : Value × Stream :=
  match length with
  | none => if s.eof then (.str outbuf, s) else (.str (outbuf ++ s.rest), s.finish)
  | some 0 => (.str outbuf, s)
  | some length =>
    if s.eof then (orNil outbuf, s) else (orNil (outbuf ++ s.rest.take length), s.after length)

/-- The length of the next line, where it ends before the file does. -/
def lineLength (rs : Option Bytes) (limit : Option Nat) (rest : Bytes) : Option Nat :=
  match rs.bind fun rs => (indexFrom rs rest 0).map (· + rs.length) with
  | some n => some ((limit.map (min n)).getD n)
  | none => limit.filter (· ≤ rest.length)

/-- The next line, and what is left. -/
def nextLine (s : Stream) (rs : Option Bytes) (limit : Option Nat) : Bytes × Stream :=
  match lineLength rs limit s.rest with
  | some n => (s.rest.take n, s.advance n)
  | none => (s.rest, s.finish)

def gets (s : Stream) (args : GetsArgs) : Value × Stream :=
  match args.resolve with
  | .error e => (.raised e, s)
  | .ok (rs, limit) =>
    if s.eof then (.nil, s)
    else if s.rest.isEmpty then (.nil, s.finish)
    else (.str (s.nextLine rs limit).1, (s.nextLine rs limit).2)

/-- The file with `data` from a place on. -/
def overwrite (content : Bytes) (place : Nat) (data : Bytes) : Bytes :=
  if data.isEmpty then content
  else
    content.take place ++ List.replicate (place - content.length) 0 ++ data ++ content.drop (place + data.length)

def step (s : Stream) : Op → Value × Stream
  | .getbyte => s.getbyte
  | .read length outbuf => s.read length outbuf
  | .gets args => s.gets args
  | .ungetc str =>
    if shrtMax < str.length then (.raised "string too long to ungetc", s)
    else (.nil, { s with pushed := str ++ s.pushed })
  | .eofQ => (.bool (s.eof || s.rest.isEmpty), { s with eof := s.eof || s.rest.isEmpty })
  | .pos => (.int (s.place - s.pushed.length), s)
  | .seek offset whence =>
    let target : Int := match whence with
      | .set => offset
      | .cur => s.place - s.pushed.length + offset
      | .fileEnd => s.content.length + offset
    if 0 ≤ target then (.int 0, { s with place := target.toNat, pushed := [], eof := false })
    else (.raised "sysseek failed", s)
  | .write strs =>
    if s.pushed.length ≤ s.place then
      let place := s.place - s.pushed.length
      let data := strs.flatten
      (.int data.length, { s with
        content := overwrite s.content place data
        place := place + data.length
        pushed := [] })
    else (.raised "lseek(2) failed", s)

def run (s : Stream) : List Op → List Value × Stream
  | [] => ([], s)
  | op :: ops =>
    let (value, s) := s.step op
    let (values, s) := s.run ops
    (value :: values, s)

def opened (content : Bytes) : Stream := ⟨content, 0, [], false⟩

end Stream

end PicoRuby.PosixIo
