import Mathlib.Data.Nat.Bitwise

/-!
# prb_vfs

The methods that SQLite calls for a file, and the functions of `SQLite3.vfs_methods` that they go through. A file
object of the driver is a value of `F`, and a call gives the file object as it is afterwards.
-/

namespace PicoRuby.Sqlite

set_option autoImplicit false

abbrev Bytes := List UInt8

/-- What a function of the driver leaves in `v[0]`. -/
inductive Value where
  | nil
  | false
  | true
  | integer (i : Int)
  | string (s : Bytes)
deriving DecidableEq, Repr

inductive Mode where
  | r
  | rPlus
  | wPlus
deriving DecidableEq, Repr

/-- `prb_vfs_methods`. A file that is not made is nil; `file_stat` may be a null pointer. -/
structure VfsMethods (F : Type) where
  fileNew : String → Mode → Option F
  fileRead : F → Nat → Value × F
  fileWrite : F → Bytes → Value × F
  /-- from the start of the file -/
  fileSeek : F → Int → Value × F
  fileSize : F → Value
  fileExist : String → Value
  fileStat : Option (String → Value)

inductive Result where
  | ok
  | error
  | cantOpen
  | ioErrShortRead
  | ioErrWrite
deriving DecidableEq, Repr

variable {F : Type} (m : VfsMethods F)

/-! ## sqlite3_prb_methods.c -/

def prbFileExist (zName : String) : Bool := m.fileExist zName == .true

/-- 0 for an Integer, -1 for anything else; nothing at all through a null pointer. -/
def prbFileStat (zName : String) : Option Int :=
  m.fileStat.map fun fileStat =>
    match fileStat zName with
    | .integer _ => 0
    | _ => -1

def sqliteOpenCreate : Nat := 0x4

def creates (flags : Nat) : Bool := flags &&& sqliteOpenCreate != 0

def openMode (zName : String) (flags : Nat) : Mode :=
  if creates flags then
    if prbFileExist m zName then .rPlus else .wPlus
  else .r

def prbFileNew (zName : String) (flags : Nat) : Option F := m.fileNew zName (openMode m zName flags)

/-- The number of bytes that were copied to the front of the buffer; -1 for an error. -/
def prbFileRead (file : F) (zBuf : Bytes) (nBuf : Nat) : Int × Bytes × F :=
  match m.fileRead file nBuf with
  | (.nil, file) => (0, zBuf, file)
  | (.string s, file) => (s.length, s ++ zBuf.drop s.length, file)
  | (_, file) => (-1, zBuf, file)

def prbFileWrite (file : F) (zBuf : Bytes) : Int × F :=
  match m.fileWrite file zBuf with
  | (.integer i, file) => (i, file)
  | (_, file) => (-1, file)

/-- The offset is an `int`. -/
def prbFileSeek (file : F) (offset : Int) : Int × F :=
  match m.fileSeek file (offset.bmod (2 ^ 32)) with
  | (.integer _, file) => (0, file)
  | (_, file) => (-1, file)

/-! ## sqlite3_vfs_methods.c -/

def prbVFSOpen (zName : String) (flags : Nat) : Result × Option F :=
  match prbFileNew m zName flags with
  | none => (.cantOpen, none)
  | some file => (.ok, some file)

/-- The `flags` of `xAccess`. -/
inductive Access where
  | accessExists
  | accessReadWrite
  | accessRead
deriving DecidableEq, Repr

/-- What is stored in `pResOut`, unless the call crashes. -/
def prbVFSAccess (zName : String) : Access → Option Int
  | .accessExists => some (if prbFileExist m zName then 1 else 0)
  | _ => (prbFileStat m zName).map fun stat => if stat == 0 then 0 else 1

/-- The buffer has the length `iAmt`. -/
def prbIORead (file : F) (zBuf : Bytes) (iOfst : Int) : Result × Bytes × F :=
  let (pos, file) := prbFileSeek m file iOfst
  if pos < 0 then (.error, zBuf, file)
  else
    let (n, zBuf', file) := prbFileRead m file zBuf zBuf.length
    (if (zBuf.length : Int) == n then .ok else .ioErrShortRead, zBuf', file)

def prbIOWrite (file : F) (zBuf : Bytes) (iOfst : Int) : Result × F :=
  let (pos, file) := prbFileSeek m file iOfst
  if pos < 0 then (.error, file)
  else
    let (n, file) := prbFileWrite m file zBuf
    (if (zBuf.length : Int) == n then .ok else .ioErrWrite, file)

def prbIOTruncate (file : F) (_size : Int) : Result × F := (.ok, file)

/-- What is stored in `pSize`, when `v[0]` is an Integer. -/
def prbIOFileSize (file : F) : Result × Option Int :=
  match m.fileSize file with
  | .integer i => (.ok, some i)
  | _ => (.ok, none)

/-! ## Calls -/

inductive Call where
  /-- with the buffer as it is before -/
  | read (zBuf : Bytes) (iOfst : Nat)
  | write (zBuf : Bytes) (iOfst : Nat)
  | truncate (size : Nat)
  | fileSize
deriving DecidableEq, Repr

inductive Reply where
  /-- with the buffer as it is afterwards -/
  | read (result : Result) (zBuf : Bytes)
  | write (result : Result)
  | truncate (result : Result)
  | fileSize (result : Result) (size : Option Int)
deriving DecidableEq, Repr

def perform (file : F) : Call → Reply × F
  | .read zBuf iOfst =>
    let (result, zBuf, file) := prbIORead m file zBuf iOfst
    (.read result zBuf, file)
  | .write zBuf iOfst =>
    let (result, file) := prbIOWrite m file zBuf iOfst
    (.write result, file)
  | .truncate size =>
    let (result, file) := prbIOTruncate file size
    (.truncate result, file)
  | .fileSize =>
    let (result, size) := prbIOFileSize m file
    (.fileSize result size, file)

/-- The file after a sequence of calls. -/
def performAll (file : F) (calls : List Call) : F := calls.foldl (fun file call => (perform m file call).2) file

end PicoRuby.Sqlite
