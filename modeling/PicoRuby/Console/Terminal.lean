import Mathlib.Data.List.Basic

/-!
# picoruby-io-console

A terminal is the mode that is in force and the one saved mode; there are a port for POSIX and one for rp2040. The
blocks of `IO#raw` and `IO#cooked` are programs over a port.
-/

namespace PicoRuby.Console

set_option autoImplicit false

structure Terminal (M : Type) where
  mode : M
  saved : M
deriving DecidableEq, Repr

/-- What is asked of a terminal: `io_raw_q`, `io_echo_q`, and whether a read waits. -/
structure Mode where
  raw : Bool
  echo : Bool
  nonblock : Bool
deriving DecidableEq, Repr

structure Port (M : Type) where
  observe : M → Mode
  ioRawBang (nonblock : Bool) : Terminal M → Terminal M
  ioCookedBang : Terminal M → Terminal M
  ioRestoreTermios : Terminal M → Terminal M

/-! ## ports/posix -/

/-- The fields of `struct termios` that the port sets, a Bool for each flag. -/
structure Termios where
  brkint : Bool
  istrip : Bool
  ixon : Bool
  icanon : Bool
  iexten : Bool
  echo : Bool
  echoe : Bool
  echok : Bool
  echonl : Bool
  vmin : Nat
  vtime : Nat
deriving DecidableEq, Repr

/-- The settings of stdin and its flag `O_NONBLOCK`; saved, they are `save_settings` and `save_flags`. -/
structure Stdin where
  settings : Termios
  nonblock : Bool
deriving DecidableEq, Repr

/-- `io_raw_q`. -/
def Termios.rawQ (t : Termios) : Bool :=
  !(t.brkint || t.istrip || t.ixon) && !(t.icanon || t.iexten || t.echo || t.echoe || t.echok || t.echonl)

def rawSettings : Termios := ⟨false, false, false, false, false, false, false, false, false, 1, 0⟩

def cookedSettings : Termios := ⟨true, true, true, true, true, true, true, true, true, 1, 0⟩

def posix : Port Stdin where
  observe stdin := ⟨stdin.settings.rawQ, stdin.settings.echo, stdin.nonblock⟩
  ioRawBang nonblock t := ⟨⟨rawSettings, t.mode.nonblock || nonblock⟩, t.mode⟩
  ioCookedBang t := ⟨⟨cookedSettings, false⟩, t.mode⟩
  ioRestoreTermios t := ⟨t.saved, t.saved⟩

/-! ## ports/rp2040 -/

structure Rp2040 where
  rawMode : Bool
  echoMode : Bool
deriving DecidableEq, Repr

/-- A read never waits. -/
def rp2040 : Port Rp2040 where
  observe m := ⟨m.rawMode, m.echoMode, true⟩
  ioRawBang _ t := ⟨{ t.mode with rawMode := true }, { t.saved with rawMode := t.mode.rawMode }⟩
  ioCookedBang t := ⟨{ t.mode with rawMode := false }, { t.saved with rawMode := t.mode.rawMode }⟩
  ioRestoreTermios t := ⟨t.saved, t.saved⟩

/-- `io_echo_eq` of rp2040. -/
def ioEchoEq (flag : Bool) (t : Terminal Rp2040) : Terminal Rp2040 :=
  ⟨{ t.mode with echoMode := !flag }, { t.saved with echoMode := t.mode.echoMode }⟩

/-! ## Reading -/

inductive Failure where
  | interrupt
  | signalException
  | other
deriving DecidableEq, Repr

/-- The loop of `read_nonblock`; `chars` is what `hal_getchar` returns, one after the other. -/
def readChars : Nat → List Int → Except Failure (List Int)
  | 0, _ => .ok []
  | _ + 1, [] => .ok []
  | maxlen + 1, c :: chars =>
    if c = 3 then .error .interrupt
    else if c = 26 then .error .signalException
    else if c < 0 then .ok []
    else (readChars maxlen chars).map (c :: ·)

variable {M : Type} (p : Port M)

/-- `IO#read_nonblock`: nil, or the characters up to the first NUL. An exception leaves the function at once. -/
def readNonblock (maxlen : Nat) (chars : List Int) (t : Terminal M) :
    Except Failure (Option (List Int)) × Terminal M :=
  let t := p.ioRawBang true t
  match readChars maxlen chars with
  | .error e => (.error e, t)
  | .ok buf => (.ok (if buf.length < 1 then none else some (buf.takeWhile (· ≠ 0))), p.ioRestoreTermios t)

/-! ## Blocks -/

inductive Kind where
  | raw
  | cooked
deriving DecidableEq, Repr

/-- `raw!` and `cooked!`. -/
def enter : Kind → Terminal M → Terminal M
  | .raw => p.ioRawBang false
  | .cooked => p.ioCookedBang

/-- `IO#raw` and `IO#cooked` around a block, which gives its exception, if there is one, and the terminal. The
`return` in the `ensure` clause gives up the exception. -/
def ioBlock (k : Kind) (block : Terminal M → Option Failure × Terminal M) (t : Terminal M) :
    Option Failure × Terminal M :=
  let (_, t) := block (enter p k t)
  (none, p.ioRestoreTermios t)

/-- What is executed, in order. -/
inductive Program where
  | done
  | raise (e : Failure)
  | read (maxlen : Nat) (chars : List Int) (next : Program)
  /-- `raw { body }` or `cooked { body }` -/
  | block (k : Kind) (body next : Program)
  /-- `begin body rescue end` -/
  | rescue (body next : Program)
deriving DecidableEq, Repr

def execute : Program → Terminal M → Option Failure × Terminal M
  | .done, t => (none, t)
  | .raise e, t => (some e, t)
  | .read maxlen chars next, t =>
    match readNonblock p maxlen chars t with
    | (.error e, t) => (some e, t)
    | (.ok _, t) => execute next t
  | .block k body next, t =>
    match ioBlock p k (execute body) t with
    | (some e, t) => (some e, t)
    | (none, t) => execute next t
  | .rescue body next, t => execute next (execute body t).2

end PicoRuby.Console
