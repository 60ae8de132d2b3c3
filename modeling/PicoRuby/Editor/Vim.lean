import PicoRuby.Editor.Validity

/-!
# Vim

The key commands of vim.rb with the buffer they are for. What is drawn, and the messages, are left out. The
objects of the command buffer are apart from those of the buffer.
-/

namespace PicoRuby.Editor

open Shared

set_option autoImplicit false

inductive Mode where
  | normal
  | command
  | insert
  | cut
deriving DecidableEq, Repr

/-- A key, what `read_nonblock(2)` gives behind an escape, and whether a file can be written now. -/
structure Input where
  c : Nat
  rest : Option Text
  writable : Bool
deriving DecidableEq, Repr

/-- `saved` are the lines that were last loaded or saved; `filepath` is as it was given. -/
structure Vim where
  mode : Mode
  buffer : Buffer
  commandBuffer : Buffer
  pasteBoard : Option Nat
  filepath : Option Text
  saved : List Text
  running : Bool
deriving DecidableEq, Repr

/-- `String#split(" ")`. -/
def splitBlank : Text → Text → List Text
  | [], word => if word.isEmpty then [] else [word.reverse]
  | c :: s, word =>
    if c.isWhitespace then
      if word.isEmpty then splitBlank s [] else word.reverse :: splitBlank s []
    else splitBlank s (c :: word)

/-- `Integer#chr`. -/
def chr (c : Nat) : Text := [Char.ofNat c]

namespace Buffer

/-- `lines[0]`. -/
def first (b : Buffer) : Text := b.texts.headD []

/-- `lines[0] = s`. -/
def setFirst (b : Buffer) (s : Text) : Buffer :=
  { b with objects := b.objects.storeNew b.lines s (linesSet b.array 0) }

/-- The loop of `I`, of `rounds` rounds at most; it ends within the line. -/
def skipBlanks : Nat → Buffer → Option Buffer
  | 0, b => some b
  | rounds + 1, b => do
    let c ← b.currentChar
    if c = some ' ' then
      let b ← b.put .right
      skipBlanks rounds b
    else some b

end Buffer

namespace Vim

/-- `Vim#initialize`, with what is in the file if it is there. -/
def start (filepath : Option Text) (content : Option Text) : Vim :=
  let buffer := match filepath, content with
    | some _, some content => (Buffer.new ⟨[], []⟩).loadFile content
    | _, _ => Buffer.new ⟨[], []⟩
  { mode := .normal, buffer, commandBuffer := Buffer.new ⟨[], []⟩, pasteBoard := none, filepath
    saved := buffer.texts, running := true }

/-- `put` in the buffer; what raises leaves it as it is. -/
def put (s : Vim) (key : Key) : Vim := { s with buffer := (s.buffer.put key).getD s.buffer }

def putCommand (s : Vim) (key : Key) : Vim :=
  { s with commandBuffer := (s.commandBuffer.put key).getD s.commandBuffer }

def setCommand (s : Vim) (text : String) : Vim := { s with commandBuffer := s.commandBuffer.setFirst text.toList }

def clearCommandBuffer (s : Vim) : Vim := { s with commandBuffer := s.commandBuffer.clear }

/-- `save_file`. -/
def saveFile (s : Vim) (writable : Bool) : Vim :=
  match s.filepath with
  | none => s
  | some _ =>
    if writable then { s with buffer := { s.buffer with changed := false }, saved := s.buffer.texts } else s

/-- `exec_command`; the editor stops running on `:quit`. -/
def execCommand (s : Vim) (params : List Text) (writable : Bool) : Vim :=
  match params with
  | [command] =>
    if command = ":q".toList then if s.buffer.changed then s else { s with running := false }
    else if command = ":q!".toList then { s with running := false }
    else if command = ":w".toList then s.saveFile writable
    else if command = ":wq".toList then { s.saveFile writable with running := false }
    else s
  | [command, filepath] =>
    if command = ":w".toList then saveFile { s with filepath := some filepath } writable else s
  | _ => s

/-- `A`, `I`, `a`, `i` and `o`. -/
def enterInsert (s : Vim) (c : Nat) : Vim :=
  let (moved, buffer) : Bool × Buffer := match c with
    | 65 => (s.buffer.tail.isSome, s.buffer.tail.getD s.buffer)
    | 73 =>
      let head := s.buffer.head
      let skipped := head.skipBlanks ((head.currentLength.getD 0) + 1)
      (skipped.isSome, skipped.getD head)
    | 97 => ((s.buffer.put .right).isSome, (s.buffer.put .right).getD s.buffer)
    | 111 =>
      match s.buffer.tail with
      | none => (false, s.buffer)
      | some tail => ((tail.put .enter).isSome, (tail.put .enter).getD tail)
    | _ => (true, s.buffer)
  let s := { s with buffer }
  if moved then setCommand { s with mode := .insert } "Insert" else s

/-- `p`. -/
def paste (s : Vim) : Vim :=
  match s.pasteBoard with
  | none => s
  | some line =>
    match s.buffer.put .down with
    | none => s
    | some buffer => { s with buffer := buffer.insertLine (some line) }

/-- An arrow behind an escape. -/
def arrow : Option Text → Option Key
  | some ['[', 'A'] => some .up
  | some ['[', 'B'] => some .down
  | some ['[', 'C'] => some .right
  | some ['[', 'D'] => some .left
  | _ => none

def normal (s : Vim) (input : Input) : Vim :=
  match input.c with
  | 3 => s.setCommand "Type  :q  and press <Enter> to exit"
  | 27 =>
    match arrow input.rest with
    | some key => s.put key
    | none => s
  | 58 | 59 => putCommand { s with mode := .command } (.string [':'])
  | 65 | 73 | 97 | 105 | 111 => s.enterInsert input.c
  | 106 => s.put .down
  | 107 => s.put .up
  | 108 => s.put .right
  | 100 => setCommand { s with mode := .cut } "d"
  | 104 => s.put .left
  | 112 => s.paste
  | 120 => { s with buffer := s.buffer.delete.getD s.buffer }
  | _ => s

def command (s : Vim) (input : Input) : Vim :=
  match input.c with
  | 10 | 13 =>
    let s := s.execCommand (splitBlank s.commandBuffer.first []) input.writable
    if s.running then { s.clearCommandBuffer with mode := .normal } else s
  | 27 =>
    match input.rest with
    | some ['[', 'C'] => s.putCommand .right
    | some ['[', 'D'] => s.putCommand .left
    | none | some [] => { s.clearCommandBuffer with mode := .normal }
    | _ => s
  | 8 | 127 =>
    let s := s.putCommand .bspace
    if s.commandBuffer.first = [] then { s with mode := .normal } else s
  | c => if 32 ≤ c ∧ c ≤ 126 then s.putCommand (.string (chr c)) else s

def insert (s : Vim) (input : Input) : Vim :=
  match input.c with
  | 27 =>
    match arrow input.rest with
    | some key => s.put key
    | none =>
      match input.rest with
      | none | some [] =>
        let s := { s.clearCommandBuffer with mode := .normal }
        if 0 < s.buffer.cursorX then s.put .left else s
      | _ => s
  | 8 | 127 => s.put .bspace
  | 9 => s.put .tab
  | 10 | 13 => s.put .enter
  | c => if 32 ≤ c ∧ c ≤ 126 then s.put (.string (chr c)) else s

def cut (s : Vim) (input : Input) : Vim :=
  let s :=
    if input.c = 100 then { s with pasteBoard := s.buffer.deleteLine.1, buffer := s.buffer.deleteLine.2 } else s
  clearCommandBuffer { s with mode := .normal }

/-- A round of `Screen#start` with the block of `_start`. -/
def step (s : Vim) (input : Input) : Vim :=
  if !s.running then s
  else if input.c = 4 then { s with running := false }
  else if input.c = 12 then s
  else
    match s.mode with
    | .normal => s.normal input
    | .command => s.command input
    | .insert => s.insert input
    | .cut => s.cut input

def run (s : Vim) (inputs : List Input) : Vim := inputs.foldl step s

end Vim

end PicoRuby.Editor
