import PicoRuby.Shared.Objects
import PicoRuby.Shared.RubyArray

/-!
# The buffer of the editor

`Editor::Buffer` with the objects that it is among. A method that raises is `none`; it does so before it
has changed anything.
-/

namespace PicoRuby.Editor

open Shared

set_option autoImplicit false

/-- The characters of a Ruby String. -/
abbrev Text := List Char

/-- What `Buffer#put` is given. -/
inductive Key where
  | string (c : Text)
  | tab
  | enter
  | bspace
  | down
  | up
  | right
  | left
  | home
deriving DecidableEq, Repr

structure Buffer where
  objects : Objects
  lines : Nat
  cursorX : Nat
  cursorY : Int
  changed : Bool
deriving DecidableEq, Repr

/-- `str[start, length]`. -/
def slice (s : Text) (start length : Nat) : Option Text :=
  if start ≤ s.length then some ((s.drop start).take length) else none

/-- `@lines[i] = line` for a line that there is. -/
def linesSet (l : List Nat) (i : Int) (line : Nat) : List Nat :=
  match placeOf l.length i with
  | some i => l.set i line
  | none => l

/-- `@lines.insert(i, line)`; there is no `i` behind the end. -/
def linesInsert (l : List Nat) (i : Int) (line : Nat) : List Nat :=
  match placeOf (l.length + 1) i with
  | some i => l.insertIdx i line
  | none => l

/-- What is left by `@lines.delete_at(i)`. -/
def linesDeleteAt (l : List Nat) (i : Int) : List Nat :=
  match placeOf l.length i with
  | some i => l.eraseIdx i
  | none => l

namespace Buffer

def array (b : Buffer) : List Nat := b.objects.array b.lines

/-- The lines as they read. -/
def texts (b : Buffer) : List Text := b.objects.texts b.lines

def currentLine (b : Buffer) : Option Nat := do
  let i ← placeOf b.array.length b.cursorY
  b.array[i]?

/-- `current_line.length`. -/
def currentLength (b : Buffer) : Option Nat := b.currentLine.map fun line => (b.objects.string line).length

/-- `current_char`; `some none` is `nil`. -/
def currentChar (b : Buffer) : Option (Option Char) :=
  b.currentLine.map fun line => (b.objects.string line)[b.cursorX]?

def home (b : Buffer) : Buffer := { b with cursorX := 0, cursorY := 0 }

def clear (b : Buffer) : Buffer :=
  let (line, objects) := b.objects.newString []
  let (lines, objects) := objects.newArray [line]
  home { b with objects, lines }

def head (b : Buffer) : Buffer := { b with cursorX := 0 }

def tail (b : Buffer) : Option Buffer := b.currentLength.map fun length => { b with cursorX := length }

def bottom (b : Buffer) : Buffer := { b with cursorY := b.array.length - 1 }

def up (b : Buffer) : Buffer := if 0 < b.cursorY then { b with cursorY := b.cursorY - 1 } else b

def down (b : Buffer) : Buffer :=
  if b.cursorY + 1 < b.array.length then { b with cursorY := b.cursorY + 1 } else b

/-- `tail if current_line.length < @cursor_x`. -/
def clamp (b : Buffer) : Option Buffer :=
  b.currentLength.map fun length => if length < b.cursorX then { b with cursorX := length } else b

/-- `0 < @cursor_x && 0 < current_line.length`. -/
def inLine (b : Buffer) : Option Bool :=
  if 0 < b.cursorX then b.currentLength.map fun length => decide (0 < length) else some false

def left (b : Buffer) : Option Buffer := do
  let inLine ← b.inLine
  if inLine then
    let b ← b.clamp
    some { b with cursorX := b.cursorX - 1 }
  else if 0 < b.cursorY then b.up.tail
  else some b

def right (b : Buffer) : Option Buffer := do
  let length ← b.currentLength
  if b.cursorX < length then some { b with cursorX := b.cursorX + 1 }
  else if b.cursorY + 1 < b.array.length then some b.down.head
  else some b

/-- `put` of a String. -/
def putString (b : Buffer) (c : Text) : Option Buffer := do
  let line ← b.currentLine
  let b ← b.clamp
  let line := b.objects.string line
  let line := (slice line 0 b.cursorX).getD [] ++ c ++ (slice line b.cursorX 65535).getD []
  let objects := b.objects.storeNew b.lines line (linesSet b.array b.cursorY)
  right { b with objects, changed := true }

/-- `put :ENTER` behind the clamp. -/
def enter (b : Buffer) (line : Text) : Buffer :=
  let newLine := slice line b.cursorX 65535
  let before := (slice line 0 b.cursorX).getD []
  let objects := b.objects.storeNew b.lines before (linesSet b.array b.cursorY)
  let b := { b with objects, changed := true }
  let b := match newLine with
    | none => b
    | some newLine =>
      { b with objects := b.objects.storeNew b.lines newLine (linesInsert b.array (b.cursorY + 1)) }
  b.head.down

/-- `put :BSPACE` behind the clamp. -/
def bspace (b : Buffer) (ref : Nat) : Option Buffer :=
  let line := b.objects.string ref
  let b := { b with changed := true }
  if 0 < b.cursorX then
    if line.length = b.cursorX then
      tail { b with objects := b.objects.setString ref line.dropLast }
    else left { b with objects := b.objects.setString ref (line.eraseIdx (b.cursorX - 1)) }
  else if 0 < b.cursorY then do
    let above ← currentLine { b with cursorY := b.cursorY - 1 }
    let above := b.objects.string above
    let objects := b.objects.storeNew b.lines (above ++ line) (linesSet b.array (b.cursorY - 1))
    let b := { b with objects, cursorX := above.length }
    some (up { b with objects := b.objects.setArray b.lines (linesDeleteAt b.array b.cursorY) })
  else some b

def put (b : Buffer) (c : Key) : Option Buffer := do
  let line ← b.currentLine
  match c with
  | .string c => b.putString c
  | c =>
    let b ← b.clamp
    match c with
    | .string _ => some b
    | .tab => do
      let b ← putString { b with changed := true } [' ']
      b.putString [' ']
    | .enter => some (b.enter (b.objects.string line))
    | .bspace => b.bspace line
    | .down => some b.down
    | .up => some b.up
    | .right => b.right
    | .left => b.left
    | .home => some b.home

/-- `delete`; behind the end of the line it raises. -/
def delete (b : Buffer) : Option Buffer := do
  let line ← b.currentLine
  let s := b.objects.string line
  if b.cursorX ≤ s.length then
    some { b with objects := b.objects.setString line (s.eraseIdx b.cursorX) }
  else none

/-- `delete_line`, with the line that it returns. -/
def deleteLine (b : Buffer) : Option Nat × Buffer :=
  (b.currentLine, { b with objects := b.objects.setArray b.lines (linesDeleteAt b.array b.cursorY) })

/-- `insert_line`. -/
def insertLine (b : Buffer) : Option Nat → Buffer
  | none => b
  | some line =>
    { b with objects := b.objects.setArray b.lines (linesInsert b.array b.cursorY line) }

/-- `initialize`, among objects that there are. -/
def new (objects : Objects) : Buffer := clear { objects, lines := 0, cursorX := 0, cursorY := 0, changed := false }

end Buffer

end PicoRuby.Editor

/-!
# A text with a cursor

A plain text editor: the lines above the cursor, what is before and after it in its line, and the lines
below. What is nearest to the cursor is first in each of the four.
-/

namespace PicoRuby.Editor

open Shared

set_option autoImplicit false

structure Document where
  above : List Text
  before : Text
  after : Text
  below : List Text
deriving DecidableEq, Repr

namespace Document

def line (d : Document) : Text := d.before.reverse ++ d.after

def lines (d : Document) : List Text := d.above.reverse ++ d.line :: d.below

def insert (d : Document) (s : Text) : Document := { d with before := s.reverse ++ d.before }

/-- The line is split at the cursor. -/
def split (d : Document) : Document := { d with above := d.before.reverse :: d.above, before := [] }

/-- The character before the cursor is deleted, or the line joined with the one above. -/
def erase (d : Document) : Document :=
  match d.before, d.above with
  | _ :: before, _ => { d with before }
  | [], line :: above => { d with above, before := line.reverse }
  | [], [] => d

def moveLeft (d : Document) : Document :=
  match d.before, d.above with
  | c :: before, _ => { d with before, after := c :: d.after }
  | [], line :: above => ⟨above, line.reverse, [], d.after :: d.below⟩
  | [], [] => d

def moveRight (d : Document) : Document :=
  match d.after, d.below with
  | c :: after, _ => { d with before := c :: d.before, after }
  | [], line :: below => ⟨d.before.reverse :: d.above, [], line, below⟩
  | [], [] => d

/-- The cursor goes to its column in another line, or to the end of that. -/
def goTo (above : List Text) (column : Nat) (line : Text) (below : List Text) : Document :=
  ⟨above, (line.take column).reverse, line.drop column, below⟩

def moveUp (d : Document) : Document :=
  match d.above with
  | line :: above => goTo above d.before.length line (d.line :: d.below)
  | [] => d

def moveDown (d : Document) : Document :=
  match d.below with
  | line :: below => goTo (d.line :: d.above) d.before.length line below
  | [] => d

def home (d : Document) : Document :=
  match d.lines with
  | line :: below => ⟨[], [], line, below⟩
  | [] => d

def edit (d : Document) : Key → Document
  | .string c => d.insert c
  | .tab => d.insert [' ', ' ']
  | .enter => d.split
  | .bspace => d.erase
  | .down => d.moveDown
  | .up => d.moveUp
  | .right => d.moveRight
  | .left => d.moveLeft
  | .home => d.home

def edits (d : Document) (keys : List Key) : Document := keys.foldl edit d

end Document

/-! ## Buffers that show a document -/

/-- The lines are those of the document, and the cursor is at its place. -/
structure At (b : Buffer) (d : Document) : Prop where
  texts : b.texts = d.lines
  row : b.cursorY = d.above.length
  column : b.cursorX = d.before.length

/-- The column may be behind the end of the line. -/
structure Shows (b : Buffer) (d : Document) : Prop where
  texts : b.texts = d.lines
  row : b.cursorY = d.above.length
  column : min b.cursorX d.line.length = d.before.length

end PicoRuby.Editor
