import Mathlib.Algebra.Group.Int.Defs
import Mathlib.Algebra.GroupWithZero.Nat
import PicoRuby.Shared.Results

/-!
# picoruby-shinonome

`array_of_shinonome`: a text is decoded, its characters are looked up in the tables of a font, and their glyphs are
scaled. The tables are generated when the gem is built. From the first access outside of the text or of a table on,
nothing is known.
-/

namespace PicoRuby.Shinonome

open Shared

set_option autoImplicit false

abbrev Bytes := List UInt8

inductive Fault where
  | behindNul
  | ascii (index : Int)
  | row (index : Int)
  | cell (index : Int)
deriving DecidableEq, Repr

/-- How a call ends without a result. -/
inductive Stop where
  | fault (fault : Fault)
  | argumentError (message : String)
deriving DecidableEq, Repr

/-! ## The text -/

/-- `s[i]`, in what is left of the text. Its NUL can be read too. -/
def byteAt (s : Bytes) (i : Nat) : Except Stop UInt8 :=
  match s[i]? with
  | some c => .ok c
  | none => if i = s.length then .ok 0 else .error (.fault .behindNul)

/-- `*p += n`. -/
def move (s : Bytes) (n : Nat) : Except Stop Bytes :=
  if n ≤ s.length then .ok (s.drop n) else .error (.fault .behindNul)

/-- `utf8_to_unicode`. -/
def utf8ToUnicode (s : Bytes) : Except Stop (Nat × Bytes) := do
  let s0 ← byteAt s 0
  if s0 < 0x80 then
    return (s0.toNat, ← move s 1)
  else if s0 &&& 0xE0 = 0xC0 then
    let s1 ← byteAt s 1
    return (((s0 &&& 0x1F).toNat <<< 6) ||| (s1 &&& 0x3F).toNat, ← move s 2)
  else if s0 &&& 0xF0 = 0xE0 then
    let s1 ← byteAt s 1
    let s2 ← byteAt s 2
    return (((s0 &&& 0x0F).toNat <<< 12) ||| ((s1 &&& 0x3F).toNat <<< 6) ||| (s2 &&& 0x3F).toNat, ← move s 3)
  else
    return (0xFFFD, ← move s 1)

/-! ## The tables -/

structure Entry where
  unicode : Nat
  jis : Nat
deriving DecidableEq, Repr

/-- The row and the cell of a code are in the tables. -/
def Placed (jis : Nat) : Prop := (0x21 ≤ jis / 256 ∧ jis / 256 ≤ 0x7E) ∧ 0x21 ≤ jis % 256 ∧ jis % 256 ≤ 0x7E

/-- The characters of JIS X 0208, as `Unicode2JIS.make` writes them. -/
structure Unicode2jis where
  entries : List Entry
  sorted : entries.Pairwise fun e e' => e.unicode < e'.unicode
  placed : ∀ e ∈ entries, Placed e.jis

/-- `unicode2jis`; the last entry is `{0, 0}`. -/
def Unicode2jis.array (t : Unicode2jis) : List Entry := t.entries ++ [⟨0, 0⟩]

/-- The loop of `unicode_to_jis`. -/
def search (array : List Entry) (unicode : Nat) (left right : Int) : Nat :=
  if left ≤ right then
    let mid := (left + right) / 2
    let entry := array.getD mid.toNat ⟨0, 0⟩
    if entry.unicode = unicode then entry.jis
    else if entry.unicode < unicode then search array unicode (mid + 1) right
    else search array unicode left (mid - 1)
  else 0
termination_by (right + 1 - left).toNat
decreasing_by all_goals omega

def unicodeToJis (t : Unicode2jis) (unicode : Nat) : Nat := search t.array unicode 0 (t.array.length - 1)

inductive Size where
  | dots12
  | dots16
deriving DecidableEq, Repr

namespace Size

def dots : Size → Nat
  | dots12 => 12
  | dots16 => 16

/-- The bytes of a glyph of half width, and of one of full width. -/
def asciiBytes : Size → Nat
  | dots12 => 9
  | dots16 => 16

def jisBytes : Size → Nat
  | dots12 => 18
  | dots16 => 32

end Size

/-- The tables of a font cover 0x20..0x7E, and the rows and cells 0x21..0x7E. -/
structure Font (size : Size) where
  ascii : Bytes
  jis208 : List Bytes
  ascii_length : ascii.length = 95 * size.asciiBytes
  jis208_length : jis208.length = 94
  row_length : ∀ row ∈ jis208, row.length = 94 * size.jisBytes

/-- A font in which no dot is set. -/
def blankFont (size : Size) : Font size where
  ascii := List.replicate (95 * size.asciiBytes) 0
  jis208 := List.replicate 94 (List.replicate (94 * size.jisBytes) 0)
  ascii_length := List.length_replicate
  jis208_length := List.length_replicate
  row_length _ h := (List.eq_of_mem_replicate h).symm ▸ List.length_replicate

/-- The table with one character. -/
def hiraganaA : Unicode2jis where
  entries := [⟨0x3042, 0x2422⟩]
  sorted := List.pairwise_singleton _ _
  placed := by simp [Placed]

/-! ## Glyphs -/

/-- `lines`: the width, and the rows of dots. -/
structure Glyph where
  width : Nat
  rows : List (BitVec 64)
deriving DecidableEq

/-- `table[index]`. -/
def access {α : Type} (fault : Int → Fault) (table : List α) (index : Int) : Except Stop α :=
  if index < 0 then .error (.fault (fault index))
  else
    match table[index.toNat]? with
    | some a => .ok a
    | none => .error (.fault (fault index))

/-- The `n` bytes from an index on. -/
def glyphData (fault : Int → Fault) (table : Bytes) (index : Int) (n : Nat) : Except Stop Bytes :=
  (List.range n).mapM fun (i : Nat) => access fault table (index + i)

section Rows
variable (data : Bytes)

/-- `data[i]`, as it is used in an expression. -/
def word (i : Nat) : BitVec 64 := BitVec.ofNat 64 (data.getD i 0).toNat

def asciiRows : Size → List (BitVec 64)
  | .dots12 => (List.range 3).flatMap fun i =>
    [word data (i * 3) >>> 2,
      ((word data (i * 3) &&& 0x3) <<< 4) ||| (word data (i * 3 + 1) >>> 4),
      ((word data (i * 3 + 1) &&& 0xF) <<< 2) ||| (word data (i * 3 + 2) >>> 6),
      word data (i * 3 + 2) &&& 0x3F]
  | .dots16 => (List.range 16).map (word data)

def jisRows : Size → List (BitVec 64)
  | .dots12 => (List.range 6).flatMap fun i =>
    [(word data (i * 3) <<< 4) ||| (word data (i * 3 + 1) >>> 4),
      ((word data (i * 3 + 1) &&& 0xF) <<< 8) ||| word data (i * 3 + 2)]
  | .dots16 => (List.range 16).map fun i => (word data (i * 2) <<< 8) ||| word data (i * 2 + 1)

end Rows

variable {size : Size} (t : Unicode2jis) (font : Font size)

/-- `array_of_shinonome_sub`; false is `none`. -/
def arrayOfShinonomeSub (s : Bytes) : Except Stop (Option Glyph × Bytes) := do
  let (c, s) ← utf8ToUnicode s
  if c < 0x80 then
    -- `c` is unsigned: the index wraps below 0x20
    let data ← glyphData .ascii font.ascii (((c : Int) - 0x20) * size.asciiBytes % 2 ^ 32) size.asciiBytes
    return (some ⟨size.dots / 2, asciiRows data size⟩, s)
  else if c < 0x10000 then
    let jiscode := unicodeToJis t c
    let firstByte := (jiscode >>> 8) % 256
    let secondByte := jiscode &&& 0xFF
    let table ← access .row font.jis208 ((firstByte : Int) - 0x21)
    let data ← glyphData .cell table (((secondByte : Int) - 0x21) * size.jisBytes) size.jisBytes
    return (some ⟨size.dots, jisRows data size⟩, s)
  else
    return (none, s)

/-! ## Scaling -/

/-- A round of `expand_bits`. -/
def expandBit (src : BitVec 64) (bitCount scale : Nat) (dst : BitVec 64) (i : Nat) : BitVec 64 :=
  let bit := (src >>> (bitCount - 1 - i)) &&& 1
  let dst := dst <<< scale
  if bit ≠ 0 then dst ||| BitVec.ofNat 64 ((1 <<< scale) - 1) else dst

def expandBits (src : BitVec 64) (bitCount scale : Nat) : BitVec 64 :=
  (List.range bitCount).foldl (expandBit src bitCount scale) 0

/-- `GET_BIT`. -/
def getBit (row : BitVec 64) (x w : Nat) : Bool := (row >>> (w - 1 - x)) &&& 1 != 0

/-- `SET_BIT`. -/
def setBit (row : BitVec 64) (x w : Nat) : BitVec 64 := row ||| ((1 : BitVec 64) <<< (w - 1 - x))

/-- The condition of `smooth_edges`. -/
def isDiagonal (input : List (BitVec 64)) (w y x : Nat) : Bool :=
  let a := getBit (input.getD y 0) x w
  let b := getBit (input.getD y 0) (x + 1) w
  let c := getBit (input.getD (y + 1) 0) x w
  let d := getBit (input.getD (y + 1) 0) (x + 1) w
  (a && d && !b && !c) || (b && c && !a && !d)

def smoothAt (input : List (BitVec 64)) (w y : Nat) (tmp : List (BitVec 64)) (x : Nat) : List (BitVec 64) :=
  if isDiagonal input w y x then tmp.modify (y + 1) fun row => setBit row (x + 1) w else tmp

def smoothEdges (input : List (BitVec 64)) (w h : Nat) : List (BitVec 64) :=
  (List.range (h - 1)).foldl (fun tmp y => (List.range (w - 1)).foldl (smoothAt input w y) tmp) input

/-- `output` before it is smoothed. -/
def lines (size scale : Nat) (g : Glyph) : List (BitVec 64) :=
  (g.rows.map fun row => expandBits row size scale).flatMap (List.replicate scale)

/-- `output`, for a scale above 1. -/
def output (size scale : Nat) (g : Glyph) : List (BitVec 64) :=
  smoothEdges (lines size scale g) (g.width * scale) (size * scale)

/-- What is pushed to `widths` for a glyph. -/
def pieceWidths (scale : Nat) (g : Glyph) : List Nat :=
  if 32 < g.width * scale then [g.width * scale - 32, 32] else [g.width * scale]

/-- What is pushed to `glyphs`: `ch`, and `ch2` behind it. -/
def pieceRows (size scale : Nat) (g : Glyph) : List (List Nat) :=
  let output := output size scale g
  let low := output.map fun row => (row.setWidth 32).toNat
  if scale = 1 then [g.rows.map BitVec.toNat]
  else if 32 < g.width * scale then [output.map fun row => ((row >>> 32).setWidth 32).toNat, low]
  else [low]

structure Result where
  height : Nat
  totalWidth : Nat
  widths : List Nat
  glyphs : List (List Nat)
deriving DecidableEq, Repr

/-- A round of the loop of `array_of_shinonome`, once the glyph is there. -/
def Result.push (size scale : Nat) (r : Result) (g : Glyph) : Result :=
  { r with
    totalWidth := r.totalWidth + g.width * scale
    widths := r.widths ++ pieceWidths scale g
    glyphs := r.glyphs ++ pieceRows size scale g }

theorem move_length {s rest : Bytes} {n : Nat} (h : move s n = .ok rest) : rest.length + n = s.length := by
  unfold move at h
  split at h
  · cases h
    rw [List.length_drop]
    omega
  · cases h

/-- What is left gets shorter. -/
theorem utf8ToUnicode_length {s rest : Bytes} {c : Nat} (h : utf8ToUnicode s = .ok (c, rest)) :
    rest.length < s.length := by
  have hmove {n c' : Nat} (hn : 0 < n) (h : (move s n >>= fun rest => pure (c', rest)) = .ok (c, rest)) :
      rest.length < s.length := by
    obtain ⟨rest', hrest, h⟩ := bind_eq_ok.mp h
    cases h
    have hlen := move_length hrest
    omega
  unfold utf8ToUnicode at h
  obtain ⟨s0, -, h⟩ := bind_eq_ok.mp h
  split at h
  · exact hmove Nat.one_pos h
  · split at h
    · obtain ⟨s1, -, h⟩ := bind_eq_ok.mp h
      exact hmove Nat.two_pos h
    · split at h
      · obtain ⟨s1, -, h⟩ := bind_eq_ok.mp h
        obtain ⟨s2, -, h⟩ := bind_eq_ok.mp h
        exact hmove (by decide) h
      · exact hmove Nat.one_pos h

theorem arrayOfShinonomeSub_length {s rest : Bytes} {g : Option Glyph}
    (h : arrayOfShinonomeSub t font s = .ok (g, rest)) : rest.length < s.length := by
  unfold arrayOfShinonomeSub at h
  obtain ⟨⟨c, s'⟩, hdecode, h⟩ := bind_eq_ok.mp h
  have hlt := utf8ToUnicode_length hdecode
  dsimp only at h
  split at h
  · obtain ⟨data, -, h⟩ := bind_eq_ok.mp h
    cases h
    exact hlt
  · split at h
    · obtain ⟨row, -, h⟩ := bind_eq_ok.mp h
      obtain ⟨data, -, h⟩ := bind_eq_ok.mp h
      cases h
      exact hlt
    · cases h
      exact hlt

/-! ## The call -/

/-- `while (*p)`. -/
def glyphLoop (scale : Nat) (s : Bytes) (r : Result) : Except Stop Result :=
  if s = [] then .ok r
  else
    match _h : arrayOfShinonomeSub t font s with
    | .error e => .error e
    | .ok (none, _) => .error (.argumentError "Invalid unicode")
    | .ok (some g, rest) => glyphLoop scale rest (r.push size.dots scale g)
termination_by s.length
decreasing_by exact arrayOfShinonomeSub_length t font _h

/-- `array_of_shinonome`. A text with a NUL in it is not taken for an argument. -/
def arrayOfShinonome (text : Bytes) (scale : Int) : Except Stop Result :=
  if 0 ∈ text then .error (.argumentError "string contains null byte")
  else if scale < 1 ∨ 4 < scale then .error (.argumentError "Invalid scale. Expect 1..4")
  else glyphLoop t font scale.toNat text ⟨size.dots * scale.toNat, 0, [], []⟩

end PicoRuby.Shinonome
