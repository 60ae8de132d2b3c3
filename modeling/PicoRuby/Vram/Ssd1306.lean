import Mathlib.Data.List.GetD
import PicoRuby.Vram.Dirty
import PicoRuby.Vram.Refinement

/-!
# SSD1306

The driver of a display with a VRAM of its own: what it draws goes to the VRAM, and an update sends pages over I2C.
The display is not here: `Panel` stands for what it makes of the bytes that it is sent.
-/

namespace PicoRuby.Vram

set_option autoImplicit false

/-! ## The panel -/

/-- A display behind an I2C address: a write is one transaction, and it shows bytes by page and column. -/
structure Panel where
  State : Type
  write : State → List UInt8 → State
  cell : State → Nat → Nat → UInt8

/-- `init_display`. -/
def initCommands (h : Nat) : List UInt8 :=
  [0x00, 0xAE, 0xD5, 0x80, 0xA8, UInt8.ofNat (h - 1), 0xD3, 0x00, 0x40, 0x8D, 0x14, 0x20, 0x00, 0xA1, 0xC8, 0xDA, 0x12,
    0x81, 0xCF, 0xD9, 0xF1, 0xDB, 0x40, 0xA4, 0xA6, 0xAF]

/-- `COLUMNADDR` for the whole width and `PAGEADDR`. -/
def addressCommands (w first last : Nat) : List (List UInt8) :=
  [[0x00, 0x21, 0, UInt8.ofNat (w - 1)], [0x00, 0x22, UInt8.ofNat first, UInt8.ofNat last]]

/-- The transactions that write the pages from `first` to `last`. -/
def pageWrites (w first last : Nat) (rows : List (List UInt8)) : List (List UInt8) :=
  addressCommands w first last ++ rows.map (0x40 :: ·)

namespace Panel

/-- A pixel that the panel shows. -/
def pixel (p : Panel) (s : p.State) (x y : Nat) : UInt8 := (p.cell s (y / 8) x >>> UInt8.ofInt ((y : Int) % 8)) &&& 1

end Panel

/-! ## ssd1306.rb -/

inductive SsdCall where
  | clear
  | erase (x y w h : Int)
  | fillScreen (pattern : Int)
  | setPixel (x y color : Int)
  | drawLine (x0 y0 x1 y1 color : Int)
  | drawRect (x y w h color : Int) (fill : Bool)
  | drawBitmap (x y w h : Int) (data : List (Option Int))
  | drawBytes (x y w h : Int) (data : List UInt8)
  | updateDisplay
  | updateDisplayOptimized
deriving DecidableEq, Repr

namespace SsdCall

/-- What a method draws on the VRAM of a display of this size. -/
def draws (width height : Nat) : SsdCall → List DrawCall
  | clear => [.fill 0x00]
  | erase x y w h =>
    if x < 0 ∨ y < 0 ∨ w ≤ 0 ∨ h ≤ 0 then []
    else if width ≤ x ∨ height ≤ y then []
    else [.erase x y (min (width - x) w) (min (height - y) h)]
  | fillScreen pattern => [.fill pattern]
  | setPixel x y color => if x < 0 ∨ width ≤ x ∨ y < 0 ∨ height ≤ y then [] else [.setPixel x y color]
  | drawLine x0 y0 x1 y1 color => [.drawLine x0 y0 x1 y1 color]
  | drawRect x y w h color fill =>
    if fill then [.drawRect x y w h color]
    else
      [.drawLine x y (x + w - 1) y color, .drawLine x (y + h - 1) (x + w - 1) (y + h - 1) color,
        .drawLine x y x (y + h - 1) color, .drawLine (x + w - 1) y (x + w - 1) (y + h - 1) color]
  | drawBitmap x y w h data => [.drawBitmap x y w h data]
  | drawBytes x y w h data => [.drawBytes x y w h data]
  | updateDisplay | updateDisplayOptimized => []

/-- Whether a method sends all pages, or the dirty ones. -/
inductive Update where
  | none
  | all
  | dirty
deriving DecidableEq, Repr

def update : SsdCall → Update
  | clear | fillScreen _ | updateDisplay => .all
  | updateDisplayOptimized => .dirty
  | _ => .none

end SsdCall

structure Ssd1306 (p : Panel) where
  width : Nat
  height : Nat
  pages : Nat
  vram : Display
  panel : p.State

namespace Ssd1306
variable {p : Panel}

/-- `SSD1306#update_display`. -/
def updateDisplay (d : Ssd1306 p) : Ssd1306 p :=
  let (entries, vram) := Vram.pages d.vram true
  { d with
    vram
    panel := (pageWrites d.width 0 (d.pages - 1) (entries.map PageEntry.data)).foldl p.write d.panel }

/-- `SSD1306#update_display_optimized`. -/
def updateDisplayOptimized (d : Ssd1306 p) : Ssd1306 p :=
  let (entries, vram) := dirtyPages d.vram true
  { d with
    vram
    panel := entries.foldl (fun panel entry =>
      (pageWrites d.width entry.row entry.row [entry.data]).foldl p.write panel) d.panel }

/-- A method of the driver; `none` if a loop does not end. -/
def call (d : Ssd1306 p) (c : SsdCall) : Option (Ssd1306 p) := do
  let vram ← draw surface d.vram (c.draws d.width d.height)
  let d := { d with vram }
  match c.update with
  | .none => return d
  | .all => return d.updateDisplay
  | .dirty => return d.updateDisplayOptimized

/-- `SSD1306.new`. -/
def new (panel : p.State) (w h : Nat) : Option (Ssd1306 p) :=
  let d : Ssd1306 p :=
    { width := w, height := h, pages := h / 8, vram := newVram w h 1 (h / 8), panel := p.write panel (initCommands h) }
  d.call .clear

def run (d : Ssd1306 p) (calls : List SsdCall) : Option (Ssd1306 p) := calls.foldlM call d

end Ssd1306

/-! ## What should be seen -/

/-- A drawing, and what was seen of it at the last update. -/
structure Picture where
  bits : Bitmap
  seen : Bitmap

namespace Picture

def call (width height : Nat) (s : Picture) (c : SsdCall) : Option Picture := do
  let bits ← draw (flatSurface width height) s.bits (c.draws width height)
  match c.update with
  | .none => return { s with bits }
  | _ => return ⟨bits, bits⟩

def run (width height : Nat) (s : Picture) (calls : List SsdCall) : Option Picture := calls.foldlM (call width height) s

def blank : Picture := ⟨fun _ _ => false, fun _ _ => false⟩

end Picture

/-! ## Pages of the whole width -/

namespace Panel
variable (p : Panel)

/-- What the panel shows, by the columns and rows of the pages. -/
def screen (w pages : Nat) (s : p.State) : Screen :=
  fun place => if place.1 = 0 ∧ place.2 < pages then some ((List.range w).map (p.cell s place.2)) else none

end Panel

section Frames
variable {w pages : Nat} {disp : Display} {bits : Bitmap} {i : Nat} {page : Page}

end Frames

/-! ## Updates -/

section Updates
variable {p : Panel} {w pages : Nat} {Ready : p.State → Prop} {s : p.State}

/-- The columns of the panel from some bytes of the whole width. -/
theorem map_getD_range {data : List UInt8} (hlength : data.length = w) :
    ((List.range w).map fun col => data.getD col 0) = data := by
  apply List.ext_getElem
  · rw [List.length_map, List.length_range, hlength]
  · intro i hi hi'
    rw [List.getElem_map, List.getElem_range, List.getD_eq_getElem _ _ hi']

end Updates

/-! ## Runs -/

section Runs
variable {p : Panel} {w pages : Nat} {Ready : p.State → Prop} {d : Ssd1306 p} {bits : Bitmap}

end Runs

/-! ## A panel of two columns -/

/-- A display controller in the horizontal addressing mode. -/
structure Chip where
  ram : Nat → Nat → UInt8
  mode : UInt8
  columnStart : Nat
  columnEnd : Nat
  pageStart : Nat
  pageEnd : Nat
  column : Nat
  page : Nat

namespace Chip

def commands : List UInt8 → Chip → Chip
  | [], s => s
  | [_], s => s
  | c :: a :: rest, s =>
    if c = 0x20 then commands rest { s with mode := a }
    else if c = 0x21 then
      match rest with
      | b :: rest => commands rest { s with columnStart := a.toNat, columnEnd := b.toNat, column := a.toNat }
      | [] => s
    else if c = 0x22 then
      match rest with
      | b :: rest => commands rest { s with pageStart := a.toNat, pageEnd := b.toNat, page := a.toNat }
      | [] => s
    else if c ∈ [0xD5, 0xA8, 0xD3, 0x8D, 0xDA, 0x81, 0xD9, 0xDB] then commands rest s
    else commands (a :: rest) s

def put (s : Chip) (data : UInt8) : Chip :=
  let ram := fun page col => if page = s.page ∧ col = s.column then data else s.ram page col
  if s.column = s.columnEnd then
    { s with ram, column := s.columnStart, page := if s.page = s.pageEnd then s.pageStart else s.page + 1 }
  else { s with ram, column := s.column + 1 }

def write (s : Chip) : List UInt8 → Chip
  | 0x00 :: bytes => commands bytes s
  | 0x40 :: data => if s.mode = 0 then data.foldl put s else s
  | _ => s

end Chip

end PicoRuby.Vram
