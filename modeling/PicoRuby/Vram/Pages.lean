import PicoRuby.Vram.Drawing
import PicoRuby.Shared.Placing

/-!
# The pages of a VRAM

vram.c keeps the pixels in pages, eight pixels of a column in a byte, and a VRAM is drawn on through
the first page that a pixel is in.
-/

namespace PicoRuby.Vram

open Shared

set_option autoImplicit false

/-- `display_page_t` with the format that there is, `PIXEL_FORMAT_MONO`. -/
structure Page where
  x : Nat
  y : Nat
  w : Nat
  h : Nat
  buffer : List UInt8
  dirty : Bool
deriving DecidableEq, Repr

namespace Page

/-- `mono_page_set_pixel`. -/
def setPixel (page : Page) (x y : Int) (color : UInt32) : Page :=
  if x < 0 ∨ page.w ≤ x ∨ y < 0 ∨ page.h ≤ y then page
  else
    let byteIdx := x + y / 8 * page.w
    let mask := (1 : UInt8) <<< UInt8.ofInt (y % 8)
    if byteIdx < 0 ∨ page.buffer.length ≤ byteIdx then page
    else
      { page with
        buffer := page.buffer.modify byteIdx.toNat fun data =>
          if color ≠ 0 then data ||| mask else data &&& ~~~mask
        dirty := true }

/-- `mono_page_get_pixel`. -/
def getPixel (page : Page) (x y : Int) : UInt32 :=
  if x < 0 ∨ page.w ≤ x ∨ y < 0 ∨ page.h ≤ y then 0
  else
    let byteIdx := x + y / 8 * page.w
    if byteIdx < 0 then 0
    else
      match page.buffer[byteIdx.toNat]? with
      | none => 0
      | some data => ((data >>> UInt8.ofInt (y % 8)) &&& 1).toUInt32

/-- `mono_page_fill`. -/
def fill (page : Page) (color : UInt32) : Page :=
  { page with
    buffer := List.replicate page.buffer.length (if color ≠ 0 then 0xFF else 0x00)
    dirty := true }

/-- The test of the drawing methods. -/
def Contains (page : Page) (x y : Int) : Prop :=
  page.x ≤ x ∧ x < page.x + page.w ∧ page.y ≤ y ∧ y < page.y + page.h

instance (page : Page) (x y : Int) : Decidable (page.Contains x y) :=
  inferInstanceAs (Decidable (_ ∧ _))

end Page

/-- `display_t`. -/
structure Display where
  w : Nat
  h : Nat
  pages : List Page
deriving DecidableEq, Repr

/-- A page in the loops of `VRAM.new`. -/
def newPage (pageW pageH ty tx : Nat) : Page :=
  let page : Page :=
    { x := tx * pageW, y := ty * pageH, w := pageW, h := pageH
      buffer := List.replicate (pageW * ((pageH + 7) / 8)) 0, dirty := false }
  page.fill 0

/-- `VRAM.new`. -/
def newVram (w h cols rows : Nat) : Display :=
  { w, h, pages := grid rows cols (newPage (w / cols) (h / rows)) }

/-- The loop over the pages in the drawing methods. -/
def plotPages (x y : Int) (color : UInt32) : List Page → List Page
  | [] => []
  | page :: pages =>
    if page.Contains x y then page.setPixel (x - page.x) (y - page.y) color :: pages
    else page :: plotPages x y color pages

/-- A VRAM as something to draw on. -/
def surface : Surface Display where
  plot disp x y color := { disp with pages := plotPages x y color disp.pages }
  fill disp color := { disp with pages := disp.pages.map fun page => page.fill color }

/-- `[col, row, data]`. -/
structure PageEntry where
  col : Nat
  row : Nat
  data : List UInt8
deriving DecidableEq, Repr

/-- `mrb_vram_pages_sub`. -/
def pagesSub (disp : Display) (dirty clearDirty : Bool) : List PageEntry × Display :=
  let entry (page : Page) (i : Nat) : PageEntry :=
    let cols := disp.w / page.w
    ⟨i % cols, i / cols, page.buffer⟩
  let selected := fun page : Page => !dirty || page.dirty
  ((disp.pages.zipIdx.filter fun item => selected item.1).map fun item => entry item.1 item.2,
    { disp with
      pages := disp.pages.map fun page =>
        if selected page && clearDirty then { page with dirty := false } else page })

/-- `VRAM#pages`. -/
def pages (disp : Display) (clearDirty : Bool) : List PageEntry × Display := pagesSub disp false clearDirty

/-- `VRAM#dirty_pages`. -/
def dirtyPages (disp : Display) (clearDirty : Bool) : List PageEntry × Display := pagesSub disp true clearDirty

/-! ## A flat bitmap -/

abbrev Bitmap := Int → Int → Bool

/-- A pixel of the screen. -/
def OnScreen (w h : Nat) (x y : Int) : Prop := 0 ≤ x ∧ x < w ∧ 0 ≤ y ∧ y < h

instance (w h : Nat) (x y : Int) : Decidable (OnScreen w h x y) := inferInstanceAs (Decidable (_ ∧ _))

/-- A flat bitmap that is clipped at the edges of the screen. -/
def flatSurface (w h : Nat) : Surface Bitmap where
  plot bits x y color :=
    if OnScreen w h x y then fun px py => if px = x ∧ py = y then color ≠ 0 else bits px py else bits
  fill bits color := fun px py => if OnScreen w h px py then color ≠ 0 else bits px py

/-- An entry as a page of the size that the screen is divided into, at its column and row. -/
def PageEntry.placed (entry : PageEntry) (pageW pageH : Nat) : Page :=
  ⟨entry.col * pageW, entry.row * pageH, pageW, pageH, entry.data, false⟩

/-- The entries have a pixel each for the pixels of the screen, and they are those of the bitmap. -/
def Shows (entries : List PageEntry) (pageW pageH w h : Nat) (bits : Bitmap) : Prop :=
  (∀ x y : Int, OnScreen w h x y → ∃ entry ∈ entries, (entry.placed pageW pageH).Contains x y) ∧
    ∀ entry ∈ entries, ∀ x y : Int, (entry.placed pageW pageH).Contains x y → OnScreen w h x y ∧
      ((entry.placed pageW pageH).getPixel (x - (entry.placed pageW pageH).x)
        (y - (entry.placed pageW pageH).y) = if bits x y then 1 else 0)

end PicoRuby.Vram
