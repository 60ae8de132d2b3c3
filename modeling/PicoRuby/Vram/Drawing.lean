import Mathlib.Algebra.Order.Group.Abs
import Mathlib.Tactic.Linarith
import Mathlib.Tactic.Ring

/-!
# Drawing

The loops of the drawing methods of vram.c, over anything that can be plotted and filled. An `mrb_int` is
an integer of any size.
-/

namespace PicoRuby.Vram

set_option autoImplicit false

universe u v
variable {S : Type u} {T : Type v}

/-- Something to draw on; the colour of a pixel is a `uint32_t`. -/
structure Surface (S : Type u) where
  plot : S → Int → Int → UInt32 → S
  fill : S → UInt32 → S

/-! ## Lines -/

/-- The `while` loop of `draw_line`; `none` if `rounds` more rounds do not end it. -/
def lineLoop (d : Surface S) (x1 y1 dx dy sx sy : Int) (color : UInt32) :
    Nat → S → Int → Int → Int → Option S
  | rounds, s, x, y, err =>
    let s := d.plot s x y color
    if x = x1 ∧ y = y1 then some s
    else
      match rounds with
      | 0 => none
      | rounds + 1 =>
        let e2 := 2 * err
        let (err, x) := if -dy < e2 then (err - dy, x + sx) else (err, x)
        let (err, y) := if e2 < dx then (err + dx, y + sy) else (err, y)
        lineLoop d x1 y1 dx dy sx sy color rounds s x y err

/-- `VRAM#draw_line`. -/
def drawLine (d : Surface S) (s : S) (x0 y0 x1 y1 color : Int) : Option S :=
  let dx := if x0 < x1 then x1 - x0 else x0 - x1
  let dy := if y0 < y1 then y1 - y0 else y0 - y1
  let sx := if x0 < x1 then 1 else -1
  let sy := if y0 < y1 then 1 else -1
  lineLoop d x1 y1 dx dy sx sy (UInt32.ofInt color) (max dx dy).toNat s x0 y0 (dx - dy)

/-! ## Areas -/

/-- `for (i = 0; i < n; i++)`. -/
def upTo (n : Int) (body : S → Int → S) (s : S) : S :=
  (List.range n.toNat).foldl (fun s (i : Nat) => body s i) s

/-- `VRAM#draw_rect`. -/
def drawRect (d : Surface S) (s : S) (x y w h color : Int) : S :=
  upTo h (fun s i => upTo w (fun s j => d.plot s (x + j) (y + i) (UInt32.ofInt color)) s) s

/-- `VRAM#erase`. -/
def erase (d : Surface S) (s : S) (x y w h : Int) : S :=
  upTo h (fun s i => upTo w (fun s j => d.plot s (x + j) (y + i) 0) s) s

/-- `pixel` in `draw_bitmap`, of a row of at most 64. -/
def bitmapPixel (row width imgX : Int) : UInt32 :=
  ((UInt64.ofInt row >>> UInt64.ofInt (width - 1 - imgX)) &&& 1).toUInt32

/-- `VRAM#draw_bitmap`; what is not an Integer in `data` is `none`. -/
def drawBitmap (d : Surface S) (s : S) (x y width height : Int) (data : List (Option Int)) : S :=
  if width ≤ 0 ∨ height ≤ 0 then s
  else
    upTo (min height data.length) (fun s imgY =>
      match data[imgY.toNat]? with
      | some (some row) =>
        upTo width (fun s imgX => d.plot s (x + imgX) (y + imgY) (bitmapPixel row width imgX)) s
      | _ => s) s

/-- `pixel` in `draw_bytes`. -/
def bytesPixel (data : List UInt8) (width imgX imgY : Int) : UInt32 :=
  let byteIdx := imgY * ((width + 7) / 8) + imgX / 8
  let bitIdx := 7 - imgX % 8
  match data[byteIdx.toNat]? with
  | some byte => ((byte >>> UInt8.ofInt bitIdx) &&& 1).toUInt32
  | none => 0

/-- `VRAM#draw_bytes`. -/
def drawBytes (d : Surface S) (s : S) (x y width height : Int) (data : List UInt8) : S :=
  if width ≤ 0 ∨ height ≤ 0 then s
  else
    upTo height (fun s imgY =>
      upTo width (fun s imgX => d.plot s (x + imgX) (y + imgY) (bytesPixel data width imgX imgY)) s) s

/-! ## Calls -/

inductive DrawCall where
  | setPixel (x y color : Int)
  | drawLine (x0 y0 x1 y1 color : Int)
  | drawRect (x y w h color : Int)
  | drawBitmap (x y w h : Int) (data : List (Option Int))
  | drawBytes (x y w h : Int) (data : List UInt8)
  | erase (x y w h : Int)
  | fill (color : Int)
deriving DecidableEq, Repr

namespace DrawCall

/-- A row of `draw_bitmap` is shifted by less than 64. -/
def Defined : DrawCall → Prop
  | drawBitmap _ _ w _ _ => w ≤ 64
  | _ => True

def apply (d : Surface S) (s : S) : DrawCall → Option S
  | setPixel x y color => some (d.plot s x y (UInt32.ofInt color))
  | drawLine x0 y0 x1 y1 color => Vram.drawLine d s x0 y0 x1 y1 color
  | drawRect x y w h color => some (Vram.drawRect d s x y w h color)
  | drawBitmap x y w h data => some (Vram.drawBitmap d s x y w h data)
  | drawBytes x y w h data => some (Vram.drawBytes d s x y w h data)
  | erase x y w h => some (Vram.erase d s x y w h)
  | fill color => some (d.fill s (UInt32.ofInt color))

end DrawCall

/-- The calls one after the other. -/
def draw (d : Surface S) (s : S) (calls : List DrawCall) : Option S := calls.foldlM (DrawCall.apply d) s

/-! ## The end of a line -/

/-- After `i` steps along the longer side `a` and `j` along the shorter one `b`, `j` is the rounded
height of the line. -/
def OnLine (a b i j : Int) : Prop := 2 * i * b ≤ (2 * j + 1) * a ∧ (2 * j - 1) * a < 2 * i * b

variable {a b i j : Int}

theorem onLine_start (ha : 0 < a) : OnLine a b 0 0 := by
  constructor
  · linarith
  · linarith

/-- There is a step along the longer side in each round. -/
theorem onLine_longer (ha : 0 < a) (hb : b ≤ a) (h : OnLine a b i j) :
    (2 * i + 1) * b < 2 * (j + 1) * a := by
  obtain ⟨hlow, -⟩ := h
  rcases lt_or_eq_of_le hb with hlt | rfl
  · linarith
  · have hij : 2 * i ≤ 2 * j + 1 := le_of_mul_le_mul_right hlow ha
    have hij' : i ≤ j := by omega
    nlinarith

theorem onLine_step (hb : b ≤ a) (hb0 : 0 ≤ b) (h : OnLine a b i j) :
    OnLine a b (i + 1) (if (2 * j + 1) * a < 2 * (i + 1) * b then j + 1 else j) := by
  obtain ⟨hlow, hhigh⟩ := h
  split_ifs with hstep
  · constructor
    · linarith
    · linarith
  · constructor
    · linarith
    · linarith

theorem onLine_end (ha : 0 < a) (h : OnLine a b a j) : j = b := by
  obtain ⟨hlow, hhigh⟩ := h
  have hle : 2 * b ≤ 2 * j + 1 := by nlinarith
  have hge : 2 * j - 1 < 2 * b := by nlinarith
  omega

/-- One step along one side or along both. -/
def OneStep (p q : Int × Int) : Prop :=
  (q.1 = p.1 ∨ q.1 = p.1 + 1) ∧ (q.2 = p.2 ∨ q.2 = p.2 + 1) ∧ p ≠ q

/-- After `i` steps along the side `dx` and `j` along the side `dy`, the line is at most half a step away. -/
structure Near (dx dy i j : Int) : Prop where
  flat (h : dy ≤ dx) : |2 * (j * dx - i * dy)| ≤ dx
  steep (h : dx ≤ dy) : |2 * (i * dy - j * dx)| ≤ dy

theorem OnLine.near (h : OnLine a b i j) (hb : b ≤ a) : Near a b i j := by
  obtain ⟨hlow, hhigh⟩ := h
  constructor
  · intro _
    rw [abs_le]
    constructor
    · linarith
    · linarith
  · intro hle
    obtain rfl : a = b := le_antisymm hle hb
    rw [abs_le]
    constructor
    · linarith
    · linarith

theorem Near.swap (h : Near a b i j) : Near b a j i := ⟨h.steep, h.flat⟩

/-- The rest of the way to the end of both sides, in `rounds` more steps. -/
structure Trail (dx dy : Int) (rounds : Nat) (i j : Int) (steps : List (Int × Int)) : Prop where
  head : steps.head? = some (i, j)
  last : steps.getLast? = some (dx, dy)
  length : steps.length = rounds + 1
  chain : steps.IsChain OneStep
  between : ∀ p ∈ steps, i ≤ p.1 ∧ p.1 ≤ dx ∧ j ≤ p.2 ∧ p.2 ≤ dy
  near : ∀ p ∈ steps, Near dx dy p.1 p.2

section Trail
variable {dx dy i j i' j' : Int} {rounds : Nat} {steps : List (Int × Int)}

theorem trail_end (h : Near dx dy dx dy) : Trail dx dy 0 dx dy [(dx, dy)] where
  head := rfl
  last := rfl
  length := rfl
  chain := List.IsChain.singleton _
  between := by simp
  near := by simpa using h

theorem Trail.cons (h : Trail dx dy rounds i' j' steps) (hstep : OneStep (i, j) (i', j')) (hnear : Near dx dy i j) :
    Trail dx dy (rounds + 1) i j ((i, j) :: steps) := by
  obtain ⟨rest, rfl⟩ : ∃ rest, steps = (i', j') :: rest := by
    cases steps with
    | nil => cases h.head
    | cons first rest =>
      obtain rfl : first = (i', j') := Option.some.inj h.head
      exact ⟨rest, rfl⟩
  constructor
  · rfl
  · exact h.last
  · exact congrArg (· + 1) h.length
  · exact List.isChain_cons_cons.mpr ⟨hstep, h.chain⟩
  · obtain ⟨hi, hj, -⟩ := hstep
    intro p hp
    rcases List.mem_cons.mp hp with rfl | hp
    · have hnext := h.between _ List.mem_cons_self
      dsimp only at hnext hi hj ⊢
      omega
    · have hlater := h.between p hp
      dsimp only at hi hj
      omega
  · rw [List.forall_mem_cons]
    exact ⟨hnear, h.near⟩

end Trail

/-- What the loop plots along a trail. -/
def plotSteps (d : Surface S) (x0 y0 sx sy : Int) (color : UInt32) (s : S) (steps : List (Int × Int)) : S :=
  steps.foldl (fun s p => d.plot s (x0 + sx * p.1) (y0 + sy * p.2) color) s

section Loop
variable {x0 y0 x1 y1 dx dy sx sy i j : Int} {color : UInt32} {rounds : Nat}

/-- The steps of a round, told from `err`. -/
theorem lineLoop_step (d : Surface S) (s : S) (hgo : ¬ (x0 + sx * i = x1 ∧ y0 + sy * j = y1)) :
    lineLoop d x1 y1 dx dy sx sy color (rounds + 1) s (x0 + sx * i) (y0 + sy * j)
        ((j + 1) * dx - (i + 1) * dy) =
      let i' := if (2 * i + 1) * dy < 2 * (j + 1) * dx then i + 1 else i
      let j' := if (2 * j + 1) * dx < 2 * (i + 1) * dy then j + 1 else j
      lineLoop d x1 y1 dx dy sx sy color rounds (d.plot s (x0 + sx * i) (y0 + sy * j) color)
        (x0 + sx * i') (y0 + sy * j') ((j' + 1) * dx - (i' + 1) * dy) := by
  have hxstep : -dy < 2 * ((j + 1) * dx - (i + 1) * dy) ↔ (2 * i + 1) * dy < 2 * (j + 1) * dx := by
    constructor <;> intro hlt <;> linarith
  have hystep : 2 * ((j + 1) * dx - (i + 1) * dy) < dx ↔ (2 * j + 1) * dx < 2 * (i + 1) * dy := by
    constructor <;> intro hlt <;> linarith
  have hxnext : x0 + sx * i + sx = x0 + sx * (i + 1) := by ring
  have hynext : y0 + sy * j + sy = y0 + sy * (j + 1) := by ring
  have herrx : (j + 1) * dx - (i + 1) * dy - dy = (j + 1) * dx - (i + 1 + 1) * dy := by ring
  have herry : (j + 1) * dx - (i + 1) * dy + dx = (j + 1 + 1) * dx - (i + 1) * dy := by ring
  have herrxy : (j + 1) * dx - (i + 1 + 1) * dy + dx = (j + 1 + 1) * dx - (i + 1 + 1) * dy := by ring
  rw [lineLoop]
  dsimp only
  rw [if_neg hgo]
  simp only [hxstep, hystep]
  split_ifs <;> simp only [hxnext, hynext, herrx, herry, herrxy]

/-- The loop follows a trail to the other end, whatever it draws on. -/
theorem lineLoop_visits (color : UInt32) (hx : x0 + sx * dx = x1) (hy : y0 + sy * dy = y1)
    (hsx : sx = 1 ∨ sx = -1) (hsy : sy = 1 ∨ sy = -1) (hdx : 0 ≤ dx) (hdy : 0 ≤ dy)
    (h : dy ≤ dx ∧ 0 < dx ∧ OnLine dx dy i j ∧ i + rounds = dx ∨
      dx ≤ dy ∧ 0 < dy ∧ OnLine dy dx j i ∧ j + rounds = dy) :
    ∃ steps, Trail dx dy rounds i j steps ∧ ∀ (S : Type u) (d : Surface S) (s : S),
      lineLoop d x1 y1 dx dy sx sy color rounds s (x0 + sx * i) (y0 + sy * j)
        ((j + 1) * dx - (i + 1) * dy) = some (plotSteps d x0 y0 sx sy color s steps) := by
  induction rounds generalizing i j with
  | zero =>
    have hend : i = dx ∧ j = dy ∧ Near dx dy i j := by
      rcases h with ⟨hle, hpos, hline, hi⟩ | ⟨hle, hpos, hline, hj⟩
      · obtain rfl : i = dx := by omega
        exact ⟨rfl, onLine_end hpos hline, hline.near hle⟩
      · obtain rfl : j = dy := by omega
        exact ⟨onLine_end hpos hline, rfl, (hline.near hle).swap⟩
    obtain ⟨rfl, rfl, hnear⟩ := hend
    refine ⟨_, trail_end hnear, fun S d s => ?_⟩
    rw [lineLoop]
    simp [hx, hy, plotSteps]
  | succ rounds ih =>
    have hpast : i ≠ dx ∨ j ≠ dy := by omega
    have hgo : ¬ (x0 + sx * i = x1 ∧ y0 + sy * j = y1) := by
      rintro ⟨hxe, hye⟩
      rcases hpast with hpast | hpast
      · rcases hsx with rfl | rfl <;> omega
      · rcases hsy with rfl | rfl <;> omega
    rcases h with ⟨hle, hpos, hline, hi⟩ | ⟨hle, hpos, hline, hj⟩
    · obtain ⟨steps, htrail, hdraws⟩ := ih (Or.inl ⟨hle, hpos, onLine_step hle hdy hline, by omega⟩)
      refine ⟨(i, j) :: steps, htrail.cons ⟨Or.inr rfl, ?_, by simp⟩ (hline.near hle), fun S d s => ?_⟩
      · split_ifs <;> simp
      · rw [lineLoop_step d s hgo, if_pos (onLine_longer hpos hle hline)]
        exact hdraws S d _
    · obtain ⟨steps, htrail, hdraws⟩ := ih (Or.inr ⟨hle, hpos, onLine_step hle hdx hline, by omega⟩)
      refine ⟨(i, j) :: steps, htrail.cons ⟨?_, Or.inr rfl, by simp⟩ (hline.near hle).swap, fun S d s => ?_⟩
      · split_ifs <;> simp
      · rw [lineLoop_step d s hgo, if_pos (onLine_longer hpos hle hline)]
        exact hdraws S d _

end Loop

/-- `sx * dx` and `sy * dy` lead from one end to the other. -/
structure Sides (x0 y0 x1 y1 dx dy sx sy : Int) : Prop where
  x : x0 + sx * dx = x1
  y : y0 + sy * dy = y1
  sx : sx = 1 ∨ sx = -1
  sy : sy = 1 ∨ sy = -1
  dx : 0 ≤ dx
  dy : 0 ≤ dy

theorem drawLine_visits (x0 y0 x1 y1 color : Int) : ∃ dx dy sx sy steps, Sides x0 y0 x1 y1 dx dy sx sy ∧
    Trail dx dy (max dx dy).toNat 0 0 steps ∧ ∀ (S : Type u) (d : Surface S) (s : S),
      drawLine d s x0 y0 x1 y1 color = some (plotSteps d x0 y0 sx sy (UInt32.ofInt color) s steps) := by
  unfold drawLine
  dsimp only
  generalize hdx : (if x0 < x1 then x1 - x0 else x0 - x1) = dx
  generalize hdy : (if y0 < y1 then y1 - y0 else y0 - y1) = dy
  generalize hsx : (if x0 < x1 then 1 else -1 : Int) = sx
  generalize hsy : (if y0 < y1 then 1 else -1 : Int) = sy
  have hsides : Sides x0 y0 x1 y1 dx dy sx sy := by
    constructor
    · rw [← hdx, ← hsx]
      split_ifs <;> omega
    · rw [← hdy, ← hsy]
      split_ifs <;> omega
    · rw [← hsx]
      split_ifs <;> simp
    · rw [← hsy]
      split_ifs <;> simp
    · rw [← hdx]
      split_ifs <;> omega
    · rw [← hdy]
      split_ifs <;> omega
  refine ⟨dx, dy, sx, sy, ?_⟩
  have hdx0 := hsides.dx
  have hdy0 := hsides.dy
  by_cases hpoint : dx = 0 ∧ dy = 0
  · obtain ⟨rfl, rfl⟩ := hpoint
    have hnear : Near 0 0 0 0 := ⟨fun _ => by simp, fun _ => by simp⟩
    refine ⟨_, hsides, trail_end hnear, fun S d s => ?_⟩
    rw [lineLoop.eq_def]
    simp [← hsides.x, ← hsides.y, plotSteps]
  have hrounds : dy ≤ dx ∧ 0 < dx ∧ OnLine dx dy 0 0 ∧ 0 + ((max dx dy).toNat : Int) = dx ∨
      dx ≤ dy ∧ 0 < dy ∧ OnLine dy dx 0 0 ∧ 0 + ((max dx dy).toNat : Int) = dy := by
    rcases le_total dy dx with hle | hle
    · exact Or.inl ⟨hle, by omega, onLine_start (by omega), by omega⟩
    · exact Or.inr ⟨hle, by omega, onLine_start (by omega), by omega⟩
  obtain ⟨steps, htrail, hdraws⟩ :=
    lineLoop_visits (UInt32.ofInt color) hsides.x hsides.y hsides.sx hsides.sy hdx0 hdy0 hrounds
  simp only [mul_zero, add_zero, zero_add, one_mul] at hdraws
  exact ⟨steps, hsides, htrail, hdraws⟩

theorem drawLine_isSome (d : Surface S) (s : S) (x0 y0 x1 y1 color : Int) :
    (drawLine d s x0 y0 x1 y1 color).isSome := by
  obtain ⟨_, _, _, _, _, -, -, hdraws⟩ := drawLine_visits x0 y0 x1 y1 color
  rw [hdraws S d s]
  rfl

/-! ## Two surfaces -/

/-- What is plotted on both, or filled in both, keeps the relation. -/
structure Surface.Simulates (d : Surface S) (e : Surface T) (R : S → T → Prop) : Prop where
  plot {s : S} {t : T} (h : R s t) (x y : Int) (color : UInt32) : R (d.plot s x y color) (e.plot t x y color)
  fill {s : S} {t : T} (h : R s t) (color : UInt32) : R (d.fill s color) (e.fill t color)

section Simulation
variable {d : Surface S} {e : Surface T} {R : S → T → Prop} {s : S} {t : T}

theorem upTo_simulates {n : Int} {body : S → Int → S} {body' : T → Int → T}
    (hbody : ∀ s t i, R s t → R (body s i) (body' t i)) (h : R s t) :
    R (upTo n body s) (upTo n body' t) := by
  unfold upTo
  induction List.range n.toNat generalizing s t with
  | nil => exact h
  | cons i is ih => exact ih (hbody s t i h)

theorem lineLoop_simulates (hsim : d.Simulates e R) {x1 y1 dx dy sx sy x y err : Int} {color : UInt32}
    {rounds : Nat} {s' : S} (h : R s t)
    (hs : lineLoop d x1 y1 dx dy sx sy color rounds s x y err = some s') :
    ∃ t', lineLoop e x1 y1 dx dy sx sy color rounds t x y err = some t' ∧ R s' t' := by
  induction rounds generalizing s t x y err with
  | zero =>
    rw [lineLoop] at hs ⊢
    split at hs
    · rename_i hend
      cases hs
      exact ⟨_, if_pos hend, hsim.plot h x y color⟩
    · cases hs
  | succ rounds ih =>
    rw [lineLoop] at hs ⊢
    dsimp only at hs ⊢
    split at hs
    · rename_i hend
      cases hs
      exact ⟨_, if_pos hend, hsim.plot h x y color⟩
    · rename_i hend
      rw [if_neg hend]
      exact ih (hsim.plot h x y color) hs

theorem apply_simulates (hsim : d.Simulates e R) (h : R s t) (call : DrawCall) :
    ∃ s' t', call.apply d s = some s' ∧ call.apply e t = some t' ∧ R s' t' := by
  cases call with
  | setPixel x y color => exact ⟨_, _, rfl, rfl, hsim.plot h x y _⟩
  | drawLine x0 y0 x1 y1 color =>
    obtain ⟨s', hs⟩ := Option.isSome_iff_exists.mp (drawLine_isSome d s x0 y0 x1 y1 color)
    obtain ⟨t', ht, hR⟩ := lineLoop_simulates hsim h hs
    exact ⟨s', t', hs, ht, hR⟩
  | drawRect x y w h' color =>
    refine ⟨_, _, rfl, rfl, upTo_simulates (fun s t i hrow => ?_) h⟩
    exact upTo_simulates (fun s t j hcell => hsim.plot hcell _ _ _) hrow
  | drawBitmap x y w h' data =>
    refine ⟨_, _, rfl, rfl, ?_⟩
    unfold Vram.drawBitmap
    split
    · exact h
    · refine upTo_simulates (fun s t imgY hrow => ?_) h
      split
      · exact upTo_simulates (fun s t imgX hcell => hsim.plot hcell _ _ _) hrow
      · exact hrow
  | drawBytes x y w h' data =>
    refine ⟨_, _, rfl, rfl, ?_⟩
    unfold Vram.drawBytes
    split
    · exact h
    · refine upTo_simulates (fun s t imgY hrow => ?_) h
      exact upTo_simulates (fun s t imgX hcell => hsim.plot hcell _ _ _) hrow
  | erase x y w h' =>
    refine ⟨_, _, rfl, rfl, upTo_simulates (fun s t i hrow => ?_) h⟩
    exact upTo_simulates (fun s t j hcell => hsim.plot hcell _ _ _) hrow
  | fill color => exact ⟨_, _, rfl, rfl, hsim.fill h _⟩

theorem draw_simulates (hsim : d.Simulates e R) (h : R s t) (calls : List DrawCall) :
    ∃ s' t', draw d s calls = some s' ∧ draw e t calls = some t' ∧ R s' t' := by
  induction calls generalizing s t with
  | nil => exact ⟨s, t, rfl, rfl, h⟩
  | cons call calls ih =>
    obtain ⟨s₁, t₁, hs₁, ht₁, h₁⟩ := apply_simulates hsim h call
    obtain ⟨s₂, t₂, hs₂, ht₂, h₂⟩ := ih h₁
    refine ⟨s₂, t₂, ?_, ?_, h₂⟩
    · rw [draw, List.foldlM_cons, hs₁]
      exact hs₂
    · rw [draw, List.foldlM_cons, ht₁]
      exact ht₂

end Simulation

end PicoRuby.Vram
