import PicoRuby.PrkRgb.Pixels
import PicoRuby.Shared.Results

/-!
# Frames

Every access is in its array, and every frame has an entry for each pixel: in which runs. `ws2812_rand_show` writes
only every other entry.
-/

namespace PicoRuby.PrkRgb

open Shared

set_option autoImplicit false

/-! ## The property -/

/-- One entry after the other has been written, one for each pixel. -/
structure Complete (pixelSize : Int) (frame : Frame) : Prop where
  indices : frame.map Prod.fst = List.range frame.length
  length : (frame.length : Int) = pixelSize

/-- No access is out of bounds, and the frames are complete. -/
def Draws : List Op → Lights → Prop
  | [], _ => True
  | op :: ops, l =>
    ∃ l', l.apply op = .ok l' ∧ (∀ frame ∈ l'.frames, Complete l.pixelSize frame) ∧ Draws ops l'

/-- There is an entry for each pixel. -/
def Lights.Drawable (l : Lights) : Prop := 0 ≤ l.pixelSize ∧ l.pixelSize ≤ 150

/-- There is one pixel at most. -/
def Lights.Single (l : Lights) : Prop := 0 ≤ l.pixelSize ∧ l.pixelSize ≤ 1

/-- What is drawn fits the number of pixels. -/
def Op.Fits (l : Lights) : Op → Prop
  | .thunder _ => l.Single
  | .showLights _ _ _ =>
    if l.offed then l.Drawable
    else (l.fifo ≠ 0 ∧ l.thunders = true → l.Single) ∧ (l.effect ≠ none → l.Drawable)
  | _ => True

def Fits : List Op → Lights → Prop
  | [], _ => True
  | op :: ops, l => op.Fits l ∧ ∀ l', l.apply op = .ok l' → Fits ops l'

/-! ## Writing a frame -/

section Strip
variable {w w' : Ws2812} {i : Nat}

/-- Between two frames. -/
structure Idle (w : Ws2812) : Prop where
  append : w.lastAppendIndex = 0
  written : w.written = []
  swirl : w.swirlIndex < 72

/-- `i` entries of a frame are written. -/
structure Filled (w : Ws2812) (i : Nat) (w' : Ws2812) : Prop where
  append : w'.lastAppendIndex = i
  written : w'.written.map Prod.fst = List.range i
  frames : w'.frames = w.frames
  pixels : w'.pixels = w.pixels
  swirl : w'.swirlIndex = w.swirlIndex

theorem Idle.filled (h : Idle w) : Filled w 0 w :=
  ⟨h.append, by rw [h.written]; rfl, rfl, rfl, rfl⟩

/-- A frame with `n` entries is shown. -/
structure Shown (w : Ws2812) (n : Nat) (w' : Ws2812) : Prop where
  idle : Idle w'
  pixels : w'.pixels = w.pixels
  frames : ∃ frame, w'.frames = w.frames ++ [frame] ∧ frame.map Prod.fst = List.range n

theorem Filled.shown (h : Filled w i w') (hidle : Idle w) : Shown w i w'.showPixels := by
  refine ⟨⟨rfl, rfl, ?_⟩, h.pixels, w'.written, ?_, h.written⟩
  · change w'.swirlIndex < 72
    rw [h.swirl]
    exact hidle.swirl
  · change w'.frames ++ [w'.written] = w.frames ++ [w'.written]
    rw [h.frames]

/-- A function that shows a frame of `n` entries, or faults where there are too many. -/
structure Shows (w : Ws2812) (n : Nat) (result : Except Fault Ws2812) : Prop where
  ok : n ≤ maxPixelSize → ∃ w', result = .ok w' ∧ Shown w n w'
  error : maxPixelSize < n → ∃ e, result = .error e

theorem Shows.of_eq {n : Nat} {result : Except Fault Ws2812} {v : Ws2812} (h : Shows w n result)
    (hframes : w.frames = v.frames) (hpixels : w.pixels = v.pixels) : Shows v n result := by
  refine ⟨fun hn => ?_, h.error⟩
  obtain ⟨w', hresult, hshown⟩ := h.ok hn
  exact ⟨w', hresult, hshown.idle, hpixels ▸ hshown.pixels, hframes ▸ hshown.frames⟩

end Strip

/-! ## Operations -/

/-- What holds of the lights between two operations. -/
structure Ready (l : Lights) : Prop where
  idle : Idle l.toWs2812
  ring : l.effect = some .swirl → l.pixels 72 < 0

/-- The number of entries in each frame that an operation shows. -/
inductive Adds (l : Lights) (ns : List Nat) (result : Except Fault Lights) : Prop where
  | ok (l' : Lights) (result : result = .ok l') (ready : Ready l') (pixelSize : l'.pixelSize = l.pixelSize)
      (frames : l'.frames.map (·.map Prod.fst) = l.frames.map (·.map Prod.fst) ++ ns.map List.range)
      (small : ∀ n ∈ ns, n ≤ maxPixelSize)
  | error (e : Fault) (result : result = .error e) (large : ∃ n ∈ ns, maxPixelSize < n)

section Lights
variable {l : Lights}

theorem Adds.bind {ns ms : List Nat} {result : Except Fault Lights} {f : Lights → Except Fault Lights}
    (h : Adds l ns result) (hf : ∀ l', result = .ok l' → Ready l' → Adds l' ms (f l')) :
    Adds l (ns ++ ms) (result >>= f) := by
  cases h with
  | error e hresult large =>
    obtain ⟨n, hn, hlarge⟩ := large
    exact .error e (bind_of_error hresult) ⟨n, List.mem_append_left ms hn, hlarge⟩
  | ok l' hresult ready pixelSize frames small =>
    cases hf l' hresult ready with
    | error e hresult' large =>
      obtain ⟨n, hn, hlarge⟩ := large
      exact .error e ((bind_of_ok hresult).trans hresult') ⟨n, List.mem_append_right ns hn, hlarge⟩
    | ok l'' hresult' ready' pixelSize' frames' small' =>
      apply Adds.ok l'' ((bind_of_ok hresult).trans hresult') ready' (pixelSize'.trans pixelSize)
      · rw [frames', frames, List.map_append, List.append_assoc]
      · intro n hn
        rcases List.mem_append.mp hn with hn | hn
        · exact small n hn
        · exact small' n hn

/-- The entries of a frame of `ws2812_rand_show`. -/
def Lights.half (l : Lights) : Nat := (l.pixelSize.toNat + 1) / 2

/-- The entries of what `show` draws of an effect. -/
def Lights.effectEntries (l : Lights) : List Nat :=
  match l.effect with
  | none => []
  | some _ => [l.pixelSize.toNat]

/-- The numbers of entries that an operation writes. -/
def Lights.entries (l : Lights) : Op → List Nat
  | .thunder _ => List.replicate 4 l.half
  | .showLights _ _ _ =>
    if l.offed then [l.pixelSize.toNat]
    else (if l.fifo ≠ 0 ∧ l.thunders = true then List.replicate 4 l.half else []) ++ l.effectEntries
  | _ => []

end Lights

/-! ## Runs -/

section New
variable (underglowSize backlightSize : Int) (matrixCoordinate : Nat → UInt8 × UInt8) (circleCenter : UInt8 × UInt8)

theorem new_ready : Ready (.new underglowSize backlightSize matrixCoordinate circleCenter) :=
  ⟨⟨rfl, rfl, Nat.zero_lt_succ 71⟩, nofun⟩

end New

end PicoRuby.PrkRgb
