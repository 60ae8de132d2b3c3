import PicoRuby.Via.Buffer
import PicoRuby.Keyboard.Positions
import PicoRuby.Shared.Results

/-!
# What VIA saves

Saving succeeds exactly if every key code of the keymaps has a name, and then each layer of the keyboard
is what `add_layer` makes of the names.
-/

namespace PicoRuby.Via

open Shared Keyboard

set_option autoImplicit false

theorem colsSize_eq (k : Layout) : colsSize k = k.entireColsSize := by
  unfold colsSize Layout.entireColsSize
  cases k.split <;> simp

theorem viaGetLayerName_inj {i j : Nat} (h : viaGetLayerName i = viaGetLayerName j) : i = j := by
  have hdefault (n : Nat) : "VIA_LAYER" ++ toString n ≠ "default" := by
    intro heq
    have htoList := congrArg String.toList heq
    rw [String.toList_append] at htoList
    simp at htoList
  unfold viaGetLayerName at h
  split_ifs at h with hi hj hj
  · rw [hi, hj]
  · exact absurd h.symm (hdefault j)
  · exact absurd h (hdefault i)
  · have htoList := congrArg String.toList h
    rw [String.toList_append, String.toList_append, List.append_cancel_left_eq,
      Nat.toString_eq_ofList_toDigits, Nat.toString_eq_ofList_toDigits, String.toList_ofList,
      String.toList_ofList] at htoList
    rw [← Nat.ofDigitChars_ten_toDigits (n := i), htoList, Nat.ofDigitChars_ten_toDigits]

/-- The layers that VIA saves are not too much for the keyboard. -/
def AddsLayers (gems : Gems) (k : Layout) : Prop :=
  ∀ map, map.length = rowsSize k * colsSize k → ∃ p, k.addLayer gems map = some p

theorem addsLayers {b : Board} {gems : Gems} : AddsLayers gems b.anchorHalf := by
  intro map hlen
  by_cases hcols : 0 < b.cols
  · obtain ⟨p, hp, -⟩ := addLayer_laid (k := b.anchorHalf) gems Board.skipPositions_lt
      (Board.entireCols_pos hcols) map
    exact ⟨p, hp⟩
  · have hzero : colsSize b.anchorHalf = 0 := by
      unfold colsSize
      rw [show b.anchorHalf.colsSize = b.cols from rfl]
      simp [Nat.eq_zero_of_not_pos hcols]
    rw [hzero, Nat.mul_zero, List.length_eq_zero_iff] at hlen
    subst hlen
    exact ⟨_, rfl⟩

namespace ViaState
variable {gems : Gems} {required : Required} {k : Layout} {v v' : ViaState} {kbd kbd' : Kbd}

/-- The symbol of a cell. -/
def keysymbolAt (required : Required) (v : ViaState) (layer row col : Nat) : Option String := do
  let keycode ← v.keycodeAt layer row col
  viaKeycodeIntoKeysymbol required keycode

theorem keysymbols_isSome {layer : Nat} : (v.keysymbols required k layer).isSome = true ↔
    ∀ row < rowsSize k, ∀ col < colsSize k, (v.keysymbolAt required layer row col).isSome = true := by
  unfold keysymbols
  rw [mapM_isSome]
  constructor
  · intro h row hrow col hcol
    exact h _ (mem_grid.mpr ⟨row, hrow, col, hcol, rfl⟩)
  · intro h symbol hmem
    obtain ⟨row, hrow, col, hcol, rfl⟩ := mem_grid.mp hmem
    exact h row hrow col hcol

theorem keysymbols_eq_some {layer : Nat} {names : List String}
    (h : v.keysymbols required k layer = some names) : names.length = rowsSize k * colsSize k ∧
      ∀ i (hi : i < names.length), v.keysymbolAt required layer (i / colsSize k) (i % colsSize k) =
        some names[i] := by
  have hmap := mapM_eq_some_iff.mp h
  rw [List.map_id] at hmap
  have hlen : names.length = rowsSize k * colsSize k := by
    have hlen := congrArg List.length hmap
    rw [grid_length, List.length_map] at hlen
    exact hlen.symm
  refine ⟨hlen, ?_⟩
  intro i hi
  have hget := List.getElem_of_eq hmap (i := i) (by simpa [← hlen] using hi)
  rw [grid_getElem, List.getElem_map] at hget
  exact hget

/-- Keymaps of a number of layers, with a row for each row of the matrix. -/
structure WellFormed (layers : Nat) (k : Layout) (v : ViaState) : Prop where
  layerCount : v.layerCount = layers
  cells (layer row col : Nat) (hlayer : layer < layers) (hrow : row < rowsSize k) (hcol : col < colsSize k) :
    (v.keycodeAt layer row col).isSome = true

/-- Saving leaves the keymaps alone. -/
structure Saved (v v' : ViaState) (kbd kbd' : Kbd) : Prop where
  keymaps : v'.keymaps = v.keymaps
  layerCount : v'.layerCount = v.layerCount
  keymapSaved : v'.keymapSaved = v.keymapSaved
  layout : kbd'.layout = kbd.layout

theorem saveLayer_eq_some {layer : Nat} (h : saveLayer gems required (v, kbd) layer = some (v', kbd')) :
    Saved v v' kbd kbd' ∧ ∃ names p, v.keysymbols required kbd.layout layer = some names ∧
      kbd.layout.addLayer gems (names.map .symbol) = some p ∧
      kbd'.keymaps = hashSet kbd.keymaps (viaGetLayerName layer) p.newMap := by
  obtain ⟨names, hnames, h⟩ := Option.bind_eq_some_iff.mp h
  obtain ⟨kbd₁, hkbd, h⟩ := Option.bind_eq_some_iff.mp h
  obtain ⟨p, hp, hadd⟩ := Option.bind_eq_some_iff.mp hkbd
  cases hadd
  cases h
  exact ⟨⟨rfl, rfl, rfl, rfl⟩, names, p, hnames, hp, rfl⟩

theorem saveLayer_isSome {layer : Nat} (hadd : AddsLayers gems kbd.layout) :
    (saveLayer gems required (v, kbd) layer).isSome = (v.keysymbols required kbd.layout layer).isSome := by
  unfold saveLayer
  cases hnames : v.keysymbols required kbd.layout layer with
  | none => simp [hnames]
  | some names =>
    obtain ⟨p, hp⟩ := hadd (names.map .symbol) (by rw [List.length_map, (keysymbols_eq_some hnames).1])
    have hp' : (kbd.deleteModeKeys (viaGetLayerName layer)).layout.addLayer gems (names.map .symbol) = some p := hp
    simp [hnames, Kbd.addLayer, hp']

theorem keycodeAt_congr (h : v'.keymaps = v.keymaps) (layer row col : Nat) :
    v'.keycodeAt layer row col = v.keycodeAt layer row col := by
  unfold keycodeAt
  rw [h]

theorem keysymbols_congr (h : v'.keymaps = v.keymaps) (layer : Nat) :
    v'.keysymbols required k layer = v.keysymbols required k layer := by
  unfold keysymbols
  simp only [keycodeAt_congr h]

theorem saveLayers_eq_some {n : Nat}
    (h : (List.range n).foldlM (saveLayer gems required) (v, kbd) = some (v', kbd')) :
    Saved v v' kbd kbd' ∧ ∀ layer < n, ∃ names p, v.keysymbols required kbd.layout layer = some names ∧
      kbd.layout.addLayer gems (names.map .symbol) = some p ∧
      hashGet kbd'.keymaps (viaGetLayerName layer) = some p.newMap := by
  induction n generalizing v' kbd' with
  | zero =>
    cases h
    exact ⟨⟨rfl, rfl, rfl, rfl⟩, by simp⟩
  | succ n ih =>
    rw [List.range_succ, List.foldlM_append] at h
    obtain ⟨⟨v₁, kbd₁⟩, h₁, h⟩ := Option.bind_eq_some_iff.mp h
    obtain ⟨⟨v₂, kbd₂⟩, h₂, h⟩ := Option.bind_eq_some_iff.mp h
    cases h
    obtain ⟨hsaved, hlayers⟩ := ih h₁
    obtain ⟨hlast, names, p, hnames, hp, hkeymaps⟩ := saveLayer_eq_some h₂
    refine ⟨⟨hlast.keymaps.trans hsaved.keymaps, hlast.layerCount.trans hsaved.layerCount,
      hlast.keymapSaved.trans hsaved.keymapSaved, hlast.layout.trans hsaved.layout⟩, ?_⟩
    intro layer hlayer
    by_cases heq : layer = n
    · subst heq
      refine ⟨names, p, ?_, ?_, ?_⟩
      · rw [← keysymbols_congr hsaved.keymaps, ← hsaved.layout, hnames]
      · rw [← hsaved.layout, hp]
      · rw [hkeymaps, hashGet_hashSet_self]
    · obtain ⟨names', p', hnames', hp', hget⟩ := hlayers layer (by omega)
      refine ⟨names', p', hnames', hp', ?_⟩
      rw [hkeymaps, hashGet_hashSet_of_ne fun h => heq (viaGetLayerName_inj h), hget]

theorem saveLayers_isSome {n : Nat} (hadd : AddsLayers gems kbd.layout)
    (hnames : ∀ layer < n, (v.keysymbols required kbd.layout layer).isSome = true) :
    ((List.range n).foldlM (saveLayer gems required) (v, kbd)).isSome = true := by
  induction n with
  | zero => rfl
  | succ n ih =>
    obtain ⟨⟨v₁, kbd₁⟩, h₁⟩ := Option.isSome_iff_exists.mp (ih fun layer h => hnames layer (by omega))
    obtain ⟨hsaved, -⟩ := saveLayers_eq_some h₁
    have hlast : (saveLayer gems required (v₁, kbd₁) n).isSome = true := by
      rw [saveLayer_isSome (by rw [hsaved.layout]; exact hadd), hsaved.layout,
        keysymbols_congr hsaved.keymaps]
      exact hnames n (by omega)
    rw [List.range_succ, List.foldlM_append, h₁]
    simpa using hlast

/-- Saving succeeds exactly if every key has a symbol. -/
theorem saveOnKeyboard_isSome (hadd : AddsLayers gems kbd.layout) :
    (v.saveOnKeyboard gems required kbd).isSome = true ↔
      ∀ layer < v.layerCount, ∀ row < rowsSize kbd.layout, ∀ col < colsSize kbd.layout,
        (v.keysymbolAt required layer row col).isSome = true := by
  constructor
  · intro h layer hlayer
    obtain ⟨⟨v', kbd'⟩, hsome⟩ := Option.isSome_iff_exists.mp h
    obtain ⟨names, p, hnames, -, -⟩ := (saveLayers_eq_some hsome).2 layer hlayer
    apply keysymbols_isSome.mp
    rw [hnames]
    rfl
  · intro h
    apply saveLayers_isSome hadd
    intro layer hlayer
    exact keysymbols_isSome.mpr (h layer hlayer)

end ViaState

end PicoRuby.Via
