import PicoRuby.Via.Saving

/-!
# Saving and syncing

VIA saves all cells of its grid as the keys of a map, holes too, while the keyboard gives the keys of a
map to its positions without the holes. The key codes come back where no hole is before a key.
-/

namespace PicoRuby.Via

open Shared Keyboard

set_option autoImplicit false

/-! ## Columns -/

/-- The column of a keymap for a column of a layer. -/
def viaCol (k : Layout) (col : Nat) : Nat :=
  if k.split ∧ k.splitStyle = .rightSideFlippedSplit ∧ colsSize k / 2 ≤ col then
    colsSize k - 1 - col + colsSize k / 2
  else col

section Columns
variable {k : Layout} {col col' : Nat}

theorem syncCol_eq (h : col < colsSize k) : ViaState.syncCol k col = viaCol k col := by
  have hside : (col : Int) > (colsSize k : Int) / 2 - 1 ↔ colsSize k / 2 ≤ col := by omega
  unfold ViaState.syncCol viaCol
  simp only [hside]
  split
  · omega
  · rfl

theorem viaCol_inj (h : col < colsSize k) (h' : col' < colsSize k) (heq : viaCol k col = viaCol k col') :
    col = col' := by
  unfold viaCol at heq
  cases hsplit : k.split with
  | false => simpa [hsplit] using heq
  | true =>
    have hcols : colsSize k = k.colsSize * 2 := by simp [colsSize, hsplit]
    cases hstyle : k.splitStyle with
    | standardSplit => simpa [hstyle] using heq
    | rightSideFlippedSplit =>
      simp only [hsplit, hstyle, true_and] at heq
      split_ifs at heq <;> omega

/-- Reading mirrors back what adding the layer has mirrored. -/
theorem viaCol_calculateColPosition {c : Nat} (h : col < colsSize k)
    (hc : k.calculateColPosition col = (c : Int)) : viaCol k c = col := by
  rw [colsSize_eq] at h
  unfold Layout.calculateColPosition at hc
  unfold viaCol
  cases hsplit : k.split with
  | false =>
    rw [hsplit] at hc
    simpa using (Int.natCast_inj.mp hc).symm
  | true =>
    have hcols : colsSize k = k.colsSize * 2 := by simp [colsSize, hsplit]
    have hentire : k.entireColsSize = k.colsSize * 2 := by simp [Layout.entireColsSize, hsplit]
    rw [hsplit] at hc
    cases hstyle : k.splitStyle with
    | standardSplit =>
      rw [hstyle] at hc
      simpa using (Int.natCast_inj.mp hc).symm
    | rightSideFlippedSplit =>
      simp only [hstyle, Bool.not_true, Bool.false_eq_true, if_false] at hc
      simp only [true_and]
      split_ifs at hc ⊢ <;> omega

end Columns

/-! ## Rows -/

/-- The key code for a cell of a layer. -/
def cellCode (gems : Gems) (required : Required) : Option Stored → Option Nat
  | some cell => prkKeycodeIntoViaKeycode gems required cell
  | none => some 0

section Rows
variable {gems : Gems} {required : Required} {k : Layout} {cells : List (Option Stored)}

theorem syncCell_eq {row : List (Option Nat)} {cell : Option Stored} {col : Nat} (h : col < colsSize k) :
    ViaState.syncCell gems required k row (cell, col) =
      (cellCode gems required cell).map (setGrow row (viaCol k col)) := by
  unfold ViaState.syncCell
  dsimp only
  rw [syncCol_eq h]
  simp only [arraySet_natCast]
  cases cell with
  | none => rfl
  | some cell =>
    cases hcode : prkKeycodeIntoViaKeycode gems required cell <;> simp [cellCode, hcode]

theorem syncRow_isSome (hlen : cells.length ≤ colsSize k) :
    (cells.zipIdx.foldlM (ViaState.syncCell gems required k) []).isSome = true ↔
      ∀ cell ∈ cells, (cellCode gems required cell).isSome = true := by
  induction cells using List.reverseRecOn with
  | nil => simp
  | append_singleton cells cell ih =>
    rw [List.length_append, List.length_singleton] at hlen
    rw [List.zipIdx_append, List.foldlM_append, List.forall_mem_append, ← ih (by omega)]
    cases cells.zipIdx.foldlM (ViaState.syncCell gems required k) [] with
    | none => simp
    | some row =>
      have hcell : ViaState.syncCell gems required k row (cell, cells.length) =
          (cellCode gems required cell).map (setGrow row (viaCol k cells.length)) :=
        syncCell_eq (by omega)
      simp [hcell]

/-- Its key codes are at the mirrored columns. -/
theorem syncRow_eq_some {row : List (Option Nat)} (hlen : cells.length ≤ colsSize k)
    (h : cells.zipIdx.foldlM (ViaState.syncCell gems required k) [] = some row) :
    ∀ col < colsSize k, arrayGet row (viaCol k col) =
      if col < cells.length then cellCode gems required (arrayGet cells col) else none := by
  induction cells using List.reverseRecOn generalizing row with
  | nil =>
    cases h
    simp [arrayGet]
  | append_singleton cells cell ih =>
    rw [List.length_append, List.length_singleton] at hlen
    rw [List.zipIdx_append, List.foldlM_append] at h
    obtain ⟨row', hrow', h⟩ := Option.bind_eq_some_iff.mp h
    have hcell : ViaState.syncCell gems required k row' (cell, 0 + cells.length) = some row := by
      simpa using h
    rw [syncCell_eq (by omega), Nat.zero_add] at hcell
    obtain ⟨keycode, hkeycode, rfl⟩ := Option.map_eq_some_iff.mp hcell
    intro col hcol
    rw [arrayGet_setGrow, ih (by omega) hrow' col hcol, List.length_append, List.length_singleton]
    by_cases hlast : col = cells.length
    · subst hlast
      rw [if_pos rfl, if_pos (by omega), ← hkeycode]
      simp [arrayGet]
    · rw [if_neg fun heq => hlast (viaCol_inj hcol (by omega) heq)]
      by_cases hlt : col < cells.length
      · rw [if_pos hlt, if_pos (by omega)]
        simp [arrayGet, List.getElem?_append_left hlt]
      · rw [if_neg hlt, if_neg (by omega)]

end Rows

/-! ## Layers -/

/-- The rows of a layer as those of a keymap. -/
def syncRows (gems : Gems) (required : Required) (k : Layout) (newMap : List (List (Option Stored))) :
    Option (List (List (Option Nat))) :=
  newMap.mapM fun cells => cells.zipIdx.foldlM (ViaState.syncCell gems required k) []

section Layers
variable {gems : Gems} {required : Required} {k : Layout} {newMap : List (List (Option Stored))}

theorem syncRows_isSome (hwidth : ∀ cells ∈ newMap, cells.length ≤ colsSize k) :
    (syncRows gems required k newMap).isSome = true ↔
      ∀ cells ∈ newMap, ∀ cell ∈ cells, (cellCode gems required cell).isSome = true := by
  unfold syncRows
  rw [mapM_isSome]
  constructor
  · intro h cells hcells
    exact (syncRow_isSome (hwidth cells hcells)).mp (h cells hcells)
  · intro h cells hcells
    exact (syncRow_isSome (hwidth cells hcells)).mpr (h cells hcells)

theorem syncRows_eq_some {viaMap : List (List (Option Nat))}
    (hwidth : ∀ cells ∈ newMap, cells.length ≤ colsSize k)
    (h : syncRows gems required k newMap = some viaMap) {row col : Nat} (hrow : row < newMap.length)
    (hcol : col < colsSize k) : ∃ cells, viaMap[row]? = some cells ∧
      (arrayGet cells (viaCol k col)).getD 0 = (cellCode gems required (cellOf newMap (row, col))).getD 0 := by
  have hmap := mapM_eq_some_iff.mp h
  have hlen : newMap.length = viaMap.length := by simpa using congrArg List.length hmap
  have hviaRow : row < viaMap.length := by omega
  have hget := List.getElem_of_eq hmap (i := row) (by simpa using hrow)
  rw [List.getElem_map, List.getElem_map] at hget
  refine ⟨viaMap[row], List.getElem?_eq_getElem hviaRow, ?_⟩
  have hcell : cellOf newMap (row, (col : Int)) = arrayGet newMap[row] col := by
    simp [cellOf, List.getElem?_eq_getElem hrow]
  rw [syncRow_eq_some (hwidth _ (List.getElem_mem hrow)) hget col hcol, hcell]
  split
  · rfl
  · rename_i hge
    rw [arrayGet, List.getElem?_eq_none (Nat.le_of_not_lt hge)]
    rfl

variable {v v' : ViaState} {kbd : Kbd}

theorem syncLayer_eq {i : Nat} (hget : hashGet kbd.keymaps (viaGetLayerName i) = some newMap) :
    ViaState.syncLayer gems required kbd false v i =
      (syncRows gems required kbd.layout newMap).map fun viaMap =>
        { v with keymaps := v.keymaps.set i viaMap } := by
  have hlayer : kbd.getLayer (some (viaGetLayerName i)) i = some newMap := by
    unfold Kbd.getLayer
    rw [Option.bind_some, hget]
    rfl
  unfold ViaState.syncLayer
  rw [if_neg Bool.false_ne_true, hlayer]
  unfold syncRows
  dsimp only
  cases newMap.mapM fun cells => cells.zipIdx.foldlM (ViaState.syncCell gems required kbd.layout) [] with
  | none => rfl
  | some viaMap => rfl

theorem syncLayers_eq_some {n : Nat}
    (hget : ∀ i < n, ∃ newMap, hashGet kbd.keymaps (viaGetLayerName i) = some newMap)
    (h : (List.range n).foldlM (ViaState.syncLayer gems required kbd false) v = some v') :
    v'.keymaps.length = v.keymaps.length ∧ ∀ i < n, ∃ newMap viaMap,
      hashGet kbd.keymaps (viaGetLayerName i) = some newMap ∧
      syncRows gems required kbd.layout newMap = some viaMap ∧
      (i < v.keymaps.length → v'.keymaps[i]? = some viaMap) := by
  induction n generalizing v' with
  | zero =>
    cases h
    exact ⟨rfl, by simp⟩
  | succ n ih =>
    rw [List.range_succ, List.foldlM_append] at h
    obtain ⟨v₁, h₁, h⟩ := Option.bind_eq_some_iff.mp h
    obtain ⟨v₂, h₂, h⟩ := Option.bind_eq_some_iff.mp h
    cases h
    obtain ⟨hlen, hlayers⟩ := ih (fun i hi => hget i (by omega)) h₁
    obtain ⟨newMap, hnewMap⟩ := hget n (by omega)
    rw [syncLayer_eq hnewMap] at h₂
    obtain ⟨viaMap, hviaMap, rfl⟩ := Option.map_eq_some_iff.mp h₂
    refine ⟨by simp [hlen], ?_⟩
    intro i hi
    by_cases heq : i = n
    · subst heq
      refine ⟨newMap, viaMap, hnewMap, hviaMap, fun hlt => ?_⟩
      rw [List.getElem?_set_self (by omega)]
    · obtain ⟨newMap', viaMap', hnewMap', hviaMap', hkeymap⟩ := hlayers i (by omega)
      refine ⟨newMap', viaMap', hnewMap', hviaMap', fun hlt => ?_⟩
      rw [List.getElem?_set_ne (Ne.symm heq), hkeymap hlt]

theorem syncLayers_isSome {n : Nat} (hget : ∀ i < n, ∃ newMap viaMap,
      hashGet kbd.keymaps (viaGetLayerName i) = some newMap ∧
      syncRows gems required kbd.layout newMap = some viaMap) :
    ((List.range n).foldlM (ViaState.syncLayer gems required kbd false) v).isSome = true := by
  induction n with
  | zero => rfl
  | succ n ih =>
    obtain ⟨v₁, h₁⟩ := Option.isSome_iff_exists.mp (ih fun i hi => hget i (by omega))
    obtain ⟨newMap, viaMap, hnewMap, hviaMap⟩ := hget n (by omega)
    rw [List.range_succ, List.foldlM_append, h₁]
    simp [syncLayer_eq hnewMap, hviaMap]

end Layers

/-! ## What comes back -/

/-- The key code that comes back for a key code. -/
def readsBack (gems : Gems) (required : Required) (keycode : Nat) : Option Nat := do
  let keysymbol ← viaKeycodeIntoKeysymbol required keycode
  prkKeycodeIntoViaKeycode gems required (findKeycodeIndex gems keysymbol)

namespace ViaState

/-- The key code at a position in reading order. -/
def keycodeOn (b : Board) (v : ViaState) (layer q : Nat) : Option Nat :=
  v.keycodeAt layer (q / b.entireCols) (q % b.entireCols)

/-- Each key has a key code that comes back. -/
def Basic (gems : Gems) (required : Required) (b : Board) (v : ViaState) : Prop :=
  ∀ layer < v.layerCount, ∀ q keycode, b.IsKey q → v.keycodeOn b layer q = some keycode →
    readsBack gems required keycode = some keycode

/-- Each cell, of a hole too, has a key code that can be named and read. -/
def Readable (gems : Gems) (required : Required) (b : Board) (v : ViaState) : Prop :=
  ∀ layer < v.layerCount, ∀ q < b.matrix.length * b.entireCols, ∀ keycode,
    v.keycodeOn b layer q = some keycode → (readsBack gems required keycode).isSome = true

/-- Saving and syncing leaves the key codes of all keys as they are. -/
def SyncKeeps (gems : Gems) (required : Required) (b : Board) (v : ViaState) (kbd : Kbd) : Prop :=
  ∃ v₁ kbd₁ v₂, v.saveOnKeyboard gems required kbd = some (v₁, kbd₁) ∧
    v₁.syncKeymap gems required kbd₁ false = some v₂ ∧
    ∀ layer < v.layerCount, ∀ q, b.IsKey q → v₂.keycodeOn b layer q = v.keycodeOn b layer q

end ViaState

section Cells
variable {gems : Gems} {required : Required} {newMap : List (List (Option Stored))}

theorem cellOf_eq_some {row j : Nat} {value : Stored} : cellOf newMap (row, j) = some value ↔
    ∃ cells, newMap[row]? = some cells ∧ cells[j]? = some (some value) := by
  unfold cellOf arrayGet
  rw [Option.bind_eq_some_iff]
  simp only [Int.toNat_natCast, Option.join_eq_some_iff]

/-- All cells are read if all that are not empty are. -/
theorem cells_readable : (∀ cells ∈ newMap, ∀ cell ∈ cells, (cellCode gems required cell).isSome = true) ↔
    ∀ (row j : Nat) (value : Stored), cellOf newMap (row, j) = some value →
      (prkKeycodeIntoViaKeycode gems required value).isSome = true := by
  constructor
  · intro h row j value hvalue
    obtain ⟨cells, hrow, hcell⟩ := cellOf_eq_some.mp hvalue
    exact h cells (List.mem_of_getElem? hrow) (some value) (List.mem_of_getElem? hcell)
  · intro h cells hcells cell hcell
    cases cell with
    | none => rfl
    | some value =>
      obtain ⟨row, hrow⟩ := List.mem_iff_getElem?.mp hcells
      obtain ⟨j, hj⟩ := List.mem_iff_getElem?.mp hcell
      exact h row j value (cellOf_eq_some.mpr ⟨cells, hrow, hj⟩)

/-- A layer can be read if the symbols of its map can. -/
theorem laid_readable {k : Layout} {names : List String} {p : Placing}
    (hlaid : Laid gems k (names.map .symbol) p) :
    (∀ (row j : Nat) (value : Stored), cellOf p.newMap (row, j) = some value →
      (prkKeycodeIntoViaKeycode gems required value).isSome = true) ↔
      ∀ name ∈ names, (prkKeycodeIntoViaKeycode gems required (findKeycodeIndex gems name)).isSome = true := by
  constructor
  · intro h name hname
    obtain ⟨i, hi⟩ := List.mem_iff_getElem?.mp hname
    have hlt : i < (names.map MapKey.symbol).length := by
      rw [List.length_map]
      exact (List.getElem?_eq_some_iff.mp hi).1
    obtain ⟨q, hq, hfree, rfl, -⟩ := hlaid.placed_eq hlt
    obtain ⟨key, hkey, -, hvalue⟩ := hlaid.cells q hq hfree
    rw [List.getElem?_map, hi] at hkey
    cases hkey
    by_cases hE : 0 < k.entireColsSize
    · obtain ⟨c, hc, -⟩ := Layout.calculateColPosition_nat (Nat.mod_lt q hE)
      rw [Layout.place, hc] at hvalue
      exact h _ c _ hvalue
    · have hcol := hlaid.col_le
      have hzero : k.entireColsSize = 0 := by omega
      rw [hzero, Nat.mul_zero] at hq
      omega
  · intro h row j value hvalue
    rcases hlaid.stored row j value hvalue with rfl | ⟨key, hkey, rfl⟩
    · rfl
    · obtain ⟨name, hname, rfl⟩ := List.mem_map.mp hkey
      exact h name hname

end Cells

section Keeping
variable {gems : Gems} {required : Required} {b : Board} {v v₁ v₂ : ViaState} {kbd kbd₁ : Kbd}
  {layer : Nat} {names : List String} {p : Placing}

theorem colsSize_anchorHalf : colsSize b.anchorHalf = b.entireCols := colsSize_eq b.anchorHalf

/-- A key code comes back as its symbol is read. -/
theorem readsBack_eq (hnames : v.keysymbols required b.anchorHalf layer = some names) {q keycode : Nat}
    (hq : q < names.length) (hkeycode : v.keycodeOn b layer q = some keycode) :
    readsBack gems required keycode =
      prkKeycodeIntoViaKeycode gems required (findKeycodeIndex gems names[q]) := by
  have hsymbol := (ViaState.keysymbols_eq_some hnames).2 q hq
  rw [colsSize_anchorHalf] at hsymbol
  unfold ViaState.keysymbolAt at hsymbol
  rw [show v.keycodeAt layer (q / b.entireCols) (q % b.entireCols) = some keycode from hkeycode] at hsymbol
  unfold readsBack
  rw [show viaKeycodeIntoKeysymbol required keycode = some names[q] from hsymbol]
  rfl

theorem names_readable (hnames : v.keysymbols required b.anchorHalf layer = some names) :
    (∀ name ∈ names, (prkKeycodeIntoViaKeycode gems required (findKeycodeIndex gems name)).isSome = true) ↔
      ∀ q < b.matrix.length * b.entireCols, ∀ keycode, v.keycodeOn b layer q = some keycode →
        (readsBack gems required keycode).isSome = true := by
  obtain ⟨hlen, hsymbols⟩ := ViaState.keysymbols_eq_some hnames
  rw [colsSize_anchorHalf] at hlen
  constructor
  · intro h q hq keycode hkeycode
    rw [readsBack_eq hnames (hlen ▸ hq) hkeycode]
    exact h _ (List.getElem_mem _)
  · intro h name hname
    obtain ⟨q, hq, rfl⟩ := List.mem_iff_getElem.mp hname
    obtain ⟨keycode, hkeycode, -⟩ := Option.bind_eq_some_iff.mp (hsymbols q hq)
    rw [colsSize_anchorHalf] at hkeycode
    rw [← readsBack_eq hnames hq hkeycode]
    exact h q (hlen ▸ hq) keycode hkeycode

/-- A saved layer can be read back if all cells of its keymap can. -/
theorem layer_readable (hnames : v.keysymbols required b.anchorHalf layer = some names)
    (hp : b.anchorHalf.addLayer gems (names.map .symbol) = some p) :
    (∀ cells ∈ p.newMap, cells.length ≤ colsSize b.anchorHalf) ∧
      ((syncRows gems required b.anchorHalf p.newMap).isSome = true ↔
        ∀ q < b.matrix.length * b.entireCols, ∀ keycode, v.keycodeOn b layer q = some keycode →
          (readsBack gems required keycode).isSome = true) := by
  by_cases hcols : 0 < b.cols
  · have hlaid := Board.laid_of_addLayer (Board.entireCols_pos hcols) hp
    have hwidth : ∀ cells ∈ p.newMap, cells.length ≤ colsSize b.anchorHalf := by
      rw [colsSize_anchorHalf]
      exact hlaid.width
    refine ⟨hwidth, ?_⟩
    rw [syncRows_isSome hwidth, cells_readable, laid_readable hlaid, names_readable hnames]
  · have hentire : b.entireCols = 0 := by
      have hzero : b.cols = 0 := by omega
      simp [Board.entireCols, hzero]
    have hlen := (ViaState.keysymbols_eq_some hnames).1
    rw [colsSize_anchorHalf, hentire, Nat.mul_zero, List.length_eq_zero_iff] at hlen
    subst hlen
    cases hp
    refine ⟨by simp, ?_⟩
    rw [hentire, Nat.mul_zero]
    exact ⟨fun _ q hq => absurd hq (Nat.not_lt_zero q), fun _ => rfl⟩

theorem entireCols_pos_of_key {q : Nat} (hq : b.IsKey q) : 0 < b.entireCols := by
  obtain ⟨pins, hpins⟩ := Option.isSome_iff_exists.mp hq
  exact Board.entireCols_pos (Board.cols_pos_of_cell (Board.cell_of_pins hpins))

theorem row_lt_of_key {q : Nat} (hq : b.IsKey q) : q / b.entireCols < b.matrix.length := by
  obtain ⟨pins, hpins⟩ := Option.isSome_iff_exists.mp hq
  exact row_lt (Board.cell_of_pins hpins)

theorem lt_of_key {q : Nat} (hq : b.IsKey q) : q < b.matrix.length * b.entireCols :=
  (Nat.div_lt_iff_lt_mul (entireCols_pos_of_key hq)).mp (row_lt_of_key hq)

theorem keycodeOn_isSome (hwf : v.WellFormed v.layerCount b.anchorHalf) (hlayer : layer < v.layerCount)
    {q : Nat} (hq : q < b.matrix.length * b.entireCols) : ∃ keycode, v.keycodeOn b layer q = some keycode := by
  have hE : 0 < b.entireCols := Nat.pos_of_ne_zero (by rintro hzero; simp [hzero] at hq)
  apply Option.isSome_iff_exists.mp
  apply hwf.cells layer _ _ hlayer
  · exact (Nat.div_lt_iff_lt_mul hE).mpr hq
  · rw [colsSize_anchorHalf]
    exact Nat.mod_lt q hE

/-- Of a saved layer, the cell of a key is that of the symbol whose number is the number of the positions
before the key that are no holes. -/
theorem cellOf_saved (hlen : names.length = b.matrix.length * b.entireCols)
    (hp : b.anchorHalf.addLayer gems (names.map .symbol) = some p) {q : Nat} (hq : b.IsKey q) :
    ∃ (h : Nat.count b.anchorHalf.Free q < names.length) (c : Nat), c < b.entireCols ∧
      b.anchorHalf.calculateColPosition (q % b.entireCols) = c ∧
      cellOf p.newMap (q / b.entireCols, c) =
        some (findKeycodeIndex gems names[Nat.count b.anchorHalf.Free q]) := by
  have hE := entireCols_pos_of_key hq
  have hlaid := Board.laid_of_addLayer hE hp
  have hcount : Nat.count b.anchorHalf.Free q < names.length := by
    have hle : Nat.count b.anchorHalf.Free q ≤ q := Nat.count_le _
    rw [hlen]
    exact Nat.lt_of_le_of_lt hle (lt_of_key hq)
  have hbound : q < p.rowIndex * b.anchorHalf.entireColsSize + p.colIndex := by
    apply Nat.lt_of_count_lt_count (p := b.anchorHalf.Free)
    rw [hlaid.count, List.length_map]
    exact hcount
  obtain ⟨key, hkey, -, hstored⟩ := hlaid.cells q hbound (Board.isKey_free hE hq)
  rw [List.getElem?_map, List.getElem?_eq_getElem hcount] at hkey
  cases hkey
  obtain ⟨c, hc, hlt⟩ : ∃ c : Nat, b.anchorHalf.calculateColPosition (q % b.entireCols) = c ∧
      c < b.entireCols := Layout.calculateColPosition_nat (k := b.anchorHalf) (Nat.mod_lt q hE)
  rw [Layout.place, show b.anchorHalf.entireColsSize = b.entireCols from rfl, hc] at hstored
  exact ⟨hcount, c, hlt, hc, hstored⟩

/-- A layer is read as it has been saved. -/
theorem synced_layer (hlayout : kbd.layout = b.anchorHalf)
    (hsave : v.saveOnKeyboard gems required kbd = some (v₁, kbd₁))
    (hsync : v₁.syncKeymap gems required kbd₁ false = some v₂) (hlayer : layer < v.layerCount) :
    ∃ names p viaMap, v.keysymbols required b.anchorHalf layer = some names ∧
      b.anchorHalf.addLayer gems (names.map .symbol) = some p ∧
      syncRows gems required b.anchorHalf p.newMap = some viaMap ∧
      (layer < v.keymaps.length → v₂.keymaps[layer]? = some viaMap) := by
  obtain ⟨hsaved, hlayers⟩ := ViaState.saveLayers_eq_some hsave
  unfold ViaState.syncKeymap at hsync
  rw [hsaved.layerCount] at hsync
  have hget : ∀ i < v.layerCount, ∃ newMap, hashGet kbd₁.keymaps (viaGetLayerName i) = some newMap := by
    intro i hi
    obtain ⟨-, p, -, -, hget⟩ := hlayers i hi
    exact ⟨p.newMap, hget⟩
  obtain ⟨-, hsynced⟩ := syncLayers_eq_some hget hsync
  obtain ⟨names, p, hnames, hp, hnewMap⟩ := hlayers layer hlayer
  obtain ⟨newMap, viaMap, hnewMap', hviaMap, hkeymap⟩ := hsynced layer hlayer
  rw [hnewMap, Option.some.injEq] at hnewMap'
  subst hnewMap'
  rw [hlayout] at hnames hp
  rw [hsaved.layout, hlayout] at hviaMap
  rw [hsaved.keymaps] at hkeymap
  exact ⟨names, p, viaMap, hnames, hp, hviaMap, hkeymap⟩

/-- At a key there is after saving and syncing what comes back for the key code with that number. -/
theorem keycodeOn_synced (hlayout : kbd.layout = b.anchorHalf)
    (hsave : v.saveOnKeyboard gems required kbd = some (v₁, kbd₁))
    (hsync : v₁.syncKeymap gems required kbd₁ false = some v₂) (hlayer : layer < v.layerCount)
    (hwf : v.WellFormed v.layerCount b.anchorHalf) {q : Nat} (hq : b.IsKey q) {keycode : Nat}
    (hkeycode : v.keycodeOn b layer (Nat.count b.anchorHalf.Free q) = some keycode) :
    v₂.keycodeOn b layer q = some ((readsBack gems required keycode).getD 0) := by
  obtain ⟨names, p, viaMap, hnames, hp, hviaMap, hkeymap⟩ := synced_layer hlayout hsave hsync hlayer
  have hlen := (ViaState.keysymbols_eq_some hnames).1
  rw [colsSize_anchorHalf] at hlen
  obtain ⟨hcount, c, hclt, hc, hcell⟩ := cellOf_saved hlen hp hq
  obtain ⟨keycode', hkeycode'⟩ := keycodeOn_isSome hwf hlayer (lt_of_key hq)
  obtain ⟨rows, hrows, -⟩ := Option.bind_eq_some_iff.mp hkeycode'
  obtain ⟨cells, hnewRow, -⟩ := cellOf_eq_some.mp hcell
  obtain ⟨viaCells, hviaRow, hvalue⟩ := syncRows_eq_some (layer_readable hnames hp).1 hviaMap
    (List.getElem?_eq_some_iff.mp hnewRow).1 (colsSize_anchorHalf.symm ▸ hclt)
  have hcol : viaCol b.anchorHalf c = q % b.entireCols := by
    apply viaCol_calculateColPosition _ hc
    rw [colsSize_anchorHalf]
    exact Nat.mod_lt q (entireCols_pos_of_key hq)
  rw [hcol, hcell] at hvalue
  unfold ViaState.keycodeOn ViaState.keycodeAt
  rw [hkeymap (List.getElem?_eq_some_iff.mp hrows).1]
  simp only [Option.bind_eq_bind, Option.bind_some, hviaRow, hvalue]
  rw [readsBack_eq hnames hcount hkeycode]
  rfl

/-! ## The condition -/

/-- No hole is before a key. -/
def HolesLast (b : Board) : Prop := ∀ q q', q < q' → b.IsKey q' → b.cell q ≠ some none

theorem count_free (h : HolesLast b) (hE : 0 < b.entireCols) {q : Nat} (hq : b.IsKey q) :
    Nat.count b.anchorHalf.Free q = q := by
  rw [Nat.count_iff_forall]
  intro q' hq'
  unfold Board.anchorHalf
  rw [Board.free_iff hE]
  exact h q' q hq' hq

/-- Saving and syncing succeeds exactly if every cell can be named and read. -/
theorem syncs_iff (hlayout : kbd.layout = b.anchorHalf) (hwf : v.WellFormed v.layerCount b.anchorHalf) :
    (∃ v₁ kbd₁ v₂, v.saveOnKeyboard gems required kbd = some (v₁, kbd₁) ∧
      v₁.syncKeymap gems required kbd₁ false = some v₂) ↔ v.Readable gems required b := by
  have hadds : AddsLayers gems kbd.layout := hlayout ▸ addsLayers
  constructor
  · rintro ⟨v₁, kbd₁, v₂, hsave, hsync⟩ layer hlayer
    obtain ⟨names, p, viaMap, hnames, hp, hviaMap, -⟩ := synced_layer hlayout hsave hsync hlayer
    apply (layer_readable hnames hp).2.mp
    rw [hviaMap]
    rfl
  · intro h
    have hsome : (v.saveOnKeyboard gems required kbd).isSome = true := by
      rw [ViaState.saveOnKeyboard_isSome hadds]
      intro layer hlayer row hrow col hcol
      rw [hlayout, colsSize_anchorHalf] at hcol
      rw [hlayout] at hrow
      have hq : row * b.entireCols + col < b.matrix.length * b.entireCols := by
        have hle := Nat.mul_le_mul_right b.entireCols (show row + 1 ≤ b.matrix.length from hrow)
        rw [Nat.succ_mul] at hle
        omega
      obtain ⟨hdiv, hmod⟩ := place_of_lt (k := b.anchorHalf) hcol row
      obtain ⟨keycode, hkeycode⟩ := keycodeOn_isSome hwf hlayer hq
      have hread := h layer hlayer _ hq keycode hkeycode
      unfold ViaState.keycodeOn at hkeycode
      rw [show b.entireCols = b.anchorHalf.entireColsSize from rfl, hdiv, hmod] at hkeycode
      unfold ViaState.keysymbolAt
      rw [hkeycode]
      unfold readsBack at hread
      cases hname : viaKeycodeIntoKeysymbol required keycode with
      | none => simp [hname] at hread
      | some name => simp [hname]
    obtain ⟨⟨v₁, kbd₁⟩, hsave⟩ := Option.isSome_iff_exists.mp hsome
    obtain ⟨hsaved, hlayers⟩ := ViaState.saveLayers_eq_some hsave
    have hsync : (v₁.syncKeymap gems required kbd₁ false).isSome = true := by
      apply syncLayers_isSome
      intro layer hlayer
      rw [hsaved.layerCount] at hlayer
      obtain ⟨names, p, hnames, hp, hget⟩ := hlayers layer hlayer
      rw [hlayout] at hnames hp
      obtain ⟨viaMap, hviaMap⟩ := Option.isSome_iff_exists.mp
        ((layer_readable hnames hp).2.mpr (h layer hlayer))
      refine ⟨_, viaMap, hget, ?_⟩
      rw [hsaved.layout, hlayout, hviaMap]
    obtain ⟨v₂, hsync⟩ := Option.isSome_iff_exists.mp hsync
    exact ⟨v₁, kbd₁, v₂, hsave, hsync⟩

theorem syncKeeps_of_holesLast (hlast : HolesLast b) (hlayout : kbd.layout = b.anchorHalf)
    (hwf : v.WellFormed v.layerCount b.anchorHalf) (hbasic : v.Basic gems required b)
    (hread : v.Readable gems required b) : v.SyncKeeps gems required b kbd := by
  obtain ⟨v₁, kbd₁, v₂, hsave, hsync⟩ := (syncs_iff hlayout hwf).mpr hread
  refine ⟨v₁, kbd₁, v₂, hsave, hsync, ?_⟩
  intro layer hlayer q hq
  obtain ⟨keycode, hkeycode⟩ := keycodeOn_isSome hwf hlayer (lt_of_key hq)
  have hbefore : v.keycodeOn b layer (Nat.count b.anchorHalf.Free q) = some keycode := by
    rw [count_free hlast (entireCols_pos_of_key hq) hq, hkeycode]
  rw [hkeycode, keycodeOn_synced hlayout hsave hsync hlayer hwf hq hbefore,
    hbasic layer hlayer q keycode hq hkeycode]
  rfl

/-- One key `KC_A` at a position, and else nothing. -/
def keyOn (b : Board) (q : Nat) : ViaState where
  layerCount := 1
  keymaps := [(List.range b.matrix.length).map fun row => (List.range b.entireCols).map fun col =>
    some (if row * b.entireCols + col = q then 4 else 0)]
  keymapSaved := true
  compositeKeys := []

theorem keyOn_keycodeAt {row col q : Nat} (hrow : row < b.matrix.length) (hcol : col < b.entireCols) :
    (keyOn b q).keycodeAt 0 row col = some (if row * b.entireCols + col = q then 4 else 0) := by
  simp [keyOn, ViaState.keycodeAt, arrayGet, hrow, hcol]

theorem keyOn_wellFormed {q : Nat} : (keyOn b q).WellFormed 1 b.anchorHalf := by
  refine ⟨rfl, ?_⟩
  intro layer row col hlayer hrow hcol
  obtain rfl : layer = 0 := by omega
  rw [colsSize_anchorHalf] at hcol
  rw [keyOn_keycodeAt hrow hcol]
  rfl

theorem keyOn_keycodeOn {q q' : Nat} (hq' : q' < b.matrix.length * b.entireCols) :
    (keyOn b q).keycodeOn b 0 q' = some (if q' = q then 4 else 0) := by
  have hE : 0 < b.entireCols := Nat.pos_of_ne_zero (by rintro hzero; simp [hzero] at hq')
  unfold ViaState.keycodeOn
  rw [keyOn_keycodeAt ((Nat.div_lt_iff_lt_mul hE).mpr hq') (Nat.mod_lt q' hE), Nat.mul_comm, Nat.div_add_mod]

theorem findKeycodeIndex_of_idxOf {key : String} {i : Nat} (hresolve : resolveKeyAlias key = key)
    (hindex : keycodes.idxOf? key = some i) : findKeycodeIndex gems key = .code (-i) := by
  unfold findKeycodeIndex
  rw [hresolve]
  dsimp only
  rw [hindex]

theorem readsBack_no : readsBack gems required 0 = some 0 := by
  have hname : viaKeycodeIntoKeysymbol required 0 = some "KC_NO" := rfl
  have hindex : keycodes.idxOf? "KC_NO" = some 0 := by decide
  unfold readsBack
  rw [hname, Option.bind_eq_bind, Option.bind_some, findKeycodeIndex_of_idxOf (by decide) hindex]
  rfl

theorem readsBack_a : readsBack gems required 4 = some 4 := by
  have hname : viaKeycodeIntoKeysymbol required 4 = some "KC_A" := rfl
  have hindex : keycodes.idxOf? "KC_A" = some 4 := by decide
  unfold readsBack
  rw [hname, Option.bind_eq_bind, Option.bind_some, findKeycodeIndex_of_idxOf (by decide) hindex]
  rfl

theorem keyOn_readsBack {q q' keycode : Nat} (hq' : q' < b.matrix.length * b.entireCols)
    (hkeycode : (keyOn b q).keycodeOn b 0 q' = some keycode) :
    readsBack gems required keycode = some keycode := by
  rw [keyOn_keycodeOn hq', Option.some.injEq] at hkeycode
  subst hkeycode
  split
  · exact readsBack_a
  · exact readsBack_no

theorem keyOn_basic {q : Nat} : (keyOn b q).Basic gems required b := by
  intro layer hlayer q' keycode hq' hkeycode
  obtain rfl : layer = 0 := Nat.lt_one_iff.mp hlayer
  exact keyOn_readsBack (lt_of_key hq') hkeycode

theorem keyOn_readable {q : Nat} : (keyOn b q).Readable gems required b := by
  intro layer hlayer q' hq' keycode hkeycode
  obtain rfl : layer = 0 := Nat.lt_one_iff.mp hlayer
  rw [keyOn_readsBack hq' hkeycode]
  rfl

/-- With a hole before it, the key gets the key code of a position before it. -/
theorem keyOn_not_syncKeeps {q q' : Nat} (hlt : q < q') (hq' : b.IsKey q') (hhole : b.cell q = some none)
    (hlayout : kbd.layout = b.anchorHalf) : ¬ (keyOn b q').SyncKeeps gems required b kbd := by
  have hE := entireCols_pos_of_key hq'
  rintro ⟨v₁, kbd₁, v₂, hsave, hsync, hkeeps⟩
  have hcount : Nat.count b.anchorHalf.Free q' < q' := by
    have hne : Nat.count b.anchorHalf.Free q' ≠ q' := by
      intro heq
      have hfree := Nat.count_iff_forall.mp heq q hlt
      unfold Board.anchorHalf at hfree
      exact (Board.free_iff hE).mp hfree hhole
    have hle : Nat.count b.anchorHalf.Free q' ≤ q' := Nat.count_le _
    omega
  have hbefore : (keyOn b q').keycodeOn b 0 (Nat.count b.anchorHalf.Free q') = some 0 := by
    rw [keyOn_keycodeOn (Nat.lt_trans hcount (lt_of_key hq')), if_neg (Nat.ne_of_lt hcount)]
  have hafter := keycodeOn_synced hlayout hsave hsync Nat.one_pos keyOn_wellFormed hq' hbefore
  rw [hkeeps 0 Nat.one_pos q' hq', keyOn_keycodeOn (lt_of_key hq'), if_pos rfl, readsBack_no] at hafter
  cases hafter

/-- Key codes come back on all keys, as far as all cells can be named and read, if and only if no hole is
before a key. -/
theorem syncKeeps_iff : (∀ (v : ViaState) (kbd : Kbd), v.WellFormed v.layerCount b.anchorHalf →
      kbd.layout = b.anchorHalf → v.Basic gems required b →
        (v.SyncKeeps gems required b kbd ↔ v.Readable gems required b)) ↔ HolesLast b := by
  constructor
  · intro h q q' hlt hq' hhole
    have hkeeps := (h (keyOn b q') (newKbd b.anchorHalf) keyOn_wellFormed rfl keyOn_basic).mpr keyOn_readable
    exact keyOn_not_syncKeeps hlt hq' hhole rfl hkeeps
  · intro hlast v kbd hwf hlayout hbasic
    refine ⟨?_, syncKeeps_of_holesLast hlast hlayout hwf hbasic⟩
    rintro ⟨v₁, kbd₁, v₂, hsave, hsync, -⟩
    exact (syncs_iff hlayout hwf).mp ⟨v₁, kbd₁, v₂, hsave, hsync⟩

/-- A hole and a key. -/
def holeFirst : Board := ⟨false, .standardSplit, true, [[none, some (0, 2)]]⟩

/-- The key has `KC_A`, and after saving and syncing what was saved for the hole. -/
theorem hole_moves_key : (keyOn holeFirst 1).WellFormed 1 holeFirst.anchorHalf ∧
    (keyOn holeFirst 1).Basic Board.noGems ⟨false, false⟩ holeFirst ∧
    (keyOn holeFirst 1).Readable Board.noGems ⟨false, false⟩ holeFirst ∧
    ¬ (keyOn holeFirst 1).SyncKeeps Board.noGems ⟨false, false⟩ holeFirst (newKbd holeFirst.anchorHalf) := by
  refine ⟨keyOn_wellFormed, keyOn_basic, keyOn_readable, ?_⟩
  exact keyOn_not_syncKeeps Nat.one_pos (by decide) (by decide) rfl

end Keeping

end PicoRuby.Via
