import PicoRuby.Keyboard.Placement

/-!
# Layers and scans

A keyboard has its matrix once, or once on each half. Its positions are numbered in reading order, and
each belongs to a half. The keys of a map are at the cells that the scans of the halves report exactly
if the matrix has no row that ends before a key, its switches have their own pins, and the half that
is anchored knows its side.
-/

namespace PicoRuby.Keyboard

open Shared

set_option autoImplicit false

/-! ## Cells -/

/-- The cell of a matrix; `none` where its row has ended. -/
def cellAt (matrix : List (List Cell)) (row col : Nat) : Option Cell :=
  matrix[row]?.bind fun cells => cells[col]?

section Cells
variable {matrix : List (List Cell)} {row col : Nat} {cell : Cell}

theorem mem_matrixCells : (cell, row, col) ∈ matrixCells matrix ↔ cellAt matrix row col = some cell := by
  unfold matrixCells cellAt
  rw [Option.bind_eq_some_iff]
  simp only [List.mem_flatMap, List.mem_map]
  constructor
  · rintro ⟨⟨cells, row'⟩, hrow, ⟨cell', col'⟩, hcol, heq⟩
    cases heq
    exact ⟨cells, List.mem_zipIdx_iff_getElem?.mp hrow, List.mem_zipIdx_iff_getElem?.mp hcol⟩
  · rintro ⟨cells, hrow, hcol⟩
    exact ⟨(cells, row), List.mem_zipIdx_iff_getElem?.mpr hrow, (cell, col),
      List.mem_zipIdx_iff_getElem?.mpr hcol, rfl⟩

theorem row_lt (h : cellAt matrix row col = some cell) : row < matrix.length := by
  obtain ⟨cells, hrow, -⟩ := Option.bind_eq_some_iff.mp h
  exact (List.getElem?_eq_some_iff.mp hrow).1

theorem le_foldl_length (size : Nat) :
    size ≤ matrix.foldl (fun size cols => max cols.length size) size ∧
      ∀ cells ∈ matrix, cells.length ≤ matrix.foldl (fun size cols => max cols.length size) size := by
  induction matrix generalizing size with
  | nil => simp
  | cons cells matrix ih =>
    obtain ⟨hsize, hcells⟩ := ih (max cells.length size)
    rw [List.foldl_cons, List.forall_mem_cons]
    exact ⟨by omega, by omega, hcells⟩

theorem col_lt (h : cellAt matrix row col = some cell) :
    col < matrix.foldl (fun size cols => max cols.length size) 0 := by
  obtain ⟨cells, hrow, hcol⟩ := Option.bind_eq_some_iff.mp h
  have hlen := (List.getElem?_eq_some_iff.mp hcol).1
  have hle := (le_foldl_length 0).2 cells (List.mem_of_getElem? hrow)
  omega

end Cells

/-! ## What a scan reports -/

/-- The switch with these pins in the matrix of a half. -/
def switchAt (matrix : List (Pin × List (Pin × (Nat × Nat)))) (pins : Pin × Pin) : Option (Nat × Nat) :=
  (hashGet matrix pins.1).bind fun inPins => hashGet inPins pins.2

/-- The matrix of a half has each pin once. -/
def PinsNodup (matrix : List (Pin × List (Pin × (Nat × Nat)))) : Prop :=
  (matrix.map Prod.fst).Nodup ∧ ∀ out ∈ matrix, (out.2.map Prod.fst).Nodup

section Store
variable {matrix : List (Pin × List (Pin × (Nat × Nat)))} {pins : Pin × Pin}

theorem storeSwitch_nodup (item : Cell × Nat × Nat) (h : PinsNodup matrix) :
    PinsNodup (storeSwitch matrix item) := by
  obtain ⟨hout, hin⟩ := h
  obtain ⟨cell, pos⟩ := item
  cases cell with
  | none => exact ⟨hout, hin⟩
  | some pins =>
    refine ⟨hashSet_nodup hout, ?_⟩
    intro out hmem
    rcases mem_hashSet hmem with rfl | hmem
    · apply hashSet_nodup
      cases hget : hashGet matrix pins.1 with
      | none => exact List.nodup_nil
      | some inPins => exact hin _ (hashGet_mem hget)
    · exact hin _ hmem

theorem switchAt_storeSwitch (cell : Cell) (pos : Nat × Nat) :
    switchAt (storeSwitch matrix (cell, pos)) pins =
      if cell = some pins then some pos else switchAt matrix pins := by
  cases cell with
  | none => rfl
  | some pins' =>
    unfold storeSwitch switchAt
    dsimp only
    by_cases hout : pins.1 = pins'.1
    · rw [hout, hashGet_hashSet_self, Option.bind_some]
      by_cases hin : pins.2 = pins'.2
      · rw [hin, hashGet_hashSet_self, if_pos (congrArg some (Prod.ext hout hin).symm)]
      · rw [hashGet_hashSet_of_ne hin, if_neg fun h => hin (by rw [Option.some.inj h])]
        cases hashGet matrix pins'.1 with
        | none => rfl
        | some inPins => rfl
    · rw [hashGet_hashSet_of_ne hout, if_neg fun h => hout (by rw [Option.some.inj h])]

/-- Of the cells with the pins, each at the same position, one is stored. -/
theorem switchAt_foldl {pos : Nat × Nat} (cells : List (Cell × Nat × Nat))
    (hsame : ∀ item ∈ cells, item.1 = some pins → item.2 = pos)
    (h : switchAt matrix pins = some pos ∨ (some pins, pos) ∈ cells) :
    switchAt (cells.foldl storeSwitch matrix) pins = some pos := by
  induction cells generalizing matrix with
  | nil => simpa using h
  | cons item cells ih =>
    obtain ⟨cell, pos'⟩ := item
    rw [List.foldl_cons]
    apply ih fun item hitem => hsame item (List.mem_cons_of_mem _ hitem)
    rw [switchAt_storeSwitch]
    by_cases hcell : cell = some pins
    · left
      rw [if_pos hcell]
      exact congrArg some (hsame _ List.mem_cons_self hcell)
    · rw [if_neg hcell]
      rcases h with hstored | hmem
      · exact Or.inl hstored
      · rcases List.mem_cons.mp hmem with heq | hmem
        · cases heq
          exact absurd rfl hcell
        · exact Or.inr hmem

theorem foldl_storeSwitch_nodup (cells : List (Cell × Nat × Nat)) (h : PinsNodup matrix) :
    PinsNodup (cells.foldl storeSwitch matrix) := by
  induction cells generalizing matrix with
  | nil => exact h
  | cons item cells ih => exact ih (storeSwitch_nodup item h)

end Store

theorem scanMatrix_single {k : Layout} {pins : Pin × Pin} {row col : Nat} (hnodup : PinsNodup k.matrix)
    (h : switchAt k.matrix pins = some (row, col)) :
    k.scanMatrix (fun inPin outPin => (outPin, inPin) ≠ pins) = [(row, k.scanCol col)] := by
  obtain ⟨inPins, hout, hin⟩ := Option.bind_eq_some_iff.mp h
  unfold Layout.scanMatrix
  rw [flatMap_of_hashGet hnodup.1 hout]
  · have hkey : (fun item : Pin × (Nat × Nat) => !decide ((pins.1, item.1) ≠ pins)) =
        fun item => decide (item.1 = pins.2) := by
      funext item
      simp [Prod.ext_iff]
    dsimp only
    rw [hkey, filter_of_hashGet (hnodup.2 _ (hashGet_mem hout)) hin]
    rfl
  · intro out hmem hne
    have hopen : ∀ item ∈ out.2, ¬ (!decide ((out.1, item.1) ≠ pins)) = true := by
      intro item hitem
      simp [Prod.ext_iff, hne]
    rw [List.filter_eq_nil_iff.mpr hopen]
    rfl

/-! ## Boards -/

/-- What a keymap tells every half of a keyboard. -/
structure Board where
  split : Bool
  splitStyle : SplitStyle
  anchorLeft : Bool
  matrix : List (List Cell)
deriving DecidableEq, Repr

namespace Board

/-- A half; without a split, the keyboard is its own anchor. -/
def half (b : Board) (right : Bool) : Layout :=
  initMatrixPins b.split b.splitStyle (if b.split then right != b.anchorLeft else true) b.anchorLeft
    b.matrix

/-- The half that has the layers. -/
def anchorHalf (b : Board) : Layout := b.half !b.anchorLeft

def cols (b : Board) : Nat := b.matrix.foldl (fun size cols => max cols.length size) 0

def entireCols (b : Board) : Nat := if b.split then b.cols * 2 else b.cols

/-- The half that a position is on. -/
def onRight (b : Board) (q : Nat) : Bool := b.cols ≤ q % b.entireCols

/-- The column of the matrix for a column in reading order. -/
def matrixCol (b : Board) (col : Nat) : Nat :=
  if col < b.cols then col
  else
    match b.splitStyle with
    | .standardSplit => b.cols * 2 - 1 - col
    | .rightSideFlippedSplit => col - b.cols

/-- The cell of the matrix for a position. -/
def cell (b : Board) (q : Nat) : Option Cell :=
  cellAt b.matrix (q / b.entireCols) (b.matrixCol (q % b.entireCols))

/-- The pins of the switch at a position. -/
def pins (b : Board) (q : Nat) : Option (Pin × Pin) := (b.cell q).join

def IsKey (b : Board) (q : Nat) : Prop := (b.pins q).isSome = true

instance (b : Board) : DecidablePred b.IsKey := fun _ => inferInstanceAs (Decidable (_ = _))

/-- The keys of every map are at different cells, each at the one that the scan of the half with its
switch reports. -/
def KeysInPlace (b : Board) : Prop :=
  ∀ (gems : Gems) (map : List MapKey), ∃ p, b.anchorHalf.addLayer gems map = some p ∧
    p.placed.length = map.length ∧ p.placed.Nodup ∧
    ∀ q pins key, b.pins q = some pins → map[Nat.count b.IsKey q]? = some key →
      ∃ cell, p.placed[Nat.count b.IsKey q]? = some cell ∧
        cellOf p.newMap cell = some (key.stored gems) ∧
        (b.half (b.onRight q)).scanMatrix (fun inPin outPin => (outPin, inPin) ≠ pins) = [cell]

/-- The condition on a board. -/
structure Regular (b : Board) : Prop where
  pins_inj (row col row' col' : Nat) (pins : Pin × Pin) (h : cellAt b.matrix row col = some (some pins))
    (h' : cellAt b.matrix row' col' = some (some pins)) : row = row' ∧ col = col'
  no_gap (q q' : Nat) (h : q < q') (hgap : b.cell q = none) : b.pins q' = none
  anchored : b.split = true ∨ b.anchorLeft = true ∨ ∀ q, b.pins q = none
  wide : b.split = true → b.splitStyle = .rightSideFlippedSplit → 0 < b.cols

section Geometry
variable {b : Board} {right : Bool}

@[simp] theorem half_colsSize : (b.half right).colsSize = b.cols := rfl

@[simp] theorem half_rowsSize : (b.half right).rowsSize = b.matrix.length := rfl

@[simp] theorem half_splitStyle : (b.half right).splitStyle = b.splitStyle := rfl

@[simp] theorem half_entireColsSize : (b.half right).entireColsSize = b.entireCols := rfl

theorem half_skipPosition_mem {row col : Nat} :
    (row, col) ∈ (b.half right).skipPositions ↔ cellAt b.matrix row col = some none := by
  unfold half initMatrixPins
  simp only [List.mem_map, List.mem_filter, Option.isNone_iff_eq_none]
  constructor
  · rintro ⟨⟨cell, row', col'⟩, ⟨hmem, hnone⟩, heq⟩
    cases heq
    rw [← mem_matrixCells, ← hnone]
    exact hmem
  · intro h
    exact ⟨(none, row, col), ⟨mem_matrixCells.mpr h, rfl⟩, rfl⟩

theorem any_position_iff {positions : List (Nat × Nat)} {row col : Nat} {col' : Int} (h : col' = col) :
    (positions.any fun pos => pos.1 = row && (pos.2 : Int) = col') = true ↔ (row, col) ∈ positions := by
  subst h
  simp only [List.any_eq_true, Bool.and_eq_true, decide_eq_true_eq, Int.natCast_inj]
  constructor
  · rintro ⟨pos, hmem, rfl, rfl⟩
    exact hmem
  · intro hmem
    exact ⟨_, hmem, rfl, rfl⟩

/-- `skip_position?` mirrors a column as the halves have them. -/
theorem skipPosition_iff {row col : Nat} (h : col < b.entireCols) :
    (b.half right).skipPosition row col = true ↔ cellAt b.matrix row (b.matrixCol col) = some none := by
  have hle : b.entireCols ≤ b.cols * 2 := Layout.entireColsSize_le (k := b.half right)
  rw [← half_skipPosition_mem]
  unfold Layout.skipPosition matrixCol
  rw [half_colsSize, half_splitStyle]
  apply any_position_iff
  split
  · rfl
  · cases b.splitStyle with
    | standardSplit =>
      dsimp only
      omega
    | rightSideFlippedSplit =>
      dsimp only
      omega

theorem skipPositions_lt : ∀ pos ∈ (b.half right).skipPositions, pos.1 < (b.half right).rowsSize := by
  intro pos hpos
  exact row_lt (half_skipPosition_mem.mp hpos)

theorem skipPositions_nil (h : b.cols = 0) : (b.half right).skipPositions = [] := by
  rw [List.eq_nil_iff_forall_not_mem]
  intro pos hpos
  have hlt : pos.2 < b.cols := col_lt (half_skipPosition_mem.mp hpos)
  omega

variable {q : Nat} {pins : Pin × Pin}

theorem cols_pos_of_cell {cell : Cell} (h : b.cell q = some cell) : 0 < b.cols :=
  Nat.lt_of_le_of_lt (Nat.zero_le _) (col_lt h)

theorem entireCols_pos (h : 0 < b.cols) : 0 < b.entireCols := by
  unfold entireCols
  split <;> omega

theorem cell_of_pins (h : b.pins q = some pins) : b.cell q = some (some pins) :=
  Option.join_eq_some_iff.mp h

theorem free_iff (hE : 0 < b.entireCols) : (b.half right).Free q ↔ b.cell q ≠ some none := by
  unfold Layout.Free
  rw [half_entireColsSize, Bool.eq_false_iff, Ne, skipPosition_iff (Nat.mod_lt q hE)]
  rfl

/-- A column of the matrix is a position of the left half. -/
theorem cell_left {col : Nat} (h : col < b.cols) (row : Nat) :
    b.cell (row * b.entireCols + col) = cellAt b.matrix row col ∧
      b.onRight (row * b.entireCols + col) = false := by
  have hlt : col < b.entireCols := by
    unfold entireCols
    split <;> omega
  obtain ⟨hdiv, hmod⟩ := place_of_lt (k := b.anchorHalf) hlt row
  unfold cell onRight matrixCol
  rw [show b.entireCols = b.anchorHalf.entireColsSize from rfl, hdiv, hmod, if_pos h]
  exact ⟨rfl, by simp [h]⟩

theorem scanCol_half (col : Nat) : (b.half right).scanCol col =
    if (if b.split then right else !b.anchorLeft) then (b.cols : Int) * 2 - 1 - col else col := by
  have hmirror : ((col : Int) - (b.cols + 1) / 2) * -1 + (b.cols * 2 - (b.cols + 1) / 2 - 1) =
      b.cols * 2 - 1 - col := by omega
  unfold Layout.scanCol half initMatrixPins
  dsimp only
  rw [← cols, hmirror]
  cases b.split <;> cases right <;> cases b.anchorLeft <;> rfl

/-- The scan mirrors a column as the layer does. -/
theorem scanCol_eq (hanchored : b.split = true ∨ b.anchorLeft = true) (hE : 0 < b.entireCols) :
    (b.half (b.onRight q)).scanCol (b.matrixCol (q % b.entireCols)) =
      b.anchorHalf.calculateColPosition (q % b.entireCols) := by
  have hlt := Nat.mod_lt q hE
  rw [scanCol_half]
  unfold Layout.calculateColPosition matrixCol
  rw [anchorHalf, half_colsSize, half_splitStyle, half_entireColsSize]
  change _ = if (!b.split) = true then _ else _
  cases hsplit : b.split with
  | false =>
    have hleft : q % b.entireCols < b.cols := by simpa [entireCols, hsplit] using hlt
    have hanchorLeft : b.anchorLeft = true := by simpa [hsplit] using hanchored
    rw [if_pos hleft]
    simp [hanchorLeft]
  | true =>
    have hentire : b.entireCols = b.cols * 2 := by simp [entireCols, hsplit]
    unfold onRight
    by_cases hleft : q % b.entireCols < b.cols
    · rw [if_pos hleft]
      cases b.splitStyle <;> simp [hleft]
    · have hright : b.cols ≤ q % b.entireCols := by omega
      simp only [hright, hleft, if_true, if_false, decide_true, Bool.not_true, Bool.false_eq_true]
      cases b.splitStyle with
      | standardSplit =>
        dsimp only
        omega
      | rightSideFlippedSplit =>
        dsimp only
        omega

end Geometry

/-! ## Keys in place -/

section Main
variable {b : Board} {q : Nat} {pins : Pin × Pin}

/-- The scan finds a switch that has its own pins. -/
theorem scan_key {row col : Nat} (right : Bool) (h : cellAt b.matrix row col = some (some pins))
    (hown : ∀ row' col', cellAt b.matrix row' col' = some (some pins) → row' = row ∧ col' = col) :
    (b.half right).scanMatrix (fun inPin outPin => (outPin, inPin) ≠ pins) =
      [(row, (b.half right).scanCol col)] := by
  apply scanMatrix_single
  · exact foldl_storeSwitch_nodup _ ⟨List.nodup_nil, by simp⟩
  · apply switchAt_foldl
    · rintro ⟨cell, row', col'⟩ hmem hcell
      dsimp only at hcell
      rw [mem_matrixCells, hcell] at hmem
      obtain ⟨rfl, rfl⟩ := hown _ _ hmem
      rfl
    · exact Or.inr (mem_matrixCells.mpr h)

theorem isKey_free (hE : 0 < b.entireCols) (h : b.IsKey q) : b.anchorHalf.Free q := by
  obtain ⟨pins, hpins⟩ := Option.isSome_iff_exists.mp h
  unfold anchorHalf
  rw [free_iff hE, cell_of_pins hpins]
  simp

/-- Up to a key, without gaps, what is no hole is a key. -/
theorem count_isKey (hE : 0 < b.entireCols) (hgap : ∀ q' < q, b.cell q' ≠ none) :
    Nat.count b.IsKey q = Nat.count b.anchorHalf.Free q := by
  apply count_congr
  intro q' hq'
  refine ⟨isKey_free hE, ?_⟩
  unfold anchorHalf
  rw [free_iff hE]
  intro hcell
  obtain ⟨cell, hsome⟩ := Option.ne_none_iff_exists'.mp (hgap q' hq')
  cases cell with
  | none => exact absurd hsome hcell
  | some pins => simp [IsKey, Board.pins, hsome]

/-- At a key, the scan reports the place that the position has in a layer. -/
theorem scan_place (hanchored : b.split = true ∨ b.anchorLeft = true) (hpins : b.pins q = some pins)
    (hown : ∀ row col, cellAt b.matrix row col = some (some pins) →
      row = q / b.entireCols ∧ col = b.matrixCol (q % b.entireCols)) :
    (b.half (b.onRight q)).scanMatrix (fun inPin outPin => (outPin, inPin) ≠ pins) =
      [b.anchorHalf.place q] := by
  have hcell := cell_of_pins hpins
  rw [scan_key _ hcell hown, scanCol_eq hanchored (entireCols_pos (cols_pos_of_cell hcell))]
  rfl

theorem laid_of_addLayer {gems : Gems} {map : List MapKey} {p : Placing} (hE : 0 < b.entireCols)
    (hp : b.anchorHalf.addLayer gems map = some p) : Laid gems b.anchorHalf map p := by
  obtain ⟨p', hp', hlaid⟩ := addLayer_laid (k := b.anchorHalf) gems skipPositions_lt hE map
  rw [hp, Option.some.injEq] at hp'
  exact hp' ▸ hlaid

theorem keysInPlace_of_regular (h : b.Regular) : b.KeysInPlace := by
  intro gems map
  by_cases hcols : 0 < b.cols
  · have hE := entireCols_pos hcols
    obtain ⟨p, hp, hlaid⟩ := addLayer_laid (k := b.anchorHalf) gems skipPositions_lt hE map
    refine ⟨p, hp, hlaid.placed, hlaid.placed_nodup hE, ?_⟩
    intro q pins key hpins hkey
    have hcell := cell_of_pins hpins
    have hfree : b.anchorHalf.Free q := by
      apply isKey_free hE
      simp [IsKey, hpins]
    have hcount : Nat.count b.IsKey q = Nat.count b.anchorHalf.Free q := by
      apply count_isKey hE
      intro q' hq' hnone
      simp [h.no_gap q' q hq' hnone] at hpins
    rw [hcount] at hkey ⊢
    have hlt : q < p.rowIndex * b.anchorHalf.entireColsSize + p.colIndex := by
      apply Nat.lt_of_count_lt_count (p := b.anchorHalf.Free)
      rw [hlaid.count]
      exact (List.getElem?_eq_some_iff.mp hkey).1
    obtain ⟨key', hkey', hplaced, hstored⟩ := hlaid.cells q hlt hfree
    obtain rfl : key' = key := by
      rw [hkey] at hkey'
      exact (Option.some.inj hkey').symm
    refine ⟨_, hplaced, hstored, ?_⟩
    have hanchored : b.split = true ∨ b.anchorLeft = true := by
      rcases h.anchored with hsplit | hleft | hnone
      · exact Or.inl hsplit
      · exact Or.inr hleft
      · simp [hnone q] at hpins
    exact scan_place hanchored hpins fun row col hrow => h.pins_inj _ _ _ _ _ hrow hcell
  · have hzero : b.cols = 0 := by omega
    have hskip : b.anchorHalf.skipPositions = [] := skipPositions_nil hzero
    have hcol : b.anchorHalf.calculateColPosition 0 = 0 := by
      unfold Layout.calculateColPosition
      rw [show b.anchorHalf.split = b.split from rfl, show b.anchorHalf.splitStyle = b.splitStyle from rfl]
      cases hsplit : b.split with
      | false => rfl
      | true =>
        cases hstyle : b.splitStyle with
        | standardSplit => rfl
        | rightSideFlippedSplit => exact absurd (h.wide hsplit hstyle) hcols
    obtain ⟨p, hp, hthin⟩ := addLayer_thin (k := b.anchorHalf) gems hzero hskip hcol map
    refine ⟨p, hp, hthin.placed, hthin.nodup, ?_⟩
    intro q pins key hpins
    exact absurd (cols_pos_of_cell (cell_of_pins hpins)) hcols

/-! ### From keys in place to the condition -/

def noGems : Gems := ⟨fun _ => none⟩

/-- A map of one key over and over. -/
def longMap (n : Nat) : List MapKey := List.replicate n (.symbol "KC_A")

/-- In a long enough map, two keys that are reported alike are at the same position. -/
theorem eq_of_scan_eq (h : b.KeysInPlace) {q q' : Nat} {pins' : Pin × Pin} (hpins : b.pins q = some pins)
    (hpins' : b.pins q' = some pins')
    (hscan : (b.half (b.onRight q)).scanMatrix (fun inPin outPin => (outPin, inPin) ≠ pins) =
      (b.half (b.onRight q')).scanMatrix (fun inPin outPin => (outPin, inPin) ≠ pins')) : q = q' := by
  obtain ⟨p, -, -, hnodup, hkeys⟩ := h noGems
    (longMap (max (Nat.count b.IsKey q) (Nat.count b.IsKey q') + 1))
  have hmap (i : Nat) (hi : i < max (Nat.count b.IsKey q) (Nat.count b.IsKey q') + 1) :
      (longMap (max (Nat.count b.IsKey q) (Nat.count b.IsKey q') + 1))[i]? = some (.symbol "KC_A") := by
    rw [longMap, List.getElem?_replicate, if_pos hi]
  obtain ⟨cell, hplaced, -, hcell⟩ := hkeys q pins _ hpins (hmap _ (by omega))
  obtain ⟨cell', hplaced', -, hcell'⟩ := hkeys q' pins' _ hpins' (hmap _ (by omega))
  rw [hscan, hcell', List.cons.injEq] at hcell
  rw [hcell.1, ← hplaced] at hplaced'
  have hlt := (List.getElem?_eq_some_iff.mp hplaced).1
  apply Nat.count_injective (p := b.IsKey)
  · simp [IsKey, hpins]
  · simp [IsKey, hpins']
  · exact (List.getElem?_inj hlt hnodup).mp hplaced'.symm

theorem pins_inj_of_keysInPlace (h : b.KeysInPlace) {row col row' col' : Nat}
    (hcell : cellAt b.matrix row col = some (some pins))
    (hcell' : cellAt b.matrix row' col' = some (some pins)) : row = row' ∧ col = col' := by
  have hcol : col < b.cols := col_lt hcell
  have hcol' : col' < b.cols := col_lt hcell'
  have hlt (c : Nat) (hc : c < b.cols) : c < b.anchorHalf.entireColsSize := by
    change c < b.entireCols
    unfold entireCols
    split <;> omega
  obtain ⟨hq, hleft⟩ := cell_left hcol row
  obtain ⟨hq', hleft'⟩ := cell_left hcol' row'
  have hpins : b.pins (row * b.entireCols + col) = some pins := by simp [Board.pins, hq, hcell]
  have hpins' : b.pins (row' * b.entireCols + col') = some pins := by simp [Board.pins, hq', hcell']
  have heq := eq_of_scan_eq h hpins hpins' (by rw [hleft, hleft'])
  obtain ⟨hdiv, hmod⟩ := place_of_lt (hlt col hcol) row
  obtain ⟨hdiv', hmod'⟩ := place_of_lt (hlt col' hcol') row'
  constructor
  · rw [← hdiv, ← hdiv']
    exact congrArg (· / b.entireCols) heq
  · rw [← hmod, ← hmod']
    exact congrArg (· % b.entireCols) heq

/-- A scan that mirrors without a split reports columns that no key has. -/
theorem anchored_of_keysInPlace (h : b.KeysInPlace) :
    b.split = true ∨ b.anchorLeft = true ∨ ∀ q, b.pins q = none := by
  by_contra hnot
  simp only [not_or, not_forall, Bool.not_eq_true] at hnot
  obtain ⟨hsplit, hleft, q, hq⟩ := hnot
  obtain ⟨pins, hpins⟩ := Option.ne_none_iff_exists'.mp hq
  have hcell := cell_of_pins hpins
  have hE := entireCols_pos (cols_pos_of_cell hcell)
  have hentire : b.entireCols = b.cols := by simp [entireCols, hsplit]
  obtain ⟨p, hp, -, -, hkeys⟩ := h noGems (longMap (Nat.count b.IsKey q + 1))
  have hlaid := laid_of_addLayer hE hp
  obtain ⟨cell, hplaced, -, hscan⟩ := hkeys q pins (.symbol "KC_A") hpins (by simp [longMap])
  rw [scan_key _ hcell fun _ _ hother => pins_inj_of_keysInPlace h hother hcell, List.cons.injEq,
    scanCol_half, hsplit, hleft] at hscan
  obtain ⟨q', -, -, -, hplaced'⟩ := hlaid.placed_eq (i := Nat.count b.IsKey q) (by simp [longMap])
  rw [hplaced', Option.some.injEq, ← hscan.1] at hplaced
  obtain ⟨c, hc, hlt⟩ := Layout.calculateColPosition_nat (k := b.anchorHalf) (Nat.mod_lt q' hE)
  have hcol := congrArg Prod.snd hplaced
  have hmatrixCol : b.matrixCol (q % b.entireCols) < b.cols := col_lt hcell
  change b.anchorHalf.calculateColPosition (q' % b.anchorHalf.entireColsSize) = _ at hcol
  rw [hc] at hcol
  change c < b.entireCols at hlt
  simp only [Bool.false_eq_true, if_false, Bool.not_false, if_true] at hcol
  omega

theorem no_gap_of_keysInPlace (h : b.KeysInPlace) {q q' : Nat} (hlt : q < q') (hgap : b.cell q = none) :
    b.pins q' = none := by
  by_contra hq'
  obtain ⟨pins, hpins⟩ := Option.ne_none_iff_exists'.mp hq'
  have hcell := cell_of_pins hpins
  have hE := entireCols_pos (cols_pos_of_cell hcell)
  have hanchored : b.split = true ∨ b.anchorLeft = true := by
    rcases anchored_of_keysInPlace h with hsplit | hleft | hnone
    · exact Or.inl hsplit
    · exact Or.inr hleft
    · simp [hnone q'] at hpins
  have hkey : b.IsKey q' := by simp [IsKey, hpins]
  have hcount : Nat.count b.IsKey q' < Nat.count b.anchorHalf.Free q' := by
    apply count_lt_count (fun _ => isKey_free hE) hlt
    · unfold anchorHalf
      rw [free_iff hE, hgap]
      simp
    · simp [IsKey, Board.pins, hgap]
  obtain ⟨p, hp, -, hnodup, hkeys⟩ := h noGems (longMap (Nat.count b.anchorHalf.Free q' + 1))
  have hlaid := laid_of_addLayer hE hp
  obtain ⟨cell, hplaced, -, hscan⟩ := hkeys q' pins (.symbol "KC_A") hpins (by
    rw [longMap, List.getElem?_replicate, if_pos (by omega)])
  rw [scan_place hanchored hpins fun _ _ hother => pins_inj_of_keysInPlace h hother hcell,
    List.cons.injEq] at hscan
  have hbound : q' < p.rowIndex * b.anchorHalf.entireColsSize + p.colIndex := by
    apply Nat.lt_of_count_lt_count (p := b.anchorHalf.Free)
    rw [hlaid.count]
    simp [longMap]
  obtain ⟨-, -, hplaced', -⟩ := hlaid.cells q' hbound (isKey_free hE hkey)
  rw [hscan.1, ← hplaced] at hplaced'
  have hinj := (List.getElem?_inj (List.getElem?_eq_some_iff.mp hplaced).1 hnodup).mp hplaced'.symm
  omega

theorem wide_of_keysInPlace (h : b.KeysInPlace) (hsplit : b.split = true)
    (hstyle : b.splitStyle = .rightSideFlippedSplit) : 0 < b.cols := by
  by_contra hcols
  have hzero : b.cols = 0 := by omega
  have hentire : b.entireCols = 0 := by simp [entireCols, hzero]
  obtain ⟨p, hp, -⟩ := h noGems (longMap 1)
  have hsplit' : b.anchorHalf.split = true := hsplit
  have hstyle' : b.anchorHalf.splitStyle = .rightSideFlippedSplit := hstyle
  have hentire' : b.anchorHalf.entireColsSize = 0 := hentire
  have hcols' : b.anchorHalf.colsSize = 0 := hzero
  have hcol : b.anchorHalf.calculateColPosition 0 = -1 := by
    simp [Layout.calculateColPosition, hsplit', hstyle', hentire', hcols']
  have hnone : b.anchorHalf.skipPosition 1 0 = false := by
    unfold Layout.skipPosition
    have hskip : b.anchorHalf.skipPositions = [] := skipPositions_nil hzero
    simp [hskip]
  simp [longMap, Layout.addLayer, Layout.addKey, Layout.wrapRow, hentire', Layout.skipHoles, hnone, hcol,
    Placing.put, arraySet] at hp

/-- Keys are in place exactly on the regular boards. -/
theorem keysInPlace_iff : b.KeysInPlace ↔ b.Regular := by
  refine ⟨fun h => ⟨?_, ?_, anchored_of_keysInPlace h, wide_of_keysInPlace h⟩, keysInPlace_of_regular⟩
  · intro row col row' col' pins hcell hcell'
    exact pins_inj_of_keysInPlace h hcell hcell'
  · intro q q' hlt hgap
    exact no_gap_of_keysInPlace h hlt hgap

/-- The first row is shorter, and nothing says that it has a hole. -/
def shortRow : Board := ⟨false, .standardSplit, true, [[some (0, 2)], [some (1, 2), some (1, 3)]]⟩

/-- The second key of a map goes behind the first one, and the scan reports it in the second row. -/
theorem short_row_shifts_keys : ¬ shortRow.KeysInPlace := by
  intro h
  have hnone : shortRow.pins 2 = none := no_gap_of_keysInPlace h (q := 1) (by decide) (by decide)
  revert hnone
  decide

end Main

end Board

end PicoRuby.Keyboard
