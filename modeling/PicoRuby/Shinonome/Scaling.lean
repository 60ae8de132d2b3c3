import Mathlib.Data.List.GetD
import PicoRuby.Shinonome.Font

/-!
# Scaled glyphs

What the rows of a scaled glyph show when they are put side by side again.
-/

namespace PicoRuby.Shinonome

set_option autoImplicit false

/-! ## Bits of a row -/

theorem and_one_ne_zero (row : BitVec 64) (i : Nat) : (row >>> i) &&& 1 ≠ 0 ↔ row.getLsbD i = true := by
  have hone : (row >>> i) &&& 1 = ((row >>> i) &&& 1#64) := rfl
  rw [hone, BitVec.and_one_eq_setWidth_ofBool_getLsbD, BitVec.getLsbD_ushiftRight, Nat.add_zero]
  cases row.getLsbD i <;> decide

theorem getBit_eq (row : BitVec 64) (x w : Nat) : getBit row x w = row.getLsbD (w - 1 - x) := by
  rw [Bool.eq_iff_iff, getBit, bne_iff_ne]
  exact and_one_ne_zero row _

theorem setBit_getLsbD (row : BitVec 64) (x w : Nat) {k : Nat} (hk : k < 64) :
    (setBit row x w).getLsbD k = (row.getLsbD k || decide (k = w - 1 - x)) := by
  have hone : (1 : BitVec 64) <<< (w - 1 - x) = 1#64 <<< (w - 1 - x) := rfl
  rw [setBit, BitVec.getLsbD_or, hone, ← BitVec.twoPow_eq, BitVec.getLsbD_twoPow]
  congr 1
  rw [Bool.eq_iff_iff, Bool.and_eq_true, decide_eq_true_iff, decide_eq_true_iff, decide_eq_true_iff]
  omega

/-! ## expand_bits -/

theorem expandBit_getLsbD (src dst : BitVec 64) {bitCount scale i k : Nat} (hk : k < 64) :
    (expandBit src bitCount scale dst i).getLsbD k =
      if k < scale then src.getLsbD (bitCount - 1 - i) else dst.getLsbD (k - scale) := by
  have hmask : (BitVec.ofNat 64 ((1 <<< scale) - 1)).getLsbD k = decide (k < scale) := by
    rw [BitVec.getLsbD_ofNat, Nat.one_shiftLeft, Nat.testBit_two_pow_sub_one, decide_eq_true hk, Bool.true_and]
  unfold expandBit
  simp only [and_one_ne_zero]
  split
  · rename_i hbit
    rw [BitVec.getLsbD_or, BitVec.getLsbD_shiftLeft, hmask, hbit]
    split <;> simp [*]
  · rename_i hbit
    rw [BitVec.getLsbD_shiftLeft]
    split <;> simp [*]

theorem expandBits_prefix (src : BitVec 64) {bitCount scale n : Nat} (hscale : 0 < scale) (hn : n ≤ bitCount) :
    ∀ k < 64, ((List.range n).foldl (expandBit src bitCount scale) 0).getLsbD k =
      (decide (k < n * scale) && src.getLsbD (bitCount - n + k / scale)) := by
  induction n with
  | zero =>
    intro k _
    rw [Nat.zero_mul, decide_eq_false (Nat.not_lt_zero k), Bool.false_and]
    exact BitVec.getLsbD_zero
  | succ n ih =>
    intro k hk
    rw [List.range_succ, List.foldl_append, List.foldl_cons, List.foldl_nil, expandBit_getLsbD _ _ hk, Nat.succ_mul]
    split
    · rename_i hlt
      have hbit : bitCount - (n + 1) + k / scale = bitCount - 1 - n := by
        rw [Nat.div_eq_of_lt hlt]
        omega
      rw [hbit, decide_eq_true (by omega), Bool.true_and]
    · rename_i hge
      have hbit : bitCount - n + (k - scale) / scale = bitCount - (n + 1) + k / scale := by
        rw [Nat.div_eq_sub_div hscale (by omega : scale ≤ k)]
        omega
      rw [ih (by omega) _ (by omega), hbit]
      congr 2
      rw [eq_iff_iff]
      omega

/-- A dot becomes as many dots as the scale says. -/
theorem expandBits_getLsbD (src : BitVec 64) {bitCount scale k : Nat} (hscale : 0 < scale) (hk : k < 64) :
    (expandBits src bitCount scale).getLsbD k = (decide (k < bitCount * scale) && src.getLsbD (k / scale)) := by
  have h := expandBits_prefix src hscale (Nat.le_refl bitCount) k hk
  rwa [Nat.sub_self, Nat.zero_add] at h

/-! ## smooth_edges -/

/-- A round for each row but the first changes each of them once. -/
theorem foldl_modify {α : Type} (f : Nat → α → α) (l : List α) (n j : Nat) :
    ((List.range n).foldl (fun l y => l.modify (y + 1) (f y)) l)[j]? =
      if 0 < j ∧ j ≤ n then l[j]?.map (f (j - 1)) else l[j]? := by
  induction n with
  | zero =>
    rw [if_neg (by omega)]
    rfl
  | succ n ih =>
    rw [List.range_succ, List.foldl_append, List.foldl_cons, List.foldl_nil]
    by_cases heq : n + 1 = j
    · subst heq
      rw [List.getElem?_modify_eq, ih, if_neg (by omega), if_pos (by omega)]
      rfl
    · rw [List.getElem?_modify_ne _ _ heq, ih]
      congr 1
      rw [eq_iff_iff]
      omega

section Smooth
variable {input : List (BitVec 64)} {w y : Nat}

def smoothRow (input : List (BitVec 64)) (w y : Nat) (row : BitVec 64) (x : Nat) : BitVec 64 :=
  if isDiagonal input w y x then setBit row (x + 1) w else row

theorem foldl_smoothAt (tmp : List (BitVec 64)) (n : Nat) :
    (List.range n).foldl (smoothAt input w y) tmp =
      tmp.modify (y + 1) ((List.range n).foldl (smoothRow input w y)) := by
  induction n with
  | zero => exact (List.modify_id _ _).symm
  | succ n ih =>
    have hrow : (List.range (n + 1)).foldl (smoothRow input w y) =
        fun row => smoothRow input w y ((List.range n).foldl (smoothRow input w y) row) n := by
      funext row
      rw [List.range_succ, List.foldl_append]
      rfl
    rw [List.range_succ, List.foldl_append, List.foldl_cons, List.foldl_nil, ih, ← List.range_succ, hrow, smoothAt]
    unfold smoothRow
    split
    · exact List.modify_modify_eq _ _ _ _
    · rfl

theorem foldl_smoothRow (row : BitVec 64) {n k : Nat} (hk : k < 64) :
    ((List.range n).foldl (smoothRow input w y) row).getLsbD k = true ↔
      row.getLsbD k = true ∨ ∃ x < n, isDiagonal input w y x = true ∧ k = w - 1 - (x + 1) := by
  induction n with
  | zero =>
    refine ⟨.inl, ?_⟩
    rintro (hbit | ⟨x, hx, -⟩)
    · exact hbit
    · exact absurd hx (Nat.not_lt_zero x)
  | succ n ih =>
    rw [List.range_succ, List.foldl_append, List.foldl_cons, List.foldl_nil, Nat.exists_lt_succ_right, ← or_assoc,
      ← ih, smoothRow]
    split
    · rename_i hdiagonal
      rw [setBit_getLsbD _ _ _ hk, Bool.or_eq_true, decide_eq_true_iff, and_iff_right hdiagonal]
    · rename_i hdiagonal
      exact (or_iff_left fun h => hdiagonal h.1).symm

theorem smoothEdges_getElem? (h j : Nat) :
    (smoothEdges input w h)[j]? =
      if 0 < j ∧ j ≤ h - 1 then
        input[j]?.map ((List.range (w - 1)).foldl (smoothRow input w (j - 1)))
      else input[j]? := by
  unfold smoothEdges
  simp only [foldl_smoothAt]
  exact foldl_modify _ _ _ _

end Smooth

/-! ## Glyphs -/

/-- A bitmap of half or full width. -/
structure Glyph.Fits (size : Size) (g : Glyph) : Prop where
  width : g.width = size.dots / 2 ∨ g.width = size.dots
  length : g.rows.length = size.dots
  lt : ∀ row ∈ g.rows, row.toNat < 2 ^ g.width

/-- The dot in a column and a row. -/
def Glyph.dot (g : Glyph) (x y : Nat) : Bool := getBit (g.rows.getD y 0) x g.width

def Glyph.enlarged (g : Glyph) (scale x y : Nat) : Bool := g.dot (x / scale) (y / scale)

/-- Two dots touch at a corner, and the other two of the square are not set; `(x, y)` is its last one. -/
def Corner (dot : Nat → Nat → Bool) (x y : Nat) : Prop :=
  0 < x ∧ 0 < y ∧
    ((dot (x - 1) (y - 1) = true ∧ dot x y = true ∧ dot x (y - 1) = false ∧ dot (x - 1) y = false) ∨
      (dot x (y - 1) = true ∧ dot (x - 1) y = true ∧ dot (x - 1) (y - 1) = false ∧ dot x y = false))

/-- The row `y` of bitmaps side by side. -/
def joinRow (widths : List Nat) (glyphs : List (List Nat)) (y : Nat) : Nat :=
  (widths.zip glyphs).foldl (fun row piece => (row <<< piece.1) ||| piece.2.getD y 0) 0

/-- The bitmaps side by side show the glyph, each dot as a block, and what `smooth_edges` adds. -/
structure Shows (size scale : Nat) (g : Glyph) (widths : List Nat) (glyphs : List (List Nat)) : Prop where
  width : widths.sum = g.width * scale
  pieces : List.Forall₂ (fun w rows => rows.length = size * scale ∧ ∀ row ∈ rows, row < 2 ^ w) widths glyphs
  dots : ∀ x < g.width * scale, ∀ y < size * scale,
    (joinRow widths glyphs y).testBit (g.width * scale - 1 - x) = true ↔
      g.enlarged scale x y = true ∨ (1 < scale ∧ Corner (g.enlarged scale) x y)

section Glyphs
variable {size : Size} {g : Glyph} {scale : Nat}

theorem Glyph.Fits.width_le (h : g.Fits size) : g.width ≤ size.dots ∧ size.dots ≤ 16 := by
  have hle : size.dots ≤ 16 := by cases size <;> decide
  rcases h.width with hwidth | hwidth
  · omega
  · omega

theorem flatMap_replicate_getElem? {α : Type} (l : List α) (hscale : 0 < scale) (y : Nat) :
    (l.flatMap (List.replicate scale))[y]? = l[y / scale]? := by
  induction l generalizing y with
  | nil => rfl
  | cons a l ih =>
    rw [List.flatMap_cons]
    by_cases hy : y < scale
    · rw [List.getElem?_append_left (by rwa [List.length_replicate]), List.getElem?_replicate_of_lt hy,
        Nat.div_eq_of_lt hy]
      rfl
    · rw [List.getElem?_append_right (by rw [List.length_replicate]; omega), List.length_replicate, ih,
        Nat.div_eq_sub_div hscale (by omega : scale ≤ y)]
      rfl

theorem Glyph.Fits.getLsbD (h : g.Fits size) (y : Nat) {k : Nat} (hk : g.width ≤ k) :
    (g.rows.getD y 0).getLsbD k = false := by
  by_cases hy : y < g.rows.length
  · rw [List.getD_eq_getElem _ _ hy]
    apply Nat.testBit_lt_two_pow
    exact Nat.lt_of_lt_of_le (h.lt _ (List.getElem_mem hy)) (Nat.pow_le_pow_right (by decide) hk)
  · rw [List.getD_eq_default _ _ (by omega)]
    exact BitVec.getLsbD_zero

theorem lines_getLsbD (h : g.Fits size) (hscale : 0 < scale) (y : Nat) {k : Nat} (hk : k < 64) :
    ((lines size.dots scale g).getD y 0).getLsbD k = (g.rows.getD (y / scale) 0).getLsbD (k / scale) := by
  rw [List.getD_eq_getElem?_getD, lines, flatMap_replicate_getElem? _ hscale, List.getElem?_map]
  cases hrow : g.rows[y / scale]? with
  | none =>
    rw [List.getD_eq_getElem?_getD, hrow]
    exact BitVec.getLsbD_zero.trans BitVec.getLsbD_zero.symm
  | some row =>
    have hget : g.rows.getD (y / scale) 0 = row := by
      rw [List.getD_eq_getElem?_getD, hrow]
      rfl
    rw [Option.map_some, Option.getD_some, hget, expandBits_getLsbD row hscale hk]
    by_cases hlt : k < size.dots * scale
    · rw [decide_eq_true hlt, Bool.true_and]
    · have hdiv : size.dots ≤ k / scale := (Nat.le_div_iff_mul_le hscale).mpr (by omega)
      rw [decide_eq_false hlt, Bool.false_and, ← hget, h.getLsbD _ (Nat.le_trans h.width_le.1 hdiv)]

theorem lines_high (h : g.Fits size) (hscale : 0 < scale) (y : Nat) {k : Nat} (hk : g.width * scale ≤ k) :
    ((lines size.dots scale g).getD y 0).getLsbD k = false := by
  by_cases hlt : k < 64
  · rw [lines_getLsbD h hscale y hlt]
    exact h.getLsbD _ ((Nat.le_div_iff_mul_le hscale).mpr hk)
  · exact BitVec.getLsbD_of_ge _ _ (by omega)

theorem lines_length (h : g.Fits size) : (lines size.dots scale g).length = size.dots * scale := by
  simp [lines, List.length_flatMap, Function.comp_def, List.map_const', List.sum_replicate_nat, h.length]

theorem lines_dot (h : g.Fits size) (hscale : 0 < scale) (hle : scale ≤ 4) {x : Nat} (y : Nat)
    (hx : x < g.width * scale) :
    getBit ((lines size.dots scale g).getD y 0) x (g.width * scale) = g.enlarged scale x y := by
  have hwidth := h.width_le
  have hprod : g.width * scale ≤ 16 * 4 := Nat.mul_le_mul (by omega) hle
  have hcolumn : (g.width * scale - 1 - x) / scale = g.width - 1 - x / scale := by
    rw [Nat.sub_sub, Nat.add_comm 1 x, Nat.mul_comm, Nat.mul_sub_div _ _ _ (by rwa [Nat.mul_comm])]
    omega
  rw [getBit_eq, lines_getLsbD h hscale y (by omega), hcolumn, Glyph.enlarged, Glyph.dot, getBit_eq]

theorem isDiagonal_lines (h : g.Fits size) (hscale : 0 < scale) (hle : scale ≤ 4) {x : Nat} (y : Nat)
    (hx : x + 1 < g.width * scale) :
    isDiagonal (lines size.dots scale g) (g.width * scale) y x = true ↔ Corner (g.enlarged scale) (x + 1) (y + 1) := by
  unfold isDiagonal Corner
  simp only [lines_dot h hscale hle _ hx, lines_dot h hscale hle _ (Nat.lt_of_succ_lt hx), Nat.add_sub_cancel,
    Nat.succ_pos, true_and, Bool.or_eq_true, Bool.and_eq_true, Bool.not_eq_true', and_assoc]

/-- A row of a scaled glyph. -/
theorem output_row (h : g.Fits size) (hscale : 0 < scale) (hle : scale ≤ 4) {y : Nat} (hy : y < size.dots * scale) :
    ∃ row, (output size.dots scale g)[y]? = some row ∧
      (∀ k, g.width * scale ≤ k → row.getLsbD k = false) ∧
      ∀ x < g.width * scale, row.getLsbD (g.width * scale - 1 - x) = true ↔
        g.enlarged scale x y = true ∨ Corner (g.enlarged scale) x y := by
  have hwidth := h.width_le
  have hprod : g.width * scale ≤ 16 * 4 := Nat.mul_le_mul (by omega) hle
  have hlen : (lines size.dots scale g).length = size.dots * scale := lines_length h
  have hline : (lines size.dots scale g)[y]? = some ((lines size.dots scale g).getD y 0) := by
    rw [List.getD_eq_getElem _ _ (by omega), List.getElem?_eq_getElem]
  have hdot (x : Nat) (hx : x < g.width * scale) :
      ((lines size.dots scale g).getD y 0).getLsbD (g.width * scale - 1 - x) = g.enlarged scale x y := by
    rw [← lines_dot h hscale hle y hx, getBit_eq]
  have hrow : (output size.dots scale g)[y]? = _ := smoothEdges_getElem? (size.dots * scale) y
  rw [hline] at hrow
  by_cases htop : 0 < y ∧ y ≤ size.dots * scale - 1
  · rw [if_pos htop, Option.map_some] at hrow
    refine ⟨_, hrow, fun k hk => ?_, fun x hx => ?_⟩
    · by_cases hlt : k < 64
      · rw [Bool.eq_false_iff, Ne, foldl_smoothRow _ hlt, lines_high h hscale y hk]
        rintro (hbit | ⟨x, hx, -, rfl⟩)
        · cases hbit
        · omega
      · exact BitVec.getLsbD_of_ge _ _ (by omega)
    · rw [foldl_smoothRow _ (by omega), hdot x hx]
      apply or_congr_right
      obtain ⟨y, rfl⟩ := Nat.exists_eq_succ_of_ne_zero (Nat.ne_of_gt htop.1)
      constructor
      · rintro ⟨x', hx', hdiagonal, heq⟩
        obtain rfl : x = x' + 1 := by omega
        exact (isDiagonal_lines h hscale hle y hx).mp hdiagonal
      · intro hcorner
        obtain ⟨x, rfl⟩ := Nat.exists_eq_succ_of_ne_zero (Nat.ne_of_gt hcorner.1)
        exact ⟨x, by omega, (isDiagonal_lines h hscale hle y hx).mpr hcorner, rfl⟩
  · rw [if_neg htop] at hrow
    refine ⟨_, hrow, fun k hk => lines_high h hscale y hk, fun x hx => ?_⟩
    rw [hdot x hx]
    refine (or_iff_left fun hcorner => ?_).symm
    exact htop ⟨hcorner.2.1, by omega⟩

theorem output_length (h : g.Fits size) : (output size.dots scale g).length = size.dots * scale := by
  have hnone (j : Nat) : (output size.dots scale g)[j]? = none ↔ (lines size.dots scale g)[j]? = none := by
    rw [output, smoothEdges_getElem?]
    split
    · exact Option.map_eq_none_iff
    · exact Iff.rfl
  simp only [List.getElem?_eq_none_iff, lines_length h] at hnone
  exact Nat.le_antisymm ((hnone _).mpr (Nat.le_refl _)) ((hnone _).mp (Nat.le_refl _))

theorem low_testBit (row : BitVec 64) (k : Nat) :
    (row.setWidth 32).toNat.testBit k = (decide (k < 32) && row.getLsbD k) := by
  rw [BitVec.testBit_toNat, BitVec.getLsbD_setWidth]

theorem high_testBit (row : BitVec 64) (k : Nat) :
    ((row >>> 32).setWidth 32).toNat.testBit k = (decide (k < 32) && row.getLsbD (32 + k)) := by
  rw [BitVec.testBit_toNat, BitVec.getLsbD_setWidth, BitVec.getLsbD_ushiftRight]

theorem pieceWidths_sum (scale : Nat) (g : Glyph) : (pieceWidths scale g).sum = g.width * scale := by
  unfold pieceWidths
  split
  · change g.width * scale - 32 + (32 + 0) = g.width * scale
    omega
  · exact List.sum_singleton

theorem joinRow_one (w : Nat) (rows : List Nat) (y : Nat) : joinRow [w] [rows] y = rows.getD y 0 := by
  change (0 <<< w) ||| rows.getD y 0 = rows.getD y 0
  rw [Nat.zero_shiftLeft, Nat.zero_or]

theorem joinRow_two (w w' : Nat) (rows rows' : List Nat) (y : Nat) :
    joinRow [w, w'] [rows, rows'] y = (rows.getD y 0 <<< w') ||| rows'.getD y 0 := by
  change (((0 <<< w) ||| rows.getD y 0) <<< w') ||| rows'.getD y 0 = _
  rw [Nat.zero_shiftLeft, Nat.zero_or]

theorem getD_map {rows : List (BitVec 64)} {row : BitVec 64} {y : Nat} (f : BitVec 64 → Nat) (h : rows[y]? = some row) :
    (rows.map f).getD y 0 = f row := by
  rw [List.getD_eq_getElem?_getD, List.getElem?_map, h]
  rfl

/-- Above the width of the glyph no bit is set. -/
theorem output_high (h : g.Fits size) (hscale : 0 < scale) (hle : scale ≤ 4) :
    ∀ row ∈ output size.dots scale g, ∀ k, g.width * scale ≤ k → row.getLsbD k = false := by
  intro row hrow
  obtain ⟨y, hy⟩ := List.mem_iff_getElem?.mp hrow
  have hlt := (List.getElem?_eq_some_iff.mp hy).1
  rw [output_length h] at hlt
  obtain ⟨row', hrow', hhigh, -⟩ := output_row h hscale hle hlt
  cases hy.symm.trans hrow'
  exact hhigh

theorem shows_once (h : g.Fits size) : Shows size.dots 1 g (pieceWidths 1 g) (pieceRows size.dots 1 g) := by
  have hwidth := h.width_le
  have hsum := pieceWidths_sum 1 g
  unfold pieceWidths at hsum ⊢
  unfold pieceRows
  rw [if_neg (by omega)] at hsum ⊢
  rw [if_pos rfl]
  refine ⟨hsum, .cons ⟨?_, ?_⟩ .nil, ?_⟩
  · rw [List.length_map, h.length, Nat.mul_one]
  · intro v hv
    obtain ⟨row, hrow, rfl⟩ := List.mem_map.mp hv
    rw [Nat.mul_one]
    exact h.lt row hrow
  · intro x hx y hy
    rw [Nat.mul_one] at hx hy ⊢
    have hrow : g.rows[y]? = some (g.rows.getD y 0) := by
      have hlen := h.length
      rw [List.getD_eq_getElem _ _ (by omega), List.getElem?_eq_getElem]
    rw [joinRow_one, getD_map _ hrow, BitVec.testBit_toNat, Glyph.enlarged, Nat.div_one, Nat.div_one, Glyph.dot,
      getBit_eq]
    exact (or_iff_left fun hone => Nat.lt_irrefl 1 hone.1).symm

/-- A glyph that is wider than 32 dots comes in two pieces. -/
theorem shows_two (h : g.Fits size) (hscale : 1 < scale) (hle : scale ≤ 4) (hwide : 32 < g.width * scale) :
    Shows size.dots scale g (pieceWidths scale g) (pieceRows size.dots scale g) := by
  have hwidth := h.width_le
  have hprod : g.width * scale ≤ 16 * 4 := Nat.mul_le_mul (by omega) hle
  have hhigh := output_high h (Nat.lt_of_succ_lt hscale) hle
  have hsum := pieceWidths_sum scale g
  unfold pieceWidths at hsum ⊢
  unfold pieceRows
  rw [if_pos hwide] at hsum ⊢
  rw [if_neg (by omega), if_pos hwide]
  refine ⟨hsum, .cons ⟨?_, ?_⟩ (.cons ⟨?_, ?_⟩ .nil), ?_⟩
  · rw [List.length_map, output_length h]
  · intro v hv
    obtain ⟨row, hrow, rfl⟩ := List.mem_map.mp hv
    apply Nat.lt_pow_two_of_testBit
    intro k hk
    rw [high_testBit, hhigh row hrow _ (by omega), Bool.and_false]
  · rw [List.length_map, output_length h]
  · intro v hv
    obtain ⟨row, hrow, rfl⟩ := List.mem_map.mp hv
    exact BitVec.isLt _
  · intro x hx y hy
    obtain ⟨row, hrow, -, hdots⟩ := output_row h (Nat.lt_of_succ_lt hscale) hle hy
    rw [joinRow_two, getD_map _ hrow, getD_map _ hrow, Nat.testBit_or, Nat.testBit_shiftLeft, high_testBit, low_testBit,
      and_iff_right hscale, ← hdots x hx]
    by_cases hlow : g.width * scale - 1 - x < 32
    · rw [decide_eq_false (by omega), decide_eq_true hlow, Bool.false_and, Bool.false_or, Bool.true_and]
    · have hbit : 32 + (g.width * scale - 1 - x - 32) = g.width * scale - 1 - x := by omega
      rw [decide_eq_true (by omega), decide_eq_true (by omega), decide_eq_false hlow, Bool.true_and, Bool.true_and,
        Bool.false_and, Bool.or_false, hbit]

theorem shows_single (h : g.Fits size) (hscale : 1 < scale) (hle : scale ≤ 4) (hnarrow : ¬ 32 < g.width * scale) :
    Shows size.dots scale g (pieceWidths scale g) (pieceRows size.dots scale g) := by
  have hhigh := output_high h (Nat.lt_of_succ_lt hscale) hle
  have hsum := pieceWidths_sum scale g
  unfold pieceWidths at hsum ⊢
  unfold pieceRows
  rw [if_neg hnarrow] at hsum ⊢
  rw [if_neg (by omega), if_neg hnarrow]
  refine ⟨hsum, .cons ⟨?_, ?_⟩ .nil, ?_⟩
  · rw [List.length_map, output_length h]
  · intro v hv
    obtain ⟨row, hrow, rfl⟩ := List.mem_map.mp hv
    apply Nat.lt_pow_two_of_testBit
    intro k hk
    rw [low_testBit, hhigh row hrow k hk, Bool.and_false]
  · intro x hx y hy
    obtain ⟨row, hrow, -, hdots⟩ := output_row h (Nat.lt_of_succ_lt hscale) hle hy
    rw [joinRow_one, getD_map _ hrow, low_testBit, decide_eq_true (by omega), Bool.true_and, and_iff_right hscale,
      ← hdots x hx]

theorem shows_pieces (h : g.Fits size) (hscale : 1 ≤ scale) (hle : scale ≤ 4) :
    Shows size.dots scale g (pieceWidths scale g) (pieceRows size.dots scale g) := by
  rcases Nat.eq_or_lt_of_le hscale with rfl | hscale
  · exact shows_once h
  by_cases hwide : 32 < g.width * scale
  · exact shows_two h hscale hle hwide
  · exact shows_single h hscale hle hwide

end Glyphs

/-! ## The rows of a font -/

section Rows
variable {n : Nat} {a b : BitVec 64} (data : Bytes) (i : Nat)

theorem word_lt : (word data i).toNat < 2 ^ 8 := by
  rw [word, BitVec.toNat_ofNat]
  exact Nat.lt_of_le_of_lt (Nat.mod_le _ _) (UInt8.toNat_lt _)

theorem or_lt (ha : a.toNat < 2 ^ n) (hb : b.toNat < 2 ^ n) : (a ||| b).toNat < 2 ^ n := by
  rw [BitVec.toNat_or]
  exact Nat.or_lt_two_pow ha hb

theorem shiftLeft_lt (k : Nat) (h : a.toNat * 2 ^ k < 2 ^ n) : (a <<< k).toNat < 2 ^ n := by
  rw [BitVec.toNat_shiftLeft, Nat.shiftLeft_eq]
  exact Nat.lt_of_le_of_lt (Nat.mod_le _ _) h

theorem shiftRight_lt (k : Nat) (h : a.toNat / 2 ^ k < 2 ^ n) : (a >>> k).toNat < 2 ^ n := by
  rwa [BitVec.toNat_ushiftRight, Nat.shiftRight_eq_div_pow]

theorem and_le : (a &&& b).toNat ≤ b.toNat := by
  rw [BitVec.toNat_and]
  exact Nat.and_le_right

theorem asciiRows_fits {size : Size} : (⟨size.dots / 2, asciiRows data size⟩ : Glyph).Fits size := by
  have hword := word_lt data
  cases size with
  | dots12 =>
    refine ⟨.inl rfl, rfl, fun row hrow => ?_⟩
    obtain ⟨i, -, hrow⟩ := List.mem_flatMap.mp hrow
    have htwo : (word data (i * 3) &&& 0x3).toNat ≤ 3 := and_le
    have hfour : (word data (i * 3 + 1) &&& 0xF).toNat ≤ 15 := and_le
    have hsix : (word data (i * 3 + 2) &&& 0x3F).toNat ≤ 63 := and_le
    have hfirst := hword (i * 3)
    have hsecond := hword (i * 3 + 1)
    have hthird := hword (i * 3 + 2)
    change row.toNat < 2 ^ 6
    simp only [List.mem_cons, List.not_mem_nil, or_false] at hrow
    rcases hrow with rfl | rfl | rfl | rfl
    · exact shiftRight_lt 2 (by omega)
    · exact or_lt (shiftLeft_lt 4 (by omega)) (shiftRight_lt 4 (by omega))
    · exact or_lt (shiftLeft_lt 2 (by omega)) (shiftRight_lt 6 (by omega))
    · omega
  | dots16 =>
    refine ⟨.inl rfl, rfl, fun row hrow => ?_⟩
    obtain ⟨i, -, rfl⟩ := List.mem_map.mp hrow
    exact hword i

theorem jisRows_fits {size : Size} : (⟨size.dots, jisRows data size⟩ : Glyph).Fits size := by
  have hword := word_lt data
  cases size with
  | dots12 =>
    refine ⟨.inr rfl, rfl, fun row hrow => ?_⟩
    obtain ⟨i, -, hrow⟩ := List.mem_flatMap.mp hrow
    have hfour : (word data (i * 3 + 1) &&& 0xF).toNat ≤ 15 := and_le
    have hfirst := hword (i * 3)
    have hsecond := hword (i * 3 + 1)
    have hthird := hword (i * 3 + 2)
    change row.toNat < 2 ^ 12
    simp only [List.mem_cons, List.not_mem_nil, or_false] at hrow
    rcases hrow with rfl | rfl
    · exact or_lt (shiftLeft_lt 4 (by omega)) (shiftRight_lt 4 (by omega))
    · exact or_lt (shiftLeft_lt 8 (by omega)) (by omega)
  | dots16 =>
    refine ⟨.inr rfl, rfl, fun row hrow => ?_⟩
    obtain ⟨i, -, rfl⟩ := List.mem_map.mp hrow
    have hfirst := hword (i * 2)
    have hsecond := hword (i * 2 + 1)
    change ((word data (i * 2) <<< 8) ||| word data (i * 2 + 1)).toNat < 2 ^ 16
    exact or_lt (shiftLeft_lt 8 (by omega)) (by omega)

end Rows

/-! ## The call -/

section Call
variable {size : Size} {t : Unicode2jis} {font : Font size} {s rest : Bytes} {g : Glyph} {scale : Nat}

theorem sub_fits (h : arrayOfShinonomeSub t font s = .ok (some g, rest)) : g.Fits size := by
  unfold arrayOfShinonomeSub at h
  obtain ⟨⟨c, s'⟩, -, h⟩ := Shared.bind_eq_ok.mp h
  dsimp only at h
  split at h
  · obtain ⟨data, -, h⟩ := Shared.bind_eq_ok.mp h
    cases h
    exact asciiRows_fits data
  · split at h
    · obtain ⟨row, -, h⟩ := Shared.bind_eq_ok.mp h
      obtain ⟨data, -, h⟩ := Shared.bind_eq_ok.mp h
      cases h
      exact jisRows_fits data
    · cases h

/-- The glyphs of a text, in order. -/
inductive Looked (t : Unicode2jis) (font : Font size) : Bytes → List Glyph → Prop where
  | nil : Looked t font [] []
  | cons {s rest : Bytes} {g : Glyph} {gs : List Glyph} (h : arrayOfShinonomeSub t font s = .ok (some g, rest))
    (hrest : Looked t font rest gs) : Looked t font s (g :: gs)

theorem Looked.fits {gs : List Glyph} (h : Looked t font s gs) : ∀ g ∈ gs, g.Fits size := by
  induction h with
  | nil => exact List.forall_mem_nil _
  | cons h _ ih => exact List.forall_mem_cons.mpr ⟨sub_fits h, ih⟩

theorem glyphLoop_looked (s : Bytes) (r : Result) {r' : Result} (h : glyphLoop t font scale s r = .ok r') :
    ∃ gs, Looked t font s gs ∧ r' = gs.foldl (Result.push size.dots scale) r := by
  fun_induction glyphLoop t font scale s r with
  | case1 r =>
    cases h
    exact ⟨[], .nil, rfl⟩
  | case2 s r _ e _ => cases h
  | case3 s r _ rest _ => cases h
  | case4 s r _ g rest hsub ih =>
    obtain ⟨gs, hgs, hr⟩ := ih h
    exact ⟨g :: gs, .cons hsub hgs, hr⟩

theorem foldl_push (gs : List Glyph) (r : Result) :
    gs.foldl (Result.push size.dots scale) r =
      { r with
        totalWidth := r.totalWidth + (gs.map fun g => g.width * scale).sum
        widths := r.widths ++ gs.flatMap (pieceWidths scale)
        glyphs := r.glyphs ++ gs.flatMap (pieceRows size.dots scale) } := by
  induction gs generalizing r with
  | nil => simp
  | cons g gs ih =>
    rw [List.foldl_cons, ih]
    simp [Result.push, Nat.add_assoc]

theorem sum_pieceWidths (scale : Nat) (gs : List Glyph) :
    (gs.flatMap (pieceWidths scale)).sum = (gs.map fun g => g.width * scale).sum := by
  induction gs with
  | nil => rfl
  | cons g gs ih =>
    rw [List.flatMap_cons, List.sum_append, pieceWidths_sum, ih, List.map_cons, List.sum_cons]

/-- **Glyph scaling.** The rows that are returned for a glyph show it with each dot as a block, and besides only what
`smooth_edges` adds; those of a text come in its order, and their widths add up to its width. -/
theorem glyphs_scaled (t : Unicode2jis) (font : Font size) (hscale : 1 ≤ scale) (hle : scale ≤ 4) :
    (∀ g : Glyph, g.Fits size → Shows size.dots scale g (pieceWidths scale g) (pieceRows size.dots scale g)) ∧
    ∀ text r, arrayOfShinonome t font text scale = .ok r →
      ∃ gs, Looked t font text gs ∧ (∀ g ∈ gs, g.Fits size) ∧ r.height = size.dots * scale ∧
        r.widths = gs.flatMap (pieceWidths scale) ∧ r.glyphs = gs.flatMap (pieceRows size.dots scale) ∧
        r.widths.sum = r.totalWidth := by
  refine ⟨fun g hg => shows_pieces hg hscale hle, fun text r h => ?_⟩
  unfold arrayOfShinonome at h
  split at h
  · cases h
  split at h
  · cases h
  obtain ⟨gs, hgs, rfl⟩ := glyphLoop_looked text _ h
  rw [Int.toNat_natCast, foldl_push]
  refine ⟨gs, hgs, hgs.fits, rfl, List.nil_append _, List.nil_append _, ?_⟩
  rw [List.nil_append, sum_pieceWidths, Nat.zero_add]

theorem glyphs_scaled_four :
    (∀ g : Glyph, g.Fits .dots16 → Shows 16 4 g (pieceWidths 4 g) (pieceRows 16 4 g)) ∧
    ∀ text r, arrayOfShinonome ⟨[], .nil, List.forall_mem_nil _⟩ (blankFont .dots16) text (4 : Nat) = .ok r →
      ∃ gs, Looked ⟨[], .nil, List.forall_mem_nil _⟩ (blankFont .dots16) text gs ∧ (∀ g ∈ gs, g.Fits .dots16) ∧
        r.height = 16 * 4 ∧ r.widths = gs.flatMap (pieceWidths 4) ∧ r.glyphs = gs.flatMap (pieceRows 16 4) ∧
        r.widths.sum = r.totalWidth :=
  glyphs_scaled ⟨[], .nil, List.forall_mem_nil _⟩ (blankFont .dots16) (by decide) (by decide)

end Call

end PicoRuby.Shinonome
