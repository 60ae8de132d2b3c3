import PicoRuby.Keyboard.Layout
import Mathlib.Data.Nat.Count

/-!
# Where a layer has its keys

The positions of a keyboard in reading order are numbered row by row, over both halves of a split one.
`add_layer` gives the keys of a map to the positions that are no holes, in this order.
-/

namespace PicoRuby.Keyboard

open Shared

set_option autoImplicit false

/-! ## Cells of a layer -/

theorem cellOf_append_nil (newMap : List (List (Option Stored))) (cell : Nat × Int) :
    cellOf (newMap ++ [[]]) cell = cellOf newMap cell := by
  unfold cellOf
  rcases Nat.lt_trichotomy cell.1 newMap.length with hlt | heq | hgt
  · rw [List.getElem?_append_left hlt]
  · simp [heq, arrayGet]
  · rw [List.getElem?_eq_none (by simp; omega), List.getElem?_eq_none (by omega)]

theorem put_eq {p : Placing} (hrows : p.newMap.length = p.rowIndex + 1) (col : Nat) (value : Stored) :
    ∃ newMap,
    p.put col value = some { p with newMap } ∧ newMap.length = p.rowIndex + 1 ∧
      (∀ row j : Nat, cellOf newMap (row, j) =
        if row = p.rowIndex ∧ j = col then some value else cellOf p.newMap (row, j)) ∧
      ∀ n, col < n → (∀ row ∈ p.newMap, row.length ≤ n) → ∀ row ∈ newMap, row.length ≤ n := by
  have hlt : p.rowIndex < p.newMap.length := by omega
  have hrow := List.getElem?_eq_getElem hlt
  refine ⟨p.newMap.set p.rowIndex (setGrow (p.newMap.get ⟨p.rowIndex, hlt⟩) col value), ?_, ?_, ?_, ?_⟩
  · rw [Placing.put, hrow]
    dsimp only [Option.bind_eq_bind, Option.bind_some]
    rw [arraySet_natCast]
    rfl
  · simpa using hrows
  · intro row j
    unfold cellOf
    dsimp only
    rw [List.getElem?_set, Int.toNat_natCast]
    by_cases hr : p.rowIndex = row
    · subst hr
      rw [if_pos rfl, if_pos hlt, hrow]
      simp [arrayGet_setGrow]
    · rw [if_neg hr, if_neg fun h => hr h.1.symm]
  · intro n hcol hwidth row hmem
    rcases List.mem_or_eq_of_mem_set hmem with hold | rfl
    · exact hwidth row hold
    · have hold := hwidth _ (p.newMap.get_mem ⟨p.rowIndex, hlt⟩)
      rw [setGrow_length]
      omega

/-! ## Positions -/

namespace Layout
variable (k : Layout)

/-- The cell of a layer for a position. -/
def place (q : Nat) : Nat × Int := (q / k.entireColsSize, k.calculateColPosition (q % k.entireColsSize))

/-- A position that `add_layer` gives to a key. -/
def Free (q : Nat) : Prop := k.skipPosition (q / k.entireColsSize) (q % k.entireColsSize) = false

instance : DecidablePred k.Free := fun _ => inferInstanceAs (Decidable (_ = _))

variable {k}

theorem entireColsSize_le : k.entireColsSize ≤ k.colsSize * 2 := by
  unfold entireColsSize
  split <;> omega

theorem calculateColPosition_nat {col : Nat} (h : col < k.entireColsSize) :
    ∃ c : Nat, k.calculateColPosition col = c ∧ c < k.entireColsSize := by
  unfold calculateColPosition
  cases hsplit : k.split with
  | false => exact ⟨col, rfl, h⟩
  | true =>
    have hentire : k.entireColsSize = k.colsSize * 2 := by simp [entireColsSize, hsplit]
    cases k.splitStyle with
    | standardSplit => exact ⟨col, rfl, h⟩
    | rightSideFlippedSplit =>
      dsimp only
      by_cases hleft : col < k.colsSize
      · exact ⟨col, by simp [hleft], h⟩
      · refine ⟨k.entireColsSize - (col - k.colsSize) - 1, ?_, by omega⟩
        simp only [Bool.not_true, Bool.false_eq_true, if_false, if_neg hleft]
        omega

theorem calculateColPosition_inj {a b : Nat} (ha : a < k.entireColsSize) (hb : b < k.entireColsSize)
    (h : k.calculateColPosition a = k.calculateColPosition b) : a = b := by
  unfold calculateColPosition at h
  cases hsplit : k.split with
  | false =>
    rw [hsplit] at h
    exact Int.natCast_inj.mp h
  | true =>
    have hentire : k.entireColsSize = k.colsSize * 2 := by simp [entireColsSize, hsplit]
    rw [hsplit] at h
    cases hstyle : k.splitStyle with
    | standardSplit =>
      rw [hstyle] at h
      exact Int.natCast_inj.mp h
    | rightSideFlippedSplit =>
      simp only [hstyle, Bool.not_true, Bool.false_eq_true, if_false] at h
      split_ifs at h <;> omega

theorem place_inj (hE : 0 < k.entireColsSize) {q q' : Nat} (h : k.place q = k.place q') : q = q' := by
  obtain ⟨hrow, hcol⟩ := Prod.mk.inj h
  have hmod := calculateColPosition_inj (Nat.mod_lt q hE) (Nat.mod_lt q' hE) hcol
  rw [← Nat.div_add_mod q k.entireColsSize, ← Nat.div_add_mod q' k.entireColsSize, hrow, hmod]

/-- Holes are in the rows that there are. -/
theorem free_of_ge (hskip : ∀ pos ∈ k.skipPositions, pos.1 < k.rowsSize) (hE : 0 < k.entireColsSize)
    {q : Nat} (h : k.rowsSize * k.entireColsSize ≤ q) : k.Free q := by
  have hrow : k.rowsSize ≤ q / k.entireColsSize := (Nat.le_div_iff_mul_le hE).mpr h
  unfold Free skipPosition
  rw [List.any_eq_false]
  intro pos hpos
  have hlt := hskip pos hpos
  have hne : pos.1 ≠ q / k.entireColsSize := by omega
  simp [hne]

end Layout

/-! ## Counting positions -/

section Count
variable {F G : Nat → Prop} [DecidablePred F] [DecidablePred G] {n i : Nat}

/-- Each number up to the count is the count at one of the positions counted. -/
theorem exists_of_lt_count (h : i < Nat.count F n) : ∃ q < n, F q ∧ Nat.count F q = i := by
  induction n with
  | zero => simp at h
  | succ n ih =>
    by_cases hlt : i < Nat.count F n
    · obtain ⟨q, hq, hF, hcount⟩ := ih hlt
      exact ⟨q, by omega, hF, hcount⟩
    · rw [Nat.count_succ] at h
      split at h
      · rename_i hF
        exact ⟨n, by omega, hF, by omega⟩
      · omega

theorem count_congr (h : ∀ q < n, (F q ↔ G q)) : Nat.count F n = Nat.count G n := by
  induction n with
  | zero => simp
  | succ n ih =>
    rw [Nat.count_succ, Nat.count_succ, ih fun q hq => h q (by omega)]
    simp [h n (by omega)]

theorem count_lt_count (h : ∀ q, F q → G q) (hi : i < n) (hG : G i) (hF : ¬ F i) :
    Nat.count F n < Nat.count G n := by
  induction n with
  | zero => simp at hi
  | succ n ih =>
    rw [Nat.count_succ, Nat.count_succ]
    by_cases heq : i = n
    · subst heq
      rw [if_neg hF, if_pos hG]
      have hle := Nat.count_mono_left (n := i) fun q _ => h q
      omega
    · have hlt := ih (by omega)
      by_cases hn : F n
      · rw [if_pos hn, if_pos (h n hn)]
        omega
      · rw [if_neg hn]
        omega

end Count

/-! ## The loop of `add_layer` -/

/-- The keys so far have got the first positions that are no holes, up to a position. -/
structure Laid (gems : Gems) (k : Layout) (keys : List MapKey) (p : Placing) : Prop where
  col_le : p.colIndex ≤ k.entireColsSize
  rows : p.newMap.length = p.rowIndex + 1
  count : Nat.count k.Free (p.rowIndex * k.entireColsSize + p.colIndex) = keys.length
  placed : p.placed.length = keys.length
  cells (q : Nat) (hq : q < p.rowIndex * k.entireColsSize + p.colIndex) (hfree : k.Free q) :
    ∃ key, keys[Nat.count k.Free q]? = some key ∧ p.placed[Nat.count k.Free q]? = some (k.place q) ∧
      cellOf p.newMap (k.place q) = some (key.stored gems)
  width : ∀ row ∈ p.newMap, row.length ≤ k.entireColsSize
  stored (row j : Nat) (value : Stored) (h : cellOf p.newMap (row, j) = some value) :
    value = .code 0 ∨ ∃ key ∈ keys, value = key.stored gems

section Loop
variable {gems : Gems} {k : Layout} {keys : List MapKey} {p : Placing}

theorem place_of_lt {col : Nat} (hcol : col < k.entireColsSize) (row : Nat) :
    (row * k.entireColsSize + col) / k.entireColsSize = row ∧
      (row * k.entireColsSize + col) % k.entireColsSize = col := by
  have hE : 0 < k.entireColsSize := by omega
  constructor
  · rw [Nat.add_comm, Nat.add_mul_div_right _ _ hE, Nat.div_eq_of_lt hcol, Nat.zero_add]
  · rw [Nat.add_comm, Nat.add_mul_mod_self_right, Nat.mod_eq_of_lt hcol]

theorem wrapRow_laid (hE : 0 < k.entireColsSize) (h : Laid gems k keys p) :
    Laid gems k keys (k.wrapRow p) ∧ (k.wrapRow p).colIndex < k.entireColsSize ∧
      (k.wrapRow p).rowIndex * k.entireColsSize + (k.wrapRow p).colIndex =
        p.rowIndex * k.entireColsSize + p.colIndex := by
  unfold Layout.wrapRow
  split
  · rename_i hend
    have heq : p.colIndex = k.entireColsSize := Nat.le_antisymm h.col_le hend
    have hplace : (p.rowIndex + 1) * k.entireColsSize + 0 = p.rowIndex * k.entireColsSize + p.colIndex := by
      rw [heq, Nat.succ_mul, Nat.add_zero]
    refine ⟨⟨Nat.zero_le _, by simp [h.rows], hplace ▸ h.count, h.placed, ?_, ?_, ?_⟩, hE, hplace⟩
    · intro q hq hfree
      dsimp only at hq ⊢
      rw [hplace] at hq
      rw [cellOf_append_nil]
      exact h.cells q hq hfree
    · intro row hrow
      rcases List.mem_append.mp hrow with hold | hnew
      · exact h.width row hold
      · simp [List.mem_singleton.mp hnew]
    · intro row j value hvalue
      rw [cellOf_append_nil] at hvalue
      exact h.stored row j value hvalue
  · exact ⟨h, by omega, rfl⟩

theorem hole_laid (h : Laid gems k keys p) (hcol : p.colIndex < k.entireColsSize)
    (hskip : k.skipPosition p.rowIndex p.colIndex = true) :
    ∃ p', p.put (k.calculateColPosition p.colIndex) (.code 0) = some p' ∧
      Laid gems k keys { p' with colIndex := p'.colIndex + 1 } ∧
      p'.rowIndex = p.rowIndex ∧ p'.colIndex = p.colIndex := by
  obtain ⟨hdiv, hmod⟩ := place_of_lt hcol p.rowIndex
  obtain ⟨c, hc, hclt⟩ := Layout.calculateColPosition_nat hcol
  obtain ⟨newMap, hput, hlen, hcells, hwidth⟩ := put_eq h.rows c (.code 0)
  rw [hc]
  have hhole : ¬ k.Free (p.rowIndex * k.entireColsSize + p.colIndex) := by
    unfold Layout.Free
    rw [hdiv, hmod, hskip]
    simp
  refine ⟨_, hput, ⟨hcol, hlen, ?_, h.placed, ?_, hwidth _ hclt h.width, ?_⟩, rfl, rfl⟩
  · dsimp only
    rw [← Nat.add_assoc, Nat.count_succ, if_neg hhole, Nat.add_zero]
    exact h.count
  · intro q hq hfree
    dsimp only at hq ⊢
    have hne : q ≠ p.rowIndex * k.entireColsSize + p.colIndex := by
      rintro rfl
      exact hhole hfree
    obtain ⟨key, hkey, hplaced, hstored⟩ := h.cells q (by omega) hfree
    refine ⟨key, hkey, hplaced, ?_⟩
    have hE : 0 < k.entireColsSize := by omega
    obtain ⟨c', hc', -⟩ := Layout.calculateColPosition_nat (Nat.mod_lt q hE)
    have hplace : k.place q = (q / k.entireColsSize, (c' : Int)) := by rw [Layout.place, hc']
    rw [hplace] at hstored ⊢
    rw [hcells, if_neg, hstored]
    rintro ⟨hrow, rfl⟩
    apply hne
    apply Layout.place_inj hE
    rw [hplace, Layout.place, hdiv, hmod, hc, hrow]
  · intro row j value hvalue
    rw [hcells] at hvalue
    split at hvalue
    · exact Or.inl (Option.some.inj hvalue).symm
    · exact h.stored row j value hvalue

theorem skipHoles_laid (hskip : ∀ pos ∈ k.skipPositions, pos.1 < k.rowsSize) (h : Laid gems k keys p)
    (hcol : p.colIndex < k.entireColsSize) (rounds : Nat)
    (hrounds : k.rowsSize * k.entireColsSize ≤ p.rowIndex * k.entireColsSize + p.colIndex + rounds) :
    ∃ p', k.skipHoles rounds p = some p' ∧ Laid gems k keys p' ∧ p'.colIndex < k.entireColsSize ∧
      k.Free (p'.rowIndex * k.entireColsSize + p'.colIndex) := by
  have hE : 0 < k.entireColsSize := by omega
  have hfree {p : Placing} (hcol : p.colIndex < k.entireColsSize) :
      k.Free (p.rowIndex * k.entireColsSize + p.colIndex) ↔
        k.skipPosition p.rowIndex p.colIndex = false := by
    obtain ⟨hdiv, hmod⟩ := place_of_lt hcol p.rowIndex
    unfold Layout.Free
    rw [hdiv, hmod]
  induction rounds generalizing p with
  | zero =>
    have hend := Layout.free_of_ge hskip hE hrounds
    rw [Nat.add_zero] at hend
    refine ⟨p, ?_, h, hcol, hend⟩
    rw [Layout.skipHoles, (hfree hcol).mp hend]
    rfl
  | succ rounds ih =>
    rw [Layout.skipHoles]
    cases hhole : k.skipPosition p.rowIndex p.colIndex with
    | false => exact ⟨p, rfl, h, hcol, (hfree hcol).mpr hhole⟩
    | true =>
      obtain ⟨p', hput, hlaid, hrow', hcol'⟩ := hole_laid h hcol hhole
      obtain ⟨hwrapped, hlt, hplace⟩ := wrapRow_laid hE hlaid
      dsimp only at hplace
      rw [if_pos rfl, hput]
      apply ih hwrapped hlt
      rw [hplace, hrow', hcol']
      omega

theorem addKey_laid (hskip : ∀ pos ∈ k.skipPositions, pos.1 < k.rowsSize) (hE : 0 < k.entireColsSize)
    (h : Laid gems k keys p) (key : MapKey) :
    ∃ p', k.addKey gems p key = some p' ∧ Laid gems k (keys ++ [key]) p' := by
  obtain ⟨hwrapped, hlt, -⟩ := wrapRow_laid hE h
  obtain ⟨p₁, hskipped, h₁, hcol₁, hfree₁⟩ := skipHoles_laid hskip hwrapped hlt
    (k.rowsSize * k.entireColsSize) (by omega)
  obtain ⟨hdiv, hmod⟩ := place_of_lt hcol₁ p₁.rowIndex
  obtain ⟨c, hc, hclt⟩ := Layout.calculateColPosition_nat hcol₁
  obtain ⟨newMap, hput, hlen, hcells, hwidth⟩ := put_eq h₁.rows c (key.stored gems)
  have hplace : k.place (p₁.rowIndex * k.entireColsSize + p₁.colIndex) = (p₁.rowIndex, (c : Int)) := by
    rw [Layout.place, hdiv, hmod, hc]
  rw [Layout.addKey, hskipped]
  dsimp only [Option.bind_eq_bind, Option.bind_some]
  rw [hc, hput]
  refine ⟨_, rfl, ⟨hcol₁, hlen, ?_, ?_, ?_, hwidth _ hclt h₁.width, ?_⟩⟩
  · dsimp only
    rw [← Nat.add_assoc, Nat.count_succ, if_pos hfree₁, h₁.count, List.length_append]
    rfl
  · simp [h₁.placed]
  · intro q hq hfree
    dsimp only at hq ⊢
    by_cases hlast : q = p₁.rowIndex * k.entireColsSize + p₁.colIndex
    · subst hlast
      rw [h₁.count, hplace, hcells]
      refine ⟨key, by simp, ?_, by simp⟩
      rw [← h₁.placed]
      simp
    · obtain ⟨key', hkey, hplaced, hstored⟩ := h₁.cells q (by omega) hfree
      have hindex : Nat.count k.Free q < keys.length := (List.getElem?_eq_some_iff.mp hkey).1
      refine ⟨key', ?_, ?_, ?_⟩
      · rw [List.getElem?_append_left hindex, hkey]
      · rw [List.getElem?_append_left (by rw [h₁.placed]; exact hindex), hplaced]
      · obtain ⟨c', hc', -⟩ := Layout.calculateColPosition_nat (Nat.mod_lt q hE)
        have hplace' : k.place q = (q / k.entireColsSize, (c' : Int)) := by rw [Layout.place, hc']
        rw [hplace'] at hstored ⊢
        rw [hcells, if_neg, hstored]
        rintro ⟨hrow, rfl⟩
        apply hlast
        apply Layout.place_inj hE
        rw [hplace', hplace, hrow]
  · intro row j value hvalue
    rw [hcells] at hvalue
    split at hvalue
    · exact Or.inr ⟨key, by simp, (Option.some.inj hvalue).symm⟩
    · rcases h₁.stored row j value hvalue with hzero | ⟨key', hmem, hkey'⟩
      · exact Or.inl hzero
      · exact Or.inr ⟨key', List.mem_append_left _ hmem, hkey'⟩

theorem Laid.placed_eq (h : Laid gems k keys p) {i : Nat} (hi : i < keys.length) :
    ∃ q < p.rowIndex * k.entireColsSize + p.colIndex, k.Free q ∧ Nat.count k.Free q = i ∧
      p.placed[i]? = some (k.place q) := by
  rw [← h.count] at hi
  obtain ⟨q, hq, hfree, rfl⟩ := exists_of_lt_count hi
  obtain ⟨-, -, hplaced, -⟩ := h.cells q hq hfree
  exact ⟨q, hq, hfree, rfl, hplaced⟩

theorem Laid.placed_nodup (h : Laid gems k keys p) (hE : 0 < k.entireColsSize) : p.placed.Nodup := by
  rw [List.nodup_iff_injective_get]
  intro i j heq
  have hi : i.1 < keys.length := h.placed ▸ i.2
  have hj : j.1 < keys.length := h.placed ▸ j.2
  obtain ⟨q, -, -, hcount, hplaced⟩ := h.placed_eq hi
  obtain ⟨q', -, -, hcount', hplaced'⟩ := h.placed_eq hj
  rw [List.getElem?_eq_getElem i.2, Option.some.injEq] at hplaced
  rw [List.getElem?_eq_getElem j.2, Option.some.injEq] at hplaced'
  have hsame : k.place q = k.place q' := by
    rw [← hplaced, ← hplaced']
    exact heq
  apply Fin.ext
  rw [← hcount, ← hcount', Layout.place_inj hE hsame]

theorem addLayer_laid (gems : Gems) (hskip : ∀ pos ∈ k.skipPositions, pos.1 < k.rowsSize)
    (hE : 0 < k.entireColsSize) (map : List MapKey) : ∃ p, k.addLayer gems map = some p ∧ Laid gems k map p := by
  unfold Layout.addLayer
  induction map using List.reverseRecOn with
  | nil =>
    refine ⟨_, rfl, ⟨Nat.zero_le _, rfl, by simp, rfl, fun q hq => by simp at hq, by simp, ?_⟩⟩
    intro row j value hvalue
    cases row <;> simp [cellOf, arrayGet] at hvalue
  | append_singleton map key ih =>
    obtain ⟨p, hp, hlaid⟩ := ih
    obtain ⟨p', hp', hlaid'⟩ := addKey_laid hskip hE hlaid key
    refine ⟨p', ?_, hlaid'⟩
    rw [List.foldlM_append, hp]
    simpa using hp'

/-- Where there are no columns, each key has its own row. -/
structure Thin (keys : List MapKey) (p : Placing) : Prop where
  rows : p.newMap.length = p.rowIndex + 1
  placed : p.placed.length = keys.length
  le : ∀ cell ∈ p.placed, cell.1 ≤ p.rowIndex
  nodup : p.placed.Nodup

theorem addKey_thin (hcols : k.colsSize = 0) (hskip : k.skipPositions = [])
    (hcol : k.calculateColPosition 0 = 0) (h : Thin keys p) (key : MapKey) :
    ∃ p', k.addKey gems p key = some p' ∧ Thin (keys ++ [key]) p' := by
  have hE : k.entireColsSize = 0 := by
    have hle := k.entireColsSize_le
    omega
  have hwrap : k.wrapRow p =
      { p with rowIndex := p.rowIndex + 1, colIndex := 0, newMap := p.newMap ++ [[]] } := by
    rw [Layout.wrapRow, if_pos (by omega)]
  have hnone (row col : Nat) : k.skipPosition row col = false := by simp [Layout.skipPosition, hskip]
  have hrows' : (k.wrapRow p).newMap.length = (k.wrapRow p).rowIndex + 1 := by
    rw [hwrap]
    simp [h.rows]
  obtain ⟨newMap, hput, hlen, -, -⟩ := put_eq hrows' 0 (key.stored gems)
  rw [Int.natCast_zero, hwrap] at hput
  unfold Layout.addKey
  rw [hE, Nat.mul_zero, Layout.skipHoles, hnone, hwrap]
  simp only [Bool.false_eq_true, if_false, Option.bind_eq_bind, Option.bind_some, hcol, hput]
  refine ⟨_, rfl, ⟨?_, ?_, ?_, ?_⟩⟩
  · rw [hlen, hwrap]
  · simp [h.placed]
  · intro cell hcell
    rcases List.mem_append.mp hcell with hold | hnew
    · have hle := h.le cell hold
      dsimp only
      omega
    · rw [List.mem_singleton.mp hnew]
  · rw [List.nodup_append]
    refine ⟨h.nodup, by simp, ?_⟩
    intro cell hold cell' hnew
    rw [List.mem_singleton.mp hnew]
    rintro rfl
    have hle := h.le _ hold
    dsimp only at hle
    omega

theorem addLayer_thin (gems : Gems) (hcols : k.colsSize = 0) (hskip : k.skipPositions = [])
    (hcol : k.calculateColPosition 0 = 0) (map : List MapKey) :
    ∃ p, k.addLayer gems map = some p ∧ Thin map p := by
  unfold Layout.addLayer
  induction map using List.reverseRecOn with
  | nil => exact ⟨_, rfl, ⟨rfl, rfl, by simp, List.nodup_nil⟩⟩
  | append_singleton map key ih =>
    obtain ⟨p, hp, hthin⟩ := ih
    obtain ⟨p', hp', hthin'⟩ := addKey_thin hcols hskip hcol hthin key
    refine ⟨p', ?_, hthin'⟩
    rw [List.foldlM_append, hp]
    simpa using hp'

end Loop

end PicoRuby.Keyboard
