import PicoRuby.Via.Buffer

/-!
# What the loops over a buffer do

A loop goes over the keys of a buffer by their numbers. The setter and the getter put a number at the
cell that their width of a row gives it.
-/

namespace PicoRuby.Via

open Shared Keyboard

set_option autoImplicit false

/-! ## Addresses -/

/-- The row and column of a keymap. -/
def place (k : Layout) (row col : Nat) : Nat × Nat :=
  if k.split ∧ rowsSize k ≤ row then (row - rowsSize k, colsSize k - col - 1) else (row, col)

/-- The layer and place of the `n`-th key of the buffer, in rows of a width. -/
def address (k : Layout) (width n : Nat) : Nat × Nat × Nat :=
  let keyIndex := n % (colsSize k * rowsSize k)
  (n / (colsSize k * rowsSize k), place k (keyIndex / width) (keyIndex % width))

/-- The width of a row as the getter has it. -/
def getWidth (k : Layout) : Nat := if k.split then colsSize k / 2 else colsSize k

/-- The width of a row as the setter has it. -/
def setWidth (k : Layout) : Nat := if k.split then colsSize k / 2 else rowsSize k

section Address
variable {k : Layout} {width n n' : Nat}

theorem colsSize_split (h : k.split = true) : colsSize k = k.colsSize * 2 := by simp [colsSize, h]

theorem half_eq (h : k.split = true) : colsSize k / 2 = k.colsSize := by
  rw [colsSize_split h]
  omega

theorem mirror_eq {row col : Nat} (h : k.split = true → col < colsSize k) :
    ViaState.mirror k row col = ((place k row col).1, ((place k row col).2 : Int)) := by
  unfold ViaState.mirror place
  split
  · rename_i hright
    have hlt := h hright.1
    dsimp only
    congr 1
    omega
  · rfl

theorem place_inj {row col row' col' : Nat} (h : k.split = true → col < k.colsSize)
    (h' : k.split = true → col' < k.colsSize) (heq : place k row col = place k row' col') :
    row = row' ∧ col = col' := by
  unfold place at heq
  cases hsplit : k.split with
  | false => simpa [hsplit] using heq
  | true =>
    have hcol := h hsplit
    have hcol' := h' hsplit
    have hcols := colsSize_split hsplit
    simp only [hsplit, true_and] at heq
    split_ifs at heq <;> simp only [Prod.mk.injEq] at heq <;> omega

theorem address_inj (hwidth : 0 < width) (hhalf : k.split = true → width = k.colsSize)
    (h : address k width n = address k width n') : n = n' := by
  obtain ⟨hlayer, hplace⟩ := Prod.mk.inj h
  have hlt (m : Nat) : k.split = true → m % width < k.colsSize := by
    intro hsplit
    rw [← hhalf hsplit]
    exact Nat.mod_lt m hwidth
  obtain ⟨hrow, hcol⟩ := place_inj (hlt _) (hlt _) hplace
  have hkey : n % (colsSize k * rowsSize k) = n' % (colsSize k * rowsSize k) := by
    rw [← Nat.div_add_mod (n % _) width, hrow, hcol, Nat.div_add_mod]
  rw [← Nat.div_add_mod n (colsSize k * rowsSize k), hlayer, hkey, Nat.div_add_mod]

theorem address_getWidth (hcells : 0 < colsSize k * rowsSize k) :
    (address k (getWidth k) n).2.1 < rowsSize k ∧ (address k (getWidth k) n).2.2 < colsSize k := by
  have hkey := Nat.mod_lt n hcells
  have hcols : 0 < colsSize k := Nat.pos_of_mul_pos_right hcells
  unfold address place getWidth
  dsimp only
  cases hsplit : k.split with
  | false =>
    simp only [Bool.false_eq_true, false_and, if_false]
    exact ⟨Nat.div_lt_of_lt_mul hkey, Nat.mod_lt _ hcols⟩
  | true =>
    have hsize := colsSize_split hsplit
    have hhalf := half_eq hsplit
    have hpos : 0 < k.colsSize := by omega
    have hrow : n % (colsSize k * rowsSize k) / k.colsSize < 2 * rowsSize k := by
      apply Nat.div_lt_of_lt_mul
      calc n % (colsSize k * rowsSize k) < colsSize k * rowsSize k := hkey
        _ = k.colsSize * (2 * rowsSize k) := by rw [hsize, Nat.mul_assoc]
    have hcol := Nat.mod_lt (n % (colsSize k * rowsSize k)) hpos
    simp only [if_true, true_and, hhalf]
    split
    · dsimp only
      omega
    · dsimp only
      omega

end Address

/-! ## Cells -/

namespace ViaState

/-- The key code in a cell. -/
def keycodeIn (v : ViaState) (cell : Nat × Nat × Nat) : Option Nat := v.keycodeAt cell.1 cell.2.1 cell.2.2

section Cells
variable {k : Layout} {v v' : ViaState} {layer row col keycode : Nat}

theorem dynamicKeymapGetKeycode_eq (h : k.split = true → col < colsSize k) :
    v.dynamicKeymapGetKeycode k layer row col = v.keycodeIn (layer, place k row col) := by
  unfold dynamicKeymapGetKeycode
  rw [mirror_eq h]
  dsimp only
  simp only [arrayAt_natCast]
  rfl

theorem keycodeIn_isSome {cell : Nat × Nat × Nat} : (v.keycodeIn cell).isSome = true ↔
    ∃ rows cells, v.keymaps[cell.1]? = some rows ∧ rows[cell.2.1]? = some cells := by
  unfold keycodeIn keycodeAt
  cases v.keymaps[cell.1]? with
  | none => simp
  | some rows => cases hrow : rows[cell.2.1]? <;> simp [hrow]

theorem setKeycode_keymaps {rows : List (List (Option Nat))} {cells : List (Option Nat)} {r c : Nat}
    {cell : Nat × Nat × Nat} (hrows : v.keymaps[layer]? = some rows) (hcells : rows[r]? = some cells)
    (hkeymaps : v'.keymaps = v.keymaps.set layer (rows.set r (setGrow cells c keycode))) :
    v'.keycodeIn cell = if cell = (layer, r, c) then some keycode else v.keycodeIn cell := by
  obtain ⟨layer', r', c'⟩ := cell
  have hlayer := (List.getElem?_eq_some_iff.mp hrows).1
  have hrow := (List.getElem?_eq_some_iff.mp hcells).1
  unfold keycodeIn keycodeAt
  dsimp only
  rw [hkeymaps, List.getElem?_set]
  by_cases hl : layer = layer'
  · subst hl
    rw [if_pos rfl, if_pos hlayer, hrows]
    simp only [Option.bind_eq_bind, Option.bind_some, List.getElem?_set]
    by_cases hr : r = r'
    · subst hr
      rw [if_pos rfl, if_pos hrow, hcells]
      simp only [Option.bind_some, arrayGet_setGrow]
      by_cases hc : c' = c
      · simp [hc]
      · simp [hc]
    · rw [if_neg hr, if_neg]
      intro heq
      simp only [Prod.mk.injEq, true_and] at heq
      exact hr heq.1.symm
  · rw [if_neg hl, if_neg]
    intro heq
    exact hl (congrArg Prod.fst heq).symm

theorem dynamicKeymapSetKeycode_eq_some (h : k.split = true → col < colsSize k)
    (hset : v.dynamicKeymapSetKeycode k layer row col keycode = some v') :
    v'.layerCount = v.layerCount ∧ v'.keymapSaved = false ∧
      ∀ cell, v'.keycodeIn cell =
        if cell = (layer, place k row col) then some keycode else v.keycodeIn cell := by
  unfold dynamicKeymapSetKeycode at hset
  rw [mirror_eq h] at hset
  dsimp only at hset
  simp only [arraySet_natCast] at hset
  obtain ⟨rows, hrows, hset⟩ := Option.bind_eq_some_iff.mp hset
  obtain ⟨cells, hcells, hset⟩ := Option.bind_eq_some_iff.mp hset
  cases hset
  exact ⟨rfl, rfl, fun cell => setKeycode_keymaps hrows hcells rfl⟩

theorem dynamicKeymapSetKeycode_isSome (h : k.split = true → col < colsSize k) (keycode : Nat)
    (hcell : (v.keycodeIn (layer, place k row col)).isSome = true) :
    (v.dynamicKeymapSetKeycode k layer row col keycode).isSome = true := by
  obtain ⟨rows, cells, hrows, hcells⟩ := keycodeIn_isSome.mp hcell
  dsimp only at hrows hcells
  unfold dynamicKeymapSetKeycode
  rw [mirror_eq h]
  simp [arraySet_natCast, hrows, hcells]

end Cells

/-! ## The loops -/

section Loops
variable {k : Layout} {v v' : ViaState} {data data' : Data} {layerNum keyIndex : Nat}

theorem wrap_eq (hcells : 0 < colsSize k * rowsSize k) (h : keyIndex ≤ colsSize k * rowsSize k) :
    (if keyIndex = colsSize k * rowsSize k then (layerNum + 1, 0) else (layerNum, keyIndex)) =
      ((layerNum * (colsSize k * rowsSize k) + keyIndex) / (colsSize k * rowsSize k),
        (layerNum * (colsSize k * rowsSize k) + keyIndex) % (colsSize k * rowsSize k)) := by
  split
  · rename_i heq
    rw [heq, ← Nat.succ_mul, Nat.mul_div_cancel _ hcells, Nat.mul_mod_left]
  · have hlt : keyIndex < colsSize k * rowsSize k := by omega
    rw [Nat.add_comm, Nat.add_mul_div_right _ _ hcells, Nat.div_eq_of_lt hlt, Nat.zero_add,
      Nat.add_mul_mod_self_right, Nat.mod_eq_of_lt hlt]

theorem width_lt {m width : Nat} (hwidth : 0 < width) (hhalf : k.split = true → width = k.colsSize) :
    k.split = true → m % width < colsSize k := by
  intro hsplit
  have hlt := Nat.mod_lt m hwidth
  have hcols := colsSize_split hsplit
  rw [hhalf hsplit] at hlt ⊢
  omega

theorem next_eq (n m : Nat) : n / m * m + (n % m + 1) = n + 1 := by
  have hdiv := Nat.div_add_mod n m
  rw [Nat.mul_comm] at hdiv
  omega

theorem getWidth_pos (hcells : 0 < colsSize k * rowsSize k) : 0 < getWidth k := by
  have hcols : 0 < colsSize k := Nat.pos_of_mul_pos_right hcells
  unfold getWidth
  split
  · rename_i hsplit
    have hsize := colsSize_split hsplit
    omega
  · exact hcols

theorem getWidth_half (h : k.split = true) : getWidth k = k.colsSize := by rw [getWidth, if_pos h, half_eq h]

theorem setWidth_pos (hcells : 0 < colsSize k * rowsSize k) : 0 < setWidth k := by
  have hrows : 0 < rowsSize k := Nat.pos_of_mul_pos_left hcells
  unfold setWidth
  split
  · rename_i hsplit
    have hpos := getWidth_pos hcells
    rwa [getWidth, if_pos hsplit] at hpos
  · exact hrows

theorem setWidth_half (h : k.split = true) : setWidth k = k.colsSize := by rw [setWidth, if_pos h, half_eq h]

theorem getLoop_succ (hcells : 0 < colsSize k * rowsSize k) (hkey : keyIndex ≤ colsSize k * rowsSize k)
    {n : Nat} (hn : layerNum * (colsSize k * rowsSize k) + keyIndex = n) (rounds i : Nat) :
    getLoop k v (rounds + 1) i layerNum keyIndex data =
      (v.keycodeIn (address k (getWidth k) n)).bind fun keycode =>
        getLoop k v rounds (i + 1) (n / (colsSize k * rowsSize k)) (n % (colsSize k * rowsSize k) + 1)
          (setGrow (setGrow data (i * 2 + 4) ((keycode >>> 8) &&& 0xFF)) (i * 2 + 5) (keycode &&& 0xFF)) := by
  subst hn
  rw [getLoop, wrap_eq hcells hkey]
  dsimp only
  rw [← getWidth, dynamicKeymapGetKeycode_eq (width_lt (getWidth_pos hcells) getWidth_half)]
  rfl

theorem getLoop_eq_some (hcells : 0 < colsSize k * rowsSize k) {rounds i n : Nat}
    (hkey : keyIndex ≤ colsSize k * rowsSize k)
    (hn : layerNum * (colsSize k * rowsSize k) + keyIndex = n)
    (h : getLoop k v rounds i layerNum keyIndex data = some data') :
    (∀ m < i * 2 + 4, arrayGet data' m = arrayGet data m) ∧
      ∀ j < rounds, ∃ keycode, v.keycodeIn (address k (getWidth k) (n + j)) = some keycode ∧
        arrayGet data' ((i + j) * 2 + 4) = some ((keycode >>> 8) &&& 0xFF) ∧
        arrayGet data' ((i + j) * 2 + 5) = some (keycode &&& 0xFF) := by
  induction rounds generalizing i n layerNum keyIndex data with
  | zero =>
    cases h
    exact ⟨fun _ _ => rfl, by simp⟩
  | succ rounds ih =>
    rw [getLoop_succ hcells hkey hn] at h
    obtain ⟨keycode, hkeycode, h⟩ := Option.bind_eq_some_iff.mp h
    obtain ⟨hbefore, hafter⟩ := ih (Nat.mod_lt n hcells) (next_eq n _) h
    refine ⟨?_, ?_⟩
    · intro m hm
      rw [hbefore m (by omega), arrayGet_setGrow, arrayGet_setGrow, if_neg (by omega), if_neg (by omega)]
    · intro j hj
      cases j with
      | zero =>
        refine ⟨keycode, hkeycode, ?_, ?_⟩
        · rw [Nat.add_zero i, hbefore _ (by omega), arrayGet_setGrow, arrayGet_setGrow, if_neg (by omega),
            if_pos rfl]
        · rw [Nat.add_zero i, hbefore _ (by omega), arrayGet_setGrow, if_pos rfl]
      | succ j =>
        have hlater := hafter j (by omega)
        rwa [Nat.add_right_comm i 1 j, Nat.add_right_comm n 1 j] at hlater

theorem getLoop_isSome (hcells : 0 < colsSize k * rowsSize k) {rounds i n : Nat}
    (hkey : keyIndex ≤ colsSize k * rowsSize k)
    (hn : layerNum * (colsSize k * rowsSize k) + keyIndex = n)
    (h : ∀ j < rounds, (v.keycodeIn (address k (getWidth k) (n + j))).isSome = true) :
    (getLoop k v rounds i layerNum keyIndex data).isSome = true := by
  induction rounds generalizing i n layerNum keyIndex data with
  | zero => rfl
  | succ rounds ih =>
    obtain ⟨keycode, hkeycode⟩ := Option.isSome_iff_exists.mp (h 0 (by omega))
    rw [Nat.add_zero] at hkeycode
    rw [getLoop_succ hcells hkey hn, hkeycode]
    apply ih (Nat.mod_lt n hcells) (next_eq n _)
    intro j hj
    have hlater := h (j + 1) (by omega)
    rwa [Nat.add_comm j 1, ← Nat.add_assoc] at hlater

/-- A key code in a buffer. -/
def wordAt (data : Data) (i : Nat) : Option Nat := do
  return (← arrayGet data (i * 2 + 4)) <<< 8 ||| (← arrayGet data (i * 2 + 5))

theorem setLoop_succ (hcells : 0 < colsSize k * rowsSize k) (hkey : keyIndex ≤ colsSize k * rowsSize k)
    {n : Nat} (hn : layerNum * (colsSize k * rowsSize k) + keyIndex = n) (rounds i : Nat) :
    setLoop k data (rounds + 1) i layerNum keyIndex v =
      (wordAt data i).bind fun keycode =>
        (v.dynamicKeymapSetKeycode k (n / (colsSize k * rowsSize k))
          (n % (colsSize k * rowsSize k) / setWidth k) (n % (colsSize k * rowsSize k) % setWidth k)
          keycode).bind fun v =>
            setLoop k data rounds (i + 1) (n / (colsSize k * rowsSize k))
              (n % (colsSize k * rowsSize k) + 1) v := by
  subst hn
  rw [setLoop, wrap_eq hcells hkey]
  unfold wordAt
  cases arrayGet data (i * 2 + 4) with
  | none => rfl
  | some hi =>
    cases arrayGet data (i * 2 + 5) with
    | none => rfl
    | some lo => rfl

theorem setLoop_eq_some (hcells : 0 < colsSize k * rowsSize k) {rounds i n : Nat}
    (hkey : keyIndex ≤ colsSize k * rowsSize k)
    (hn : layerNum * (colsSize k * rowsSize k) + keyIndex = n)
    (h : setLoop k data rounds i layerNum keyIndex v = some v') :
    v'.layerCount = v.layerCount ∧ v'.keymapSaved = (v.keymapSaved && decide (rounds = 0)) ∧
      (∀ cell, (∀ j < rounds, cell ≠ address k (setWidth k) (n + j)) → v'.keycodeIn cell = v.keycodeIn cell) ∧
      ∀ j < rounds, ∃ keycode, wordAt data (i + j) = some keycode ∧
        v'.keycodeIn (address k (setWidth k) (n + j)) = some keycode := by
  induction rounds generalizing i n layerNum keyIndex v with
  | zero =>
    cases h
    exact ⟨rfl, by simp, fun _ _ => rfl, by simp⟩
  | succ rounds ih =>
    rw [setLoop_succ hcells hkey hn] at h
    obtain ⟨keycode, hkeycode, h⟩ := Option.bind_eq_some_iff.mp h
    obtain ⟨v₁, hset, h⟩ := Option.bind_eq_some_iff.mp h
    obtain ⟨hcount₁, hsaved₁, hcell₁⟩ :=
      dynamicKeymapSetKeycode_eq_some (width_lt (setWidth_pos hcells) setWidth_half) hset
    obtain ⟨hcount, hsaved, hother, hstored⟩ := ih (Nat.mod_lt n hcells) (next_eq n _) h
    refine ⟨hcount.trans hcount₁, ?_, ?_, ?_⟩
    · simp [hsaved, hsaved₁]
    · intro cell hcell
      have hfirst := hcell 0 (by omega)
      rw [hother cell, hcell₁, if_neg]
      · exact hfirst
      · intro j hj
        have hlater := hcell (j + 1) (by omega)
        rwa [Nat.add_comm j 1, ← Nat.add_assoc] at hlater
    · intro j hj
      cases j with
      | zero =>
        refine ⟨keycode, hkeycode, ?_⟩
        rw [Nat.add_zero, hother, hcell₁]
        · exact if_pos rfl
        · intro j' hj' heq
          have hinj := address_inj (setWidth_pos hcells) setWidth_half heq
          omega
      | succ j =>
        have hlater := hstored j (by omega)
        rwa [Nat.add_right_comm i 1 j, Nat.add_right_comm n 1 j] at hlater

theorem setLoop_isSome (hcells : 0 < colsSize k * rowsSize k) {rounds i n : Nat}
    (hkey : keyIndex ≤ colsSize k * rowsSize k)
    (hn : layerNum * (colsSize k * rowsSize k) + keyIndex = n)
    (hwords : ∀ j < rounds, (wordAt data (i + j)).isSome = true)
    (h : ∀ j < rounds, (v.keycodeIn (address k (setWidth k) (n + j))).isSome = true) :
    (setLoop k data rounds i layerNum keyIndex v).isSome = true := by
  induction rounds generalizing i n layerNum keyIndex v with
  | zero => rfl
  | succ rounds ih =>
    obtain ⟨keycode, hkeycode⟩ := Option.isSome_iff_exists.mp (hwords 0 (by omega))
    have hwidth := width_lt (m := n % (colsSize k * rowsSize k)) (setWidth_pos hcells) setWidth_half
    obtain ⟨v₁, hset⟩ := Option.isSome_iff_exists.mp
      (dynamicKeymapSetKeycode_isSome hwidth keycode (h 0 (by omega)))
    obtain ⟨-, -, hcell₁⟩ := dynamicKeymapSetKeycode_eq_some hwidth hset
    rw [Nat.add_zero] at hkeycode hset
    rw [setLoop_succ hcells hkey hn, hkeycode, Option.bind_some, hset]
    apply ih (Nat.mod_lt n hcells) (next_eq n _)
    · intro j hj
      have hlater := hwords (j + 1) (by omega)
      rwa [Nat.add_comm j 1, ← Nat.add_assoc] at hlater
    · intro j hj
      have hlater := h (j + 1) (by omega)
      rw [Nat.add_comm j 1, ← Nat.add_assoc] at hlater
      rw [hcell₁]
      split
      · rfl
      · exact hlater

end Loops

end ViaState

end PicoRuby.Via
