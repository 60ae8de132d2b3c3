import PicoRuby.Editor.Buffer

/-!
# What a key leaves alone

`put` changes the Array of the buffer and the Strings in it, and keeps the cursor in a row.
-/

namespace PicoRuby.Editor

open Shared

set_option autoImplicit false

section Lines
variable {l : List Nat} {i : Int} {line str : Nat}

theorem mem_linesSet (h : str ∈ linesSet l i line) : str ∈ l ∨ str = line := by
  unfold linesSet at h
  split at h
  · exact List.mem_or_eq_of_mem_set h
  · exact Or.inl h

theorem linesSet_length : (linesSet l i line).length = l.length := by
  unfold linesSet
  split
  · exact List.length_set
  · rfl

theorem mem_linesInsert (h : str ∈ linesInsert l i line) : str ∈ l ∨ str = line := by
  unfold linesInsert at h
  split at h
  · rename_i row _
    by_cases hle : row ≤ l.length
    · exact ((List.mem_insertIdx hle).mp h).symm
    · rw [List.insertIdx_of_length_lt (by omega)] at h
      exact Or.inl h
  · exact Or.inl h

theorem linesInsert_length (h : 0 ≤ i) (hle : i ≤ l.length) :
    (linesInsert l i line).length = l.length + 1 := by
  obtain ⟨row, rfl⟩ := Int.eq_ofNat_of_zero_le h
  unfold linesInsert
  rw [placeOf_natCast]
  exact List.length_insertIdx_of_le_length (by omega) _

theorem mem_linesDeleteAt (h : str ∈ linesDeleteAt l i) : str ∈ l := by
  unfold linesDeleteAt at h
  split at h
  · exact List.mem_of_mem_eraseIdx h
  · exact h

theorem linesDeleteAt_length (h : 0 ≤ i) (hlt : i < l.length) :
    (linesDeleteAt l i).length = l.length - 1 := by
  obtain ⟨row, rfl⟩ := Int.eq_ofNat_of_zero_le h
  unfold linesDeleteAt
  rw [placeOf_natCast]
  exact List.length_eraseIdx_of_lt (by omega)

end Lines

inductive Key.IsMove : Key → Prop
  | up : IsMove .up
  | down : IsMove .down
  | left : IsMove .left
  | right : IsMove .right

namespace Buffer
variable {b b' b'' : Buffer} {objects : Objects} {s : Text}

/-- There is a line, and the cursor is in one. -/
structure Valid (b : Buffer) : Prop where
  nonempty : b.array ≠ []
  nonneg : 0 ≤ b.cursorY
  lt : b.cursorY < b.array.length

theorem Valid.of_row (h : 0 ≤ b.cursorY) (hlt : b.cursorY < b.array.length) : b.Valid := by
  refine ⟨?_, h, hlt⟩
  rintro hnil
  rw [hnil, List.length_nil] at hlt
  omega

/-- The Array of the buffer is there. -/
def Allocated (b : Buffer) : Prop := b.lines < b.objects.arrays.length

/-- The Array is the same one, nothing else has changed, and the cursor is in a line if it was in one. -/
structure Stays (b b' : Buffer) : Prop where
  lines : b'.lines = b.lines
  within : Objects.Within b.objects b'.objects b.lines
  valid : b.Valid → b'.Valid

theorem Stays.refl : Stays b b := ⟨rfl, Objects.Within.refl, id⟩

theorem Stays.trans (h : Stays b b') (h' : Stays b' b'') : Stays b b'' := by
  refine ⟨h'.lines.trans h.lines, h.within.trans ?_, fun hvalid => h'.valid (h.valid hvalid)⟩
  rw [← h.lines]
  exact h'.within

theorem Stays.allocated (h : Stays b b') (hb : b.Allocated) : b'.Allocated := by
  unfold Allocated
  rw [h.lines, h.within.arrays]
  exact hb

/-! ## Moves -/

/-- The lines are the same objects. -/
structure SameLines (b b' : Buffer) : Prop where
  objects : b'.objects = b.objects
  lines : b'.lines = b.lines
  changed : b'.changed = b.changed

theorem SameLines.refl : SameLines b b := ⟨rfl, rfl, rfl⟩

theorem SameLines.trans (h : SameLines b b') (h' : SameLines b' b'') :
    SameLines b b'' :=
  ⟨h'.objects.trans h.objects, h'.lines.trans h.lines, h'.changed.trans h.changed⟩

theorem clamp_same (h : b.clamp = some b') : SameLines b b' := by
  obtain ⟨length, -, rfl⟩ := Option.map_eq_some_iff.mp h
  split <;> exact ⟨rfl, rfl, rfl⟩

theorem tail_same (h : b.tail = some b') : SameLines b b' := by
  obtain ⟨length, -, rfl⟩ := Option.map_eq_some_iff.mp h
  exact ⟨rfl, rfl, rfl⟩

theorem tail_getD_same : SameLines b (b.tail.getD b) := by
  cases htail : b.tail with
  | none => exact SameLines.refl
  | some b' => exact tail_same htail

theorem up_same : SameLines b b.up := by
  unfold up
  split <;> exact ⟨rfl, rfl, rfl⟩

theorem down_same : SameLines b b.down := by
  unfold down
  split <;> exact ⟨rfl, rfl, rfl⟩

theorem left_same (h : b.left = some b') : SameLines b b' := by
  unfold left at h
  obtain ⟨inLine, -, h⟩ := Option.bind_eq_some_iff.mp h
  split at h
  · obtain ⟨b₁, hclamp, h⟩ := Option.bind_eq_some_iff.mp h
    cases h
    exact (clamp_same hclamp).trans ⟨rfl, rfl, rfl⟩
  · split at h
    · exact up_same.trans (tail_same h)
    · cases h
      exact ⟨rfl, rfl, rfl⟩

theorem right_same (h : b.right = some b') : SameLines b b' := by
  unfold right at h
  obtain ⟨length, -, h⟩ := Option.bind_eq_some_iff.mp h
  split at h
  · cases h
    exact ⟨rfl, rfl, rfl⟩
  · split at h
    · cases h
      exact down_same.trans ⟨rfl, rfl, rfl⟩
    · cases h
      exact ⟨rfl, rfl, rfl⟩

theorem put_move_same {key : Key} (hkey : key.IsMove) (h : b.put key = some b') : SameLines b b' := by
  unfold put at h
  obtain ⟨line, -, h⟩ := Option.bind_eq_some_iff.mp h
  cases hkey with
  | up =>
    obtain ⟨b₁, hclamp, h⟩ := Option.bind_eq_some_iff.mp h
    cases h
    exact (clamp_same hclamp).trans up_same
  | down =>
    obtain ⟨b₁, hclamp, h⟩ := Option.bind_eq_some_iff.mp h
    cases h
    exact (clamp_same hclamp).trans down_same
  | left =>
    obtain ⟨b₁, hclamp, h⟩ := Option.bind_eq_some_iff.mp h
    exact (clamp_same hclamp).trans (left_same h)
  | right =>
    obtain ⟨b₁, hclamp, h⟩ := Option.bind_eq_some_iff.mp h
    exact (clamp_same hclamp).trans (right_same h)

/-! ## The cursor -/

theorem clamp_stays (h : b.clamp = some b') : Stays b b' := by
  obtain ⟨length, -, rfl⟩ := Option.map_eq_some_iff.mp h
  split
  · exact ⟨rfl, Objects.Within.refl, fun h => ⟨h.nonempty, h.nonneg, h.lt⟩⟩
  · exact Stays.refl

theorem tail_stays (h : b.tail = some b') : Stays b b' := by
  obtain ⟨length, -, rfl⟩ := Option.map_eq_some_iff.mp h
  exact ⟨rfl, Objects.Within.refl, fun h => ⟨h.nonempty, h.nonneg, h.lt⟩⟩

theorem head_stays : Stays b b.head :=
  ⟨rfl, Objects.Within.refl, fun h => ⟨h.nonempty, h.nonneg, h.lt⟩⟩

theorem up_stays : Stays b b.up := by
  unfold up
  split
  · refine ⟨rfl, Objects.Within.refl, fun h => ⟨h.nonempty, ?_, ?_⟩⟩
    · dsimp only
      omega
    · have hlt := h.lt
      change b.cursorY - 1 < b.array.length
      omega
  · exact Stays.refl

theorem down_stays : Stays b b.down := by
  unfold down
  split
  · rename_i hlt
    refine ⟨rfl, Objects.Within.refl, fun h => ⟨h.nonempty, ?_, hlt⟩⟩
    have hnonneg := h.nonneg
    dsimp only
    omega
  · exact Stays.refl

theorem home_stays : Stays b b.home := by
  refine ⟨rfl, Objects.Within.refl, fun h => ⟨h.nonempty, Int.le_refl _, ?_⟩⟩
  have hlt := h.lt
  have hnonneg := h.nonneg
  change 0 < (b.array.length : Int)
  omega

theorem left_stays (h : b.left = some b') : Stays b b' := by
  unfold left at h
  obtain ⟨inLine, -, h⟩ := Option.bind_eq_some_iff.mp h
  split at h
  · obtain ⟨b₁, hclamp, h⟩ := Option.bind_eq_some_iff.mp h
    cases h
    exact (clamp_stays hclamp).trans
      ⟨rfl, Objects.Within.refl, fun h => ⟨h.nonempty, h.nonneg, h.lt⟩⟩
  · split at h
    · exact up_stays.trans (tail_stays h)
    · cases h
      exact Stays.refl

theorem right_stays (h : b.right = some b') : Stays b b' := by
  unfold right at h
  obtain ⟨length, -, h⟩ := Option.bind_eq_some_iff.mp h
  split at h
  · cases h
    exact ⟨rfl, Objects.Within.refl, fun h => ⟨h.nonempty, h.nonneg, h.lt⟩⟩
  · split at h
    · cases h
      exact down_stays.trans head_stays
    · cases h
      exact Stays.refl

/-! ## The lines -/

theorem set_stays (hb : b.Allocated) (i : Int) (cursorX : Nat) (changed : Bool) :
    Stays b
      { b with objects := b.objects.storeNew b.lines s (linesSet b.array i), cursorX, changed } := by
  have harray : (b.objects.storeNew b.lines s (linesSet b.array i)).array b.lines =
      linesSet b.array i b.objects.strings.length := Objects.setArray_array hb
  refine ⟨rfl, Objects.within_storeNew hb fun str => mem_linesSet, fun h => Valid.of_row h.nonneg ?_⟩
  change b.cursorY < ((b.objects.storeNew b.lines s (linesSet b.array i)).array b.lines).length
  rw [harray, linesSet_length]
  exact h.lt

theorem insert_stays (hb : b.Allocated) (s : Text) :
    Stays b
      { b with objects := b.objects.storeNew b.lines s (linesInsert b.array (b.cursorY + 1)) } := by
  have harray : (b.objects.storeNew b.lines s (linesInsert b.array (b.cursorY + 1))).array b.lines =
      linesInsert b.array (b.cursorY + 1) b.objects.strings.length := Objects.setArray_array hb
  refine ⟨rfl, Objects.within_storeNew hb fun str => mem_linesInsert, fun h => Valid.of_row h.nonneg ?_⟩
  have hlt := h.lt
  have hnonneg := h.nonneg
  change b.cursorY < ((b.objects.storeNew b.lines s (linesInsert b.array (b.cursorY + 1))).array b.lines).length
  rw [harray, linesInsert_length (by omega) (by omega)]
  omega

theorem setString_stays {ref : Nat} (href : ref ∈ b.array) (changed : Bool) :
    Stays b { b with objects := b.objects.setString ref s, changed } :=
  ⟨rfl, Objects.within_setString href, fun h => ⟨h.nonempty, h.nonneg, h.lt⟩⟩

theorem mem_of_currentLine {ref : Nat} (h : b.currentLine = some ref) : ref ∈ b.array := by
  unfold currentLine at h
  obtain ⟨i, -, hget⟩ := Option.bind_eq_some_iff.mp h
  exact List.mem_of_getElem? hget

theorem putString_stays {c : Text} (hb : b.Allocated) (h : b.putString c = some b') : Stays b b' := by
  unfold putString at h
  obtain ⟨line, -, h⟩ := Option.bind_eq_some_iff.mp h
  obtain ⟨b₁, hclamp, h⟩ := Option.bind_eq_some_iff.mp h
  have hstays := clamp_stays hclamp
  exact (hstays.trans (set_stays (hstays.allocated hb) b₁.cursorY b₁.cursorX true)).trans (right_stays h)

theorem enter_stays (hb : b.Allocated) (line : Text) : Stays b (b.enter line) := by
  have hset := set_stays (s := (slice line 0 b.cursorX).getD []) hb b.cursorY b.cursorX true
  unfold enter
  dsimp only
  split
  · exact (hset.trans head_stays).trans down_stays
  · exact ((hset.trans (insert_stays (hset.allocated hb) _)).trans head_stays).trans down_stays

/-- The line of the cursor goes, and the cursor to the one above. -/
theorem deleteUp_stays (hb : b.Allocated) (hpos : 0 < b.cursorY) :
    Stays b (up { b with objects := b.objects.setArray b.lines (linesDeleteAt b.array b.cursorY) }) := by
  have harray : (b.objects.setArray b.lines (linesDeleteAt b.array b.cursorY)).array b.lines =
      linesDeleteAt b.array b.cursorY := Objects.setArray_array hb
  unfold up
  rw [if_pos hpos]
  refine ⟨rfl, Objects.within_setArray hb fun str => mem_linesDeleteAt, fun h => ?_⟩
  have hlt := h.lt
  apply Valid.of_row
  · change 0 ≤ b.cursorY - 1
    omega
  · change b.cursorY - 1 < ((b.objects.setArray b.lines (linesDeleteAt b.array b.cursorY)).array b.lines).length
    rw [harray, linesDeleteAt_length h.nonneg h.lt]
    omega

theorem bspace_stays {ref : Nat} (hb : b.Allocated) (href : b.currentLine = some ref)
    (h : b.bspace ref = some b') : Stays b b' := by
  unfold bspace at h
  dsimp only at h
  have hmem := mem_of_currentLine href
  split at h
  · split at h
    · exact (setString_stays hmem true).trans (tail_stays h)
    · exact (setString_stays hmem true).trans (left_stays h)
  · split at h
    · rename_i hpos
      obtain ⟨above, -, h⟩ := Option.bind_eq_some_iff.mp h
      cases h
      have hset := set_stays (s := b.objects.string above ++ b.objects.string ref) hb (b.cursorY - 1)
        (b.objects.string above).length true
      exact hset.trans (deleteUp_stays (hset.allocated hb) hpos)
    · cases h
      exact ⟨rfl, Objects.Within.refl, fun h => ⟨h.nonempty, h.nonneg, h.lt⟩⟩

theorem put_stays {key : Key} (hb : b.Allocated) (h : b.put key = some b') : Stays b b' := by
  unfold put at h
  obtain ⟨line, hline, h⟩ := Option.bind_eq_some_iff.mp h
  cases key with
  | string c => exact putString_stays hb h
  | tab =>
    obtain ⟨b₁, hclamp, h⟩ := Option.bind_eq_some_iff.mp h
    obtain ⟨b₂, hput, h⟩ := Option.bind_eq_some_iff.mp h
    have hstays := clamp_stays hclamp
    have hchanged : Stays b₁ { b₁ with changed := true } :=
      ⟨rfl, Objects.Within.refl, fun h => ⟨h.nonempty, h.nonneg, h.lt⟩⟩
    have hstays₁ := hstays.trans hchanged
    have hstays₂ := hstays₁.trans (putString_stays (hstays₁.allocated hb) hput)
    exact hstays₂.trans (putString_stays (hstays₂.allocated hb) h)
  | enter =>
    obtain ⟨b₁, hclamp, h⟩ := Option.bind_eq_some_iff.mp h
    cases h
    have hstays := clamp_stays hclamp
    exact hstays.trans (enter_stays (hstays.allocated hb) _)
  | bspace =>
    obtain ⟨b₁, hclamp, h⟩ := Option.bind_eq_some_iff.mp h
    have hstays := clamp_stays hclamp
    have hline₁ : b₁.currentLine = some line := by
      obtain ⟨length, -, rfl⟩ := Option.map_eq_some_iff.mp hclamp
      split <;> exact hline
    exact hstays.trans (bspace_stays (hstays.allocated hb) hline₁ h)
  | down =>
    obtain ⟨b₁, hclamp, h⟩ := Option.bind_eq_some_iff.mp h
    cases h
    exact (clamp_stays hclamp).trans down_stays
  | up =>
    obtain ⟨b₁, hclamp, h⟩ := Option.bind_eq_some_iff.mp h
    cases h
    exact (clamp_stays hclamp).trans up_stays
  | right =>
    obtain ⟨b₁, hclamp, h⟩ := Option.bind_eq_some_iff.mp h
    exact (clamp_stays hclamp).trans (right_stays h)
  | left =>
    obtain ⟨b₁, hclamp, h⟩ := Option.bind_eq_some_iff.mp h
    exact (clamp_stays hclamp).trans (left_stays h)
  | home =>
    obtain ⟨b₁, hclamp, h⟩ := Option.bind_eq_some_iff.mp h
    cases h
    exact (clamp_stays hclamp).trans home_stays

end Buffer

end PicoRuby.Editor
