import PicoRuby.Editor.Frame
import PicoRuby.Shared.Runs

/-!
# A line for the cursor

What Vim and the line editor do with a buffer, and when the cursor stays in a line. Two operations may leave
it without one: a file with too few lines that is loaded, and the last line that is deleted.
-/

namespace PicoRuby.Editor

open Shared

set_option autoImplicit false

/-! ## Files -/

/-- The lines of `File#each_line`, each with its end. -/
def eachLine : Text → List Text
  | [] => []
  | c :: content =>
    if c = '\n' then [c] :: eachLine content
    else
      match eachLine content with
      | [] => [[c]]
      | line :: lines => (c :: line) :: lines

def chomp (line : Text) : Text :=
  match line.reverse with
  | '\n' :: '\r' :: rest => rest.reverse
  | '\n' :: rest => rest.reverse
  | '\r' :: rest => rest.reverse
  | _ => line

namespace Buffer

/-- A round of the `each_line` in `Screen#load_file_into_buffer`. -/
def pushLine (b : Buffer) (line : Text) : Buffer :=
  { b with objects := b.objects.storeNew b.lines (chomp line) fun ref => b.array ++ [ref] }

/-- `Screen#load_file_into_buffer` of a file that there is. -/
def loadFile (b : Buffer) (content : Text) : Buffer :=
  (eachLine content).foldl pushLine { b with objects := b.objects.setArray b.lines [] }

end Buffer

/-! ## Operations -/

/-- What is done to a buffer. -/
inductive Operation where
  | load (content : Text)
  | put (key : Key)
  | delete
  | deleteLine
  | insertLine (line : Option Nat)
  | head
  | tail
  | bottom
  | home
  | clear
deriving DecidableEq, Repr

namespace Buffer

/-- An operation; where it raises, the buffer stays as it is. -/
def operate (b : Buffer) : Operation → Buffer
  | .load content => b.loadFile content
  | .put key => (b.put key).getD b
  | .delete => b.delete.getD b
  | .deleteLine => b.deleteLine.2
  | .insertLine line => b.insertLine line
  | .head => b.head
  | .tail => b.tail.getD b
  | .bottom => b.bottom
  | .home => b.home
  | .clear => b.clear

def operates (b : Buffer) (operations : List Operation) : Buffer := operations.foldl operate b

/-- A file that is loaded has a line for the cursor, and a line that is deleted has one below it. -/
def KeepsRow (b : Buffer) : Operation → Prop
  | .load content => b.cursorY < (eachLine content).length
  | .deleteLine => b.cursorY + 1 < b.array.length
  | _ => True

variable {b : Buffer}

theorem Valid.currentLine (h : b.Valid) : b.currentLine.isSome := by
  obtain ⟨row, hrow⟩ := Int.eq_ofNat_of_zero_le h.nonneg
  have hlt := h.lt
  rw [hrow] at hlt
  unfold Buffer.currentLine
  rw [hrow, placeOf_natCast]
  rw [Option.bind_eq_bind, Option.bind_some, List.getElem?_eq_getElem (by omega)]
  rfl

theorem Valid.currentChar (h : b.Valid) : b.currentChar.isSome := by
  unfold Buffer.currentChar
  rw [Option.isSome_map]
  exact h.currentLine

theorem pushLine_array (hb : b.Allocated) (line : Text) :
    (b.pushLine line).array = b.array ++ [b.objects.strings.length] :=
  Objects.setArray_array hb

theorem pushLines (lines : List Text) : ∀ {b : Buffer}, b.Allocated →
    (lines.foldl pushLine b).Allocated ∧ (lines.foldl pushLine b).cursorY = b.cursorY ∧
      (lines.foldl pushLine b).array.length = b.array.length + lines.length := by
  induction lines with
  | nil => exact fun hb => ⟨hb, rfl, rfl⟩
  | cons line lines ih =>
    intro b hb
    have hpush : (b.pushLine line).Allocated := by
      change b.lines < (b.objects.storeNew b.lines _ _).arrays.length
      unfold Objects.storeNew
      rw [Objects.setArray_length]
      exact hb
    obtain ⟨hallocated, hrow, hlength⟩ := ih hpush
    refine ⟨hallocated, hrow, hlength.trans ?_⟩
    rw [pushLine_array hb, List.length_append, List.length_singleton, List.length_cons]
    omega

theorem loadFile_length (hb : b.Allocated) (content : Text) : (b.loadFile content).Allocated ∧
    (b.loadFile content).cursorY = b.cursorY ∧
      (b.loadFile content).array.length = (eachLine content).length := by
  have hcleared : Allocated { b with objects := b.objects.setArray b.lines [] } := by
    change b.lines < (b.objects.setArray b.lines []).arrays.length
    rw [Objects.setArray_length]
    exact hb
  have harray : (b.objects.setArray b.lines []).array b.lines = [] := Objects.setArray_array hb
  obtain ⟨hallocated, hrow, hlength⟩ := pushLines (eachLine content) hcleared
  refine ⟨hallocated, hrow, hlength.trans ?_⟩
  change ((b.objects.setArray b.lines []).array b.lines).length + _ = _
  rw [harray, List.length_nil, Nat.zero_add]

theorem clear_valid : b.clear.Allocated ∧ b.clear.Valid := by
  have harray : b.clear.array = [b.objects.strings.length] := Objects.newArray_array
  refine ⟨?_, Valid.of_row (Int.le_refl _) ?_⟩
  · change b.objects.arrays.length < ((b.objects.newString []).2.newArray _).2.arrays.length
    rw [Objects.newArray_length]
    exact Nat.lt_succ_self _
  · rw [harray]
    exact Int.zero_lt_one

/-- An operation that does not load or delete a line keeps the cursor in one. -/
theorem stays_valid {b' : Buffer} (h : Stays b b') (hb : b.Allocated) (hvalid : b.Valid) :
    b'.Allocated ∧ (b'.Valid ↔ True) :=
  ⟨h.allocated hb, iff_true_intro (h.valid hvalid)⟩

theorem getD_stays {b' : Option Buffer} (h : ∀ b₁, b' = some b₁ → Stays b b₁) : Stays b (b'.getD b) := by
  cases b' with
  | none => exact Stays.refl
  | some b₁ => exact h b₁ rfl

theorem operate_valid (hb : b.Allocated) (hvalid : b.Valid) (operation : Operation) :
    (b.operate operation).Allocated ∧ ((b.operate operation).Valid ↔ b.KeepsRow operation) := by
  have hnonneg := hvalid.nonneg
  have hlt := hvalid.lt
  cases operation with
  | load content =>
    obtain ⟨hallocated, hrow, hlength⟩ := loadFile_length hb content
    refine ⟨hallocated, ?_⟩
    change (b.loadFile content).Valid ↔ b.cursorY < (eachLine content).length
    rw [← hrow, ← hlength]
    constructor
    · exact fun h => h.lt
    · intro h
      apply Valid.of_row _ h
      rw [hrow]
      exact hnonneg
  | put key => exact stays_valid (getD_stays fun _ => put_stays hb) hb hvalid
  | delete =>
    refine stays_valid (getD_stays ?_) hb hvalid
    intro b₁ h
    unfold delete at h
    obtain ⟨line, hline, h⟩ := Option.bind_eq_some_iff.mp h
    dsimp only at h
    split at h
    · cases h
      exact setString_stays (mem_of_currentLine hline) b.changed
    · cases h
  | deleteLine =>
    have harray : b.deleteLine.2.array = linesDeleteAt b.array b.cursorY := Objects.setArray_array hb
    have hlength : b.deleteLine.2.array.length = b.array.length - 1 := by
      rw [harray, linesDeleteAt_length hnonneg hlt]
    refine ⟨?_, ?_⟩
    · change b.lines < (b.objects.setArray b.lines _).arrays.length
      rw [Objects.setArray_length]
      exact hb
    · constructor
      · intro h
        have hlt' : b.cursorY < (b.deleteLine.2.array.length : Int) := h.lt
        unfold KeepsRow
        omega
      · intro h
        unfold KeepsRow at h
        refine Valid.of_row hnonneg ?_
        change b.cursorY < (b.deleteLine.2.array.length : Int)
        omega
  | insertLine line =>
    cases line with
    | none => exact stays_valid Stays.refl hb hvalid
    | some line =>
      have harray : (b.insertLine (some line)).array = linesInsert b.array b.cursorY line :=
        Objects.setArray_array hb
      refine ⟨?_, iff_true_intro (Valid.of_row hnonneg ?_)⟩
      · change b.lines < (b.objects.setArray b.lines _).arrays.length
        rw [Objects.setArray_length]
        exact hb
      · change b.cursorY < ((b.insertLine (some line)).array.length : Int)
        rw [harray, linesInsert_length hnonneg (by omega)]
        omega
  | head => exact stays_valid head_stays hb hvalid
  | tail => exact stays_valid (getD_stays fun _ => tail_stays) hb hvalid
  | bottom =>
    refine ⟨hb, iff_true_intro (Valid.of_row ?_ ?_)⟩
    · change 0 ≤ (b.array.length : Int) - 1
      omega
    · change (b.array.length : Int) - 1 < b.array.length
      omega
  | home => exact stays_valid home_stays hb hvalid
  | clear => exact ⟨clear_valid.1, iff_true_intro clear_valid.2⟩

/-- **The cursor is always in a line** exactly when no file with too few lines is loaded and no line without
one below it is deleted. -/
theorem valid_iff (objects : Objects) (operations : List Operation) :
    (∀ pre, pre <+: operations → ((new objects).operates pre).Valid ∧
      ((new objects).operates pre).currentChar.isSome) ↔
    ∀ pre operation, pre ++ [operation] <+: operations →
      ((new objects).operates pre).KeepsRow operation := by
  have hnew : (new objects).Allocated ∧ (new objects).Valid := clear_valid
  have hiff : (∀ pre, pre <+: operations → ((new objects).operates pre).Valid) ↔
      ∀ pre operation, pre ++ [operation] <+: operations →
        ((new objects).operates pre).KeepsRow operation := by
    refine foldl_prefixes_iff ?_ hnew.1 hnew.2
    intro b operation hb hvalid
    obtain ⟨hallocated, hiff⟩ := operate_valid hb hvalid operation
    exact ⟨fun _ => hallocated, hiff⟩
  rw [← hiff]
  constructor
  · exact fun hall pre hpre => (hall pre hpre).1
  · exact fun hall pre hpre => ⟨hall pre hpre, (hall pre hpre).currentChar⟩

/-- An empty file is loaded; and the last of two lines is deleted. -/
theorem no_current_line :
    ((new ⟨[], []⟩).operate (.load [])).currentLine = none ∧
    ((new ⟨[], []⟩).operates [.load ['a', '\n', 'b'], .put .down, .deleteLine]).currentLine = none := by
  decide

end Buffer

end PicoRuby.Editor
