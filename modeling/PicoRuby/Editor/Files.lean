import PicoRuby.Editor.Unsaved
import PicoRuby.Vfs.Lines

/-!
# Saving and loading

The two methods of `Editor::Screen` that write the lines of the buffer into a file and read them back, through
`File#puts` and `File#each_line`.
-/

namespace PicoRuby.Editor

open Shared
open Vfs (Bytes Handle newline carriageReturn IsLine Lines)

set_option autoImplicit false

/-! ## The methods -/

inductive Node where
  | file (content : Bytes)
  | directory
deriving DecidableEq, Repr

/-- What is at a path, and the message of what is raised where it cannot be opened for writing. -/
structure Disk where
  node : Text → Option Node
  refusal : Text → Option String

def Disk.store (d : Disk) (path : Text) (content : Bytes) : Disk :=
  { d with node := fun p => if p = path then some (.file content) else d.node p }

/-- `@buffer.lines`, a String being its bytes, and `@buffer.changed`. -/
structure Screen where
  lines : List Bytes
  changed : Bool
deriving DecidableEq, Repr

namespace Screen

/-- The block of `each_line`. -/
def pushLine (s : Screen) (line : Bytes) : Screen := { s with lines := s.lines ++ [Vfs.chomp line] }

def loadFileIntoBuffer (s : Screen) (d : Disk) (filepath : Text) : Except String (Bool × Screen) :=
  match d.node filepath with
  | some (.file content) => .ok (true, (Handle.eachLine ⟨content, 0⟩).1.foldl pushLine { s with lines := [] })
  | some .directory => .error ("Is a directory: " ++ String.ofList filepath)
  | none => .ok (false, s)

/-- The message, the screen and the disk. -/
def saveFileFromBuffer (s : Screen) (d : Disk) (filepath : Text) : String × Screen × Disk :=
  match d.refusal filepath with
  | some message => ("Failed to save: " ++ message, s, d)
  | none => ("File saved: " ++ String.ofList filepath, { s with changed := false },
      d.store filepath (s.lines.foldl Handle.puts ⟨[], 0⟩).content)

end Screen

/-! ## Lines that are written -/

theorem write_end {f : Handle} (h : f.pos = f.content.length) (s : Bytes) :
    f.write s = ⟨f.content ++ s, (f.content ++ s).length⟩ := by
  unfold Handle.write
  rw [h, List.take_length, List.drop_of_length_le (by omega), List.append_nil, List.length_append]

theorem puts_end {f : Handle} (h : f.pos = f.content.length) (line : Bytes) :
    f.puts line = ⟨f.content ++ (line ++ [newline]), (f.content ++ (line ++ [newline])).length⟩ := by
  unfold Handle.puts
  rw [write_end h, write_end rfl, List.append_assoc]

theorem foldl_puts (lines : List Bytes) {f : Handle} (h : f.pos = f.content.length) :
    (lines.foldl Handle.puts f).content = f.content ++ lines.flatMap (· ++ [newline]) := by
  induction lines generalizing f with
  | nil => simp
  | cons line lines ih =>
    rw [List.foldl_cons, puts_end h, ih rfl, List.flatMap_cons, List.append_assoc]

theorem isLine_puts {line : Bytes} (h : newline ∉ line) (more : Bytes) :
    IsLine [newline] (line ++ [newline] ++ more) (line ++ [newline]) := by
  refine ⟨by simp, List.prefix_append _ _, .inl ⟨line.length, ?_, ?_, by simp⟩⟩
  · refine ⟨by simp, ?_⟩
    rw [List.append_assoc, List.drop_left]
    exact List.prefix_append _ _
  · intro j hj hocc
    have hin := hocc.2
    rw [List.append_assoc, List.drop_append_of_le_length (by omega),
      List.drop_eq_getElem_cons hj, List.cons_append, List.cons_prefix_cons] at hin
    rw [hin.1] at h
    exact h (List.getElem_mem hj)

theorem lines_puts {lines : List Bytes} (h : ∀ line ∈ lines, newline ∉ line) :
    Lines [newline] (lines.flatMap (· ++ [newline])) (lines.map (· ++ [newline])) := by
  induction lines with
  | nil => exact .nil
  | cons line lines ih =>
    rw [List.flatMap_cons, List.map_cons]
    apply Lines.cons (isLine_puts (h line List.mem_cons_self) _)
    rw [List.drop_left]
    exact ih fun line hline => h line (List.mem_cons_of_mem _ hline)

theorem eachLine_puts {lines : List Bytes} (h : ∀ line ∈ lines, newline ∉ line) :
    (Handle.eachLine ⟨lines.flatMap (· ++ [newline]), 0⟩).1 = lines.map (· ++ [newline]) :=
  (Vfs.eachLine_lines _).unique (lines_puts h)

theorem chomp_newline {line : Bytes} (h : carriageReturn ∉ line) : Vfs.chomp (line ++ [newline]) = line := by
  unfold Vfs.chomp
  rw [List.getLast?_concat, if_pos rfl, List.dropLast_concat, if_neg]
  intro hlast
  exact h (List.mem_of_getLast? hlast)

theorem foldl_pushLine (lines : List Bytes) (s : Screen) :
    lines.foldl Screen.pushLine s = { s with lines := s.lines ++ lines.map Vfs.chomp } := by
  induction lines generalizing s with
  | nil => simp
  | cons line lines ih =>
    rw [List.foldl_cons, ih]
    simp [Screen.pushLine]

/-! ## The buffer -/

/-- A String of characters that are bytes. -/
def characters (s : Bytes) : Text := s.map fun b => Char.ofNat b.toNat

theorem charOf_toNat (b : UInt8) : (Char.ofNat b.toNat).toNat.toUInt8 = b := by
  have hvalid : b.toNat.isValidChar := Or.inl (Nat.lt_trans b.toNat_lt (by decide))
  have hcode : (Char.ofNat b.toNat).toNat = b.toNat := by
    unfold Char.ofNat
    rw [dif_pos hvalid]
    rfl
  rw [hcode]
  exact UInt8.ofNat_toNat

theorem charOf_eq_iff (b c : UInt8) : Char.ofNat b.toNat = Char.ofNat c.toNat ↔ b = c := by
  constructor
  · intro h
    rw [← charOf_toNat b, h, charOf_toNat]
  · rintro rfl
    rfl

theorem charOf_newline (b : UInt8) : Char.ofNat b.toNat = '\n' ↔ b = newline := charOf_eq_iff b newline

theorem charOf_return (b : UInt8) : Char.ofNat b.toNat = '\r' ↔ b = carriageReturn :=
  charOf_eq_iff b carriageReturn

/-- A line that ends with the first newline. -/
theorem eachLine_newline {line : Bytes} (h : newline ∉ line) (more : Bytes) :
    eachLine (characters (line ++ [newline] ++ more)) =
      characters (line ++ [newline]) :: eachLine (characters more) := by
  induction line with
  | nil => rfl
  | cons b line ih =>
    rw [List.mem_cons, not_or] at h
    have hb : Char.ofNat b.toNat ≠ '\n' := fun heq => h.1 ((charOf_newline b).mp heq).symm
    have hih := ih h.2
    unfold characters at hih ⊢
    rw [List.cons_append, List.cons_append, List.map_cons, eachLine, if_neg hb, hih]
    rfl

/-- A line without a newline is the last. -/
theorem eachLine_rest {line : Bytes} (h : newline ∉ line) (hne : line ≠ []) :
    eachLine (characters line) = [characters line] := by
  induction line with
  | nil => exact absurd rfl hne
  | cons b line ih =>
    rw [List.mem_cons, not_or] at h
    have hb : Char.ofNat b.toNat ≠ '\n' := fun heq => h.1 ((charOf_newline b).mp heq).symm
    unfold characters at ih ⊢
    rw [List.map_cons, eachLine, if_neg hb]
    cases line with
    | nil => rfl
    | cons c line =>
      rw [ih h.2 (List.cons_ne_nil _ _)]

theorem eachLine_characters {content : Bytes} {lines : List Bytes} (h : Lines [newline] content lines) :
    eachLine (characters content) = lines.map characters := by
  induction h with
  | nil => rfl
  | @cons rest line lines hline _ ih =>
    obtain ⟨more, rfl⟩ := hline.isPrefix
    rw [List.drop_left] at ih
    rw [List.map_cons, ← ih]
    rcases hline.singleton with ⟨before, hbefore, rfl⟩ | ⟨hnone, hall⟩
    · exact eachLine_newline hbefore more
    · have hmore : more = [] := List.append_right_eq_self.mp hall.symm
      rw [hmore, List.append_nil] at hnone ⊢
      exact eachLine_rest hnone hline.nonempty

theorem chomp_concat (s : Text) (c : Char) : chomp (s ++ [c]) =
    if c = '\n' then if s.getLast? = some '\r' then s.dropLast else s
    else if c = '\r' then s else s ++ [c] := by
  rcases List.eq_nil_or_concat s with rfl | ⟨before, d, rfl⟩
  · unfold chomp
    split <;> simp_all
  · rw [List.concat_eq_append, List.getLast?_concat, List.dropLast_concat]
    have hreverse : (before ++ [d] ++ [c]).reverse = c :: d :: before.reverse := by simp
    unfold chomp
    rw [hreverse]
    by_cases hc : c = '\n'
    · subst hc
      by_cases hd : d = '\r'
      · subst hd
        simp
      · simp [hd]
    · by_cases hreturn : c = '\r'
      · subst hreturn
        simp
      · simp [hc, hreturn]

theorem chomp_characters (line : Bytes) : chomp (characters line) = characters (Vfs.chomp line) := by
  rcases List.eq_nil_or_concat line with rfl | ⟨before, b, rfl⟩
  · rfl
  · have hlast : (characters before).getLast? = some '\r' ↔ before.getLast? = some carriageReturn := by
      unfold characters
      rw [List.getLast?_map, Option.map_eq_some_iff]
      constructor
      · rintro ⟨d, hd, heq⟩
        rw [hd, (charOf_return d).mp heq]
      · intro h
        exact ⟨_, h, rfl⟩
    have hconcat : characters (before.concat b) = characters before ++ [Char.ofNat b.toNat] := by
      simp [characters]
    rw [hconcat, chomp_concat]
    unfold Vfs.chomp
    simp only [List.concat_eq_append, List.getLast?_concat, List.dropLast_concat, Option.some.injEq, charOf_newline,
      charOf_return, hlast]
    split
    · split
      · simp [characters]
      · rfl
    · split
      · rfl
      · simp [characters]

theorem Buffer.pushLine_texts {b : Buffer} (h : b.objects.Live b.lines) (line : Text) :
    (b.pushLine line).texts = b.texts ++ [chomp line] := by
  have hplace : b.array ++ [b.objects.strings.length] = b.array ++ b.objects.strings.length :: [] := rfl
  have hmem : ∀ str ∈ b.array ++ [], str ∈ b.objects.array b.lines := by
    rw [List.append_nil]
    exact fun _ hin => hin
  exact Objects.texts_storeNew_eq h hplace hmem

theorem Buffer.pushLines_texts (lines : List Text) {b : Buffer} (h : b.objects.Live b.lines) :
    (lines.foldl pushLine b).texts = b.texts ++ lines.map chomp := by
  induction lines generalizing b with
  | nil => simp
  | cons line lines ih => rw [List.foldl_cons, ih (pushLine_live h line), pushLine_texts h, List.map_cons,
      List.append_assoc, List.singleton_append]

/-- The lines of the buffer that a file of bytes is loaded into. -/
theorem Buffer.loadFile_texts {b : Buffer} (h : b.objects.Live b.lines) (content : Bytes) :
    (b.loadFile (characters content)).texts =
      ((Handle.eachLine ⟨content, 0⟩).1.map Vfs.chomp).map characters := by
  have hcleared : (b.objects.setArray b.lines []).Live b.lines :=
    (Objects.within_setArray h.array fun _ hin => absurd hin List.not_mem_nil).live h
  have htexts : (b.objects.setArray b.lines []).texts b.lines = [] := Objects.texts_setArray h.array
  have hload : (b.loadFile (characters content)).texts =
      (b.objects.setArray b.lines []).texts b.lines ++ (eachLine (characters content)).map chomp :=
    pushLines_texts _ (b := { b with objects := b.objects.setArray b.lines [] }) hcleared
  rw [hload, htexts, List.nil_append, eachLine_characters (Vfs.eachLine_lines content), List.map_map, List.map_map]
  exact List.map_congr_left fun line _ => chomp_characters line

/-- **What is saved is loaded again:** lines with no carriage return and no newline in them. -/
theorem save_load {s : Screen} {d : Disk} {filepath : Text} (hopen : d.refusal filepath = none)
    (hlines : ∀ line ∈ s.lines, carriageReturn ∉ line ∧ newline ∉ line) (s' : Screen) :
    (s.saveFileFromBuffer d filepath).1 = "File saved: " ++ String.ofList filepath ∧
    (s.saveFileFromBuffer d filepath).2.1 = { s with changed := false } ∧
    s'.loadFileIntoBuffer (s.saveFileFromBuffer d filepath).2.2 filepath =
      .ok (true, { s' with lines := s.lines }) := by
  have hsave : s.saveFileFromBuffer d filepath = ("File saved: " ++ String.ofList filepath,
      { s with changed := false }, d.store filepath (s.lines.flatMap (· ++ [newline]))) := by
    unfold Screen.saveFileFromBuffer
    rw [hopen]
    simp only [foldl_puts s.lines (f := ⟨[], 0⟩) rfl, List.nil_append]
  rw [hsave]
  refine ⟨rfl, rfl, ?_⟩
  have hnode : (d.store filepath (s.lines.flatMap (· ++ [newline]))).node filepath =
      some (.file (s.lines.flatMap (· ++ [newline]))) := if_pos rfl
  have hchomp : (s.lines.map (· ++ [newline])).map Vfs.chomp = s.lines := by
    rw [List.map_map]
    calc s.lines.map (Vfs.chomp ∘ (· ++ [newline])) = s.lines.map id :=
          List.map_congr_left fun line hline => chomp_newline (hlines line hline).1
      _ = s.lines := List.map_id _
  unfold Screen.loadFileIntoBuffer
  simp only [hnode]
  rw [eachLine_puts fun line hline => (hlines line hline).2, foldl_pushLine, hchomp]
  rfl

/-- A disk with nothing on it. -/
def emptyDisk : Disk := ⟨fun _ => none, fun _ => none⟩

theorem save_load_blank : emptyDisk.refusal "notes".toList = none ∧
    Screen.loadFileIntoBuffer ⟨[], true⟩
      (Screen.saveFileFromBuffer ⟨[[], [97, 98], []], true⟩ emptyDisk "notes".toList).2.2 "notes".toList =
        .ok (true, ⟨[[], [97, 98], []], true⟩) := by
  have hlines : ∀ line ∈ ([[], [97, 98], []] : List Bytes), carriageReturn ∉ line ∧ newline ∉ line := by decide
  exact ⟨rfl, (save_load (s := ⟨[[], [97, 98], []], true⟩) (d := emptyDisk) rfl hlines _).2.2⟩

end PicoRuby.Editor
