import PicoRuby.Editor.Vim

/-!
# Unsaved changes

`:q` looks at `changed`, which is noted by `put` and taken back by a save. `x`, `dd` and `p` change the lines by
other methods.
-/

namespace PicoRuby.Editor

open Shared

set_option autoImplicit false

namespace Buffer
variable {b b' b'' : Buffer}

/-- The lines are there, and no row is above the first one. -/
structure Steady (b : Buffer) : Prop where
  live : b.objects.Live b.lines
  nonneg : 0 ≤ b.cursorY

/-- The lines read as before, or it is noted that they have been changed. -/
structure Noted (b b' : Buffer) : Prop where
  steady : b'.Steady
  strings : b.objects.strings.length ≤ b'.objects.strings.length
  same : b'.texts = b.texts ∧ b'.changed = b.changed ∨ b'.changed = true

theorem Noted.refl (h : b.Steady) : Noted b b := ⟨h, Nat.le_refl _, Or.inl ⟨rfl, rfl⟩⟩

theorem Noted.trans (h : Noted b b') (h' : Noted b' b'') : Noted b b'' := by
  refine ⟨h'.steady, Nat.le_trans h.strings h'.strings, ?_⟩
  rcases h'.same with ⟨htexts, hchanged⟩ | hchanged
  · rw [htexts, hchanged]
    exact h.same
  · exact Or.inr hchanged

theorem SameLines.texts (h : SameLines b b') : b'.texts = b.texts := by
  unfold Buffer.texts
  rw [h.objects, h.lines]

theorem SameLines.noted (h : SameLines b b') (hb : b.Steady) (hrow : 0 ≤ b'.cursorY) : Noted b b' := by
  refine ⟨⟨?_, hrow⟩, ?_, Or.inl ⟨h.texts, h.changed⟩⟩
  · rw [h.objects, h.lines]
    exact hb.live
  · exact Nat.le_of_eq (by rw [h.objects])

/-! ## A key -/

theorem right_changed (h : b.right = some b') : b'.changed = b.changed := (right_same h).changed

theorem putString_changed {c : Text} (h : b.putString c = some b') : b'.changed = true := by
  unfold putString at h
  obtain ⟨line, -, h⟩ := Option.bind_eq_some_iff.mp h
  obtain ⟨b₁, -, h⟩ := Option.bind_eq_some_iff.mp h
  exact right_changed h

theorem enter_changed (line : Text) : (b.enter line).changed = true := by
  unfold enter
  dsimp only
  rw [down_same.changed]
  split <;> rfl

theorem bspace_changed {ref : Nat} (h : b.bspace ref = some b') : b'.changed = true := by
  unfold bspace at h
  dsimp only at h
  split at h
  · split at h
    · exact (tail_same h).changed
    · exact (left_same h).changed
  · split at h
    · obtain ⟨above, -, h⟩ := Option.bind_eq_some_iff.mp h
      cases h
      exact up_same.changed
    · cases h
      rfl

/-- A key moves the cursor only, or it is noted. -/
theorem put_same_or_changed {key : Key} (h : b.put key = some b') : SameLines b b' ∨ b'.changed = true := by
  cases key with
  | up => exact Or.inl (put_move_same Key.IsMove.up h)
  | down => exact Or.inl (put_move_same Key.IsMove.down h)
  | right => exact Or.inl (put_move_same Key.IsMove.right h)
  | left => exact Or.inl (put_move_same Key.IsMove.left h)
  | string c =>
    obtain ⟨line, -, h⟩ := Option.bind_eq_some_iff.mp h
    exact Or.inr (putString_changed h)
  | tab =>
    obtain ⟨line, -, h⟩ := Option.bind_eq_some_iff.mp h
    obtain ⟨b₁, -, h⟩ := Option.bind_eq_some_iff.mp h
    obtain ⟨b₂, -, h⟩ := Option.bind_eq_some_iff.mp h
    exact Or.inr (putString_changed h)
  | enter =>
    obtain ⟨line, -, h⟩ := Option.bind_eq_some_iff.mp h
    obtain ⟨b₁, -, h⟩ := Option.bind_eq_some_iff.mp h
    cases h
    exact Or.inr (enter_changed _)
  | bspace =>
    obtain ⟨line, -, h⟩ := Option.bind_eq_some_iff.mp h
    obtain ⟨b₁, -, h⟩ := Option.bind_eq_some_iff.mp h
    exact Or.inr (bspace_changed h)
  | home =>
    obtain ⟨line, -, h⟩ := Option.bind_eq_some_iff.mp h
    obtain ⟨b₁, hclamp, h⟩ := Option.bind_eq_some_iff.mp h
    cases h
    exact Or.inl ((clamp_same hclamp).trans ⟨rfl, rfl, rfl⟩)

theorem currentLine_lt {ref : Nat} (h : 0 ≤ b.cursorY) (href : b.currentLine = some ref) :
    b.cursorY < b.array.length := by
  obtain ⟨row, hrow⟩ := Int.eq_ofNat_of_zero_le h
  unfold currentLine at href
  rw [hrow, placeOf_natCast] at href
  obtain ⟨hlt, -⟩ := List.getElem?_eq_some_iff.mp href
  omega

theorem put_noted {key : Key} (hb : b.Steady) (h : b.put key = some b') : Noted b b' := by
  have hstays := put_stays hb.live.array h
  obtain ⟨line, hline, -⟩ := Option.bind_eq_some_iff.mp h
  have hvalid := hstays.valid (Valid.of_row hb.nonneg (currentLine_lt hb.nonneg hline))
  refine ⟨⟨?_, hvalid.nonneg⟩, hstays.within.strings, ?_⟩
  · rw [hstays.lines]
    exact hstays.within.live hb.live
  · rcases put_same_or_changed h with hsame | hchanged
    · exact Or.inl ⟨hsame.texts, hsame.changed⟩
    · exact Or.inr hchanged

theorem getD_noted {b' : Option Buffer} (hb : b.Steady) (h : ∀ b₁, b' = some b₁ → Noted b b₁) :
    Noted b (b'.getD b) := by
  cases b' with
  | none => exact Noted.refl hb
  | some b₁ => exact h b₁ rfl

theorem tail_noted (hb : b.Steady) (h : b.tail = some b') : Noted b b' := by
  obtain ⟨length, -, rfl⟩ := Option.map_eq_some_iff.mp h
  exact SameLines.noted ⟨rfl, rfl, rfl⟩ hb hb.nonneg

theorem head_noted (hb : b.Steady) : Noted b b.head := SameLines.noted ⟨rfl, rfl, rfl⟩ hb hb.nonneg

theorem skipBlanks_noted (rounds : Nat) : ∀ {b : Buffer}, b.Steady → b.skipBlanks rounds = some b' →
    Noted b b' := by
  induction rounds with
  | zero =>
    intro b hb h
    cases h
    exact Noted.refl hb
  | succ rounds ih =>
    intro b hb h
    obtain ⟨c, -, h⟩ := Option.bind_eq_some_iff.mp h
    split at h
    · obtain ⟨b₁, hput, h⟩ := Option.bind_eq_some_iff.mp h
      have hnoted := put_noted hb hput
      exact hnoted.trans (ih hnoted.steady h)
    · cases h
      exact Noted.refl hb

/-! ## Loading -/

theorem pushLine_live (h : b.objects.Live b.lines) (line : Text) :
    (b.pushLine line).objects.Live (b.pushLine line).lines := by
  have hwithin : Objects.Within b.objects (b.pushLine line).objects b.lines := by
    unfold pushLine
    dsimp only
    apply Objects.within_storeNew h.array
    intro str hin
    rcases List.mem_append.mp hin with hin | hin
    · exact Or.inl hin
    · exact Or.inr (List.mem_singleton.mp hin)
  exact hwithin.live h

theorem pushLines_live (lines : List Text) : ∀ {b : Buffer}, b.objects.Live b.lines →
    (lines.foldl pushLine b).objects.Live (lines.foldl pushLine b).lines := by
  induction lines with
  | nil => exact fun h => h
  | cons line lines ih => exact fun h => ih (pushLine_live h line)

theorem loadFile_live (h : b.objects.Live b.lines) (content : Text) :
    (b.loadFile content).objects.Live (b.loadFile content).lines := by
  apply pushLines_live
  exact (Objects.within_setArray h.array fun str hin => absurd hin List.not_mem_nil).live h

theorem new_live (objects : Objects) : (new objects).objects.Live (new objects).lines := by
  have harray : (new objects).array = [objects.strings.length] := Objects.newArray_array
  refine ⟨clear_valid.1, fun str hin => ?_⟩
  have hin' : str ∈ (new objects).array := hin
  rw [harray, List.mem_singleton] at hin'
  rw [hin']
  apply Nat.lt_of_lt_of_eq (Nat.lt_succ_self _)
  exact Objects.newString_length.symm

end Buffer

namespace Vim
variable {s s' s'' : Vim}

/-- The lines are as they were loaded or saved, or it is noted that they are not. -/
def Guarded (s : Vim) : Prop := s.buffer.texts ≠ s.saved → s.buffer.changed = true

/-- The lines and the paste board are there. -/
structure Steady (s : Vim) : Prop where
  buffer : s.buffer.Steady
  board : ∀ line, s.pasteBoard = some line → line < s.buffer.objects.strings.length

/-- Nothing is changed without a note. -/
structure Safe (s s' : Vim) : Prop where
  steady : s'.Steady
  guarded : s.Guarded → s'.Guarded

theorem Safe.refl (h : s.Steady) : Safe s s := ⟨h, id⟩

theorem Safe.trans (h : Safe s s') (h' : Safe s' s'') : Safe s s'' :=
  ⟨h'.steady, fun hguarded => h'.guarded (h.guarded hguarded)⟩

theorem safe_of_noted (hs : s.Steady) (h : s.buffer.Noted s'.buffer) (hboard : s'.pasteBoard = s.pasteBoard)
    (hsaved : s'.saved = s.saved) : Safe s s' := by
  refine ⟨⟨h.steady, ?_⟩, ?_⟩
  · intro line hline
    rw [hboard] at hline
    exact Nat.lt_of_lt_of_le (hs.board line hline) h.strings
  · intro hguarded hne
    rcases h.same with ⟨htexts, hchanged⟩ | hchanged
    · rw [hchanged]
      apply hguarded
      rw [← htexts, ← hsaved]
      exact hne
    · exact hchanged

theorem safe_of_buffer (hs : s.Steady) (h : s'.buffer = s.buffer) (hboard : s'.pasteBoard = s.pasteBoard)
    (hsaved : s'.saved = s.saved) : Safe s s' := by
  apply safe_of_noted hs _ hboard hsaved
  rw [h]
  exact Buffer.Noted.refl hs.buffer

theorem put_safe (hs : s.Steady) (key : Key) : Safe s (s.put key) :=
  safe_of_noted hs (Buffer.getD_noted hs.buffer fun _ => Buffer.put_noted hs.buffer) rfl rfl

theorem saveFile_safe (hs : s.Steady) (writable : Bool) : Safe s (s.saveFile writable) := by
  unfold saveFile
  split
  · exact Safe.refl hs
  · split
    · exact ⟨⟨⟨hs.buffer.live, hs.buffer.nonneg⟩, hs.board⟩, fun _ hne => absurd rfl hne⟩
    · exact Safe.refl hs

theorem execCommand_safe (hs : s.Steady) (params : List Text) (writable : Bool) :
    Safe s (s.execCommand params writable) := by
  have hquit : Safe s { s with running := false } := safe_of_buffer hs rfl rfl rfl
  unfold execCommand
  split
  · split
    · split
      · exact Safe.refl hs
      · exact hquit
    · split
      · exact hquit
      · split
        · exact saveFile_safe hs writable
        · split
          · have hsave := saveFile_safe hs writable
            exact hsave.trans (safe_of_buffer hsave.steady rfl rfl rfl)
          · exact Safe.refl hs
  · rename_i command filepath
    split
    · have hpath : Safe s { s with filepath := some filepath } := safe_of_buffer hs rfl rfl rfl
      exact hpath.trans (saveFile_safe hpath.steady writable)
    · exact Safe.refl hs
  · exact Safe.refl hs

theorem enterInsert_safe (hs : s.Steady) (c : Nat) : Safe s (s.enterInsert c) := by
  have hfinish (moved : Bool) {b : Buffer} (hb : s.buffer.Noted b) :
      Safe s (if moved then setCommand { s with buffer := b, mode := .insert } "Insert" else
        { s with buffer := b }) := by
    split <;> exact safe_of_noted hs hb rfl rfl
  have hhead : s.buffer.Noted s.buffer.head := Buffer.head_noted hs.buffer
  unfold enterInsert
  split
  rename_i moved buffer heq
  have hnoted : s.buffer.Noted buffer := by
    split at heq
    · cases heq
      exact Buffer.getD_noted hs.buffer fun _ => Buffer.tail_noted hs.buffer
    · cases heq
      exact hhead.trans (Buffer.getD_noted hhead.steady fun _ => Buffer.skipBlanks_noted _ hhead.steady)
    · cases heq
      exact Buffer.getD_noted hs.buffer fun _ => Buffer.put_noted hs.buffer
    · split at heq
      · cases heq
        exact Buffer.Noted.refl hs.buffer
      · rename_i tail htail
        cases heq
        have hnoted := Buffer.tail_noted hs.buffer htail
        exact hnoted.trans (Buffer.getD_noted hnoted.steady fun _ => Buffer.put_noted hnoted.steady)
    · cases heq
      exact Buffer.Noted.refl hs.buffer
  exact hfinish moved hnoted

theorem execCommand_leave (hs : s.Steady) (params : List Text) (writable : Bool) :
    Safe s (if (s.execCommand params writable).running then
      { (s.execCommand params writable).clearCommandBuffer with mode := .normal }
      else s.execCommand params writable) := by
  have hexec := execCommand_safe hs params writable
  split
  · exact hexec.trans (safe_of_buffer hexec.steady rfl rfl rfl)
  · exact hexec

theorem bspaceCommand (hs : s.Steady) :
    Safe s (if (s.putCommand .bspace).commandBuffer.first = [] then
      { s.putCommand .bspace with mode := .normal } else s.putCommand .bspace) := by
  split <;> exact safe_of_buffer hs rfl rfl rfl

theorem leaveInsert_safe (hs : s.Steady) :
    Safe s (if 0 < s.buffer.cursorX then put { s.clearCommandBuffer with mode := .normal } .left
      else { s.clearCommandBuffer with mode := .normal }) := by
  have hleave : Safe s { s.clearCommandBuffer with mode := .normal } := safe_of_buffer hs rfl rfl rfl
  split
  · exact hleave.trans (put_safe hleave.steady _)
  · exact hleave

theorem command_safe (hs : s.Steady) (input : Input) : Safe s (s.command input) := by
  have hleave : Safe s { s.clearCommandBuffer with mode := .normal } := safe_of_buffer hs rfl rfl rfl
  have hput (key : Key) : Safe s (s.putCommand key) := safe_of_buffer hs rfl rfl rfl
  unfold command
  split
  · exact execCommand_leave hs _ _
  · exact execCommand_leave hs _ _
  · split
    · exact hput _
    · exact hput _
    · exact hleave
    · exact hleave
    · exact Safe.refl hs
  · exact bspaceCommand hs
  · exact bspaceCommand hs
  · split
    · exact hput _
    · exact Safe.refl hs

theorem insert_safe (hs : s.Steady) (input : Input) : Safe s (s.insert input) := by
  unfold insert
  split
  · split
    · exact put_safe hs _
    · split
      · exact leaveInsert_safe hs
      · exact leaveInsert_safe hs
      · exact Safe.refl hs
  · exact put_safe hs _
  · exact put_safe hs _
  · exact put_safe hs _
  · exact put_safe hs _
  · exact put_safe hs _
  · split
    · exact put_safe hs _
    · exact Safe.refl hs

/-! ## Changes without a note -/

/-- A key that changes the lines by a method that does not note it. -/
def Alters (s : Vim) (input : Input) : Prop :=
  match s.mode with
  | .normal =>
    input.c = 112 ∧ s.pasteBoard.isSome ∧ s.buffer.currentLine.isSome ∨
      input.c = 120 ∧ ∃ c, s.buffer.currentChar = some (some c)
  | .cut => input.c = 100 ∧ s.buffer.currentLine.isSome
  | _ => False

/-- What such a key does, and every other one. -/
structure Outcome (s s' : Vim) (alters : Prop) : Prop where
  steady : s'.Steady
  altered : alters →
    s'.buffer.texts ≠ s.buffer.texts ∧ s'.buffer.changed = s.buffer.changed ∧ s'.saved = s.saved
  safe : ¬ alters → s.Guarded → s'.Guarded

variable {alters : Prop}

theorem Safe.outcome (h : Safe s s') (hnot : ¬ alters) : Outcome s s' alters :=
  ⟨h.steady, fun halters => absurd halters hnot, fun _ => h.guarded⟩

theorem Outcome.guarded_iff (h : Outcome s s' alters) (hguarded : s.Guarded) :
    s'.Guarded ↔ (alters → s.buffer.changed = true) := by
  constructor
  · intro hguarded' halters
    obtain ⟨htexts, hchanged, hsaved⟩ := h.altered halters
    by_contra hnot
    -- what is not noted is as it was saved, and is so no longer
    have hsame : s.buffer.texts = s.saved := by
      by_contra hne
      exact hnot (hguarded hne)
    apply hnot
    rw [← hchanged]
    apply hguarded'
    rw [hsaved, ← hsame]
    exact htexts
  · intro hall
    by_cases halters : alters
    · intro _
      rw [(h.altered halters).2.1]
      exact hall halters
    · exact h.safe halters hguarded

theorem texts_length {b : Buffer} : b.texts.length = b.array.length := List.length_map _

theorem delete_outcome (hs : s.Steady) : Outcome s { s with buffer := s.buffer.delete.getD s.buffer }
    (∃ c, s.buffer.currentChar = some (some c)) := by
  cases hline : s.buffer.currentLine with
  | none =>
    have hdelete : s.buffer.delete = none := by
      unfold Buffer.delete
      rw [hline]
      rfl
    rw [hdelete]
    refine (Safe.refl hs).outcome ?_
    rintro ⟨c, hc⟩
    unfold Buffer.currentChar at hc
    rw [hline] at hc
    cases hc
  | some ref =>
    have hmem := Buffer.mem_of_currentLine hline
    have hlt := hs.buffer.live.strings ref hmem
    have hchar : s.buffer.currentChar = some (s.buffer.objects.string ref)[s.buffer.cursorX]? := by
      unfold Buffer.currentChar
      rw [hline, Option.map_some]
    by_cases hle : s.buffer.cursorX ≤ (s.buffer.objects.string ref).length
    · have hdelete : s.buffer.delete.getD s.buffer =
          { s.buffer with
            objects := s.buffer.objects.setString ref
              ((s.buffer.objects.string ref).eraseIdx s.buffer.cursorX) } := by
        unfold Buffer.delete
        rw [hline]
        simp [hle]
      rw [hdelete]
      have hwithin := Objects.within_setString (o := s.buffer.objects)
        (s := (s.buffer.objects.string ref).eraseIdx s.buffer.cursorX) hmem
      refine ⟨⟨⟨hwithin.live hs.buffer.live, hs.buffer.nonneg⟩, fun line hline =>
        Nat.lt_of_lt_of_le (hs.board line hline) hwithin.strings⟩, ?_, ?_⟩
      · rintro ⟨c, hc⟩
        refine ⟨?_, rfl, rfl⟩
        rw [hchar, Option.some.injEq] at hc
        obtain ⟨hcolumn, -⟩ := List.getElem?_eq_some_iff.mp hc
        intro heq
        have hstring := (List.map_inj_left.mp heq) ref hmem
        rw [Objects.setString_string hlt] at hstring
        have hlength := congrArg List.length hstring
        rw [List.length_eraseIdx_of_lt hcolumn] at hlength
        omega
      · intro hnot hguarded
        have hend : (s.buffer.objects.string ref).length ≤ s.buffer.cursorX := by
          by_contra hlt
          exact hnot ⟨_, hchar.trans (congrArg some (List.getElem?_eq_getElem (Nat.lt_of_not_le hlt)))⟩
        rw [List.eraseIdx_of_length_le hend, Objects.setString_self]
        exact hguarded
    · have hdelete : s.buffer.delete = none := by
        unfold Buffer.delete
        rw [hline]
        simp [hle]
      rw [hdelete]
      refine (Safe.refl hs).outcome ?_
      rintro ⟨c, hc⟩
      rw [hchar, Option.some.injEq] at hc
      obtain ⟨hcolumn, -⟩ := List.getElem?_eq_some_iff.mp hc
      omega

theorem texts_ne {b b' : Buffer} (h : b'.array.length ≠ b.array.length) : b'.texts ≠ b.texts := by
  intro heq
  apply h
  rw [← texts_length, ← texts_length, heq]

theorem paste_outcome (hs : s.Steady) :
    Outcome s s.paste (s.pasteBoard.isSome ∧ s.buffer.currentLine.isSome) := by
  unfold paste
  split
  · rename_i hboard
    refine (Safe.refl hs).outcome ?_
    rintro ⟨hsome, -⟩
    rw [hboard] at hsome
    cases hsome
  · rename_i line hboard
    split
    · rename_i hput
      refine (Safe.refl hs).outcome ?_
      rintro ⟨-, hsome⟩
      obtain ⟨ref, href⟩ := Option.isSome_iff_exists.mp hsome
      unfold Buffer.put Buffer.clamp Buffer.currentLength at hput
      simp [href] at hput
    · rename_i b hput
      have hsame := Buffer.put_move_same Key.IsMove.down hput
      have hnoted := Buffer.put_noted hs.buffer hput
      obtain ⟨ref, href, -⟩ := Option.bind_eq_some_iff.mp hput
      have hlt : b.cursorY < b.array.length := by
        have hvalid := (Buffer.put_stays hs.buffer.live.array hput).valid
          (Buffer.Valid.of_row hs.buffer.nonneg (Buffer.currentLine_lt hs.buffer.nonneg href))
        exact hvalid.lt
      have harray : (b.insertLine (some line)).array = linesInsert b.array b.cursorY line :=
        Objects.setArray_array hnoted.steady.live.array
      have hlength : (b.insertLine (some line)).array.length = b.array.length + 1 := by
        rw [harray, linesInsert_length hnoted.steady.nonneg (by omega)]
      have hboardlt : line < b.objects.strings.length :=
        Nat.lt_of_lt_of_le (hs.board line hboard) hnoted.strings
      refine ⟨⟨⟨⟨?_, ?_⟩, hnoted.steady.nonneg⟩, ?_⟩, ?_, ?_⟩
      · change b.lines < (b.objects.setArray b.lines _).arrays.length
        rw [Objects.setArray_length]
        exact hnoted.steady.live.array
      · intro str hin
        have hin' : str ∈ (b.insertLine (some line)).array := hin
        rw [harray] at hin'
        rcases mem_linesInsert hin' with hin' | rfl
        · exact hnoted.steady.live.strings str hin'
        · exact hboardlt
      · intro line' hline'
        rw [hboard] at hline'
        cases hline'
        exact hboardlt
      · intro _
        refine ⟨?_, hsame.changed, rfl⟩
        rw [← hsame.texts]
        apply texts_ne
        change (b.insertLine (some line)).array.length ≠ b.array.length
        omega
      · intro hnot
        exact absurd ⟨by rw [hboard]; rfl, by rw [href]; rfl⟩ hnot

theorem deleteLine_outcome (hs : s.Steady) :
    Outcome s { s with pasteBoard := s.buffer.deleteLine.1, buffer := s.buffer.deleteLine.2 }
      (s.buffer.currentLine.isSome = true) := by
  have harray : s.buffer.deleteLine.2.array = linesDeleteAt s.buffer.array s.buffer.cursorY :=
    Objects.setArray_array hs.buffer.live.array
  have hwithin := Objects.within_setArray hs.buffer.live.array
    (l := linesDeleteAt s.buffer.array s.buffer.cursorY) fun str => mem_linesDeleteAt
  refine ⟨⟨⟨hwithin.live hs.buffer.live, hs.buffer.nonneg⟩, ?_⟩, ?_, ?_⟩
  · intro line hline
    exact hs.buffer.live.strings line (Buffer.mem_of_currentLine hline)
  · intro hsome
    obtain ⟨ref, href⟩ := Option.isSome_iff_exists.mp hsome
    have hlt := Buffer.currentLine_lt hs.buffer.nonneg href
    refine ⟨texts_ne ?_, rfl, rfl⟩
    rw [harray, linesDeleteAt_length hs.buffer.nonneg hlt]
    have hnonneg := hs.buffer.nonneg
    omega
  · intro hnot hguarded
    have hkeep : linesDeleteAt s.buffer.array s.buffer.cursorY = s.buffer.array := by
      have hnone := Option.not_isSome_iff_eq_none.mp hnot
      obtain ⟨row, hrow⟩ := Int.eq_ofNat_of_zero_le hs.buffer.nonneg
      unfold Buffer.currentLine at hnone
      unfold linesDeleteAt
      rw [hrow, placeOf_natCast] at hnone ⊢
      exact List.eraseIdx_of_length_le (List.getElem?_eq_none_iff.mp hnone)
    have htexts : s.buffer.deleteLine.2.texts = s.buffer.texts := by
      change s.buffer.deleteLine.2.array.map _ = _
      rw [harray, hkeep]
      rfl
    intro hne
    apply hguarded
    rw [← htexts]
    exact hne

/-- The other keys of the normal mode. -/
theorem normal_safe (hs : s.Steady) {input : Input} (hp : input.c ≠ 112) (hx : input.c ≠ 120) :
    Safe s (s.normal input) := by
  have hmode (mode : Mode) : Safe s { s with mode } := safe_of_buffer hs rfl rfl rfl
  unfold normal
  split
  · exact safe_of_buffer hs rfl rfl rfl
  · split
    · exact put_safe hs _
    · exact Safe.refl hs
  · exact safe_of_buffer hs rfl rfl rfl
  · exact safe_of_buffer hs rfl rfl rfl
  · exact enterInsert_safe hs _
  · exact enterInsert_safe hs _
  · exact enterInsert_safe hs _
  · exact enterInsert_safe hs _
  · exact enterInsert_safe hs _
  · exact put_safe hs _
  · exact put_safe hs _
  · exact put_safe hs _
  · exact safe_of_buffer hs rfl rfl rfl
  · exact put_safe hs _
  · rename_i hc
    exact absurd hc hp
  · rename_i hc
    exact absurd hc hx
  · exact Safe.refl hs

theorem Outcome.trans_safe (h : Outcome s s' alters) (hbuffer : s''.buffer = s'.buffer)
    (hboard : s''.pasteBoard = s'.pasteBoard) (hsaved : s''.saved = s'.saved) : Outcome s s'' alters := by
  have hsafe : Safe s' s'' := safe_of_buffer h.steady hbuffer hboard hsaved
  refine ⟨hsafe.steady, ?_, fun hnot hguarded => hsafe.guarded (h.safe hnot hguarded)⟩
  rw [hbuffer, hsaved]
  exact h.altered

theorem Outcome.congr {alters' : Prop} (h : Outcome s s' alters) (hiff : alters' ↔ alters) :
    Outcome s s' alters' := by
  rw [propext hiff]
  exact h

theorem step_outcome (hs : s.Steady) (input : Input) :
    Outcome s (s.step input) (s.running = true ∧ s.Alters input) := by
  unfold step
  split
  · rename_i hstopped
    refine (Safe.refl hs).outcome ?_
    rintro ⟨hrunning, -⟩
    rw [hrunning] at hstopped
    cases hstopped
  · rename_i hrunning
    have hrunning : s.running = true := by simpa using hrunning
    split
    · rename_i hc
      have hquit : Safe s { s with running := false } := safe_of_buffer hs rfl rfl rfl
      refine hquit.outcome ?_
      rintro ⟨-, halters⟩
      unfold Alters at halters
      rw [hc] at halters
      split at halters <;> simp at halters
    · split
      · rename_i hc
        refine (Safe.refl hs).outcome ?_
        rintro ⟨-, halters⟩
        unfold Alters at halters
        rw [hc] at halters
        split at halters <;> simp at halters
      · unfold Alters
        cases hmode : s.mode with
        | normal =>
          simp only [hrunning, true_and]
          by_cases hp : input.c = 112
          · have hpaste : s.normal input = s.paste := by simp [normal, hp]
            rw [hpaste]
            apply (paste_outcome hs).congr
            simp [hp]
          · by_cases hx : input.c = 120
            · have hdelete : s.normal input = { s with buffer := s.buffer.delete.getD s.buffer } := by
                simp [normal, hx]
              rw [hdelete]
              apply (delete_outcome hs).congr
              simp [hx]
            · apply (normal_safe hs hp hx).outcome
              simp [hp, hx]
        | command => exact (command_safe hs input).outcome fun h => h.2
        | insert => exact (insert_safe hs input).outcome fun h => h.2
        | cut =>
          simp only [hrunning, true_and]
          unfold cut
          by_cases hd : input.c = 100
          · rw [if_pos hd]
            have hcut : Outcome s
                (clearCommandBuffer
                  { s with
                    pasteBoard := s.buffer.deleteLine.1, buffer := s.buffer.deleteLine.2, mode := .normal })
                (s.buffer.currentLine.isSome = true) :=
              (deleteLine_outcome hs).trans_safe rfl rfl rfl
            apply hcut.congr
            simp [hd]
          · rw [if_neg hd]
            have hleave : Safe s (clearCommandBuffer { s with mode := .normal }) :=
              safe_of_buffer hs rfl rfl rfl
            exact hleave.outcome fun h => hd h.1

theorem start_steady (filepath content : Option Text) : (start filepath content).Steady := by
  refine ⟨?_, fun line hline => by cases hline⟩
  have hnew : Buffer.Steady (Buffer.new ⟨[], []⟩) := ⟨Buffer.new_live _, Int.le_refl _⟩
  unfold start
  dsimp only
  split
  · rename_i content
    have hload := Buffer.loadFile_length hnew.live.array content
    refine ⟨Buffer.loadFile_live hnew.live content, ?_⟩
    rw [hload.2.1]
    exact hnew.nonneg
  · exact hnew

/-- **Unsaved changes are noted, and `:q` refuses,** all along a session exactly when no `x`, `dd` or `p` changes
the lines while nothing is noted. -/
theorem quit_refuses_iff (filepath content : Option Text) (inputs : List Input) :
    (∀ pre, pre <+: inputs → ((start filepath content).run pre).Guarded ∧
      (((start filepath content).run pre).buffer.texts ≠ ((start filepath content).run pre).saved →
        ∀ writable, ((start filepath content).run pre).execCommand [":q".toList] writable =
          (start filepath content).run pre)) ↔
    ∀ pre input, pre ++ [input] <+: inputs →
      ((start filepath content).run pre).running = true → ((start filepath content).run pre).Alters input →
        ((start filepath content).run pre).buffer.changed = true := by
  have hstep (s : Vim) (input : Input) (hs : s.Steady) (hguarded : s.Guarded) :
      ((s.step input).Guarded → (s.step input).Steady) ∧ ((s.step input).Guarded ↔
        (s.running = true → s.Alters input → s.buffer.changed = true)) := by
    have houtcome := step_outcome hs input
    refine ⟨fun _ => houtcome.steady, ?_⟩
    rw [houtcome.guarded_iff hguarded, and_imp]
  have hstart : (start filepath content).Guarded := fun hne => absurd (by unfold start; rfl) hne
  have hiff := @foldl_prefixes_iff _ _ step Steady Guarded _ hstep (start filepath content) inputs
    (start_steady filepath content) hstart
  refine Iff.trans ?_ hiff
  constructor
  · exact fun hall pre hpre => (hall pre hpre).1
  · intro hall pre hpre
    refine ⟨hall pre hpre, fun hne writable => ?_⟩
    have hchanged : ((start filepath content).run pre).buffer.changed = true := hall pre hpre hne
    simp [execCommand, hchanged]

/-- A character of a file is deleted, and `:q` quits. -/
theorem quit_loses_deletion :
    let session := (start (some ['f']) (some ['a', 'b'])).run [⟨120, none, true⟩]
    session.saved = [['a', 'b']] ∧ session.buffer.texts = [['b']] ∧ session.buffer.changed = false ∧
      (session.run [⟨58, none, true⟩, ⟨113, none, true⟩, ⟨13, none, true⟩]).running = false := by
  decide

end Vim

end PicoRuby.Editor
