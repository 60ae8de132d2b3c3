import PicoRuby.Editor.Buffer

/-!
# The buffer refines the text

Every key moves the cursor to the end of its line first where it is behind it, so that the buffer does to its
lines what the plain editor does to the text.
-/

namespace PicoRuby.Editor

open Shared

set_option autoImplicit false

/-! ## The lines around the cursor -/

section Lines
variable {above below : List Nat} {ref line : Nat}

theorem linesSet_append : linesSet (above ++ ref :: below) above.length line = above ++ line :: below := by
  unfold linesSet
  rw [placeOf_natCast]
  simp

theorem linesInsert_append : linesInsert (above ++ below) above.length line = above ++ line :: below := by
  have hinsert : (above ++ below).insertIdx above.length line = above ++ line :: below := by
    induction above with
    | nil => rfl
    | cons ref above ih => simp [ih]
  unfold linesInsert
  rw [placeOf_natCast]
  exact hinsert

theorem linesDeleteAt_append : linesDeleteAt (above ++ ref :: below) above.length = above ++ below := by
  unfold linesDeleteAt
  rw [placeOf_natCast]
  simp [List.eraseIdx_append_of_length_le]

end Lines

theorem At.shows {b : Buffer} {d : Document} (h : At b d) : Shows b d := by
  refine ⟨h.texts, h.row, ?_⟩
  rw [h.column, Document.line, List.length_append, List.length_reverse]
  omega

namespace Buffer
variable {b : Buffer} {above below : List Nat} {ref : Nat}

/-- The Array and Strings of the buffer are there. -/
def Live (b : Buffer) : Prop := b.objects.Live b.lines

/-- No two lines are the same String, unless it is empty. -/
def Unshared (b : Buffer) : Prop := b.objects.Unshared b.lines

/-- The lines above the cursor, that of the cursor, and those below. -/
structure Parts (b : Buffer) (above : List Nat) (ref : Nat) (below : List Nat) : Prop where
  array : b.array = above ++ ref :: below
  row : b.cursorY = above.length

theorem Parts.currentLine (h : b.Parts above ref below) : b.currentLine = some ref := by
  unfold Buffer.currentLine
  rw [h.row, placeOf_natCast, h.array]
  simp

theorem Parts.currentLength (h : b.Parts above ref below) :
    b.currentLength = some (b.objects.string ref).length := by
  unfold Buffer.currentLength
  rw [h.currentLine, Option.map_some]

theorem Parts.texts (h : b.Parts above ref below) :
    b.texts = above.map b.objects.string ++ b.objects.string ref :: below.map b.objects.string := by
  unfold Buffer.texts Objects.texts
  have harray : b.objects.array b.lines = above ++ ref :: below := h.array
  rw [harray, List.map_append, List.map_cons]

/-- The lines are those of a document, with the cursor in the same row. -/
theorem parts_of_texts {d : Document} (htexts : b.texts = d.lines) (hrow : b.cursorY = d.above.length) :
    ∃ above ref below, b.Parts above ref below ∧ above.map b.objects.string = d.above.reverse ∧
      b.objects.string ref = d.line ∧ below.map b.objects.string = d.below := by
  unfold Buffer.texts Objects.texts Document.lines at htexts
  obtain ⟨above, rest, harray, habove, hrest⟩ := List.map_eq_append_iff.mp htexts
  obtain ⟨ref, below, rfl, href, hbelow⟩ := List.map_eq_cons_iff.mp hrest
  refine ⟨above, ref, below, ⟨harray, ?_⟩, habove, href, hbelow⟩
  rw [hrow, ← List.length_reverse, ← habove, List.length_map]

/-! ## The cursor -/

variable {d : Document}

/-- The buffer keeps its Array there and the Strings at one place only. -/
structure Kept (b b' : Buffer) : Prop where
  live : b.Live → b'.Live
  unshared : b.Live → b.Unshared → b'.Unshared

theorem Kept.refl : Kept b b := ⟨id, fun _ => id⟩

theorem Kept.trans {b' b'' : Buffer} (h : Kept b b') (h' : Kept b' b'') : Kept b b'' :=
  ⟨fun hlive => h'.live (h.live hlive), fun hlive hone => h'.unshared (h.live hlive) (h.unshared hlive hone)⟩

theorem clamp_at (h : Shows b d) : ∃ b', b.clamp = some b' ∧ At b' d ∧ Kept b b' ∧
    b' = { b with cursorX := d.before.length } := by
  obtain ⟨above, ref, below, hparts, -, href, -⟩ := parts_of_texts h.texts h.row
  have hclamp : b.clamp = some { b with cursorX := d.before.length } := by
    have hcolumn := h.column
    unfold clamp
    rw [hparts.currentLength, href, Option.map_some]
    split
    · rw [Nat.min_eq_right (by omega)] at hcolumn
      rw [hcolumn]
    · rw [Nat.min_eq_left (by omega)] at hcolumn
      rw [← hcolumn]
  exact ⟨_, hclamp, ⟨h.texts, h.row, rfl⟩, ⟨id, fun _ => id⟩, rfl⟩

theorem tail_at (htexts : b.texts = d.lines) (hrow : b.cursorY = d.above.length) (hend : d.after = []) :
    ∃ b', b.tail = some b' ∧ At b' d ∧ Kept b b' := by
  obtain ⟨above, ref, below, hparts, -, href, -⟩ := parts_of_texts htexts hrow
  refine ⟨{ b with cursorX := d.before.length }, ?_, ⟨htexts, hrow, rfl⟩, id, fun _ => id⟩
  unfold tail
  rw [hparts.currentLength, href, Option.map_some, Document.line, hend, List.append_nil, List.length_reverse]

theorem left_at (h : At b d) : ∃ b', b.left = some b' ∧ At b' d.moveLeft ∧ Kept b b' := by
  obtain ⟨above, before, after, below⟩ := d
  obtain ⟨_, ref, _, hparts, -, href, -⟩ := parts_of_texts h.texts h.row
  cases before with
  | cons c before =>
    have hcolumn : b.cursorX = before.length + 1 := h.column
    obtain ⟨b', hclamp, -, -, rfl⟩ := clamp_at h.shows
    refine ⟨{ b with cursorX := before.length }, ?_, ⟨?_, h.row, rfl⟩, id, fun _ => id⟩
    · unfold left inLine
      rw [if_pos (by omega), hparts.currentLength, href, hclamp]
      simp [Document.line]
    · apply h.texts.trans
      simp [Document.lines, Document.line, Document.moveLeft]
  | nil =>
    have hcolumn : b.cursorX = 0 := h.column
    cases above with
    | nil =>
      have hrow : b.cursorY = 0 := h.row
      refine ⟨b, ?_, h, Kept.refl⟩
      unfold left inLine
      simp [hcolumn, hrow]
    | cons line above =>
      have hrow : b.cursorY = above.length + 1 := h.row
      have hup : b.up = { b with cursorY := above.length } := by
        unfold up
        rw [if_pos (by omega), hrow]
        simp
      obtain ⟨b', htail, hat, hkept⟩ := tail_at (b := b.up) (d := ⟨above, line.reverse, [], after :: below⟩)
        (by
          rw [hup]
          apply h.texts.trans
          simp [Document.lines, Document.line])
        (by rw [hup]) rfl
      refine ⟨b', ?_, hat, ?_⟩
      · unfold left inLine
        rw [if_neg (by omega)]
        simp only [Option.bind_eq_bind, Option.bind_some]
        rw [if_neg Bool.false_ne_true, if_pos (by omega)]
        exact htail
      · rw [hup] at hkept
        exact ⟨hkept.live, hkept.unshared⟩

theorem down_shows (h : At b d) : Shows b.down d.moveDown ∧ Kept b b.down := by
  obtain ⟨above, before, after, below⟩ := d
  obtain ⟨refs, ref, refs', hparts, -, -, hbelow⟩ := parts_of_texts h.texts h.row
  have hrow : b.cursorY = above.length := h.row
  have hcolumn : b.cursorX = before.length := h.column
  have hrefs : refs.length = above.length := by
    have heq := hparts.row
    omega
  unfold down
  rw [hparts.array, List.length_append, List.length_cons]
  cases below with
  | nil =>
    obtain rfl := List.map_eq_nil_iff.mp hbelow
    rw [if_neg (by simp; omega)]
    exact ⟨h.shows, Kept.refl⟩
  | cons line below =>
    obtain ⟨ref', refs', rfl, -, -⟩ := List.map_eq_cons_iff.mp hbelow
    rw [if_pos (by simp; omega)]
    refine ⟨⟨?_, ?_, ?_⟩, id, fun _ => id⟩
    · apply h.texts.trans
      simp [Document.lines, Document.line, Document.moveDown, Document.goTo]
    · simp [Document.moveDown, Document.goTo, hrow]
    · simp [Document.line, Document.moveDown, Document.goTo, hcolumn]

theorem up_shows (h : At b d) : Shows b.up d.moveUp ∧ Kept b b.up := by
  obtain ⟨above, before, after, below⟩ := d
  have hcolumn : b.cursorX = before.length := h.column
  unfold up
  cases above with
  | nil =>
    have hrow : b.cursorY = 0 := h.row
    rw [if_neg (by omega)]
    exact ⟨h.shows, Kept.refl⟩
  | cons line above =>
    have hrow : b.cursorY = above.length + 1 := h.row
    rw [if_pos (by omega)]
    refine ⟨⟨?_, ?_, ?_⟩, id, fun _ => id⟩
    · apply h.texts.trans
      simp [Document.lines, Document.line, Document.moveUp, Document.goTo]
    · simp [Document.moveUp, Document.goTo, hrow]
    · simp [Document.line, Document.moveUp, Document.goTo, hcolumn]

theorem right_at (h : At b d) : ∃ b', b.right = some b' ∧ At b' d.moveRight ∧ Kept b b' := by
  obtain ⟨above, before, after, below⟩ := d
  obtain ⟨refs, ref, refs', hparts, -, href, hbelow⟩ := parts_of_texts h.texts h.row
  have hrow : b.cursorY = above.length := h.row
  have hcolumn : b.cursorX = before.length := h.column
  replace hbelow : refs'.map b.objects.string = below := hbelow
  have hlength : b.currentLength = some (before.length + after.length) := by
    rw [hparts.currentLength, href]
    simp [Document.line]
  cases after with
  | cons c after =>
    refine ⟨{ b with cursorX := b.cursorX + 1 }, ?_, ⟨?_, h.row, ?_⟩, id, fun _ => id⟩
    · unfold right
      rw [hlength]
      simp [hcolumn]
    · apply h.texts.trans
      simp [Document.lines, Document.line, Document.moveRight]
    · simp [Document.moveRight, hcolumn]
  | nil =>
    have hdown := down_shows h
    have hunfold : b.right = if b.cursorY + 1 < b.array.length then some b.down.head else some b := by
      unfold right
      rw [hlength]
      simp [hcolumn]
    have harray : b.array.length = above.length + 1 + below.length := by
      have hrefs := congrArg List.length hbelow
      have heq := hparts.row
      rw [List.length_map] at hrefs
      rw [hparts.array, List.length_append, List.length_cons]
      omega
    cases below with
    | nil =>
      refine ⟨b, ?_, h, Kept.refl⟩
      rw [hunfold, if_neg]
      rw [harray, hrow]
      simp
    | cons line below =>
      refine ⟨b.down.head, ?_, ⟨?_, hdown.1.row, rfl⟩, hdown.2.live, hdown.2.unshared⟩
      · rw [hunfold, if_pos]
        rw [harray, hrow]
        rw [List.length_cons]
        omega
      · apply hdown.1.texts.trans
        simp [Document.lines, Document.line, Document.moveRight, Document.moveDown, Document.goTo]

/-! ## The lines -/

/-- The objects with other lines in the Array of the buffer. -/
structure Rewrites (b : Buffer) (objects : Objects) (texts : List Text) : Prop where
  texts : objects.texts b.lines = texts
  live : objects.Live b.lines
  unshared : b.Unshared → objects.Unshared b.lines

theorem rewrites_set (hlive : b.Live) (htexts : b.texts = d.lines) (hrow : b.cursorY = d.above.length)
    (s : Text) : b.Rewrites (b.objects.storeNew b.lines s (linesSet b.array b.cursorY))
      (d.above.reverse ++ s :: d.below) := by
  obtain ⟨above, ref, below, hparts, habove, -, hbelow⟩ := parts_of_texts htexts hrow
  have harray : b.objects.array b.lines = above ++ ref :: below := hparts.array
  have hplace (line : Nat) : linesSet b.array b.cursorY line = above ++ line :: below := by
    rw [hparts.array, hparts.row, linesSet_append]
  have hsub : (above ++ below).Sublist (b.objects.array b.lines) := by
    rw [harray]
    exact List.Sublist.append_left (List.sublist_cons_self ref below) above
  constructor
  · rw [Objects.texts_storeNew_eq hlive (hplace _) fun _ hin => hsub.subset hin, habove, hbelow]
  · apply (Objects.within_storeNew hlive.array ?_).live hlive
    intro str hin
    rw [hplace, List.mem_append, List.mem_cons] at hin
    rcases hin with hin | rfl | hin
    · exact Or.inl (hsub.subset (List.mem_append_left below hin))
    · exact Or.inr rfl
    · exact Or.inl (hsub.subset (List.mem_append_right above hin))
  · intro hone
    exact hone.storeNew hlive hsub (List.Sublist.refl below) (hplace _)

theorem rewrites_insert (hlive : b.Live) (htexts : b.texts = d.lines) (hrow : b.cursorY = d.above.length)
    (s : Text) : b.Rewrites (b.objects.storeNew b.lines s (linesInsert b.array (b.cursorY + 1)))
      (d.above.reverse ++ d.line :: s :: d.below) := by
  obtain ⟨above, ref, below, hparts, habove, href, hbelow⟩ := parts_of_texts htexts hrow
  have harray : b.objects.array b.lines = (above ++ [ref]) ++ below := by
    rw [List.append_assoc]
    exact hparts.array
  have hplace (line : Nat) :
      linesInsert b.array (b.cursorY + 1) line = (above ++ [ref]) ++ line :: below := by
    have hlength : b.cursorY + 1 = (above ++ [ref]).length := by
      rw [hparts.row, List.length_append, List.length_singleton]
      rfl
    replace harray : b.array = (above ++ [ref]) ++ below := harray
    rw [hlength, harray, linesInsert_append]
  have hmem : ∀ str ∈ above ++ [ref] ++ below, str ∈ b.objects.array b.lines := by
    rw [harray]
    exact fun _ => id
  constructor
  · rw [Objects.texts_storeNew_eq hlive (hplace _) hmem, List.map_append, habove, hbelow, List.append_assoc,
      List.map_singleton, href]
    rfl
  · apply (Objects.within_storeNew hlive.array ?_).live hlive
    intro str hin
    rw [hplace, List.mem_append, List.mem_cons] at hin
    rcases hin with hin | rfl | hin
    · exact Or.inl (hmem str (List.mem_append_left below hin))
    · exact Or.inr rfl
    · exact Or.inl (hmem str (List.mem_append_right (above ++ [ref]) hin))
  · intro hone
    apply hone.storeNew hlive _ (List.Sublist.refl below) (hplace _)
    rw [harray]

theorem rewrites_delete (hlive : b.Live) (htexts : b.texts = d.lines) (hrow : b.cursorY = d.above.length) :
    b.Rewrites (b.objects.setArray b.lines (linesDeleteAt b.array b.cursorY))
      (d.above.reverse ++ d.below) := by
  obtain ⟨above, ref, below, hparts, habove, -, hbelow⟩ := parts_of_texts htexts hrow
  have harray : b.objects.array b.lines = above ++ ref :: below := hparts.array
  have hdelete : linesDeleteAt b.array b.cursorY = above ++ below := by
    rw [hparts.array, hparts.row, linesDeleteAt_append]
  have hsub : (above ++ below).Sublist (b.objects.array b.lines) := by
    rw [harray]
    exact List.Sublist.append_left (List.sublist_cons_self ref below) above
  rw [hdelete]
  constructor
  · rw [Objects.texts_setArray hlive.array, List.map_append, habove, hbelow]
  · exact (Objects.within_setArray hlive.array fun _ hin => hsub.subset hin).live hlive
  · intro hone
    exact hone.setArray hlive.array hsub

theorem rewrites_setString (hlive : b.Live) (hone : b.Unshared) (htexts : b.texts = d.lines)
    (hrow : b.cursorY = d.above.length) (hline : d.line ≠ []) {ref : Nat} (href : b.currentLine = some ref)
    (s : Text) : b.Rewrites (b.objects.setString ref s) (d.above.reverse ++ s :: d.below) := by
  obtain ⟨above, ref', below, hparts, habove, href', hbelow⟩ := parts_of_texts htexts hrow
  rw [hparts.currentLine] at href
  cases href
  have hget : (b.objects.array b.lines)[above.length]? = some ref := by
    have harray : b.objects.array b.lines = above ++ ref :: below := hparts.array
    simp [harray]
  have hne : b.objects.string ref ≠ [] := by
    rw [href']
    exact hline
  have hset : b.objects.texts b.lines = d.above.reverse ++ d.line :: d.below := htexts
  constructor
  · rw [Objects.texts_setString hlive hget fun j hj => Objects.Unshared.eq hone hj hget hne, hset,
      ← habove, List.set_append_right _ _ (by simp)]
    simp
  · exact (Objects.within_setString (List.mem_of_getElem? hget)).live hlive
  · intro _
    exact Objects.Unshared.setString hone hne

/-! ## A key -/

theorem slice_before : slice d.line 0 d.before.length = some d.before.reverse := by
  unfold slice Document.line
  rw [if_pos (Nat.zero_le _), List.drop_zero, List.take_left' (List.length_reverse)]

theorem slice_after (hshort : d.after.length < 65536) :
    slice d.line d.before.length 65535 = some d.after := by
  unfold slice Document.line
  rw [if_pos (by simp), List.drop_left' (List.length_reverse), List.take_of_length_le (by omega)]

theorem putString_shows (hlive : b.Live) (h : Shows b d) (hshort : d.after.length < 65536) (c : Char) :
    ∃ b', b.putString [c] = some b' ∧ At b' (d.insert [c]) ∧ Kept b b' := by
  obtain ⟨-, hclamp, hat, -, rfl⟩ := clamp_at h
  obtain ⟨above, ref, below, hparts, -, href, -⟩ := parts_of_texts h.texts h.row
  have hset := rewrites_set hlive h.texts h.row (d.before.reverse ++ [c] ++ d.after)
  obtain ⟨b', hright, hat', hkept⟩ := right_at (d := { d with after := c :: d.after })
    (b :=
      { b with
        objects := b.objects.storeNew b.lines (d.before.reverse ++ [c] ++ d.after) (linesSet b.array b.cursorY)
        cursorX := d.before.length
        changed := true })
    ⟨hset.texts.trans (by simp [Document.lines, Document.line]), h.row, rfl⟩
  refine ⟨b', ?_, hat', fun _ => hkept.live hset.live, fun _ hone => hkept.unshared hset.live (hset.unshared hone)⟩
  unfold putString
  rw [hparts.currentLine, hclamp]
  simp only [Option.bind_eq_bind, Option.bind_some, href, slice_before, slice_after hshort, Option.getD_some]
  exact hright

theorem enter_shows (hlive : b.Live) (h : At b d) (hshort : d.after.length < 65536) :
    Shows (b.enter d.line) d.split ∧ Kept b (b.enter d.line) := by
  have hset := rewrites_set hlive h.texts h.row d.before.reverse
  let b₁ : Buffer :=
    { b with
      objects := b.objects.storeNew b.lines d.before.reverse (linesSet b.array b.cursorY), changed := true }
  have hinsert := rewrites_insert (b := b₁) (d := { d with after := [] }) hset.live
    (hset.texts.trans (by simp [Document.lines, Document.line])) h.row d.after
  let b₂ : Buffer :=
    { b₁ with objects := b₁.objects.storeNew b₁.lines d.after (linesInsert b₁.array (b₁.cursorY + 1)) }
  have henter : b.enter d.line = b₂.head.down := by
    unfold enter
    rw [h.column, slice_before, slice_after hshort]
    simp only [Option.getD_some]
    rfl
  have hat : At b₂.head ⟨d.above, [], d.before.reverse, d.after :: d.below⟩ := by
    refine ⟨hinsert.texts.trans ?_, h.row, rfl⟩
    simp [Document.lines, Document.line]
  obtain ⟨hdown, hkept⟩ := down_shows hat
  rw [henter]
  refine ⟨?_, fun _ => hkept.live hinsert.live, fun _ hone => ?_⟩
  · simpa [Document.split, Document.moveDown, Document.goTo, Document.line] using hdown
  · exact hkept.unshared hinsert.live (hinsert.unshared (hset.unshared hone))

theorem bspace_at (hlive : b.Live) (hone : b.Unshared) (h : At b d) {ref : Nat}
    (href : b.currentLine = some ref) :
    ∃ b', b.bspace ref = some b' ∧ At b' d.erase ∧ Kept b b' := by
  obtain ⟨above, before, after, below⟩ := d
  have hline : b.objects.string ref = before.reverse ++ after := by
    obtain ⟨_, ref', _, hparts, -, hline, -⟩ := parts_of_texts h.texts h.row
    rw [hparts.currentLine] at href
    cases href
    exact hline
  unfold bspace
  dsimp only
  cases before with
  | cons c before =>
    have hcolumn : b.cursorX = before.length + 1 := h.column
    have hrewrites (s : Text) := rewrites_setString hlive hone h.texts h.row
      (by simp [Document.line]) href s
    rw [if_pos (by omega), hline]
    cases after with
    | nil =>
      obtain ⟨b', htail, hat, hkept⟩ := tail_at (d := ⟨above, before, [], below⟩)
        (b := { b with changed := true, objects := b.objects.setString ref before.reverse })
        ((hrewrites _).texts.trans (by simp [Document.lines, Document.line])) h.row rfl
      refine ⟨b', ?_, hat, fun _ => hkept.live (hrewrites _).live, fun _ hone =>
        hkept.unshared (hrewrites _).live ((hrewrites _).unshared hone)⟩
      rw [if_pos (by simp [hcolumn])]
      simpa using htail
    | cons a after =>
      obtain ⟨b', hleft, hat, hkept⟩ := left_at (d := ⟨above, a :: before, after, below⟩)
        (b := { b with changed := true, objects := b.objects.setString ref (before.reverse ++ a :: after) })
        ⟨(hrewrites _).texts.trans (by simp [Document.lines, Document.line]), h.row, hcolumn⟩
      refine ⟨b', ?_, hat, fun _ => hkept.live (hrewrites _).live, fun _ hone =>
        hkept.unshared (hrewrites _).live ((hrewrites _).unshared hone)⟩
      have herase : ((c :: before).reverse ++ a :: after).eraseIdx before.length =
          before.reverse ++ a :: after := by
        rw [List.reverse_cons, List.append_assoc, List.eraseIdx_append_of_length_le (by simp)]
        simp
      have hbefore : b.cursorX - 1 = before.length := by omega
      rw [if_neg (by simp [hcolumn]), hbefore, herase]
      exact hleft
  | nil =>
    have hcolumn : b.cursorX = 0 := h.column
    rw [if_neg (by omega)]
    cases above with
    | nil =>
      have hrow : b.cursorY = 0 := h.row
      rw [if_neg (by simp [hrow])]
      exact ⟨_, rfl, ⟨h.texts, h.row, h.column⟩, id, fun _ => id⟩
    | cons line above =>
      have hrow : b.cursorY = above.length + 1 := h.row
      -- the line above, and the lines after it has grown
      let bUp : Buffer := { b with changed := true, cursorY := b.cursorY - 1 }
      have htexts : bUp.texts = (Document.mk above line.reverse [] (after :: below)).lines := by
        apply h.texts.trans
        simp [Document.lines, Document.line]
      have hrowUp : bUp.cursorY = above.length := by
        change b.cursorY - 1 = above.length
        omega
      obtain ⟨_, refUp, _, hparts, -, hlineUp, -⟩ := parts_of_texts htexts hrowUp
      replace hlineUp : b.objects.string refUp = line := by
        simpa [Document.line] using hlineUp
      have hset := rewrites_set (b := bUp) hlive htexts hrowUp (line ++ after)
      let b₁ : Buffer :=
        { b with
          objects := b.objects.storeNew b.lines (line ++ after) (linesSet b.array (b.cursorY - 1))
          cursorX := line.length
          changed := true }
      have hdelete := rewrites_delete (b := b₁) (d := ⟨(line ++ after) :: above, [], after, below⟩)
        hset.live (hset.texts.trans (by simp [Document.lines, Document.line])) (by
          show b.cursorY = _
          simp [hrow])
      let b₂ : Buffer := { b₁ with objects := b₁.objects.setArray b₁.lines (linesDeleteAt b₁.array b₁.cursorY) }
      have hup : b₂.up = { b₂ with cursorY := above.length } := by
        unfold up
        rw [if_pos (by show 0 < b.cursorY; omega)]
        have heq : b₂.cursorY - 1 = above.length := hrowUp
        rw [heq]
      refine ⟨b₂.up, ?_, ?_, ?_⟩
      · rw [if_pos (by omega)]
        have hcurrent : currentLine { b with changed := true, cursorY := b.cursorY - 1 } = some refUp :=
          hparts.currentLine
        simp only [Option.bind_eq_bind, hcurrent, Option.bind_some, hlineUp, hline, List.reverse_nil,
          List.nil_append]
        rfl
      · rw [hup]
        refine ⟨hdelete.texts.trans ?_, rfl, ?_⟩
        · simp [Document.lines, Document.line, Document.erase]
        · simp [Document.erase, b₂, b₁]
      · rw [hup]
        exact ⟨fun _ => hdelete.live, fun _ hone => hdelete.unshared (hset.unshared hone)⟩

/-- Every key does what it does in the plain editor; `:BSPACE` if no other line is the same String. -/
theorem put_shows (hlive : b.Live) (h : Shows b d) (hshort : d.after.length < 65536) (key : Key)
    (hkey : ∀ c, key = .string c → c.length = 1) (hone : key = .bspace → b.Unshared) :
    ∃ b', b.put key = some b' ∧ Shows b' (d.edit key) ∧ Kept b b' := by
  obtain ⟨b₁, hclamp, hat, hkept, hb₁⟩ := clamp_at h
  have hlive₁ : b₁.Live := hkept.live hlive
  obtain ⟨_, ref, _, hparts, -, href, -⟩ := parts_of_texts hat.texts hat.row
  have hcurrent : b.currentLine = some ref := by
    rw [hb₁] at hparts
    exact hparts.currentLine
  unfold put
  rw [hcurrent]
  simp only [Option.bind_eq_bind, Option.bind_some, hclamp]
  cases key with
  | string c =>
    obtain ⟨ch, rfl⟩ := List.length_eq_one_iff.mp (hkey c rfl)
    obtain ⟨b', hput, hat', hkept'⟩ := putString_shows hlive h hshort ch
    exact ⟨b', hput, hat'.shows, hkept'⟩
  | tab =>
    have hshows : Shows { b₁ with changed := true } d := ⟨hat.texts, hat.row, hat.shows.column⟩
    obtain ⟨b₂, hput₂, hat₂, hkept₂⟩ :=
      putString_shows (b := { b₁ with changed := true }) hlive₁ hshows hshort ' '
    have hlive₂ : b₂.Live := hkept₂.live hlive₁
    obtain ⟨b₃, hput₃, hat₃, hkept₃⟩ := putString_shows hlive₂ hat₂.shows hshort ' '
    refine ⟨b₃, ?_, hat₃.shows, fun _ => hkept₃.live hlive₂, fun _ hone =>
      hkept₃.unshared hlive₂ (hkept₂.unshared hlive₁ (hkept.unshared hlive hone))⟩
    dsimp only
    rw [hput₂]
    exact hput₃
  | enter =>
    obtain ⟨hshows, hkept'⟩ := enter_shows hlive₁ hat hshort
    refine ⟨_, ?_, hshows, hkept.trans hkept'⟩
    rw [← href]
  | bspace =>
    obtain ⟨b', hput, hat', hkept'⟩ :=
      bspace_at hlive₁ (hkept.unshared hlive (hone rfl)) hat hparts.currentLine
    exact ⟨b', hput, hat'.shows, hkept.trans hkept'⟩
  | down =>
    obtain ⟨hshows, hkept'⟩ := down_shows hat
    exact ⟨_, rfl, hshows, hkept.trans hkept'⟩
  | up =>
    obtain ⟨hshows, hkept'⟩ := up_shows hat
    exact ⟨_, rfl, hshows, hkept.trans hkept'⟩
  | right =>
    obtain ⟨b', hput, hat', hkept'⟩ := right_at hat
    exact ⟨b', hput, hat'.shows, hkept.trans hkept'⟩
  | left =>
    obtain ⟨b', hput, hat', hkept'⟩ := left_at hat
    exact ⟨b', hput, hat'.shows, hkept.trans hkept'⟩
  | home =>
    refine ⟨home b₁, rfl, ?_, hkept.trans ⟨id, fun _ => id⟩⟩
    · have hlines : ∃ line below, d.lines = line :: below := by
        apply List.exists_cons_of_ne_nil
        simp [Document.lines]
      obtain ⟨line, below, hlines⟩ := hlines
      have hedit : d.edit .home = ⟨[], [], line, below⟩ := by
        unfold Document.edit Document.home
        rw [hlines]
      rw [hedit]
      refine ⟨hat.texts.trans ?_, rfl, Nat.zero_min _⟩
      simpa [Document.lines, Document.line] using hlines

end Buffer

end PicoRuby.Editor
