import PicoRuby.Editor.Refinement
import PicoRuby.Editor.Frame

/-!
# Lines that are one String

`:BSPACE` deletes a character in place, where the other keys make a new String. A String that is in two lines,
as `insert_line` puts it there when it is given twice, is then changed in both.
-/

namespace PicoRuby.Editor

open Shared

set_option autoImplicit false

namespace Buffer

def puts (b : Buffer) (keys : List Key) : Option Buffer := keys.foldlM put b

end Buffer

/-- A key with one character, if it is a String. -/
def Key.Single (key : Key) : Prop := ∀ c, key = .string c → c.length = 1

/-- The lines are not longer than what `put` takes of them. -/
def Document.Short (d : Document) : Prop := ∀ line ∈ d.lines, line.length < 65536

/-- The buffer goes on as the plain editor does, as long as the lines are short. -/
def Refines (b : Buffer) (d : Document) : Prop :=
  ∀ keys : List Key, (∀ key ∈ keys, key.Single) → (∀ pre, pre <+: keys → (d.edits pre).Short) →
    ∃ b', b.puts keys = some b' ∧ Shows b' (d.edits keys)

variable {b : Buffer} {d : Document}

theorem Document.Short.after (h : d.Short) : d.after.length < 65536 := by
  have hline := h d.line (by simp [Document.lines])
  unfold Document.line at hline
  rw [List.length_append] at hline
  omega

/-! ## Without sharing -/

theorem refines_of_unshared (hlive : b.Live) (h : Shows b d) (hone : b.Unshared) : Refines b d := by
  intro keys hkeys hshort
  induction keys generalizing b d with
  | nil => exact ⟨b, rfl, h⟩
  | cons key keys ih =>
    rw [List.forall_mem_cons] at hkeys
    have hnow : d.Short := hshort [] List.nil_prefix
    obtain ⟨b₁, hput, hshows, hkept⟩ := Buffer.put_shows hlive h hnow.after key hkeys.1 fun _ => hone
    obtain ⟨b₂, hputs, hshows₂⟩ := ih (hkept.live hlive) hshows (hkept.unshared hlive hone) hkeys.2
      fun pre hpre => hshort (key :: pre) (List.prefix_cons_inj key |>.mpr hpre)
    refine ⟨b₂, ?_, hshows₂⟩
    unfold Buffer.puts
    rw [List.foldlM_cons, hput]
    exact hputs

/-! ## Moves -/

theorem Key.IsMove.single {key : Key} (h : key.IsMove) : key.Single := by
  intro c heq
  cases h <;> cases heq

theorem Document.edit_move_lines {key : Key} (h : key.IsMove) : (d.edit key).lines = d.lines := by
  obtain ⟨above, before, after, below⟩ := d
  cases h with
  | up =>
    cases above with
    | nil => rfl
    | cons next above => simp [edit, moveUp, goTo, lines, line]
  | down =>
    cases below with
    | nil => rfl
    | cons next below => simp [edit, moveDown, goTo, lines, line]
  | left =>
    cases before with
    | nil =>
      cases above with
      | nil => rfl
      | cons next above => simp [edit, moveLeft, lines, line]
    | cons c before => simp [edit, moveLeft, lines, line]
  | right =>
    cases after with
    | nil =>
      cases below with
      | nil => rfl
      | cons next below => simp [edit, moveRight, lines, line]
    | cons c after => simp [edit, moveRight, lines, line]

theorem Document.edits_moves_lines {keys : List Key} (h : ∀ key ∈ keys, key.IsMove) :
    (d.edits keys).lines = d.lines := by
  induction keys generalizing d with
  | nil => rfl
  | cons key keys ih =>
    rw [List.forall_mem_cons] at h
    exact (ih h.2).trans (edit_move_lines h.1)

theorem Document.reach_row (d : Document) {row : Nat} (h : row < d.lines.length) :
    ∃ keys, (∀ key ∈ keys, Key.IsMove key) ∧ (d.edits keys).above.length = row := by
  have hup (n : Nat) : ∀ d : Document, d.above.length = row + n →
      ∃ keys, (∀ key ∈ keys, Key.IsMove key) ∧ (d.edits keys).above.length = row := by
    induction n with
    | zero => exact fun d hd => ⟨[], List.forall_mem_nil _, hd⟩
    | succ n ih =>
      intro d hd
      obtain ⟨above, before, after, below⟩ := d
      cases above with
      | nil => simp at hd
      | cons line above =>
        obtain ⟨keys, hkeys, hrow⟩ := ih (Document.edit ⟨line :: above, before, after, below⟩ .up)
          (by
            simp [edit, moveUp, goTo] at hd ⊢
            omega)
        exact ⟨.up :: keys, List.forall_mem_cons.mpr ⟨.up, hkeys⟩, hrow⟩
  have hdown (n : Nat) : ∀ d : Document, d.above.length + n = row → row < d.lines.length →
      ∃ keys, (∀ key ∈ keys, Key.IsMove key) ∧ (d.edits keys).above.length = row := by
    induction n with
    | zero => exact fun d hd _ => ⟨[], List.forall_mem_nil _, hd⟩
    | succ n ih =>
      intro d hd hlt
      have hlines := edit_move_lines (d := d) Key.IsMove.down
      obtain ⟨above, before, after, below⟩ := d
      cases below with
      | nil =>
        simp [lines] at hlt hd
        omega
      | cons line below =>
        obtain ⟨keys, hkeys, hrow⟩ := ih (Document.edit ⟨above, before, after, line :: below⟩ .down)
          (by
            simp [edit, moveDown, goTo] at hd ⊢
            omega)
          (by rwa [hlines])
        exact ⟨.down :: keys, List.forall_mem_cons.mpr ⟨.down, hkeys⟩, hrow⟩
  rcases Nat.le_total row d.above.length with hle | hle
  · exact hup (d.above.length - row) d (by omega)
  · exact hdown (row - d.above.length) d (by omega) h

theorem Document.reach (d : Document) {row : Nat} {c : Char} {s : Text} (h : d.lines[row]? = some (c :: s)) :
    ∃ keys, (∀ key ∈ keys, Key.IsMove key) ∧ (d.edits keys).above.length = row ∧
      (d.edits keys).before ≠ [] := by
  obtain ⟨hlt, -⟩ := List.getElem?_eq_some_iff.mp h
  obtain ⟨keys, hkeys, hrow⟩ := d.reach_row hlt
  by_cases hbefore : (d.edits keys).before = []
  · refine ⟨keys ++ [.right], ?_, ?_⟩
    · rw [List.forall_mem_append]
      exact ⟨hkeys, List.forall_mem_singleton.mpr Key.IsMove.right⟩
    · have hlines := edits_moves_lines (d := d) hkeys
      have hedits : d.edits (keys ++ [.right]) = (d.edits keys).moveRight := by
        simp [edits, edit]
      rw [hedits]
      rw [← hlines] at h
      generalize d.edits keys = d' at hrow hbefore h
      obtain ⟨above, before, after, below⟩ := d'
      subst hrow hbefore
      simp [lines, line] at h
      subst h
      exact ⟨rfl, List.cons_ne_nil _ _⟩
  · exact ⟨keys, hkeys, hrow, hbefore⟩

namespace Buffer
variable {b b' : Buffer}

theorem puts_moves_same {keys : List Key} (hkeys : ∀ key ∈ keys, key.IsMove) (h : b.puts keys = some b') :
    SameLines b b' := by
  induction keys generalizing b with
  | nil =>
    cases h
    exact ⟨rfl, rfl, rfl⟩
  | cons key keys ih =>
    rw [List.forall_mem_cons] at hkeys
    unfold puts at h
    rw [List.foldlM_cons] at h
    obtain ⟨b₁, hput, h⟩ := Option.bind_eq_some_iff.mp h
    exact (put_move_same hkeys.1 hput).trans (ih hkeys.2 h)

/-- `:BSPACE` behind a character changes the String of the line in place. -/
theorem put_bspace_string {d : Document} (h : Shows b d) (hbefore : d.before ≠ []) {ref : Nat}
    (href : b.currentLine = some ref) (hput : b.put .bspace = some b') :
    ∃ s : Text, s.length + 1 = (b.objects.string ref).length ∧ b'.objects = b.objects.setString ref s ∧
      b'.lines = b.lines := by
  obtain ⟨b₁, hclamp, hat, -, hb₁⟩ := clamp_at h
  obtain ⟨_, ref', _, hparts, -, hline, -⟩ := parts_of_texts hat.texts hat.row
  have hcurrent : b.currentLine = some ref' := by
    rw [hb₁] at hparts
    exact hparts.currentLine
  rw [href] at hcurrent
  cases hcurrent
  have hobjects : b₁.objects = b.objects := by rw [hb₁]
  have hlines : b₁.lines = b.lines := by rw [hb₁]
  have hpos : 0 < d.before.length := List.length_pos_iff.mpr hbefore
  have hcolumn : b₁.cursorX = d.before.length := hat.column
  have hlength : (b.objects.string ref).length = d.before.length + d.after.length := by
    rw [← hobjects, hline, Document.line, List.length_append, List.length_reverse]
  unfold put at hput
  simp only [Option.bind_eq_bind, href, Option.bind_some, hclamp] at hput
  unfold bspace at hput
  dsimp only at hput
  rw [if_pos (by omega)] at hput
  split at hput
  · have hsame := tail_same hput
    refine ⟨(b₁.objects.string ref).dropLast, ?_, ?_, hsame.lines.trans hlines⟩
    · rw [List.length_dropLast, hobjects]
      omega
    · rw [hsame.objects, hobjects]
  · have hsame := left_same hput
    refine ⟨(b₁.objects.string ref).eraseIdx (b₁.cursorX - 1), ?_, ?_, hsame.lines.trans hlines⟩
    · rw [List.length_eraseIdx, hobjects, hcolumn, if_pos (by omega)]
      omega
    · rw [hsame.objects, hobjects]

end Buffer

/-! ## With sharing -/

theorem Document.erase_lines {c : Char} {before : Text} (h : d.before = c :: before) :
    d.erase.lines = d.lines.set d.above.length (before.reverse ++ d.after) := by
  obtain ⟨above, _, after, below⟩ := d
  subst h
  simp [erase, lines, Document.line]

theorem unshared_of_refines (hlive : b.Live) (h : Shows b d) (hshort : d.Short) (hrefines : Refines b d) :
    b.Unshared := by
  apply List.pairwise_iff_getElem.mpr
  intro i j hi hj hij hsame
  by_contra hne
  obtain ⟨c, s, hstring⟩ := List.exists_cons_of_ne_nil hne
  have htexts (k : Nat) : d.lines[k]? = (b.objects.array b.lines)[k]?.map b.objects.string := by
    have heq := h.texts
    unfold Buffer.texts Objects.texts at heq
    rw [← heq, List.getElem?_map]
  have hline : d.lines[i]? = some (c :: s) := by
    rw [htexts, List.getElem?_eq_getElem hi, Option.map_some, hstring]
  obtain ⟨keys, hkeys, hrow, hbefore⟩ := d.reach hline
  have hsingle : ∀ key ∈ keys, key.Single := fun key hkey => (hkeys key hkey).single
  have hmoves (pre : List Key) (hpre : pre <+: keys) : (d.edits pre).Short := by
    unfold Document.Short
    rw [Document.edits_moves_lines fun key hkey => hkeys key (hpre.subset hkey)]
    exact hshort
  -- the moves, and the deletion after them
  obtain ⟨b₁, hputs, hshows⟩ := hrefines keys hsingle hmoves
  obtain ⟨c', before, hcons⟩ := List.exists_cons_of_ne_nil hbefore
  have hedits : d.edits (keys ++ [.bspace]) = (d.edits keys).erase := by
    simp [Document.edits, Document.edit]
  have herase : (d.edits keys).erase.lines = d.lines.set i (before.reverse ++ (d.edits keys).after) := by
    rw [Document.erase_lines hcons, hrow, Document.edits_moves_lines hkeys]
  obtain ⟨b₂, hputs₂, hshows₂⟩ := hrefines (keys ++ [.bspace])
    (by
      rw [List.forall_mem_append]
      exact ⟨hsingle, List.forall_mem_singleton.mpr fun c heq => by cases heq⟩)
    (by
      intro pre hpre
      rcases List.prefix_concat_iff.mp hpre with rfl | hpre
      · rw [hedits]
        intro line hmem
        rw [herase] at hmem
        rcases List.mem_or_eq_of_mem_set hmem with hmem | rfl
        · exact hshort line hmem
        · have hold := hmoves keys (List.prefix_refl _) (d.edits keys).line (by simp [Document.lines])
          unfold Document.line at hold
          rw [hcons] at hold
          simp only [List.length_append, List.length_reverse, List.length_cons] at hold ⊢
          omega
      · exact hmoves pre hpre)
  have hput : b₁.put .bspace = some b₂ := by
    unfold Buffer.puts at hputs hputs₂
    rw [List.foldlM_append, hputs] at hputs₂
    simpa using hputs₂
  have hsameLines := Buffer.puts_moves_same hkeys hputs
  have hcurrent : b₁.currentLine = some (b.objects.array b.lines)[i] := by
    unfold Buffer.currentLine Buffer.array
    rw [hshows.row, hrow, placeOf_natCast, hsameLines.objects, hsameLines.lines]
    exact List.getElem?_eq_getElem hi
  obtain ⟨s', hlength, hobjects, hlines⟩ := Buffer.put_bspace_string hshows hbefore hcurrent hput
  rw [hsameLines.objects] at hlength hobjects
  rw [hsameLines.lines] at hlines
  -- the other line has lost the character too
  have hother : d.lines[j]? = some s' := by
    have heq := congrArg (·[j]?) hshows₂.texts
    simp only [hedits, herase, List.getElem?_set_ne (Nat.ne_of_lt hij)] at heq
    rw [← heq]
    unfold Buffer.texts Objects.texts
    rw [hobjects, hlines, List.getElem?_map, Objects.setString_array, List.getElem?_eq_getElem hj, ← hsame,
      Option.map_some, Objects.setString_string (hlive.strings _ (List.getElem_mem hi))]
  rw [htexts, List.getElem?_eq_getElem hj, Option.map_some, ← hsame] at hother
  rw [Option.some.inj hother] at hlength
  omega

/-- **The buffer refines a text with a cursor** exactly when no two lines are the same String object, other
than an empty one. -/
theorem refines_iff (b : Buffer) (d : Document) (hlive : b.Live) (h : Shows b d) (hshort : d.Short) :
    Refines b d ↔ b.Unshared :=
  ⟨unshared_of_refines hlive h hshort, refines_of_unshared hlive h⟩

/-- Two lines of one `ab`, as after `dd`, `p` and `p`, with the cursor behind the first one. -/
def pastedTwice : Buffer := ⟨⟨[['a', 'b']], [[0, 0]]⟩, 0, 2, 0, false⟩

def pastedDocument : Document := ⟨[], ['b', 'a'], [], [['a', 'b']]⟩

/-- A deletion in the first line changes the second one too. -/
theorem bspace_changes_both :
    (pastedTwice.puts [.bspace]).map Buffer.texts = some [['a'], ['a']] ∧
      (pastedDocument.edits [.bspace]).lines = [['a'], ['a', 'b']] := by
  decide

theorem pastedTwice_not_refines : ¬ Refines pastedTwice pastedDocument := by
  have hiff := refines_iff pastedTwice pastedDocument
    ⟨by decide, by decide⟩ ⟨by decide, by decide, by decide⟩
    (by unfold Document.Short; decide)
  rw [hiff]
  unfold Buffer.Unshared Objects.Unshared
  decide

end PicoRuby.Editor
