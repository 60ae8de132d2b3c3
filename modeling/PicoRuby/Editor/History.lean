import Mathlib.Data.List.Destutter
import Mathlib.Data.List.DropRight
import PicoRuby.Editor.Validity

/-!
# The history of the line editor

`Editor::Line` keeps what has been submitted as the Arrays of lines themselves. `clear` gives the buffer a new
Array, but a recalled entry is the Array of the history.
-/

namespace PicoRuby.Editor

open Shared

set_option autoImplicit false

/-- What is drawn is left out. -/
structure Line where
  buffer : Buffer
  history : List Nat
  historyIndex : Nat
deriving DecidableEq, Repr

inductive Recall where
  | up
  | down
deriving DecidableEq, Repr

def maxHistoryCount : Nat := 10

namespace Line

/-- The history as it reads. -/
def entries (s : Line) : List (List Text) := s.history.map s.buffer.objects.texts

def historyHead (s : Line) : Line := { s with historyIndex := s.history.length - 1 }

/-- `@history[-2]`. -/
def previous (s : Line) : Option (List Text) := do
  let i ← placeOf s.history.length (-2)
  let entry ← s.history[i]?
  some (s.buffer.objects.texts entry)

/-- The lines of the buffer take the place of the last entry, and a new one comes behind it. -/
def push (s : Line) : Line :=
  let (entry, objects) := s.buffer.objects.newBlank
  { s with
    buffer := { s.buffer with objects }
    history := s.history.set (s.history.length - 1) s.buffer.lines ++ [entry] }

/-- There is room for `MAX_HISTORY_COUNT` entries. -/
def makeRoom (s : Line) : Line :=
  if maxHistoryCount < s.history.length then { s with history := s.history.tail } else s

def saveHistory (s : Line) : Line :=
  historyHead (makeRoom (if s.previous = some s.buffer.texts then s else s.push))

/-- `load_history` behind the bounds of the index. -/
def load (s : Line) (index : Nat) : Line :=
  match s.history[index]? with
  | none => { s with historyIndex := index }
  | some entry =>
    let buffer := Buffer.bottom { s.buffer with lines := entry }
    { s with historyIndex := index, buffer := buffer.tail.getD buffer }

def loadHistory (s : Line) : Recall → Line
  | .up => if s.historyIndex = 0 then s else s.load (s.historyIndex - 1)
  | .down => if s.historyIndex = s.history.length - 1 then s else s.load (s.historyIndex + 1)

/-- `Line#initialize`. -/
def new : Line :=
  let buffer := Buffer.new ⟨[], []⟩
  let (entry, objects) := buffer.objects.newBlank
  { buffer := { buffer with objects }, history := [entry], historyIndex := 0 }

end Line

/-- What is done with the editor: keys for the buffer, recalls, submissions by `run_shell` or `run_irb`, and
`Interrupt`. -/
inductive Event where
  | put (key : Key)
  | head
  | tail
  | loadHistory (dir : Recall)
  | submit
  | interrupt
deriving DecidableEq, Repr

/-- The editor, and what has been submitted, each with the text it had. -/
structure Session where
  line : Line
  submitted : List (List Text)
deriving DecidableEq, Repr

namespace Session

def new : Session := ⟨Line.new, []⟩

/-- `run_irb` calls `history_head` once more, which changes nothing. -/
def step (s : Session) : Event → Session
  | .put key => { s with line := { s.line with buffer := (s.line.buffer.put key).getD s.line.buffer } }
  | .head => { s with line := { s.line with buffer := s.line.buffer.head } }
  | .tail => { s with line := { s.line with buffer := s.line.buffer.tail.getD s.line.buffer } }
  | .loadHistory dir => { s with line := s.line.loadHistory dir }
  | .submit =>
    let line := s.line.saveHistory
    { line := { line with buffer := line.buffer.clear }, submitted := s.submitted ++ [s.line.buffer.texts] }
  | .interrupt =>
    let buffer := s.line.buffer.bottom
    let buffer := (buffer.tail.getD buffer).clear
    { s with line := Line.historyHead { s.line with buffer } }

def run (s : Session) (events : List Event) : Session := events.foldl step s

end Session

/-- The last snippets that were submitted, without repetition. -/
def recent (submitted : List (List Text)) : List (List Text) :=
  (submitted.destutter (· ≠ ·)).rtake (maxHistoryCount - 1)

/-- A key that moves the cursor, unless the lines are those of an entry. -/
def Session.Ok (s : Session) : Event → Prop
  | .put key => s.line.buffer.lines ∈ s.line.history → key.IsMove ∨ key = .home
  | _ => True

/-! ## The most recent ones -/

section Lists
variable {α : Type} {l : List α} {a b : α} {n : Nat}

theorem destutter'_concat [DecidableEq α] : ∀ (l : List α) (b : α),
    ((l ++ [a]).destutter' (· ≠ ·) b : List α) =
      if (l.destutter' (· ≠ ·) b).getLast? = some a then l.destutter' (· ≠ ·) b
      else l.destutter' (· ≠ ·) b ++ [a] := by
  intro l
  induction l with
  | nil =>
    intro b
    by_cases h : b = a <;> simp [h]
  | cons c l ih =>
    intro b
    by_cases h : b = c
    · simp only [List.cons_append, List.destutter'_cons, h, ne_eq, not_true_eq_false, if_false]
      exact ih c
    · have hne : l.destutter' (· ≠ ·) c ≠ [] := List.destutter'_ne_nil _ _
      simp only [List.cons_append, List.destutter'_cons, h, ne_eq, not_false_eq_true, if_true]
      have hih := ih c
      simp only [ne_eq] at hih hne
      rw [hih, List.getLast?_cons_of_ne_nil hne]
      split <;> rfl

theorem destutter_concat [DecidableEq α] : (l ++ [a]).destutter (· ≠ ·) =
    if (l.destutter (· ≠ ·)).getLast? = some a then l.destutter (· ≠ ·) else l.destutter (· ≠ ·) ++ [a] := by
  cases l with
  | nil => rfl
  | cons b l => exact destutter'_concat l b

theorem getLast?_rtake (h : 0 < n) : (l.rtake n).getLast? = l.getLast? := by
  unfold List.rtake
  rw [List.getLast?_drop]
  split
  · have hnil : l = [] := List.length_eq_zero_iff.mp (by omega)
    rw [hnil, List.getLast?_nil]
  · rfl

/-- One less is left by a shift if there are more. -/
theorem rtake_eq_shift : l.rtake n =
    if n < (l.rtake (n + 1)).length then (l.rtake (n + 1)).tail else l.rtake (n + 1) := by
  unfold List.rtake
  rw [List.length_drop, List.tail_drop]
  split
  · congr 1
    omega
  · congr 1
    omega

end Lists

theorem recent_concat (submitted : List (List Text)) (snippet : List Text) :
    recent (submitted ++ [snippet]) =
      if (recent submitted).getLast? = some snippet then recent submitted
      else if maxHistoryCount - 2 < (recent submitted).length then (recent submitted).tail ++ [snippet]
      else recent submitted ++ [snippet] := by
  have hlast : (recent submitted).getLast? = (submitted.destutter (· ≠ ·)).getLast? :=
    getLast?_rtake (by decide)
  rw [hlast]
  unfold recent
  rw [destutter_concat]
  split
  · rfl
  · have hconcat : ∀ l : List (List Text), (l ++ [snippet]).rtake (maxHistoryCount - 1) =
        l.rtake (maxHistoryCount - 2) ++ [snippet] := fun l => List.rtake_concat_succ l _ snippet
    have hshift : ∀ l : List (List Text), l.rtake (maxHistoryCount - 2) =
        if maxHistoryCount - 2 < (l.rtake (maxHistoryCount - 1)).length then (l.rtake (maxHistoryCount - 1)).tail
        else l.rtake (maxHistoryCount - 1) := fun l => rtake_eq_shift
    rw [hconcat, hshift]
    split <;> rfl

theorem recent_length (submitted : List (List Text)) : (recent submitted).length ≤ maxHistoryCount - 1 := by
  unfold recent List.rtake
  rw [List.length_drop]
  omega

/-! ## The entries -/

namespace Session
variable {s : Session} {b : Buffer}

/-- The entries are there, and those lines of the buffer that are not of an entry share no String with one. -/
structure Inv (s : Session) : Prop where
  entries : ∀ entry ∈ s.line.history, s.line.buffer.objects.Live entry
  live : s.line.buffer.objects.Live s.line.buffer.lines
  apart : s.line.buffer.lines ∉ s.line.history → ∀ entry ∈ s.line.history,
    ∀ str ∈ s.line.buffer.objects.array s.line.buffer.lines, str ∉ s.line.buffer.objects.array entry

/-- The history is the last snippets, and a new entry. -/
def Remembers (s : Session) : Prop := s.line.entries = recent s.submitted ++ [[[]]]

theorem same_kept (hinv : s.Inv) (h : s.Remembers) (hsame : Buffer.SameLines s.line.buffer b) :
    Inv { s with line := { s.line with buffer := b } } ∧
      Remembers { s with line := { s.line with buffer := b } } := by
  refine ⟨⟨?_, ?_, ?_⟩, ?_⟩
  · dsimp only
    rw [hsame.objects]
    exact hinv.entries
  · dsimp only
    rw [hsame.objects, hsame.lines]
    exact hinv.live
  · dsimp only
    rw [hsame.objects, hsame.lines]
    exact hinv.apart
  · unfold Remembers Line.entries
    dsimp only
    rw [hsame.objects]
    exact h

theorem stays_kept (hinv : s.Inv) (h : s.Remembers) (hstays : Buffer.Stays s.line.buffer b)
    (hnew : s.line.buffer.lines ∉ s.line.history) :
    Inv { s with line := { s.line with buffer := b } } ∧
      Remembers { s with line := { s.line with buffer := b } } := by
  have hne (entry : Nat) (hentry : entry ∈ s.line.history) : entry ≠ s.line.buffer.lines := by
    rintro rfl
    exact hnew hentry
  refine ⟨⟨?_, ?_, ?_⟩, ?_⟩
  · exact fun entry hentry => hstays.within.live_other (hinv.entries entry hentry) (hne entry hentry)
  · dsimp only
    rw [hstays.lines]
    exact hstays.within.live hinv.live
  · dsimp only
    rw [hstays.lines]
    intro _ entry hentry str hin
    rw [hstays.within.array entry (hne entry hentry)]
    rcases hstays.within.refs str hin with hin | hin
    · exact hinv.apart hnew entry hentry str hin
    · intro hmem
      have hlt := (hinv.entries entry hentry).strings str hmem
      omega
  · unfold Remembers Line.entries
    dsimp only
    rw [← h]
    apply List.map_congr_left
    intro entry hentry
    exact hstays.within.texts (hinv.entries entry hentry) (hne entry hentry) (hinv.apart hnew entry hentry)

theorem clear_kept (hentries : ∀ entry ∈ s.line.history, s.line.buffer.objects.Live entry) (h : s.Remembers) :
    Inv { s with line := { s.line with buffer := s.line.buffer.clear } } ∧
      Remembers { s with line := { s.line with buffer := s.line.buffer.clear } } := by
  refine ⟨⟨?_, ?_, ?_⟩, ?_⟩
  · exact fun entry hentry => Objects.newBlank_live_of_live (hentries entry hentry)
  · exact Objects.newBlank_live
  · intro _ entry hentry str hin hmem
    have hlive := hentries entry hentry
    have harray : s.line.buffer.clear.objects.array entry = s.line.buffer.objects.array entry :=
      Objects.newBlank_array_of_live hlive
    have hnew : s.line.buffer.clear.array = [s.line.buffer.objects.strings.length] :=
      Objects.newBlank_array
    have hstr : str = s.line.buffer.objects.strings.length :=
      List.mem_singleton.mp (hnew ▸ hin)
    rw [harray] at hmem
    have hlt := hlive.strings str hmem
    omega
  · unfold Remembers Line.entries
    dsimp only
    rw [← h]
    apply List.map_congr_left
    exact fun entry hentry => Objects.newBlank_texts_of_live (hentries entry hentry)

theorem load_kept (hinv : s.Inv) (h : s.Remembers) (index : Nat) :
    Inv { s with line := s.line.load index } ∧ Remembers { s with line := s.line.load index } := by
  unfold Line.load
  cases hentry : s.line.history[index]? with
  | none => exact ⟨⟨hinv.entries, hinv.live, hinv.apart⟩, h⟩
  | some entry =>
    have hmem := List.mem_of_getElem? hentry
    have hload : Inv
        { s with
          line :=
            { s.line with
              historyIndex := index, buffer := Buffer.bottom { s.line.buffer with lines := entry } } } :=
      ⟨hinv.entries, hinv.entries entry hmem, fun hnot => absurd hmem hnot⟩
    exact same_kept hload h Buffer.tail_getD_same

theorem previous_eq {line : Line} {l : List (List Text)} {last : List Text} (h : line.entries = l ++ [last]) :
    line.previous = l.getLast? := by
  have hlength : line.history.length = l.length + 1 := by
    have heq := congrArg List.length h
    rwa [Line.entries, List.length_map, List.length_append, List.length_singleton] at heq
  unfold Line.previous placeOf
  rcases Nat.eq_zero_or_pos l.length with hzero | hpos
  · rw [List.length_eq_zero_iff.mp hzero] at hlength ⊢
    simp [hlength]
  · have hplace : (-2 + (line.history.length : Int)).toNat = l.length - 1 := by omega
    have hget : (line.history[l.length - 1]?).map line.buffer.objects.texts = l.getLast? := by
      have heq := congrArg (·[l.length - 1]?) h
      dsimp only [Line.entries] at heq
      rw [List.getElem?_map] at heq
      rw [heq, List.getElem?_append_left (by omega), List.getLast?_eq_getElem?]
    dsimp only
    rw [if_pos (by omega), if_pos (by omega), hplace, ← hget]
    cases hentry : line.history[l.length - 1]? <;> simp [hentry]

theorem push_entries {line : Line} {l : List (List Text)} {last : List Text} (h : line.entries = l ++ [last])
    (hentries : ∀ entry ∈ line.history, line.buffer.objects.Live entry)
    (hlive : line.buffer.objects.Live line.buffer.lines) :
    line.push.entries = l ++ [line.buffer.texts] ++ [[[]]] ∧
      ∀ entry ∈ line.push.history, line.push.buffer.objects.Live entry := by
  have hset (entry : Nat) (hmem : entry ∈ line.history.set (line.history.length - 1) line.buffer.lines) :
      line.buffer.objects.Live entry := by
    rcases List.mem_or_eq_of_mem_set hmem with hmem | rfl
    · exact hentries entry hmem
    · exact hlive
  have hlength : line.history.length - 1 = l.length := by
    have heq := congrArg List.length h
    rw [Line.entries, List.length_map, List.length_append, List.length_singleton] at heq
    omega
  constructor
  · change List.map _ (line.history.set (line.history.length - 1) line.buffer.lines ++ [_]) = _
    rw [List.map_append, List.map_singleton]
    congr 1
    · have hold : (line.history.set (line.history.length - 1) line.buffer.lines).map
          line.buffer.objects.newBlank.2.texts =
          (line.history.set (line.history.length - 1) line.buffer.lines).map line.buffer.objects.texts :=
        List.map_congr_left fun entry hmem => Objects.newBlank_texts_of_live (hset entry hmem)
      apply hold.trans
      rw [List.map_set]
      have hentries' : line.history.map line.buffer.objects.texts = l ++ [last] := h
      rw [hentries', hlength]
      simp
      rfl
    · exact congrArg (· :: []) Objects.newBlank_texts
  · intro entry hmem
    rcases List.mem_append.mp hmem with hmem | hmem
    · exact Objects.newBlank_live_of_live (hset entry hmem)
    · rw [List.mem_singleton.mp hmem]
      exact Objects.newBlank_live

theorem makeRoom_entries {line : Line} (hlive : ∀ entry ∈ line.history, line.buffer.objects.Live entry) :
    line.makeRoom.historyHead.entries =
        (if maxHistoryCount < line.entries.length then line.entries.tail else line.entries) ∧
      ∀ entry ∈ line.makeRoom.historyHead.history, line.makeRoom.historyHead.buffer.objects.Live entry := by
  have hlength : line.entries.length = line.history.length := List.length_map _
  rw [hlength]
  unfold Line.makeRoom
  split
  · exact ⟨List.map_tail, fun entry hmem => hlive entry (List.mem_of_mem_tail hmem)⟩
  · exact ⟨rfl, hlive⟩

/-- `save_history`: the last entry is the new one again. -/
theorem saveHistory_entries (hinv : s.Inv) (h : s.Remembers) :
    s.line.saveHistory.entries = recent (s.submitted ++ [s.line.buffer.texts]) ++ [[[]]] ∧
      ∀ entry ∈ s.line.saveHistory.history, s.line.saveHistory.buffer.objects.Live entry := by
  have hrecent := recent_length s.submitted
  have hmax : maxHistoryCount = 10 := rfl
  unfold Line.saveHistory
  rw [recent_concat, previous_eq h]
  split
  · -- nothing is stored, and there is no need to make room
    obtain ⟨hroom, hlive⟩ := makeRoom_entries hinv.entries
    refine ⟨?_, hlive⟩
    rw [hroom, h, List.length_append, List.length_singleton, if_neg (by omega)]
  · obtain ⟨hentries, hpushed⟩ := push_entries h hinv.entries hinv.live
    obtain ⟨hroom, hlive⟩ := makeRoom_entries hpushed
    refine ⟨?_, hlive⟩
    rw [hroom, hentries]
    simp only [List.length_append, List.length_singleton]
    by_cases hfull : maxHistoryCount - 2 < (recent s.submitted).length
    · have hne : recent s.submitted ≠ [] := List.length_pos_iff.mp (by omega)
      rw [if_pos (by omega), if_pos hfull, List.append_assoc, List.tail_append_of_ne_nil hne, List.append_assoc]
    · rw [if_neg (by omega), if_neg hfull]

theorem put_quiet_same {key : Key} {b' : Buffer} (hkey : key.IsMove ∨ key = .home) (h : b.put key = some b') :
    Buffer.SameLines b b' := by
  rcases hkey with hmove | rfl
  · exact Buffer.put_move_same hmove h
  · obtain ⟨line, -, h⟩ := Option.bind_eq_some_iff.mp h
    obtain ⟨b₁, hclamp, h⟩ := Option.bind_eq_some_iff.mp h
    cases h
    exact (Buffer.clamp_same hclamp).trans ⟨rfl, rfl, rfl⟩

theorem step_kept (hinv : s.Inv) (h : s.Remembers) {event : Event} (hok : s.Ok event) :
    (s.step event).Inv ∧ (s.step event).Remembers := by
  cases event with
  | put key =>
    unfold step
    dsimp only
    cases hput : s.line.buffer.put key with
    | none => exact ⟨hinv, h⟩
    | some b =>
      by_cases hentry : s.line.buffer.lines ∈ s.line.history
      · exact same_kept hinv h (put_quiet_same (hok hentry) hput)
      · exact stays_kept hinv h (Buffer.put_stays hinv.live.array hput) hentry
  | head => exact same_kept hinv h ⟨rfl, rfl, rfl⟩
  | tail => exact same_kept hinv h Buffer.tail_getD_same
  | loadHistory dir =>
    cases dir with
    | up =>
      unfold step Line.loadHistory
      dsimp only
      split
      · exact ⟨hinv, h⟩
      · exact load_kept hinv h _
    | down =>
      unfold step Line.loadHistory
      dsimp only
      split
      · exact ⟨hinv, h⟩
      · exact load_kept hinv h _
  | submit =>
    obtain ⟨hentries, hlive⟩ := saveHistory_entries hinv h
    exact clear_kept (s := ⟨s.line.saveHistory, s.submitted ++ [s.line.buffer.texts]⟩) hlive hentries
  | interrupt =>
    have hmoved := same_kept hinv h (b := s.line.buffer.bottom.tail.getD s.line.buffer.bottom) ?_
    · have hclear := clear_kept hmoved.1.entries hmoved.2
      exact ⟨⟨hclear.1.entries, hclear.1.live, hclear.1.apart⟩, hclear.2⟩
    · have hbottom : Buffer.SameLines s.line.buffer s.line.buffer.bottom := ⟨rfl, rfl, rfl⟩
      exact hbottom.trans Buffer.tail_getD_same

theorem new_kept : new.Inv ∧ new.Remembers := by
  refine ⟨⟨?_, ?_, fun _ => by decide⟩, by unfold Remembers; decide⟩
  · intro entry hmem
    rw [List.mem_singleton.mp hmem]
    exact Objects.newBlank_live
  · exact Objects.newBlank_live_of_live Objects.newBlank_live

/-- **The history is the last snippets as they were submitted, and a new entry,** as long as no key changes the
lines of an entry that has been recalled. -/
theorem history_remembers (events : List Event)
    (hok : ∀ pre event, pre ++ [event] <+: events → (new.run pre).Ok event) :
    ∀ pre, pre <+: events → (new.run pre).Remembers := by
  have hstep (s : Session) (event : Event) (h : s.Inv ∧ s.Remembers) (hok : s.Ok event) :
      (s.step event).Inv ∧ (s.step event).Remembers := step_kept h.1 h.2 hok
  have hrun := foldl_prefixes hstep new_kept hok
  exact fun pre hpre => (hrun pre hpre).2

/-- `a` is submitted, recalled and made `ab`: the entry is `ab`. -/
theorem recalled_entry_changes :
    let session := new.run [.put (.string ['a']), .submit, .loadHistory .up, .put (.string ['b'])]
    session.line.entries = [[['a', 'b']], [[]]] ∧ recent session.submitted ++ [[[]]] = [[['a']], [[]]] := by
  decide

/-- `a` is submitted, recalled and submitted again. -/
theorem resubmitted_remembers :
    (new.run [.put (.string ['a']), .submit, .loadHistory .up, .put .left, .submit]).Remembers := by
  refine history_remembers _ ?_ _ (List.prefix_refl _)
  simp only [forall_steps_cons]
  exact ⟨fun hentry => absurd hentry (by decide), trivial, trivial, fun _ => Or.inl .left, trivial, forall_steps_nil⟩

end Session

end PicoRuby.Editor
