import Mathlib.Data.List.Range
import PicoRuby.Rapicco.Parser
import PicoRuby.Shared.RubyArray
import PicoRuby.Vfs.Lines
import PicoRuby.Wifi.Config

/-!
# Rapicco

A deck is a file. `refresh` reads its front matter and where its pages begin, and a page is read from one heading to
the next. What is printed is left out.
-/

namespace PicoRuby.Rapicco

open Shared Vfs
open Yaml (Value)
open Wifi (truthy)

set_option autoImplicit false

/-- The Floats: `i.to_f`, `/`, `+` and `<`. -/
structure Floats (F : Type) where
  ofInt : Int → F
  divide : F → Int → F
  add : F → F → F
  less : F → Int → Bool

structure Sprite where
  author : Yaml.Text
  pos : Int
deriving DecidableEq, Repr

structure Slide where
  pageW : Int
  lineMargin : Int
  codeIndent : Int
  bullet : Sprite
deriving DecidableEq, Repr

/-- The terminal has so many columns. Drawing a page runs the code of the deck: it may raise, and changes nothing
here. -/
structure Terminal where
  pageW : Int
  renderSlide : Slide → List Line → Except Failure Unit

/-- An instance of `Rapicco`. -/
structure Presentation (F : Type) where
  file : Handle
  positions : List Nat
  rapiko : Sprite
  camerlengo : Sprite
  parser : Parser
  slide : Slide
  currentPage : Int
  duration : Int
  interval : F
  noteColor : Bytes
deriving Repr

/-! ## refresh -/

def dashes : Bytes := [dash, dash, dash]

/-- `@file.each_line` up to the end of the front matter. -/
def frontMatter (yaml : Bytes) (f : Handle) : Bytes × Handle :=
  match _h : f.getsWith [newline] none false with
  | (none, g) => (yaml, g)
  | (some line, g) => if chomp line = dashes then (yaml, g) else frontMatter (yaml ++ line) g
termination_by f.rest.length
decreasing_by
  rw [Handle.getsWith_none (by decide)] at _h
  exact Handle.deliver_upto_lt (by decide) _h

/-- The front matter and the file behind it. -/
def openDeck (content : Bytes) : Bytes × Handle :=
  match Handle.getsWith [newline] none false ⟨content, 0⟩ with
  | (some line, f) => if chomp line = dashes then frontMatter [] f else ([], f.seek 0)
  | (none, f) => ([], f.seek 0)

/-- `@file.each_line` over the pages. -/
def scan (positions : List Nat) (inCodeBlock : Bool) (pos : Nat) (f : Handle) : List Nat × Handle :=
  match _h : f.getsWith [newline] none false with
  | (none, g) => (positions ++ [pos], g)
  | (some line, g) =>
    let inCodeBlock := if fence <+: line then !inCodeBlock else inCodeBlock
    scan (if heading <+: line ∧ inCodeBlock = false then positions ++ [pos] else positions) inCodeBlock g.pos g
termination_by f.rest.length
decreasing_by
  rw [Handle.getsWith_none (by decide)] at _h
  exact Handle.deliver_upto_lt (by decide) _h

/-- The characters of a String are its bytes. -/
def characters (s : Bytes) : Yaml.Text := s.map fun c => Char.ofNat c.toNat

def bytes (s : Yaml.Text) : Bytes := s.map fun c => UInt8.ofNat c.toNat

/-- `to_i`; a Float is cut off. -/
def toI : Value → Except Failure Int
  | .scalar .null => .ok 0
  | .scalar (.integer i) => .ok i
  | .scalar (.float s) => .ok (Yaml.toI (s.takeWhile (· != '.')))
  | .scalar (.string s) => .ok (Http.toI (bytes s))
  | _ => .error .noMethodError

def toSym : Value → Except Failure Bytes
  | .scalar (.string s) => .ok (bytes s)
  | _ => .error .noMethodError

/-- `v&.to_sym || :white`. -/
def toColor : Value → Except Failure Bytes
  | .scalar .null => .ok (Http.ascii "white")
  | v => toSym v

abbrev Config := List (Yaml.Text × Value)

namespace Config

/-- `config[key]`. -/
def get (config : Config) (key : String) : Value := (hashGet config key.toList).getD (.scalar .null)

/-- `config[key]`, if it is neither nil nor false. -/
def setting (config : Config) (key : String) : Option Value :=
  if truthy (config.get key) then some (config.get key) else none

end Config

/-- The keys of `Sprite::DATA`. -/
def authors : List Yaml.Text :=
  ["hasumikin", "picochobishiba", "chobishiba", "ydah", "youchan", "ogom"].map String.toList

def Sprite.new : Value → Except Failure Sprite
  | .scalar (.string author) => if author ∈ authors then .ok ⟨author, 0⟩ else .error .noMethodError
  | _ => .error .noMethodError

section Read
variable {F : Type} (floats : Floats F)

/-- `refresh`, once the front matter is loaded. -/
def configure (file : Handle) (positions : List Nat) (config : Config) (pageW : Int) : Except Failure (Presentation F) := do
  let spriteAuthor := (config.setting "sprite").getD (.scalar (.string "hasumikin".toList))
  let rapiko ← Sprite.new spriteAuthor
  let camerlengo ← Sprite.new spriteAuthor
  let align ← (config.setting "align").elim (.ok Parser.new.align) toSym
  let lineMargin ← (config.setting "line_margin").elim (.ok 2) toI
  let codeIndent ← (config.setting "code_indent").elim (.ok 4) toI
  let bullet ← Sprite.new spriteAuthor
  -- `nil.to_i` is 0, and `0 || 60*30` is 0
  let duration ← toI (config.get "duration")
  let noteColor ← toColor (config.get "note_color")
  .ok {
    file, positions, rapiko, camerlengo
    parser := {
      Parser.new with
      titleFont := ((config.setting "title_font").map Name.value).getD Parser.new.titleFont
      font := ((config.setting "font").map Name.value).getD Parser.new.font
      boldColor := ((config.setting "bold_color").map Name.value).getD Parser.new.boldColor
      align }
    slide := { pageW, lineMargin, codeIndent, bullet }
    currentPage := -1
    duration
    interval := floats.divide (floats.ofInt duration) pageW
    noteColor }

/-- `YAML.load`, where the front matter is a Hash. -/
def loadConfig (yaml : Bytes) : Except Failure Config :=
  match Yaml.load (characters yaml) with
  | some (.hash config) => .ok config
  | _ => .error .noMethodError

def refresh (path : String) (content : Option Bytes) (pageW : Int) : Except Failure (Presentation F) :=
  match content with
  | none => .error (.runtimeError s!"File not found: {path}")
  | some content => do
    let (yaml, f) := openDeck content
    let (positions, f) := scan [] false f.pos f
    if positions.length < 3 then .error (.runtimeError "Slides must be more than 2 pages")
    else
      let config ← loadConfig yaml
      configure floats f positions config pageW

end Read

/-! ## Lines -/

/-- `String#each_line`. -/
def eachLine : Bytes → List Bytes
  | [] => []
  | c :: s =>
    if c = newline then [c] :: eachLine s
    else
      match eachLine s with
      | [] => [[c]]
      | line :: lines => (c :: line) :: lines

/-- Only the last line may have no newline. -/
inductive IsLines : List Bytes → Prop where
  | nil : IsLines []
  | last {line : Bytes} (h : newline ∉ line) (hne : line ≠ []) : IsLines [line]
  | cons {line : Bytes} {lines : List Bytes} (h : newline ∉ line) (hlines : IsLines lines) :
      IsLines ((line ++ [newline]) :: lines)

theorem eachLine_flatten (s : Bytes) : (eachLine s).flatten = s := by
  induction s with
  | nil => rfl
  | cons c s ih =>
    rw [eachLine]
    split
    · simp [ih]
    · split
      · rename_i heq
        rw [heq] at ih
        simp [← ih]
      · rename_i line lines heq
        rw [heq] at ih
        simp [← ih]

theorem isLines_eachLine (s : Bytes) : IsLines (eachLine s) := by
  induction s with
  | nil => exact .nil
  | cons c s ih =>
    rw [eachLine]
    split
    · rename_i hc
      subst hc
      have hempty : newline ∉ ([] : Bytes) := List.not_mem_nil
      exact .cons hempty ih
    · rename_i hc
      have hne : newline ≠ c := Ne.symm hc
      split
      · exact .last (by simp [hne]) (by simp)
      · rename_i line lines heq
        rw [heq] at ih
        cases ih with
        | last h hne' => exact .last (by simp [hne, h]) (by simp)
        | @cons before lines h hlines =>
          rw [← List.cons_append]
          exact .cons (by simp [hne, h]) hlines

theorem eachLine_newline {line : Bytes} (h : newline ∉ line) (s : Bytes) :
    eachLine (line ++ newline :: s) = (line ++ [newline]) :: eachLine s := by
  induction line with
  | nil => simp [eachLine]
  | cons c line ih =>
    simp only [List.mem_cons, not_or] at h
    simp [eachLine, ih h.2, Ne.symm h.1]

theorem eachLine_last {line : Bytes} (h : newline ∉ line) (hne : line ≠ []) : eachLine line = [line] := by
  induction line with
  | nil => exact absurd rfl hne
  | cons c line ih =>
    simp only [List.mem_cons, not_or] at h
    cases line with
    | nil => simp [eachLine, Ne.symm h.1]
    | cons d line =>
      rw [eachLine, if_neg (Ne.symm h.1), ih h.2 (by simp)]

namespace IsLines
variable {lines : List Bytes} {line : Bytes}

theorem eachLine_eq (h : IsLines lines) : eachLine lines.flatten = lines := by
  induction h with
  | nil => rfl
  | last h hne => simpa using eachLine_last h hne
  | @cons line lines h _ ih =>
    rw [List.flatten_cons, List.append_assoc, List.singleton_append, eachLine_newline h, ih]

theorem tail (h : IsLines (line :: lines)) : IsLines lines := by
  cases h with
  | last => exact .nil
  | cons _ hlines => exact hlines

theorem ne_nil (h : IsLines lines) : ∀ line ∈ lines, line ≠ [] := by
  induction h with
  | nil => simp
  | last _ hne => simpa using hne
  | cons _ _ ih => simpa using ih

theorem drop (h : IsLines lines) (n : Nat) : IsLines (lines.drop n) := by
  induction n generalizing lines with
  | zero => exact h
  | succ n ih =>
    cases lines with
    | nil => exact .nil
    | cons line lines => exact ih h.tail

theorem take (h : IsLines lines) (n : Nat) : IsLines (lines.take n) := by
  induction h generalizing n with
  | nil =>
    rw [List.take_nil]
    exact .nil
  | last h hne =>
    cases n with
    | zero => exact .nil
    | succ n =>
      rw [List.take_succ_cons, List.take_nil]
      exact .last h hne
  | cons h _ ih =>
    cases n with
    | zero => exact .nil
    | succ n => exact .cons h (ih n)

theorem upto_eq (h : IsLines (line :: lines)) : upto [newline] (line :: lines).flatten = line := by
  cases h with
  | last h hne =>
    rw [List.flatten_singleton]
    apply upto_eq_none
    rw [indexFrom_eq_none_iff]
    intro i _ hocc
    exact h (List.mem_of_getElem? (occursAt_singleton.mp hocc))
  | @cons before lines h _ =>
    have hindex : indexFrom [newline] ((before ++ [newline]) :: lines).flatten 0 = some before.length := by
      rw [indexFrom_eq_some_iff]
      refine ⟨Nat.zero_le _, occursAt_singleton.mpr (by simp), fun j _ hj hocc => ?_⟩
      have hget := occursAt_singleton.mp hocc
      rw [List.flatten_cons, List.append_assoc, List.getElem?_append_left hj] at hget
      exact h (List.mem_of_getElem? hget)
    rw [upto_eq_some hindex, List.flatten_cons]
    exact List.take_left' (by simp)

end IsLines

section Gets
variable {f : Handle} {line : Bytes} {lines : List Bytes}

theorem gets_nil (h : eachLine f.rest = []) : f.getsWith [newline] none false = (none, f) := by
  have hrest : f.rest = [] := by
    rw [← eachLine_flatten f.rest, h]
    rfl
  rw [Handle.getsWith_none (by decide), Handle.deliver_nil _ hrest]

theorem gets_cons (h : eachLine f.rest = line :: lines) :
    f.getsWith [newline] none false = (some line, f.seek (f.pos + line.length)) ∧
      eachLine (f.seek (f.pos + line.length)).rest = lines := by
  have hlines := isLines_eachLine f.rest
  have hflatten := eachLine_flatten f.rest
  rw [h] at hlines hflatten
  have hline : line ≠ [] := hlines.ne_nil line List.mem_cons_self
  have hrest : f.rest ≠ [] := by
    rw [← hflatten]
    simp [hline]
  constructor
  · rw [Handle.getsWith_none (by decide), Handle.deliver_cons _ hrest, ← hflatten, hlines.upto_eq]
  · rw [Handle.rest_seek, ← hflatten, List.flatten_cons, List.drop_left]
    exact hlines.tail.eachLine_eq

end Gets

/-! ## Pages -/

/-- A line that does not close the front matter. -/
def isOpen (line : Bytes) : Bool := chomp line ≠ dashes

/-- What `YAML.load` is given. -/
def front : List Bytes → Bytes
  | [] => []
  | first :: rest => if isOpen first then [] else (rest.takeWhile isOpen).flatten

/-- The lines behind the front matter. -/
def body : List Bytes → List Bytes
  | [] => []
  | first :: rest => if isOpen first then first :: rest else (rest.dropWhile isOpen).tail

def fences (lines : List Bytes) : Nat := lines.countP fun line => decide (fence <+: line)

/-- The line at `k` starts with `# `, and the fences in front of it are balanced. -/
def IsHeading (lines : List Bytes) (k : Nat) : Prop :=
  (lines[k]?.any fun line => decide (heading <+: line)) ∧ fences (lines.take k) % 2 = 0

instance (lines : List Bytes) (k : Nat) : Decidable (IsHeading lines k) := inferInstanceAs (Decidable (_ ∧ _))

def headings (lines : List Bytes) : List Nat := (List.range lines.length).filter fun k => decide (IsHeading lines k)

/-- Where the pages begin, and where the last one ends. -/
def bounds (lines : List Bytes) : List Nat := headings lines ++ [lines.length]

def bound (lines : List Bytes) (i : Nat) : Nat := (bounds lines).getD i 0

/-- How many bytes are before a line. -/
def offset (lines : List Bytes) (k : Nat) : Nat := (lines.take k).flatten.length

/-- The lines from the heading `i` up to the next one, or to the end. -/
def page (lines : List Bytes) (i : Nat) : List Bytes := (lines.take (bound lines (i + 1))).drop (bound lines i)

/-- A file with two pages at least, whose fences are balanced. -/
structure Deck where
  content : Bytes
  two : 2 ≤ (headings (body (eachLine content))).length
  balanced : fences (body (eachLine content)) % 2 = 0

section Pages
variable {lines : List Bytes} {i j : Nat}

theorem bounds_length : (bounds lines).length = (headings lines).length + 1 := by simp [bounds]

theorem bounds_pairwise : (bounds lines).Pairwise (· < ·) := by
  unfold bounds
  rw [List.pairwise_append]
  refine ⟨List.pairwise_lt_range.filter _, List.pairwise_singleton _ _, ?_⟩
  intro a ha b hb
  rw [List.mem_singleton] at hb
  rw [hb]
  exact List.mem_range.mp (List.mem_of_mem_filter ha)

theorem bound_eq (hi : i < (bounds lines).length) : (bounds lines)[i]? = some (bound lines i) := by
  simp [bound, hi]

theorem bound_lt (hj : j < (bounds lines).length) (hij : i < j) : bound lines i < bound lines j := by
  have hi : i < (bounds lines).length := Nat.lt_trans hij hj
  have hlt := List.pairwise_iff_getElem.mp bounds_pairwise i j hi hj hij
  simpa [bound, hi, hj] using hlt

theorem bound_heading (hi : i < (headings lines).length) : IsHeading lines (bound lines i) := by
  have hget : bound lines i = (headings lines)[i] := by
    unfold bound bounds
    rw [List.getD_append _ _ _ _ hi, List.getD_eq_getElem _ _ hi]
  have hmem : (headings lines)[i] ∈ headings lines := List.getElem_mem hi
  rw [hget]
  exact of_decide_eq_true (List.mem_filter.mp hmem).2

theorem bound_last : bound lines (headings lines).length = lines.length := by simp [bound, bounds]

theorem bound_le (hi : i ≤ (headings lines).length) : bound lines i ≤ lines.length := by
  rcases Nat.lt_or_eq_of_le hi with hlt | rfl
  · rw [← bound_last]
    exact Nat.le_of_lt (bound_lt (by simp [bounds_length]) hlt)
  · rw [bound_last]

theorem fences_append (l m : List Bytes) : fences (l ++ m) = fences l + fences m := List.countP_append

/-- A fence is open behind the lines. -/
def inside (lines : List Bytes) : Bool := decide (fences lines % 2 = 1)

theorem inside_eq_false : inside lines = false ↔ fences lines % 2 = 0 := by
  unfold inside
  rw [decide_eq_false_iff_not]
  omega

theorem inside_append (l m : List Bytes) : inside (l ++ m) = (inside l ^^ inside m) := by
  unfold inside
  rw [fences_append]
  rcases Nat.mod_two_eq_zero_or_one (fences l) with hl | hl
  · have hsum : (fences l + fences m) % 2 = fences m % 2 := by omega
    simp [hl, hsum]
  · rcases Nat.mod_two_eq_zero_or_one (fences m) with hm | hm
    · have hsum : (fences l + fences m) % 2 = 1 := by omega
      simp [hl, hm, hsum]
    · have hsum : (fences l + fences m) % 2 = 0 := by omega
      simp [hl, hm, hsum]

theorem inside_singleton (line : Bytes) : inside [line] = decide (fence <+: line) := by
  by_cases hfence : fence <+: line
  · simp [inside, fences, hfence]
  · simp [inside, fences, hfence]

theorem bound_balanced (hbalanced : fences lines % 2 = 0) (hi : i ≤ (headings lines).length) :
    fences (lines.take (bound lines i)) % 2 = 0 := by
  rcases Nat.lt_or_eq_of_le hi with hlt | rfl
  · exact (bound_heading hlt).2
  · rw [bound_last, List.take_length]
    exact hbalanced

theorem take_bound (hi : i < (headings lines).length) :
    lines.take (bound lines (i + 1)) = lines.take (bound lines i) ++ page lines i := by
  have hlt : bound lines i < bound lines (i + 1) := bound_lt (by simp [bounds_length, hi]) (Nat.lt_succ_self i)
  have hsplit := List.take_append_drop (bound lines i) (lines.take (bound lines (i + 1)))
  rw [List.take_take, Nat.min_eq_left (Nat.le_of_lt hlt)] at hsplit
  exact hsplit.symm

/-- A page begins with its heading, and its fences are balanced. -/
theorem page_heading (hbalanced : fences lines % 2 = 0) (hi : i < (headings lines).length) :
    (∃ first rest, page lines i = first :: rest ∧ heading <+: first) ∧ inside (page lines i) = false := by
  have hlt : bound lines i < bound lines (i + 1) := bound_lt (by simp [bounds_length, hi]) (Nat.lt_succ_self i)
  have hle : bound lines (i + 1) ≤ lines.length := bound_le hi
  constructor
  · have hany := (bound_heading hi).1
    rw [List.getElem?_eq_getElem (by omega), Option.any_some, decide_eq_true_eq] at hany
    refine ⟨lines[bound lines i], (lines.take (bound lines (i + 1))).drop (bound lines i + 1), ?_, hany⟩
    rw [page, List.drop_eq_getElem_cons (by simp; omega)]
    simp
  · have hhere := (bound_heading hi).2
    have hnext := bound_balanced hbalanced hi
    rw [take_bound hi, fences_append] at hnext
    rw [inside_eq_false]
    omega

theorem append_page (hi : i < (headings lines).length) :
    lines = lines.take (bound lines i) ++ (page lines i ++ lines.drop (bound lines (i + 1))) := by
  rw [← List.append_assoc, ← take_bound hi, List.take_append_drop]

theorem offset_bound (hi : i < (headings lines).length) :
    offset lines (bound lines (i + 1)) = offset lines (bound lines i) + (page lines i).flatten.length := by
  unfold offset
  rw [take_bound hi, List.flatten_append, List.length_append]

theorem drop_offset (hi : i < (headings lines).length) :
    lines.flatten.drop (offset lines (bound lines i)) =
      (page lines i).flatten ++ (lines.drop (bound lines (i + 1))).flatten := by
  have hflatten := congrArg List.flatten (append_page hi)
  rw [List.flatten_append, List.flatten_append] at hflatten
  rw [hflatten]
  exact List.drop_left

/-- The pages tile the deck. -/
theorem flatMap_page (hn : i ≤ (headings lines).length) :
    (List.range i).flatMap (page lines) = (lines.take (bound lines i)).drop (bound lines 0) := by
  induction i with
  | zero => simp
  | succ i ih =>
    have hle : bound lines 0 ≤ bound lines i := by
      rcases Nat.eq_zero_or_pos i with rfl | hpos
      · exact Nat.le_refl _
      · exact Nat.le_of_lt (bound_lt (by rw [bounds_length]; omega) hpos)
    have hlength : bound lines 0 ≤ (lines.take (bound lines i)).length := by
      have hlast := bound_le (Nat.le_of_succ_le hn)
      rw [List.length_take]
      omega
    rw [List.range_succ, List.flatMap_append, ih (Nat.le_of_succ_le hn), take_bound hn, List.flatMap_singleton,
      List.drop_append_of_le_length hlength]

end Pages

/-! ## What refresh reads -/

section Scan
variable {f : Handle} {lines rest : List Bytes} {line : Bytes} {positions : List Nat}

theorem frontMatter_nil (yaml : Bytes) (h : eachLine f.rest = []) : frontMatter yaml f = (yaml, f) := by
  rw [frontMatter]
  split
  · rename_i heq
    rw [gets_nil h] at heq
    cases heq
    rfl
  · rename_i heq
    rw [gets_nil h] at heq
    cases heq

theorem frontMatter_cons (yaml : Bytes) (h : eachLine f.rest = line :: lines) :
    frontMatter yaml f =
      if isOpen line then frontMatter (yaml ++ line) (f.seek (f.pos + line.length))
      else (yaml, f.seek (f.pos + line.length)) := by
  rw [frontMatter]
  split
  · rename_i heq
    rw [(gets_cons h).1] at heq
    cases heq
  · rename_i heq
    rw [(gets_cons h).1] at heq
    cases heq
    simp [isOpen]

theorem scan_nil (inCodeBlock : Bool) (pos : Nat) (h : eachLine f.rest = []) :
    scan positions inCodeBlock pos f = (positions ++ [pos], f) := by
  rw [scan]
  split
  · rename_i heq
    rw [gets_nil h] at heq
    cases heq
    rfl
  · rename_i heq
    rw [gets_nil h] at heq
    cases heq

theorem scan_cons (inCodeBlock : Bool) (pos : Nat) (h : eachLine f.rest = line :: lines) :
    scan positions inCodeBlock pos f =
      scan (if heading <+: line ∧ inCodeBlock = false then positions ++ [pos] else positions)
        (inCodeBlock ^^ decide (fence <+: line)) (f.pos + line.length) (f.seek (f.pos + line.length)) := by
  rw [scan]
  split
  · rename_i heq
    rw [(gets_cons h).1] at heq
    cases heq
  · rename_i heq
    rw [(gets_cons h).1] at heq
    cases heq
    by_cases hfence : fence <+: line
    · have hheading : ¬ heading <+: line := fun hheading => not_fence_of_heading hheading hfence
      simp [hfence, hheading]
      rfl
    · simp [hfence]
      rfl

theorem pos_le (hle : f.pos ≤ f.content.length) (h : eachLine f.rest = line :: lines) :
    f.pos + line.length ≤ f.content.length := by
  have hlen := congrArg List.length (eachLine_flatten f.rest)
  rw [h, List.flatten_cons, List.length_append, Handle.rest, List.length_drop] at hlen
  omega

theorem frontMatter_eq (yaml : Bytes) (hle : f.pos ≤ f.content.length) (h : eachLine f.rest = lines) :
    ∃ pos, frontMatter yaml f = (yaml ++ (lines.takeWhile isOpen).flatten, f.seek pos) ∧
      pos ≤ f.content.length ∧ eachLine (f.seek pos).rest = (lines.dropWhile isOpen).tail := by
  induction lines generalizing f yaml with
  | nil =>
    refine ⟨f.pos, ?_, hle, h⟩
    simp [frontMatter_nil yaml h]
  | cons line lines ih =>
    have hend := pos_le hle h
    have hlines := (gets_cons h).2
    rw [frontMatter_cons yaml h]
    by_cases hopen : isOpen line
    · obtain ⟨pos, hfront, hpos, hrest⟩ := ih (yaml ++ line) hend hlines
      refine ⟨pos, ?_, hpos, ?_⟩
      · simpa [hopen] using hfront
      · simpa [hopen] using hrest
    · refine ⟨f.pos + line.length, ?_, hend, ?_⟩
      · simp [hopen]
      · simpa [hopen] using hlines

theorem openDeck_eq (content : Bytes) :
    ∃ pos, openDeck content = (front (eachLine content), ⟨content, pos⟩) ∧ pos ≤ content.length ∧
      eachLine (content.drop pos) = body (eachLine content) := by
  have hstart : eachLine (⟨content, 0⟩ : Handle).rest = eachLine content := rfl
  unfold openDeck
  cases hlines : eachLine content with
  | nil =>
    rw [hlines] at hstart
    rw [gets_nil hstart]
    exact ⟨0, rfl, Nat.zero_le _, hlines⟩
  | cons first rest =>
    rw [hlines] at hstart
    obtain ⟨hgets, hrest⟩ := gets_cons hstart
    rw [hgets]
    by_cases hopen : isOpen first
    · have hfirst : chomp first ≠ dashes := of_decide_eq_true hopen
      refine ⟨0, ?_, Nat.zero_le _, ?_⟩
      · simp [hfirst, front, hopen]
        rfl
      · simpa [body, hopen] using hlines
    · have hfirst : chomp first = dashes := by simpa [isOpen] using hopen
      obtain ⟨pos, hfront, hpos, hbody⟩ := frontMatter_eq [] (pos_le (Nat.zero_le _) hstart) hrest
      refine ⟨pos, ?_, hpos, ?_⟩
      · simp only [hfirst, if_true, front, hopen]
        exact hfront
      · simp only [body, hopen]
        exact hbody

theorem offset_succ {k : Nat} (hk : k < lines.length) : offset lines (k + 1) = offset lines k + lines[k].length := by
  unfold offset
  rw [← List.take_append_getElem hk, List.flatten_append, List.length_append, List.flatten_singleton]

theorem inside_succ {k : Nat} (hk : k < lines.length) :
    inside (lines.take (k + 1)) = (inside (lines.take k) ^^ decide (fence <+: lines[k])) := by
  rw [← List.take_append_getElem hk, inside_append, inside_singleton]

theorem isHeading_iff {k : Nat} (hk : k < lines.length) :
    IsHeading lines k ↔ heading <+: lines[k] ∧ inside (lines.take k) = false := by
  rw [inside_eq_false]
  unfold IsHeading
  rw [List.getElem?_eq_getElem hk, Option.any_some, decide_eq_true_eq]

/-- The rounds from the line `k` on. -/
theorem scan_eq (positions : List Nat) (base : Nat) {k n : Nat} (hn : k + n = lines.length) (hrest : eachLine f.rest = lines.drop k)
    (hpos : f.pos = base + offset lines k) :
    scan positions (inside (lines.take k)) f.pos f =
      (positions ++ ((List.range' k n).filter (fun k => decide (IsHeading lines k)) ++ [lines.length]).map
        (fun k => base + offset lines k), f.seek (base + offset lines lines.length)) := by
  induction n generalizing f positions k with
  | zero =>
    have hk : k = lines.length := hn
    subst hk
    rw [List.drop_length] at hrest
    rw [scan_nil _ _ hrest, ← hpos, Handle.seek_pos, hpos]
    simp
  | succ n ih =>
    have hk : k < lines.length := by omega
    rw [List.drop_eq_getElem_cons hk] at hrest
    have hnext := (gets_cons hrest).2
    have hpos' : (f.seek (f.pos + lines[k].length)).pos = base + offset lines (k + 1) := by
      rw [offset_succ hk, ← Nat.add_assoc, ← hpos]
      rfl
    have hrounds := fun positions => ih positions (by omega) hnext hpos'
    have hstep : (f.seek (f.pos + lines[k].length)).pos = f.pos + lines[k].length := rfl
    rw [hstep] at hrounds
    rw [scan_cons _ _ hrest, ← inside_succ hk, hrounds, Handle.seek_seek, List.range'_succ]
    simp only [← isHeading_iff hk]
    by_cases hheading : IsHeading lines k
    · simp [hheading, hpos]
    · simp [hheading]

end Scan

namespace Deck

/-- The front matter. -/
def yaml (d : Deck) : Bytes := front (eachLine d.content)

/-- The lines behind the front matter. -/
def lines (d : Deck) : List Bytes := body (eachLine d.content)

/-- How many pages there are. -/
def size (d : Deck) : Nat := (headings d.lines).length

/-- Where the lines begin. -/
def base (d : Deck) : Nat := d.content.length - d.lines.flatten.length

def positions (d : Deck) : List Nat := (bounds d.lines).map fun k => d.base + offset d.lines k

variable (d : Deck)

theorem size_two : 2 ≤ d.size := d.two

theorem positions_length : d.positions.length = d.size + 1 := by
  unfold positions size
  rw [List.length_map, bounds_length]

theorem exists_base : openDeck d.content = (d.yaml, ⟨d.content, d.base⟩) ∧ d.base ≤ d.content.length ∧
    eachLine (d.content.drop d.base) = d.lines := by
  obtain ⟨pos, hopen, hle, hrest⟩ := openDeck_eq d.content
  have hflatten := congrArg List.length (eachLine_flatten (d.content.drop pos))
  rw [hrest, List.length_drop] at hflatten
  have hpos : d.base = pos := by
    unfold base lines
    omega
  rw [hpos]
  exact ⟨hopen, hle, hrest⟩

theorem drop_base : d.content.drop d.base = d.lines.flatten := by
  have hflatten := eachLine_flatten (d.content.drop d.base)
  rw [d.exists_base.2.2] at hflatten
  exact hflatten.symm

theorem isLines : IsLines d.lines := by
  rw [← d.exists_base.2.2]
  exact isLines_eachLine _

theorem base_add : d.base + offset d.lines d.lines.length = d.content.length := by
  have hlength := congrArg List.length d.drop_base
  have hle := d.exists_base.2.1
  rw [List.length_drop] at hlength
  rw [offset, List.take_length]
  omega

theorem scan_base : scan [] false d.base ⟨d.content, d.base⟩ = (d.positions, ⟨d.content, d.content.length⟩) := by
  have hbegin : eachLine (⟨d.content, d.base⟩ : Handle).rest = d.lines.drop 0 := d.exists_base.2.2
  have hscan := scan_eq [] d.base (Nat.zero_add _) hbegin rfl
  rw [d.base_add, ← List.range_eq_range'] at hscan
  exact hscan

theorem page_begins {i : Nat} (hi : i < d.size) :
    (∃ first rest, page d.lines i = first :: rest ∧ heading <+: first) ∧ inside (page d.lines i) = false :=
  page_heading d.balanced hi

/-- What `refresh` does with a deck. -/
theorem refresh_eq {F : Type} (floats : Floats F) (path : String) (pageW : Int) :
    refresh floats path (some d.content) pageW =
      loadConfig d.yaml >>= fun config => configure floats ⟨d.content, d.content.length⟩ d.positions config pageW := by
  have hthree : ¬ d.positions.length < 3 := by
    have htwo := d.size_two
    rw [positions_length]
    omega
  unfold refresh
  dsimp only
  rw [d.exists_base.1]
  dsimp only
  rw [d.scan_base, if_neg hthree]

end Deck

end PicoRuby.Rapicco
