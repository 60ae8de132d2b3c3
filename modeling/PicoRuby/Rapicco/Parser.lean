import PicoRuby.Http.Response
import PicoRuby.Shared.Results
import PicoRuby.Vfs.File
import PicoRuby.Yaml.Parser

/-!
# Rapicco::Parser

The lines of a page as they are drawn. A String is the list of its bytes, and a Symbol has its name.
-/

namespace PicoRuby.Rapicco

open Shared Vfs
open Http (ascii space toI words)

set_option autoImplicit false

/-- What ends a method. `raised` is what the code of a deck, or drawing it, raises. -/
inductive Failure where
  | runtimeError (message : String)
  | noMethodError
  | typeError
  | argumentError
  | zeroDivisionError
  | raised (message : String)
deriving DecidableEq, Repr

/-- A Symbol, or a value of the front matter as it is. -/
inductive Name where
  | symbol (name : Bytes)
  | value (v : Yaml.Value)
deriving Repr

structure Segment where
  div : Bytes
  color : Name
deriving Repr

inductive Block where
  | code
  | eval
deriving DecidableEq, Repr

inductive Line where
  | note (line : Bytes)
  | block (key : Block) (lines : List Bytes)
  | skip (count : Int)
  | text (font : Name) (text : List Segment) (bullet : Bool) (scale : Option Int) (align : Option Bytes)
deriving Repr

/-- `align` is the name of a Symbol. -/
structure Parser where
  font : Name
  titleFont : Name
  boldColor : Name
  align : Bytes
  lines : List Line
  inCodeBlock : Option Block
deriving Repr

def backquote : UInt8 := 0x60

def sharp : UInt8 := 0x23

def dash : UInt8 := 0x2D

def star : UInt8 := 0x2A

def backslash : UInt8 := 0x5C

def leftBrace : UInt8 := 0x7B

def rightBrace : UInt8 := 0x7D

def comma : UInt8 := 0x2C

def equals : UInt8 := 0x3D

def fence : Bytes := [backquote, backquote, backquote]

def heading : Bytes := [sharp, space]

def left : Bytes := ascii "left"

def white : Name := .symbol (ascii "white")

/-- `Rapicco::Parser.new`. -/
def Parser.new : Parser where
  font := .symbol (ascii "terminus_6x12")
  titleFont := .symbol (ascii "terminus_8x16")
  boldColor := .symbol (ascii "red")
  align := left
  lines := []
  inCodeBlock := none

/-! ## Inside a line -/

/-- What is before the closing brace and what is behind it. -/
def braced : Bytes → Bytes × Bytes
  | [] => ([], [])
  | c :: s => if c = rightBrace then ([], s) else (c :: (braced s).1, (braced s).2)

/-- The text of a span and what is behind the closing asterisk. -/
def spanText : Bytes → Bytes × Bytes
  | [] => ([], [])
  | [c] => if c = star then ([], []) else ([c], [])
  | c :: d :: s =>
    if c = star then ([], d :: s)
    else if c = backslash ∧ d = star then (star :: (spanText s).1, (spanText s).2)
    else (c :: (spanText (d :: s)).1, (spanText (d :: s)).2)

/-- The colour of a span and what is behind it. -/
def spanColor (boldColor : Name) : Bytes → Name × Bytes
  | [] => (boldColor, [])
  | c :: s =>
    if c = leftBrace then (if (braced s).1 = [] then boldColor else .symbol (braced s).1, (braced s).2)
    else (boldColor, c :: s)

theorem braced_length (s : Bytes) : (braced s).2.length ≤ s.length := by
  induction s with
  | nil => exact Nat.le_refl 0
  | cons c s ih =>
    rw [braced]
    split
    · simp
    · simp
      omega

theorem spanText_length (s : Bytes) : (spanText s).2.length ≤ s.length := by
  induction s using spanText.induct with
  | case1 => exact Nat.le_refl 0
  | case2 => simp [spanText]
  | case3 c h => simp [spanText, h]
  | case4 d s => simp [spanText]
  | case5 c d s hc h ih =>
    rw [spanText, if_neg hc, if_pos h]
    simp
    omega
  | case6 c d s hc h ih =>
    rw [spanText, if_neg hc, if_neg h]
    simp at ih ⊢
    omega

theorem spanColor_length (boldColor : Name) (s : Bytes) : (spanColor boldColor s).2.length ≤ s.length := by
  cases s with
  | nil => simp [spanColor]
  | cons c s =>
    have hle := braced_length s
    rw [spanColor]
    split <;> simp
    omega

/-- `parse_inline`, with what has been read of a segment. -/
def parseInline (baseColor boldColor : Name) (buf : Bytes) : Bytes → List Segment
  | [] => if buf = [] then [] else [⟨buf, baseColor⟩]
  | c :: s =>
    if c = backslash ∧ (s.head? = some star ∨ s.head? = some leftBrace ∨ s.head? = some rightBrace) then
      parseInline baseColor boldColor (buf ++ s.take 1) (s.drop 1)
    else if c = star then
      (if buf = [] then [] else [⟨buf, baseColor⟩]) ++
        ⟨(spanText (spanColor boldColor s).2).1, (spanColor boldColor s).1⟩ ::
          parseInline baseColor boldColor [] (spanText (spanColor boldColor s).2).2
    else parseInline baseColor boldColor (buf ++ [c]) s
termination_by s => s.length
decreasing_by
  · rw [List.length_drop, List.length_cons]
    omega
  · have htext := spanText_length (spanColor boldColor s).2
    have hcolor := spanColor_length boldColor s
    rw [List.length_cons]
    omega
  · rw [List.length_cons]
    omega

/-- `parse_attrs`. -/
def parseAttrs (str : Bytes) : List (Bytes × Bytes) :=
  (words (str.map fun c => if c = comma then space else c) []).foldl (fun h pair =>
    match pair.dropWhile (· ≠ equals) with
    | [] => h
    | _ :: val => hashSet h (pair.takeWhile (· ≠ equals)) val) []

/-- The attributes and the text behind them. -/
def attributes (s : Bytes) : List (Bytes × Bytes) × Bytes :=
  if s.head? = some leftBrace then
    (parseAttrs (braced s.tail).1, (braced s.tail).2.dropWhile (· = space))
  else ([], s)

namespace Parser

def defaultFont (p : Parser) (prefixChar : Option UInt8) : Name :=
  if prefixChar = some sharp then p.titleFont else p.font

/-- A line of text. -/
def textLine (p : Parser) (line : Bytes) : Line :=
  let prefixChar := line.head?
  let marked := prefixChar = some sharp ∨ prefixChar = some dash
  let (attrs, src) := attributes ((if marked then line.tail else line).dropWhile (· = space))
  let attr := fun key => hashGet attrs (ascii key)
  let align := (attr "align").getD (if prefixChar = some sharp then ascii "center" else p.align)
  let scale := ((attr "scale").map toI).getD 1
  let bullet := ((attr "bullet").map fun s => decide (s = ascii "true")).getD (decide (prefixChar = some dash))
  let lineColor := ((attr "color").map Name.symbol).getD white
  match attr "skip" with
  | some count => .skip (toI count)
  | none =>
    .text (((attr "font").map Name.symbol).getD (p.defaultFont prefixChar)) (parseInline lineColor p.boldColor [] src)
      bullet (if 1 < scale then some scale else none) (if align = left then none else some align)

/-- A line inside a code block. The condition `@in_code_block = :eval` is an assignment. -/
def codeLine (p : Parser) (key : Block) (line : Bytes) : Except Failure Parser :=
  match p.lines.getLast? with
  | none => .error .noMethodError
  | some last =>
    let opened := { p with lines := p.lines ++ [.block key [ascii "# ==== eval ====", line]], inCodeBlock := some .eval }
    match last with
    | .block last lines =>
      if last = key then .ok { p with lines := p.lines.dropLast ++ [.block key (lines ++ [line])] } else .ok opened
    | _ => .ok opened

def parse (p : Parser) (rawLine : Bytes) : Except Failure Parser :=
  let line := chomp rawLine
  if rawLine = [] ∨ line = [] ∧ p.inCodeBlock = none then .ok p
  else if fence <+: line then
    match p.inCodeBlock with
    | some _ => .ok { p with inCodeBlock := none }
    | none => .ok { p with inCodeBlock := some (if ascii "```eval" <+: line then .eval else .code) }
  else
    match p.inCodeBlock with
    | some key => p.codeLine key line
    | none =>
      if ascii "> " <+: line then .ok { p with lines := p.lines ++ [.note line] }
      else if ascii "<!--" <+: line then .ok p
      else .ok { p with lines := p.lines ++ [p.textLine line] }

def dump (p : Parser) : List Line × Parser := (p.lines, { p with lines := [] })

end Parser

/-! ## What a line leaves -/

theorem chomp_append (s : Bytes) :
    ∃ ending, chomp s ++ ending = s ∧ ∀ c ∈ ending, c = newline ∨ c = carriageReturn := by
  unfold chomp
  split
  · rename_i hlast
    have hs := List.dropLast_append_getLast? newline hlast
    split
    · rename_i hreturn
      refine ⟨[carriageReturn, newline], ?_, by simp⟩
      rw [← List.dropLast_append_getLast? carriageReturn hreturn, List.append_assoc] at hs
      exact hs
    · exact ⟨[newline], hs, by simp⟩
  · split
    · rename_i hlast
      exact ⟨[carriageReturn], List.dropLast_append_getLast? carriageReturn hlast, by simp⟩
    · exact ⟨[], List.append_nil s, by simp⟩

theorem prefix_chomp_iff {pattern : Bytes} (hnewline : newline ∉ pattern) (hreturn : carriageReturn ∉ pattern)
    (s : Bytes) : pattern <+: chomp s ↔ pattern <+: s := by
  obtain ⟨ending, hs, hending⟩ := chomp_append s
  have hchomp : chomp s <+: s := ⟨ending, hs⟩
  constructor
  · intro hpattern
    exact hpattern.trans hchomp
  · intro hpattern
    rcases List.prefix_or_prefix_of_prefix hpattern hchomp with hle | ⟨more, rfl⟩
    · exact hle
    · obtain ⟨rest, hrest⟩ := hpattern
      have hmore : more ++ rest = ending := by
        rw [List.append_assoc] at hrest
        exact List.append_cancel_left (hrest.trans hs.symm)
      cases more with
      | nil => simp
      | cons c more =>
        have hc : c ∈ chomp s ++ c :: more := by simp
        rcases hending c (by simp [← hmore]) with heq | heq
        · exact absurd (heq ▸ hc) hnewline
        · exact absurd (heq ▸ hc) hreturn

theorem fence_chomp (s : Bytes) : fence <+: chomp s ↔ fence <+: s :=
  prefix_chomp_iff (by decide) (by decide) s

theorem heading_chomp (s : Bytes) : heading <+: chomp s ↔ heading <+: s :=
  prefix_chomp_iff (by decide) (by decide) s

theorem not_fence_of_heading {line : Bytes} (h : heading <+: line) : ¬ fence <+: line := by
  obtain ⟨more, rfl⟩ := h
  simp [heading, fence, sharp, backquote]

namespace Parser
variable {p q : Parser} {line : Bytes} {last : Line}

/-- A line is no access to a line that is not there, if a code block never comes first. -/
structure Leaves (p q : Parser) (line : Bytes) : Prop where
  inside : q.inCodeBlock.isSome = (p.inCodeBlock.isSome ^^ decide (fence <+: line))
  lines : p.lines ≠ [] → q.lines ≠ []

/-- The second line of a code block goes into one that is run. -/
theorem codeLine_twice (h : p.lines.getLast? = some last) (hlast : ∀ key lines, last ≠ .block key lines)
    (first second : Bytes) : ∃ q, p.codeLine .code first = .ok q ∧ q.inCodeBlock = some .eval ∧
      ∃ q', q.codeLine .eval second = .ok q' ∧
        q'.lines = q.lines ++ [.block .eval [ascii "# ==== eval ====", second]] := by
  have hfirst : p.codeLine .code first =
      .ok { p with lines := p.lines ++ [.block .code [ascii "# ==== eval ====", first]], inCodeBlock := some .eval } := by
    unfold codeLine
    rw [h]
    dsimp only
    split
    · exact absurd rfl (hlast _ _)
    · rfl
  refine ⟨_, hfirst, rfl, ?_⟩
  unfold codeLine
  simp

theorem codeLine_ok (key : Block) (line : Bytes) (h : p.lines ≠ []) :
    ∃ q, p.codeLine key line = .ok q ∧ q.lines ≠ [] ∧ (p.inCodeBlock.isSome → q.inCodeBlock.isSome) := by
  obtain ⟨last, hlast⟩ := Option.ne_none_iff_exists'.mp (mt List.getLast?_eq_none_iff.mp h)
  unfold codeLine
  rw [hlast]
  dsimp only
  split
  · split
    · exact ⟨_, rfl, by simp, id⟩
    · exact ⟨_, rfl, by simp, fun _ => rfl⟩
  · exact ⟨_, rfl, by simp, fun _ => rfl⟩

theorem parse_ok (h : p.inCodeBlock.isSome → p.lines ≠ []) : ∃ q, p.parse line = .ok q ∧ p.Leaves q line := by
  unfold parse
  dsimp only
  split
  · rename_i hblank
    refine ⟨p, rfl, ?_, id⟩
    have hfence : ¬ fence <+: line := by
      rw [← fence_chomp]
      rcases hblank with hnil | ⟨hnil, -⟩
      · simp [hnil, chomp, fence]
      · simp [hnil, fence]
    simp [hfence]
  · simp only [fence_chomp]
    cases hinside : p.inCodeBlock with
    | none =>
      dsimp only
      split
      · rename_i hfence
        exact ⟨_, rfl, by simp [hinside, hfence], id⟩
      · rename_i hfence
        split
        · exact ⟨_, rfl, by simp [hinside, hfence], by simp⟩
        · split
          · exact ⟨_, rfl, by simp [hinside, hfence], id⟩
          · exact ⟨_, rfl, by simp [hinside, hfence], by simp⟩
    | some key =>
      rw [hinside] at h
      dsimp only
      split
      · rename_i hfence
        exact ⟨_, rfl, by simp [hinside, hfence], id⟩
      · rename_i hfence
        obtain ⟨q, hq, hlines, hstays⟩ := codeLine_ok key (chomp line) (h rfl)
        rw [hinside] at hstays
        exact ⟨q, hq, by simp [hinside, hfence, hstays rfl], fun _ => hlines⟩

/-- A heading is a line of its own. -/
theorem parse_heading (houtside : p.inCodeBlock = none) (h : heading <+: line) :
    ∃ q, p.parse line = .ok q ∧ q.inCodeBlock = none ∧ q.lines ≠ [] := by
  have hchomp := (heading_chomp line).mpr h
  have hfence := not_fence_of_heading hchomp
  obtain ⟨more, hmore⟩ := hchomp
  have hnote : ¬ ascii "> " <+: chomp line := by
    intro hprefix
    have hbytes : [0x3E, 0x20] <+: chomp line := hprefix
    simp [← hmore, heading, sharp] at hbytes
  have hcomment : ¬ ascii "<!--" <+: chomp line := by
    intro hprefix
    have hbytes : [0x3C, 0x21, 0x2D, 0x2D] <+: chomp line := hprefix
    simp [← hmore, heading, sharp] at hbytes
  have hne : chomp line ≠ [] := by simp [← hmore, heading]
  have hraw : line ≠ [] := by
    rintro rfl
    simp [heading] at h
  unfold parse
  dsimp only
  rw [if_neg (by simp [hraw, hne]), if_neg hfence, houtside]
  dsimp only
  rw [if_neg hnote, if_neg hcomment]
  exact ⟨_, rfl, rfl, by simp⟩

end Parser

end PicoRuby.Rapicco
