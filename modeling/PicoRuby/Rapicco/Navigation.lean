import PicoRuby.Rapicco.Deck
import PicoRuby.Shared.Runs

/-!
# Navigation in a deck

`Rapicco#run`: the keys that turn a page or read the deck again, and the clock that moves the tortoise.
-/

namespace PicoRuby.Rapicco

open Shared Vfs

set_option autoImplicit false

variable {F : Type}

/-! ## run -/

/-- `Integer#/`. -/
def divide (a b : Int) : Except Failure Int := if b = 0 then .error .zeroDivisionError else .ok (a.fdiv b)

namespace Presentation

/-- `@positions[page]`. -/
def position (r : Presentation F) (page : Int) : Option Nat :=
  (placeOf r.positions.length page).bind fun i => r.positions[i]?

/-- `@file.seek(...)` and `@file.read(...)`. -/
def pageData (r : Presentation F) (page : Int) : Except Failure (Option Bytes × Handle) :=
  match r.position page, r.position (page + 1) with
  | none, _ => .error .typeError
  | some _, none => .error .noMethodError
  | some first, some next =>
    if next < first then .error .argumentError else .ok ((r.file.seek first).read (next - first))

/-- The lines that a page is drawn from. -/
def parsePage (r : Presentation F) (page : Int) : Except Failure (List Line × Presentation F) := do
  let (pageData, file) ← r.pageData page
  let parser ← (eachLine (pageData.getD [])).foldlM Parser.parse r.parser
  let (lines, parser) := parser.dump
  .ok (lines, { r with file, parser })

def renderPage (t : Terminal) (r : Presentation F) (page : Int) : Except Failure (Presentation F) :=
  if page = r.currentPage then .ok r
  else do
    let (lines, r) ← r.parsePage page
    t.renderSlide r.slide lines
    let pos ← divide (page * 100) (r.positions.length - 2)
    match lines.getLast? with
    | none => .error .noMethodError
    | some _ => .ok { r with currentPage := page, rapiko := { r.rapiko with pos } }

def prevPage (t : Terminal) (r : Presentation F) : Except Failure (Presentation F) :=
  r.renderPage t (max 0 (r.currentPage - 1))

def nextPage (t : Terminal) (r : Presentation F) : Except Failure (Presentation F) :=
  r.renderPage t (min (r.positions.length - 2) (r.currentPage + 1))

end Presentation

/-- The local variables of `run`. -/
structure Loop (F : Type) where
  presentation : Presentation F
  start : Int
  now : F

/-- A key is read, or not, when the terminal is such; or the clock is read, twice where a tick is due. -/
inductive Event where
  | key (c : Option Nat) (t : Terminal)
  | tick (time time' : Int)

section Run
variable (floats : Floats F) (path : String) (content : Option Bytes)

def press (t : Terminal) (r : Presentation F) : Option Nat → Except Failure (Presentation F)
  | some 12 => do
    let currentPage := r.currentPage
    let r ← refresh floats path content t.pageW
    { r with currentPage := currentPage - 1 }.nextPage t
  | some 104 => r.prevPage t
  | some 108 => r.nextPage t
  | _ => .ok r

def isDue (s : Loop F) (time : Int) : Bool := floats.less (floats.add s.now s.presentation.interval) time

def tick (s : Loop F) (time time' : Int) : Except Failure (Loop F) :=
  if isDue floats s time then do
    let pos ← divide ((time' - s.start) * 100) s.presentation.duration
    .ok {
      s with
      presentation := { s.presentation with camerlengo := { s.presentation.camerlengo with pos } }
      now := floats.add s.now s.presentation.interval }
  else .ok s

def step (s : Loop F) : Event → Except Failure (Loop F)
  | .key c t => (press floats path content t s.presentation c).map fun presentation => { s with presentation }
  | .tick time time' => tick floats s time time'

/-- `Rapicco.new(path).run` up to the last of the events; an Interrupt may follow. -/
def run (t : Terminal) (start : Int) (events : List Event) : Except Failure (Loop F) := do
  let r ← refresh floats path content t.pageW
  let r ← r.nextPage t
  events.foldlM (step floats path content) ⟨r, start, floats.ofInt start⟩

end Run

/-! ## Front matter -/

def HasToI (v : Yaml.Value) : Prop := ∃ s, v = .scalar s ∧ ∀ b, s ≠ .boolean b

def IsString (v : Yaml.Value) : Prop := ∃ s, v = .scalar (.string s)

def IsAuthor (v : Yaml.Value) : Prop := ∃ author ∈ authors, v = .scalar (.string author)

/-- Settings that `refresh` can make use of. A duration of 0 is among them. -/
structure Usable (config : Config) : Prop where
  sprite : ∀ v ∈ config.setting "sprite", IsAuthor v
  align : ∀ v ∈ config.setting "align", IsString v
  lineMargin : ∀ v ∈ config.setting "line_margin", HasToI v
  codeIndent : ∀ v ∈ config.setting "code_indent", HasToI v
  duration : HasToI (config.get "duration")
  noteColor : config.get "note_color" ≠ .scalar .null → IsString (config.get "note_color")

theorem toI_ok_iff {v : Yaml.Value} : (∃ i, toI v = .ok i) ↔ HasToI v := by
  constructor
  · rintro ⟨i, hi⟩
    cases v with
    | scalar s =>
      refine ⟨s, rfl, ?_⟩
      rintro b rfl
      cases hi
    | hash entries => cases hi
    | array items => cases hi
  · rintro ⟨s, rfl, hs⟩
    cases s with
    | boolean b => exact absurd rfl (hs b)
    | _ => exact ⟨_, rfl⟩

theorem toSym_ok_iff {v : Yaml.Value} : (∃ name, toSym v = .ok name) ↔ IsString v := by
  constructor
  · rintro ⟨name, hname⟩
    unfold toSym at hname
    split at hname
    · exact ⟨_, rfl⟩
    · cases hname
  · rintro ⟨s, rfl⟩
    exact ⟨_, rfl⟩

theorem toColor_ok_iff {v : Yaml.Value} :
    (∃ name, toColor v = .ok name) ↔ (v ≠ .scalar .null → IsString v) := by
  unfold toColor
  split
  · simp
  · rename_i hnull
    rw [toSym_ok_iff]
    constructor
    · exact fun hstring _ => hstring
    · exact fun h => h hnull

theorem spriteNew_ok_iff {v : Yaml.Value} : (∃ sprite, Sprite.new v = .ok sprite) ↔ IsAuthor v := by
  constructor
  · rintro ⟨sprite, hsprite⟩
    unfold Sprite.new at hsprite
    split at hsprite
    · split at hsprite
      · exact ⟨_, by assumption, rfl⟩
      · cases hsprite
    · cases hsprite
  · rintro ⟨author, hauthor, rfl⟩
    refine ⟨⟨author, 0⟩, ?_⟩
    rw [Sprite.new, if_pos hauthor]

theorem elim_ok_iff {α : Type} {v : Option Yaml.Value} {default : α} {f : Yaml.Value → Except Failure α} :
    (∃ a, v.elim (.ok default) f = .ok a) ↔ ∀ w ∈ v, ∃ a, f w = .ok a := by
  cases v with
  | none => simp
  | some w => simp

theorem isAuthor_getD {v : Option Yaml.Value} :
    IsAuthor (v.getD (.scalar (.string "hasumikin".toList))) ↔ ∀ w ∈ v, IsAuthor w := by
  cases v with
  | none =>
    have hdefault : "hasumikin".toList ∈ authors := by decide
    simpa [IsAuthor] using hdefault
  | some w => simp

/-- What `refresh` begins with. -/
structure Fresh (file : Handle) (positions : List Nat) (r : Presentation F) : Prop where
  file : r.file = file
  positions : r.positions = positions
  currentPage : r.currentPage = -1
  lines : r.parser.lines = []
  outside : r.parser.inCodeBlock = none

section Configure
variable {floats : Floats F} {file : Handle} {positions : List Nat} {config : Config} {pageW : Int}
  {r : Presentation F}

theorem configure_ok (h : configure floats file positions config pageW = .ok r) :
    Usable config ∧ Fresh file positions r := by
  unfold configure at h
  dsimp only at h
  obtain ⟨rapiko, hsprite, h⟩ := bind_eq_ok.mp h
  obtain ⟨camerlengo, -, h⟩ := bind_eq_ok.mp h
  obtain ⟨align, halign, h⟩ := bind_eq_ok.mp h
  obtain ⟨lineMargin, hmargin, h⟩ := bind_eq_ok.mp h
  obtain ⟨codeIndent, hindent, h⟩ := bind_eq_ok.mp h
  obtain ⟨bullet, -, h⟩ := bind_eq_ok.mp h
  obtain ⟨duration, hduration, h⟩ := bind_eq_ok.mp h
  obtain ⟨noteColor, hcolor, h⟩ := bind_eq_ok.mp h
  cases h
  refine ⟨⟨?_, ?_, ?_, ?_, ?_, ?_⟩, rfl, rfl, rfl, rfl, rfl⟩
  · exact isAuthor_getD.mp (spriteNew_ok_iff.mp ⟨rapiko, hsprite⟩)
  · exact fun v hv => toSym_ok_iff.mp (elim_ok_iff.mp ⟨align, halign⟩ v hv)
  · exact fun v hv => toI_ok_iff.mp (elim_ok_iff.mp ⟨lineMargin, hmargin⟩ v hv)
  · exact fun v hv => toI_ok_iff.mp (elim_ok_iff.mp ⟨codeIndent, hindent⟩ v hv)
  · exact toI_ok_iff.mp ⟨duration, hduration⟩
  · exact toColor_ok_iff.mp ⟨noteColor, hcolor⟩

theorem configure_of_usable (h : Usable config) : ∃ r, configure floats file positions config pageW = .ok r := by
  obtain ⟨sprite, hsprite⟩ := spriteNew_ok_iff.mpr (isAuthor_getD.mpr h.sprite)
  obtain ⟨align, halign⟩ := elim_ok_iff.mpr fun v hv => toSym_ok_iff.mpr (h.align v hv)
  obtain ⟨lineMargin, hmargin⟩ := elim_ok_iff.mpr fun v hv => toI_ok_iff.mpr (h.lineMargin v hv)
  obtain ⟨codeIndent, hindent⟩ := elim_ok_iff.mpr fun v hv => toI_ok_iff.mpr (h.codeIndent v hv)
  obtain ⟨duration, hduration⟩ := toI_ok_iff.mpr h.duration
  obtain ⟨noteColor, hcolor⟩ := toColor_ok_iff.mpr h.noteColor
  unfold configure
  dsimp only
  rw [bind_of_ok hsprite, bind_of_ok hsprite, bind_of_ok halign, bind_of_ok hmargin, bind_of_ok hindent,
    bind_of_ok hsprite, bind_of_ok hduration, bind_of_ok hcolor]
  exact ⟨_, rfl⟩

end Configure

/-! ## A page -/

/-- The lines behind a heading, which are in the page with it. -/
theorem Parser.parse_lines {p : Parser} (h : p.lines ≠ []) (lines : List Bytes) :
    ∃ q, lines.foldlM Parser.parse p = .ok q ∧ q.lines ≠ [] ∧
      q.inCodeBlock.isSome = (p.inCodeBlock.isSome ^^ inside lines) := by
  induction lines generalizing p with
  | nil => exact ⟨p, rfl, h, by simp [inside, fences]⟩
  | cons line lines ih =>
    have hline : ∃ q, p.parse line = .ok q ∧ p.Leaves q line := Parser.parse_ok fun _ => h
    obtain ⟨q, hq, hleaves⟩ := hline
    obtain ⟨q', hq', hlines, hinside⟩ := ih (hleaves.lines h)
    refine ⟨q', ?_, hlines, ?_⟩
    · rw [List.foldlM_cons, bind_of_ok hq]
      exact hq'
    · rw [hinside, hleaves.inside, ← List.singleton_append, inside_append, inside_singleton, Bool.xor_assoc]

/-- A page of a deck is read without an access to a line that is not there. -/
theorem Deck.parse_page (d : Deck) {p : Parser} {i : Nat} (hi : i < d.size) (houtside : p.inCodeBlock = none) :
    ∃ q, (page d.lines i).foldlM Parser.parse p = .ok q ∧ q.lines ≠ [] ∧ q.inCodeBlock = none := by
  obtain ⟨⟨first, rest, hpage, hheading⟩, hinside⟩ := d.page_begins hi
  obtain ⟨q, hq, hqout, hqlines⟩ := Parser.parse_heading houtside hheading
  obtain ⟨q', hq', hlines, hqinside⟩ := Parser.parse_lines hqlines rest
  refine ⟨q', ?_, hlines, ?_⟩
  · rw [hpage, List.foldlM_cons, bind_of_ok hq]
    exact hq'
  · have hfirst : inside [first] = false := by
      rw [inside_singleton]
      exact decide_eq_false (not_fence_of_heading hheading)
    rw [hpage, ← List.singleton_append, inside_append, hfirst, Bool.false_xor] at hinside
    rw [hqout, hinside] at hqinside
    exact Option.not_isSome_iff_eq_none.mp (by simp [hqinside])

/-- What every method finds and leaves. -/
structure Opened (d : Deck) (r : Presentation F) : Prop where
  content : r.file.content = d.content
  positions : r.positions = d.positions
  lines : r.parser.lines = []
  outside : r.parser.inCodeBlock = none

/-- The bytes from a heading up to the next one, and the file behind them. -/
def Deck.pageData (d : Deck) (i : Nat) : Option Bytes × Handle :=
  (some (page d.lines i).flatten, ⟨d.content, d.base + offset d.lines (bound d.lines (i + 1))⟩)

section Render
variable {d : Deck} {r : Presentation F} {t : Terminal} {i : Nat}

theorem Opened.position_eq (h : Opened d r) (hi : i ≤ d.size) :
    r.position i = some (d.base + offset d.lines (bound d.lines i)) := by
  have hlt : i < (bounds d.lines).length := by
    rw [bounds_length]
    exact Nat.lt_succ_of_le hi
  unfold Presentation.position
  rw [placeOf_natCast, Option.bind_some, h.positions, Deck.positions, List.getElem?_map, bound_eq hlt, Option.map_some]

theorem Opened.pageData_eq (h : Opened d r) (hi : i < d.size) : r.pageData i = .ok (d.pageData i) := by
  have hnext : r.position (i + 1) = some (d.base + offset d.lines (bound d.lines (i + 1))) := h.position_eq hi
  have hsize : offset d.lines (bound d.lines (i + 1)) =
      offset d.lines (bound d.lines i) + (page d.lines i).flatten.length := offset_bound hi
  have hrest : (r.file.seek (d.base + offset d.lines (bound d.lines i))).rest =
      (page d.lines i).flatten ++ (d.lines.drop (bound d.lines (i + 1))).flatten := by
    unfold Handle.rest
    rw [Handle.seek_content, h.content, ← drop_offset hi, ← d.drop_base, List.drop_drop]
    rfl
  have htake : (r.file.seek (d.base + offset d.lines (bound d.lines i))).rest.take (page d.lines i).flatten.length =
      (page d.lines i).flatten := by
    rw [hrest]
    exact List.take_left
  have hne : (page d.lines i).flatten ≠ [] := by
    obtain ⟨⟨first, rest, hpage, hheading⟩, -⟩ := d.page_begins hi
    obtain ⟨more, rfl⟩ := hheading
    simp [hpage, heading]
  unfold Presentation.pageData
  rw [h.position_eq (Nat.le_of_lt hi), hnext]
  dsimp only
  have hlength : d.base + offset d.lines (bound d.lines (i + 1)) - (d.base + offset d.lines (bound d.lines i)) =
      (page d.lines i).flatten.length := by omega
  rw [if_neg (by omega), hlength, Handle.read, htake, if_neg hne, Handle.seek_seek]
  have hpos : (r.file.seek (d.base + offset d.lines (bound d.lines i))).pos + (page d.lines i).flatten.length =
      d.base + offset d.lines (bound d.lines (i + 1)) := by
    rw [hsize, ← Nat.add_assoc]
    rfl
  rw [hpos]
  unfold Handle.seek Deck.pageData
  rw [h.content]

theorem Opened.parsePage_ok (h : Opened d r) (hi : i < d.size) :
    ∃ lines r', r.parsePage i = .ok (lines, r') ∧ lines ≠ [] ∧ Opened d r' ∧ r'.currentPage = r.currentPage := by
  obtain ⟨q, hq, hlines, houtside⟩ := d.parse_page hi h.outside
  have heach : eachLine (page d.lines i).flatten = page d.lines i := ((d.isLines.take _).drop _).eachLine_eq
  refine ⟨q.lines, { r with file := (d.pageData i).2, parser := { q with lines := [] } }, ?_, hlines, ?_, rfl⟩
  · unfold Presentation.parsePage
    rw [bind_of_ok (h.pageData_eq hi)]
    dsimp only [Deck.pageData, Option.getD_some]
    rw [heach, bind_of_ok hq]
    rfl
  · exact ⟨rfl, h.positions, rfl, houtside⟩

/-- Drawing the page does not raise, if it is drawn. -/
def Draws (t : Terminal) (r : Presentation F) (page : Int) : Prop :=
  page ≠ r.currentPage → ∀ lines r', r.parsePage page = .ok (lines, r') → t.renderSlide r'.slide lines = .ok ()

/-- Behind the drawing nothing can fail. -/
theorem Opened.drawn (h : Opened d r) {lines : List Line} (hlines : lines ≠ []) (page : Int) :
    ∃ r', (divide (page * 100) (r.positions.length - 2) >>= fun pos =>
        match lines.getLast? with
        | none => Except.error Failure.noMethodError
        | some _ => Except.ok { r with currentPage := page, rapiko := { r.rapiko with pos } }) = .ok r' ∧
      Opened d r' ∧ r'.currentPage = page := by
  have hsize : (r.positions.length : Int) - 2 ≠ 0 := by
    have htwo := d.size_two
    have hlength := d.positions_length
    rw [h.positions]
    omega
  obtain ⟨last, hlast⟩ := Option.ne_none_iff_exists'.mp (mt List.getLast?_eq_none_iff.mp hlines)
  have hpos : divide (page * 100) (r.positions.length - 2) = .ok ((page * 100).fdiv (r.positions.length - 2)) :=
    if_neg hsize
  rw [bind_of_ok hpos, hlast]
  exact ⟨_, rfl, ⟨h.content, h.positions, h.lines, h.outside⟩, rfl⟩

theorem Opened.renderPage_spec (h : Opened d r) (hi : i < d.size) :
    (Draws t r i ↔ ∃ r', r.renderPage t i = .ok r') ∧
      ∀ r', r.renderPage t i = .ok r' → Opened d r' ∧ r'.currentPage = i := by
  unfold Presentation.renderPage
  by_cases hpage : (i : Int) = r.currentPage
  · rw [if_pos hpage]
    constructor
    · exact iff_of_true (fun hne => absurd hpage hne) ⟨r, rfl⟩
    · intro r' hr'
      cases hr'
      exact ⟨h, hpage.symm⟩
  · obtain ⟨lines, r', hparse, hlines, hopened, -⟩ := h.parsePage_ok hi
    have hdraws : Draws t r i ↔ t.renderSlide r'.slide lines = .ok () := by
      constructor
      · exact fun hdraws => hdraws hpage lines r' hparse
      · intro hdraw _ lines₁ r₁ hparse₁
        cases hparse.symm.trans hparse₁
        exact hdraw
    obtain ⟨r'', hdrawn, hdone⟩ := hopened.drawn hlines i
    rw [if_neg hpage, bind_of_ok hparse, hdraws]
    dsimp only
    cases hdraw : t.renderSlide r'.slide lines with
    | error e =>
      constructor
      · refine iff_of_false nofun ?_
        rintro ⟨r₁, hr₁⟩
        cases hr₁
      · intro r₁ hr₁
        cases hr₁
    | ok u =>
      rw [bind_of_ok rfl, hdrawn]
      constructor
      · exact iff_of_true rfl ⟨r'', rfl⟩
      · intro r₁ hr₁
        cases hr₁
        exact hdone

theorem parsePage_frame {page : Int} {lines : List Line} {r' : Presentation F} (h : r.parsePage page = .ok (lines, r')) :
    r'.duration = r.duration ∧ r'.interval = r.interval := by
  obtain ⟨data, -, h⟩ := bind_eq_ok.mp h
  obtain ⟨parser, -, h⟩ := bind_eq_ok.mp h
  cases h
  exact ⟨rfl, rfl⟩

theorem renderPage_frame {page : Int} {r' : Presentation F} (h : r.renderPage t page = .ok r') :
    r'.duration = r.duration ∧ r'.interval = r.interval := by
  unfold Presentation.renderPage at h
  split at h
  · cases h
    exact ⟨rfl, rfl⟩
  · obtain ⟨⟨lines, r₁⟩, hparse, h⟩ := bind_eq_ok.mp h
    obtain ⟨-, -, h⟩ := bind_eq_ok.mp h
    obtain ⟨pos, -, h⟩ := bind_eq_ok.mp h
    obtain ⟨hduration, hinterval⟩ := parsePage_frame hparse
    split at h
    · cases h
    · cases h
      exact ⟨hduration, hinterval⟩

/-- What holds before every event. -/
structure Ready (d : Deck) (r : Presentation F) : Prop extends Opened d r where
  first : 0 ≤ r.currentPage
  last : r.currentPage < d.size

theorem Opened.turn (h : Opened d r) {page : Int} (hfirst : 0 ≤ page) (hlast : page < d.size) :
    (Draws t r page ↔ ∃ r', r.renderPage t page = .ok r') ∧ ∀ r', r.renderPage t page = .ok r' → Ready d r' := by
  obtain ⟨i, rfl⟩ := Int.eq_ofNat_of_zero_le hfirst
  obtain ⟨hdraws, hready⟩ := h.renderPage_spec (t := t) (Int.ofNat_lt.mp hlast)
  refine ⟨hdraws, fun r' hr' => ?_⟩
  obtain ⟨hopened, hpage⟩ := hready r' hr'
  exact ⟨hopened, hpage ▸ hfirst, hpage ▸ hlast⟩

end Render

/-! ## Events -/

/-- The front matter is a Hash with settings that can be used. -/
def Deck.Usable (d : Deck) : Prop :=
  ∃ config, Yaml.load (characters d.yaml) = some (.hash config) ∧ Rapicco.Usable config

section Events
variable {floats : Floats F} {path : String} {d : Deck} {t : Terminal} {r : Presentation F} {s : Loop F}

theorem Deck.refresh_opened {pageW : Int} (h : refresh floats path (some d.content) pageW = .ok r) :
    d.Usable ∧ Opened d r ∧ r.currentPage = -1 := by
  rw [d.refresh_eq] at h
  obtain ⟨config, hconfig, h⟩ := bind_eq_ok.mp h
  obtain ⟨husable, hfresh⟩ := configure_ok h
  refine ⟨⟨config, ?_, husable⟩, ⟨?_, hfresh.positions, hfresh.lines, hfresh.outside⟩, hfresh.currentPage⟩
  · unfold loadConfig at hconfig
    split at hconfig
    · rename_i config' hload
      cases hconfig
      exact hload
    · cases hconfig
  · rw [hfresh.file]

variable (floats path) in
theorem Deck.Usable.refresh_ok (h : d.Usable) (pageW : Int) :
    ∃ r, refresh floats path (some d.content) pageW = .ok r := by
  obtain ⟨config, hload, husable⟩ := h
  have hconfig : loadConfig d.yaml = .ok config := by
    unfold loadConfig
    rw [hload]
  rw [d.refresh_eq, bind_of_ok hconfig]
  exact configure_of_usable husable

variable (floats path) in
/-- A page that a key leads to is drawn without an exception. -/
def Turns (content : Option Bytes) (t : Terminal) (r : Presentation F) : Option Nat → Prop
  | some 12 => ∀ r', refresh floats path content t.pageW = .ok r' →
      Draws t { r' with currentPage := r.currentPage - 1 } r.currentPage
  | some 104 => Draws t r (max 0 (r.currentPage - 1))
  | some 108 => Draws t r (min (r.positions.length - 2) (r.currentPage + 1))
  | _ => True

variable (floats path) in
/-- Where the duration is 0, no tick is due. -/
def Meets (content : Option Bytes) (s : Loop F) : Event → Prop
  | .key c t => Turns floats path content t s.presentation c
  | .tick time _ => s.presentation.duration = 0 → isDue floats s time = false

theorem Ready.reload (husable : d.Usable) (h : Ready d r) :
    (Turns floats path (some d.content) t r (some 12) ↔ ∃ r', press floats path (some d.content) t r (some 12) = .ok r') ∧
      ∀ r', press floats path (some d.content) t r (some 12) = .ok r' → Ready d r' := by
  obtain ⟨r₁, hrefresh⟩ := husable.refresh_ok floats path t.pageW
  obtain ⟨-, hopened, -⟩ := Deck.refresh_opened hrefresh
  have hlength := d.positions_length
  have hfirst := h.first
  have hlast := h.last
  have hback : Opened d { r₁ with currentPage := r.currentPage - 1 } :=
    ⟨hopened.content, hopened.positions, hopened.lines, hopened.outside⟩
  have hpage : min ((r₁.positions.length : Int) - 2) (r.currentPage - 1 + 1) = r.currentPage := by
    rw [hopened.positions]
    omega
  have hpress : press floats path (some d.content) t r (some 12) =
      { r₁ with currentPage := r.currentPage - 1 }.renderPage t r.currentPage := by
    have hnext : { r₁ with currentPage := r.currentPage - 1 }.nextPage t =
        { r₁ with currentPage := r.currentPage - 1 }.renderPage t r.currentPage := by
      rw [Presentation.nextPage, hpage]
    exact (bind_of_ok hrefresh).trans hnext
  have hturns : Turns floats path (some d.content) t r (some 12) ↔
      Draws t { r₁ with currentPage := r.currentPage - 1 } r.currentPage := by
    constructor
    · exact fun hturns => hturns r₁ hrefresh
    · intro hdraws r' hr'
      cases hrefresh.symm.trans hr'
      exact hdraws
  rw [hpress, hturns]
  exact hback.turn hfirst hlast

variable (floats path t) in
theorem Ready.press_spec (husable : d.Usable) (h : Ready d r) (c : Option Nat) :
    (Turns floats path (some d.content) t r c ↔ ∃ r', press floats path (some d.content) t r c = .ok r') ∧
      ∀ r', press floats path (some d.content) t r c = .ok r' → Ready d r' := by
  have hlength := d.positions_length
  have htwo := d.size_two
  have hfirst := h.first
  have hlast := h.last
  have hpositions : (r.positions.length : Int) = d.size + 1 := by
    rw [h.positions, hlength]
    omega
  by_cases hreload : c = some 12
  · rw [hreload]
    exact h.reload husable
  by_cases hprev : c = some 104
  · rw [hprev]
    exact h.toOpened.turn (by omega) (by omega)
  by_cases hnext : c = some 108
  · rw [hnext]
    exact h.toOpened.turn (by omega) (by omega)
  have hpress : press floats path (some d.content) t r c = .ok r := by
    unfold press
    split
    · exact absurd rfl hreload
    · exact absurd rfl hprev
    · exact absurd rfl hnext
    · rfl
  have hturns : Turns floats path (some d.content) t r c ↔ True := by
    unfold Turns
    split
    · exact absurd rfl hreload
    · exact absurd rfl hprev
    · exact absurd rfl hnext
    · rfl
  rw [hpress, hturns]
  constructor
  · exact iff_of_true trivial ⟨r, rfl⟩
  · intro r' hr'
    cases hr'
    exact h

theorem Ready.tick_spec (h : Ready d s.presentation) (time time' : Int) :
    ((s.presentation.duration = 0 → isDue floats s time = false) ↔ ∃ s', tick floats s time time' = .ok s') ∧
      ∀ s', tick floats s time time' = .ok s' → Ready d s'.presentation := by
  unfold tick
  by_cases hdue : isDue floats s time = true
  · rw [if_pos hdue]
    by_cases hduration : s.presentation.duration = 0
    · have hraised : divide ((time' - s.start) * 100) s.presentation.duration = .error .zeroDivisionError :=
        if_pos hduration
      rw [bind_of_error hraised]
      constructor
      · refine iff_of_false (fun hmeets => ?_) (by rintro ⟨_, hs'⟩; cases hs')
        rw [hmeets hduration] at hdue
        cases hdue
      · intro s' hs'
        cases hs'
    · have hdivided : divide ((time' - s.start) * 100) s.presentation.duration =
          .ok (((time' - s.start) * 100).fdiv s.presentation.duration) := if_neg hduration
      rw [bind_of_ok hdivided]
      constructor
      · exact iff_of_true (fun hzero => absurd hzero hduration) ⟨_, rfl⟩
      · intro s' hs'
        cases hs'
        exact ⟨⟨h.content, h.positions, h.lines, h.outside⟩, h.first, h.last⟩
  · rw [if_neg hdue]
    constructor
    · exact iff_of_true (fun _ => Bool.eq_false_iff.mpr hdue) ⟨s, rfl⟩
    · intro s' hs'
      cases hs'
      exact h

variable (floats path) in
theorem Ready.step_spec (husable : d.Usable) (h : Ready d s.presentation) (e : Event) :
    (Meets floats path (some d.content) s e ↔ ∃ s', step floats path (some d.content) s e = .ok s') ∧
      ∀ s', step floats path (some d.content) s e = .ok s' → Ready d s'.presentation := by
  cases e with
  | tick time time' => exact h.tick_spec time time'
  | key c t =>
    obtain ⟨hturns, hready⟩ := h.press_spec floats path t husable c
    constructor
    · refine hturns.trans ?_
      constructor
      · rintro ⟨r', hr'⟩
        exact ⟨{ s with presentation := r' }, map_eq_ok.mpr ⟨r', hr', rfl⟩⟩
      · rintro ⟨s', hs'⟩
        obtain ⟨r', hr', -⟩ := map_eq_ok.mp hs'
        exact ⟨r', hr'⟩
    · intro s' hs'
      obtain ⟨r', hr', rfl⟩ := map_eq_ok.mp hs'
      exact hready r' hr'

end Events

/-! ## Runs -/

/-- The current page is one of the deck, and the pages are read as they are in it. -/
structure Shows (d : Deck) (r : Presentation F) : Prop where
  first : 0 ≤ r.currentPage
  last : r.currentPage < d.size
  pages : ∀ i : Nat, i < d.size → r.pageData i = .ok (d.pageData i)

theorem Ready.shows {d : Deck} {r : Presentation F} (h : Ready d r) : Shows d r where
  first := h.first
  last := h.last
  pages := fun _ hi => h.pageData_eq hi

section Runs
variable {floats : Floats F} {path : String} {d : Deck} {t : Terminal} {start : Int} {s : Loop F}

theorem run_snoc (content : Option Bytes) (pre : List Event) (e : Event) :
    run floats path content t start (pre ++ [e]) =
      run floats path content t start pre >>= fun s => step floats path content s e := by
  unfold run
  cases refresh floats path content t.pageW with
  | error e => rfl
  | ok r =>
    rw [bind_of_ok rfl, bind_of_ok rfl]
    cases r.nextPage t with
    | error e => rfl
    | ok r =>
      rw [bind_of_ok rfl, bind_of_ok rfl, List.foldlM_append]
      simp

/-- The first page. -/
theorem nextPage_first {r : Presentation F} (h : Opened d r) (hpage : r.currentPage = -1) :
    r.nextPage t = r.renderPage t 0 := by
  have hlength := d.positions_length
  have htwo := d.size_two
  have hzero : min ((r.positions.length : Int) - 2) (r.currentPage + 1) = 0 := by
    rw [h.positions, hpage]
    omega
  rw [Presentation.nextPage, hzero]

theorem run_ready {events : List Event} (h : run floats path (some d.content) t start events = .ok s) :
    d.Usable ∧ Ready d s.presentation := by
  induction events using List.reverseRecOn generalizing s with
  | nil =>
    obtain ⟨r, hrefresh, h⟩ := bind_eq_ok.mp h
    obtain ⟨r', hrender, h⟩ := bind_eq_ok.mp h
    obtain ⟨husable, hopened, hpage⟩ := Deck.refresh_opened hrefresh
    rw [nextPage_first hopened hpage] at hrender
    have htwo := d.size_two
    cases h
    exact ⟨husable, (hopened.turn (Int.le_refl 0) (by omega)).2 r' hrender⟩
  | append_singleton pre e ih =>
    rw [run_snoc] at h
    obtain ⟨s₁, hpre, hstep⟩ := bind_eq_ok.mp h
    obtain ⟨husable, hready⟩ := ih hpre
    exact ⟨husable, (hready.step_spec floats path husable e).2 s hstep⟩

theorem run_nil_iff : (∃ s, run floats path (some d.content) t start [] = .ok s) ↔
    d.Usable ∧ ∀ r, refresh floats path (some d.content) t.pageW = .ok r → Draws t r 0 := by
  have htwo := d.size_two
  constructor
  · rintro ⟨s, h⟩
    obtain ⟨r, hrefresh, h⟩ := bind_eq_ok.mp h
    obtain ⟨r', hrender, -⟩ := bind_eq_ok.mp h
    obtain ⟨husable, hopened, hpage⟩ := Deck.refresh_opened hrefresh
    rw [nextPage_first hopened hpage] at hrender
    refine ⟨husable, fun r₁ hr₁ => ?_⟩
    cases hrefresh.symm.trans hr₁
    exact (hopened.turn (Int.le_refl 0) (by omega)).1.mpr ⟨r', hrender⟩
  · rintro ⟨husable, hdraws⟩
    obtain ⟨r, hrefresh⟩ := husable.refresh_ok floats path t.pageW
    obtain ⟨-, hopened, hpage⟩ := Deck.refresh_opened hrefresh
    obtain ⟨r', hrender⟩ := (hopened.turn (Int.le_refl 0) (by omega)).1.mp (hdraws r hrefresh)
    rw [← nextPage_first hopened hpage] at hrender
    unfold run
    rw [bind_of_ok hrefresh, bind_of_ok hrender]
    exact ⟨_, rfl⟩

/-- **A deck is shown to the end** exactly where its front matter can be used, no page that is turned to raises when
it is drawn, and no tick is due while the duration is 0. -/
theorem navigates_iff (floats : Floats F) (path : String) (d : Deck) (t : Terminal) (start : Int)
    (events : List Event) :
    (List.range d.size).flatMap (page d.lines) = d.lines.drop (bound d.lines 0) ∧
    ((∀ pre, pre <+: events → ∃ s, run floats path (some d.content) t start pre = .ok s ∧ Shows d s.presentation) ↔
      (d.Usable ∧ ∀ r, refresh floats path (some d.content) t.pageW = .ok r → Draws t r 0) ∧
        ∀ pre e, pre ++ [e] <+: events → ∀ s, run floats path (some d.content) t start pre = .ok s →
          Meets floats path (some d.content) s e) := by
  constructor
  · have htile := flatMap_page (Nat.le_refl (headings d.lines).length)
    rw [bound_last, List.take_length] at htile
    exact htile
  · constructor
    · intro hall
      obtain ⟨s₀, hs₀, -⟩ := hall [] List.nil_prefix
      refine ⟨run_nil_iff.mp ⟨s₀, hs₀⟩, fun pre e hpre s hs => ?_⟩
      obtain ⟨husable, hready⟩ := run_ready hs
      obtain ⟨s', hs', -⟩ := hall (pre ++ [e]) hpre
      rw [run_snoc, bind_of_ok hs] at hs'
      exact (hready.step_spec floats path husable e).1.mpr ⟨s', hs'⟩
    · rintro ⟨hbegins, hmeets⟩ pre
      induction pre using List.reverseRecOn with
      | nil =>
        intro _
        obtain ⟨s, hs⟩ := run_nil_iff.mpr hbegins
        exact ⟨s, hs, (run_ready hs).2.shows⟩
      | append_singleton pre e ih =>
        intro hpre
        obtain ⟨s, hs, -⟩ := ih ((List.prefix_append pre [e]).trans hpre)
        obtain ⟨husable, hready⟩ := run_ready hs
        obtain ⟨s', hs'⟩ := (hready.step_spec floats path husable e).1.mp (hmeets pre e hpre s hs)
        have hrun : run floats path (some d.content) t start (pre ++ [e]) = .ok s' := by
          rw [run_snoc, bind_of_ok hs]
          exact hs'
        exact ⟨s', hrun, (run_ready hrun).2.shows⟩

end Runs

def twoPages : Deck where
  content := Http.ascii "# a\n# b\n"
  two := by decide
  balanced := by decide

theorem twoPages_usable : twoPages.Usable := by
  exact ⟨[], rfl, nofun, nofun, nofun, nofun, ⟨.null, rfl, nofun⟩, fun hnull => absurd rfl hnull⟩

/-- A terminal that draws every page. -/
def drawing : Terminal := ⟨80, fun _ _ => .ok ()⟩

/-- Floats that are whole numbers. -/
def whole : Floats Int := ⟨id, fun a b => a / b, fun a b => a + b, fun a b => decide (a < b)⟩

/-- Without front matter the duration is 0, and one second after the start the clock ends the run. -/
theorem tick_raises : twoPages.Usable ∧
    run whole "deck.md" (some twoPages.content) drawing 0 [.tick 1 1] = .error .zeroDivisionError ∧
    ¬ ∀ pre, pre <+: [Event.tick 1 1] →
      ∃ s, run whole "deck.md" (some twoPages.content) drawing 0 pre = .ok s ∧ Shows twoPages s.presentation := by
  have hraises : run whole "deck.md" (some twoPages.content) drawing 0 [.tick 1 1] = .error .zeroDivisionError := by
    obtain ⟨r, hconfigure, hduration, hinterval⟩ : ∃ r,
        configure whole ⟨twoPages.content, twoPages.content.length⟩ twoPages.positions [] 80 = .ok r ∧
          r.duration = 0 ∧ r.interval = 0 := ⟨_, rfl, rfl, rfl⟩
    have hload : loadConfig twoPages.yaml = .ok [] := rfl
    have hrefresh : refresh whole "deck.md" (some twoPages.content) drawing.pageW = .ok r := by
      rw [twoPages.refresh_eq, bind_of_ok hload]
      exact hconfigure
    obtain ⟨-, hopened, hpage⟩ := Deck.refresh_opened hrefresh
    have hdraws : Draws drawing r 0 := fun _ _ _ _ => rfl
    obtain ⟨r', hrender⟩ := (hopened.turn (Int.le_refl 0) (by decide)).1.mp hdraws
    obtain ⟨hduration', hinterval'⟩ := renderPage_frame hrender
    rw [← nextPage_first hopened hpage] at hrender
    have htick : tick whole ⟨r', 0, whole.ofInt 0⟩ 1 1 = .error .zeroDivisionError := by
      simp [tick, isDue, divide, whole, hduration', hinterval', hduration, hinterval]
      rfl
    unfold run
    rw [bind_of_ok hrefresh, bind_of_ok hrender]
    exact bind_of_error htick
  refine ⟨twoPages_usable, hraises, fun hall => ?_⟩
  obtain ⟨s, hs, -⟩ := hall [.tick 1 1] (List.prefix_refl _)
  rw [hraises] at hs
  cases hs

end PicoRuby.Rapicco
