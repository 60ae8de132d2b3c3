import Mathlib.Algebra.GroupWithZero.Nat
import Mathlib.Algebra.Ring.Int.Defs
import PicoRuby.Rapicco.Deck

/-!
# Fenced blocks

What `dump` gives for the lines of a document: one entry for each block that has a line, among the entries of the
other lines.
-/

namespace PicoRuby.Rapicco

open Shared Vfs
open Http (ascii)

set_option autoImplicit false

/-! ## Documents -/

/-- A line outside of the blocks, or a block with its fences. -/
inductive Piece where
  | line (raw : Bytes) (hline : ¬ fence <+: raw)
  | block (opening : Bytes) (lines : List Bytes) (closing : Bytes) (hopening : fence <+: opening)
      (hlines : ∀ l ∈ lines, ¬ fence <+: l) (hclosing : fence <+: closing)

/-- The lines as they are fed. -/
def Piece.raw : Piece → List Bytes
  | line raw _ => [raw]
  | block opening lines closing _ _ _ => opening :: (lines ++ [closing])

/-- How a block is opened. -/
def blockKey (opening : Bytes) : Block := if ascii "```eval" <+: chomp opening then .eval else .code

def evalHeader : Bytes := ascii "# ==== eval ===="

/-- The entry of a block. -/
def blockEntry (key : Block) (lines : List Bytes) : Line :=
  match key with
  | .code => .block .code lines
  | .eval => .block .eval (evalHeader :: lines)

/-- The entry of a line outside of the blocks, if it has one. -/
def Parser.outside (p : Parser) (raw : Bytes) : List Line :=
  let line := chomp raw
  if line = [] then []
  else if ascii "> " <+: line then [.note line]
  else if ascii "<!--" <+: line then []
  else [p.textLine line]

def Piece.entries (p : Parser) : Piece → List Line
  | line raw _ => p.outside raw
  | block opening lines _ _ _ _ => if lines = [] then [] else [blockEntry (blockKey opening) (lines.map chomp)]

/-- **Every block is kept**: no line fails, and the list has an entry for each block with a line, as it is written. -/
def Kept (p : Parser) (doc : List Piece) : Prop :=
  ∃ q, (doc.flatMap Piece.raw).foldlM Parser.parse p = .ok q ∧ q.dump.1 = p.lines ++ doc.flatMap (Piece.entries p)

/-- The last entry is there, and is no block that is run. -/
def Separated (before : List Line) : Prop := ∃ last ∈ before.getLast?, ∀ lines, last ≠ .block .eval lines

/-- A block that is shown has no line, and one that is run has none or is behind an entry of another kind. -/
def Piece.Fine (before : List Line) : Piece → Prop
  | line _ _ => True
  | block opening lines _ _ _ _ =>
    lines = [] ∨ blockKey opening = .eval ∧ (∀ l ∈ lines, l ≠ []) ∧ Separated before

/-- Every piece is fine behind the entries of those before it. -/
def Fine (p : Parser) : List Line → List Piece → Prop
  | _, [] => True
  | before, piece :: doc => piece.Fine before ∧ Fine p (before ++ piece.entries p) doc

/-- The parser with other lines, inside a block or not. -/
def Parser.state (p : Parser) (lines : List Line) (inCodeBlock : Option Block) : Parser :=
  { p with lines, inCodeBlock }

/-! ## Balanced fences -/

section Balanced
variable {lines : List Bytes}

theorem inside_plain (h : ∀ l ∈ lines, ¬ fence <+: l) : inside lines = false := by
  have hnone : fences lines = 0 := List.countP_eq_zero.mpr fun l hl hfence => h l hl (of_decide_eq_true hfence)
  rw [inside_eq_false, hnone]

theorem inside_cons (raw : Bytes) (lines : List Bytes) :
    inside (raw :: lines) = (decide (fence <+: raw) ^^ inside lines) := by
  rw [← inside_singleton, ← inside_append]
  rfl

theorem Piece.inside_raw (piece : Piece) : inside piece.raw = false := by
  cases piece with
  | line raw hline => rw [Piece.raw, inside_singleton, decide_eq_false hline]
  | block opening lines closing hopening hlines hclosing =>
    rw [Piece.raw, inside_cons, inside_append, inside_plain hlines, inside_singleton, decide_eq_true hopening,
      decide_eq_true hclosing]
    rfl

/-- An open block goes on to its closing fence. -/
theorem inside_closes (h : inside lines = true) :
    ∃ block closing rest, lines = block ++ closing :: rest ∧ (∀ l ∈ block, ¬ fence <+: l) ∧ fence <+: closing ∧
      inside rest = false := by
  induction lines with
  | nil => cases h
  | cons raw lines ih =>
    rw [inside_cons] at h
    by_cases hfence : fence <+: raw
    · rw [decide_eq_true hfence, Bool.true_xor, Bool.not_eq_true'] at h
      exact ⟨[], raw, lines, rfl, nofun, hfence, h⟩
    · rw [decide_eq_false hfence, Bool.false_xor] at h
      obtain ⟨block, closing, rest, rfl, hblock, hclosing, hrest⟩ := ih h
      refine ⟨raw :: block, closing, rest, rfl, fun l hl => ?_, hclosing, hrest⟩
      rcases List.mem_cons.mp hl with rfl | hmem
      · exact hfence
      · exact hblock l hmem

/-- Lines with balanced fences are a document. -/
theorem balanced_iff : inside lines = false ↔ ∃ doc : List Piece, doc.flatMap Piece.raw = lines := by
  constructor
  · intro h
    induction hn : lines.length using Nat.strongRecOn generalizing lines with
    | _ n ih =>
      subst hn
      cases lines with
      | nil => exact ⟨[], rfl⟩
      | cons raw lines =>
        rw [inside_cons] at h
        by_cases hfence : fence <+: raw
        · rw [decide_eq_true hfence, Bool.true_xor, Bool.not_eq_false'] at h
          obtain ⟨block, closing, rest, rfl, hblock, hclosing, hrest⟩ := inside_closes h
          obtain ⟨doc, rfl⟩ := ih rest.length (by simp; omega) hrest rfl
          refine ⟨.block raw block closing hfence hblock hclosing :: doc, ?_⟩
          rw [List.flatMap_cons, Piece.raw, List.cons_append, List.append_assoc]
          rfl
        · rw [decide_eq_false hfence, Bool.false_xor] at h
          obtain ⟨doc, rfl⟩ := ih lines.length (Nat.lt_succ_self _) h rfl
          exact ⟨.line raw hfence :: doc, rfl⟩
  · rintro ⟨doc, rfl⟩
    induction doc with
    | nil => rfl
    | cons piece doc ih => rw [List.flatMap_cons, inside_append, piece.inside_raw, ih, Bool.false_xor]

end Balanced

/-! ## One line -/

section Line
variable {p : Parser} {before : List Line} {raw : Bytes} {key : Block}

theorem raw_ne_nil (h : fence <+: raw) : raw ≠ [] ∧ chomp raw ≠ [] := by
  constructor
  · rintro rfl
    simp [fence] at h
  · intro hnil
    rw [← fence_chomp, hnil] at h
    simp [fence] at h

theorem parse_outside (h : ¬ fence <+: raw) :
    (p.state before none).parse raw = .ok (p.state (before ++ p.outside raw) none) := by
  have hfence : ¬ fence <+: chomp raw := by rwa [fence_chomp]
  unfold Parser.parse Parser.outside
  dsimp only
  by_cases hnil : chomp raw = []
  · rw [if_pos (Or.inr ⟨hnil, rfl⟩), if_pos hnil, List.append_nil]
  · have hraw : raw ≠ [] := by
      rintro rfl
      exact hnil rfl
    rw [if_neg (by simp [hraw, hnil]), if_neg hfence, if_neg hnil]
    change (if ascii "> " <+: chomp raw then _ else _) = _
    split
    · rfl
    · split
      · rw [List.append_nil]
      · rfl

theorem parse_opening (h : fence <+: raw) :
    (p.state before none).parse raw = .ok (p.state before (some (blockKey raw))) := by
  obtain ⟨hraw, hline⟩ := raw_ne_nil h
  unfold Parser.parse
  dsimp only
  rw [if_neg (by simp [hraw, hline]), if_pos ((fence_chomp raw).mpr h)]
  rfl

theorem parse_closing (h : fence <+: raw) : (p.state before (some key)).parse raw = .ok (p.state before none) := by
  obtain ⟨hraw, hline⟩ := raw_ne_nil h
  unfold Parser.parse
  dsimp only
  rw [if_neg (by simp [hraw, hline]), if_pos ((fence_chomp raw).mpr h)]
  rfl

theorem parse_skipped : (p.state before (some key)).parse [] = .ok (p.state before (some key)) := by
  unfold Parser.parse
  dsimp only
  rw [if_pos (Or.inl rfl)]

theorem parse_inside (hne : raw ≠ []) (h : ¬ fence <+: raw) :
    (p.state before (some key)).parse raw = (p.state before (some key)).codeLine key (chomp raw) := by
  unfold Parser.parse
  dsimp only
  rw [if_neg (by simp [hne, Parser.state]), if_neg (by rwa [fence_chomp])]
  rfl

/-- What a line does inside a block. -/
inductive Adds (key : Block) (line : Bytes) : List Line → List Line → Block → Prop where
  | extend (init : List Line) (lines : List Bytes) :
      Adds key line (init ++ [.block key lines]) (init ++ [.block key (lines ++ [line])]) key
  | new (before : List Line) (hlast : ∃ last ∈ before.getLast?, ∀ lines, last ≠ .block key lines) :
      Adds key line before (before ++ [.block key [evalHeader, line]]) .eval

theorem codeLine_adds {q : Parser} {line : Bytes} (h : (p.state before (some key)).codeLine key line = .ok q) :
    ∃ after key', q = p.state after (some key') ∧ Adds key line before after key' := by
  unfold Parser.codeLine at h
  cases hlast : before.getLast? with
  | none =>
    have hstate : (p.state before (some key)).lines.getLast? = none := hlast
    rw [hstate] at h
    cases h
  | some last =>
    have hstate : (p.state before (some key)).lines.getLast? = some last := hlast
    rw [hstate] at h
    dsimp only at h
    obtain ⟨init, rfl⟩ := List.getLast?_eq_some_iff.mp hlast
    have hnew (hother : ∀ lines, last ≠ .block key lines) :
        Adds key line (init ++ [last]) (init ++ [last] ++ [.block key [evalHeader, line]]) .eval :=
      .new _ ⟨last, hlast, hother⟩
    split at h
    · rename_i key' lines
      split at h
      · rename_i heq
        subst heq
        cases h
        refine ⟨_, key', ?_, .extend init lines⟩
        unfold Parser.state
        dsimp only
        rw [List.dropLast_concat]
      · rename_i hne
        cases h
        refine ⟨_, .eval, rfl, hnew fun lines heq => hne ?_⟩
        cases heq
        rfl
    · rename_i hother
      cases h
      exact ⟨_, .eval, rfl, hnew (hother key)⟩

theorem codeLine_extend (init : List Line) (lines : List Bytes) (line : Bytes) :
    (p.state (init ++ [.block key lines]) (some key)).codeLine key line =
      .ok (p.state (init ++ [.block key (lines ++ [line])]) (some key)) := by
  unfold Parser.codeLine Parser.state
  simp

theorem codeLine_new {line : Bytes} (hlast : ∃ last ∈ before.getLast?, ∀ lines, last ≠ .block key lines) :
    (p.state before (some key)).codeLine key line =
      .ok (p.state (before ++ [.block key [evalHeader, line]]) (some .eval)) := by
  obtain ⟨last, hlast, hother⟩ := hlast
  have hstate : (p.state before (some key)).lines.getLast? = some last := hlast
  unfold Parser.codeLine
  rw [hstate]
  dsimp only
  split
  · rename_i key' lines
    rw [if_neg]
    · rfl
    · rintro rfl
      exact hother lines rfl
  · rfl

end Line

/-! ## Counting lines -/

/-- The lines of the entries, each as `f` counts it, without one for each entry. -/
def weight (f : Bytes → Int) : List Line → Int
  | [] => 0
  | .block _ lines :: rest => (lines.map f).sum - 1 + weight f rest
  | _ :: rest => weight f rest

section Weight
variable {f : Bytes → Int} {key key' : Block} {line : Bytes} {before after : List Line}

theorem weight_append (l m : List Line) : weight f (l ++ m) = weight f l + weight f m := by
  induction l with
  | nil => rw [List.nil_append, weight, Int.zero_add]
  | cons a l ih =>
    rw [List.cons_append]
    cases a with
    | block key lines => rw [weight, weight, ih, Int.add_assoc]
    | note line => exact ih
    | skip count => exact ih
    | text font text bullet scale align => exact ih

theorem weight_block (lines : List Bytes) : weight f [.block key lines] = (lines.map f).sum - 1 := by
  rw [weight, weight, Int.add_zero]

/-- However a line is taken, it adds what it counts for. -/
theorem Adds.weight_eq (h : Adds key line before after key') (hf : f evalHeader = 1) :
    weight f after = weight f before + f line := by
  cases h with
  | extend init lines =>
    rw [weight_append, weight_append, weight_block, weight_block, List.map_append, List.sum_append, List.map_singleton,
      List.sum_singleton]
    omega
  | new before hlast =>
    rw [weight_append, weight_block, List.map_cons, List.map_singleton, List.sum_cons, List.sum_singleton, hf]
    omega

theorem weight_outside (p : Parser) (raw : Bytes) : weight f (p.outside raw) = 0 := by
  have htext (line : Bytes) : weight f [p.textLine line] = 0 := by
    unfold Parser.textLine
    dsimp only
    split
    · rfl
    · rfl
  unfold Parser.outside
  dsimp only
  split
  · rfl
  · split
    · rfl
    · split
      · rfl
      · exact htext _

end Weight

/-- What the lines that are not dropped count for. -/
def fed (f : Bytes → Int) (lines : List Bytes) : Int :=
  ((lines.filter (· ≠ [])).map fun raw => f (chomp raw)).sum

namespace Piece

def fed (f : Bytes → Int) : Piece → Int
  | line _ _ => 0
  | block _ lines _ _ _ _ => Rapicco.fed f lines

/-- The lines that are dropped, because they have not even an end. -/
def skipped : Piece → Nat
  | line _ _ => 0
  | block _ lines _ _ _ _ => lines.countP (· = [])

/-- One for a block that is shown and has a line. -/
def plain : Piece → Nat
  | line _ _ => 0
  | block opening lines _ _ _ _ => if lines = [] ∨ blockKey opening = .eval then 0 else 1

end Piece

section Runs
variable {p q : Parser} {before : List Line} {key : Block} {f : Bytes → Int}

theorem fed_cons (raw : Bytes) (lines : List Bytes) :
    fed f (raw :: lines) = (if raw = [] then 0 else f (chomp raw)) + fed f lines := by
  unfold fed
  by_cases hnil : raw = []
  · rw [if_pos hnil, List.filter_cons_of_neg (by simpa using hnil), Int.zero_add]
  · rw [if_neg hnil, List.filter_cons_of_pos (by simpa using hnil), List.map_cons, List.sum_cons]

theorem sum_chomp (lines : List Bytes) :
    ((lines.map chomp).map f).sum = fed f lines + (lines.countP (· = []) : Nat) * f [] := by
  induction lines with
  | nil => simp [fed]
  | cons raw lines ih =>
    rw [List.map_cons, List.map_cons, List.sum_cons, ih, fed_cons]
    by_cases hnil : raw = []
    · have hchomp : chomp raw = [] := by
        rw [hnil]
        rfl
      rw [if_pos hnil, hchomp, List.countP_cons_of_pos (by simpa using hnil), Int.natCast_add, Int.add_mul]
      omega
    · rw [if_neg hnil, List.countP_cons_of_neg (by simpa using hnil), Int.add_assoc]

theorem inside_run (lines : List Bytes) (hlines : ∀ l ∈ lines, ¬ fence <+: l)
    (h : lines.foldlM Parser.parse (p.state before (some key)) = .ok q) :
    ∃ after key', q = p.state after (some key') ∧
      ∀ f : Bytes → Int, f evalHeader = 1 → weight f after = weight f before + fed f lines := by
  -- the mode changes on the way, what is added does not depend on it
  induction lines generalizing before key with
  | nil =>
    cases h
    exact ⟨before, key, rfl, fun f _ => by simp [fed]⟩
  | cons raw lines ih =>
    rw [List.foldlM_cons] at h
    obtain ⟨q', hparse, hrest⟩ := bind_eq_ok.mp h
    have hlines' : ∀ l ∈ lines, ¬ fence <+: l := fun l hl => hlines l (List.mem_cons_of_mem raw hl)
    by_cases hnil : raw = []
    · subst hnil
      rw [parse_skipped] at hparse
      cases hparse
      obtain ⟨after, key', hq, hweight⟩ := ih hlines' hrest
      refine ⟨after, key', hq, fun f hf => ?_⟩
      rw [hweight f hf, fed_cons, if_pos rfl, Int.zero_add]
    · rw [parse_inside hnil (hlines raw List.mem_cons_self)] at hparse
      obtain ⟨middle, key₁, rfl, hadds⟩ := codeLine_adds hparse
      obtain ⟨after, key', hq, hweight⟩ := ih hlines' hrest
      refine ⟨after, key', hq, fun f hf => ?_⟩
      rw [hweight f hf, hadds.weight_eq hf, fed_cons, if_neg hnil, Int.add_assoc]

theorem piece_run (piece : Piece) (h : piece.raw.foldlM Parser.parse (p.state before none) = .ok q) :
    ∃ after, q = p.state after none ∧
      ∀ f : Bytes → Int, f evalHeader = 1 → weight f after = weight f before + piece.fed f := by
  cases piece with
  | line raw hline =>
    rw [Piece.raw, List.foldlM_cons, parse_outside hline] at h
    cases h
    refine ⟨_, rfl, fun f _ => ?_⟩
    rw [weight_append, weight_outside]
    rfl
  | block opening lines closing hopening hlines hclosing =>
    rw [Piece.raw, List.foldlM_cons, parse_opening hopening, bind_of_ok rfl, List.foldlM_append] at h
    obtain ⟨q', hlines', hrest⟩ := bind_eq_ok.mp h
    obtain ⟨after, key', rfl, hweight⟩ := inside_run lines hlines hlines'
    rw [List.foldlM_cons, parse_closing hclosing] at hrest
    cases hrest
    exact ⟨after, rfl, hweight⟩

theorem doc_run (doc : List Piece) (h : (doc.flatMap Piece.raw).foldlM Parser.parse (p.state before none) = .ok q) :
    ∃ after, q = p.state after none ∧
      ∀ f : Bytes → Int, f evalHeader = 1 → weight f after = weight f before + (doc.map (Piece.fed f)).sum := by
  induction doc generalizing before with
  | nil =>
    cases h
    exact ⟨before, rfl, fun f _ => by simp⟩
  | cons piece doc ih =>
    rw [List.flatMap_cons, List.foldlM_append] at h
    obtain ⟨q', hpiece, hrest⟩ := bind_eq_ok.mp h
    obtain ⟨middle, rfl, hweight⟩ := piece_run piece hpiece
    obtain ⟨after, hq, hweight'⟩ := ih hrest
    refine ⟨after, hq, fun f hf => ?_⟩
    rw [hweight' f hf, hweight f hf, List.map_cons, List.sum_cons, Int.add_assoc]

theorem weight_entries (p : Parser) (piece : Piece) (hf : f evalHeader = 1) :
    weight f (piece.entries p) = piece.fed f + piece.skipped * f [] - piece.plain := by
  cases piece with
  | line raw hline =>
    have houtside : weight f (p.outside raw) = 0 := weight_outside p raw
    simpa [Piece.entries, Piece.fed, Piece.skipped, Piece.plain] using houtside
  | block opening lines closing hopening hlines hclosing =>
    unfold Piece.entries Piece.fed Piece.skipped Piece.plain
    dsimp only
    by_cases hnil : lines = []
    · simp [hnil, weight, Rapicco.fed]
    · rw [if_neg hnil, ← sum_chomp]
      unfold blockEntry
      cases blockKey opening with
      | code =>
        dsimp only
        rw [weight_block, if_neg (by simp [hnil])]
        rfl
      | eval =>
        dsimp only
        rw [weight_block, if_pos (by simp), List.map_cons, List.sum_cons, hf]
        omega

theorem weight_doc (p : Parser) (doc : List Piece) (hf : f evalHeader = 1) :
    weight f (doc.flatMap (Piece.entries p)) =
      (doc.map (Piece.fed f)).sum + (doc.map Piece.skipped).sum * f [] - (doc.map Piece.plain).sum := by
  induction doc with
  | nil => simp [weight]
  | cons piece doc ih =>
    rw [List.flatMap_cons, weight_append, ih, weight_entries p piece hf, List.map_cons, List.map_cons, List.map_cons,
      List.sum_cons, List.sum_cons, List.sum_cons, Int.natCast_add, Int.natCast_add, Int.add_mul]
    omega

end Runs

/-! ## Blocks that are run -/

section Eval
variable {p q : Parser} {before : List Line}

theorem extend_run (init : List Line) (ls lines : List Bytes) (hlines : ∀ l ∈ lines, ¬ fence <+: l)
    (hne : ∀ l ∈ lines, l ≠ []) :
    lines.foldlM Parser.parse (p.state (init ++ [.block .eval ls]) (some .eval)) =
      .ok (p.state (init ++ [.block .eval (ls ++ lines.map chomp)]) (some .eval)) := by
  induction lines generalizing ls with
  | nil =>
    rw [List.map_nil, List.append_nil]
    rfl
  | cons raw lines ih =>
    rw [List.foldlM_cons, parse_inside (hne raw List.mem_cons_self) (hlines raw List.mem_cons_self), codeLine_extend,
      bind_of_ok rfl, ih _ (fun l hl => hlines l (List.mem_cons_of_mem raw hl))
        (fun l hl => hne l (List.mem_cons_of_mem raw hl)), List.append_assoc]
    rfl

theorem new_run (raw : Bytes) (lines : List Bytes) (hlines : ∀ l ∈ raw :: lines, ¬ fence <+: l)
    (hne : ∀ l ∈ raw :: lines, l ≠ []) (hlast : Separated before) :
    (raw :: lines).foldlM Parser.parse (p.state before (some .eval)) =
      .ok (p.state (before ++ [blockEntry .eval ((raw :: lines).map chomp)]) (some .eval)) := by
  rw [List.foldlM_cons, parse_inside (hne raw List.mem_cons_self) (hlines raw List.mem_cons_self), codeLine_new hlast,
    bind_of_ok rfl, extend_run _ _ lines (fun l hl => hlines l (List.mem_cons_of_mem raw hl))
      (fun l hl => hne l (List.mem_cons_of_mem raw hl))]
  rfl

theorem block_run {opening closing : Bytes} {lines : List Bytes} {after : List Line} {key key' : Block}
    (hopening : fence <+: opening) (hclosing : fence <+: closing) (hkey : blockKey opening = key)
    (h : lines.foldlM Parser.parse (p.state before (some key)) = .ok (p.state after (some key'))) :
    (opening :: (lines ++ [closing])).foldlM Parser.parse (p.state before none) = .ok (p.state after none) := by
  rw [List.foldlM_cons, parse_opening hopening, bind_of_ok rfl, hkey, List.foldlM_append, bind_of_ok h,
    List.foldlM_cons, parse_closing hclosing]
  rfl

theorem fine_run (piece : Piece) (h : piece.Fine before) :
    piece.raw.foldlM Parser.parse (p.state before none) = .ok (p.state (before ++ piece.entries p) none) := by
  cases piece with
  | line raw hline =>
    rw [Piece.raw, List.foldlM_cons, parse_outside hline]
    rfl
  | block opening lines closing hopening hlines hclosing =>
    unfold Piece.raw Piece.entries
    dsimp only
    rcases h with rfl | ⟨hkey, hne, hlast⟩
    · rw [if_pos rfl, List.append_nil]
      exact block_run hopening hclosing rfl rfl
    · cases lines with
      | nil =>
        rw [if_pos rfl, List.append_nil]
        exact block_run hopening hclosing rfl rfl
      | cons raw lines =>
        rw [if_neg (List.cons_ne_nil raw lines), hkey]
        exact block_run hopening hclosing hkey (new_run raw lines hlines hne hlast)

/-- Without blocks that are shown and dropped lines, what is not fine goes into the block before it. -/
theorem unfine_run (piece : Piece) (hplain : piece.plain = 0) (hskipped : piece.skipped = 0)
    (hunfine : ¬ piece.Fine before) (h : piece.raw.foldlM Parser.parse (p.state before none) = .ok q) :
    ∃ after, q = p.state after none ∧ after.length = before.length ∧ (piece.entries p).length = 1 := by
  cases piece with
  | line raw hline => exact absurd trivial hunfine
  | block opening lines closing hopening hlines hclosing =>
    have hlast : ¬ (lines = [] ∨ blockKey opening = .eval ∧ (∀ l ∈ lines, l ≠ []) ∧ Separated before) := hunfine
    rw [not_or] at hlast
    obtain ⟨hnil, hlast⟩ := hlast
    have hkey : blockKey opening = .eval := by
      by_contra hkey
      unfold Piece.plain at hplain
      dsimp only at hplain
      rw [if_neg (not_or.mpr ⟨hnil, hkey⟩)] at hplain
      cases hplain
    have hne : ∀ l ∈ lines, l ≠ [] := by
      intro l hl
      have hcount := List.countP_eq_zero.mp hskipped l hl
      simpa using hcount
    have hseparated : ¬ Separated before := fun hlast' => hlast ⟨hkey, hne, hlast'⟩
    have hentries : (Piece.entries p (.block opening lines closing hopening hlines hclosing)).length = 1 := by
      unfold Piece.entries
      dsimp only
      rw [if_neg hnil]
      rfl
    obtain ⟨raw, lines, rfl⟩ := List.exists_cons_of_ne_nil hnil
    cases hbefore : before.getLast? with
    | none =>
      rw [List.getLast?_eq_none_iff] at hbefore
      subst hbefore
      rw [Piece.raw, List.foldlM_cons, parse_opening hopening, bind_of_ok rfl, hkey, List.foldlM_append,
        List.foldlM_cons, parse_inside (hne raw List.mem_cons_self) (hlines raw List.mem_cons_self)] at h
      cases h
    | some last =>
      obtain ⟨init, rfl⟩ := List.getLast?_eq_some_iff.mp hbefore
      have heval : ∃ ls, last = .block .eval ls := by
        by_contra hnone
        exact hseparated ⟨last, hbefore, fun ls heq => hnone ⟨ls, heq⟩⟩
      obtain ⟨ls, rfl⟩ := heval
      have hrun := block_run (p := p) hopening hclosing hkey (extend_run init ls (raw :: lines) hlines hne)
      rw [Piece.raw, hrun] at h
      cases h
      refine ⟨_, rfl, ?_, hentries⟩
      rw [List.length_append, List.length_append]
      rfl

/-- No block that is shown, and no line that is dropped. -/
def Bare (doc : List Piece) : Prop := ∀ piece ∈ doc, piece.plain = 0 ∧ piece.skipped = 0

theorem length_run (doc : List Piece) (hbare : Bare doc) {after : List Line}
    (h : (doc.flatMap Piece.raw).foldlM Parser.parse (p.state before none) = .ok (p.state after none)) :
    after.length ≤ before.length + (doc.flatMap (Piece.entries p)).length := by
  induction doc generalizing before with
  | nil =>
    have heq : before = after := congrArg Parser.lines (Except.ok.inj h)
    rw [heq]
    exact Nat.le_add_right _ _
  | cons piece doc ih =>
    obtain ⟨hplain, hskipped⟩ := hbare piece List.mem_cons_self
    have hbare' : Bare doc := fun piece' hpiece' => hbare piece' (List.mem_cons_of_mem piece hpiece')
    rw [List.flatMap_cons, List.foldlM_append] at h
    obtain ⟨q, hpiece, hrest⟩ := bind_eq_ok.mp h
    rw [List.flatMap_cons, List.length_append]
    by_cases hfine : piece.Fine before
    · rw [fine_run piece hfine] at hpiece
      cases hpiece
      have hle := ih hbare' hrest
      rw [List.length_append] at hle
      omega
    · obtain ⟨middle, rfl, hmiddle, hentries⟩ := unfine_run piece hplain hskipped hfine hpiece
      have hle := ih hbare' hrest
      omega

theorem fine_of_run (doc : List Piece) (hbare : Bare doc)
    (h : (doc.flatMap Piece.raw).foldlM Parser.parse (p.state before none) =
      .ok (p.state (before ++ doc.flatMap (Piece.entries p)) none)) : Fine p before doc := by
  induction doc generalizing before with
  | nil => exact trivial
  | cons piece doc ih =>
    obtain ⟨hplain, hskipped⟩ := hbare piece List.mem_cons_self
    have hbare' : Bare doc := fun piece' hpiece' => hbare piece' (List.mem_cons_of_mem piece hpiece')
    rw [List.flatMap_cons, List.foldlM_append, List.flatMap_cons] at h
    obtain ⟨q, hpiece, hrest⟩ := bind_eq_ok.mp h
    by_cases hfine : piece.Fine before
    · rw [fine_run piece hfine] at hpiece
      cases hpiece
      rw [← List.append_assoc] at hrest
      exact ⟨hfine, ih hbare' hrest⟩
    · -- one entry is missing from here on
      obtain ⟨middle, rfl, hmiddle, hentries⟩ := unfine_run piece hplain hskipped hfine hpiece
      have hle := length_run doc hbare' hrest
      rw [List.length_append, List.length_append] at hle
      omega

theorem run_of_fine (doc : List Piece) (h : Fine p before doc) :
    (doc.flatMap Piece.raw).foldlM Parser.parse (p.state before none) =
      .ok (p.state (before ++ doc.flatMap (Piece.entries p)) none) := by
  induction doc generalizing before with
  | nil =>
    rw [List.flatMap_nil, List.flatMap_nil, List.append_nil]
    rfl
  | cons piece doc ih =>
    rw [List.flatMap_cons, List.foldlM_append, bind_of_ok (fine_run piece h.1), ih h.2, List.append_assoc,
      List.flatMap_cons]

end Eval

/-- A run that gives the entries has dropped nothing and has shown nothing. -/
theorem bare_of_run {p : Parser} {before : List Line} (doc : List Piece)
    (h : (doc.flatMap Piece.raw).foldlM Parser.parse (p.state before none) =
      .ok (p.state (before ++ doc.flatMap (Piece.entries p)) none)) : Bare doc := by
  have hbalance (f : Bytes → Int) (hf : f evalHeader = 1) :
      (doc.map Piece.skipped).sum * f [] = ((doc.map Piece.plain).sum : Int) := by
    obtain ⟨after, hq, hweight⟩ := doc_run doc h
    have hafter : before ++ doc.flatMap (Piece.entries p) = after := congrArg Parser.lines hq
    have heq := hweight f hf
    rw [← hafter, weight_append, weight_doc p doc hf] at heq
    omega
  have hplain : (doc.map Piece.plain).sum = 0 := by
    have heq := hbalance (fun l => if l = [] then 0 else 1) (if_neg (by decide))
    rw [if_pos rfl, Int.mul_zero] at heq
    omega
  have hskipped : (doc.map Piece.skipped).sum = 0 := by
    have heq := hbalance (fun _ => 1) rfl
    omega
  rw [List.sum_eq_zero_iff_forall_eq_nat] at hplain hskipped
  intro piece hpiece
  exact ⟨hplain _ (List.mem_map_of_mem hpiece), hskipped _ (List.mem_map_of_mem hpiece)⟩

section Kept
variable {p : Parser} {doc : List Piece}

theorem state_outside (houtside : p.inCodeBlock = none) : p.state p.lines none = p := by
  rw [← houtside]
  rfl

theorem Kept.run (houtside : p.inCodeBlock = none) (h : Kept p doc) :
    (doc.flatMap Piece.raw).foldlM Parser.parse (p.state p.lines none) =
      .ok (p.state (p.lines ++ doc.flatMap (Piece.entries p)) none) := by
  obtain ⟨q, hq, hlines⟩ := h
  rw [← state_outside houtside] at hq
  obtain ⟨after, rfl, -⟩ := doc_run doc hq
  have hafter : after = p.lines ++ doc.flatMap (Piece.entries p) := hlines
  rw [hq, hafter]

theorem Kept.fine (houtside : p.inCodeBlock = none) (h : Kept p doc) : Fine p p.lines doc :=
  fine_of_run doc (bare_of_run doc (h.run houtside)) (h.run houtside)

theorem Fine.kept (houtside : p.inCodeBlock = none) (h : Fine p p.lines doc) : Kept p doc := by
  have hrun := run_of_fine doc h
  rw [state_outside houtside] at hrun
  exact ⟨_, hrun, rfl⟩

end Kept

/-- The blocks are kept when none is shown with a line, and the ones that are run are separated. -/
theorem blocks_kept_iff (p : Parser) (houtside : p.inCodeBlock = none) (doc : List Piece) :
    Kept p doc ↔ Fine p p.lines doc :=
  ⟨Kept.fine houtside, Fine.kept houtside⟩

/-- A page that has a note. -/
def noted : Parser := { Parser.new with lines := [.note (ascii "> a")] }

/-- A block with one line. -/
def oneLine (key : Block) : Piece :=
  .block (match key with | .code => ascii "```" | .eval => ascii "```eval") [ascii "x"] (ascii "```")
    (by cases key <;> decide) (by decide) (by decide)

theorem blocks_kept_noted : Kept noted [oneLine .eval] := by
  rw [blocks_kept_iff noted rfl]
  exact ⟨.inr ⟨by decide, by decide, _, rfl, nofun⟩, trivial⟩

/-- A block at the start of a page fails, one that is shown gets a header, and one that is run goes into the one before
it. -/
theorem blocks_astray :
    [ascii "```", ascii "x", ascii "```"].foldlM Parser.parse Parser.new = .error .noMethodError ∧
      ¬ Kept noted [oneLine .code] ∧ ¬ Kept noted [oneLine .eval, oneLine .eval] := by
  refine ⟨rfl, fun h => ?_, fun h => ?_⟩
  · have hbare := bare_of_run _ (h.run rfl) (oneLine .code) List.mem_cons_self
    exact absurd hbare.1 (by decide)
  · obtain ⟨-, hfine, -⟩ := h.fine rfl
    rcases hfine with hnil | ⟨-, -, last, hlast, hother⟩
    · cases hnil
    · cases hlast
      exact hother _ rfl

end PicoRuby.Rapicco
