import PicoRuby.Shared.LineEnds
import PicoRuby.Yaml.Parser
import PicoRuby.Yaml.Scalars

/-!
# The lines of a dump

What the parser does with each kind of line that `serialize` writes.
-/

namespace PicoRuby.Yaml

open Shared

set_option autoImplicit false

namespace Parser

/-- The lines of a text. -/
def run (s : Parser) (text : Text) : Option Parser := (split text '\n').foldlM step s

end Parser

variable {n : Nat} {key x y line : Text} {s : Parser} {top : Frame} {below : List Frame}

/-! ## Lines -/

theorem split_line (hne : line ≠ []) (hline : '\n' ∉ line) (rest : Text) :
    split (line ++ '\n' :: rest) '\n' = line :: split rest '\n' := by
  unfold split
  rw [List.splitOn_append_cons_self, List.splitOn_eq_singleton hline, List.singleton_append]
  exact rdropWhile_append (l := [line]) (by simpa using hne)

theorem run_line (hne : line ≠ []) (hline : '\n' ∉ line) (rest : Text) :
    s.run (line ++ '\n' :: rest) = (s.step line).bind fun s => s.run rest := by
  unfold Parser.run
  rw [split_line hne hline, List.foldlM_cons]
  rfl

theorem strip_spaces (h : Trimmed x) (n : Nat) : strip (spaces n ++ x) = x := by
  unfold strip
  rw [lstrip_spaces]
  exact h.strip

theorem countLeadingSpaces_spaces (h : Trimmed x) (n : Nat) : countLeadingSpaces (spaces n ++ x) = n := by
  unfold countLeadingSpaces
  rw [lstrip_spaces, lstrip_of_head h.head, List.length_append, spaces, List.length_replicate]
  omega

theorem unbroken_spaces (h : '\n' ∉ x) (n : Nat) : '\n' ∉ spaces n ++ x := by
  intro hmem
  rcases List.mem_append.mp hmem with hmem | hmem
  · have heq := List.eq_of_mem_replicate hmem
    revert heq
    decide
  · exact h hmem

theorem step_key (h : Word key) (hx : Trimmed (key ++ ':' :: y)) (s : Parser) (n : Nat) :
    s.step (spaces n ++ (key ++ ':' :: y)) =
      Parser.add { s with stack := dedent n s.stack } (some key) (some (strip y)) n := by
  obtain ⟨c, rest, rfl⟩ := List.exists_cons_of_ne_nil h.nonempty
  obtain ⟨hdash, hhash⟩ := h.head c rfl
  have hword : ∀ d ∈ c :: rest, (d != ':') = true := by
    intro d hd
    rw [bne_iff_ne]
    rintro rfl
    exact h.colon hd
  have hkey : splitKeyValue ((c :: rest) ++ ':' :: y) = (c :: rest, some (strip y)) := by
    unfold splitKeyValue
    rw [List.dropWhile_append_of_pos hword, List.takeWhile_append_of_pos hword]
    simp [h.trimmed.strip]
  unfold Parser.step
  rw [strip_spaces hx, countLeadingSpaces_spaces hx]
  rw [List.cons_append] at hkey ⊢
  dsimp only
  split
  · rename_i heq
    cases heq
  · rename_i heq
    cases heq
    exact absurd rfl hhash
  · rename_i heq
    cases heq
    rw [if_neg hdash, hkey]

theorem step_item (hstrip : strip line = '-' :: y) (hcount : countLeadingSpaces line = n) (s : Parser) :
    s.step line = (Parser.toArray { s with stack := dedent n s.stack }).bind fun s =>
      s.add none (parseListItem ('-' :: y)) n := by
  unfold Parser.step
  rw [hstrip, hcount]
  rfl

theorem parseListItem_value (h : OneLine x) : parseListItem ('-' :: ' ' :: x) = some x := by
  have hrest : ('-' :: ' ' :: x).dropWhile (!isBlank ·) = ' ' :: x := by
    rw [List.dropWhile_cons_of_pos (by decide), List.dropWhile_cons_of_neg (by decide)]
  have hspace : lstrip (' ' :: x) = x := (lstrip_spaces 1 x).trans (lstrip_of_head h.trimmed.head)
  unfold parseListItem
  rw [hrest]
  simp only [hspace, h.trimmed.strip]

theorem strip_space (h : OneLine x) : strip (' ' :: x) = x := strip_spaces h.trimmed 1

/-! ## The stacks -/

theorem dedent_top (h : top.indent < (n : Int)) : dedent n (top :: below) = top :: below := by
  cases below with
  | nil => rfl
  | cons f rest =>
    unfold dedent
    rw [if_neg (by omega)]

/-- What is open below a level is left with the level. -/
theorem dedent_dedent {low high : Int} (h : low ≤ high) : ∀ stack : List Frame,
    dedent low (dedent high stack) = dedent low stack := by
  intro stack
  induction stack with
  | nil => rfl
  | cons f rest ih =>
    cases rest with
    | nil => rfl
    | cons g rest =>
      rw [dedent]
      split
      · rename_i hle
        rw [ih, dedent, if_pos (Int.le_trans h hle)]
      · rfl

/-! ## Values -/

variable {entries : List (Text × Cell)} {items : List Cell}

theorem add_value (hx : x ≠ []) {heap : List Node} (hstack : s.stack = top :: below) {k : Option Text}
    (hplace : Parser.place s.heap top.object k (.scalar (parseValue x)) = some heap) :
    s.add k (some x) n = some { s with heap } := by
  unfold Parser.add
  rw [hstack]
  obtain ⟨c, rest, rfl⟩ := List.exists_cons_of_ne_nil hx
  simp [hplace]

theorem add_open {heap : List Node} (hstack : s.stack = top :: below) {k : Option Text} {v : Option Text}
    (hv : v = none ∨ v = some [])
    (hplace : Parser.place (s.heap ++ [.hash []]) top.object k (.ref s.heap.length) = some heap) :
    s.add k v n = some ⟨heap, ⟨s.heap.length, n⟩ :: top :: below⟩ := by
  unfold Parser.add
  rw [hstack]
  rcases hv with rfl | rfl <;> simp [hplace]

end PicoRuby.Yaml
