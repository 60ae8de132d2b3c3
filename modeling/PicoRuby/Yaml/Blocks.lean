import PicoRuby.Yaml.Lines
import PicoRuby.Yaml.Representation

/-!
# Nested blocks

The parser rebuilds the nesting of a dump from the indentation: what is read below a key or an item goes into
the object that was opened for it, and the objects around it stay.
-/

namespace PicoRuby.Yaml

open Shared

set_option autoImplicit false

variable {n : Nat} {key line : Text} {s : Parser} {top : Frame} {below : List Frame}

mutual

/-- Containers are not empty, keys are words, and a scalar is written on one line. -/
def Value.Writable : Value → Prop
  | .scalar s => OneLine s.written
  | .hash entries => entries ≠ [] ∧ (entries.map Prod.fst).Nodup ∧ WritableEntries entries
  | .array items => items ≠ [] ∧ WritableItems items

def WritableEntries : List (Text × Value) → Prop
  | [] => True
  | (key, value) :: entries => Word key ∧ value.Writable ∧ WritableEntries entries

def WritableItems : List Value → Prop
  | [] => True
  | value :: items => value.Writable ∧ WritableItems items

end

/-- Lines of a level have been read into an open object; only it has changed among the objects that there were. -/
structure Builds (s s' : Parser) (n : Nat) (top : Frame) (below : List Frame) : Prop where
  stack : dedent n s'.stack = top :: below
  length : s.heap.length ≤ s'.heap.length
  others : ∀ i, i < s.heap.length → i ≠ top.object → s'.heap[i]? = s.heap[i]?

section
variable {s' s'' : Parser}

theorem Builds.trans (h : Builds s s' n top below) (h' : Builds s' s'' n top below) : Builds s s'' n top below := by
  refine ⟨h'.stack, Nat.le_trans h.length h'.length, fun i hlt hne => ?_⟩
  rw [h'.others i (Nat.lt_of_lt_of_le hlt h.length) hne, h.others i hlt hne]

/-- What has been built before is kept. -/
theorem Builds.agrees (h : Builds s s' n top below) {low : Nat} (hlow : top.object < low) :
    Agrees low s.heap s'.heap := fun i hle hlt => h.others i hlt (by omega)

/-- A new object has been opened, for a block of the next level. -/
structure Opened (s s' : Parser) (n : Nat) (top : Frame) (below : List Frame) (node : Node) (i : Nat) : Prop where
  stack : s'.stack = ⟨i, n⟩ :: top :: below
  le : s.heap.length ≤ i
  length : s'.heap.length = i + 1
  others : ∀ j, j < s.heap.length → j ≠ top.object → s'.heap[j]? = s.heap[j]?
  node : s'.heap[top.object]? = some node

/-- The block has been read into it. -/
theorem Opened.block {node : Node} {i : Nat} (h : Opened s s' n top below node i) (htop : top.indent < (n : Int))
    (hobject : top.object < s.heap.length) (hblock : Builds s' s'' (n + 2) ⟨i, n⟩ (top :: below)) :
    Builds s s'' n top below ∧ s''.heap[top.object]? = some node := by
  have hle := h.le
  have hlength := h.length
  refine ⟨⟨?_, ?_, fun j hlt hne => ?_⟩, ?_⟩
  · have hdedent := dedent_dedent (by omega : (n : Int) ≤ (n + 2 : Nat)) s''.stack
    rw [← hdedent, hblock.stack, dedent, if_pos (Int.le_refl _), dedent_top htop]
  · have hgrown := hblock.length
    omega
  · have hne' : j ≠ i := by omega
    rw [hblock.others j (by omega) hne', h.others j hlt hne]
  · have hne : top.object ≠ i := by omega
    rw [hblock.others _ (by omega) hne, h.node]

end

section
variable {s' : Parser} {node node' : Node} {i : Nat}

theorem opened_hash (hobject : top.object < s.heap.length) (node : Node) :
    Opened s ⟨(s.heap ++ [Node.hash []]).set top.object node, ⟨s.heap.length, n⟩ :: top :: below⟩ n top below node
      s.heap.length := by
  refine ⟨rfl, Nat.le_refl _, ?_, fun j hlt hne => ?_, ?_⟩
  · rw [List.length_set, List.length_append, List.length_singleton]
  · rw [List.getElem?_set_ne (Ne.symm hne), List.getElem?_append_left hlt]
  · exact List.getElem?_set_self (by rw [List.length_append]; omega)

theorem opened_hash_get (hobject : top.object < s.heap.length) (node : Node) :
    ((s.heap ++ [Node.hash []]).set top.object node)[s.heap.length]? = some (.hash []) := by
  rw [List.getElem?_set_ne (by omega), List.getElem?_append_right (Nat.le_refl _), Nat.sub_self]
  rfl

/-- An Array in its place, which the parent refers to. -/
theorem Opened.array (h : Opened s s' n top below node i) (hobject : top.object < s.heap.length) (node' : Node) :
    Opened s ⟨s'.heap.set top.object node' ++ [.array []], ⟨s'.heap.length, n⟩ :: top :: below⟩ n top below node'
      s'.heap.length := by
  have hle := h.le
  have hlength := h.length
  refine ⟨rfl, by omega, ?_, fun j hlt hne => ?_, ?_⟩
  · rw [List.length_append, List.length_set, List.length_singleton]
  · rw [List.getElem?_append_left (by rw [List.length_set]; omega), List.getElem?_set_ne (Ne.symm hne),
      h.others j hlt hne]
  · rw [List.getElem?_append_left (by rw [List.length_set]; omega)]
    exact List.getElem?_set_self (by omega)

/-- An Array in its place, which nothing refers to. -/
theorem Opened.detached (h : Opened s s' n top below node i) (hobject : top.object < s.heap.length) :
    Opened s ⟨s'.heap ++ [.array []], ⟨s'.heap.length, n⟩ :: top :: below⟩ n top below node s'.heap.length := by
  have hle := h.le
  have hlength := h.length
  refine ⟨rfl, by omega, ?_, fun j hlt hne => ?_, ?_⟩
  · rw [List.length_append, List.length_singleton]
  · rw [List.getElem?_append_left (by omega), h.others j hlt hne]
  · rw [List.getElem?_append_left (by omega), h.node]

theorem getElem?_concat {heap : List Node} : (heap ++ [node])[heap.length]? = some node := by
  rw [List.getElem?_append_right (Nat.le_refl _), Nat.sub_self]
  rfl

theorem builds_set (htop : top.indent < (n : Int)) (node : Node) :
    Builds s ⟨s.heap.set top.object node, top :: below⟩ n top below := by
  refine ⟨dedent_top htop, ?_, fun j hlt hne => ?_⟩
  · rw [List.length_set]
  · exact List.getElem?_set_ne (Ne.symm hne)

end

theorem trimmed_entry {x : Text} (h : Word key) (hx : OneLine x) : Trimmed (key ++ ':' :: ' ' :: x) :=
  Trimmed.append h.trimmed.head h.nonempty
    (fun c hc => hx.trimmed.last c (by
      rwa [List.getLast?_cons_of_ne_nil (List.cons_ne_nil _ _), List.getLast?_cons_of_ne_nil hx.nonempty] at hc))
    (List.cons_ne_nil _ _)

theorem trimmed_key (h : Word key) : Trimmed (key ++ [':']) :=
  Trimmed.append h.trimmed.head h.nonempty (fun c hc => by
    cases hc
    decide) (List.cons_ne_nil _ _)

theorem trimmed_item {x : Text} (hx : OneLine x) : Trimmed ('-' :: ' ' :: x) :=
  Trimmed.append (s := ['-', ' ']) (fun c hc => by
    cases hc
    decide) (List.cons_ne_nil _ _) hx.trimmed.last hx.nonempty

theorem place_hash {heap : List Node} {o : Nat} {cells : List (Text × Cell)} {cell : Cell}
    (h : heap[o]? = some (.hash cells)) (hnew : key ∉ cells.map Prod.fst) :
    Parser.place heap o (some key) cell = some (heap.set o (.hash (cells ++ [(key, cell)]))) := by
  unfold Parser.place
  rw [h]
  dsimp only
  rw [hashSet_of_not_mem hnew]

theorem place_array {heap : List Node} {o : Nat} {cells : List Cell} {cell : Cell}
    (h : heap[o]? = some (.array cells)) :
    Parser.place heap o none cell = some (heap.set o (.array (cells ++ [cell]))) := by
  unfold Parser.place
  rw [h]

theorem run_entry {x : Scalar} {cells : List (Text × Cell)} (hkey : Word key) (hx : OneLine x.written)
    (hstack : dedent n s.stack = top :: below) (hcells : s.heap[top.object]? = some (.hash cells))
    (hnew : key ∉ cells.map Prod.fst) (entries : List (Text × Value)) (rest : Text) :
    s.run (serializeEntries ((key, .scalar x) :: entries) n ++ rest) =
      Parser.run ⟨s.heap.set top.object (.hash (cells ++ [(key, .scalar (parseValue x.written))])), top :: below⟩
        (serializeEntries entries n ++ rest) := by
  have htext : serializeEntries ((key, .scalar x) :: entries) n ++ rest =
      (spaces n ++ (key ++ ':' :: ' ' :: x.written)) ++ '\n' :: (serializeEntries entries n ++ rest) := by
    simp [serializeEntries]
  have hunbroken : '\n' ∉ key ++ ':' :: ' ' :: x.written := by
    simp [hkey.oneLine.unbroken, hx.unbroken]
  rw [htext, run_line (by simp) (unbroken_spaces hunbroken n), step_key hkey (trimmed_entry hkey hx),
    strip_space hx, hstack,
    add_value (s := ⟨s.heap, top :: below⟩) hx.nonempty rfl (place_hash hcells hnew)]
  rfl

theorem run_entry_open {value : Value} {cells : List (Text × Cell)} (hkey : Word key) (hvalue : ∀ x, value ≠ .scalar x)
    (hstack : dedent n s.stack = top :: below) (hcells : s.heap[top.object]? = some (.hash cells))
    (hnew : key ∉ cells.map Prod.fst) (entries : List (Text × Value)) (rest : Text) :
    ∃ s', s.run (serializeEntries ((key, value) :: entries) n ++ rest) =
        s'.run (serialize value (n + 2) ++ (serializeEntries entries n ++ rest)) ∧
      Opened s s' n top below (.hash (cells ++ [(key, .ref s.heap.length)])) s.heap.length ∧
      s'.heap[s.heap.length]? = some (.hash []) := by
  have htext : serializeEntries ((key, value) :: entries) n ++ rest =
      (spaces n ++ (key ++ [':'])) ++ '\n' :: (serialize value (n + 2) ++ (serializeEntries entries n ++ rest)) := by
    cases value with
    | scalar x => exact absurd rfl (hvalue x)
    | hash l => simp [serializeEntries]
    | array l => simp [serializeEntries]
  have hunbroken : '\n' ∉ key ++ [':'] := by simp [hkey.oneLine.unbroken]
  have hlt : top.object < s.heap.length := (List.getElem?_eq_some_iff.mp hcells).1
  have hget : (s.heap ++ [Node.hash []])[top.object]? = some (.hash cells) := by
    rw [List.getElem?_append_left hlt]
    exact hcells
  have hnil : strip [] = [] := by decide
  refine ⟨⟨(s.heap ++ [Node.hash []]).set top.object _, ⟨s.heap.length, n⟩ :: top :: below⟩, ?_,
    opened_hash hlt _, opened_hash_get hlt _⟩
  rw [htext, run_line (by simp) (unbroken_spaces hunbroken n), step_key hkey (trimmed_key hkey), hnil, hstack,
    add_open (s := ⟨s.heap, top :: below⟩) rfl (Or.inr rfl) (place_hash hget hnew)]
  rfl

theorem toArray_of_array {heap : List Node} {cells : List Cell} (h : heap[top.object]? = some (.array cells)) :
    Parser.toArray ⟨heap, top :: below⟩ = some ⟨heap, top :: below⟩ := by
  unfold Parser.toArray
  simp only [h]

theorem run_item {x : Scalar} {cells : List Cell} (hx : OneLine x.written)
    (hstack : dedent n s.stack = top :: below) (hcells : s.heap[top.object]? = some (.array cells))
    (items : List Value) (rest : Text) :
    s.run (serializeItems (.scalar x :: items) n ++ rest) =
      Parser.run ⟨s.heap.set top.object (.array (cells ++ [.scalar (parseValue x.written)])), top :: below⟩
        (serializeItems items n ++ rest) := by
  have htext : serializeItems (.scalar x :: items) n ++ rest =
      (spaces n ++ '-' :: ' ' :: x.written) ++ '\n' :: (serializeItems items n ++ rest) := by
    simp [serializeItems]
  have hunbroken : '\n' ∉ '-' :: ' ' :: x.written := by simp [hx.unbroken]
  have htrimmed := trimmed_item hx
  rw [htext, run_line (by simp) (unbroken_spaces hunbroken n),
    step_item (strip_spaces htrimmed n) (countLeadingSpaces_spaces htrimmed n), hstack, toArray_of_array hcells,
    parseListItem_value hx, Option.bind_some,
    add_value (s := ⟨s.heap, top :: below⟩) hx.nonempty rfl (place_array hcells)]
  rfl

theorem strip_dash (n : Nat) : strip (spaces n ++ ['-', ' ']) = ['-'] := by
  unfold strip
  rw [lstrip_spaces]
  decide

theorem countLeadingSpaces_dash (n : Nat) : countLeadingSpaces (spaces n ++ ['-', ' ']) = n := by
  have hlstrip : lstrip ['-', ' '] = ['-', ' '] := by decide
  unfold countLeadingSpaces
  rw [lstrip_spaces, hlstrip, List.length_append, spaces, List.length_replicate]
  exact Nat.add_sub_cancel n 2

theorem run_item_open {value : Value} {cells : List Cell} (hvalue : ∀ x, value ≠ .scalar x)
    (hstack : dedent n s.stack = top :: below) (hcells : s.heap[top.object]? = some (.array cells))
    (items : List Value) (rest : Text) :
    ∃ s', s.run (serializeItems (value :: items) n ++ rest) =
        s'.run (serialize value (n + 2) ++ (serializeItems items n ++ rest)) ∧
      Opened s s' n top below (.array (cells ++ [.ref s.heap.length])) s.heap.length ∧
      s'.heap[s.heap.length]? = some (.hash []) := by
  have htext : serializeItems (value :: items) n ++ rest =
      (spaces n ++ ['-', ' ']) ++ '\n' :: (serialize value (n + 2) ++ (serializeItems items n ++ rest)) := by
    cases value with
    | scalar x => exact absurd rfl (hvalue x)
    | hash l => simp [serializeItems]
    | array l => simp [serializeItems]
  have hlt : top.object < s.heap.length := (List.getElem?_eq_some_iff.mp hcells).1
  have hget : (s.heap ++ [Node.hash []])[top.object]? = some (.array cells) := by
    rw [List.getElem?_append_left hlt]
    exact hcells
  have hitem : parseListItem ['-'] = none := by decide
  refine ⟨⟨(s.heap ++ [Node.hash []]).set top.object _, ⟨s.heap.length, n⟩ :: top :: below⟩, ?_,
    opened_hash hlt _, opened_hash_get hlt _⟩
  rw [htext, run_line (by simp) (unbroken_spaces (by decide) n),
    step_item (strip_dash n) (countLeadingSpaces_dash n), hstack, toArray_of_array hcells, hitem, Option.bind_some,
    add_open (s := ⟨s.heap, top :: below⟩) rfl (Or.inl rfl) (place_array hget)]
  rfl

theorem items_line {items : List Value} (hne : items ≠ []) (hitems : WritableItems items) (rest : Text) :
    ∃ line y rest', serializeItems items n ++ rest = line ++ '\n' :: rest' ∧ line ≠ [] ∧ '\n' ∉ line ∧
      strip line = '-' :: y ∧ countLeadingSpaces line = n := by
  obtain ⟨value, items, rfl⟩ := List.exists_cons_of_ne_nil hne
  cases value with
  | scalar x =>
    have hx : OneLine x.written := hitems.1
    have htrimmed := trimmed_item hx
    refine ⟨spaces n ++ '-' :: ' ' :: x.written, _, serializeItems items n ++ rest, ?_, by simp,
      unbroken_spaces (by simp [hx.unbroken]) n, strip_spaces htrimmed n, countLeadingSpaces_spaces htrimmed n⟩
    simp [serializeItems]
  | hash l =>
    refine ⟨spaces n ++ ['-', ' '], [], serialize (.hash l) (n + 2) ++ (serializeItems items n ++ rest), ?_, by simp,
      unbroken_spaces (by decide) n, strip_dash n, countLeadingSpaces_dash n⟩
    simp [serializeItems]
  | array l =>
    refine ⟨spaces n ++ ['-', ' '], [], serialize (.array l) (n + 2) ++ (serializeItems items n ++ rest), ?_, by simp,
      unbroken_spaces (by decide) n, strip_dash n, countLeadingSpaces_dash n⟩
    simp [serializeItems]

/-- The first item makes the Array. -/
theorem run_toArray {heap : List Node} {array : Nat} {cells : List Cell} {items : List Value}
    (hne : items ≠ []) (hitems : WritableItems items) (hstack : dedent n s.stack = top :: below)
    (htop : top.indent < (n : Int))
    (harray : Parser.toArray ⟨s.heap, top :: below⟩ = some ⟨heap, { top with object := array } :: below⟩)
    (hcells : heap[array]? = some (.array cells)) (rest : Text) :
    s.run (serializeItems items n ++ rest) =
      Parser.run ⟨heap, { top with object := array } :: below⟩ (serializeItems items n ++ rest) := by
  obtain ⟨line, y, rest', htext, hne, hunbroken, hstrip, hcount⟩ := items_line (n := n) hne hitems rest
  have hstep : s.step line = Parser.step ⟨heap, { top with object := array } :: below⟩ line := by
    rw [step_item hstrip hcount, step_item hstrip hcount, hstack, harray]
    dsimp only
    have harray' : Parser.toArray ⟨heap, { top with object := array } :: below⟩ =
        some ⟨heap, { top with object := array } :: below⟩ := toArray_of_array hcells
    rw [dedent_top (by exact htop), harray']
  rw [htext, run_line hne hunbroken, run_line hne hunbroken, hstep]

/-! ## The simulation -/

theorem toArray_of_hash {parent : Frame} {entries cells : List (Text × Cell)} {key : Text} {cell : Cell}
    {below : List Frame} {heap : List Node} (htop : heap[top.object]? = some (.hash entries))
    (hparent : heap[parent.object]? = some (.hash (cells ++ [(key, cell)]))) (hnew : key ∉ cells.map Prod.fst) :
    Parser.toArray ⟨heap, top :: parent :: below⟩ =
      some ⟨heap.set parent.object (.hash (cells ++ [(key, .ref heap.length)])) ++ [.array []],
        { top with object := heap.length } :: parent :: below⟩ := by
  unfold Parser.toArray
  simp only [htop, hparent, List.getLast?_append, List.getLast?_singleton, Option.some_or, Option.map_some,
    hashSet_concat hnew]

theorem toArray_of_array_below {parent : Frame} {entries : List (Text × Cell)} {items : List Cell}
    {below : List Frame} {heap : List Node} (htop : heap[top.object]? = some (.hash entries))
    (hparent : heap[parent.object]? = some (.array items)) :
    Parser.toArray ⟨heap, top :: parent :: below⟩ =
      some ⟨heap ++ [.array []], { top with object := heap.length } :: parent :: below⟩ := by
  unfold Parser.toArray
  simp only [htop, hparent]

/-- The Array behind a key takes the place of the Hash that was opened. -/
theorem run_entry_array {items : List Value} {cells : List (Text × Cell)} (hkey : Word key) (hne : items ≠ [])
    (hitems : WritableItems items) (hstack : dedent n s.stack = top :: below)
    (hcells : s.heap[top.object]? = some (.hash cells)) (hnew : key ∉ cells.map Prod.fst)
    (entries : List (Text × Value)) (rest : Text) :
    ∃ s' i, s.run (serializeEntries ((key, .array items) :: entries) n ++ rest) =
        s'.run (serializeItems items (n + 2) ++ (serializeEntries entries n ++ rest)) ∧
      Opened s s' n top below (.hash (cells ++ [(key, .ref i)])) i ∧ s'.heap[i]? = some (.array []) := by
  have hobject := (List.getElem?_eq_some_iff.mp hcells).1
  have hvalue (x : Scalar) : Value.array items ≠ .scalar x := Value.noConfusion
  obtain ⟨s₁, hrun, hopened, hempty⟩ := run_entry_open hkey hvalue hstack hcells hnew entries rest
  have harray : Parser.toArray ⟨s₁.heap, ⟨s.heap.length, n⟩ :: top :: below⟩ = some
      ⟨s₁.heap.set top.object (.hash (cells ++ [(key, .ref s₁.heap.length)])) ++ [.array []],
        ⟨s₁.heap.length, n⟩ :: top :: below⟩ := toArray_of_hash hempty hopened.node hnew
  have hget : (s₁.heap.set top.object (.hash (cells ++ [(key, .ref s₁.heap.length)])) ++
      [Node.array []])[s₁.heap.length]? = some (.array []) := by
    rw [List.getElem?_append_right (by rw [List.length_set]), List.length_set, Nat.sub_self]
    rfl
  refine ⟨_, _, hrun.trans ?_, hopened.array hobject _, hget⟩
  refine run_toArray hne hitems ?_ ?_ harray hget _
  · rw [hopened.stack]
    exact dedent_top (by dsimp only; omega)
  · dsimp only
    omega

/-- Nothing refers to the Array in an item; the Hash that was opened stays. -/
theorem run_item_array {items' : List Value} {cells : List Cell} (hne : items' ≠ [])
    (hitems : WritableItems items') (hstack : dedent n s.stack = top :: below)
    (hcells : s.heap[top.object]? = some (.array cells)) (items : List Value) (rest : Text) :
    ∃ s' i, s.run (serializeItems (.array items' :: items) n ++ rest) =
        s'.run (serializeItems items' (n + 2) ++ (serializeItems items n ++ rest)) ∧
      Opened s s' n top below (.array (cells ++ [.ref s.heap.length])) i ∧ s'.heap[i]? = some (.array []) ∧
      s.heap.length < i ∧ s'.heap[s.heap.length]? = some (.hash []) := by
  have hobject := (List.getElem?_eq_some_iff.mp hcells).1
  have hvalue (x : Scalar) : Value.array items' ≠ .scalar x := Value.noConfusion
  obtain ⟨s₁, hrun, hopened, hempty⟩ := run_item_open hvalue hstack hcells items rest
  have hlength := hopened.length
  have harray : Parser.toArray ⟨s₁.heap, ⟨s.heap.length, n⟩ :: top :: below⟩ = some
      ⟨s₁.heap ++ [.array []], ⟨s₁.heap.length, n⟩ :: top :: below⟩ :=
    toArray_of_array_below hempty hopened.node
  refine ⟨_, _, hrun.trans ?_, hopened.detached hobject, getElem?_concat, by omega, ?_⟩
  · refine run_toArray hne hitems ?_ ?_ harray getElem?_concat _
    · rw [hopened.stack]
      exact dedent_top (by dsimp only; omega)
    · dsimp only
      omega
  · rw [List.getElem?_append_left (by omega)]
    exact hempty

theorem opened_lt (n : Nat) {i : Nat} : (Frame.mk i n).indent < ((n + 2 : Nat) : Int) := by
  dsimp only
  omega

theorem opened_dedent {s' : Parser} {node : Node} {i : Nat} (h : Opened s s' n top below node i) :
    dedent ((n + 2 : Nat) : Int) s'.stack = ⟨i, n⟩ :: top :: below := by
  rw [h.stack]
  exact dedent_top (opened_lt n)

theorem nodup_snoc {cells : List (Text × Cell)} {value : Value} {entries : List (Text × Value)}
    (h : (cells.map Prod.fst ++ ((key, value) :: entries).map Prod.fst).Nodup) :
    key ∉ cells.map Prod.fst ∧
      ∀ cell : Cell, ((cells ++ [(key, cell)]).map Prod.fst ++ entries.map Prod.fst).Nodup := by
  constructor
  · intro hmem
    exact (List.nodup_append.mp h).2.2 key hmem key List.mem_cons_self rfl
  · intro cell
    simpa using h

section
variable {s' : Parser} {cell : Cell} {value : Value}

theorem entries_cons {cells : List (Text × Cell)} {entries : List (Text × Value)} {text rest : Text}
    (h : Builds s s' n top below) (hobject : top.object < s.heap.length)
    (hvalue : Represents s'.heap s.heap.length cell value)
    (hrest : ∃ s'' new, s'.run text = s''.run rest ∧ Builds s' s'' n top below ∧
      s''.heap[top.object]? = some (.hash (cells ++ [(key, cell)] ++ new)) ∧
      RepresentsEntries s''.heap s'.heap.length new entries) :
    ∃ s'' new, s'.run text = s''.run rest ∧ Builds s s'' n top below ∧
      s''.heap[top.object]? = some (.hash (cells ++ new)) ∧
      RepresentsEntries s''.heap s.heap.length new ((key, value) :: entries) := by
  obtain ⟨s'', new, hrun, hbuilds, hnode, hentries⟩ := hrest
  refine ⟨s'', (key, cell) :: new, hrun, h.trans hbuilds, ?_, cell, new, rfl, ?_, ?_⟩
  · rw [hnode, List.append_assoc]
    rfl
  · exact hvalue.frame (hbuilds.agrees hobject) (Nat.le_refl _)
  · exact hentries.frame (fun _ _ _ => rfl) h.length

theorem items_cons {cells : List Cell} {items : List Value} {text rest : Text}
    (h : Builds s s' n top below) (hobject : top.object < s.heap.length)
    (hvalue : Represents s'.heap s.heap.length cell value)
    (hrest : ∃ s'' new, s'.run text = s''.run rest ∧ Builds s' s'' n top below ∧
      s''.heap[top.object]? = some (.array (cells ++ [cell] ++ new)) ∧
      RepresentsItems s''.heap s'.heap.length new items) :
    ∃ s'' new, s'.run text = s''.run rest ∧ Builds s s'' n top below ∧
      s''.heap[top.object]? = some (.array (cells ++ new)) ∧
      RepresentsItems s''.heap s.heap.length new (value :: items) := by
  obtain ⟨s'', new, hrun, hbuilds, hnode, hitems⟩ := hrest
  refine ⟨s'', cell :: new, hrun, h.trans hbuilds, ?_, cell, new, rfl, ?_, ?_⟩
  · rw [hnode, List.append_assoc]
    rfl
  · exact hvalue.frame (hbuilds.agrees hobject) (Nat.le_refl _)
  · exact hitems.frame (fun _ _ _ => rfl) h.length

end

mutual

theorem entries_run : ∀ {entries : List (Text × Value)}, WritableEntries entries → ∀ {s : Parser} {n : Nat} {top : Frame}
    {below : List Frame} {cells : List (Text × Cell)} (rest : Text), dedent n s.stack = top :: below →
    top.indent < (n : Int) → s.heap[top.object]? = some (.hash cells) →
    (cells.map Prod.fst ++ entries.map Prod.fst).Nodup →
    ∃ s' new, s.run (serializeEntries entries n ++ rest) = s'.run rest ∧ Builds s s' n top below ∧
      s'.heap[top.object]? = some (.hash (cells ++ new)) ∧
      RepresentsEntries s'.heap s.heap.length new (keptEntries entries)
  | [], _, s, n, top, below, cells, rest, hstack, _, hcells, _ => by
    refine ⟨s, [], rfl, ⟨hstack, Nat.le_refl _, fun _ _ _ => rfl⟩, ?_, rfl⟩
    rw [List.append_nil]
    exact hcells
  | (key, .scalar x) :: entries, ⟨hkey, hx, hentries⟩, s, n, top, below, cells, rest, hstack, htop, hcells,
      hnodup => by
    have hobject := (List.getElem?_eq_some_iff.mp hcells).1
    obtain ⟨hnew, hnodup'⟩ := nodup_snoc hnodup
    rw [run_entry hkey hx hstack hcells hnew]
    exact entries_cons (builds_set htop _) hobject rfl
      (entries_run hentries rest (dedent_top htop) htop (List.getElem?_set_self hobject) (hnodup' _))
  | (key, .hash entries') :: entries, ⟨hkey, ⟨_, hnodup', hvalue⟩, hentries⟩, s, n, top, below, cells, rest, hstack,
      htop, hcells, hnodup => by
    have hobject := (List.getElem?_eq_some_iff.mp hcells).1
    have hhash (x : Scalar) : Value.hash entries' ≠ .scalar x := Value.noConfusion
    obtain ⟨hnew, hnodup''⟩ := nodup_snoc hnodup
    obtain ⟨s₁, hrun₁, hopened, hempty⟩ := run_entry_open hkey hhash hstack hcells hnew entries rest
    obtain ⟨s₂, new, hrun₂, hblock, hnode, hrep⟩ := entries_run hvalue (serializeEntries entries n ++ rest)
      (opened_dedent hopened) (opened_lt n) hempty hnodup'
    obtain ⟨hbuilds, htopNode⟩ := hopened.block htop hobject hblock
    rw [hopened.length] at hrep
    have hrun := hrun₁.trans hrun₂
    rw [hrun]
    exact entries_cons hbuilds hobject ⟨s.heap.length, new, rfl, Nat.le_refl _, hnode, hrep⟩
      (entries_run hentries rest hbuilds.stack htop htopNode (hnodup'' _))
  | (key, .array items) :: entries, ⟨hkey, ⟨hne, hvalue⟩, hentries⟩, s, n, top, below, cells, rest, hstack, htop,
      hcells, hnodup => by
    have hobject := (List.getElem?_eq_some_iff.mp hcells).1
    obtain ⟨hnew, hnodup'⟩ := nodup_snoc hnodup
    obtain ⟨s₁, i, hrun₁, hopened, hempty⟩ :=
      run_entry_array hkey hne hvalue hstack hcells hnew entries rest
    obtain ⟨s₂, new, hrun₂, hblock, hnode, hrep⟩ := items_run hvalue (serializeEntries entries n ++ rest)
      (opened_dedent hopened) (opened_lt n) hempty
    obtain ⟨hbuilds, htopNode⟩ := hopened.block htop hobject hblock
    rw [hopened.length] at hrep
    rw [hrun₁.trans hrun₂]
    exact entries_cons hbuilds hobject ⟨i, new, rfl, hopened.le, hnode, hrep⟩
      (entries_run hentries rest hbuilds.stack htop htopNode (hnodup' _))

theorem items_run : ∀ {items : List Value}, WritableItems items → ∀ {s : Parser} {n : Nat} {top : Frame}
    {below : List Frame} {cells : List Cell} (rest : Text), dedent n s.stack = top :: below →
    top.indent < (n : Int) → s.heap[top.object]? = some (.array cells) →
    ∃ s' new, s.run (serializeItems items n ++ rest) = s'.run rest ∧ Builds s s' n top below ∧
      s'.heap[top.object]? = some (.array (cells ++ new)) ∧
      RepresentsItems s'.heap s.heap.length new (keptItems items)
  | [], _, s, n, top, below, cells, rest, hstack, _, hcells => by
    refine ⟨s, [], rfl, ⟨hstack, Nat.le_refl _, fun _ _ _ => rfl⟩, ?_, rfl⟩
    rw [List.append_nil]
    exact hcells
  | .scalar x :: items, ⟨hx, hitems⟩, s, n, top, below, cells, rest, hstack, htop, hcells => by
    have hobject := (List.getElem?_eq_some_iff.mp hcells).1
    rw [run_item hx hstack hcells]
    exact items_cons (builds_set htop _) hobject rfl
      (items_run hitems rest (dedent_top htop) htop (List.getElem?_set_self hobject))
  | .hash entries :: items, ⟨⟨_, hnodup, hvalue⟩, hitems⟩, s, n, top, below, cells, rest, hstack, htop, hcells => by
    have hobject := (List.getElem?_eq_some_iff.mp hcells).1
    have hhash (x : Scalar) : Value.hash entries ≠ .scalar x := Value.noConfusion
    obtain ⟨s₁, hrun₁, hopened, hempty⟩ := run_item_open hhash hstack hcells items rest
    obtain ⟨s₂, new, hrun₂, hblock, hnode, hrep⟩ := entries_run hvalue (serializeItems items n ++ rest)
      (opened_dedent hopened) (opened_lt n) hempty hnodup
    obtain ⟨hbuilds, htopNode⟩ := hopened.block htop hobject hblock
    rw [hopened.length] at hrep
    have hrun := hrun₁.trans hrun₂
    rw [hrun]
    exact items_cons hbuilds hobject ⟨s.heap.length, new, rfl, Nat.le_refl _, hnode, hrep⟩
      (items_run hitems rest hbuilds.stack htop htopNode)
  | .array items' :: items, ⟨⟨hne, hvalue⟩, hitems⟩, s, n, top, below, cells, rest, hstack, htop, hcells => by
    have hobject := (List.getElem?_eq_some_iff.mp hcells).1
    obtain ⟨s₁, i, hrun₁, hopened, hempty, hlt, hhash⟩ := run_item_array hne hvalue hstack hcells items rest
    obtain ⟨s₂, new, hrun₂, hblock, -, -⟩ := items_run hvalue (serializeItems items n ++ rest)
      (opened_dedent hopened) (opened_lt n) hempty
    obtain ⟨hbuilds, htopNode⟩ := hopened.block htop hobject hblock
    have hlength := hopened.length
    -- the Hash that was opened for the item is left empty
    have hkept : s₂.heap[s.heap.length]? = some (.hash []) := by
      rw [hblock.others _ (by omega) (Nat.ne_of_lt hlt), hhash]
    rw [hrun₁.trans hrun₂]
    exact items_cons hbuilds hobject ⟨s.heap.length, [], rfl, Nat.le_refl _, hkept, rfl⟩
      (items_run hitems rest hbuilds.stack htop htopNode)

end

end PicoRuby.Yaml
