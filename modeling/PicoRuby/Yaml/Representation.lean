import PicoRuby.Yaml.Parser

/-!
# What the heap stands for

An Array that is a value in a Hash comes back; one that is an item of another Array, or all there is, comes back
as an empty Hash.
-/

namespace PicoRuby.Yaml

open Shared

set_option autoImplicit false

mutual

/-- A value as it comes back: a scalar as it is spelled, and an empty Hash for an Array that is not in a Hash. -/
def Value.kept : Value → Value
  | .scalar s => .scalar (parseValue s.written)
  | .hash entries => .hash (keptEntries entries)
  | .array _ => .hash []

def keptEntries : List (Text × Value) → List (Text × Value)
  | [] => []
  | (key, .array items) :: entries => (key, .array (keptItems items)) :: keptEntries entries
  | (key, value) :: entries => (key, value.kept) :: keptEntries entries

def keptItems : List Value → List Value
  | [] => []
  | value :: items => value.kept :: keptItems items

end

mutual

/-- A cell of the heap stands for a value, by objects from `low` on. -/
def Represents (heap : List Node) : Nat → Cell → Value → Prop
  | _, cell, .scalar s => cell = .scalar s
  | low, cell, .hash entries => ∃ i cells, cell = .ref i ∧ low ≤ i ∧ heap[i]? = some (.hash cells) ∧
      RepresentsEntries heap (i + 1) cells entries
  | low, cell, .array items => ∃ i cells, cell = .ref i ∧ low ≤ i ∧ heap[i]? = some (.array cells) ∧
      RepresentsItems heap (i + 1) cells items

def RepresentsEntries (heap : List Node) : Nat → List (Text × Cell) → List (Text × Value) → Prop
  | _, cells, [] => cells = []
  | low, cells, (key, value) :: entries => ∃ cell rest, cells = (key, cell) :: rest ∧
      Represents heap low cell value ∧ RepresentsEntries heap low rest entries

def RepresentsItems (heap : List Node) : Nat → List Cell → List Value → Prop
  | _, cells, [] => cells = []
  | low, cells, value :: items => ∃ cell rest, cells = cell :: rest ∧
      Represents heap low cell value ∧ RepresentsItems heap low rest items

end

/-- The objects from `low` on are the same. -/
def Agrees (low : Nat) (heap heap' : List Node) : Prop := ∀ i, low ≤ i → i < heap.length → heap'[i]? = heap[i]?

variable {heap heap' : List Node} {low low' : Nat}

theorem Agrees.get {i : Nat} {node : Node} (h : Agrees low heap heap') (hlow : low ≤ i)
    (hget : heap[i]? = some node) : heap'[i]? = some node := by
  obtain ⟨hlt, -⟩ := List.getElem?_eq_some_iff.mp hget
  rw [h i hlow hlt, hget]

theorem Agrees.mono (h : Agrees low heap heap') (hle : low ≤ low') : Agrees low' heap heap' :=
  fun i hlow hlt => h i (Nat.le_trans hle hlow) hlt

mutual

theorem Represents.frame : ∀ {low low' : Nat} {cell : Cell} {value : Value}, Represents heap low cell value →
    Agrees low heap heap' → low' ≤ low → Represents heap' low' cell value
  | _, _, _, .scalar _, h, _, _ => h
  | _, _, _, .hash _, ⟨i, cells, hcell, hlow, hget, hentries⟩, hagrees, hle =>
    ⟨i, cells, hcell, Nat.le_trans hle hlow, hagrees.get hlow hget,
      hentries.frame (hagrees.mono (Nat.le_succ_of_le hlow)) (Nat.le_refl _)⟩
  | _, _, _, .array _, ⟨i, cells, hcell, hlow, hget, hitems⟩, hagrees, hle =>
    ⟨i, cells, hcell, Nat.le_trans hle hlow, hagrees.get hlow hget,
      hitems.frame (hagrees.mono (Nat.le_succ_of_le hlow)) (Nat.le_refl _)⟩

theorem RepresentsEntries.frame : ∀ {low low' : Nat} {cells : List (Text × Cell)} {entries : List (Text × Value)},
    RepresentsEntries heap low cells entries → Agrees low heap heap' → low' ≤ low →
      RepresentsEntries heap' low' cells entries
  | _, _, _, [], h, _, _ => h
  | _, _, _, (_, _) :: _, ⟨cell, rest, hcells, hvalue, hentries⟩, hagrees, hle =>
    ⟨cell, rest, hcells, hvalue.frame hagrees hle, hentries.frame hagrees hle⟩

theorem RepresentsItems.frame : ∀ {low low' : Nat} {cells : List Cell} {items : List Value},
    RepresentsItems heap low cells items → Agrees low heap heap' → low' ≤ low →
      RepresentsItems heap' low' cells items
  | _, _, _, [], h, _, _ => h
  | _, _, _, _ :: _, ⟨cell, rest, hcells, hvalue, hitems⟩, hagrees, hle =>
    ⟨cell, rest, hcells, hvalue.frame hagrees hle, hitems.frame hagrees hle⟩

end

mutual

/-- What is returned is what the cell stands for. -/
theorem Represents.read_eq : ∀ {low : Nat} (depth : Nat) {cell : Cell} {value : Value}, Represents heap low cell value →
    heap.length ≤ depth + low → read heap depth cell = value
  | _, _, _, .scalar _, h, _ => by
    cases h
    unfold read
    rfl
  | _, depth, _, .hash _, ⟨i, cells, hcell, hlow, hget, hentries⟩, hdepth => by
    obtain ⟨hlt, -⟩ := List.getElem?_eq_some_iff.mp hget
    obtain ⟨depth, rfl⟩ : ∃ d, depth = d + 1 := ⟨depth - 1, by omega⟩
    rw [hcell]
    unfold read
    rw [hget]
    dsimp only
    rw [hentries.read_eq depth (by omega)]
  | _, depth, _, .array _, ⟨i, cells, hcell, hlow, hget, hitems⟩, hdepth => by
    obtain ⟨hlt, -⟩ := List.getElem?_eq_some_iff.mp hget
    obtain ⟨depth, rfl⟩ : ∃ d, depth = d + 1 := ⟨depth - 1, by omega⟩
    rw [hcell]
    unfold read
    rw [hget]
    dsimp only
    rw [hitems.read_eq depth (by omega)]

theorem RepresentsEntries.read_eq : ∀ {low : Nat} (depth : Nat) {cells : List (Text × Cell)} {entries : List (Text × Value)},
    RepresentsEntries heap low cells entries → heap.length ≤ depth + low →
      cells.map (fun (key, cell) => (key, read heap depth cell)) = entries
  | _, _, _, [], h, _ => by
    rw [h]
    rfl
  | _, depth, _, (_, _) :: _, ⟨cell, rest, hcells, hvalue, hentries⟩, hdepth => by
    rw [hcells, List.map_cons]
    dsimp only
    rw [hvalue.read_eq depth hdepth, hentries.read_eq depth hdepth]

theorem RepresentsItems.read_eq : ∀ {low : Nat} (depth : Nat) {cells : List Cell} {items : List Value},
    RepresentsItems heap low cells items → heap.length ≤ depth + low → cells.map (read heap depth) = items
  | _, _, _, [], h, _ => by
    rw [h]
    rfl
  | _, depth, _, _ :: _, ⟨cell, rest, hcells, hvalue, hitems⟩, hdepth => by
    rw [hcells, List.map_cons, hvalue.read_eq depth hdepth, hitems.read_eq depth hdepth]

end

end PicoRuby.Yaml
