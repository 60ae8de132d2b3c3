import PicoRuby.Yaml.Blocks

/-!
# Loading what was dumped

A Hash comes back as it was, unless an Array in it is an item of another Array; an Array at the top does not.
-/

namespace PicoRuby.Yaml

open Shared

set_option autoImplicit false

theorem toArray_start : Parser.toArray ⟨Parser.start.heap, [⟨0, -1⟩]⟩ = some ⟨[.hash [], .array []], [⟨1, -1⟩]⟩ := rfl

/-- Every dump can be loaded. -/
theorem load_dump {value : Value} (h : value.Writable) (hcontainer : ∀ x, value ≠ .scalar x) :
    load (dump value) = some value.kept := by
  have hparse (text : Text) : parse text = Parser.start.run (text ++ []) := by
    rw [List.append_nil]
    rfl
  have hend (s : Parser) : s.run [] = some s := rfl
  cases value with
  | scalar x => exact absurd rfl (hcontainer x)
  | hash entries =>
    obtain ⟨-, hnodup, hentries⟩ := h
    obtain ⟨s, new, hrun, -, hnode, hrep⟩ := entries_run hentries (s := .start) (n := 0) [] rfl
      (by decide) rfl hnodup
    have hroot : Represents s.heap 0 (.ref 0) (Value.hash entries).kept :=
      ⟨0, new, rfl, Nat.le_refl _, hnode, hrep⟩
    unfold load dump
    rw [hparse, serialize, hrun, hend, Option.map_some, hroot.read_eq _ (Nat.le_refl _)]
  | array items =>
    obtain ⟨hne, hitems⟩ := h
    have harray := run_toArray (s := .start) (n := 0) hne hitems rfl (by decide) toArray_start rfl []
    obtain ⟨s, new, hrun, hbuilds, -, -⟩ := items_run hitems (n := 0)
      (s := ⟨[.hash [], .array []], [⟨1, -1⟩]⟩) [] rfl (by decide) rfl
    have hnode : s.heap[0]? = some (.hash []) := hbuilds.others 0 (by decide) (by decide)
    have hroot : Represents s.heap 0 (.ref 0) (Value.array items).kept :=
      ⟨0, [], rfl, Nat.le_refl _, hnode, rfl⟩
    unfold load dump
    rw [hparse, serialize, harray, hrun, hend, Option.map_some, hroot.read_eq _ (Nat.le_refl _)]

/-! ## Equal values -/

mutual

/-- `==`: the order of the pairs of a Hash does not count. -/
def Value.Equal : Value → Value → Prop
  | .scalar s, w => w = .scalar s
  | .hash entries, w => ∃ entries', w = .hash entries' ∧ entries'.length = entries.length ∧
      EqualEntries entries entries'
  | .array items, w => ∃ items', w = .array items' ∧ EqualItems items items'

def EqualEntries : List (Text × Value) → List (Text × Value) → Prop
  | [], _ => True
  | (key, value) :: entries, entries' => (∃ value', (key, value') ∈ entries' ∧ value.Equal value') ∧
      EqualEntries entries entries'

def EqualItems : List Value → List Value → Prop
  | [], items' => items' = []
  | value :: items, items' => ∃ value' rest, items' = value' :: rest ∧ value.Equal value' ∧ EqualItems items rest

end

mutual

/-- Non-empty Hashes and Arrays of plain scalars, with words for keys. -/
def Value.Plain : Value → Prop
  | .scalar s => s.Plain
  | .hash entries => entries ≠ [] ∧ (entries.map Prod.fst).Nodup ∧ PlainEntries entries
  | .array items => items ≠ [] ∧ PlainItems items

def PlainEntries : List (Text × Value) → Prop
  | [] => True
  | (key, value) :: entries => Word key ∧ value.Plain ∧ PlainEntries entries

def PlainItems : List Value → Prop
  | [] => True
  | value :: items => value.Plain ∧ PlainItems items

end

mutual

/-- Every Array is a value in a Hash: none is all there is, or an item of another one. -/
def Value.ArraysInHashes : Value → Prop
  | .scalar _ => True
  | .hash entries => ArraysInEntries entries
  | .array _ => False

def ArraysInEntries : List (Text × Value) → Prop
  | [] => True
  | (_, .array items) :: entries => ArraysInItems items ∧ ArraysInEntries entries
  | (_, value) :: entries => value.ArraysInHashes ∧ ArraysInEntries entries

def ArraysInItems : List Value → Prop
  | [] => True
  | value :: items => value.ArraysInHashes ∧ ArraysInItems items

end

mutual

theorem Value.Plain.writable : ∀ {value : Value}, value.Plain → value.Writable
  | .scalar _, h => Scalar.Plain.oneLine h
  | .hash _, ⟨hne, hnodup, hentries⟩ => ⟨hne, hnodup, hentries.writable⟩
  | .array _, ⟨hne, hitems⟩ => ⟨hne, hitems.writable⟩

theorem PlainEntries.writable : ∀ {entries : List (Text × Value)}, PlainEntries entries → WritableEntries entries
  | [], _ => trivial
  | (_, _) :: _, ⟨hkey, hvalue, hentries⟩ => ⟨hkey, hvalue.writable, hentries.writable⟩

theorem PlainItems.writable : ∀ {items : List Value}, PlainItems items → WritableItems items
  | [], _ => trivial
  | _ :: _, ⟨hvalue, hitems⟩ => ⟨hvalue.writable, hitems.writable⟩

end

theorem keptEntries_length (entries : List (Text × Value)) : (keptEntries entries).length = entries.length := by
  induction entries with
  | nil => rfl
  | cons entry entries ih =>
    obtain ⟨key, value⟩ := entry
    cases value <;> exact congrArg (· + 1) ih

theorem exists_equal_iff {entries : List (Text × Value)} {key : Text} {value kept : Value}
    (hnodup : (entries.map Prod.fst).Nodup) (hmem : (key, value) ∈ entries) :
    (∃ value', (key, value') ∈ entries ∧ kept.Equal value') ↔ kept.Equal value := by
  constructor
  · rintro ⟨value', hmem', hequal⟩
    have hget := hashGet_of_mem hnodup hmem
    rw [hashGet_of_mem hnodup hmem'] at hget
    cases hget
    exact hequal
  · exact fun hequal => ⟨value, hmem, hequal⟩

mutual

/-- What comes back is equal exactly when every Array is a value in a Hash. -/
theorem Value.Plain.kept_equal : ∀ {value : Value}, value.Plain → (value.kept.Equal value ↔ value.ArraysInHashes)
  | .scalar x, h => by
    have hkept : parseValue x.written = x := Scalar.Plain.parseValue h
    refine iff_of_true ?_ trivial
    unfold Value.kept
    rw [hkept]
    rfl
  | .hash entries, ⟨_, hnodup, hentries⟩ => by
    have hiff := hentries.kept_equal hnodup fun _ h => h
    constructor
    · rintro ⟨entries', heq, -, hequal⟩
      cases heq
      exact hiff.mp hequal
    · exact fun h => ⟨entries, rfl, (keptEntries_length entries).symm, hiff.mpr h⟩
  | .array items, _ => by
    refine iff_of_false ?_ fun h => h
    rintro ⟨entries', heq, -⟩
    cases heq

theorem PlainEntries.kept_equal {all : List (Text × Value)} (hnodup : (all.map Prod.fst).Nodup) :
    ∀ {entries : List (Text × Value)}, PlainEntries entries → entries ⊆ all →
      (EqualEntries (keptEntries entries) all ↔ ArraysInEntries entries)
  | [], _, _ => Iff.rfl
  | (key, .scalar x) :: entries, ⟨_, hvalue, hentries⟩, hsub => by
    obtain ⟨hmem, hsub⟩ := List.cons_subset.mp hsub
    exact and_congr ((exists_equal_iff hnodup hmem).trans hvalue.kept_equal) (hentries.kept_equal hnodup hsub)
  | (key, .hash l) :: entries, ⟨_, hvalue, hentries⟩, hsub => by
    obtain ⟨hmem, hsub⟩ := List.cons_subset.mp hsub
    exact and_congr ((exists_equal_iff hnodup hmem).trans hvalue.kept_equal) (hentries.kept_equal hnodup hsub)
  | (key, .array items) :: entries, ⟨_, ⟨_, hitems⟩, hentries⟩, hsub => by
    obtain ⟨hmem, hsub⟩ := List.cons_subset.mp hsub
    have harray : (Value.array (keptItems items)).Equal (.array items) ↔ ArraysInItems items := by
      rw [← hitems.kept_equal]
      constructor
      · rintro ⟨items', heq, hequal⟩
        cases heq
        exact hequal
      · exact fun h => ⟨items, rfl, h⟩
    exact and_congr ((exists_equal_iff hnodup hmem).trans harray) (hentries.kept_equal hnodup hsub)

theorem PlainItems.kept_equal : ∀ {items : List Value}, PlainItems items →
    (EqualItems (keptItems items) items ↔ ArraysInItems items)
  | [], _ => iff_of_true rfl trivial
  | value :: items, ⟨hvalue, hitems⟩ => by
    rw [ArraysInItems, ← hvalue.kept_equal, ← hitems.kept_equal]
    constructor
    · rintro ⟨value', rest, heq, hequal, hrest⟩
      cases heq
      exact ⟨hequal, hrest⟩
    · exact fun ⟨hequal, hrest⟩ => ⟨value, items, rfl, hequal, hrest⟩

end

/-- **A dump is loaded as the value it was made from** exactly when every Array is a value in a Hash. -/
theorem loads_iff (value : Value) (h : value.Plain) (hcontainer : ∀ x, value ≠ .scalar x) :
    (∃ loaded, load (dump value) = some loaded ∧ loaded.Equal value) ↔ value.ArraysInHashes := by
  rw [load_dump h.writable hcontainer, ← h.kept_equal]
  constructor
  · rintro ⟨loaded, heq, hequal⟩
    cases heq
    exact hequal
  · exact fun hequal => ⟨value.kept, rfl, hequal⟩

/-- `[1]`, and `{"a" => [[1]]}`. -/
theorem array_lost :
    load (dump (.array [.scalar (.integer 1)])) = some (.hash []) ∧
    load (dump (.hash [(['a'], .array [.array [.scalar (.integer 1)]])])) =
      some (.hash [(['a'], .array [.hash []])]) :=
  ⟨rfl, rfl⟩

/-- `{"a" => ["b", {"c" => -1}], "d" => nil}`. -/
theorem nested_loads :
    ∃ loaded, load (dump (.hash
        [(['a'], .array [.scalar (.string ['b']), .hash [(['c'], .scalar (.integer (-1)))]]),
          (['d'], .scalar .null)])) = some loaded ∧
      loaded.Equal (.hash
        [(['a'], .array [.scalar (.string ['b']), .hash [(['c'], .scalar (.integer (-1)))]]),
          (['d'], .scalar .null)]) := by
  have hword (c : Char) (hsolid : isBlank c = false ∧ c ≠ '\x00') (hhead : c ≠ '-' ∧ c ≠ '#') (hcolon : c ≠ ':') :
      Word [c] := by
    refine ⟨List.cons_ne_nil _ _, List.forall_mem_singleton.mpr hsolid, ?_, ?_⟩
    · rw [List.mem_singleton]
      exact Ne.symm hcolon
    · intro d hd
      cases hd
      exact hhead
  have hb : PlainWord ['b'] := by
    refine ⟨hword 'b' (by decide) (by decide) (by decide), ?_, by decide⟩
    intro hnumeric
    have hdigit := hnumeric 'b' List.mem_cons_self
    revert hdigit
    decide
  refine (loads_iff _ ?_ (fun _ => Value.noConfusion)).mpr ?_
  · exact ⟨List.cons_ne_nil _ _, by decide, hword 'a' (by decide) (by decide) (by decide),
      ⟨List.cons_ne_nil _ _, hb, ⟨List.cons_ne_nil _ _, by decide, hword 'c' (by decide) (by decide) (by decide),
        trivial, trivial⟩, trivial⟩,
      hword 'd' (by decide) (by decide) (by decide), trivial, trivial⟩
  · exact ⟨⟨trivial, ⟨trivial, trivial⟩, trivial⟩, trivial, trivial⟩

end PicoRuby.Yaml
