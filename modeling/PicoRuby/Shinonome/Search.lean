import PicoRuby.Shinonome.Font

/-!
# unicode_to_jis

The binary search with its signed indices, over any table of 16 bit codes.
-/

namespace PicoRuby.Shinonome.Search

open Shared

set_option autoImplicit false

/-- `unicode2jis_t`. -/
structure Pair where
  unicode : UInt16
  jis : UInt16
deriving DecidableEq, Repr

inductive Fault where
  | outside (index : Int)
  | overflow
deriving DecidableEq, Repr

/-- A value of an `int`. -/
def FitsInt (i : Int) : Prop := -2 ^ 31 ≤ i ∧ i < 2 ^ 31

instance (i : Int) : Decidable (FitsInt i) := inferInstanceAs (Decidable (_ ∧ _))

/-- `unicode2jis[index]`. -/
def entryAt (table : List Pair) (index : Int) : Except Fault Pair :=
  if index < 0 then .error (.outside index)
  else
    match table[index.toNat]? with
    | some entry => .ok entry
    | none => .error (.outside index)

theorem middle_le {left right : Int} (h : left ≤ right) :
    left ≤ (left + right).tdiv 2 ∧ (left + right).tdiv 2 ≤ right := by
  rw [Int.tdiv_eq_ediv]
  split
  · omega
  · have hsign : Int.sign 2 = 1 := rfl
    omega

/-- The loop of `unicode_to_jis`. -/
def searchFrom (table : List Pair) (unicode : UInt16) (left right : Int) : Except Fault UInt16 :=
  if left ≤ right then
    if FitsInt (left + right) then
      let mid := (left + right).tdiv 2
      match entryAt table mid with
      | .error fault => .error fault
      | .ok entry =>
        if entry.unicode = unicode then .ok entry.jis
        else if entry.unicode < unicode then searchFrom table unicode (mid + 1) right
        else searchFrom table unicode left (mid - 1)
    else .error .overflow
  else .ok 0
termination_by (right + 1 - left).toNat
decreasing_by
  · have hmid := middle_le (by assumption : left ≤ right)
    omega
  · have hmid := middle_le (by assumption : left ≤ right)
    omega

/-- `right` is made from a `size_t`. -/
def unicodeToJis (table : List Pair) (unicode : UInt16) : Except Fault UInt16 :=
  searchFrom table unicode 0 (((table.length : Int) - 1).bmod (2 ^ 32))

structure SortedTable where
  entries : List Pair
  sorted : entries.Pairwise fun e e' => e.unicode < e'.unicode

/-- The array of a table. The one that is generated has `{0, 0}` behind its entries. -/
def SortedTable.array (t : SortedTable) (terminated : Bool) : List Pair :=
  t.entries ++ if terminated then [⟨0, 0⟩] else []

/-! ## One round -/

section Round
variable {table : List Pair} {unicode : UInt16} {left right : Int}

theorem entryAt_nat {k : Nat} (hk : k < table.length) : entryAt table k = .ok table[k] := by
  unfold entryAt
  rw [if_neg (Int.not_lt.mpr (Int.natCast_nonneg k)), Int.toNat_natCast, List.getElem?_eq_getElem hk]

/-- Where the indices are inside the table, so is the middle. -/
theorem middle_nat (hle : left ≤ right) (hzero : 0 ≤ left) (hright : right < table.length) :
    ∃ k : Nat, k < table.length ∧ (left + right) / 2 = k ∧ (left + right).tdiv 2 = k := by
  have hdiv : (left + right).tdiv 2 = (left + right) / 2 := Int.tdiv_eq_ediv_of_nonneg (by omega)
  obtain ⟨k, hk⟩ := Int.eq_ofNat_of_zero_le (by omega : 0 ≤ (left + right) / 2)
  exact ⟨k, by omega, hk, hdiv.trans hk⟩

theorem searchFrom_empty (h : right < left) : searchFrom table unicode left right = .ok 0 := by
  rw [searchFrom, if_neg (Int.not_le.mpr h)]

theorem searchFrom_round (unicode : UInt16) (hle : left ≤ right) (hzero : 0 ≤ left) (hright : right < table.length)
    (hsmall : table.length ≤ 2 ^ 30) :
    ∃ (k : Nat) (hk : k < table.length), (left + right) / 2 = k ∧
      searchFrom table unicode left right =
        if table[k].unicode = unicode then .ok table[k].jis
        else if table[k].unicode < unicode then searchFrom table unicode (k + 1) right
        else searchFrom table unicode left (k - 1) := by
  obtain ⟨k, hk, hmid, htdiv⟩ := middle_nat hle hzero hright
  refine ⟨k, hk, hmid, ?_⟩
  have hfits : FitsInt (left + right) := ⟨by omega, by omega⟩
  rw [searchFrom, if_pos hle, if_pos hfits]
  dsimp only
  rw [htdiv, entryAt_nat hk]

end Round

/-! ## The search -/

section Table
variable {table : List Pair} {unicode : UInt16}

/-- What is kept by each round, and holds where no round is left, holds of the search. -/
theorem searchFrom_induction (hsmall : table.length ≤ 2 ^ 30) {motive : Int → Int → Except Fault UInt16 → Prop}
    (empty : ∀ left right : Int, right < left → motive left right (.ok 0))
    (found : ∀ (left right : Int) (k : Nat) (hk : k < table.length), left ≤ right → (left + right) / 2 = k →
      table[k].unicode = unicode → motive left right (.ok table[k].jis))
    (above : ∀ (left right : Int) (result) (k : Nat) (hk : k < table.length), left ≤ right → (left + right) / 2 = k →
      table[k].unicode < unicode → motive (k + 1) right result → motive left right result)
    (below : ∀ (left right : Int) (result) (k : Nat) (hk : k < table.length), left ≤ right → (left + right) / 2 = k →
      unicode < table[k].unicode → motive left (k - 1) result → motive left right result)
    {left right : Int} (hzero : 0 ≤ left) (hright : right < table.length) :
    motive left right (searchFrom table unicode left right) := by
  induction hn : (right + 1 - left).toNat using Nat.strongRecOn generalizing left right with
  | _ n ih =>
    subst hn
    by_cases hle : left ≤ right
    · obtain ⟨k, hk, hmid, hround⟩ := searchFrom_round unicode hle hzero hright hsmall
      rw [hround]
      split
      · rename_i heq
        exact found left right k hk hle hmid heq
      · rename_i hne
        split
        · rename_i hlt
          exact above left right _ k hk hle hmid hlt (ih _ (by omega) (by omega) hright rfl)
        · rename_i hge
          have hlt : unicode < table[k].unicode := UInt16.lt_of_le_of_ne (UInt16.not_lt.mp hge) (Ne.symm hne)
          exact below left right _ k hk hle hmid hlt (ih _ (by omega) hzero (by omega) rfl)
    · rw [searchFrom_empty (Int.not_le.mp hle)]
      exact empty left right (Int.not_le.mp hle)

/-- What is returned stands in the table with the code, or it is 0. -/
theorem searchFrom_some (unicode : UInt16) (hsmall : table.length ≤ 2 ^ 30) {left right : Int} (hzero : 0 ≤ left)
    (hright : right < table.length) :
    searchFrom table unicode left right = .ok 0 ∨
      ∃ e ∈ table, e.unicode = unicode ∧ searchFrom table unicode left right = .ok e.jis := by
  apply searchFrom_induction hsmall (motive := fun _ _ result =>
    result = .ok 0 ∨ ∃ e ∈ table, e.unicode = unicode ∧ result = .ok e.jis) ?empty ?found ?above ?below hzero hright
  case empty => exact fun _ _ _ => .inl rfl
  case found => exact fun _ _ k hk _ _ heq => .inr ⟨_, List.getElem_mem hk, heq, rfl⟩
  case above => exact fun _ _ _ _ _ _ _ _ ih => ih
  case below => exact fun _ _ _ _ _ _ _ _ ih => ih

/-- An entry as the lookup of a glyph sees it. -/
def Pair.entry (p : Pair) : Entry := ⟨p.unicode.toNat, p.jis.toNat⟩

theorem getD_entry {k : Nat} (hk : k < table.length) : (table.map Pair.entry).getD k ⟨0, 0⟩ = table[k].entry := by
  have hk' : k < (table.map Pair.entry).length := by rwa [List.length_map]
  rw [← List.getElem_eq_getD (h := hk'), List.getElem_map]

theorem search_round {left right : Int} {k : Nat} (hle : left ≤ right) (hmid : (left + right) / 2 = k)
    (hk : k < table.length) :
    search (table.map Pair.entry) unicode.toNat left right =
      if table[k].unicode.toNat = unicode.toNat then table[k].jis.toNat
      else if table[k].unicode.toNat < unicode.toNat then search (table.map Pair.entry) unicode.toNat (k + 1) right
      else search (table.map Pair.entry) unicode.toNat left (k - 1) := by
  rw [search, if_pos hle]
  dsimp only
  rw [hmid, Int.toNat_natCast, getD_entry hk]
  rfl

/-- Without a look at the indices, the same is found. -/
theorem searchFrom_search (hsmall : table.length ≤ 2 ^ 30) {left right : Int} (hzero : 0 ≤ left)
    (hright : right < table.length) :
    ∃ jis, searchFrom table unicode left right = .ok jis ∧
      search (table.map Pair.entry) unicode.toNat left right = jis.toNat := by
  apply searchFrom_induction hsmall (motive := fun left right result =>
    ∃ jis, result = .ok jis ∧ search (table.map Pair.entry) unicode.toNat left right = jis.toNat)
    ?empty ?found ?above ?below hzero hright
  case empty =>
    intro left right hempty
    refine ⟨0, rfl, ?_⟩
    rw [search, if_neg (Int.not_le.mpr hempty)]
    rfl
  case found =>
    intro left right k hk hle hmid heq
    refine ⟨_, rfl, ?_⟩
    rw [search_round hle hmid hk, if_pos (congrArg UInt16.toNat heq)]
  case above =>
    rintro left right result k hk hle hmid hlt ⟨jis, hresult, hsearch⟩
    refine ⟨jis, hresult, ?_⟩
    have hnat : table[k].unicode.toNat < unicode.toNat := hlt
    rw [search_round hle hmid hk, if_neg (Nat.ne_of_lt hnat), if_pos hnat]
    exact hsearch
  case below =>
    rintro left right result k hk hle hmid hlt ⟨jis, hresult, hsearch⟩
    refine ⟨jis, hresult, ?_⟩
    have hnat : unicode.toNat < table[k].unicode.toNat := hlt
    rw [search_round hle hmid hk, if_neg (Nat.ne_of_gt hnat), if_neg (Nat.lt_asymm hnat)]
    exact hsearch

end Table

namespace SortedTable
variable (t : SortedTable) (terminated : Bool)

theorem array_length : t.entries.length ≤ (t.array terminated).length ∧
    (t.array terminated).length ≤ t.entries.length + 1 := by
  unfold array
  rw [List.length_append]
  cases terminated with
  | true => exact ⟨Nat.le_succ _, Nat.le_refl _⟩
  | false => exact ⟨Nat.le_refl _, Nat.le_succ _⟩

theorem array_getElem {k : Nat} (hk : k < t.entries.length) (h : k < (t.array terminated).length) :
    (t.array terminated)[k] = t.entries[k] :=
  List.getElem_append_left hk

/-- There are no more entries than codes of 16 bits. -/
theorem length_le : t.entries.length ≤ 2 ^ 16 := by
  have hnodup : (t.entries.map fun e => e.unicode.toNat).Nodup := by
    rw [List.Nodup, List.pairwise_map]
    apply t.sorted.imp
    intro e e' hlt heq
    exact Nat.ne_of_lt hlt heq
  have hsubset : (t.entries.map fun e => e.unicode.toNat) ⊆ List.range (2 ^ 16) := by
    intro n hn
    obtain ⟨e, -, rfl⟩ := List.mem_map.mp hn
    exact List.mem_range.mpr e.unicode.toNat_lt
  have hle := hnodup.length_le_of_subset hsubset
  rwa [List.length_map, List.length_range] at hle

theorem entries_lt {i j : Nat} (hj : j < t.entries.length) (hij : i < j) :
    t.entries[i].unicode < t.entries[j].unicode :=
  List.pairwise_iff_getElem.mp t.sorted i j (Nat.lt_trans hij hj) hj hij

theorem toNat_lt_iff {i j : Nat} (hi : i < t.entries.length) (hj : j < t.entries.length) :
    t.entries[i].unicode.toNat < t.entries[j].unicode.toNat ↔ i < j := by
  constructor
  · intro h
    rcases Nat.lt_trichotomy i j with hlt | rfl | hgt
    · exact hlt
    · exact absurd h (Nat.lt_irrefl _)
    · exact absurd h (Nat.lt_asymm (t.entries_lt hi hgt))
  · exact t.entries_lt hj

/-- An entry between the ends is found. The entry behind the last one is not looked at. -/
theorem searchFrom_entry {k : Nat} (hk : k < t.entries.length) {left right : Int} (hzero : 0 ≤ left) (hleft : left ≤ k)
    (hright : k ≤ right) (hend : right < (t.array terminated).length) :
    searchFrom (t.array terminated) t.entries[k].unicode left right = .ok t.entries[k].jis := by
  have hlen := t.array_length terminated
  have hle := t.length_le
  have hsmall : (t.array terminated).length ≤ 2 ^ 30 := by omega
  apply searchFrom_induction hsmall (motive := fun left right result =>
    left ≤ k → k ≤ right → right < (t.array terminated).length → result = .ok t.entries[k].jis)
    ?empty ?found ?above ?below hzero hend hleft hright hend
  case empty =>
    intro left right hempty hleft hright
    omega
  case found =>
    intro left right i hi hle hmid heq hleft _ hend
    have hi' : i < t.entries.length := by omega
    rw [array_getElem t terminated hi' hi] at heq ⊢
    have hbelow := t.toNat_lt_iff hi' hk
    have habove := t.toNat_lt_iff hk hi'
    rw [heq] at hbelow habove
    obtain rfl : i = k := by omega
    rfl
  case above =>
    intro left right result i hi hle hmid hlt ih hleft hright hend
    have hi' : i < t.entries.length := by omega
    rw [array_getElem t terminated hi' hi] at hlt
    have hik : i < k := (t.toNat_lt_iff hi' hk).mp hlt
    exact ih (by omega) hright hend
  case below =>
    intro left right result i hi hle hmid hlt ih hleft hright hend
    have hi' : i < t.entries.length := by omega
    rw [array_getElem t terminated hi' hi] at hlt
    have hki : k < i := (t.toNat_lt_iff hk hi').mp hlt
    exact ih hleft (by omega) (by omega)

theorem unicodeToJis_eq (unicode : UInt16) : unicodeToJis (t.array terminated) unicode =
    searchFrom (t.array terminated) unicode 0 ((t.array terminated).length - 1) := by
  have hlen := t.array_length terminated
  have hle := t.length_le
  unfold unicodeToJis
  rw [Int.bmod_eq_of_le (by omega) (by omega)]

end SortedTable

/-- The lookup of a glyph gives the same code. -/
theorem unicodeToJis_lookup (t : SortedTable) (characters : Unicode2jis)
    (h : characters.entries = t.entries.map Pair.entry) (unicode : UInt16) :
    ∃ jis, unicodeToJis (t.array true) unicode = .ok jis ∧
      Shinonome.unicodeToJis characters unicode.toNat = jis.toNat := by
  have hlen := t.array_length true
  have hle := t.length_le
  have harray : characters.array = (t.array true).map Pair.entry := by
    unfold Unicode2jis.array SortedTable.array
    rw [h, List.map_append]
    rfl
  rw [t.unicodeToJis_eq, Shinonome.unicodeToJis, harray, List.length_map]
  exact searchFrom_search (by omega) (Int.le_refl 0) (by omega)

/-- A code that is in the table is paired with its JIS code, and for any other one there is 0. No entry outside of the
table is read, and no index is too large for an `int`. -/
theorem unicodeToJis_exact (t : SortedTable) (terminated : Bool) (unicode : UInt16) :
    (∀ e ∈ t.entries, e.unicode = unicode → unicodeToJis (t.array terminated) unicode = .ok e.jis) ∧
      ((∀ e ∈ t.entries, e.unicode ≠ unicode) → unicodeToJis (t.array terminated) unicode = .ok 0) := by
  have hlen := t.array_length terminated
  have hle := t.length_le
  rw [t.unicodeToJis_eq]
  constructor
  · rintro e he rfl
    obtain ⟨k, hk, rfl⟩ := List.getElem_of_mem he
    exact t.searchFrom_entry terminated hk (Int.le_refl 0) (by omega) (by omega) (by omega)
  · intro hnone
    have hend : ((t.array terminated).length : Int) - 1 < (t.array terminated).length := Int.sub_lt_self _ Int.one_pos
    rcases searchFrom_some unicode (by omega) (Int.le_refl 0) hend with hzero | ⟨e, he, heq, hjis⟩
    · exact hzero
    · rcases List.mem_append.mp he with hentry | hending
      · exact absurd heq (hnone e hentry)
      · cases terminated with
        | true =>
          rw [hjis, List.mem_singleton.mp hending]
        | false => cases hending

end PicoRuby.Shinonome.Search
