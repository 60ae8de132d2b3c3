import PicoRuby.Shared.Bits

/-!
# Records with their length

A line with its length in two bytes before it, the lowest byte first. The length counts these two
bytes, and a length of 0 ends the lines.
-/

namespace PicoRuby.Shared

set_option autoImplicit false

def withLength (line : List UInt8) : List UInt8 := toLittleEndian 2 (line.length + 2) ++ line

/-- The lines that the lengths lead to, up to a length of 0 with nothing behind it. -/
def recordsFrom : Nat → List UInt8 → Option (List (List UInt8))
  | 0, _ => none
  | _ + 1, [] => none
  | _ + 1, [_] => none
  | fuel + 1, low :: high :: rest =>
    let length := low.toNat + 256 * high.toNat
    if length = 0 then if rest = [] then some [] else none
    else if length < 2 ∨ rest.length + 2 < length then none
    else (recordsFrom fuel (rest.drop (length - 2))).map fun lines => rest.take (length - 2) :: lines

def records (bytes : List UInt8) : Option (List (List UInt8)) := recordsFrom bytes.length bytes

section Records
variable {line rest : List UInt8} {lines : List (List UInt8)} {fuel : Nat}

theorem withLength_length : (withLength line).length = line.length + 2 := by
  rw [withLength, List.length_append, toLittleEndian_length, Nat.add_comm]

theorem withLength_append : withLength line ++ rest =
    UInt8.ofNat (line.length + 2) :: UInt8.ofNat ((line.length + 2) / 256) :: (line ++ rest) := rfl

/-- The length that the two bytes hold. -/
theorem length_bytes (n : Nat) :
    (UInt8.ofNat n).toNat + 256 * (UInt8.ofNat (n / 256)).toNat = n % 65536 := by
  rw [UInt8.toNat_ofNat', UInt8.toNat_ofNat']
  omega

theorem recordsFrom_withLength (h : line.length + 2 < 65536) :
    recordsFrom (fuel + 1) (withLength line ++ rest) = (recordsFrom fuel rest).map (line :: ·) := by
  have hsub : line.length + 2 - 2 = line.length := by omega
  rw [withLength_append, recordsFrom, length_bytes, Nat.mod_eq_of_lt h, if_neg (by omega), if_neg (by
    rw [List.length_append]
    omega), hsub, List.drop_left, List.take_left]

/-- A line of 65534 bytes looks like the end. -/
theorem recordsFrom_withLength_wrapped (h : line.length + 2 = 65536) :
    recordsFrom (fuel + 1) (withLength line ++ rest) = none := by
  have hrest : line ++ rest ≠ [] := by
    intro heq
    have hlength := congrArg List.length heq
    rw [List.length_append, List.length_nil] at hlength
    omega
  rw [withLength_append, recordsFrom, length_bytes, h, if_pos rfl, if_neg hrest]

theorem recordsFrom_lines (hlines : ∀ line ∈ lines, line.length + 2 < 65536)
    (hfuel : lines.length < fuel) :
    recordsFrom fuel ((lines.map withLength).flatten ++ [0, 0]) = some lines := by
  induction lines generalizing fuel with
  | nil =>
    obtain ⟨fuel, rfl⟩ : ∃ n, fuel = n + 1 := ⟨fuel - 1, by omega⟩
    rfl
  | cons line lines ih =>
    rw [List.length_cons] at hfuel
    obtain ⟨fuel, rfl⟩ : ∃ n, fuel = n + 1 := ⟨fuel - 1, by omega⟩
    rw [List.map_cons, List.flatten_cons, List.append_assoc,
      recordsFrom_withLength (hlines line List.mem_cons_self),
      ih (fun l hl => hlines l (List.mem_cons_of_mem _ hl)) (by omega)]
    rfl

/-- Behind a line of 65534 bytes nothing is found. -/
theorem recordsFrom_wrapped (hlines : ∀ line ∈ lines, line.length + 2 < 65536)
    (h : line.length + 2 = 65536) :
    recordsFrom fuel ((lines.map withLength).flatten ++ (withLength line ++ rest)) = none := by
  induction lines generalizing fuel with
  | nil =>
    cases fuel with
    | zero => rfl
    | succ fuel => exact recordsFrom_withLength_wrapped h
  | cons first lines ih =>
    cases fuel with
    | zero => rfl
    | succ fuel =>
      rw [List.map_cons, List.flatten_cons, List.append_assoc,
        recordsFrom_withLength (hlines first List.mem_cons_self),
        ih fun l hl => hlines l (List.mem_cons_of_mem _ hl)]
      rfl

theorem length_le_flatten (lines : List (List UInt8)) :
    lines.length ≤ (lines.map withLength).flatten.length := by
  induction lines with
  | nil => exact Nat.le_refl 0
  | cons line lines ih =>
    rw [List.map_cons, List.flatten_cons, List.length_append, withLength_length, List.length_cons]
    omega

/-- Lines that are short enough are found by their lengths. -/
theorem records_lines (hlines : ∀ line ∈ lines, line.length + 2 < 65536) :
    records ((lines.map withLength).flatten ++ [0, 0]) = some lines := by
  refine recordsFrom_lines hlines ?_
  have hle := length_le_flatten lines
  rw [List.length_append, List.length_cons, List.length_singleton]
  omega

end Records

/-! ## Writing over bytes -/

/-- The bytes with some of them replaced from a position on. -/
def overwrite (bytes : List UInt8) (pos : Nat) (new : List UInt8) : List UInt8 :=
  bytes.take pos ++ new ++ bytes.drop (pos + new.length)

theorem overwrite_append {before old new after : List UInt8} (h : old.length = new.length) :
    overwrite (before ++ old ++ after) before.length new = before ++ new ++ after := by
  have hdrop : (before ++ old ++ after).drop (before.length + new.length) = after := by
    rw [← h, ← List.length_append, List.drop_left]
  rw [overwrite, hdrop, List.append_assoc before old, List.take_left]

theorem overwrite_set {bytes new : List UInt8} {pos : Nat} {b : UInt8}
    (h : pos + new.length < bytes.length) :
    (overwrite bytes pos new).set (pos + new.length) b = overwrite bytes pos (new ++ [b]) := by
  have htake : (bytes.take pos ++ new).length = pos + new.length := by
    rw [List.length_append, List.length_take]
    omega
  have hdrop : bytes.drop (pos + new.length) =
      bytes[pos + new.length] :: bytes.drop (pos + new.length + 1) := List.drop_eq_getElem_cons h
  unfold overwrite
  rw [List.set_append_right _ _ (by omega), htake, Nat.sub_self, hdrop, List.set_cons_zero,
    List.length_append, List.length_singleton, ← List.append_assoc, List.append_assoc _ [b],
    Nat.add_assoc]
  rfl

end PicoRuby.Shared
