import Mathlib.Data.List.Basic

/-!
# Arrays that grow

Assignment to an element of a Ruby Array: a place behind the end is reached with `nil`, and a negative
index is counted from the end. Deletion of several elements goes from the last one to the first.
-/

namespace PicoRuby.Shared

set_option autoImplicit false

universe u
variable {α : Type u}

def setGrow : List (Option α) → Nat → α → List (Option α)
  | [], 0, x => [some x]
  | [], i + 1, x => none :: setGrow [] i x
  | _ :: l, 0, x => some x :: l
  | y :: l, i + 1, x => y :: setGrow l i x

/-- `Array#[]=`; `none` is an IndexError. -/
def arraySet (l : List (Option α)) (i : Int) (x : α) : Option (List (Option α)) :=
  let i := if i < 0 then i + l.length else i
  if i < 0 then none else some (setGrow l i.toNat x)

/-- `Array#[]` for an index that is not negative. -/
def arrayGet (l : List (Option α)) (i : Nat) : Option α := l[i]?.join

/-- `Array#[]`. -/
def arrayAt (l : List (Option α)) (i : Int) : Option α :=
  let i := if i < 0 then i + l.length else i
  if i < 0 then none else arrayGet l i.toNat

/-- The place that an index means; a negative one is counted from the end. -/
def placeOf (length : Nat) (i : Int) : Option Nat :=
  let i := if i < 0 then i + length else i
  if 0 ≤ i then some i.toNat else none

theorem placeOf_natCast (length i : Nat) : placeOf length i = some i := by
  have hpos : ¬ (i : Int) < 0 := by omega
  unfold placeOf
  dsimp only
  rw [if_neg hpos, if_pos (by omega), Int.toNat_natCast]

variable {l : List (Option α)} {i j : Nat} {x : α}

theorem arrayAt_natCast : arrayAt l i = arrayGet l i := by
  unfold arrayAt
  dsimp only
  rw [if_neg (by omega), if_neg (by omega), Int.toNat_natCast]

theorem arraySet_natCast : arraySet l i x = some (setGrow l i x) := by
  unfold arraySet
  dsimp only
  rw [if_neg (by omega), if_neg (by omega), Int.toNat_natCast]

theorem arrayGet_setGrow : arrayGet (setGrow l i x) j = if j = i then some x else arrayGet l j := by
  induction l generalizing i j with
  | nil =>
    induction i generalizing j with
    | zero => cases j <;> simp [setGrow, arrayGet]
    | succ i ih =>
      cases j with
      | zero => simp [setGrow, arrayGet]
      | succ j => simpa [setGrow, arrayGet] using @ih j
  | cons y l ih =>
    cases i with
    | zero => cases j <;> simp [setGrow, arrayGet]
    | succ i =>
      cases j with
      | zero => simp [setGrow, arrayGet]
      | succ j => simpa [setGrow, arrayGet] using @ih i j

theorem setGrow_length : (setGrow l i x).length = max l.length (i + 1) := by
  induction l generalizing i with
  | nil =>
    induction i with
    | zero => simp [setGrow]
    | succ i ih => simp [setGrow, ih]
  | cons y l ih =>
    cases i with
    | zero => simp [setGrow]
    | succ i => simp [setGrow, ih]

/-- `Array#delete_at` at the places that are marked, the last one first. -/
theorem foldr_eraseIdx_marked (marked : α → Bool) (before l : List α) :
    (((l.zipIdx before.length).filter fun item => marked item.1).map Prod.snd).foldr
      (fun i l => l.eraseIdx i) (before ++ l) = before ++ l.filter fun x => !marked x := by
  induction l generalizing before with
  | nil => rfl
  | cons x l ih =>
    have hrest := ih (before ++ [x])
    rw [List.length_append, List.length_singleton, List.append_assoc, List.singleton_append,
      List.append_assoc, List.singleton_append] at hrest
    rw [List.zipIdx_cons]
    by_cases hx : marked x
    · rw [List.filter_cons_of_pos (p := fun item : α × Nat => marked item.1) hx, List.map_cons, List.foldr_cons, hrest,
        List.eraseIdx_append_of_length_le (Nat.le_refl _), Nat.sub_self, List.eraseIdx_cons_zero,
        List.filter_cons_of_neg (by simp [hx])]
    · rw [List.filter_cons_of_neg (p := fun item : α × Nat => marked item.1) hx, hrest, List.filter_cons_of_pos (by simp [hx])]

end PicoRuby.Shared
