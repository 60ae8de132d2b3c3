import Mathlib.Tactic.Ring
import Mathlib.Data.Int.Basic
import Mathlib.Algebra.BigOperators.Group.List.Basic

/-!
# Serial numbers: counters compared by their signed difference

A free-running counter of `w` bits wraps, so two readings are compared by the
sign of their difference taken as a signed `w`-bit number. The lemmas turn such a
difference back into ordinary integer arithmetic as long as the exact value fits.
-/

namespace PicoRuby.Shared

set_option autoImplicit false

variable {w : Nat}

/-- The difference `a - b` of two `w`-bit readings, read as a signed number. -/
def signedDiff (a b : BitVec w) : Int := (a - b).toInt

@[simp] theorem signedDiff_self (a : BitVec w) : signedDiff a a = 0 := by
  simp [signedDiff]

theorem signedDiff_eq_bmod (a b : BitVec w) :
    signedDiff a b = ((a.toNat : Int) - (b.toNat : Int)).bmod (2 ^ w) := by
  rw [signedDiff, BitVec.toInt_sub, BitVec.toInt_eq_toNat_bmod, BitVec.toInt_eq_toNat_bmod]
  simp

/-- Differences to a common reading subtract, up to the wrap. -/
theorem signedDiff_sub (a b c : BitVec w) :
    signedDiff a b = (signedDiff a c - signedDiff b c).bmod (2 ^ w) := by
  simp only [signedDiff_eq_bmod, Int.bmod_sub_bmod, Int.sub_bmod_bmod]
  congr 1
  ring

/-- Advancing a reading by `n` advances its difference, up to the wrap. -/
theorem signedDiff_add_ofInt (a b : BitVec w) (n : Int) :
    signedDiff (a + BitVec.ofInt w n) b = (signedDiff a b + n).bmod (2 ^ w) := by
  have h : a + BitVec.ofInt w n - b = (a - b) + BitVec.ofInt w n := by
    rw [BitVec.sub_eq_add_neg, BitVec.sub_eq_add_neg, BitVec.add_assoc, BitVec.add_assoc,
      BitVec.add_comm (BitVec.ofInt w n)]
  rw [signedDiff, h, BitVec.toInt_add, BitVec.toInt_ofInt, signedDiff]
  simp

/-- The reading that is compared with advances by one. -/
theorem signedDiff_succ (a b : BitVec w) :
    signedDiff a (b + 1) = (signedDiff a b - 1).bmod (2 ^ w) := by
  have hone : signedDiff (b + BitVec.ofInt w 1) b = (1 : Int).bmod (2 ^ w) := by
    rw [signedDiff_add_ofInt, signedDiff_self, Int.zero_add]
  have hofInt : (1 : BitVec w) = BitVec.ofInt w 1 := by simp
  rw [signedDiff_sub a (b + 1) b, hofInt, hone, Int.sub_bmod_bmod]

section Bounds
variable {a b c : BitVec w}

/-- Readings close enough to a common one compare as their differences to it. -/
theorem signedDiff_eq_sub (hlo : -((2 ^ w : Nat) : Int) ≤ (signedDiff a c - signedDiff b c) * 2)
    (hhi : (signedDiff a c - signedDiff b c) * 2 < (2 ^ w : Nat)) :
    signedDiff a b = signedDiff a c - signedDiff b c := by
  rw [signedDiff_sub a b c, Int.bmod_eq_of_le_mul_two hlo hhi]

theorem signedDiff_succ_eq (hlo : -((2 ^ w : Nat) : Int) ≤ (signedDiff a b - 1) * 2)
    (hhi : (signedDiff a b - 1) * 2 < (2 ^ w : Nat)) :
    signedDiff a (b + 1) = signedDiff a b - 1 := by
  rw [signedDiff_succ, Int.bmod_eq_of_le_mul_two hlo hhi]

theorem signedDiff_add_eq {n : Int} (hlo : -((2 ^ w : Nat) : Int) ≤ n * 2)
    (hhi : n * 2 < (2 ^ w : Nat)) : signedDiff (a + BitVec.ofInt w n) a = n := by
  rw [signedDiff_add_ofInt, signedDiff_self, Int.zero_add, Int.bmod_eq_of_le_mul_two hlo hhi]

end Bounds

end PicoRuby.Shared

/-!
# Timelines

A timeline is a list of events, each with the time since the one before it. `atTimes` gives the
events their times from a start.
-/

namespace PicoRuby.Shared

set_option autoImplicit false

universe u v

section Times
variable {T : Type u} {α : Type v} [AddMonoid T]

/-- The events of a timeline with their times, from a start on. -/
def atTimes (start : T) : List (T × α) → List (T × α)
  | [] => []
  | (delta, x) :: events => (start + delta, x) :: atTimes (start + delta) events

/-- The time at which a timeline ends. -/
def endTime (start : T) (events : List (T × α)) : T := start + (events.map Prod.fst).sum

variable {start : T} {events more : List (T × α)}

@[simp] theorem atTimes_length : (atTimes start events).length = events.length := by
  induction events generalizing start with
  | nil => rfl
  | cons e events ih => exact congrArg Nat.succ ih

theorem atTimes_append :
    atTimes start (events ++ more) = atTimes start events ++ atTimes (endTime start events) more := by
  induction events generalizing start with
  | nil => rw [endTime, List.map_nil, List.sum_nil, add_zero]; rfl
  | cons e events ih =>
    obtain ⟨delta, x⟩ := e
    change (start + delta, x) :: atTimes (start + delta) (events ++ more) = _
    rw [ih, endTime, endTime, List.map_cons, List.sum_cons, add_assoc]
    rfl

theorem endTime_append : endTime start (events ++ more) = endTime (endTime start events) more := by
  rw [endTime, endTime, endTime, List.map_append, List.sum_append, add_assoc]

theorem endTime_cons (delta : T) (x : α) :
    endTime start ((delta, x) :: events) = endTime (start + delta) events := by
  rw [endTime, endTime, List.map_cons, List.sum_cons, add_assoc]

/-- The time of an event is the sum of the deltas up to its own. -/
theorem atTimes_getElem? (k : Nat) : (atTimes start events)[k]? =
    events[k]?.map fun e => (endTime start (events.take (k + 1)), e.2) := by
  induction events generalizing start k with
  | nil => rfl
  | cons e events ih =>
    obtain ⟨delta, x⟩ := e
    cases k with
    | zero =>
      change some (start + delta, x) = some (endTime start [(delta, x)], x)
      rw [endTime_cons, endTime, List.map_nil, List.sum_nil, add_zero]
    | succ k =>
      have hrest := @ih (start + delta) k
      change (atTimes (start + delta) events)[k]? = _
      rw [hrest, List.take_succ_cons]
      simp only [endTime_cons, List.getElem?_cons_succ]

theorem atTimes_map {β : Type v} (f : α → β) :
    atTimes start (events.map fun e => (e.1, f e.2)) =
      (atTimes start events).map fun e => (e.1, f e.2) := by
  induction events generalizing start with
  | nil => rfl
  | cons e events ih =>
    obtain ⟨delta, x⟩ := e
    change (start + delta, f x) :: atTimes (start + delta) (events.map fun e => (e.1, f e.2)) = _
    rw [ih]
    rfl

/-- The last event is at the end of the timeline. -/
theorem atTimes_getLast? (h : events ≠ []) :
    (atTimes start events).getLast?.map Prod.fst = some (endTime start events) := by
  have hpos := List.length_pos_iff.mpr h
  have htake : events.take (events.length - 1 + 1) = events := by
    rw [Nat.sub_add_cancel hpos, List.take_length]
  rw [List.getLast?_eq_getElem?, atTimes_length, atTimes_getElem?, htake,
    List.getElem?_eq_getElem (Nat.sub_lt hpos Nat.one_pos)]
  rfl

end Times

/-- The times tell the deltas. -/
theorem atTimes_inj {T : Type u} {α : Type v} [AddMonoid T] [IsLeftCancelAdd T] {start : T}
    {events more : List (T × α)} : atTimes start events = atTimes start more ↔ events = more := by
  constructor
  · intro h
    induction events generalizing start more with
    | nil =>
      cases more with
      | nil => rfl
      | cons f more => cases h
    | cons e events ih =>
      cases more with
      | nil => cases h
      | cons f more =>
        obtain ⟨hhead, htail⟩ := List.cons.inj h
        obtain ⟨hsum, hpayload⟩ := Prod.mk.inj hhead
        have hdelta : e.1 = f.1 := add_left_cancel hsum
        rw [hdelta] at htail
        rw [ih htail, Prod.ext hdelta hpayload]
  · exact fun h => h ▸ rfl

end PicoRuby.Shared
