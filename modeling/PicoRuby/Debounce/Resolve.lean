import PicoRuby.Shared.Hash
import PicoRuby.Shared.Signal

/-!
# Debouncers

The classes of debounce.rb. A level is what `GPIO.high_at?` returns for the `in_pin` while the `out_pin` is driven;
the time is that of `set_time`.
-/

namespace PicoRuby.Debounce

open Shared

set_option autoImplicit false

/-- A key of the matrix that is scanned. -/
structure Reading where
  time : Int
  inPin : Nat
  outPin : Nat
  pinVal : Bool
deriving DecidableEq, Repr

/-! ## DebounceBase -/

def defaultThreshold : Int := 40

/-- `DebounceBase#threshold=`; what is not an Integer is `none`. -/
def thresholdOf : Option Int → Int
  | none => defaultThreshold
  | some val => if val < 1 then defaultThreshold else val

/-! ## DebouncePerRow -/

/-- An element of `@pr_table`. -/
structure RowStatus where
  inPin : Option Nat
  pinVal : Bool
  time : Int
deriving DecidableEq, Repr

structure DebouncePerRow where
  threshold : Int
  now : Int
  prTable : List (Nat × RowStatus)
deriving DecidableEq, Repr

namespace DebouncePerRow

def init (threshold : Int) : DebouncePerRow := ⟨threshold, 0, []⟩

def setTime (d : DebouncePerRow) (now : Int) : DebouncePerRow := { d with now }

def store (d : DebouncePerRow) (outPin : Nat) (status : RowStatus) : DebouncePerRow :=
  { d with prTable := hashSet d.prTable outPin status }

/-- `DebouncePerRow#resolve`. -/
def resolve (d : DebouncePerRow) (pinVal : Bool) (inPin outPin : Nat) : Bool × DebouncePerRow :=
  match hashGet d.prTable outPin with
  | none => (pinVal, d.store outPin ⟨none, pinVal, d.now⟩)
  | some status =>
    if pinVal then
      if ¬ (status.pinVal ∨ status.inPin ≠ some inPin) then
        if status.inPin = some inPin ∧ d.now - status.time < d.threshold then (false, d)
        else (true, d.store outPin ⟨some inPin, true, d.now⟩)
      else (true, d)
    else if status.pinVal then
      if status.inPin = some inPin ∧ d.now - status.time < d.threshold then (true, d)
      else (false, d.store outPin ⟨some inPin, false, d.now⟩)
    else (false, d)

def read (d : DebouncePerRow) (r : Reading) : Bool × DebouncePerRow :=
  (d.setTime r.time).resolve r.pinVal r.inPin r.outPin

end DebouncePerRow

/-! ## DebouncePerKey -/

/-- An element of `@pk_table`. -/
structure KeyStatus where
  pinVal : Bool
  time : Int
deriving DecidableEq, Repr

structure DebouncePerKey where
  threshold : Int
  now : Int
  pkTable : List (Nat × KeyStatus)
deriving DecidableEq, Repr

namespace DebouncePerKey

def init (threshold : Int) : DebouncePerKey := ⟨threshold, 0, []⟩

def setTime (d : DebouncePerKey) (now : Int) : DebouncePerKey := { d with now }

def store (d : DebouncePerKey) (key : Nat) (status : KeyStatus) : DebouncePerKey :=
  { d with pkTable := hashSet d.pkTable key status }

def keyOf (inPin outPin : Nat) : Nat := inPin <<< 8 ||| outPin

/-- `DebouncePerKey#resolve`. -/
def resolve (d : DebouncePerKey) (pinVal : Bool) (inPin outPin : Nat) : Bool × DebouncePerKey :=
  let key := keyOf inPin outPin
  match hashGet d.pkTable key with
  | none => (pinVal, d.store key ⟨pinVal, d.now⟩)
  | some status =>
    if status.pinVal ≠ pinVal then
      if d.now - status.time < d.threshold then (!pinVal, d) else (pinVal, d.store key ⟨pinVal, d.now⟩)
    else (pinVal, d)

def read (d : DebouncePerKey) (r : Reading) : Bool × DebouncePerKey :=
  (d.setTime r.time).resolve r.pinVal r.inPin r.outPin

end DebouncePerKey

/-! ## Runs -/

section Runs
variable {D : Type} (read : D → Reading → Bool × D)

/-- A debouncer, and what it has returned for the readings so far. -/
structure Session (D : Type) where
  debouncer : D
  log : List (Reading × Bool)

def Session.next (s : Session D) (r : Reading) : Session D :=
  ⟨(read s.debouncer r).2, s.log ++ [(r, (read s.debouncer r).1)]⟩

def run (d : D) (readings : List Reading) : Session D := readings.foldl (Session.next read) ⟨d, []⟩

/-- What has been read and returned for one key. -/
def signal (inPin outPin : Nat) (log : List (Reading × Bool)) : List (Sample Bool) :=
  log.filterMap fun (r, output) =>
    if r.inPin = inPin ∧ r.outPin = outPin then some ⟨r.time, r.pinVal, output⟩ else none

/-- What there is to read of one key. -/
def levels (inPin outPin : Nat) (readings : List Reading) : List (Int × Bool) :=
  readings.filterMap fun r => if r.inPin = inPin ∧ r.outPin = outPin then some (r.time, r.pinVal) else none

variable {read} {inPin outPin : Nat} {log : List (Reading × Bool)} {readings : List Reading} {r : Reading}

theorem run_append (d : D) (readings : List Reading) (r : Reading) :
    run read d (readings ++ [r]) = (run read d readings).next read r := by
  unfold run
  rw [List.foldl_append]
  rfl

theorem signal_append (log : List (Reading × Bool)) (r : Reading) (output : Bool) :
    signal inPin outPin (log ++ [(r, output)]) = signal inPin outPin log ++
      if r.inPin = inPin ∧ r.outPin = outPin then [⟨r.time, r.pinVal, output⟩] else [] := by
  unfold signal
  rw [List.filterMap_append]
  split_ifs with hkey
  · simp [hkey]
  · simp [hkey]

theorem levels_append (readings : List Reading) (r : Reading) :
    levels inPin outPin (readings ++ [r]) = levels inPin outPin readings ++
      if r.inPin = inPin ∧ r.outPin = outPin then [(r.time, r.pinVal)] else [] := by
  unfold levels
  rw [List.filterMap_append]
  split_ifs with hkey
  · simp [hkey]
  · simp [hkey]

/-- The readings of a run are logged in order. -/
theorem run_log (d : D) (readings : List Reading) : (run read d readings).log.map Prod.fst = readings := by
  induction readings using List.reverseRecOn with
  | nil => rfl
  | append_singleton readings r ih =>
    rw [run_append]
    unfold Session.next
    rw [List.map_append, ih]
    rfl

/-- The samples of a key are in order if the readings are. -/
theorem signal_inOrder (d : D) (h : readings.Pairwise fun r r' => r.time ≤ r'.time) :
    InOrder (signal inPin outPin (run read d readings).log) := by
  have hlog : (run read d readings).log.Pairwise fun a b => a.1.time ≤ b.1.time := by
    have hreadings : (run read d readings).log.map Prod.fst = readings := run_log d readings
    rw [← hreadings, List.pairwise_map] at h
    exact h
  apply List.Pairwise.filterMap _ _ hlog
  intro a b hle s hs s' hs'
  obtain ⟨r, output⟩ := a
  obtain ⟨r', output'⟩ := b
  dsimp only at hs hs' hle
  split_ifs at hs hs'
  · cases hs
    cases hs'
    exact hle

end Runs

end PicoRuby.Debounce
