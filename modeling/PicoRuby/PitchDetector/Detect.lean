import Mathlib.Data.List.Range
import Mathlib.Data.List.Basic

/-!
# picoruby-pitchdetector

`detect_pitch_core` as the accesses of its arrays, in order. Nothing is computed of the floating-point numbers: how
their comparisons turn out is given with each call.
-/

namespace PicoRuby.PitchDetector

set_option autoImplicit false

/-- `BUFFER_SIZE` and `SAMPLE_RATE`. -/
structure Config where
  bufferSize : Nat
  sampleRate : Nat
  even : bufferSize % 2 = 0
  audible : 800 ≤ sampleRate

namespace Config

def minPeriod (c : Config) : Nat := c.sampleRate / 800

def maxPeriod (c : Config) : Nat := c.bufferSize / 2

end Config

def signalHistorySize : Nat := 8

inductive Access where
  | buffer (index : Int)
  | yin (index : Int)
  | candidate (index : Int)
  | history (index : Int)
deriving DecidableEq, Repr

def Access.InBounds (c : Config) : Access → Prop
  | buffer index => 0 ≤ index ∧ index < c.bufferSize
  | yin index => 0 ≤ index ∧ index < (c.bufferSize / 2 : Nat)
  | candidate index => 0 ≤ index ∧ index < 5
  | history index => 0 ≤ index ∧ index < signalHistorySize

/-- How the comparisons of a call turn out, each by the indices it is made for. -/
structure Comparisons where
  /-- `signal_history[i] < min_power` -/
  quieter (i : Nat) : Bool
  /-- `signal_power < volume_threshold * volume_threshold` -/
  weak : Bool
  /-- `normalized_power < POWER_THRESHOLD` -/
  faint : Bool
  /-- `yin_buffer[tau] < adaptive_threshold` -/
  below (tau : Nat) : Bool
  /-- `yin_buffer[tau + k] < yin_buffer[tau]` -/
  lower (tau : Nat) (k : Int) : Bool
  /-- `candidates[j].strength > candidates[i].strength` -/
  stronger (i j : Nat) : Bool
  /-- `is_harmonic` -/
  harmonic (i j : Nat) : Bool
  /-- `fundamental_confidence > FUNDAMENTAL_CONFIDENCE_THRESHOLD` -/
  confident (i : Nat) : Bool
  /-- `frequency < LOW_FREQ_THRESHOLD` -/
  low : Bool

section Functions
variable (c : Config) (o : Comparisons)

/-! ## The signal -/

/-- `calculate_signal_power`. -/
def calculateSignalPower : List Access :=
  (List.range c.bufferSize).map (fun i : Nat => .buffer i) ++ (List.range c.bufferSize).map (fun i : Nat => .buffer i)

/-- `history_index` and `history_filled`. -/
structure History where
  index : Nat
  filled : Bool
deriving DecidableEq, Repr

/-- `update_noise_estimate`. -/
def updateNoiseEstimate (h : History) : List Access × History :=
  let index := (h.index + 1) % signalHistorySize
  let filled := h.filled || index == 0
  let minimum := if filled then
      .history 0 :: (List.range' 1 (signalHistorySize - 1)).flatMap fun i : Nat =>
        if o.quieter i then [.history i, .history i] else [.history i]
    else []
  (.history h.index :: minimum, ⟨index, filled⟩)

/-- `apply_highpass_filter`. -/
def applyHighpassFilter : List Access :=
  (List.range c.bufferSize).flatMap fun i : Nat => [.buffer i, .buffer i]

/-! ## Periods -/

/-- `yin_difference_function`. -/
def yinDifferenceFunction : List Access :=
  ((List.range c.maxPeriod).flatMap fun tau : Nat =>
      ((List.range c.maxPeriod).flatMap fun j : Nat => [.buffer j, .buffer (j + tau)]) ++ [.yin tau]) ++
    .yin 0 :: (List.range' 1 (c.maxPeriod - 1)).flatMap fun tau : Nat => [.yin tau, .yin tau]

/-- `parabolic_interpolation`. -/
def parabolicInterpolation (tau : Nat) : List Access :=
  if tau < 1 ∨ (tau : Int) ≥ (c.bufferSize / 2 : Nat) - 1 then []
  else [.yin (tau - 1), .yin tau, .yin (tau + 1)]

/-- The loop for a local minimum, with `is_local_min`. -/
def localMin (tau : Nat) : List Int → List Access × Bool
  | [] => ([], true)
  | k :: ks =>
    if (c.minPeriod : Int) ≤ tau + k ∧ tau + k < c.maxPeriod then
      if o.lower tau k then ([.yin (tau + k), .yin tau], false)
      else ([.yin (tau + k), .yin tau] ++ (localMin tau ks).1, (localMin tau ks).2)
    else localMin tau ks

/-- The periods of `candidates`, and `candidate_count`. -/
structure Candidates where
  period : Nat → Nat
  count : Nat

def Candidates.push (cs : Candidates) (tau : Nat) : Candidates :=
  ⟨fun k => if k = cs.count then tau else cs.period k, cs.count + 1⟩

def Candidates.swap (cs : Candidates) (i j : Nat) : Candidates :=
  ⟨fun k => if k = i then cs.period j else if k = j then cs.period i else cs.period k, cs.count⟩

/-- The accesses for a period, and whether it is a candidate. -/
def examine (tau : Nat) : List Access × Bool :=
  if o.below tau then (.yin tau :: (localMin c o tau [-2, -1, 0, 1, 2]).1, (localMin c o tau [-2, -1, 0, 1, 2]).2)
  else ([.yin tau], false)

/-- The loop for candidates. -/
def findCandidates (tau : Nat) (cs : Candidates) : List Access × Candidates :=
  if tau < c.maxPeriod ∧ cs.count < 5 then
    if (examine c o tau).2 then
      let rest := findCandidates (tau + 1) (cs.push tau)
      ((examine c o tau).1 ++ [.candidate cs.count, .candidate cs.count, .yin tau] ++ rest.1, rest.2)
    else
      let rest := findCandidates (tau + 1) cs
      ((examine c o tau).1 ++ rest.1, rest.2)
  else ([], cs)
termination_by c.maxPeriod - tau

/-- The pairs of the loops that sort. -/
def sortPairs (count : Nat) : List (Nat × Nat) :=
  (List.range (count - 1)).flatMap fun i : Nat => (List.range' (i + 1) (count - (i + 1))).map fun j => (i, j)

/-- The exchanges of the loops that sort. -/
def sortCandidates : List (Nat × Nat) → Candidates → List Access × Candidates
  | [], cs => ([], cs)
  | (i, j) :: pairs, cs =>
    if o.stronger i j then
      let rest := sortCandidates pairs (cs.swap i j)
      ([.candidate j, .candidate i, .candidate i, .candidate i, .candidate j, .candidate j] ++ rest.1, rest.2)
    else
      let rest := sortCandidates pairs cs
      ([.candidate j, .candidate i] ++ rest.1, rest.2)

/-- The accesses for the support of a candidate. -/
def support (cs : Candidates) (i : Nat) : List Access :=
  [.candidate i, .candidate i] ++ (List.range cs.count).flatMap fun j : Nat =>
    if i ≠ j then
      [.candidate i, .candidate j, .candidate i, .candidate j] ++ if o.harmonic i j then [.candidate j] else []
    else []

/-- The loop for the fundamental, and the strongest candidate after it. -/
def chooseCandidate (cs : Candidates) : List Nat → List Access × Nat
  | [] => ([.candidate 0], cs.period 0)
  | i :: is =>
    if o.confident i then (support o cs i, cs.period i)
    else (support o cs i ++ (chooseCandidate cs is).1, (chooseCandidate cs is).2)

/-- `find_fundamental_period`. -/
def findFundamentalPeriod : List Access × Nat :=
  let found := findCandidates c o c.minPeriod ⟨fun _ => 0, 0⟩
  if found.2.count = 0 then (found.1, 0)
  else
    let sorted := sortCandidates o (sortPairs found.2.count) found.2
    let chosen := chooseCandidate o sorted.2 (List.range sorted.2.count)
    (found.1 ++ sorted.1 ++ chosen.1, chosen.2)

/-- `analyze_low_frequency`. -/
def analyzeLowFrequency (estimatedPeriod : Nat) : List Access :=
  if estimatedPeriod = 0 then []
  else
    let analysisWindow : Int :=
      if (estimatedPeriod * 3 : Int) > c.bufferSize - estimatedPeriod then c.bufferSize - estimatedPeriod
      else estimatedPeriod * 3
    let searchRange := estimatedPeriod / 20
    (List.range (2 * searchRange + 1)).flatMap fun n : Nat =>
      let testPeriod : Int := estimatedPeriod + (n - searchRange)
      if testPeriod ≤ 0 ∨ testPeriod ≥ (c.bufferSize / 2 : Nat) then []
      else (List.range analysisWindow.toNat).flatMap fun i : Nat => [.buffer i, .buffer (i + testPeriod)]

/-- `detect_pitch_core` from the high-pass filter on. -/
def analyze : List Access :=
  let found := findFundamentalPeriod c o
  applyHighpassFilter c ++ calculateSignalPower c ++ yinDifferenceFunction c ++ found.1 ++
    if found.2 = 0 then []
    else parabolicInterpolation c found.2 ++ if o.low then analyzeLowFrequency c found.2 else []

/-- `detect_pitch_core`. -/
def detectPitchCore (h : History) : List Access × History :=
  let updated := updateNoiseEstimate o h
  (calculateSignalPower c ++ updated.1 ++ if o.weak ∨ o.faint then [] else analyze c o, updated.2)

end Functions

/-- The accesses of one call after the other. -/
def detections (c : Config) : List Comparisons → History → List Access
  | [], _ => []
  | o :: os, h => (detectPitchCore c o h).1 ++ detections c os (detectPitchCore c o h).2

end PicoRuby.PitchDetector
