import PicoRuby.Keyboard.Momentary

/-!
# No stuck keys

Three rounds without a switch bring everything to rest. The first one ends on the default layer. The second
one looks the mode keys up there, so that those that are pushed notice their release. From the third one on,
the report is empty.
-/

namespace PicoRuby.Keyboard

open Shared

set_option autoImplicit false

namespace Keymap
variable {k : Keymap} {scan : Scan} {size : Nat} {switch : Switch} {key : ModeKey} {p : Pass}
  {keys : List (Switch × ModeKey)}

/-! ## Mode keys on the default layer -/

/-- A mode key that does nothing while it is not pressed: it is not pushed, as far as the default layer
knows it. -/
def Settled (k : Keymap) (key : ModeKey) : Prop :=
  ∀ action, hashGet key.layers k.defaultLayer = some action → key.prevState ≠ .pushed

theorem modeKey_settled (hlayer : p.layer = some k.defaultLayer) (h : switch ∉ scan.switches) :
    k.Settled (k.modeKey scan size switch key p).1 := by
  intro action haction
  rw [modeKey_layers] at haction
  unfold modeKey
  rw [hlayer, Option.getD_some, haction]
  dsimp only
  rw [if_neg h]
  exact (ModeKey.leave_eq key k.defaultLayer action scan.now size p).1

theorem modeKey_idle (hlayer : p.layer = some k.defaultLayer) (h : switch ∉ scan.switches)
    (hkey : k.Settled key) : (k.modeKey scan size switch key p).2 = p := by
  unfold modeKey
  rw [hlayer, Option.getD_some]
  cases haction : hashGet key.layers k.defaultLayer with
  | none => rfl
  | some action =>
    dsimp only
    rw [if_neg h]
    obtain ⟨-, heq | ⟨hpushed, -⟩⟩ := ModeKey.leave_eq key k.defaultLayer action scan.now size p
    · exact heq
    · exact absurd hpushed (hkey action haction)

theorem scanModeKeys_settled (hp : p.Unlocked k.defaultLayer) (hlayer : p.layer = some k.defaultLayer)
    (h : ∀ item ∈ keys, item.1 ∉ scan.switches) :
    ∀ item ∈ (k.scanModeKeys scan size keys p).1, k.Settled item.2 := by
  induction keys generalizing p with
  | nil => exact List.forall_mem_nil _
  | cons item keys ih =>
    rw [List.forall_mem_cons] at h
    rw [scanModeKeys_cons, List.forall_mem_cons]
    constructor
    · exact modeKey_settled hlayer h.1
    · apply ih (modeKey_unlocked hp) _ h.2
      rcases modeKey_layer size item.2 hp h.1 with heq | heq
      · exact heq.trans hlayer
      · exact heq

theorem scanModeKeys_idle (hlayer : p.layer = some k.defaultLayer)
    (h : ∀ item ∈ keys, item.1 ∉ scan.switches) (hkeys : ∀ item ∈ keys, k.Settled item.2) :
    (k.scanModeKeys scan size keys p).2 = p := by
  induction keys generalizing p with
  | nil => rfl
  | cons item keys ih =>
    rw [List.forall_mem_cons] at h hkeys
    have hitem : (k.modeKey scan size item.1 item.2 p).2 = p := modeKey_idle hlayer h.1 hkeys.1
    rw [scanModeKeys_cons, hitem]
    exact ih hlayer h.2 hkeys.2

/-! ## Rounds without a switch -/

variable {s : Loop}

theorem compositeKeys_idle (hscan : scan.switches = []) (composites : List CompositeAction) :
    composites.foldl (compositeKey scan) p = p := by
  induction composites with
  | nil => rfl
  | cons composite composites ih =>
    have hstep : compositeKey scan p composite = p := by simp [compositeKey, hscan]
    rw [List.foldl_cons, hstep, ih]

/-- What a round without a switch keeps from its second run on. -/
structure Rested (k : Keymap) (s : Loop) : Prop where
  unlocked : k.Unlocked s
  layer : s.layer = some k.defaultLayer
  settled : ∀ item ∈ s.modeKeys, k.Settled item.2

/-- A round without a switch ends on the default layer. -/
theorem round_layer_empty (hs : k.Unlocked s) (hscan : scan.switches = []) :
    (k.round s scan).1.layer = some k.defaultLayer := by
  rw [round_layer hs, hscan]
  exact if_pos (List.forall_mem_nil _)

theorem round_rested (hs : k.Unlocked s) (hlayer : s.layer = some k.defaultLayer)
    (hscan : scan.switches = []) : k.Rested (k.round s scan).1 := by
  refine ⟨round_unlocked hs, round_layer_empty hs hscan, ?_⟩
  unfold round select
  dsimp only
  rw [compositeKeys_idle hscan]
  apply scanModeKeys_settled _ hlayer
  · simp [hscan]
  · exact ⟨hs.lockedLayer, hs.prevLayer⟩

theorem rounds_rested {scans : List Scan} (hs : k.Rested s) (hscans : ∀ scan ∈ scans, scan.switches = []) :
    k.Rested (k.rounds s scans) := by
  induction scans generalizing s with
  | nil => exact hs
  | cons scan scans ih =>
    rw [List.forall_mem_cons] at hscans
    exact ih (round_rested hs.unlocked hs.layer hscans.1) hscans.2

/-- At rest, a round without a switch reports nothing. -/
theorem round_idle (hs : k.Rested s) (hscan : scan.switches = []) : (k.round s scan).2 = ⟨0, [], 0⟩ := by
  have hkeys : ∀ item ∈ s.modeKeys, item.1 ∉ scan.switches := by simp [hscan]
  unfold round select
  dsimp only
  rw [compositeKeys_idle hscan, scanModeKeys_idle hs.layer hkeys hs.settled, hscan]
  simp only [selectLayer, ne_eq, not_true, if_false, List.zipIdx_nil, List.foldl_nil]

/-- **No key is stuck.** After whatever has been typed, every round from the third one without a switch on
sends an empty report and is on the default layer. -/
theorem no_stuck_keys (k : Keymap) (modeKeys : List (Switch × List (String × LayerAction)))
    (typed idle : List Scan) (last : Scan) (hidle : ∀ scan ∈ idle, scan.switches = [])
    (hlength : 2 ≤ idle.length) (hlast : last.switches = []) :
    (k.round (k.rounds (k.start modeKeys) (typed ++ idle)) last).2 = ⟨0, [], 0⟩ ∧
      (k.rounds (k.start modeKeys) (typed ++ idle ++ [last])).layer = some k.defaultLayer := by
  obtain ⟨first, second, idle, rfl⟩ : ∃ first second rest, idle = first :: second :: rest := by
    match idle, hlength with
    | first :: second :: rest, _ => exact ⟨first, second, rest, rfl⟩
  rw [List.forall_mem_cons, List.forall_mem_cons] at hidle
  obtain ⟨hfirst, hsecond, hidle⟩ := hidle
  have htyped : k.Unlocked (k.rounds (k.start modeKeys) typed) := rounds_unlocked start_unlocked
  have hrested : k.Rested (k.rounds (k.start modeKeys) (typed ++ first :: second :: idle)) := by
    unfold rounds
    rw [List.foldl_append, List.foldl_cons, List.foldl_cons]
    apply rounds_rested _ hidle
    exact round_rested (round_unlocked htyped) (round_layer_empty htyped hfirst) hsecond
  constructor
  · exact round_idle hrested hlast
  · unfold rounds
    rw [List.foldl_append]
    exact round_layer_empty hrested.unlocked hlast

/-- The layer key is tapped, then held with `A`, and everything is let go. -/
theorem no_stuck_keys_fn :
    (fnKeymap.round (fnKeymap.rounds (fnKeymap.start fnKeys)
      ([⟨[(0, 1)], 0⟩, ⟨[], 20⟩, ⟨[(0, 1)], 40⟩, ⟨[(0, 1), (0, 0)], 60⟩] ++ [⟨[], 80⟩, ⟨[], 100⟩]))
      ⟨[], 120⟩).2 = ⟨0, [], 0⟩ ∧
    (fnKeymap.rounds (fnKeymap.start fnKeys)
      ([⟨[(0, 1)], 0⟩, ⟨[], 20⟩, ⟨[(0, 1)], 40⟩, ⟨[(0, 1), (0, 0)], 60⟩] ++ [⟨[], 80⟩, ⟨[], 100⟩] ++
        [⟨[], 120⟩])).layer = some "default" := by
  apply no_stuck_keys fnKeymap fnKeys _ [⟨[], 80⟩, ⟨[], 100⟩] ⟨[], 120⟩
  · simp
  · decide
  · rfl

end Keymap

end PicoRuby.Keyboard
