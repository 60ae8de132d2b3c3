import PicoRuby.Keyboard.Layers

/-!
# Momentary layers

A layer key whose hold is taken selects its layer in the same round. Where it is released while an ordinary
key is still down, `@layer` goes back to the default layer within the loop over the mode keys, and behind the
loop to `desired_layer`, which is what it was before the round. So the switches are looked up in the default
layer exactly when that was the layer before.
-/

namespace PicoRuby.Keyboard

open Shared

set_option autoImplicit false

namespace Keymap
variable {k : Keymap} {s : Loop} {scan : Scan} {size : Nat} {p : Pass}

/-! ## The layer of a held key -/

theorem scanModeKeys_append (keys keys' : List (Switch × ModeKey)) :
    (k.scanModeKeys scan size (keys ++ keys') p).2 =
      (k.scanModeKeys scan size keys' (k.scanModeKeys scan size keys p).2).2 := by
  induction keys generalizing p with
  | nil => rfl
  | cons item keys ih =>
    rw [List.cons_append, scanModeKeys_cons, scanModeKeys_cons]
    exact ih

/-- The hold of a mode key is taken: it has been before, or nothing is in the report. -/
def TakesHold (key : ModeKey) (size : Nat) : Prop :=
  key.prevState = .pushed ∨ key.prevState = .pushedInterrupted ∨ key.prevState = .released ∧ size = 0

theorem press_desiredLayer {key : ModeKey} {action : LayerAction} {now : Int} {name : String}
    (hkey : TakesHold key size) (haction : action.onHold = .layer name) :
    (key.press action now size p).2.desiredLayer = some name := by
  unfold ModeKey.press
  rcases hkey with hkey | hkey | ⟨hkey, hsize⟩
  · rw [hkey, haction]
    rfl
  · rw [hkey, haction]
    rfl
  · rw [hkey, haction, hsize]
    rfl

/-- The only mode key that is pressed selects its layer, with the layer before in force or the default one. -/
theorem select_layer_held {keys keys' : List (Switch × ModeKey)} {switch : Switch} {key : ModeKey}
    {name : String} (hs : k.Unlocked s) (hkeys : s.modeKeys = keys ++ (switch, key) :: keys')
    (hpressed : switch ∈ scan.switches) (hothers : ∀ item ∈ keys ++ keys', item.1 ∉ scan.switches)
    (hkey : TakesHold key s.earlierReportSize)
    (haction : ∀ layer, layer = s.layer.getD k.defaultLayer ∨ layer = k.defaultLayer →
      ∃ action, hashGet key.layers layer = some action ∧ action.onHold = .layer name) :
    (k.select s scan).2.layer = some name := by
  rw [List.forall_mem_append] at hothers
  obtain ⟨modifier, keycodes, heq⟩ := compositeKeys_eq scan
    ⟨s.layer, s.lockedLayer, s.prevLayer, s.layer, 0, []⟩ k.compositeKeys
  unfold select
  dsimp only
  rw [selectLayer_layer, heq, hkeys, scanModeKeys_append, scanModeKeys_cons,
    scanModeKeys_desiredLayer hothers.2]
  have hp : Pass.Unlocked k.defaultLayer
      ⟨s.layer, s.lockedLayer, s.prevLayer, s.layer, modifier, keycodes⟩ := ⟨hs.lockedLayer, hs.prevLayer⟩
  have hlayer := scanModeKeys_layer s.earlierReportSize hp hothers.1
  generalize (k.scanModeKeys scan s.earlierReportSize keys _).2 = p at hlayer ⊢
  obtain ⟨action, hget, hhold⟩ := haction (p.layer.getD k.defaultLayer) <| by
    rcases hlayer with hlayer | hlayer
    · left
      rw [hlayer]
    · right
      rw [hlayer, Option.getD_some]
  unfold modeKey
  dsimp only
  rw [hget]
  dsimp only
  rw [if_pos hpressed]
  exact press_desiredLayer hkey hhold

/-! ## The layer of a released key -/

/-- Without a mode key that is pressed, the switches are looked up in the layer before. -/
theorem layerName_select (hs : k.Unlocked s) (h : ∀ item ∈ s.modeKeys, item.1 ∉ scan.switches) :
    k.layerName (k.select s scan).2 = s.layer.getD k.defaultLayer := by
  unfold layerName
  rw [(select_unlocked _ hs).lockedLayer, select_layer h, Option.none_or]

theorem noneHeld_of_switches {modeKeys modeKeys' : List (Switch × ModeKey)}
    (hswitches : modeKeys'.map Prod.fst = modeKeys.map Prod.fst)
    (h : ∀ item ∈ modeKeys, item.1 ∉ scan.switches) : ∀ item ∈ modeKeys', item.1 ∉ scan.switches := by
  intro item hitem
  have hmem : item.1 ∈ modeKeys'.map Prod.fst := List.mem_map_of_mem hitem
  rw [hswitches] at hmem
  obtain ⟨item', hitem', heq⟩ := List.mem_map.mp hmem
  rw [← heq]
  exact h item' hitem'

/-- A layer that a round selects outlives it, unless nothing but modifiers is pressed. -/
theorem round_layer_selected {name : String} (hs : k.Unlocked s) (hselect : (k.select s scan).2.layer = some name)
    (hpressed : ∃ switch ∈ scan.switches, k.isModifier name switch = false) :
    (k.round s scan).1.layer = some name := by
  obtain ⟨switch, hswitch, hmodifier⟩ := hpressed
  have hname : k.layerName (k.select s scan).2 = name := by
    unfold layerName
    rw [(select_unlocked _ hs).lockedLayer, hselect, Option.none_or, Option.getD_some]
  rw [round_layer hs, hname, if_neg, hselect]
  intro hall
  rw [hall switch hswitch] at hmodifier
  contradiction

/-- While no mode key is pressed, and always something that is not a modifier, the layer stays. -/
theorem rounds_layer {scans : List Scan} {name : String} (hs : k.Unlocked s) (hlayer : s.layer = some name)
    (hnone : ∀ scan ∈ scans, ∀ item ∈ s.modeKeys, item.1 ∉ scan.switches)
    (hpressed : ∀ scan ∈ scans, ∃ switch ∈ scan.switches, k.isModifier name switch = false) :
    (k.rounds s scans).layer = some name := by
  induction scans generalizing s with
  | nil => exact hlayer
  | cons scan scans ih =>
    rw [List.forall_mem_cons] at hnone hpressed
    apply ih (round_unlocked hs)
    · exact round_layer_selected hs ((select_layer hnone.1).trans hlayer) hpressed.1
    · intro scan hscan
      exact noneHeld_of_switches round_switches (hnone.2 scan hscan)
    · exact hpressed.2

/-- The layer that a key selects stays behind its release. -/
theorem held_layer_stays {held : Scan} {scans : List Scan} {name : String} (hs : k.Unlocked s)
    (hheld : (k.select s held).2.layer = some name)
    (hpressed : ∀ scan ∈ held :: scans, ∃ switch ∈ scan.switches, k.isModifier name switch = false)
    (hnone : ∀ scan ∈ scans, ∀ item ∈ s.modeKeys, item.1 ∉ scan.switches) :
    (k.rounds s (held :: scans)).layer = some name := by
  rw [List.forall_mem_cons] at hpressed
  apply rounds_layer (round_unlocked hs)
  · exact round_layer_selected hs hheld hpressed.1
  · intro scan hscan
    exact noneHeld_of_switches round_switches (hnone scan hscan)
  · exact hpressed.2

/-! ## Releases -/

/-- Every mode key is a layer key, at its switch in every layer. -/
def LayerKeys (k : Keymap) (modeKeys : List (Switch × List (String × LayerAction))) : Prop :=
  ∀ key ∈ modeKeys, ∀ layer ∈ k.keymaps, ∃ action name,
    hashGet key.2 layer.1 = some action ∧ action.onHold = .layer name

variable {modeKeys : List (Switch × List (String × LayerAction))} {scans : List Scan}

/-- The run comes to a scan in which a layer key that was held is released, and none is held. -/
structure ReleasedAt (modeKeys : List (Switch × List (String × LayerAction))) (scans before : List Scan)
    (held scan : Scan) : Prop where
  run : before ++ [held, scan] <+: scans
  released : ∃ key ∈ modeKeys, key.1 ∈ held.switches ∧ key.1 ∉ scan.switches
  noneHeld : ∀ key ∈ modeKeys, key.1 ∉ scan.switches

/-- On a release, the switches are looked up in the default layer. -/
def BackToDefault (k : Keymap) (modeKeys : List (Switch × List (String × LayerAction)))
    (scans : List Scan) : Prop :=
  ∀ before held scan, ReleasedAt modeKeys scans before held scan → ∀ switch ∈ scan.switches,
    k.layerName (k.select (k.rounds (k.start modeKeys) (before ++ [held])) scan).2 = k.defaultLayer

/-- On a release with a switch still pressed, the layer has been the default one already before the round. -/
def DefaultBefore (k : Keymap) (modeKeys : List (Switch × List (String × LayerAction)))
    (scans : List Scan) : Prop :=
  ∀ before held scan, ReleasedAt modeKeys scans before held scan → scan.switches ≠ [] →
    (k.rounds (k.start modeKeys) (before ++ [held])).layer.getD k.defaultLayer = k.defaultLayer

theorem ReleasedAt.noneHeld_rounds {before : List Scan} {held : Scan}
    (h : ReleasedAt modeKeys scans before held scan) (rounds : List Scan) :
    ∀ item ∈ (k.rounds (k.start modeKeys) rounds).modeKeys, item.1 ∉ scan.switches := by
  apply noneHeld_of_switches rounds_switches
  unfold start
  rw [List.forall_mem_map]
  exact h.noneHeld

/-- **A release takes no effect by itself.** In a run, every scan with a release looks its switches up in the
default layer if and only if that was the layer before every such scan. -/
theorem backToDefault_iff (k : Keymap) (modeKeys : List (Switch × List (String × LayerAction)))
    (scans : List Scan) : k.BackToDefault modeKeys scans ↔ k.DefaultBefore modeKeys scans := by
  have hname : ∀ before held scan, ReleasedAt modeKeys scans before held scan →
      k.layerName (k.select (k.rounds (k.start modeKeys) (before ++ [held])) scan).2 =
        (k.rounds (k.start modeKeys) (before ++ [held])).layer.getD k.defaultLayer := by
    intro before held scan h
    exact layerName_select (rounds_unlocked start_unlocked) (h.noneHeld_rounds _)
  constructor
  · intro hback before held scan h hpressed
    obtain ⟨switch, hswitch⟩ := List.exists_mem_of_ne_nil _ hpressed
    rw [← hname before held scan h]
    exact hback before held scan h switch hswitch
  · intro hbefore before held scan h switch hswitch
    rw [hname before held scan h]
    exact hbefore before held scan h (List.ne_nil_of_mem hswitch)

/-- An `A` with a layer key at its side, and a composite key of `A` and `B` with shift below. -/
def fnKeymap : Keymap where
  defaultLayer := "default"
  keymaps := [("default", [[some (.code (-4)), some (.symbol "FN")], [some (.symbol "KC_A_KC_B")]]),
    ("fn", [[some (.code (-5)), some (.symbol "FN")], [none]])]
  compositeKeys := [⟨"default", [-4, -5, 0b00000010], (1, 0)⟩]

def fnKeys : List (Switch × List (String × LayerAction)) :=
  [((0, 1), [("default", ⟨.key (-44), .layer "fn", 150, 150⟩), ("fn", ⟨.key (-44), .layer "fn", 150, 150⟩)])]

/-- The layer key goes down, then `A`, then the layer key goes up. -/
def fnScans : List Scan := [⟨[(0, 1)], 0⟩, ⟨[(0, 0), (0, 1)], 20⟩, ⟨[(0, 0)], 40⟩]

/-- With `A` still down, its switch is looked up in the layer of the key that is up. -/
theorem release_keeps_layer : fnKeymap.LayerKeys fnKeys ∧ ¬ fnKeymap.BackToDefault fnKeys fnScans := by
  constructor
  · unfold LayerKeys fnKeys fnKeymap
    simp [hashGet]
  · intro hback
    have hname := hback [⟨[(0, 1)], 0⟩] ⟨[(0, 0), (0, 1)], 20⟩ ⟨[(0, 0)], 40⟩
      ⟨List.prefix_refl _, ⟨_, List.mem_cons_self, by decide, by decide⟩, by decide⟩ (0, 0) List.mem_cons_self
    exact absurd hname (by decide +kernel)

end Keymap

end PicoRuby.Keyboard
