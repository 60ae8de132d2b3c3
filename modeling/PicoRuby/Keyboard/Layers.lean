import PicoRuby.Keyboard.Scan

/-!
# Layers that mode keys select

A mode key that is held asks for its layer, and one that is released goes back to the default layer. The
layer before the round is selected again behind the loop, unless a key that is held has asked for another
one. So a release has no effect on the round in which it is noticed: the layer of the released key stays
until a round finds nothing but modifiers pressed.
-/

namespace PicoRuby.Keyboard

open Shared

set_option autoImplicit false

/-! ## What a pass leaves alone -/

namespace Pass
variable {p : Pass}

theorem arrayKey_eq (key : Int) : ∃ modifier keycodes, p.arrayKey key = { p with modifier, keycodes } := by
  unfold arrayKey
  split_ifs
  · exact ⟨_, _, rfl⟩
  · exact ⟨p.modifier, _, rfl⟩
  · exact ⟨_, p.keycodes, rfl⟩

/-- A release only adds to the report. -/
theorem actionOnRelease_eq (action : ReleaseAction) :
    ∃ modifier keycodes, p.actionOnRelease action = { p with modifier, keycodes } := by
  cases action with
  | nothing => exact ⟨p.modifier, p.keycodes, rfl⟩
  | key modeKey =>
    unfold actionOnRelease
    dsimp only
    split_ifs
    · exact ⟨_, _, rfl⟩
    · exact ⟨p.modifier, _, rfl⟩
  | keys keycodes =>
    unfold actionOnRelease
    dsimp only
    induction keycodes generalizing p with
    | nil => exact ⟨p.modifier, p.keycodes, rfl⟩
    | cons key keycodes ih =>
      obtain ⟨modifier, keycodes', hkey⟩ := arrayKey_eq (p := p) key
      obtain ⟨modifier', keycodes'', hkeys⟩ := ih (p := p.arrayKey key)
      refine ⟨modifier', keycodes'', ?_⟩
      rw [List.foldl_cons, hkeys, hkey]

/-- No layer is locked, and the layer to go back to is the default one. -/
structure Unlocked (defaultLayer : String) (p : Pass) : Prop where
  lockedLayer : p.lockedLayer = none
  prevLayer : p.prevLayer = defaultLayer

theorem Unlocked.actionOnRelease {defaultLayer : String} (h : Unlocked defaultLayer p) (action : ReleaseAction) :
    Unlocked defaultLayer (p.actionOnRelease action) := by
  obtain ⟨modifier, keycodes, heq⟩ := actionOnRelease_eq (p := p) action
  rw [heq]
  exact ⟨h.lockedLayer, h.prevLayer⟩

theorem Unlocked.hold {defaultLayer : String} (h : Unlocked defaultLayer p) (action : HoldAction) :
    Unlocked defaultLayer (p.hold action) := by
  cases action with
  | nothing => exact h
  | layer name => exact ⟨rfl, h.prevLayer⟩
  | modifier bits => exact ⟨h.lockedLayer, h.prevLayer⟩

end Pass

/-! ## A mode key -/

namespace ModeKey
variable {key : ModeKey} {defaultLayer : String} {action : LayerAction} {now : Int} {size : Nat} {p : Pass}

theorem press_layers : (key.press action now size p).1.layers = key.layers := by
  unfold press
  cases key.prevState with
  | released =>
    dsimp only
    split <;> rfl
  | pushed | pushedInterrupted | pushedThenReleased =>
    dsimp only
    split <;> rfl
  | pushedThenReleasedThenPushed => rfl

theorem press_unlocked (h : p.Unlocked defaultLayer) :
    (key.press action now size p).2.Unlocked defaultLayer := by
  unfold press
  cases key.prevState with
  | released =>
    dsimp only
    split
    · exact h.hold _
    · exact h
  | pushed | pushedInterrupted => exact h.hold _
  | pushedThenReleased => exact h
  | pushedThenReleasedThenPushed => exact h.actionOnRelease _

theorem leave_layers : (key.leave defaultLayer action now size p).1.layers = key.layers := by
  unfold leave
  cases key.prevState with
  | released | pushed | pushedInterrupted | pushedThenReleasedThenPushed => rfl
  | pushedThenReleased =>
    dsimp only
    split <;> rfl

/-- A key that is left goes back to the layer before, and is not pushed any more. -/
theorem leave_eq (key : ModeKey) (defaultLayer : String) (action : LayerAction) (now : Int) (size : Nat)
    (p : Pass) : (key.leave defaultLayer action now size p).1.prevState ≠ .pushed ∧
    ((key.leave defaultLayer action now size p).2 = p ∨ key.prevState = .pushed ∧
      ∃ modifier keycodes, (key.leave defaultLayer action now size p).2 =
        { p with modifier, keycodes, layer := some p.prevLayer, prevLayer := defaultLayer }) := by
  unfold leave
  cases hstate : key.prevState with
  | released =>
    refine ⟨?_, Or.inl rfl⟩
    simp [hstate]
  | pushed =>
    dsimp only
    constructor
    · split <;> simp
    · obtain ⟨modifier, keycodes, heq⟩ := Pass.actionOnRelease_eq (p := p) action.onRelease
      right
      refine ⟨rfl, ?_⟩
      split
      · exact ⟨modifier, keycodes, by rw [heq]⟩
      · exact ⟨p.modifier, p.keycodes, rfl⟩
  | pushedInterrupted | pushedThenReleasedThenPushed =>
    refine ⟨?_, Or.inl rfl⟩
    simp
  | pushedThenReleased =>
    refine ⟨?_, Or.inl rfl⟩
    dsimp only
    split
    · simp
    · simp [hstate]

theorem leave_unlocked (h : p.Unlocked defaultLayer) :
    (key.leave defaultLayer action now size p).2.Unlocked defaultLayer := by
  obtain ⟨-, heq | ⟨-, modifier, keycodes, heq⟩⟩ := leave_eq key defaultLayer action now size p
  · rw [heq]
    exact h
  · rw [heq]
    exact ⟨h.lockedLayer, rfl⟩

end ModeKey

/-! ## The loop over the mode keys -/

namespace Keymap
variable {k : Keymap} {scan : Scan} {size : Nat} {switch : Switch} {key : ModeKey} {p : Pass}
  {keys : List (Switch × ModeKey)}

theorem modeKey_unlocked (h : p.Unlocked k.defaultLayer) :
    (k.modeKey scan size switch key p).2.Unlocked k.defaultLayer := by
  unfold modeKey
  split
  · exact h
  · split
    · exact ModeKey.press_unlocked h
    · exact ModeKey.leave_unlocked h

theorem modeKey_layers : (k.modeKey scan size switch key p).1.layers = key.layers := by
  unfold modeKey
  split
  · rfl
  · split
    · exact ModeKey.press_layers
    · exact ModeKey.leave_layers

/-- A mode key that is not pressed asks for no layer. -/
theorem modeKey_desiredLayer (h : switch ∉ scan.switches) :
    (k.modeKey scan size switch key p).2.desiredLayer = p.desiredLayer := by
  unfold modeKey
  split
  · rfl
  · rename_i action _
    rw [if_neg h]
    obtain ⟨-, heq | ⟨-, modifier, keycodes, heq⟩⟩ :=
      ModeKey.leave_eq key k.defaultLayer action scan.now size p
    · rw [heq]
    · rw [heq]

/-- A mode key that is not pressed leaves the layer, or goes back to the default one. -/
theorem modeKey_layer (size : Nat) (key : ModeKey) (hp : p.Unlocked k.defaultLayer)
    (h : switch ∉ scan.switches) :
    (k.modeKey scan size switch key p).2.layer = p.layer ∨
      (k.modeKey scan size switch key p).2.layer = some k.defaultLayer := by
  unfold modeKey
  split
  · exact Or.inl rfl
  · rename_i action _
    rw [if_neg h]
    obtain ⟨-, heq | ⟨-, modifier, keycodes, heq⟩⟩ :=
      ModeKey.leave_eq key k.defaultLayer action scan.now size p
    · rw [heq]
      exact Or.inl rfl
    · rw [heq, hp.prevLayer]
      exact Or.inr rfl

theorem scanModeKeys_cons (item : Switch × ModeKey) : k.scanModeKeys scan size (item :: keys) p =
    ((item.1, (k.modeKey scan size item.1 item.2 p).1) ::
      (k.scanModeKeys scan size keys (k.modeKey scan size item.1 item.2 p).2).1,
      (k.scanModeKeys scan size keys (k.modeKey scan size item.1 item.2 p).2).2) := rfl

theorem scanModeKeys_unlocked (h : p.Unlocked k.defaultLayer) :
    (k.scanModeKeys scan size keys p).2.Unlocked k.defaultLayer := by
  induction keys generalizing p with
  | nil => exact h
  | cons item keys ih => exact ih (modeKey_unlocked h)

theorem scanModeKeys_desiredLayer (h : ∀ item ∈ keys, item.1 ∉ scan.switches) :
    (k.scanModeKeys scan size keys p).2.desiredLayer = p.desiredLayer := by
  induction keys generalizing p with
  | nil => rfl
  | cons item keys ih =>
    rw [List.forall_mem_cons] at h
    exact (ih h.2).trans (modeKey_desiredLayer h.1)

theorem scanModeKeys_layer (size : Nat) (hp : p.Unlocked k.defaultLayer)
    (h : ∀ item ∈ keys, item.1 ∉ scan.switches) :
    (k.scanModeKeys scan size keys p).2.layer = p.layer ∨
      (k.scanModeKeys scan size keys p).2.layer = some k.defaultLayer := by
  induction keys generalizing p with
  | nil => exact Or.inl rfl
  | cons item keys ih =>
    rw [List.forall_mem_cons] at h
    have hnext : (k.modeKey scan size item.1 item.2 p).2.Unlocked k.defaultLayer := modeKey_unlocked hp
    rcases ih hnext h.2 with hkeys | hkeys
    · rcases modeKey_layer size item.2 hp h.1 with hitem | hitem
      · exact Or.inl (hkeys.trans hitem)
      · exact Or.inr (hkeys.trans hitem)
    · exact Or.inr hkeys

theorem scanModeKeys_switches :
    (k.scanModeKeys scan size keys p).1.map Prod.fst = keys.map Prod.fst := by
  induction keys generalizing p with
  | nil => rfl
  | cons item keys ih => exact congrArg (item.1 :: ·) ih

/-- The composite keys only add to the report. -/
theorem compositeKeys_eq (scan : Scan) (p : Pass) (composites : List CompositeAction) :
    ∃ modifier keycodes, composites.foldl (compositeKey scan) p = { p with modifier, keycodes } := by
  induction composites generalizing p with
  | nil => exact ⟨p.modifier, p.keycodes, rfl⟩
  | cons composite composites ih =>
    have hstep : ∃ modifier keycodes, compositeKey scan p composite = { p with modifier, keycodes } := by
      unfold compositeKey
      split_ifs
      · exact ⟨p.modifier, p.keycodes, rfl⟩
      · exact Pass.actionOnRelease_eq _
      · exact ⟨p.modifier, p.keycodes, rfl⟩
    obtain ⟨modifier, keycodes, hstep⟩ := hstep
    obtain ⟨modifier', keycodes', hrest⟩ := ih (compositeKey scan p composite)
    refine ⟨modifier', keycodes', ?_⟩
    rw [List.foldl_cons, hrest, hstep]

/-! ## A round -/

/-- No layer is locked, between two rounds. -/
structure Unlocked (k : Keymap) (s : Loop) : Prop where
  lockedLayer : s.lockedLayer = none
  prevLayer : s.prevLayer = k.defaultLayer

variable {s : Loop}

theorem selectLayer_unlocked (h : p.Unlocked k.defaultLayer) :
    (k.selectLayer p).Unlocked k.defaultLayer := by
  unfold selectLayer
  split
  · refine ⟨h.lockedLayer, ?_⟩
    dsimp only
    rw [if_neg (not_not.mpr h.prevLayer), h.prevLayer]
  · exact h

theorem selectLayer_layer : (k.selectLayer p).layer = p.desiredLayer := by
  unfold selectLayer
  split
  · rfl
  · rename_i heq
    exact not_not.mp heq

theorem select_unlocked (scan : Scan) (h : k.Unlocked s) : (k.select s scan).2.Unlocked k.defaultLayer := by
  obtain ⟨modifier, keycodes, heq⟩ := compositeKeys_eq scan
    ⟨s.layer, s.lockedLayer, s.prevLayer, s.layer, 0, []⟩ k.compositeKeys
  unfold select
  dsimp only
  apply selectLayer_unlocked
  apply scanModeKeys_unlocked
  rw [heq]
  exact ⟨h.lockedLayer, h.prevLayer⟩

/-- Without a mode key that is pressed, the layer stays. -/
theorem select_layer (h : ∀ item ∈ s.modeKeys, item.1 ∉ scan.switches) :
    (k.select s scan).2.layer = s.layer := by
  obtain ⟨modifier, keycodes, heq⟩ := compositeKeys_eq scan
    ⟨s.layer, s.lockedLayer, s.prevLayer, s.layer, 0, []⟩ k.compositeKeys
  unfold select
  dsimp only
  rw [selectLayer_layer, scanModeKeys_desiredLayer h, heq]

/-! ## What is left of the switches -/

/-- A switch that `collect` takes for a modifier. -/
def isModifier (k : Keymap) (layer : String) (switch : Switch) : Bool :=
  match k.lookUp layer switch with
  | some (.code keycode) => 0 ≤ keycode ∧ keycode < 0x100
  | _ => false

theorem collect_modifierSwitchPositions (layer : String) (c : Collected) (item : Switch × Nat) :
    (k.collect layer c item).modifierSwitchPositions =
      if k.isModifier layer item.1 then item.2 :: c.modifierSwitchPositions
      else c.modifierSwitchPositions := by
  unfold collect isModifier
  rcases k.lookUp layer item.1 with _ | keycode | name
  · rfl
  · dsimp only
    split_ifs <;> simp_all <;> omega
  · rfl

theorem collect_positions (layer : String) (items : List (Switch × Nat)) (c : Collected) :
    (items.foldl (k.collect layer) c).modifierSwitchPositions =
      ((items.filter fun item => k.isModifier layer item.1).map Prod.snd).reverse ++
        c.modifierSwitchPositions := by
  induction items generalizing c with
  | nil => rfl
  | cons item items ih =>
    rw [List.foldl_cons, ih, collect_modifierSwitchPositions]
    by_cases hitem : k.isModifier layer item.1
    · rw [if_pos hitem, List.filter_cons_of_pos (p := fun item : Switch × Nat => k.isModifier layer item.1) hitem,
        List.map_cons, List.reverse_cons, List.append_assoc, List.singleton_append]
    · rw [if_neg hitem, List.filter_cons_of_neg (p := fun item : Switch × Nat => k.isModifier layer item.1) hitem]

/-- A round goes back to the default layer where nothing but modifiers is pressed. -/
theorem round_layer (h : k.Unlocked s) : (k.round s scan).1.layer =
    if ∀ switch ∈ scan.switches, k.isModifier (k.layerName (k.select s scan).2) switch
      then some k.defaultLayer else (k.select s scan).2.layer := by
  have hlocked := (select_unlocked scan h).lockedLayer
  have herase := foldr_eraseIdx_marked (k.isModifier (k.layerName (k.select s scan).2)) [] scan.switches
  rw [List.nil_append, List.nil_append, List.length_nil, ← List.foldl_reverse] at herase
  unfold round
  dsimp only
  rw [hlocked, collect_positions, List.append_nil, herase]
  simp only [List.isEmpty_iff, List.filter_eq_nil_iff, Bool.not_eq_true', Bool.not_eq_false]

theorem round_unlocked (h : k.Unlocked s) : k.Unlocked (k.round s scan).1 := by
  have hpass := select_unlocked scan h
  exact ⟨hpass.lockedLayer, hpass.prevLayer⟩

theorem round_switches : (k.round s scan).1.modeKeys.map Prod.fst = s.modeKeys.map Prod.fst :=
  scanModeKeys_switches

theorem rounds_unlocked {scans : List Scan} (h : k.Unlocked s) : k.Unlocked (k.rounds s scans) := by
  induction scans generalizing s with
  | nil => exact h
  | cons scan scans ih => exact ih (round_unlocked h)

theorem rounds_switches {scans : List Scan} :
    (k.rounds s scans).modeKeys.map Prod.fst = s.modeKeys.map Prod.fst := by
  induction scans generalizing s with
  | nil => rfl
  | cons scan scans ih => exact ih.trans round_switches

theorem start_unlocked {modeKeys : List (Switch × List (String × LayerAction))} :
    k.Unlocked (k.start modeKeys) := ⟨rfl, rfl⟩

end Keymap

end PicoRuby.Keyboard
