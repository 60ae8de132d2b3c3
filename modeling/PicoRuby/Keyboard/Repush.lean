import PicoRuby.Keyboard.Momentary

/-!
# Tap, then hold

A mode key that has been tapped waits for another press. A press in time repeats the `:on_release` of the key for
as long as it is held. The window is as long as `:repush_threshold` where the key is pressed, but a scan without
the key ends it at `:release_threshold`; behind `:repush_threshold`, a press that finds the key still waiting does
nothing.
-/

namespace PicoRuby.Keyboard

open Shared

set_option autoImplicit false

/-! ## What is in a report stays there -/

/-- Everything that is in the first report is in the second. -/
structure Covered (modifier : Nat) (keycodes : List Int) (modifier' : Nat) (keycodes' : List Int) : Prop where
  modifier : ∀ i, modifier.testBit i = true → modifier'.testBit i = true
  keycodes : keycodes ⊆ keycodes'

namespace Covered
variable {m m' m'' : Nat} {l l' l'' : List Int}

theorem refl : Covered m l m l := ⟨fun _ h => h, List.Subset.refl l⟩

theorem trans (h : Covered m l m' l') (h' : Covered m' l' m'' l'') : Covered m l m'' l'' :=
  ⟨fun i hi => h'.modifier i (h.modifier i hi), List.Subset.trans h.keycodes h'.keycodes⟩

theorem nil : Covered 0 [] m l := ⟨fun i hi => by simp at hi, List.nil_subset l⟩

theorem bits (bits : Nat) : Covered m l (m ||| bits) l := by
  refine ⟨fun i hi => ?_, List.Subset.refl l⟩
  rw [Nat.testBit_or, hi, Bool.true_or]

theorem keys (keys : List Int) : Covered m l m (l ++ keys) := ⟨fun _ h => h, List.subset_append_left l keys⟩

theorem bits_congr (bits : Nat) (h : Covered m l m' l') : Covered (m ||| bits) l (m' ||| bits) l' := by
  refine ⟨fun i hi => ?_, h.keycodes⟩
  rw [Nat.testBit_or, Bool.or_eq_true] at hi ⊢
  exact hi.imp_left (h.modifier i)

theorem keys_congr (keys : List Int) (h : Covered m l m' l') : Covered m (l ++ keys) m' (l' ++ keys) :=
  ⟨h.modifier, List.append_subset.mpr
    ⟨List.Subset.trans h.keycodes (List.subset_append_left l' keys), List.subset_append_right l' keys⟩⟩

end Covered

namespace Pass
variable {p q : Pass}

/-- The keycodes and the modifier of one pass are among those of another. -/
def Covered (p q : Pass) : Prop := Keyboard.Covered p.modifier p.keycodes q.modifier q.keycodes

theorem covered_arrayKey (key : Int) : p.Covered (p.arrayKey key) := by
  unfold arrayKey
  split_ifs
  · exact (Covered.keys _).trans (Covered.bits _)
  · exact Covered.keys _
  · exact Covered.bits _

theorem arrayKey_congr (key : Int) (h : p.Covered q) : (p.arrayKey key).Covered (q.arrayKey key) := by
  unfold arrayKey
  split_ifs
  · exact (h.keys_congr _).bits_congr _
  · exact h.keys_congr _
  · exact h.bits_congr _

theorem covered_actionOnRelease (action : ReleaseAction) : p.Covered (p.actionOnRelease action) := by
  cases action with
  | nothing => exact Covered.refl
  | key modeKey =>
    unfold actionOnRelease
    dsimp only
    split_ifs
    · exact (Covered.keys _).trans (Covered.bits _)
    · exact Covered.keys _
  | keys keycodes =>
    unfold actionOnRelease
    dsimp only
    induction keycodes generalizing p with
    | nil => exact Covered.refl
    | cons key keycodes ih => exact (covered_arrayKey key).trans ih

theorem actionOnRelease_congr (action : ReleaseAction) (h : p.Covered q) :
    (p.actionOnRelease action).Covered (q.actionOnRelease action) := by
  cases action with
  | nothing => exact h
  | key modeKey =>
    unfold actionOnRelease
    dsimp only
    split_ifs
    · exact (h.keys_congr _).bits_congr _
    · exact h.keys_congr _
  | keys keycodes =>
    unfold actionOnRelease
    dsimp only
    induction keycodes generalizing p q with
    | nil => exact h
    | cons key keycodes ih => exact ih (arrayKey_congr key h)

theorem covered_hold (action : HoldAction) : p.Covered (p.hold action) := by
  cases action with
  | nothing | layer name => exact Covered.refl
  | modifier bits => exact Covered.bits bits

end Pass

namespace ModeKey
variable {key : ModeKey} {defaultLayer : String} {action : LayerAction} {now : Int} {size : Nat} {p : Pass}

theorem covered_press : p.Covered (key.press action now size p).2 := by
  unfold press
  cases key.prevState with
  | released =>
    dsimp only
    split
    · exact Pass.covered_hold _
    · exact Covered.refl
  | pushed | pushedInterrupted => exact Pass.covered_hold _
  | pushedThenReleased => exact Covered.refl
  | pushedThenReleasedThenPushed => exact Pass.covered_actionOnRelease _

theorem covered_leave : p.Covered (key.leave defaultLayer action now size p).2 := by
  unfold leave
  cases key.prevState with
  | pushed =>
    dsimp only
    split
    · exact Pass.covered_actionOnRelease (p := p) _
    · exact Covered.refl
  | released | pushedInterrupted | pushedThenReleased | pushedThenReleasedThenPushed => exact Covered.refl

end ModeKey

namespace Keymap
variable {k : Keymap} {s : Loop} {scan : Scan} {size : Nat} {switch : Switch} {key key' : ModeKey} {p : Pass}
  {keys : List (Switch × ModeKey)} {action : LayerAction}

theorem covered_modeKey : p.Covered (k.modeKey scan size switch key p).2 := by
  unfold modeKey
  split
  · exact Covered.refl
  · split
    · exact ModeKey.covered_press
    · exact ModeKey.covered_leave

theorem covered_scanModeKeys : p.Covered (k.scanModeKeys scan size keys p).2 := by
  induction keys generalizing p with
  | nil => exact Covered.refl
  | cons item keys ih => exact covered_modeKey.trans ih

theorem covered_selectLayer : p.Covered (k.selectLayer p) := by
  unfold selectLayer
  split
  · exact Covered.refl
  · exact Covered.refl

theorem covered_collect (layer : String) (items : List (Switch × Nat)) (c : Collected) :
    Covered c.modifier c.keycodes (items.foldl (k.collect layer) c).modifier
      (items.foldl (k.collect layer) c).keycodes := by
  induction items generalizing c with
  | nil => exact Covered.refl
  | cons item items ih =>
    have hstep : Covered c.modifier c.keycodes (k.collect layer c item).modifier
        (k.collect layer c item).keycodes := by
      unfold collect
      split
      · split_ifs
        · exact (Covered.keys _).trans (Covered.bits _)
        · exact Covered.keys _
        · exact Covered.bits _
        · exact Covered.refl
        · exact Covered.refl
        · exact Covered.refl
      · exact Covered.refl
    exact hstep.trans (ih _)

/-! ## The turn of a key -/

/-- What the mode keys in front of the one at a switch hand to it. -/
def turn (k : Keymap) (scan : Scan) (size : Nat) (switch : Switch) : List (Switch × ModeKey) → Pass → Pass
  | [], p => p
  | item :: keys, p =>
    if item.1 = switch then p else k.turn scan size switch keys (k.modeKey scan size item.1 item.2 p).2

/-- The pass in which a round comes to the mode key at a switch. -/
def passAt (k : Keymap) (s : Loop) (scan : Scan) (switch : Switch) : Pass :=
  k.turn scan s.earlierReportSize switch s.modeKeys
    (k.compositeKeys.foldl (compositeKey scan) ⟨s.layer, s.lockedLayer, s.prevLayer, s.layer, 0, []⟩)

/-- The action that the mode key at a switch finds for its layer. -/
def actionAt (k : Keymap) (s : Loop) (scan : Scan) (switch : Switch) : Option LayerAction :=
  (hashGet s.modeKeys switch).bind fun key => hashGet key.layers ((k.passAt s scan switch).layer.getD k.defaultLayer)

theorem hashGet_cons_self {keys : List (Switch × ModeKey)} :
    hashGet ((switch, key) :: keys) switch = some key := by simp [hashGet]

theorem scanModeKeys_get (k : Keymap) (scan : Scan) (size : Nat) (p : Pass) (hkey : hashGet keys switch = some key) :
    hashGet (k.scanModeKeys scan size keys p).1 switch =
      some (k.modeKey scan size switch key (k.turn scan size switch keys p)).1 ∧
    (k.modeKey scan size switch key (k.turn scan size switch keys p)).2.Covered
      (k.scanModeKeys scan size keys p).2 := by
  induction keys generalizing p with
  | nil => cases hkey
  | cons item keys ih =>
    obtain ⟨switch', key'⟩ := item
    rw [scanModeKeys_cons, turn]
    by_cases hswitch : switch' = switch
    · subst hswitch
      rw [hashGet_cons_self, Option.some.injEq] at hkey
      subst hkey
      rw [if_pos rfl, hashGet_cons_self]
      exact ⟨rfl, covered_scanModeKeys⟩
    · rw [if_neg hswitch]
      have htail : hashGet keys switch = some key := by simpa [hashGet, hswitch] using hkey
      obtain ⟨hget, hcovered⟩ := ih (k.modeKey scan size switch' key' p).2 htail
      exact ⟨by simpa [hashGet, hswitch] using hget, hcovered⟩

/-- A round takes the key at a switch through its turn, and reports what that has added. -/
theorem round_get (k : Keymap) (scan : Scan) (hkey : hashGet s.modeKeys switch = some key) :
    hashGet (k.round s scan).1.modeKeys switch =
      some (k.modeKey scan s.earlierReportSize switch key (k.passAt s scan switch)).1 ∧
    Covered (k.modeKey scan s.earlierReportSize switch key (k.passAt s scan switch)).2.modifier
      (k.modeKey scan s.earlierReportSize switch key (k.passAt s scan switch)).2.keycodes
      (k.round s scan).2.modifier (k.round s scan).2.keycodes := by
  obtain ⟨hget, hcovered⟩ := scanModeKeys_get k scan s.earlierReportSize
    (k.compositeKeys.foldl (compositeKey scan) ⟨s.layer, s.lockedLayer, s.prevLayer, s.layer, 0, []⟩) hkey
  have hreport := covered_collect (k := k) (k.layerName (k.select s scan).2) scan.switches.zipIdx
    ⟨(k.select s scan).2.modifier, (k.select s scan).2.keycodes, 0, []⟩
  exact ⟨hget, (hcovered.trans covered_selectLayer).trans hreport⟩

theorem actionAt_eq (hkey : hashGet s.modeKeys switch = some key) :
    k.actionAt s scan switch = hashGet key.layers ((k.passAt s scan switch).layer.getD k.defaultLayer) := by
  rw [actionAt, hkey]
  rfl

theorem modeKey_down (hkey : hashGet s.modeKeys switch = some key) (haction : k.actionAt s scan switch = some action)
    (hdown : switch ∈ scan.switches) :
    k.modeKey scan s.earlierReportSize switch key (k.passAt s scan switch) =
      key.press action scan.now s.earlierReportSize (k.passAt s scan switch) := by
  rw [actionAt_eq hkey] at haction
  unfold modeKey
  rw [haction]
  exact if_pos hdown

theorem modeKey_up (hkey : hashGet s.modeKeys switch = some key) (haction : k.actionAt s scan switch = some action)
    (hup : switch ∉ scan.switches) :
    k.modeKey scan s.earlierReportSize switch key (k.passAt s scan switch) =
      key.leave k.defaultLayer action scan.now s.earlierReportSize (k.passAt s scan switch) := by
  rw [actionAt_eq hkey] at haction
  unfold modeKey
  rw [haction]
  exact if_neg hup

/-- In a layer without the key, nothing happens to it. -/
theorem modeKey_nowhere (hkey : hashGet s.modeKeys switch = some key) (haction : k.actionAt s scan switch = none) :
    (k.modeKey scan s.earlierReportSize switch key (k.passAt s scan switch)).1 = key := by
  rw [actionAt_eq hkey] at haction
  unfold modeKey
  rw [haction]

/-- What a press and a release leave alone stays through a round, whatever layer the key is looked up in. -/
theorem round_keeps {P : ModeKey → Prop} (hkey : hashGet s.modeKeys switch = some key) (hP : P key)
    (hpress : ∀ action p, switch ∈ scan.switches → P (key.press action scan.now s.earlierReportSize p).1)
    (hleave : ∀ action p, switch ∉ scan.switches →
      P (key.leave k.defaultLayer action scan.now s.earlierReportSize p).1) :
    ∃ key, hashGet (k.round s scan).1.modeKeys switch = some key ∧ P key := by
  refine ⟨_, (round_get k scan hkey).1, ?_⟩
  cases haction : k.actionAt s scan switch with
  | none =>
    rw [modeKey_nowhere hkey haction]
    exact hP
  | some action =>
    by_cases hdown : switch ∈ scan.switches
    · rw [modeKey_down hkey haction hdown]
      exact hpress action _ hdown
    · rw [modeKey_up hkey haction hdown]
      exact hleave action _ hdown

/-! ## The window -/

/-- A key that has been held since its last press, with nothing in the reports, is let go in time. -/
structure Tapped (k : Keymap) (s : Loop) (switch : Switch) (action : LayerAction) (tap : Scan) : Prop where
  key : ∃ key, hashGet s.modeKeys switch = some key ∧ key.prevState = .pushed ∧
    tap.now - key.pushedAt ≤ action.releaseThreshold
  action : k.actionAt s tap switch = some action
  up : switch ∉ tap.switches
  size : s.earlierReportSize = 0

/-- The scans find nothing in the reports before them. -/
def Quiet (k : Keymap) : Loop → List Scan → Prop
  | _, [] => True
  | s, scan :: scans => s.earlierReportSize = 0 ∧ k.Quiet (k.round s scan).1 scans

/-- Some of the scans looks at the key more than `:release_threshold` after its release. -/
def Expires (k : Keymap) (switch : Switch) (releasedAt : Int) : Loop → List Scan → Prop
  | _, [] => False
  | s, scan :: scans => (∃ action, k.actionAt s scan switch = some action ∧
      action.releaseThreshold < scan.now - releasedAt) ∨ k.Expires switch releasedAt (k.round s scan).1 scans

/-- The key at a switch is in a state, since a release. -/
def KeyIn (s : Loop) (switch : Switch) (state : PrevState) (releasedAt : Int) : Prop :=
  ∃ key, hashGet s.modeKeys switch = some key ∧ key.prevState = state ∧ key.releasedAt = releasedAt

variable {tap : Scan} {scans : List Scan} {releasedAt : Int}

theorem held_scans {pushedAt : Int} (h : ∃ key, hashGet s.modeKeys switch = some key ∧ key.prevState = .pushed ∧
    key.pushedAt = pushedAt) (hdown : ∀ scan ∈ scans, switch ∈ scan.switches) (hquiet : k.Quiet s scans) :
    ∃ key, hashGet (k.rounds s scans).modeKeys switch = some key ∧ key.prevState = .pushed ∧
      key.pushedAt = pushedAt := by
  induction scans generalizing s with
  | nil => exact h
  | cons scan scans ih =>
    rw [List.forall_mem_cons] at hdown
    obtain ⟨key, hkey, hstate, hpushed⟩ := h
    refine ih (round_keeps hkey ⟨hstate, hpushed⟩ (fun action p _ => ?_) fun _ _ hup => absurd hdown.1 hup)
      hdown.2 hquiet.2
    unfold ModeKey.press
    rw [hstate, hquiet.1]
    exact ⟨hstate, hpushed⟩

theorem quiet_append {scans' : List Scan} :
    k.Quiet s (scans ++ scans') ↔ k.Quiet s scans ∧ k.Quiet (k.rounds s scans) scans' := by
  induction scans generalizing s with
  | nil => simp [Quiet, rounds]
  | cons scan scans ih => simp [Quiet, rounds, ih, and_assoc]

/-- A released key is pressed, held with nothing in the reports, and let go in time. -/
theorem tapped_of_press {press : Scan} (h : KeyIn s switch .released releasedAt)
    (hpress : k.actionAt s press switch = some action) (hdown : ∀ scan ∈ press :: scans, switch ∈ scan.switches)
    (hquiet : k.Quiet s (press :: scans ++ [tap]))
    (htap : k.actionAt (k.rounds s (press :: scans)) tap switch = some action) (hup : switch ∉ tap.switches)
    (htime : tap.now - press.now ≤ action.releaseThreshold) :
    k.Tapped (k.rounds s (press :: scans)) switch action tap := by
  rw [List.forall_mem_cons] at hdown
  obtain ⟨hpressed, hlast⟩ := quiet_append.mp hquiet
  obtain ⟨key, hkey, hstate, -⟩ := h
  have hpushed : ∃ key, hashGet (k.round s press).1.modeKeys switch = some key ∧ key.prevState = .pushed ∧
      key.pushedAt = press.now := by
    refine ⟨_, (round_get k _ hkey).1, ?_⟩
    rw [modeKey_down hkey hpress hdown.1]
    unfold ModeKey.press
    rw [hstate, hpressed.1]
    exact ⟨rfl, rfl⟩
  obtain ⟨key, hkey, hstate, htimed⟩ := held_scans hpushed hdown.2 hpressed.2
  exact ⟨⟨key, hkey, hstate, htimed ▸ htime⟩, htap, hup, hlast.1⟩

theorem tapped_waits (h : k.Tapped s switch action tap) (hrepush : 0 < action.repushThreshold) :
    KeyIn (k.round s tap).1 switch .pushedThenReleased tap.now := by
  obtain ⟨key, hkey, hstate, htime⟩ := h.key
  refine ⟨_, (round_get k _ hkey).1, ?_⟩
  have hne : action.repushThreshold ≠ 0 := by omega
  rw [modeKey_up hkey h.action h.up]
  unfold ModeKey.leave
  rw [hstate]
  simp [h.size, htime, hne]

/-- A key that is up does not leave `:released`. -/
theorem released_stays (h : KeyIn s switch .released releasedAt) (hup : switch ∉ scan.switches) :
    KeyIn (k.round s scan).1 switch .released releasedAt := by
  obtain ⟨key, hkey, hstate, hreleased⟩ := h
  refine round_keeps hkey ⟨hstate, hreleased⟩ (fun _ _ hdown => absurd hdown hup) fun action p _ => ?_
  unfold ModeKey.leave
  rw [hstate]
  exact ⟨hstate, hreleased⟩

/-- A key that is up waits until a scan finds the time over. -/
theorem waiting_scan (h : KeyIn s switch .pushedThenReleased releasedAt) (hup : switch ∉ scan.switches) :
    ((∃ action, k.actionAt s scan switch = some action ∧ action.releaseThreshold < scan.now - releasedAt) ∧
      KeyIn (k.round s scan).1 switch .released releasedAt) ∨
    ((¬ ∃ action, k.actionAt s scan switch = some action ∧ action.releaseThreshold < scan.now - releasedAt) ∧
      KeyIn (k.round s scan).1 switch .pushedThenReleased releasedAt) := by
  obtain ⟨key, hkey, hstate, rfl⟩ := h
  have hget := (round_get k scan hkey).1
  cases haction : k.actionAt s scan switch with
  | none =>
    rw [modeKey_nowhere hkey haction] at hget
    exact Or.inr ⟨by simp, key, hget, hstate, rfl⟩
  | some action =>
    rw [modeKey_up hkey haction hup] at hget
    unfold ModeKey.leave at hget
    rw [hstate] at hget
    dsimp only at hget
    by_cases hover : action.releaseThreshold < scan.now - key.releasedAt
    · rw [if_pos hover] at hget
      exact Or.inl ⟨⟨action, rfl, hover⟩, _, hget, rfl, rfl⟩
    · rw [if_neg hover] at hget
      exact Or.inr ⟨by simpa using hover, key, hget, hstate, rfl⟩

theorem released_scans (h : KeyIn s switch .released releasedAt) (hup : ∀ scan ∈ scans, switch ∉ scan.switches) :
    KeyIn (k.rounds s scans) switch .released releasedAt := by
  induction scans generalizing s with
  | nil => exact h
  | cons scan scans ih =>
    rw [List.forall_mem_cons] at hup
    exact ih (released_stays h hup.1) hup.2

/-- What has become of the key after the scans in between. -/
theorem waiting_scans (h : KeyIn s switch .pushedThenReleased releasedAt)
    (hup : ∀ scan ∈ scans, switch ∉ scan.switches) :
    (k.Expires switch releasedAt s scans ∧ KeyIn (k.rounds s scans) switch .released releasedAt) ∨
    (¬ k.Expires switch releasedAt s scans ∧ KeyIn (k.rounds s scans) switch .pushedThenReleased releasedAt) := by
  induction scans generalizing s with
  | nil => exact Or.inr ⟨id, h⟩
  | cons scan scans ih =>
    rw [List.forall_mem_cons] at hup
    rcases waiting_scan (k := k) h hup.1 with ⟨hover, hreleased⟩ | ⟨hover, hwaiting⟩
    · have hend := released_scans (k := k) hreleased hup.2
      exact Or.inl ⟨Or.inl hover, hend⟩
    · rcases ih hwaiting hup.2 with ⟨hexpires, hreleased⟩ | ⟨hexpires, hstill⟩
      · exact Or.inl ⟨Or.inr hexpires, hreleased⟩
      · exact Or.inr ⟨not_or.mpr ⟨hover, hexpires⟩, hstill⟩

/-! ## The second press -/

/-- The key codes and the modifier of an `:on_release` are in a report. -/
def Report.Contains (report : Report) (action : ReleaseAction) : Prop :=
  let p : Pass := (⟨none, none, "", none, 0, []⟩ : Pass).actionOnRelease action
  Covered p.modifier p.keycodes report.modifier report.keycodes

/-- While the key is held, it repeats its `:on_release` in every scan that looks at it. -/
theorem repeats_scan (h : KeyIn s switch .pushedThenReleasedThenPushed releasedAt) (hdown : switch ∈ scan.switches) :
    KeyIn (k.round s scan).1 switch .pushedThenReleasedThenPushed releasedAt ∧
      ∀ action, k.actionAt s scan switch = some action → (k.round s scan).2.Contains action.onRelease := by
  obtain ⟨key, hkey, hstate, rfl⟩ := h
  obtain ⟨-, hcovered⟩ := round_get k scan hkey
  constructor
  · refine round_keeps hkey ⟨hstate, rfl⟩ (fun action p _ => ?_) fun _ _ hup => absurd hdown hup
    unfold ModeKey.press
    rw [hstate]
    exact ⟨hstate, rfl⟩
  · intro action haction
    rw [modeKey_down hkey haction hdown] at hcovered
    unfold ModeKey.press at hcovered
    rw [hstate] at hcovered
    exact Covered.trans (Pass.actionOnRelease_congr action.onRelease Covered.nil) hcovered

theorem repeats_scans (h : KeyIn s switch .pushedThenReleasedThenPushed releasedAt)
    (hdown : ∀ scan ∈ scans, switch ∈ scan.switches) :
    KeyIn (k.rounds s scans) switch .pushedThenReleasedThenPushed releasedAt := by
  induction scans generalizing s with
  | nil => exact h
  | cons scan scans ih =>
    rw [List.forall_mem_cons] at hdown
    exact ih (repeats_scan h hdown.1).1 hdown.2

/-- The variables with the key at a switch released, and nothing else changed. -/
def afresh (s : Loop) (switch : Switch) : Loop :=
  match hashGet s.modeKeys switch with
  | none => s
  | some key => { s with modeKeys := hashSet s.modeKeys switch { key with prevState := .released } }

theorem turn_hashSet {key' : ModeKey} :
    k.turn scan size switch (hashSet keys switch key') p = k.turn scan size switch keys p := by
  induction keys generalizing p with
  | nil => simp [hashSet, turn]
  | cons item keys ih =>
    obtain ⟨switch', key⟩ := item
    unfold hashSet
    split
    · rename_i heq
      simp [turn, heq]
    · rename_i hne
      simp [turn, hne, ih]

theorem hashSet_self (hkey : hashGet keys switch = some key) : hashSet keys switch key = keys := by
  induction keys with
  | nil => cases hkey
  | cons item keys ih =>
    obtain ⟨switch', key'⟩ := item
    unfold hashSet
    split
    · rename_i heq
      subst heq
      rw [hashGet_cons_self, Option.some.injEq] at hkey
      rw [hkey]
    · rename_i hne
      rw [ih (by simpa [hashGet, hne] using hkey)]

/-- A press within the window is one to repeat, and behind it nothing. -/
theorem press_waiting (h : KeyIn s switch .pushedThenReleased releasedAt)
    (haction : k.actionAt s scan switch = some action) (hdown : switch ∈ scan.switches) :
    KeyIn (k.round s scan).1 switch (if scan.now - releasedAt ≤ action.repushThreshold
      then .pushedThenReleasedThenPushed else .pushedThenReleased) releasedAt := by
  obtain ⟨key, hkey, hstate, rfl⟩ := h
  refine ⟨_, (round_get k _ hkey).1, ?_⟩
  rw [modeKey_down hkey haction hdown]
  unfold ModeKey.press
  rw [hstate]
  dsimp only
  split
  · exact ⟨rfl, rfl⟩
  · exact ⟨hstate, rfl⟩

/-- A press of a released key is a hold, or nothing as long as something is in the reports. -/
theorem press_released (h : KeyIn s switch .released releasedAt)
    (haction : k.actionAt s scan switch = some action) (hdown : switch ∈ scan.switches) :
    KeyIn (k.round s scan).1 switch (if s.earlierReportSize = 0 then .pushed else .released) releasedAt := by
  obtain ⟨key, hkey, hstate, rfl⟩ := h
  refine ⟨_, (round_get k _ hkey).1, ?_⟩
  rw [modeKey_down hkey haction hdown]
  unfold ModeKey.press
  rw [hstate]
  dsimp only
  split
  · exact ⟨rfl, rfl⟩
  · exact ⟨hstate, rfl⟩

theorem afresh_released (h : KeyIn s switch .released releasedAt) : afresh s switch = s := by
  obtain ⟨key, hkey, hstate, -⟩ := h
  have hsame : { key with prevState := .released } = key := by rw [← hstate]
  unfold afresh
  rw [hkey]
  dsimp only
  rw [hsame, hashSet_self hkey]

theorem afresh_keyIn {state : PrevState} (h : KeyIn s switch state releasedAt) :
    KeyIn (afresh s switch) switch .released releasedAt := by
  obtain ⟨key, hkey, -, hreleased⟩ := h
  unfold afresh
  rw [hkey]
  exact ⟨_, hashGet_hashSet_self, rfl, hreleased⟩

theorem actionAt_afresh : k.actionAt (afresh s switch) scan switch = k.actionAt s scan switch := by
  unfold afresh
  cases hkey : hashGet s.modeKeys switch with
  | none => rfl
  | some key =>
    unfold actionAt passAt
    rw [hkey, hashGet_hashSet_self, turn_hashSet]
    rfl

/-! ## The claim of the two thresholds -/

/-- A key that is pressed again in time repeats its `:on_release` from the next scan on, and one that is pressed
again later is pressed as if it had been released for long. -/
structure TapThenHold (k : Keymap) (s : Loop) (switch : Switch) (action : LayerAction) (tap : Scan)
    (scans : List Scan) (again : Scan) : Prop where
  repeats (h : again.now - tap.now ≤ action.repushThreshold) :
    KeyIn (k.rounds s (tap :: scans ++ [again])) switch .pushedThenReleasedThenPushed tap.now ∧
    ∀ (held : List Scan) (scan : Scan), (∀ scan' ∈ held, switch ∈ scan'.switches) → switch ∈ scan.switches →
      ∀ action, k.actionAt (k.rounds s (tap :: scans ++ again :: held)) scan switch = some action →
        (k.round (k.rounds s (tap :: scans ++ again :: held)) scan).2.Contains action.onRelease
  fresh (h : action.repushThreshold < again.now - tap.now) :
    k.round (k.rounds s (tap :: scans)) again = k.round (afresh (k.rounds s (tap :: scans)) switch) again

theorem keyIn_state {state state' : PrevState} {releasedAt' : Int} (h : KeyIn s switch state releasedAt)
    (h' : KeyIn s switch state' releasedAt') : state = state' := by
  obtain ⟨key, hkey, rfl, -⟩ := h
  obtain ⟨key', hkey', rfl, -⟩ := h'
  rw [Option.some.inj (hkey.symm.trans hkey')]

/-- **Tap, then hold.** A tapped key is pressed again within `:repush_threshold`: it repeats just if no scan in
between has looked at it more than `:release_threshold` after the release. It is pressed later: that is a hold just
if some scan has. -/
theorem tapThenHold_iff {again : Scan} (htap : k.Tapped s switch action tap) (hrepush : 0 < action.repushThreshold)
    (hup : ∀ scan ∈ scans, switch ∉ scan.switches) (hdown : switch ∈ again.switches)
    (haction : k.actionAt (k.rounds s (tap :: scans)) again switch = some action) :
    k.TapThenHold s switch action tap scans again ↔
      (again.now - tap.now ≤ action.repushThreshold → ¬ k.Expires switch tap.now (k.round s tap).1 scans) ∧
      (action.repushThreshold < again.now - tap.now → k.Expires switch tap.now (k.round s tap).1 scans) := by
  have hsplit (held : List Scan) : k.rounds s (tap :: scans ++ again :: held) =
      k.rounds (k.round (k.rounds s (tap :: scans)) again).1 held := by
    unfold rounds
    rw [List.foldl_append, List.foldl_cons]
  have hscans : k.rounds s (tap :: scans) = k.rounds (k.round s tap).1 scans := rfl
  have hwaiting := waiting_scans (k := k) (tapped_waits htap hrepush) hup
  rw [← hscans] at hwaiting
  rcases hwaiting with ⟨hexpires, hkey⟩ | ⟨hexpires, hkey⟩
  · have hpressed := press_released hkey haction hdown
    constructor
    · intro h
      refine ⟨fun hearly => ?_, fun _ => hexpires⟩
      have hstate := keyIn_state hpressed (hsplit [] ▸ (h.repeats hearly).1)
      split at hstate <;> cases hstate
    · intro h
      constructor
      · intro hearly
        exact absurd hexpires (h.1 hearly)
      · intro _
        rw [afresh_released hkey]
  · have hpressed := press_waiting hkey haction hdown
    constructor
    · intro h
      refine ⟨fun _ => hexpires, fun hlate => ?_⟩
      rw [if_neg (by omega)] at hpressed
      have hfresh := press_released (afresh_keyIn hkey) (actionAt_afresh.trans haction) hdown
      rw [← h.fresh hlate] at hfresh
      have hstate := keyIn_state hpressed hfresh
      split at hstate <;> cases hstate
    · intro h
      constructor
      · intro hearly
        rw [if_pos hearly] at hpressed
        refine ⟨hsplit [] ▸ hpressed, fun held scan hheld hscan => ?_⟩
        rw [hsplit]
        exact (repeats_scan (repeats_scans hpressed hheld) hscan).2
      · intro hlate
        exact absurd (h.2 hlate) hexpires

/-- The layer key goes down at the start. -/
def fnDown (keys : List (Switch × List (String × LayerAction))) : Loop :=
  fnKeymap.rounds (fnKeymap.start keys) [⟨[(0, 1)], 0⟩]

/-- A tap of the layer key, and a second press 80 ms after it that is held. -/
theorem tapThenHold_fn : fnKeymap.TapThenHold (fnDown fnKeys) (0, 1) ⟨.key (-44), .layer "fn", 150, 150⟩ ⟨[], 20⟩
    [⟨[], 60⟩] ⟨[(0, 1)], 100⟩ := by
  have hstart : KeyIn (fnKeymap.start fnKeys) (0, 1) .released 0 := ⟨_, rfl, rfl, rfl⟩
  have htap : fnKeymap.Tapped (fnDown fnKeys) (0, 1) ⟨.key (-44), .layer "fn", 150, 150⟩ ⟨[], 20⟩ :=
    tapped_of_press hstart (by decide +kernel) (by simp) ⟨by decide +kernel, by decide +kernel, trivial⟩
      (by decide +kernel) (by simp) (by decide)
  apply (tapThenHold_iff htap (by decide) (by simp) (by simp) (by decide +kernel)).mpr
  have hfound : fnKeymap.actionAt (fnKeymap.round (fnDown fnKeys) ⟨[], 20⟩).1 ⟨[], 60⟩ (0, 1) =
      some ⟨.key (-44), .layer "fn", 150, 150⟩ := by decide +kernel
  refine ⟨fun _ hexpires => ?_, fun hlate => by simp at hlate⟩
  rcases hexpires with ⟨action, haction, hlate⟩ | hlate
  · rw [hfound] at haction
    cases haction
    simp at hlate
  · exact hlate

/-- The layer key with one window for the release and another for the next press. -/
def thresholdKeys (release repush : Int) : List (Switch × List (String × LayerAction)) :=
  [((0, 1), [("default", ⟨.key (-44), .layer "fn", release, repush⟩),
    ("fn", ⟨.key (-44), .layer "fn", release, repush⟩)])]

/-- With 300 ms for the next press, the tap is forgotten after 150 ms; with 150 ms, a press after 200 ms is lost. -/
theorem thresholds_mixed :
    fnKeymap.Tapped (fnDown (thresholdKeys 150 300)) (0, 1) ⟨.key (-44), .layer "fn", 150, 300⟩ ⟨[], 20⟩ ∧
    ¬ fnKeymap.TapThenHold (fnDown (thresholdKeys 150 300)) (0, 1) ⟨.key (-44), .layer "fn", 150, 300⟩ ⟨[], 20⟩
      [⟨[], 200⟩] ⟨[(0, 1)], 220⟩ ∧
    fnKeymap.Tapped (fnDown (thresholdKeys 300 150)) (0, 1) ⟨.key (-44), .layer "fn", 300, 150⟩ ⟨[], 20⟩ ∧
    ¬ fnKeymap.TapThenHold (fnDown (thresholdKeys 300 150)) (0, 1) ⟨.key (-44), .layer "fn", 300, 150⟩ ⟨[], 20⟩
      [⟨[], 100⟩] ⟨[(0, 1)], 220⟩ := by
  refine ⟨⟨⟨_, rfl, rfl, by decide⟩, by decide +kernel, by simp, by decide +kernel⟩, fun h => ?_,
    ⟨⟨_, rfl, rfl, by decide⟩, by decide +kernel, by simp, by decide +kernel⟩, fun h => ?_⟩
  · have hreport := (h.repeats (by decide)).2 [] ⟨[(0, 1)], 240⟩ (by simp) (by simp)
      ⟨.key (-44), .layer "fn", 150, 300⟩ (by decide +kernel)
    have hnone : (fnKeymap.round (fnKeymap.rounds (fnDown (thresholdKeys 150 300))
        ([⟨[], 20⟩, ⟨[], 200⟩] ++ [⟨[(0, 1)], 220⟩])) ⟨[(0, 1)], 240⟩).2.keycodes = [] := by decide +kernel
    have hmem := hreport.keycodes (List.mem_singleton.mpr (Eq.refl (44 : Int)))
    exact List.not_mem_nil (hnone ▸ hmem)
  · exact absurd (h.fresh (by decide)) (by decide +kernel)

end Keymap

end PicoRuby.Keyboard
