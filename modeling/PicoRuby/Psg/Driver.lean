import PicoRuby.Psg.CompileMulti

/-!
# PSG::Driver

`play_mml` issues the commands for what `compile_multi` yields, each with the ticks to wait before it.
-/

namespace PicoRuby.Psg

open Shared

set_option autoImplicit false

/-- A command that `invoke` has pushed. -/
inductive Invoke where
  | mute (tr : Nat) (flag : Int)
  | sendReg (reg : Nat) (val : Int)
  | setLegato (tr : Nat) (legato : Int)
  | setPan (tr : Nat) (pan : Int)
  | setTimbre (tr : Nat) (timbre : Int)
  | setLfo (tr : Nat) (depth rate : Int)
deriving DecidableEq, Repr

/-- The commands that raise an ArgumentError. -/
def Invoke.rejected : Invoke → Bool
  | .setPan tr pan => 2 < tr || pan < 0 || 15 < pan
  | .setTimbre tr _ => 2 < tr
  | .setLegato tr _ => 2 < tr
  | _ => false

/-- A command with its `tick_delay`. -/
abbrev Delayed := Int × Invoke

def waitMs : Int := 500

/-- `mixer` after a `:mixer` command. -/
def mixerAfter (mixer tr : Nat) (arg0 : Int) : Nat :=
  if arg0 = 0 then Nat.ldiff (mixer ||| 1 <<< (tr + 3)) (1 <<< tr)
  else if arg0 = 1 then Nat.ldiff mixer (1 <<< (tr + 3)) ||| 1 <<< tr
  else if arg0 = 2 then Nat.ldiff (Nat.ldiff mixer (1 <<< tr)) (1 <<< (tr + 3))
  else mixer

/-- The block in `play_mml`: the mixer and the commands. `arg1` is 0, as it is never yielded. -/
def playYield (mixer : Nat) (y : Yield) : Nat × List Delayed :=
  match y.command with
  | .segno => (mixer, [])
  | .mute => (mixer, [(y.delta, .mute y.track y.arg0)])
  | .play => (mixer, [(y.delta, .sendReg (y.track * 2) (y.arg0 % 256)),
      (0, .sendReg (y.track * 2 + 1) (y.arg0 / 256 % 16))])
  | .volume => (mixer, [(y.delta, .sendReg (y.track + 8) y.arg0)])
  | .envPeriod => (mixer, [(y.delta, .sendReg 11 (y.arg0 % 256)), (0, .sendReg 12 (y.arg0 / 256))])
  | .envShape => (mixer, [(y.delta, .sendReg 13 y.arg0)])
  | .legato => (mixer, [(y.delta, .setLegato y.track y.arg0)])
  | .timbre => (mixer, [(y.delta, .setTimbre y.track y.arg0)])
  | .pan => (mixer, [(y.delta, .setPan y.track y.arg0)])
  | .lfo => (mixer, [(y.delta, .setLfo y.track y.arg0 0)])
  | .mixer =>
    let mixer := mixerAfter mixer y.track y.arg0
    (mixer, [(y.delta, .sendReg 7 mixer)])
  | .noise => (mixer, [(y.delta, .sendReg 6 y.arg0)])

/-- What `play_mml` issues: to fill the buffer, for each yield, and when something is raised. -/
structure Playback where
  fill : List Delayed
  blocks : List (List Delayed)
  rescue : List Delayed

/-- `Noise all off, Tone all on`. -/
def mixerAtFirst : Nat := 0b111000

/-- What is issued for each yield, and whether a command is rejected. -/
def playYields (mixer : Nat) : List Yield → List (List Delayed) × Bool
  | [] => ([], false)
  | y :: yields =>
    let (mixer, commands) := playYield mixer y
    if commands.any fun c => c.2.rejected then ([], true)
    else
      let rest := playYields mixer yields
      (commands :: rest.1, rest.2)

/-- `invoke :mute` for each track. -/
def muteAll (count : Nat) (flag delay : Int) : List Delayed :=
  (List.range count).map fun tr => (delay, .mute tr flag)

/-- `play_mml`, as far as `compile_multi` has come. -/
def playMml (F : Type) [MmlFloat F] (fuel steps : Nat) (tracks : List Bytes) : Playback :=
  let (yields, ending) := compileMulti F true true fuel steps tracks
  let (blocks, rejected) := playYields mixerAtFirst yields
  let raised := rejected || match ending with
    | .raised (.raised _) => true
    | _ => false
  { fill := muteAll tracks.length 0 waitMs
    blocks
    rescue := if raised then muteAll tracks.length 1 0 else [] }

/-! ## No command is rejected -/

section Accepted
variable {F : Type} [MmlFloat F] {exception loop : Bool} {fuel steps : Nat} {tracks : List Bytes}

/-- A yield is of one of the three tracks, with its argument in the range of the command. -/
def Yield.Playable (y : Yield) : Prop := y.track < 3 ∧ ∃ arg1, (⟨y.command, y.arg0, arg1⟩ : Event).InRange

theorem reduceNext_keeps_range : Keeps (Mml.reduceNext F loop fuel) Mml.QueueInRange
    Event.InRange (fun _ => True) :=
  ⟨fun _ _ _ hm h => (Mml.reduceNext_inRange hm h).symm, fun _ _ _ _ => trivial⟩

theorem startVoices_range {voices : List (Voice Mml Event)}
    (h : startVoices F exception loop fuel 0 tracks = .ok voices) :
    VoicesKept Mml.QueueInRange Event.InRange voices ∧
      ∀ v ∈ voices, v.track < tracks.length ∧ v.tick = 0 := by
  have hvoice : ∀ v ∈ voices, (v.source.QueueInRange ∧ v.event.InRange) ∧
      v.track < tracks.length ∧ v.tick = 0 := by
    intro v hv
    obtain ⟨k, track, hk, hstarted⟩ := startVoices_started h v hv
    obtain ⟨parser, hnew, hnext⟩ := hstarted.parser
    obtain ⟨hfresh, -⟩ := Mml.new_ok hnew
    have hempty : parser.QueueInRange := by
      intro e he
      rw [hfresh.queue] at he
      exact absurd he List.not_mem_nil
    obtain ⟨hrange, hqueue⟩ := Mml.reduceNext_inRange hempty hnext
    refine ⟨⟨hqueue, hrange⟩, ?_, hstarted.tick⟩
    rw [hstarted.number, Nat.zero_add]
    exact (List.getElem?_eq_some_iff.mp hk).1
  exact ⟨fun v hv => (hvoice v hv).1, fun v hv => (hvoice v hv).2⟩

theorem compileMulti_playable :
    ∀ y ∈ (compileMulti F exception loop fuel steps tracks).1, y.Playable := by
  intro y hy
  obtain ⟨hlen, voices, hvoices, x, hx, rfl⟩ := compileMulti_mem hy
  obtain ⟨hkept, htracks⟩ := startVoices_range hvoices
  obtain ⟨hrange, htrack⟩ := (merge_keeps reduceNext_keeps_range hkept).1 x hx
  obtain ⟨v, hv, heq⟩ := List.mem_map.mp htrack
  have hlt := (htracks v hv).1
  refine ⟨?_, x.2.2.arg1, hrange⟩
  change x.2.1 < 3
  omega

theorem compileMulti_deltas :
    ∀ y ∈ (compileMulti F exception loop fuel steps tracks).1, 0 ≤ y.delta := by
  intro y hy
  obtain ⟨-, voices, hvoices, x, hx, rfl⟩ := compileMulti_mem hy
  obtain ⟨hkept, htracks⟩ := startVoices_range hvoices
  exact merge_deltas reduceNext_keeps_range (fun e he => eventDuration_nonneg he) hkept
    (fun v hv => Int.le_of_eq (htracks v hv).2.symm) x hx

theorem playYield_accepted {mixer : Nat} {y : Yield} (h : y.Playable) :
    ((playYield mixer y).2.any fun c => c.2.rejected) = false := by
  obtain ⟨htrack, arg1, hrange⟩ := h
  obtain ⟨delta, track, command, arg0⟩ := y
  replace htrack : track < 3 := htrack
  have hown : ¬ 2 < track := by omega
  cases command with
  | pan =>
    obtain ⟨⟨hlow, hhigh⟩, -⟩ := hrange
    change ((decide (2 < track) || decide (arg0 < 0) || decide (15 < arg0)) || false) = false
    rw [decide_eq_false hown, decide_eq_false (Int.not_lt.mpr hlow),
      decide_eq_false (Int.not_lt.mpr hhigh)]
    rfl
  | timbre => exact (Bool.or_false _).trans (decide_eq_false hown)
  | legato => exact (Bool.or_false _).trans (decide_eq_false hown)
  | _ => rfl

/-- The block issues its commands for every yield. -/
theorem playYields_accepted {mixer : Nat} {yields : List Yield} (h : ∀ y ∈ yields, y.Playable) :
    (playYields mixer yields).2 = false ∧
      (playYields mixer yields).1.length = yields.length := by
  induction yields generalizing mixer with
  | nil => exact ⟨rfl, rfl⟩
  | cons y yields ih =>
    have hrest := @ih (playYield mixer y).1 fun z hz => h z (List.mem_cons_of_mem y hz)
    unfold playYields
    dsimp only
    rw [if_neg (Bool.eq_false_iff.mp (playYield_accepted (h y List.mem_cons_self)))]
    exact ⟨hrest.1, congrArg Nat.succ hrest.2⟩

end Accepted

/-! ## Time -/

/-- The delays of the commands up to those of a yield come to the time of the yield. -/
structure KeepsTime (yields : List Yield) (blocks : List (List Delayed)) : Prop where
  length : blocks.length = yields.length
  times : ∀ i t y, (atTimes 0 (yields.map fun y => (y.delta, y)))[i]? = some (t, y) →
    endTime 0 (blocks.take (i + 1)).flatten = t

section Time
variable {mixer : Nat} {y : Yield} {yields : List Yield} {start : Int}

/-- The delta is on the first of the commands, and a segno has none. -/
theorem playYield_delay :
    endTime start (playYield mixer y).2 = start + if y.command = .segno then 0 else y.delta := by
  obtain ⟨delta, track, command, arg0⟩ := y
  have hone (d : Int) (c : Invoke) : endTime start [(d, c)] = start + d := by
    rw [endTime_cons, endTime, List.map_nil, List.sum_nil, Int.add_zero]
  have htwo (d : Int) (c c' : Invoke) : endTime start [(d, c), (0, c')] = start + d := by
    rw [endTime_cons, endTime_cons, endTime, List.map_nil, List.sum_nil, Int.add_zero, Int.add_zero]
  cases command with
  | segno => rfl
  | play => exact htwo delta _ _
  | envPeriod => exact htwo delta _ _
  | _ => exact hone delta _

theorem playYields_cons (h : y.Playable) : (playYields mixer (y :: yields)).1 =
    (playYield mixer y).2 :: (playYields (playYield mixer y).1 yields).1 := by
  conv_lhs => unfold playYields
  dsimp only
  rw [if_neg (Bool.eq_false_iff.mp (playYield_accepted h))]

/-- From one yield on: the times are kept when no segno has a delta. -/
theorem playYields_times (h : ∀ y ∈ yields, y.Playable) :
    (∀ i t y, (atTimes start (yields.map fun y => (y.delta, y)))[i]? = some (t, y) →
      endTime start ((playYields mixer yields).1.take (i + 1)).flatten = t) ↔
        ∀ y ∈ yields, y.command = .segno → y.delta = 0 := by
  induction yields generalizing start mixer with
  | nil =>
    constructor
    · exact fun _ y hy => absurd hy List.not_mem_nil
    · intro _ i t y hi
      cases hi
  | cons y yields ih =>
    rw [playYields_cons (h y List.mem_cons_self)]
    have hrest := @ih (playYield mixer y).1 (start + y.delta) fun z hz =>
      h z (List.mem_cons_of_mem y hz)
    have hown : endTime start (playYield mixer y).2 = start + y.delta ↔
        (y.command = .segno → y.delta = 0) := by
      rw [playYield_delay]
      split
      · rename_i hsegno
        constructor
        · intro heq _
          omega
        · intro hzero
          rw [hzero hsegno]
      · rename_i hother
        exact ⟨fun _ hsegno => absurd hsegno hother, fun _ => rfl⟩
    have hlater (hkept : endTime start (playYield mixer y).2 = start + y.delta) (i : Nat) :
        endTime start (((playYield mixer y).2 :: (playYields (playYield mixer y).1 yields).1).take
          (i + 1 + 1)).flatten =
        endTime (start + y.delta) ((playYields (playYield mixer y).1 yields).1.take (i + 1)).flatten := by
      rw [List.take_succ_cons, List.flatten_cons, endTime_append, hkept]
    constructor
    · intro hall
      have hkept : endTime start (playYield mixer y).2 = start + y.delta := by
        have hfirst := hall 0 _ y rfl
        rw [List.take_succ_cons, List.take_zero, List.flatten_singleton] at hfirst
        exact hfirst
      intro z hz
      rcases List.mem_cons.mp hz with rfl | hz
      · exact hown.mp hkept
      · refine hrest.mp ?_ z hz
        intro i t x hi
        rw [← hlater hkept i]
        exact hall (i + 1) t x hi
    · intro hsegno i t x hi
      have hkept := hown.mpr (hsegno y List.mem_cons_self)
      cases i with
      | zero =>
        cases hi
        rw [List.take_succ_cons, List.take_zero, List.flatten_singleton]
        exact hkept
      | succ i =>
        rw [hlater hkept i]
        exact hrest.mpr (fun z hz => hsegno z (List.mem_cons_of_mem y hz)) i t x hi

end Time

/-- However far it has come, `play_mml` keeps the time of `compile_multi` when no segno is later than
the event before it. -/
theorem playMml_keepsTime (F : Type) [MmlFloat F] (fuel steps : Nat) (tracks : List Bytes) :
    KeepsTime (compileMulti F true true fuel steps tracks).1 (playMml F fuel steps tracks).blocks ↔
      ∀ y ∈ (compileMulti F true true fuel steps tracks).1, y.command = .segno → y.delta = 0 := by
  have hplayable := @compileMulti_playable F _ true true fuel steps tracks
  have htimes := @playYields_times mixerAtFirst _ 0 hplayable
  constructor
  · intro h
    exact htimes.mp h.times
  · intro h
    exact ⟨(playYields_accepted hplayable).2, htimes.mpr h⟩

/-- The track `a$b`: the time of its first note is lost. -/
theorem segno_loses_time :
    ¬ KeepsTime (compileMulti Rat true true 10 3 [[97, 36, 98]]).1
      (playMml Rat 10 3 [[97, 36, 98]]).blocks := by
  intro h
  have hlost := h.times 2 500 ⟨0, 0, .play, 142⟩ (by decide +kernel)
  revert hlost
  decide +kernel

end PicoRuby.Psg
