import PicoRuby.Psg.Mml
import PicoRuby.Shared.Results
import Mathlib.Data.Nat.Bitwise

/-!
# What the parser does

The events that `reduce_next` gives are in their ranges, and without a segno it comes to an end.
-/

namespace PicoRuby.Psg

open Shared

set_option autoImplicit false

/-- The arguments of an event are in their ranges. -/
def Event.InRange (e : Event) : Prop :=
  match e.command with
  | .play => 0 ≤ e.arg0 ∧ 0 < e.arg1
  | .mute => (0 ≤ e.arg0 ∧ e.arg0 ≤ 1) ∧ 0 ≤ e.arg1
  | .lfo => True
  | .volume => (0 ≤ e.arg0 ∧ e.arg0 ≤ 16) ∧ e.arg1 = 0
  | .envPeriod => (0 ≤ e.arg0 ∧ e.arg0 < 65536) ∧ e.arg1 = 0
  | .envShape => (0 ≤ e.arg0 ∧ e.arg0 ≤ 15) ∧ e.arg1 = 0
  | .pan => (0 ≤ e.arg0 ∧ e.arg0 ≤ 15) ∧ e.arg1 = 0
  | .mixer => (0 ≤ e.arg0 ∧ e.arg0 < 256) ∧ e.arg1 = 0
  | .noise => (0 ≤ e.arg0 ∧ e.arg0 < 256) ∧ e.arg1 = 0
  | .timbre => e.arg0 < 256 ∧ e.arg1 = 0
  | .legato => (0 ≤ e.arg0 ∧ e.arg0 ≤ 1) ∧ e.arg1 = 0
  | .segno => e.arg1 = 0

namespace Mml

/-- From one state of the parser to a later one, with the events that are pushed for the byte `c`. -/
structure Advances (c : Nat) (m m' : Mml) (new : List Event) : Prop where
  track : m'.track = m.track
  finished : m'.finished = m.finished
  queue : m'.eventQueue = m.eventQueue ++ new
  cursor : m.cursor ≤ m'.cursor
  count : new.length ≤ 3
  ranges : ∀ e ∈ new, e.InRange
  segno : c ≠ 36 → m'.segnoPos = m.segnoPos ∧ ∀ e ∈ new, e.command ≠ .segno

section Advance
variable {m m' m'' : Mml} {c : Nat} {new : List Event} {e : Event}

theorem Advances.of_none (htrack : m'.track = m.track) (hfinished : m'.finished = m.finished)
    (hqueue : m'.eventQueue = m.eventQueue) (hcursor : m.cursor ≤ m'.cursor)
    (hsegno : m'.segnoPos = m.segnoPos) : Advances c m m' [] := by
  refine ⟨htrack, hfinished, ?_, hcursor, Nat.zero_le 3, fun e he => absurd he List.not_mem_nil,
    fun _ => ⟨hsegno, fun e he => absurd he List.not_mem_nil⟩⟩
  rw [hqueue, List.append_nil]

theorem Advances.of_push {command : Command} {arg0 arg1 : Int} (hcommand : command ≠ .segno)
    (hrange : (⟨command, arg0, arg1⟩ : Event).InRange) (h : Advances c m m' []) :
    Advances c m (m'.pushEvent command arg0 arg1) [⟨command, arg0, arg1⟩] := by
  refine ⟨h.track, h.finished, ?_, h.cursor, Nat.le_add_left 1 2, ?_, fun hne => ⟨(h.segno hne).1, ?_⟩⟩
  · change m'.eventQueue ++ _ = _
    rw [h.queue, List.append_nil]
  · intro e he
    rw [List.mem_singleton.mp he]
    exact hrange
  · intro e he
    rw [List.mem_singleton.mp he]
    exact hcommand

theorem Advances.move (n : Nat) : Advances c m (m.move n) [] :=
  .of_none rfl rfl rfl (Nat.le_add_right _ _) rfl

theorem Advances.refl : Advances c m m [] := .of_none rfl rfl rfl (Nat.le_refl _) rfl

end Advance

/-! ## Numbers and letters -/

section Reading
variable {F : Type} [MmlFloat F] {m m' : Mml}

theorem move_move (n k : Nat) : (m.move n).move k = m.move (n + k) := by
  change { m with cursor := m.cursor + n + k } = { m with cursor := m.cursor + (n + k) }
  rw [Nat.add_assoc]

theorem getbyte_lt {i b : Nat} (h : m.getbyte i = some b) : b < 256 := by
  obtain ⟨byte, -, rfl⟩ := Option.map_eq_some_iff.mp h
  exact byte.toNat_lt

theorem letter_range {default : Nat} (hdefault : default < 256) :
    0 ≤ (m.letter default).1 ∧ (m.letter default).1 < 256 := by
  change (0 : Int) ≤ (((m.move 1).getbyte (m.move 1).cursor).getD default : Nat) ∧
    ((((m.move 1).getbyte (m.move 1).cursor).getD default : Nat) : Int) < 256
  refine ⟨Int.natCast_nonneg _, ?_⟩
  cases hbyte : (m.move 1).getbyte (m.move 1).cursor with
  | none =>
    rw [Option.getD_none]
    exact Int.ofNat_lt.mpr hdefault
  | some b =>
    rw [Option.getD_some]
    exact Int.ofNat_lt.mpr (getbyte_lt hbyte)

theorem min15_le {value : Option Nat} {n : Nat} (h : min15 value = .ok n) : n ≤ 15 := by
  cases value with
  | none => cases h
  | some k =>
    cases h
    exact Nat.min_le_right k 15

theorem updateCommonDuration_ok {fraction : F} (h : m.updateCommonDuration F fraction = .ok m') :
    ∃ commonDuration, m' = { m with commonDuration } := by
  obtain ⟨commonDuration, -, hret⟩ := bind_eq_ok.mp h
  cases hret
  exact ⟨commonDuration, rfl⟩

end Reading

/-! ## Commands -/

section Commands
variable {F : Type} [MmlFloat F] {m m' : Mml}

/-- The branch of `case c` that is taken, and what it leaves. -/
inductive Branch (F : Type) [MmlFloat F] (m : Mml) : Nat → Mml → Prop where
  | segno : Branch F m 36 ({ m with segnoPos := m.cursor + 1 }.pushEvent .segno 0 0)
  | octaveDown : Branch F m 60 { m with octave := if 1 < m.octave then m.octave - 1 else m.octave }
  | octaveUp : Branch F m 62 { m with octave := if m.octave < 8 then m.octave + 1 else m.octave }
  | timbre : Branch F m 64 ((m.letter 48).2.pushEvent .timbre ((m.letter 48).1 - 48) 0)
  | lfo : Branch F m 106 m.lfoCommand
  | transpose : Branch F m 107 m.transposeCommand
  | noLength (h : m.subvalue.1 = none) : Branch F m 108 m.subvalue.2
  | length {fraction : Nat} {m' : Mml} (h : m.subvalue.1 = some fraction)
      (hlength : (m.subvalue.2.puntiCoef F).2.updateCommonDuration F
        (MmlFloat.mul (MmlFloat.ofInt fraction) (m.subvalue.2.puntiCoef F).1) = .ok m') : Branch F m 108 m'
  | octave : Branch F m 111 { (m.letter 52).2 with octave := (m.letter 52).1 - 48 }
  | pan {value : Nat} (h : min15 m.subvalue.1 = .ok value) : Branch F m 112 (m.subvalue.2.pushEvent .pan value 0)
  | gate : Branch F m 113 { (m.letter 56).2 with
      q := if (m.letter 56).1 - 48 < 1 ∨ 8 < (m.letter 56).1 - 48 then 8 else (m.letter 56).1 - 48 }
  | envShape : Branch F m 115 ((m.pushEvent .volume 16 0).subvalue.2.pushEvent .envShape
      ((m.pushEvent .volume 16 0).subvalue.1.getD 0 &&& 0x0F : Nat) 0)
  | envPeriod : Branch F m 109 (m.subvalue.2.pushEvent .envPeriod (m.subvalue.1.getD 0 &&& 0xFFFF : Nat) 0)
  | tempo {tempo : Nat} {m' : Mml} (h : m.subvalue.1 = some tempo)
      (htempo : { m.subvalue.2 with tempo }.updateCommonDuration F (MmlFloat.ofInt 4) = .ok m') : Branch F m 116 m'
  | volume {value : Nat} (h : min15 m.subvalue.1 = .ok value) :
      Branch F m 118 (m.subvalue.2.pushEvent .volume value 0)
  | mixer : Branch F m 120 ((m.letter 0).2.pushEvent .mixer (m.letter 0).1 0)
  | noise : Branch F m 121 ((m.letter 0).2.pushEvent .noise (m.letter 0).1 0)
  | detune : Branch F m 122 { m.subvalue.2 with detune := m.subvalue.1.getD 0 }
  | legatoOn : Branch F m 123 (m.pushEvent .legato 1 0)
  | legatoOff : Branch F m 125 (m.pushEvent .legato 0 0)
  | other {c : Nat}
      (h : c ∉ [36, 60, 62, 64, 106, 107, 108, 111, 112, 113, 115, 109, 116, 118, 120, 121, 122, 123, 125]) :
      Branch F m c m

theorem lengthCommand_branch (h : m.command F 108 = .ok m') : Branch F m 108 m' := by
  cases hvalue : m.subvalue.1 with
  | none =>
    have hsub : m.subvalue = (none, m.subvalue.2) := Prod.ext hvalue rfl
    unfold command at h
    rw [hsub] at h
    cases h
    exact .noLength hvalue
  | some fraction =>
    have hsub : m.subvalue = (some fraction, m.subvalue.2) := Prod.ext hvalue rfl
    unfold command at h
    rw [hsub] at h
    exact .length hvalue h

theorem tempoCommand_branch (h : m.command F 116 = .ok m') : Branch F m 116 m' := by
  cases hvalue : m.subvalue.1 with
  | none =>
    have hsub : m.subvalue = (none, m.subvalue.2) := Prod.ext hvalue rfl
    unfold command at h
    rw [hsub] at h
    cases h
  | some tempo =>
    have hsub : m.subvalue = (some tempo, m.subvalue.2) := Prod.ext hvalue rfl
    unfold command at h
    rw [hsub] at h
    exact .tempo hvalue h

theorem command_branch {c : Nat} (h : m.command F c = .ok m') : Branch F m c m' := by
  have hcommand := h
  unfold command at h
  by_cases h36 : c = 36
  · subst h36
    cases h
    exact .segno
  rw [if_neg h36] at h
  by_cases h60 : c = 60
  · subst h60
    cases h
    exact .octaveDown
  rw [if_neg h60] at h
  by_cases h62 : c = 62
  · subst h62
    cases h
    exact .octaveUp
  rw [if_neg h62] at h
  by_cases h64 : c = 64
  · subst h64
    cases h
    exact .timbre
  rw [if_neg h64] at h
  by_cases h106 : c = 106
  · subst h106
    cases h
    exact .lfo
  rw [if_neg h106] at h
  by_cases h107 : c = 107
  · subst h107
    cases h
    exact .transpose
  rw [if_neg h107] at h
  by_cases h108 : c = 108
  · subst h108
    exact lengthCommand_branch hcommand
  rw [if_neg h108] at h
  by_cases h111 : c = 111
  · subst h111
    cases h
    exact .octave
  rw [if_neg h111] at h
  by_cases h112 : c = 112
  · subst h112
    obtain ⟨pan, hpan, hret⟩ := bind_eq_ok.mp h
    cases hret
    exact .pan hpan
  rw [if_neg h112] at h
  by_cases h113 : c = 113
  · subst h113
    cases h
    exact .gate
  rw [if_neg h113] at h
  by_cases h115 : c = 115
  · subst h115
    cases h
    exact .envShape
  rw [if_neg h115] at h
  by_cases h109 : c = 109
  · subst h109
    cases h
    exact .envPeriod
  rw [if_neg h109] at h
  by_cases h116 : c = 116
  · subst h116
    exact tempoCommand_branch hcommand
  rw [if_neg h116] at h
  by_cases h118 : c = 118
  · subst h118
    obtain ⟨volume, hvolume, hret⟩ := bind_eq_ok.mp h
    cases hret
    exact .volume hvolume
  rw [if_neg h118] at h
  by_cases h120 : c = 120
  · subst h120
    cases h
    exact .mixer
  rw [if_neg h120] at h
  by_cases h121 : c = 121
  · subst h121
    cases h
    exact .noise
  rw [if_neg h121] at h
  by_cases h122 : c = 122
  · subst h122
    cases h
    exact .detune
  rw [if_neg h122] at h
  by_cases h123 : c = 123
  · subst h123
    cases h
    exact .legatoOn
  rw [if_neg h123] at h
  by_cases h125 : c = 125
  · subst h125
    cases h
    exact .legatoOff
  rw [if_neg h125] at h
  have hsame : m' = m := by
    split at h
    · cases h
      rfl
    · split at h
      · cases h
      · cases h
        rfl
  rw [hsame]
  apply Branch.other
  simp [h36, h60, h62, h64, h106, h107, h108, h111, h112, h113, h115, h109, h116, h118, h120, h121, h122, h123, h125]

theorem lfoCommand_advances (m : Mml) (c : Nat) : ∃ new, Advances c m m.lfoCommand new := by
  unfold lfoCommand
  split
  · rename_i m' hsub
    have hmove : m' = m.move (m.behind isDigit).length := (congrArg Prod.snd hsub).symm
    rw [hmove]
    exact ⟨[], .move _⟩
  · rename_i depth m' hsub
    have hmove : m' = m.move (m.behind isDigit).length := (congrArg Prod.snd hsub).symm
    rw [hmove]
    dsimp only
    split
    · refine ⟨_, .of_push (by decide) trivial (.of_none rfl rfl rfl ?_ rfl)⟩
      exact Nat.le_add_right_of_le (Nat.le_add_right_of_le (Nat.le_add_right _ _))
    · exact ⟨_, .of_push (by decide) trivial (.move _)⟩

theorem transposeCommand_advances (m : Mml) (c : Nat) : Advances c m m.transposeCommand [] := by
  unfold transposeCommand
  dsimp only
  split
  · exact .of_none rfl rfl rfl (Nat.le_add_right_of_le (Nat.le_add_right _ _)) rfl
  · exact .refl

theorem envelopeCommand_advances (m : Mml) (c : Nat) : Advances c m
    ((m.pushEvent .volume 16 0).subvalue.2.pushEvent .envShape
      ((m.pushEvent .volume 16 0).subvalue.1.getD 0 &&& 0x0F : Nat) 0)
    [⟨.volume, 16, 0⟩, ⟨.envShape,
      ((m.pushEvent .volume 16 0).subvalue.1.getD 0 &&& 0x0F : Nat), 0⟩] := by
  have hle : (m.pushEvent .volume 16 0).subvalue.1.getD 0 &&& 0x0F ≤ 0x0F := Nat.and_le_right
  refine ⟨rfl, rfl, ?_, Nat.le_add_right _ _, Nat.le_add_left 2 1, ?_, fun _ => ⟨rfl, ?_⟩⟩
  · exact List.append_assoc _ _ _
  · intro e he
    rcases List.mem_pair.mp he with rfl | rfl
    · exact ⟨⟨Int.zero_le_ofNat 16, Int.le_refl 16⟩, rfl⟩
    · exact ⟨⟨Int.natCast_nonneg _, Int.ofNat_le.mpr hle⟩, rfl⟩
  · intro e he
    rcases List.mem_pair.mp he with rfl | rfl
    · intro heq
      cases heq
    · intro heq
      cases heq

/-- Every command only goes on and pushes events in their ranges. -/
theorem command_advances {c : Nat} (h : m.command F c = .ok m') : ∃ new, Advances c m m' new := by
  cases command_branch h with
  | segno =>
    refine ⟨[⟨.segno, 0, 0⟩], rfl, rfl, rfl, Nat.le_refl _, by decide, ?_, fun hne => absurd rfl hne⟩
    intro e he
    rw [List.mem_singleton.mp he]
    rfl
  | octaveDown => exact ⟨[], .of_none rfl rfl rfl (Nat.le_refl _) rfl⟩
  | octaveUp => exact ⟨[], .of_none rfl rfl rfl (Nat.le_refl _) rfl⟩
  | timbre =>
    have hrange := (@letter_range m 48 (by decide)).2
    have hlt : (m.letter 48).1 - 48 < 256 := by omega
    exact ⟨_, .of_push (by decide) ⟨hlt, rfl⟩ (.move 1)⟩
  | lfo => exact lfoCommand_advances m 106
  | transpose => exact ⟨[], transposeCommand_advances m 107⟩
  | noLength hnone => exact ⟨[], .move _⟩
  | length hfraction hlength =>
    obtain ⟨commonDuration, rfl⟩ := updateCommonDuration_ok hlength
    exact ⟨[], .of_none rfl rfl rfl (Nat.le_add_right_of_le (Nat.le_add_right _ _)) rfl⟩
  | octave => exact ⟨[], .of_none rfl rfl rfl (Nat.le_add_right _ _) rfl⟩
  | pan hpan =>
    have hle := min15_le hpan
    exact ⟨_, .of_push (by decide) ⟨⟨Int.natCast_nonneg _, Int.ofNat_le.mpr hle⟩, rfl⟩ (.move _)⟩
  | gate => exact ⟨[], .of_none rfl rfl rfl (Nat.le_add_right _ _) rfl⟩
  | envShape => exact ⟨_, envelopeCommand_advances m 115⟩
  | envPeriod =>
    have hle : m.subvalue.1.getD 0 &&& 0xFFFF ≤ 0xFFFF := Nat.and_le_right
    exact ⟨_, .of_push (by decide)
      ⟨⟨Int.natCast_nonneg _, Int.ofNat_lt.mpr (Nat.lt_succ_of_le hle)⟩, rfl⟩ (.move _)⟩
  | tempo htempo hduration =>
    obtain ⟨commonDuration, rfl⟩ := updateCommonDuration_ok hduration
    exact ⟨[], .of_none rfl rfl rfl (Nat.le_add_right _ _) rfl⟩
  | volume hvolume =>
    have hle := Nat.le_succ_of_le (min15_le hvolume)
    exact ⟨_, .of_push (by decide) ⟨⟨Int.natCast_nonneg _, Int.ofNat_le.mpr hle⟩, rfl⟩ (.move _)⟩
  | mixer => exact ⟨_, .of_push (by decide) ⟨@letter_range m 0 (by decide), rfl⟩ (.move 1)⟩
  | noise => exact ⟨_, .of_push (by decide) ⟨@letter_range m 0 (by decide), rfl⟩ (.move 1)⟩
  | detune => exact ⟨[], .of_none rfl rfl rfl (Nat.le_add_right _ _) rfl⟩
  | legatoOn => exact ⟨_, .of_push (by decide) ⟨⟨Int.zero_le_ofNat 1, Int.le_refl 1⟩, rfl⟩ .refl⟩
  | legatoOff => exact ⟨_, .of_push (by decide) ⟨⟨Int.le_refl 0, Int.zero_le_ofNat 1⟩, rfl⟩ .refl⟩
  | other hc => exact ⟨[], .refl⟩

/-! ## Notes -/

theorem getTonePeriod_moves {note : Nat} {semitone : Option Nat} {period : Int}
    (h : m.getTonePeriod F note semitone = .ok (period, m')) : ∃ n, m' = m.move n := by
  unfold getTonePeriod at h
  dsimp only at h
  split at h
  · cases h
    split
    · split
      · exact ⟨1, rfl⟩
      · exact ⟨1, rfl⟩
    · split
      · exact ⟨1, rfl⟩
      · exact ⟨0, rfl⟩
  · cases h

theorem tonePeriod_moves {c : Nat} {period : Int} (h : m.tonePeriod F c = .ok (period, m')) :
    ∃ n, m' = m.move n := by
  unfold tonePeriod at h
  split at h
  · cases h
    exact ⟨0, rfl⟩
  · exact getTonePeriod_moves h

theorem noteLength_moves {length : Int} (h : m.noteLength F = .ok (length, m')) :
    ∃ n, m' = m.move n := by
  unfold noteLength at h
  split at h
  · cases h
    exact ⟨0, rfl⟩
  · split at h
    · obtain ⟨rounded, -, hret⟩ := bind_eq_ok.mp h
      cases hret
      exact ⟨_, move_move _ _⟩
    · cases h
      exact ⟨0, rfl⟩

theorem sustainOf_nonneg {period length sustain : Int} (h : m.sustainOf F period length = .ok sustain)
    (hsustain : 0 < sustain) : 0 ≤ period := by
  by_contra hneg
  unfold sustainOf at h
  rw [if_pos (Int.not_le.mp hneg)] at h
  cases h
  exact absurd hsustain (Int.lt_irrefl 0)

/-- The events of a note. -/
def noteEvents (period sustain release : Int) : List Event :=
  (if 0 < sustain then [⟨.play, period, sustain⟩] else []) ++
    (if 0 < release then [⟨.mute, 1, release⟩, ⟨.mute, 0, 0⟩] else [])

theorem pushNote_queue (m : Mml) (period sustain release : Int) :
    m.pushNote period sustain release = { m with
      eventQueue := m.eventQueue ++ noteEvents period sustain release } := by
  unfold pushNote noteEvents
  by_cases hsustain : 0 < sustain
  · by_cases hrelease : 0 < release
    · simp only [if_pos hsustain, if_pos hrelease, pushEvent, List.append_assoc, List.cons_append,
        List.nil_append]
    · simp only [if_pos hsustain, if_neg hrelease, pushEvent, List.append_nil]
  · by_cases hrelease : 0 < release
    · simp only [if_neg hsustain, if_pos hrelease, pushEvent, List.append_assoc, List.cons_append,
        List.nil_append]
    · simp only [if_neg hsustain, if_neg hrelease, List.append_nil]

theorem mem_noteEvents {period sustain release : Int} {e : Event}
    (h : e ∈ noteEvents period sustain release) :
    (e = ⟨.play, period, sustain⟩ ∧ 0 < sustain) ∨ (e = ⟨.mute, 1, release⟩ ∧ 0 < release) ∨
      e = ⟨.mute, 0, 0⟩ := by
  unfold noteEvents at h
  rcases List.mem_append.mp h with h | h
  · split at h
    · rename_i hsustain
      exact Or.inl ⟨List.mem_singleton.mp h, hsustain⟩
    · cases h
  · split at h
    · rename_i hrelease
      rcases List.mem_pair.mp h with heq | heq
      · exact Or.inr (Or.inl ⟨heq, hrelease⟩)
      · exact Or.inr (Or.inr heq)
    · cases h

theorem noteEvents_length (period sustain release : Int) :
    (noteEvents period sustain release).length ≤ 3 := by
  unfold noteEvents
  rw [List.length_append]
  split
  · split
    · exact Nat.le_refl 3
    · exact Nat.le_add_left 1 2
  · split
    · exact Nat.le_add_left 2 1
    · exact Nat.zero_le 3

theorem note_advances {c : Nat} (h : m.note F c = .ok m') :
    ∃ new, Advances c m m' new ∧ m.cursor < m'.cursor := by
  unfold note at h
  obtain ⟨⟨period, first⟩, hperiod, h⟩ := bind_eq_ok.mp h
  obtain ⟨⟨length, second⟩, hlength, h⟩ := bind_eq_ok.mp h
  obtain ⟨sustain, hsustain, h⟩ := bind_eq_ok.mp h
  cases h
  obtain ⟨n, rfl⟩ := tonePeriod_moves hperiod
  obtain ⟨k, rfl⟩ := noteLength_moves hlength
  rw [move_move, move_move, pushNote_queue]
  refine ⟨noteEvents period sustain (length - sustain), ⟨rfl, rfl, rfl, Nat.le_add_right _ _,
    noteEvents_length _ _ _, ?_, fun _ => ⟨rfl, ?_⟩⟩, ?_⟩
  · intro e he
    rcases mem_noteEvents he with ⟨rfl, hpos⟩ | ⟨rfl, hpos⟩ | rfl
    · exact ⟨sustainOf_nonneg hsustain hpos, hpos⟩
    · exact ⟨⟨Int.zero_le_ofNat 1, Int.le_refl 1⟩, Int.le_of_lt hpos⟩
    · exact ⟨⟨Int.le_refl 0, Int.zero_le_ofNat 1⟩, Int.le_refl 0⟩
  · intro e he
    rcases mem_noteEvents he with ⟨rfl, -⟩ | ⟨rfl, -⟩ | rfl
    · intro heq
      cases heq
    · intro heq
      cases heq
    · intro heq
      cases heq
  · change m.cursor < m.cursor + (n + k + 1)
    omega

/-! ## Passes -/

/-- What a pass does: it ends the track, it goes back to the segno, or it takes the byte at the
cursor. -/
inductive Passes (loop : Bool) (m m' : Mml) (stop : Bool) : Prop where
  | ends (hbyte : m.getbyte m.cursor = none)
      (h : m' = { m with finished := true }.pushEvent .mute 1 0) (hstop : stop = true)
  | rewinds (hloop : loop = true) (h : m' = { m with cursor := m.segnoPos }) (hstop : stop = false)
  | takes (c : Nat) (new : List Event) (hbyte : m.getbyte m.cursor = some c)
      (hadvances : Advances c m m' new) (hcursor : m.cursor < m'.cursor)
      (hstop : stop = true → m'.eventQueue ≠ [])

theorem pass_cases {loop stop : Bool} (h : m.pass F loop = .ok (m', stop)) :
    Passes loop m m' stop := by
  unfold pass at h
  split at h
  · rename_i hbyte
    split at h
    · rename_i hloop
      cases h
      exact .rewinds hloop.1 rfl rfl
    · cases h
      exact .ends hbyte rfl rfl
  · rename_i c hbyte
    split at h
    · obtain ⟨noted, hnote, hret⟩ := bind_eq_ok.mp h
      cases hret
      obtain ⟨new, hadvances, hcursor⟩ := note_advances hnote
      refine .takes c new hbyte hadvances hcursor ?_
      intro hstop heq
      rw [heq] at hstop
      exact Bool.false_ne_true hstop
    · obtain ⟨done, hcommand, hret⟩ := bind_eq_ok.mp h
      cases hret
      obtain ⟨new, hadvances⟩ := command_advances hcommand
      refine .takes c new hbyte ⟨hadvances.track, hadvances.finished, hadvances.queue,
        Nat.le_succ_of_le hadvances.cursor, hadvances.count, hadvances.ranges, hadvances.segno⟩
        (Nat.lt_succ_of_le hadvances.cursor) ?_
      intro hstop
      cases hstop

end Commands

/-! ## The end of the loop -/

section Ends
variable {F : Type} [MmlFloat F] {m m' : Mml} {fuel : Nat}

/-- How much there is still to come. -/
def potential (m : Mml) : Nat :=
  m.eventQueue.length + if m.finished then 0 else 1 + 3 * (m.track.length - m.cursor)

/-- All that waits in the queue is in its range. -/
def QueueInRange (m : Mml) : Prop := ∀ e ∈ m.eventQueue, e.InRange

theorem getbyte_eq_none {i : Nat} : m.getbyte i = none ↔ m.track.length ≤ i := by
  rw [getbyte, Option.map_eq_none_iff, List.getElem?_eq_none_iff]

theorem Passes.potential_le {stop : Bool} (h : Passes false m m' stop) (hfinished : m.finished = false) :
    potential m' ≤ potential m := by
  unfold potential
  rw [hfinished, if_neg Bool.false_ne_true]
  cases h with
  | ends hbyte h hstop =>
    subst h
    change (m.eventQueue ++ [_]).length + 0 ≤ _
    rw [List.length_append, List.length_singleton]
    omega
  | rewinds hloop h hstop => cases hloop
  | takes c new hbyte hadvances hcursor hstop =>
    have hlt : m.cursor < m.track.length := by
      by_contra hle
      rw [getbyte_eq_none.mpr (Nat.not_lt.mp hle)] at hbyte
      cases hbyte
    have hcount := hadvances.count
    rw [hadvances.finished, hfinished, if_neg Bool.false_ne_true, hadvances.queue, hadvances.track,
      List.length_append]
    omega

theorem Passes.inRange {loop stop : Bool} (h : Passes loop m m' stop) (hqueue : QueueInRange m) :
    QueueInRange m' := by
  intro e he
  cases h with
  | ends hbyte h hstop =>
    subst h
    rcases List.mem_append.mp he with he | he
    · exact hqueue e he
    · rw [List.mem_singleton.mp he]
      exact ⟨⟨Int.zero_le_ofNat 1, Int.le_refl 1⟩, Int.le_refl 0⟩
  | rewinds hloop h hstop =>
    subst h
    exact hqueue e he
  | takes c new hbyte hadvances hcursor hstop =>
    rw [hadvances.queue] at he
    rcases List.mem_append.mp he with he | he
    · exact hqueue e he
    · exact hadvances.ranges e he

theorem Passes.track {loop stop : Bool} (h : Passes loop m m' stop) : m'.track = m.track := by
  cases h with
  | ends hbyte h hstop => rw [h]; rfl
  | rewinds hloop h hstop => rw [h]
  | takes c new hbyte hadvances hcursor hstop => exact hadvances.track

theorem Passes.nonempty {loop : Bool} (h : Passes loop m m' true) : m'.eventQueue ≠ [] := by
  cases h with
  | rewinds hloop h hstop => cases hstop
  | ends hbyte h hstop =>
    rw [h]
    exact List.append_ne_nil_of_right_ne_nil _ (List.cons_ne_nil _ _)
  | takes c new hbyte hadvances hcursor hstop => exact hstop rfl

theorem Passes.onward (h : Passes false m m' false) :
    m'.finished = m.finished ∧ m.cursor < m.track.length ∧ m.cursor < m'.cursor := by
  cases h with
  | rewinds hloop h hstop => cases hloop
  | ends hbyte h hstop => cases hstop
  | takes c new hbyte hadvances hcursor hstop =>
    refine ⟨hadvances.finished, ?_, hcursor⟩
    by_contra hle
    rw [getbyte_eq_none.mpr (Nat.not_lt.mp hle)] at hbyte
    cases hbyte

theorem passes_ok (hfinished : m.finished = false) (h : passes F false fuel m = .ok m') :
    m'.track = m.track ∧ potential m' ≤ potential m ∧ (QueueInRange m → QueueInRange m') ∧
      m'.eventQueue ≠ [] := by
  induction fuel generalizing m with
  | zero => cases h
  | succ fuel ih =>
    unfold passes at h
    split at h
    · cases h
    · rename_i next stop hpass
      have hcases := pass_cases hpass
      cases stop with
      | true =>
        cases h
        exact ⟨hcases.track, hcases.potential_le hfinished, hcases.inRange, hcases.nonempty⟩
      | false =>
        obtain ⟨hsame, -, -⟩ := hcases.onward
        obtain ⟨htrack, hpotential, hranges, hqueue⟩ := ih (hsame.trans hfinished) h
        exact ⟨htrack.trans hcases.track, hpotential.trans (hcases.potential_le hfinished),
          fun hq => hranges (hcases.inRange hq), hqueue⟩

/-- The loop ends with a pass for each byte that is left and one more. -/
theorem passes_not_endless (hfuel : m.track.length - m.cursor < fuel) :
    passes F false fuel m ≠ .error .endless := by
  induction fuel generalizing m with
  | zero => exact absurd hfuel (Nat.not_lt_zero _)
  | succ fuel ih =>
    unfold passes
    cases hpass : m.pass F false with
    | error e =>
      intro heq
      cases heq
    | ok result =>
      obtain ⟨next, stop⟩ := result
      have hcases := pass_cases hpass
      cases stop with
      | true =>
        intro heq
        cases heq
      | false =>
        obtain ⟨-, hlt, hcursor⟩ := hcases.onward
        apply ih
        rw [hcases.track]
        omega

/-- What each pass keeps is kept by the loop. -/
theorem passes_keep {loop : Bool} {I : Mml → Prop}
    (hpass : ∀ m m' stop, I m → m.pass F loop = .ok (m', stop) → I m') (hm : I m)
    (h : passes F loop fuel m = .ok m') : I m' := by
  induction fuel generalizing m with
  | zero => cases h
  | succ fuel ih =>
    unfold passes at h
    split at h
    · cases h
    · rename_i next stop hnext
      have hkept := hpass m next stop hm hnext
      cases stop with
      | true =>
        cases h
        exact hkept
      | false => exact ih hkept h

/-! ## reduce_next -/

theorem shiftEvent_some {e : Event} (hqueue : QueueInRange m) (h : m.shiftEvent = some (e, m')) :
    e.InRange ∧ QueueInRange m' ∧ m'.track = m.track ∧ potential m' < potential m := by
  unfold shiftEvent at h
  split at h
  · cases h
  · rename_i event events hevents
    cases h
    unfold QueueInRange at hqueue
    rw [hevents] at hqueue
    refine ⟨hqueue e List.mem_cons_self, fun f hf => hqueue f (List.mem_cons_of_mem e hf), rfl, ?_⟩
    unfold potential
    rw [hevents, List.length_cons]
    exact Nat.add_lt_add_right (Nat.lt_succ_self _) _

/-- `reduce_next` gives what is in the queue, or what the loop has put there. -/
theorem reduceNext_cases {loop : Bool} {result : Option (Event × Mml)}
    (h : m.reduceNext F loop fuel = .ok result) :
    (m.eventQueue ≠ [] ∧ result = m.shiftEvent) ∨ (m.finished = true ∧ result = none) ∨
      (m.finished = false ∧ ∃ n, passes F loop fuel { m with modRate := none } = .ok n ∧
        result = n.shiftEvent) := by
  unfold reduceNext at h
  split at h
  · rename_i hqueue
    cases h
    exact Or.inl ⟨hqueue, rfl⟩
  · split at h
    · rename_i hfinished
      cases h
      exact Or.inr (Or.inl ⟨hfinished, rfl⟩)
    · rename_i hfinished
      obtain ⟨n, hpasses, hret⟩ := bind_eq_ok.mp h
      cases hret
      exact Or.inr (Or.inr ⟨Bool.eq_false_iff.mpr hfinished, n, hpasses, rfl⟩)

/-- With a loop too, the events are in their ranges. -/
theorem reduceNext_inRange {loop : Bool} {e : Event} (hqueue : QueueInRange m)
    (h : m.reduceNext F loop fuel = .ok (some (e, m'))) : e.InRange ∧ QueueInRange m' := by
  rcases reduceNext_cases h with ⟨-, hshift⟩ | ⟨-, hnone⟩ | ⟨-, n, hpasses, hshift⟩
  · obtain ⟨hrange, hqueue', -, -⟩ := shiftEvent_some hqueue hshift.symm
    exact ⟨hrange, hqueue'⟩
  · cases hnone
  · have hkept : QueueInRange n :=
      passes_keep (fun _ _ _ hq hpass => (pass_cases hpass).inRange hq)
        (show QueueInRange { m with modRate := none } from hqueue) hpasses
    obtain ⟨hrange, hqueue', -, -⟩ := shiftEvent_some hkept hshift.symm
    exact ⟨hrange, hqueue'⟩

theorem reduceNext_some {e : Event} (hqueue : QueueInRange m)
    (h : m.reduceNext F false fuel = .ok (some (e, m'))) :
    e.InRange ∧ QueueInRange m' ∧ m'.track = m.track ∧ potential m' < potential m := by
  rcases reduceNext_cases h with ⟨-, hshift⟩ | ⟨-, hnone⟩ | ⟨hfinished, n, hpasses, hshift⟩
  · exact shiftEvent_some hqueue hshift.symm
  · cases hnone
  · obtain ⟨htrack, hpotential, hranges, -⟩ :=
      passes_ok (m := { m with modRate := none }) hfinished hpasses
    obtain ⟨hrange, hqueue', htrack', hlt⟩ := shiftEvent_some (hranges hqueue) hshift.symm
    exact ⟨hrange, hqueue', htrack'.trans htrack, Nat.lt_of_lt_of_le hlt hpotential⟩

theorem reduceNext_not_endless (hfuel : m.track.length < fuel) :
    m.reduceNext F false fuel ≠ .error .endless := by
  unfold reduceNext
  split
  · intro heq
    cases heq
  · split
    · intro heq
      cases heq
    · have hpasses := @passes_not_endless F _ { m with modRate := none } fuel
        (Nat.lt_of_le_of_lt (Nat.sub_le _ _) hfuel)
      intro heq
      cases hresult : passes F false fuel { m with modRate := none } with
      | error e =>
        rw [hresult] at heq hpasses
        cases heq
        exact hpasses rfl
      | ok n =>
        rw [hresult] at heq
        cases heq

end Ends
end Mml

end PicoRuby.Psg
