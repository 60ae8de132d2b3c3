import PicoRuby.Psg.Reduction

/-!
# Reading ahead

Where the commands of a track stand, and how long its notes last, can be read off the track with the tempo and the
default length alone. The parser takes the same bytes for each command.
-/

namespace PicoRuby.Psg

open Shared

set_option autoImplicit false

namespace Mml

/-! ## The track -/

def digitsAt (track : Bytes) (i : Nat) : Bytes := (track.drop i).takeWhile isDigit

def dotsAt (track : Bytes) (i : Nat) : Nat := ((track.drop i).takeWhile (· = 46)).length

def byteAt (track : Bytes) (i : Nat) : Option Nat := track[i]?.map UInt8.toNat

/-- The byte is `-`, `+` or `#`. -/
def isSemitone (b : Option Nat) : Bool := b == some 45 || b == some 43 || b == some 35

/-- A length starts with a digit other than 0, or is a dot. -/
def startsLength (b : Option Nat) : Bool := b.any fun b => (49 ≤ b && b ≤ 57) || b == 46

def isNote (c : Nat) : Bool := (97 ≤ c && c ≤ 103) || c == 114

/-- The byte in front of the length of the note `c` at `i`. -/
def lengthAt (track : Bytes) (c i : Nat) : Nat := if c ≠ 114 ∧ isSemitone (byteAt track (i + 1)) then i + 1 else i

def digitsEnd (track : Bytes) (i : Nat) : Nat := i + (digitsAt track (i + 1)).length

def dotsEnd (track : Bytes) (i : Nat) : Nat := i + dotsAt track (i + 1)

/-- The last byte that the command `c` at `i` takes. -/
def lastByte (track : Bytes) (c i : Nat) : Nat :=
  if isNote c then
    let i := lengthAt track c i
    if startsLength (byteAt track (i + 1)) then dotsEnd track (digitsEnd track i) else i
  else if c = 64 ∨ c = 111 ∨ c = 113 ∨ c = 120 ∨ c = 121 then i + 1
  else if c = 106 then
    let last := digitsEnd track i
    if number (digitsAt track (i + 1)) ≠ 0 ∧ byteAt track (last + 1) = some 44 then digitsEnd track (last + 1)
    else last
  else if c = 107 then
    if byteAt track (i + 1) = some 43 ∨ byteAt track (i + 1) = some 45 then digitsEnd track (i + 1) else i
  else if c = 108 then
    if number (digitsAt track (i + 1)) = 0 then digitsEnd track i else dotsEnd track (digitsEnd track i)
  else if c = 109 ∨ c = 112 ∨ c = 115 ∨ c = 116 ∨ c = 118 ∨ c = 122 then digitsEnd track i
  else i

/-- The command `c` at `i` gives an event. -/
def pushes (track : Bytes) (c i : Nat) : Bool :=
  c == 36 || c == 64 || c == 109 || c == 112 || c == 115 || c == 118 || c == 120 || c == 121 || c == 123 ||
    c == 125 || (c == 106 && number (digitsAt track (i + 1)) != 0)

/-! ## The clock -/

section Clock
variable (F : Type) [MmlFloat F]
open MmlFloat

/-- What lengths depend on. -/
structure Clock where
  tempo : Nat
  commonDuration : Int

/-- What the command `c` at `i` leaves of the clock. -/
def Clock.after (track : Bytes) (c i : Nat) (k : Clock) : Except MmlError Clock :=
  let n := number (digitsAt track (i + 1))
  let lasting (tempo : Nat) (fraction : F) : Except MmlError Clock := do
    let commonDuration ← rounded F (div (div (durationBase F) (ofInt tempo)) fraction)
    return ⟨tempo, commonDuration⟩
  if c = 108 then
    if n = 0 then return k
    else lasting k.tempo (mul (ofInt n) (coefTable F (dotsAt track (digitsEnd track i + 1))))
  else if c = 116 then
    if n = 0 then throw .divisionByNil else lasting n (ofInt 4)
  else return k

/-- How long the note or the rest `c` at `i` lasts. -/
def Clock.duration (track : Bytes) (c i : Nat) (k : Clock) : Except MmlError Int :=
  let i := lengthAt track c i
  let n := number (digitsAt track (i + 1))
  if startsLength (byteAt track (i + 1)) then
    let length : F := if n = 0 then ofInt k.commonDuration else div (div (durationBase F) (ofInt k.tempo)) (ofInt n)
    rounded F (mul length (coefTable F (dotsAt track (digitsEnd track i + 1))))
  else return k.commonDuration

def clock (m : Mml) : Clock := ⟨m.tempo, m.commonDuration⟩

end Clock

/-! ## Commands -/

/-- What the parser leaves behind a command. -/
structure Skims (F : Type) [MmlFloat F] (m m' : Mml) (c : Nat) : Prop where
  cursor : m'.cursor = lastByte m.track c m.cursor
  clock : m.clock.after F m.track c m.cursor = .ok m'.clock
  pushes : pushes m.track c m.cursor = true → m'.eventQueue ≠ []

section Commands
variable {F : Type} [MmlFloat F] {m m' : Mml} {c : Nat}

theorem pushEvent_ne_nil (m : Mml) (command : Command) (arg0 arg1 : Int) :
    (m.pushEvent command arg0 arg1).eventQueue ≠ [] :=
  List.append_ne_nil_of_right_ne_nil _ (List.cons_ne_nil _ _)

theorem subvalue_none {moved : Mml} (h : m.subvalue = (none, moved)) :
    number (digitsAt m.track (m.cursor + 1)) = 0 ∧ moved = m.move (digitsAt m.track (m.cursor + 1)).length := by
  have hvalue : (if number (digitsAt m.track (m.cursor + 1)) = 0 then none
      else some (number (digitsAt m.track (m.cursor + 1)))) = none := congrArg Prod.fst h
  refine ⟨?_, (congrArg Prod.snd h).symm⟩
  by_contra hne
  rw [if_neg hne] at hvalue
  cases hvalue

theorem subvalue_some {moved : Mml} {n : Nat} (h : m.subvalue = (some n, moved)) :
    n = number (digitsAt m.track (m.cursor + 1)) ∧ n ≠ 0 ∧
      moved = m.move (digitsAt m.track (m.cursor + 1)).length := by
  have hvalue : (if number (digitsAt m.track (m.cursor + 1)) = 0 then none
      else some (number (digitsAt m.track (m.cursor + 1)))) = some n := congrArg Prod.fst h
  by_cases hzero : number (digitsAt m.track (m.cursor + 1)) = 0
  · rw [if_pos hzero] at hvalue
    cases hvalue
  · rw [if_neg hzero] at hvalue
    cases hvalue
    exact ⟨rfl, hzero, (congrArg Prod.snd h).symm⟩

theorem lfoCommand_skims (F : Type) [MmlFloat F] (m : Mml) : Skims F m m.lfoCommand 106 := by
  have hlast : lastByte m.track 106 m.cursor =
      if number (digitsAt m.track (m.cursor + 1)) ≠ 0 ∧ byteAt m.track (digitsEnd m.track m.cursor + 1) = some 44 then
        digitsEnd m.track (digitsEnd m.track m.cursor + 1)
      else digitsEnd m.track m.cursor := rfl
  unfold lfoCommand
  split
  · rename_i moved hsub
    obtain ⟨hzero, rfl⟩ := subvalue_none hsub
    refine ⟨?_, rfl, fun hpush => ?_⟩
    · rw [hlast, if_neg fun h => h.1 hzero]
      rfl
    · simp [Mml.pushes, hzero] at hpush
  · rename_i depth moved hsub
    obtain ⟨hdepth, hne, rfl⟩ := subvalue_some hsub
    rw [hdepth] at hne
    dsimp only
    split
    · rename_i hcomma
      refine ⟨?_, rfl, fun _ => pushEvent_ne_nil _ _ _ _⟩
      rw [hlast, if_pos ⟨hne, hcomma⟩]
      rfl
    · rename_i hcomma
      refine ⟨?_, rfl, fun _ => pushEvent_ne_nil _ _ _ _⟩
      rw [hlast, if_neg fun h => hcomma h.2]
      rfl

theorem transposeCommand_skims (F : Type) [MmlFloat F] (m : Mml) : Skims F m m.transposeCommand 107 := by
  have hlast : lastByte m.track 107 m.cursor =
      if byteAt m.track (m.cursor + 1) = some 43 ∨ byteAt m.track (m.cursor + 1) = some 45 then
        digitsEnd m.track (m.cursor + 1)
      else m.cursor := rfl
  unfold transposeCommand
  dsimp only
  split
  · rename_i hsign
    exact ⟨(hlast.trans (if_pos hsign)).symm, rfl, fun hpush => absurd hpush Bool.false_ne_true⟩
  · rename_i hsign
    exact ⟨(hlast.trans (if_neg hsign)).symm, rfl, fun hpush => absurd hpush Bool.false_ne_true⟩

theorem subvalue_fst_none (h : m.subvalue.1 = none) : number (digitsAt m.track (m.cursor + 1)) = 0 :=
  (subvalue_none (Prod.ext h rfl : m.subvalue = (none, m.subvalue.2))).1

theorem subvalue_fst_some {n : Nat} (h : m.subvalue.1 = some n) :
    n = number (digitsAt m.track (m.cursor + 1)) ∧ n ≠ 0 := by
  obtain ⟨heq, hne, -⟩ := subvalue_some (Prod.ext h rfl : m.subvalue = (some n, m.subvalue.2))
  exact ⟨heq, hne⟩

theorem noLength_skims (F : Type) [MmlFloat F] (h : m.subvalue.1 = none) : Skims F m m.subvalue.2 108 := by
  have hlast : lastByte m.track 108 m.cursor =
      if number (digitsAt m.track (m.cursor + 1)) = 0 then digitsEnd m.track m.cursor
      else dotsEnd m.track (digitsEnd m.track m.cursor) := rfl
  have hzero := subvalue_fst_none h
  refine ⟨?_, ?_, fun hpush => absurd hpush Bool.false_ne_true⟩
  · rw [hlast, if_pos hzero]
    rfl
  · unfold Clock.after
    dsimp only
    rw [if_pos rfl, if_pos hzero]
    rfl

theorem length_skims {fraction : Nat} (h : m.subvalue.1 = some fraction)
    (hlength : (m.subvalue.2.puntiCoef F).2.updateCommonDuration F
      (MmlFloat.mul (MmlFloat.ofInt fraction) (m.subvalue.2.puntiCoef F).1) = .ok m') : Skims F m m' 108 := by
  have hlast : lastByte m.track 108 m.cursor =
      if number (digitsAt m.track (m.cursor + 1)) = 0 then digitsEnd m.track m.cursor
      else dotsEnd m.track (digitsEnd m.track m.cursor) := rfl
  obtain ⟨hfraction, hne⟩ := subvalue_fst_some h
  obtain ⟨commonDuration, hrounded, hret⟩ := bind_eq_ok.mp hlength
  cases hret
  rw [hfraction] at hne hrounded
  refine ⟨?_, ?_, fun hpush => absurd hpush Bool.false_ne_true⟩
  · rw [hlast, if_neg hne]
    rfl
  · unfold Clock.after
    dsimp only
    rw [if_pos rfl, if_neg hne]
    exact congrArg (fun r => r >>= fun d => pure (⟨m.tempo, d⟩ : Clock)) hrounded

theorem tempo_skims {tempo : Nat} (h : m.subvalue.1 = some tempo)
    (htempo : { m.subvalue.2 with tempo }.updateCommonDuration F (MmlFloat.ofInt 4) = .ok m') :
    Skims F m m' 116 := by
  obtain ⟨heq, hne⟩ := subvalue_fst_some h
  obtain ⟨commonDuration, hrounded, hret⟩ := bind_eq_ok.mp htempo
  cases hret
  refine ⟨rfl, ?_, fun hpush => absurd hpush Bool.false_ne_true⟩
  subst heq
  unfold Clock.after
  dsimp only
  rw [if_neg (by decide), if_pos rfl, if_neg hne]
  exact congrArg (fun r => r >>= fun d => pure (⟨_, d⟩ : Clock)) hrounded

/-- The bytes of `case c` that take no argument and give no event. -/
theorem skims_of_other (hnote : isNote c = false) (hletter : ¬ (c = 64 ∨ c = 111 ∨ c = 113 ∨ c = 120 ∨ c = 121))
    (hlfo : c ≠ 106) (htranspose : c ≠ 107) (hlength : c ≠ 108)
    (hnumber : ¬ (c = 109 ∨ c = 112 ∨ c = 115 ∨ c = 116 ∨ c = 118 ∨ c = 122))
    (hpush : pushes m.track c m.cursor = false) : Skims F m m c := by
  refine ⟨?_, ?_, fun h => ?_⟩
  · unfold lastByte
    rw [hnote, if_neg Bool.false_ne_true, if_neg hletter, if_neg hlfo, if_neg htranspose, if_neg hlength,
      if_neg hnumber]
  · have htempo : c ≠ 116 := fun heq => hnumber (by simp [heq])
    unfold Clock.after
    dsimp only
    rw [if_neg hlength, if_neg htempo]
    rfl
  · rw [hpush] at h
    cases h

/-- The parser takes the bytes of a command that are its own. -/
theorem command_skims (hnote : isNote c = false) (h : m.command F c = .ok m') : Skims F m m' c := by
  have hquiet {p : Prop} (hpush : false = true) : p := absurd hpush Bool.false_ne_true
  cases command_branch h with
  | segno => exact ⟨rfl, rfl, fun _ => pushEvent_ne_nil _ _ _ _⟩
  | octaveDown => exact ⟨rfl, rfl, hquiet⟩
  | octaveUp => exact ⟨rfl, rfl, hquiet⟩
  | timbre => exact ⟨rfl, rfl, fun _ => pushEvent_ne_nil _ _ _ _⟩
  | lfo => exact lfoCommand_skims F m
  | transpose => exact transposeCommand_skims F m
  | noLength hnone => exact noLength_skims F hnone
  | length hfraction hlength => exact length_skims hfraction hlength
  | octave => exact ⟨rfl, rfl, hquiet⟩
  | pan => exact ⟨rfl, rfl, fun _ => pushEvent_ne_nil _ _ _ _⟩
  | gate => exact ⟨rfl, rfl, hquiet⟩
  | envShape => exact ⟨rfl, rfl, fun _ => pushEvent_ne_nil _ _ _ _⟩
  | envPeriod => exact ⟨rfl, rfl, fun _ => pushEvent_ne_nil _ _ _ _⟩
  | tempo htempo hduration => exact tempo_skims htempo hduration
  | volume => exact ⟨rfl, rfl, fun _ => pushEvent_ne_nil _ _ _ _⟩
  | mixer => exact ⟨rfl, rfl, fun _ => pushEvent_ne_nil _ _ _ _⟩
  | noise => exact ⟨rfl, rfl, fun _ => pushEvent_ne_nil _ _ _ _⟩
  | detune => exact ⟨rfl, rfl, hquiet⟩
  | legatoOn => exact ⟨rfl, rfl, fun _ => pushEvent_ne_nil _ _ _ _⟩
  | legatoOff => exact ⟨rfl, rfl, fun _ => pushEvent_ne_nil _ _ _ _⟩
  | other hc =>
    simp only [List.mem_cons, List.not_mem_nil, or_false, not_or] at hc
    exact skims_of_other hnote (by omega) (by omega) (by omega) (by omega) (by omega) (by simp [pushes, hc])

/-! ## Notes -/

theorem tonePeriod_cursor {period : Int} (h : m.tonePeriod F c = .ok (period, m')) :
    m' = m.move (lengthAt m.track c m.cursor - m.cursor) := by
  unfold tonePeriod at h
  unfold lengthAt
  by_cases hrest : c = 114
  · rw [if_pos hrest] at h
    cases h
    rw [if_neg fun h => h.1 hrest, Nat.sub_self]
    rfl
  · rw [if_neg hrest] at h
    unfold getTonePeriod at h
    have hbyte : m.getbyte (m.cursor + 1) = byteAt m.track (m.cursor + 1) := rfl
    rw [hbyte] at h
    have hone : m.cursor + 1 - m.cursor = 1 := Nat.add_sub_cancel_left _ _
    dsimp only at h
    by_cases hflat : byteAt m.track (m.cursor + 1) = some 45
    · have hsemitone : isSemitone (byteAt m.track (m.cursor + 1)) = true := by rw [hflat]; rfl
      rw [if_pos ⟨hrest, hsemitone⟩, hone]
      split at h
      · cases h
        rw [if_pos hflat]
        split
        · rfl
        · rfl
      · cases h
    · by_cases hsharp : byteAt m.track (m.cursor + 1) = some 43 ∨ byteAt m.track (m.cursor + 1) = some 35
      · have hsemitone : isSemitone (byteAt m.track (m.cursor + 1)) = true := by
          rcases hsharp with hsharp | hsharp
          · rw [hsharp]; rfl
          · rw [hsharp]; rfl
        rw [if_pos ⟨hrest, hsemitone⟩, hone]
        split at h
        · cases h
          rw [if_neg hflat, if_pos hsharp]
        · cases h
      · have hsemitone : ¬ isSemitone (byteAt m.track (m.cursor + 1)) = true := by
          rw [not_or] at hsharp
          simp [isSemitone, hflat, hsharp.1, hsharp.2]
        rw [if_neg fun h => hsemitone h.2, Nat.sub_self]
        split at h
        · cases h
          rw [if_neg hflat, if_neg hsharp]
          rfl
        · cases h

theorem lengthAt_ge (track : Bytes) (c i : Nat) : i ≤ lengthAt track c i := by
  unfold lengthAt
  split
  · exact Nat.le_succ i
  · exact Nat.le_refl i

/-- What is read of a length is what its bytes say. -/
theorem noteLength_skims {length : Int} {n : Nat} {moved : Mml} (hmoved : moved = m.move n)
    (hlengthAt : m.cursor + n = lengthAt m.track c m.cursor) (hnote : isNote c = true)
    (h : moved.noteLength F = .ok (length, m')) :
    (∃ k, m' = m.move k) ∧ m'.cursor = lastByte m.track c m.cursor ∧
      m.clock.duration F m.track c m.cursor = .ok length := by
  have hlast : lastByte m.track c m.cursor =
      if startsLength (byteAt m.track (m.cursor + n + 1)) then
        dotsEnd m.track (digitsEnd m.track (m.cursor + n))
      else m.cursor + n := by
    unfold lastByte
    rw [if_pos hnote, ← hlengthAt]
  have hduration : m.clock.duration F m.track c m.cursor =
      if startsLength (byteAt m.track (m.cursor + n + 1)) then
        rounded F (MmlFloat.mul (if number (digitsAt m.track (m.cursor + n + 1)) = 0 then
            MmlFloat.ofInt m.commonDuration
          else MmlFloat.div (MmlFloat.div (durationBase F) (MmlFloat.ofInt m.tempo))
            (MmlFloat.ofInt (number (digitsAt m.track (m.cursor + n + 1)))))
          (coefTable F (dotsAt m.track (digitsEnd m.track (m.cursor + n) + 1))))
      else return m.commonDuration := by
    unfold Clock.duration
    rw [← hlengthAt]
    rfl
  subst hmoved
  unfold noteLength at h
  have hbyte : (m.move n).getbyte ((m.move n).cursor + 1) = byteAt m.track (m.cursor + n + 1) := rfl
  rw [hbyte] at h
  rw [hlast, hduration]
  cases hb : byteAt m.track (m.cursor + n + 1) with
  | none =>
    rw [hb] at h
    cases h
    exact ⟨⟨n, rfl⟩, rfl, rfl⟩
  | some b =>
    rw [hb] at h
    dsimp only at h
    have hstarts : startsLength (some b) = true ↔ (49 ≤ b ∧ b ≤ 57) ∨ b = 46 := by
      simp [startsLength]
    by_cases hlength : (49 ≤ b ∧ b ≤ 57) ∨ b = 46
    · rw [if_pos hlength] at h
      rw [if_pos (hstarts.mpr hlength), if_pos (hstarts.mpr hlength)]
      obtain ⟨rounded, hrounded, hret⟩ := bind_eq_ok.mp h
      cases hret
      refine ⟨⟨_, (move_move _ _).trans (move_move _ _)⟩, rfl, ?_⟩
      rw [← hrounded]
      congr 2
      by_cases hzero : number (digitsAt m.track (m.cursor + n + 1)) = 0
      · have hzero' : number ((m.move n).behind isDigit) = 0 := hzero
        rw [if_pos hzero]
        simp only [subvalue, hzero']
        rfl
      · have hzero' : number ((m.move n).behind isDigit) ≠ 0 := hzero
        rw [if_neg hzero]
        simp only [subvalue, if_neg hzero']
        rfl
    · rw [if_neg hlength] at h
      rw [if_neg (hlength ∘ hstarts.mp), if_neg (hlength ∘ hstarts.mp)]
      cases h
      exact ⟨⟨n, rfl⟩, rfl, rfl⟩

/-- A note takes its bytes, leaves the clock, and leaves an event when it lasts. -/
theorem note_skims (hnote : isNote c = true) (h : m.note F c = .ok m') :
    m'.cursor = lastByte m.track c m.cursor + 1 ∧ m'.clock = m.clock ∧
      ∀ length, m.clock.duration F m.track c m.cursor = .ok length → 0 < length → m'.eventQueue ≠ [] := by
  unfold note at h
  obtain ⟨⟨period, first⟩, hperiod, h⟩ := bind_eq_ok.mp h
  obtain ⟨⟨length, second⟩, hlength, h⟩ := bind_eq_ok.mp h
  obtain ⟨sustain, -, h⟩ := bind_eq_ok.mp h
  cases h
  have hle := lengthAt_ge m.track c m.cursor
  obtain ⟨⟨k, hmoved⟩, hcursor, hduration⟩ :=
    noteLength_skims (tonePeriod_cursor hperiod) (Nat.add_sub_cancel' hle) hnote hlength
  rw [pushNote_queue]
  refine ⟨congrArg (· + 1) hcursor, ?_, ?_⟩
  · rw [hmoved]
    rfl
  · intro length' hlength' hpos
    rw [hduration] at hlength'
    cases hlength'
    apply List.append_ne_nil_of_right_ne_nil
    unfold noteEvents
    by_cases hsustain : 0 < sustain
    · simp [hsustain]
    · have hrelease : 0 < length - sustain := by omega
      simp only [if_pos hrelease]
      simp

end Commands
end Mml

end PicoRuby.Psg
