import PicoRuby.Psg.CompileMulti

/-!
# The commands of MML

The commands of the table in README_MML.md as they are written, what each is said to do, and what the parser does when
it reads them one after the other.
-/

namespace PicoRuby.Psg

open Shared

set_option autoImplicit false

/-! ## The table -/

/-- The bytes of a number. -/
structure IsNumber (n : Bytes) : Prop where
  digits : n.all isDigit = true
  ne_nil : n ≠ []

/-- The length behind a note or a rest. -/
structure Length where
  fraction : Bytes
  dots : Nat

def Length.render (l : Length) : Bytes := l.fraction ++ List.replicate l.dots 46

structure Length.InTable (l : Length) : Prop where
  digits : l.fraction.all isDigit = true
  leading : ∀ b ∈ l.fraction.head?, b ≠ 48
  dots : l.dots ≤ 3

/-- A command as it is written; numbers are the bytes of their digits. -/
inductive Written where
  | note (letter : UInt8) (accidental : Option UInt8) (l : Length)
  | rest (l : Length)
  | tempo (n : Bytes)
  | octave (digit : UInt8)
  | length (n : Bytes) (dots : Nat)
  | gate (digit : UInt8)
  | octaveDown
  | octaveUp
  | pan (n : Bytes)
  | volume (n : Bytes)
  | envShape (n : Bytes)
  | envPeriod (n : Bytes)
  | legato (on : Bool)
  | mixer (digit : UInt8)
  | noise (n : Bytes)
  | detune (n : Bytes)
  | timbre (digit : UInt8)
  | transpose (up : Bool) (n : Bytes)
  | lfo (depth rate : Bytes)
  | segno
  | blank

namespace Written

def render : Written → Bytes
  | note letter accidental l => letter :: (accidental.toList ++ l.render)
  | rest l => 114 :: l.render
  | tempo n => 116 :: n
  | octave digit => [111, digit]
  | length n dots => 108 :: (n ++ List.replicate dots 46)
  | gate digit => [113, digit]
  | octaveDown => [60]
  | octaveUp => [62]
  | pan n => 112 :: n
  | volume n => 118 :: n
  | envShape n => 115 :: n
  | envPeriod n => 109 :: n
  | legato on => [if on then 123 else 125]
  | mixer digit => [120, digit]
  | noise n => 121 :: n
  | detune n => 122 :: n
  | timbre digit => [64, digit]
  | transpose up n => 107 :: (if up then 43 else 45) :: n
  | lfo depth rate => 106 :: (depth ++ 44 :: rate)
  | segno => [36]
  | blank => [32]

/-- The arguments are in their ranges. -/
def InTable : Written → Prop
  | note letter accidental l =>
    (97 ≤ letter ∧ letter ≤ 103) ∧ (∀ a ∈ accidental, a = 43 ∨ a = 35 ∨ a = 45) ∧ l.InTable
  | rest l => l.InTable
  | tempo n => IsNumber n ∧ 0 < number n
  | octave digit => 48 ≤ digit ∧ digit ≤ 57
  | length n dots => IsNumber n ∧ 0 < number n ∧ dots ≤ 3
  | gate digit => 49 ≤ digit ∧ digit ≤ 56
  | pan n => IsNumber n ∧ 1 ≤ number n ∧ number n ≤ 15
  | volume n => IsNumber n ∧ number n ≤ 15
  | envShape n => IsNumber n ∧ number n ≤ 15
  | envPeriod n => IsNumber n ∧ number n ≤ 65535
  | mixer digit => 48 ≤ digit ∧ digit ≤ 50
  | noise n => IsNumber n ∧ number n ≤ 31
  | detune n => IsNumber n ∧ number n ≤ 128
  | timbre digit => 48 ≤ digit ∧ digit ≤ 51
  | transpose _ n => IsNumber n
  | lfo depth rate => IsNumber depth ∧ IsNumber rate
  | octaveDown => True
  | octaveUp => True
  | legato _ => True
  | segno => True
  | blank => True

def isNote : Written → Bool
  | note _ _ _ => true
  | rest _ => true
  | _ => false

/-- The byte that a command starts with. -/
def head (w : Written) : Nat := (w.render.headD 0).toNat

/-- The value of a digit. -/
def value (digit : UInt8) : Int := digit.toNat - 48

end Written

/-! ## What the commands are said to do -/

/-- What the commands set. -/
structure Settings where
  octave : Int
  tempo : Nat
  q : Int
  transpose : Int
  detune : Nat
  commonDuration : Int

/-- A parser with the settings; the pitch of a note is its pitch. -/
def Settings.parser (s : Settings) : Mml where
  trackId := 0
  raiseErr := true
  octave := s.octave
  tempo := s.tempo
  q := s.q
  transpose := s.transpose
  detune := s.detune
  track := []
  cursor := 0
  commonDuration := s.commonDuration
  eventQueue := []
  segnoPos := 0
  finished := false
  modRate := none

section Meaning
variable (F : Type) [MmlFloat F]
open MmlFloat

/-- The milliseconds of a whole note over `n`, with dots. -/
def Settings.millis (s : Settings) (n dots : Nat) : Except MmlError Int :=
  Mml.rounded F (mul (div (div (Mml.durationBase F) (ofInt s.tempo)) (ofInt n)) (Mml.coefTable F dots))

def Settings.lasting (s : Settings) (l : Length) : Except MmlError Int :=
  if l.fraction ≠ [] then s.millis F (number l.fraction) l.dots
  else if l.dots = 0 then return s.commonDuration
  else Mml.rounded F (mul (ofInt s.commonDuration) (Mml.coefTable F l.dots))

def Settings.period (s : Settings) (letter : UInt8) (accidental : Option UInt8) : Except MmlError Int := do
  let (period, _) ← s.parser.getTonePeriod F letter.toNat (accidental.map UInt8.toNat)
  return period

/-- What a command does to the settings, and its events. -/
def Settings.perform (s : Settings) : Written → Except MmlError (Settings × List Event)
  | .note letter accidental l => do
    let period ← s.period F letter accidental
    let length ← s.lasting F l
    let sustain ← s.parser.sustainOf F period length
    return (s, Mml.noteEvents period sustain (length - sustain))
  | .rest l => do
    let length ← s.lasting F l
    return (s, Mml.noteEvents (-1) 0 length)
  | .tempo n => do
    let commonDuration ← Mml.rounded F (div (div (Mml.durationBase F) (ofInt (number n))) (ofInt 4))
    return ({ s with tempo := number n, commonDuration }, [])
  | .octave digit => return ({ s with octave := Written.value digit }, [])
  | .length n dots => do
    let commonDuration ← s.millis F (number n) dots
    return ({ s with commonDuration }, [])
  | .gate digit => return ({ s with q := Written.value digit }, [])
  | .octaveDown => return ({ s with octave := if 1 < s.octave then s.octave - 1 else s.octave }, [])
  | .octaveUp => return ({ s with octave := if s.octave < 8 then s.octave + 1 else s.octave }, [])
  | .pan n => return (s, [⟨.pan, number n, 0⟩])
  | .volume n => return (s, [⟨.volume, number n, 0⟩])
  | .envShape n => return (s, [⟨.volume, 16, 0⟩, ⟨.envShape, number n, 0⟩])
  | .envPeriod n => return (s, [⟨.envPeriod, number n, 0⟩])
  | .legato on => return (s, [⟨.legato, if on then 1 else 0, 0⟩])
  | .mixer digit => return (s, [⟨.mixer, Written.value digit, 0⟩])
  | .noise n => return (s, [⟨.noise, number n, 0⟩])
  | .detune n => return ({ s with detune := number n }, [])
  | .timbre digit => return (s, [⟨.timbre, Written.value digit, 0⟩])
  | .transpose up n => return ({ s with transpose := if up then number n else -(number n : Int) }, [])
  | .lfo depth rate => return (s, [⟨.lfo, number depth * 100, number rate⟩])
  | .segno => return (s, [⟨.segno, 0, 0⟩])
  | .blank => return (s, [])

/-- The events of a track; at its end it is muted. -/
def Settings.performAll : Settings → List Written → Except MmlError (List Event)
  | _, [] => return [⟨.mute, 1, 0⟩]
  | s, w :: ws => do
    let (s, events) ← s.perform F w
    let rest ← s.performAll ws
    return events ++ rest

/-- Octave 4, 120 beats per minute, full notes, and quarter notes by default. -/
def Settings.initial : Except MmlError Settings := do
  let commonDuration ← Mml.rounded F (div (div (Mml.durationBase F) (ofInt 120)) (ofInt 4))
  return ⟨4, 120, 8, 0, 0, commonDuration⟩

end Meaning

/-- The commands that the parser does not take for what they are said to be are not there: `v0`, `x`, `y`, `k+` with a
number but 0, `l` with dots, and an `j` of depth 0. -/
def Written.Kept : Written → Prop
  | .volume n => number n ≠ 0
  | .mixer _ => False
  | .noise _ => False
  | .transpose up n => up = true → number n = 0
  | .length _ dots => dots = 0
  | .lfo depth _ => number depth ≠ 0
  | _ => True

/-! ## Reading an argument -/

namespace Mml

/-- What is behind the cursor and at it. -/
def text (m : Mml) : Bytes := m.track.drop m.cursor

def settings (m : Mml) : Settings := ⟨m.octave, m.tempo, m.q, m.transpose, m.detune, m.commonDuration⟩

/-- A byte that belongs to the command in front of it. -/
def continues (b : UInt8) : Bool := isDigit b || b == 46 || b == 43 || b == 45 || b == 35 || b == 44

/-- The text does not go on with what is in front of it. -/
def Stops (rest : Bytes) : Prop := ∀ b ∈ rest.head?, continues b = false

section Arguments
variable {F : Type} [MmlFloat F] {m : Mml} {b : UInt8} {n rest : Bytes} {dots : Nat}

theorem text_move (m : Mml) (k : Nat) : (m.move k).text = m.text.drop k := by
  unfold text
  rw [List.drop_drop]
  rfl

theorem settings_move (m : Mml) (k : Nat) : (m.move k).settings = m.settings := rfl

theorem settings_pushEvent (m : Mml) (command : Command) (arg0 arg1 : Int) :
    (m.pushEvent command arg0 arg1).settings = m.settings := rfl

theorem getbyte_text (m : Mml) (k : Nat) : m.getbyte (m.cursor + k) = m.text[k]?.map UInt8.toNat := by
  rw [getbyte, text, List.getElem?_drop]

theorem behind_text (m : Mml) (p : UInt8 → Bool) : m.behind p = (m.text.drop 1).takeWhile p := by
  rw [text, List.drop_drop]
  rfl

theorem takeWhile_stops {p : UInt8 → Bool} (hp : ∀ b, p b = true → continues b = true) (hrest : Stops rest) :
    rest.takeWhile p = [] := by
  cases rest with
  | nil => rfl
  | cons b rest =>
    apply List.takeWhile_cons_of_neg
    intro hb
    have hstop := hrest b rfl
    rw [hp b hb] at hstop
    cases hstop

theorem continues_of_isDigit (b : UInt8) (h : isDigit b = true) : continues b = true := by
  simp [continues, h]

theorem takeWhile_digits (hn : n.all isDigit = true) (hrest : rest.takeWhile isDigit = []) :
    (n ++ rest).takeWhile isDigit = n := by
  rw [List.takeWhile_append_of_pos (List.all_eq_true.mp hn), hrest, List.append_nil]

theorem takeWhile_dots (hrest : Stops rest) :
    (List.replicate dots 46 ++ rest).takeWhile (· = 46) = List.replicate dots 46 := by
  have hdots : ∀ b : UInt8, decide (b = 46) = true → continues b = true := by
    intro b hb
    rw [of_decide_eq_true hb]
    rfl
  rw [List.takeWhile_append_of_pos, takeWhile_stops hdots hrest, List.append_nil]
  intro b hb
  exact decide_eq_true (List.eq_of_mem_replicate hb)

theorem subvalue_number (htext : m.text = b :: (n ++ rest)) (hn : n.all isDigit = true)
    (hrest : rest.takeWhile isDigit = []) :
    m.subvalue = (if number n = 0 then none else some (number n), m.move n.length) := by
  have hbehind : m.behind isDigit = n := by
    rw [behind_text, htext, List.drop_one, List.tail_cons, takeWhile_digits hn hrest]
  unfold subvalue
  rw [hbehind]

theorem puntiCoef_dots (htext : m.text = b :: (List.replicate dots 46 ++ rest)) (hrest : Stops rest) :
    m.puntiCoef F = (coefTable F dots, m.move dots) := by
  have hbehind : (m.behind (· = 46)).length = dots := by
    rw [behind_text, htext, List.drop_one, List.tail_cons, takeWhile_dots hrest, List.length_replicate]
  unfold puntiCoef
  rw [hbehind]

/-- The text at the last byte that was taken. -/
theorem text_taken (htext : m.text = b :: (n ++ rest)) : ∃ c, (m.move n.length).text = c :: rest := by
  have hdrop : (b :: n).drop n.length ++ rest = (m.move n.length).text := by
    rw [text_move, htext, ← List.cons_append, List.drop_append_of_le_length (Nat.le_succ _)]
  have hlength : ((b :: n).drop n.length).length = 1 := by
    rw [List.length_drop, List.length_cons]
    omega
  obtain ⟨c, hc⟩ := List.length_eq_one_iff.mp hlength
  refine ⟨c, ?_⟩
  rw [← hdrop, hc]
  rfl

theorem letter_digit {digit : UInt8} (htext : m.text = b :: digit :: rest) (default : Nat) :
    m.letter default = ((digit.toNat : Int), m.move 1) := by
  have hbyte : (m.move 1).getbyte (m.move 1).cursor = some digit.toNat := by
    have hmoved : (m.move 1).getbyte (m.move 1).cursor = m.getbyte (m.cursor + 1) := rfl
    rw [hmoved, getbyte_text, htext]
    rfl
  unfold letter
  dsimp only
  rw [hbyte]
  rfl

end Arguments

/-! ## Commands -/

/-- What the parser has done with a command of so many bytes. -/
structure Performs (m m' : Mml) (taken : Nat) (s : Settings) (events : List Event) : Prop where
  cursor : m'.cursor = m.cursor + taken
  settings : m'.settings = s
  queue : m'.eventQueue = m.eventQueue ++ events
  track : m'.track = m.track
  finished : m'.finished = m.finished

section Commands
variable {F : Type} [MmlFloat F] {m : Mml} {n rest : Bytes} {s : Settings} {events : List Event}

theorem stops_takeWhile (hrest : Stops rest) : rest.takeWhile isDigit = [] :=
  takeWhile_stops continues_of_isDigit hrest

theorem tempo_performs (hn : IsNumber n) (hpos : 0 < number n) (hrest : Stops rest) (htext : m.text = 116 :: (n ++ rest))
    (h : m.settings.perform F (.tempo n) = .ok (s, events)) :
    ∃ done, m.command F 116 = .ok done ∧ Performs m (done.move 1) (n.length + 1) s events := by
  obtain ⟨commonDuration, hrounded, hret⟩ := bind_eq_ok.mp h
  cases hret
  have hsub := subvalue_number htext hn.digits (stops_takeWhile hrest)
  rw [if_neg hpos.ne'] at hsub
  have hcommand : m.command F 116 =
      { m.move n.length with tempo := number n }.updateCommonDuration F (MmlFloat.ofInt 4) := by
    simp [command, hsub]
  rw [hcommand]
  unfold updateCommonDuration
  dsimp only
  rw [hrounded]
  exact ⟨_, rfl, rfl, rfl, (List.append_nil _).symm, rfl, rfl⟩

theorem length_reads {dots : Nat} (hn : IsNumber n) (hpos : 0 < number n) (hrest : Stops rest)
    (htext : m.text = 108 :: (n ++ (List.replicate dots 46 ++ rest))) :
    m.command F 108 = (m.move (n.length + dots)).updateCommonDuration F
      (MmlFloat.mul (MmlFloat.ofInt (number n)) (coefTable F dots)) := by
  have hdots : (List.replicate dots 46 ++ rest).takeWhile isDigit = [] := by
    cases dots with
    | zero => exact stops_takeWhile hrest
    | succ dots => exact List.takeWhile_cons_of_neg (by decide)
  obtain ⟨c, htaken⟩ := text_taken htext
  have hsub := subvalue_number htext hn.digits hdots
  rw [if_neg hpos.ne'] at hsub
  simp [command, hsub, puntiCoef_dots htaken hrest, move_move]

/-- Without dots, a default length is the same number of milliseconds. -/
theorem length_performs (hone : ∀ x : F, MmlFloat.mul x (MmlFloat.decimal 10 1) = x) (hn : IsNumber n)
    (hpos : 0 < number n) (hrest : Stops rest) (htext : m.text = 108 :: (n ++ rest))
    (h : m.settings.perform F (.length n 0) = .ok (s, events)) :
    ∃ done, m.command F 108 = .ok done ∧ Performs m (done.move 1) (n.length + 1) s events := by
  obtain ⟨commonDuration, hrounded, hret⟩ := bind_eq_ok.mp h
  cases hret
  have hreads : m.command F 108 = _ := @length_reads F _ m n rest 0 hn hpos hrest htext
  have hcoefTable : coefTable F 0 = MmlFloat.decimal 10 1 := rfl
  unfold Settings.millis at hrounded
  rw [hcoefTable, hone] at hrounded
  rw [hreads, hcoefTable, hone]
  unfold updateCommonDuration
  have htempo : (m.move (n.length + 0)).tempo = m.settings.tempo := rfl
  rw [htempo, hrounded]
  exact ⟨_, rfl, rfl, rfl, (List.append_nil _).symm, rfl, rfl⟩

theorem transpose_performs {up : Bool} (hn : IsNumber n) (hk : up = true → number n = 0) (hrest : Stops rest)
    (htext : m.text = 107 :: (if up then 43 else 45) :: (n ++ rest)) :
    Performs m (m.transposeCommand.move 1) (n.length + 2)
      { m.settings with transpose := if up then number n else -(number n : Int) } [] := by
  have hbyte : m.getbyte (m.cursor + 1) = some (if up then 43 else 45) := by
    rw [getbyte_text, htext]
    cases up with
    | true => rfl
    | false => rfl
  have hsign : m.getbyte (m.cursor + 1) = some 43 ∨ m.getbyte (m.cursor + 1) = some 45 := by
    rw [hbyte]
    cases up with
    | true => exact Or.inl rfl
    | false => exact Or.inr rfl
  have htext' : (m.move 1).text = (if up then 43 else 45) :: (n ++ rest) := by
    rw [text_move, htext, List.drop_one, List.tail_cons]
  have hsub := subvalue_number htext' hn.digits (stops_takeWhile hrest)
  unfold transposeCommand
  dsimp only
  rw [if_pos hsign]
  refine ⟨?_, ?_, (List.append_nil _).symm, rfl, rfl⟩
  · rw [hsub]
    have hsum : m.cursor + (n.length + 2) = m.cursor + 1 + n.length + 1 := by omega
    rw [hsum]
    rfl
  · have hvalue : ((m.move 1).subvalue.1.getD 0 : Nat) = number n := by
      rw [hsub]
      by_cases hzero : number n = 0
      · rw [if_pos hzero, hzero]
        rfl
      · rw [if_neg hzero]
        rfl
    have htranspose : -(((m.move 1).subvalue.1.getD 0 : Nat) : Int) =
        if up then (number n : Int) else -(number n : Int) := by
      rw [hvalue]
      cases up with
      | true =>
        rw [hk rfl]
        rfl
      | false => rfl
    rw [← htranspose]
    rfl

theorem lfo_performs {depth rate : Bytes} (hdepth : IsNumber depth) (hrate : IsNumber rate) (hk : number depth ≠ 0)
    (hrest : Stops rest) (htext : m.text = 106 :: (depth ++ 44 :: (rate ++ rest))) :
    Performs m (m.lfoCommand.move 1) (depth.length + rate.length + 2) m.settings
      [⟨.lfo, number depth * 100, number rate⟩] := by
  have hcomma : (44 :: (rate ++ rest)).takeWhile isDigit = [] := List.takeWhile_cons_of_neg (by decide)
  have hsub := subvalue_number htext hdepth.digits hcomma
  obtain ⟨c, htaken⟩ := text_taken htext
  have hbyte : (m.move depth.length).getbyte ((m.move depth.length).cursor + 1) = some 44 := by
    rw [getbyte_text, htaken]
    rfl
  have htext' : ((m.move depth.length).move 1).text = 44 :: (rate ++ rest) := by
    rw [text_move, htaken, List.drop_one, List.tail_cons]
  have hsub' := subvalue_number htext' hrate.digits (stops_takeWhile hrest)
  unfold lfoCommand
  rw [hsub, if_neg hk]
  dsimp only
  rw [if_pos hbyte, hsub']
  dsimp only
  refine ⟨?cursor, ?settings, ?queue, ?track, ?finished⟩
  case cursor =>
    have hsum : m.cursor + (depth.length + rate.length + 2) = m.cursor + depth.length + 1 + rate.length + 1 := by omega
    rw [hsum]
    rfl
  case settings =>
    rw [settings_move, settings_pushEvent]
    have hmoved : (((m.move depth.length).move 1).move rate.length).settings = m.settings := by
      rw [settings_move, settings_move, settings_move]
    exact hmoved
  case queue =>
    have hvalue : (if number rate = 0 then none else some (number rate)).getD 0 = number rate := by
      split
      · rename_i hzero
        rw [hzero]
        rfl
      · rfl
    rw [hvalue]
    rfl
  case track =>
    unfold move pushEvent
    rfl
  case finished =>
    unfold move pushEvent
    rfl

theorem getD_subvalue (k : Nat) : ((if k = 0 then none else some k : Option Nat)).getD 0 = k := by
  split
  · rename_i hzero
    rw [hzero]
    rfl
  · rfl

theorem and_mask {n k : Nat} (h : n < 2 ^ k) : n &&& (2 ^ k - 1) = n := by
  rw [Nat.and_two_pow_sub_one_eq_mod, Nat.mod_eq_of_lt h]

/-- The commands of a number that is cut to 15. -/
theorem clamped_performs {c : Nat} {b : UInt8} {command : Command} (hn : IsNumber n) (hne : number n ≠ 0)
    (hle : number n ≤ 15) (hrest : Stops rest) (htext : m.text = b :: (n ++ rest))
    (hcommand : ∀ k moved, m.subvalue = (some k, moved) →
      m.command F c = .ok (moved.pushEvent command (min k 15 : Nat) 0)) :
    ∃ done, m.command F c = .ok done ∧ Performs m (done.move 1) (n.length + 1) m.settings [⟨command, number n, 0⟩] := by
  have hsub := subvalue_number htext hn.digits (stops_takeWhile hrest)
  rw [if_neg hne] at hsub
  refine ⟨_, hcommand _ _ hsub, ?_⟩
  rw [Nat.min_eq_left hle]
  exact ⟨rfl, rfl, rfl, rfl, rfl⟩

theorem envShape_performs (hn : IsNumber n) (hle : number n ≤ 15) (hrest : Stops rest)
    (htext : m.text = 115 :: (n ++ rest)) :
    ∃ done, m.command F 115 = .ok done ∧
      Performs m (done.move 1) (n.length + 1) m.settings [⟨.volume, 16, 0⟩, ⟨.envShape, number n, 0⟩] := by
  have hsub : (m.pushEvent .volume 16 0).subvalue = _ :=
    @subvalue_number (m.pushEvent .volume 16 0) 115 n rest htext hn.digits (stops_takeWhile hrest)
  have hmask : number n &&& 0x0F = number n := @and_mask (number n) 4 (by omega)
  have hcommand : m.command F 115 = .ok ((m.pushEvent .volume 16 0).subvalue.2.pushEvent .envShape
      ((m.pushEvent .volume 16 0).subvalue.1.getD 0 &&& 0x0F : Nat) 0) := rfl
  refine ⟨_, hcommand, ?_⟩
  rw [hsub, getD_subvalue, hmask]
  have hsettings : (((m.pushEvent .volume 16 0).move n.length).pushEvent .envShape (number n : Nat) 0).settings =
      m.settings := by
    rw [settings_pushEvent, settings_move, settings_pushEvent]
  exact ⟨rfl, hsettings, List.append_assoc _ _ _, rfl, rfl⟩

theorem envPeriod_performs (hn : IsNumber n) (hle : number n ≤ 65535) (hrest : Stops rest)
    (htext : m.text = 109 :: (n ++ rest)) :
    ∃ done, m.command F 109 = .ok done ∧
      Performs m (done.move 1) (n.length + 1) m.settings [⟨.envPeriod, number n, 0⟩] := by
  have hmask : number n &&& 0xFFFF = number n := @and_mask (number n) 16 (by omega)
  have hcommand : m.command F 109 =
      .ok (m.subvalue.2.pushEvent .envPeriod (m.subvalue.1.getD 0 &&& 0xFFFF : Nat) 0) := rfl
  refine ⟨_, hcommand, ?_⟩
  rw [subvalue_number htext hn.digits (stops_takeWhile hrest), getD_subvalue, hmask]
  exact ⟨rfl, rfl, rfl, rfl, rfl⟩

/-- A command that is kept does what it is said to do, and takes its own bytes. -/
theorem command_performs (hone : ∀ x : F, MmlFloat.mul x (MmlFloat.decimal 10 1) = x) {w : Written} (hw : w.InTable)
    (hk : w.Kept) (hnote : w.isNote = false) (hrest : Stops rest) (htext : m.text = w.render ++ rest)
    (h : m.settings.perform F w = .ok (s, events)) :
    ∃ done, m.command F (Written.head w) = .ok done ∧ Performs m (done.move 1) w.render.length s events := by
  have hstop := stops_takeWhile hrest
  cases w with
  | note => cases hnote
  | rest => cases hnote
  | tempo n => exact tempo_performs hw.1 hw.2 hrest htext h
  | octave digit =>
    cases h
    have hcommand : m.command F 111 = .ok { (m.letter 52).2 with octave := (m.letter 52).1 - 48 } := rfl
    have hletter : m.letter 52 = _ := letter_digit htext 52
    refine ⟨_, hcommand, ?_⟩
    rw [hletter]
    exact ⟨rfl, rfl, (List.append_nil _).symm, rfl, rfl⟩
  | length n dots =>
    obtain ⟨hn, hpos, -⟩ := hw
    cases hk
    have hrender : (Written.length n 0).render = 108 :: n := by simp [Written.render]
    rw [hrender] at htext
    have hlength := length_performs hone hn hpos hrest htext h
    rw [hrender]
    exact hlength
  | gate digit =>
    cases h
    have hdigit : (49 : Nat) ≤ digit.toNat ∧ digit.toNat ≤ 56 := hw
    have hcommand : m.command F 113 = .ok { (m.letter 56).2 with
        q := if (m.letter 56).1 - 48 < 1 ∨ 8 < (m.letter 56).1 - 48 then 8 else (m.letter 56).1 - 48 } := rfl
    have hletter : m.letter 56 = _ := letter_digit htext 56
    refine ⟨_, hcommand, ?_⟩
    rw [hletter]
    dsimp only
    rw [if_neg (by omega)]
    exact ⟨rfl, rfl, (List.append_nil _).symm, rfl, rfl⟩
  | octaveDown =>
    cases h
    exact ⟨_, rfl, rfl, rfl, (List.append_nil _).symm, rfl, rfl⟩
  | octaveUp =>
    cases h
    exact ⟨_, rfl, rfl, rfl, (List.append_nil _).symm, rfl, rfl⟩
  | pan n =>
    cases h
    obtain ⟨hn, hpos, hle⟩ := hw
    apply clamped_performs hn (by omega) hle hrest htext
    intro k moved hsub
    simp [command, hsub, min15, Written.head, Written.render]
    rfl
  | volume n =>
    cases h
    obtain ⟨hn, hle⟩ := hw
    apply clamped_performs hn hk hle hrest htext
    intro k moved hsub
    simp [command, hsub, min15, Written.head, Written.render]
    rfl
  | envShape n =>
    cases h
    exact envShape_performs hw.1 hw.2 hrest htext
  | envPeriod n =>
    cases h
    exact envPeriod_performs hw.1 hw.2 hrest htext
  | legato on =>
    cases h
    cases on with
    | true => exact ⟨_, rfl, rfl, rfl, rfl, rfl, rfl⟩
    | false => exact ⟨_, rfl, rfl, rfl, rfl, rfl, rfl⟩
  | mixer digit => cases hk
  | noise n => cases hk
  | detune n =>
    cases h
    have hcommand : m.command F 122 = .ok { m.subvalue.2 with detune := m.subvalue.1.getD 0 } := rfl
    refine ⟨_, hcommand, ?_⟩
    rw [subvalue_number htext hw.1.digits hstop, getD_subvalue]
    exact ⟨rfl, rfl, (List.append_nil _).symm, rfl, rfl⟩
  | timbre digit =>
    cases h
    have hletter : m.letter 48 = _ := letter_digit htext 48
    have hcommand : m.command F 64 = .ok ((m.letter 48).2.pushEvent .timbre ((m.letter 48).1 - 48) 0) := rfl
    refine ⟨_, hcommand, ?_⟩
    rw [hletter]
    exact ⟨rfl, rfl, rfl, rfl, rfl⟩
  | transpose up n =>
    cases h
    exact ⟨_, rfl, transpose_performs hw hk hrest htext⟩
  | lfo depth rate =>
    cases h
    have hrender : (Written.lfo depth rate).render ++ rest = 106 :: (depth ++ 44 :: (rate ++ rest)) := by
      simp [Written.render]
    rw [hrender] at htext
    have hlength : (Written.lfo depth rate).render.length = depth.length + rate.length + 2 := by
      simp [Written.render]
      omega
    rw [hlength]
    exact ⟨_, rfl, lfo_performs hw.1 hw.2 hk hrest htext⟩
  | segno =>
    cases h
    exact ⟨_, rfl, rfl, rfl, rfl, rfl, rfl⟩
  | blank =>
    cases h
    exact ⟨_, rfl, rfl, rfl, (List.append_nil _).symm, rfl, rfl⟩

/-! ## Notes -/

/-- The byte behind a note, as far as it is an accidental. -/
theorem getTonePeriod_settings (note : Nat) {semitone semitone' : Option Nat} {k : Nat}
    (h : (semitone = semitone' ∧ (semitone = some 45 ∨ semitone = some 43 ∨ semitone = some 35) ∧ k = 1) ∨
      ((semitone ≠ some 45 ∧ ¬ (semitone = some 43 ∨ semitone = some 35)) ∧ semitone' = none ∧ k = 0)) :
    m.getTonePeriod F note semitone =
      (m.settings.parser.getTonePeriod F note semitone').map fun x => (x.1, m.move k) := by
  have hpitch (j : Nat) (fix val : Int) : pitch F (m.settings.parser.move j) fix val = pitch F (m.move j) fix val := rfl
  unfold getTonePeriod
  dsimp only
  rcases h with ⟨rfl, rfl | hsharp, rfl⟩ | ⟨⟨hflat, hsharp⟩, rfl, rfl⟩
  · rw [if_pos rfl, if_pos rfl]
    by_cases ha : note = 97
    · rw [if_pos ha, if_pos ha]
      dsimp only
      rw [hpitch]
      split
      · rfl
      · rfl
    · rw [if_neg ha, if_neg ha]
      dsimp only
      rw [hpitch]
      split
      · rfl
      · rfl
  · have hflat : semitone ≠ some 45 := by
      rintro rfl
      simp at hsharp
    rw [if_neg hflat, if_neg hflat, if_pos hsharp, if_pos hsharp]
    dsimp only
    rw [hpitch]
    split
    · rfl
    · rfl
  · have hnone : (none : Option Nat) ≠ some 45 := nofun
    have hnone' : ¬ ((none : Option Nat) = some 43 ∨ (none : Option Nat) = some 35) := by simp
    rw [if_neg hflat, if_neg hsharp, if_neg hnone, if_neg hnone']
    dsimp only
    have hstill (fix val : Int) : pitch F m.settings.parser fix val = pitch F m fix val := rfl
    rw [hstill]
    split
    · rfl
    · rfl

theorem number_pos {b : UInt8} (hb : isDigit b = true) (hne : b ≠ 48) (n : Bytes) : 0 < number (b :: n) := by
  have hle : ∀ (n : Bytes) (k : Nat), k ≤ n.foldl (fun val c => val * 10 + (c.toNat - 48)) k := by
    intro n
    induction n with
    | nil => exact fun k => Nat.le_refl k
    | cons c n ih =>
      intro k
      have hrest := ih (k * 10 + (c.toNat - 48))
      rw [List.foldl_cons]
      omega
  have hdigit : (48 : Nat) ≤ b.toNat ∧ b.toNat ≤ 57 := by
    unfold isDigit at hb
    rw [Bool.and_eq_true, decide_eq_true_iff, decide_eq_true_iff] at hb
    exact hb
  have hne' : b.toNat ≠ 48 := fun heq => hne (UInt8.toNat_inj.mp heq)
  have hstart := hle n (0 * 10 + (b.toNat - 48))
  unfold number
  rw [List.foldl_cons]
  omega

theorem getbyte_behind {b : UInt8} {l : Bytes} (htext : m.text = b :: l) :
    m.getbyte (m.cursor + 1) = l.head?.map UInt8.toNat := by
  rw [getbyte_text, htext, List.getElem?_cons_succ, List.head?_eq_getElem?]

theorem noteLength_default {b : UInt8} (hrest : Stops rest) (htext : m.text = b :: rest) :
    m.noteLength F = .ok (m.commonDuration, m) := by
  unfold noteLength
  rw [getbyte_behind htext]
  cases rest with
  | nil => rfl
  | cons c rest =>
    have hstop := hrest c rfl
    have hnot : ¬ ((49 ≤ c.toNat ∧ c.toNat ≤ 57) ∨ c.toNat = 46) := by
      intro hc
      have hc' : continues c = true := by
        rcases hc with hc | hc
        · apply continues_of_isDigit
          unfold isDigit
          rw [Bool.and_eq_true, decide_eq_true_iff, decide_eq_true_iff]
          exact ⟨Nat.le_of_succ_le hc.1, hc.2⟩
        · have heq : c = 46 := UInt8.toNat_inj.mp hc
          rw [heq]
          rfl
      rw [hstop] at hc'
      cases hc'
    exact if_neg hnot

theorem noteLength_dots {b : UInt8} {dots : Nat} {length : Int} (hrest : Stops rest)
    (htext : m.text = b :: (List.replicate (dots + 1) 46 ++ rest))
    (h : rounded F (MmlFloat.mul (MmlFloat.ofInt m.commonDuration) (coefTable F (dots + 1))) = .ok length) :
    m.noteLength F = .ok (length, m.move (dots + 1)) := by
  have hdots : (List.replicate (dots + 1) 46 ++ rest).takeWhile isDigit = [] :=
    List.takeWhile_cons_of_neg (by decide)
  have hsub : m.subvalue = (none, m.move 0) := subvalue_number (n := []) htext rfl hdots
  have hcoef : (m.move 0).puntiCoef F = (coefTable F (dots + 1), (m.move 0).move (dots + 1)) :=
    puntiCoef_dots htext hrest
  unfold noteLength
  rw [getbyte_behind htext]
  refine (if_pos (Or.inr rfl)).trans ?_
  rw [hsub]
  dsimp only
  rw [hcoef]
  dsimp only
  rw [move_move, Nat.zero_add]
  have hduration : (m.move (dots + 1)).commonDuration = m.commonDuration := rfl
  rw [hduration, h]
  rfl

theorem noteLength_fraction {b d : UInt8} {fraction : Bytes} {dots : Nat} {length : Int}
    (hdigits : (d :: fraction).all isDigit = true) (hleading : d ≠ 48) (hrest : Stops rest)
    (htext : m.text = b :: ((d :: fraction) ++ (List.replicate dots 46 ++ rest)))
    (h : m.settings.millis F (number (d :: fraction)) dots = .ok length) :
    m.noteLength F = .ok (length, m.move ((d :: fraction).length + dots)) := by
  have hd : isDigit d = true := by
    rw [List.all_cons, Bool.and_eq_true] at hdigits
    exact hdigits.1
  have hpos := number_pos hd hleading fraction
  have hdots : (List.replicate dots 46 ++ rest).takeWhile isDigit = [] := by
    cases dots with
    | zero => exact stops_takeWhile hrest
    | succ dots => exact List.takeWhile_cons_of_neg (by decide)
  have hsub := subvalue_number htext hdigits hdots
  rw [if_neg hpos.ne'] at hsub
  obtain ⟨c, htaken⟩ := text_taken htext
  have hcoef := puntiCoef_dots (F := F) htaken hrest
  have hrange : (49 ≤ d.toNat ∧ d.toNat ≤ 57) ∨ d.toNat = 46 := by
    unfold isDigit at hd
    rw [Bool.and_eq_true, decide_eq_true_iff, decide_eq_true_iff] at hd
    have hd' : (48 : Nat) ≤ d.toNat ∧ d.toNat ≤ 57 := hd
    have hne : d.toNat ≠ 48 := fun heq => hleading (UInt8.toNat_inj.mp heq)
    omega
  unfold noteLength
  rw [getbyte_behind htext]
  refine (if_pos hrange).trans ?_
  rw [hsub]
  dsimp only
  rw [hcoef]
  dsimp only
  rw [move_move]
  have hrounded : rounded F (MmlFloat.mul (MmlFloat.div (MmlFloat.div (durationBase F)
      (MmlFloat.ofInt (m.move ((d :: fraction).length + dots)).tempo)) (MmlFloat.ofInt (number (d :: fraction))))
      (coefTable F dots)) = .ok length := h
  rw [hrounded]
  rfl

/-- A length is read for what it is. -/
theorem noteLength_performs {b : UInt8} {l : Length} {length : Int} (hl : l.InTable) (hrest : Stops rest)
    (htext : m.text = b :: (l.render ++ rest)) (h : m.settings.lasting F l = .ok length) :
    m.noteLength F = .ok (length, m.move l.render.length) := by
  obtain ⟨fraction, dots⟩ := l
  unfold Length.render at htext ⊢
  unfold Settings.lasting at h
  dsimp only at htext h ⊢
  rw [List.append_assoc] at htext
  rw [List.length_append, List.length_replicate]
  cases fraction with
  | nil =>
    rw [if_neg (by simp)] at h
    cases dots with
    | zero =>
      rw [if_pos rfl] at h
      cases h
      exact noteLength_default hrest htext
    | succ dots =>
      rw [if_neg (Nat.succ_ne_zero dots)] at h
      rw [List.length_nil, Nat.zero_add]
      exact noteLength_dots hrest htext h
  | cons d fraction =>
    rw [if_pos (List.cons_ne_nil d fraction)] at h
    exact noteLength_fraction hl.digits (hl.leading d rfl) hrest htext h

/-- The byte behind the letter of a note is its accidental, or no accidental. -/
theorem note_accidental {letter : UInt8} {accidental : Option UInt8} {l : Length}
    (ha : ∀ a ∈ accidental, a = 43 ∨ a = 35 ∨ a = 45) (hl : l.InTable) (hrest : Stops rest)
    (htext : m.text = letter :: (accidental.toList ++ (l.render ++ rest))) :
    (m.getbyte (m.cursor + 1) = accidental.map UInt8.toNat ∧
      (m.getbyte (m.cursor + 1) = some 45 ∨ m.getbyte (m.cursor + 1) = some 43 ∨ m.getbyte (m.cursor + 1) = some 35) ∧
      accidental.toList.length = 1) ∨
    ((m.getbyte (m.cursor + 1) ≠ some 45 ∧
      ¬ (m.getbyte (m.cursor + 1) = some 43 ∨ m.getbyte (m.cursor + 1) = some 35)) ∧
      accidental.map UInt8.toNat = none ∧ accidental.toList.length = 0) := by
  rw [getbyte_behind htext]
  cases accidental with
  | some a =>
    left
    refine ⟨rfl, ?_, rfl⟩
    rcases ha a rfl with rfl | rfl | rfl
    · exact Or.inr (Or.inl rfl)
    · exact Or.inr (Or.inr rfl)
    · exact Or.inl rfl
  | none =>
    right
    refine ⟨?_, rfl, rfl⟩
    have hhead : ∀ b ∈ (l.render ++ rest).head?, b ≠ 45 ∧ b ≠ 43 ∧ b ≠ 35 := by
      intro b hb
      have hdigit : isDigit b = true → b ≠ 45 ∧ b ≠ 43 ∧ b ≠ 35 := by
        intro hd
        refine ⟨?_, ?_, ?_⟩
        all_goals
          rintro rfl
          cases hd
      obtain ⟨fraction, dots⟩ := l
      unfold Length.render at hb
      cases fraction with
      | cons d fraction =>
        cases hb
        have hdigits := hl.digits
        rw [List.all_cons, Bool.and_eq_true] at hdigits
        exact hdigit hdigits.1
      | nil =>
        cases dots with
        | succ dots =>
          cases hb
          decide
        | zero =>
          have hstop := hrest b hb
          refine ⟨?_, ?_, ?_⟩
          all_goals
            rintro rfl
            cases hstop
    rw [Option.toList_none, List.nil_append]
    cases hcase : (l.render ++ rest).head? with
    | none => simp
    | some b =>
      obtain ⟨h45, h43, h35⟩ := hhead b hcase
      have hne : ∀ k : UInt8, b ≠ k → ¬ Option.map UInt8.toNat (some b) = some k.toNat := by
        intro k hk heq
        exact hk (UInt8.toNat_inj.mp (Option.some.inj heq))
      refine ⟨hne 45 h45, ?_⟩
      rintro (heq | heq)
      · exact hne 43 h43 heq
      · exact hne 35 h35 heq

/-- A note or a rest is what it is said to be, and takes its own bytes. -/
theorem note_performs {w : Written} (hw : w.InTable) (hnote : w.isNote = true) (hrest : Stops rest)
    (htext : m.text = w.render ++ rest) (h : m.settings.perform F w = .ok (s, events)) :
    ∃ done, m.note F (Written.head w) = .ok done ∧ Performs m done w.render.length s events := by
  cases w with
  | note letter accidental l =>
    obtain ⟨hletter, ha, hl⟩ := hw
    have htext : m.text = letter :: (accidental.toList ++ (l.render ++ rest)) := by
      rw [htext, Written.render, List.cons_append, List.append_assoc]
    obtain ⟨period, hperiod, h⟩ := bind_eq_ok.mp h
    obtain ⟨length, hlength, h⟩ := bind_eq_ok.mp h
    obtain ⟨sustain, hsustain, h⟩ := bind_eq_ok.mp h
    cases h
    obtain ⟨⟨period, parsed⟩, hparsed, hret⟩ := bind_eq_ok.mp hperiod
    cases hret
    have htone : m.tonePeriod F letter.toNat = .ok (period, m.move accidental.toList.length) := by
      have hne : letter.toNat ≠ 114 := by
        have hle : letter.toNat ≤ 103 := hletter.2
        omega
      unfold tonePeriod
      rw [if_neg hne, getTonePeriod_settings _ (note_accidental ha hl hrest htext), hparsed]
      rfl
    obtain ⟨c, htaken⟩ := text_taken htext
    have hread := noteLength_performs hl hrest htaken hlength
    have hmoved : ((m.move accidental.toList.length).move l.render.length).move 1 =
        m.move (Written.note letter accidental l).render.length := by
      rw [move_move, move_move]
      congr 1
      simp [Written.render]
      omega
    have hsustain : (m.move (Written.note letter accidental l).render.length).sustainOf F period length =
        .ok sustain := hsustain
    refine ⟨(m.move (Written.note letter accidental l).render.length).pushNote period sustain (length - sustain),
      ?_, ?_⟩
    · have hhead : Written.head (.note letter accidental l) = letter.toNat := rfl
      unfold note
      rw [hhead, htone]
      refine Eq.trans (bind_eq_ok.mpr ⟨_, rfl, bind_eq_ok.mpr ⟨_, hread, ?_⟩⟩) rfl
      dsimp only
      rw [hmoved, hsustain]
      rfl
    · rw [pushNote_queue]
      exact ⟨rfl, rfl, rfl, rfl, rfl⟩
  | rest l =>
    obtain ⟨length, hlength, h⟩ := bind_eq_ok.mp h
    cases h
    have hread := noteLength_performs hw hrest htext hlength
    have hmoved : (m.move l.render.length).move 1 = m.move (Written.rest l).render.length := move_move _ _
    refine ⟨(m.move (Written.rest l).render.length).pushNote (-1) 0 (length - 0), ?_, ?_⟩
    · have htone : m.tonePeriod F 114 = .ok (-1, m) := rfl
      have hhead : Written.head (.rest l) = 114 := rfl
      unfold note
      rw [hhead, htone]
      refine Eq.trans (bind_eq_ok.mpr ⟨_, rfl, bind_eq_ok.mpr ⟨_, hread, ?_⟩⟩) rfl
      dsimp only
      rw [hmoved]
      rfl
    · rw [pushNote_queue, Int.sub_zero]
      exact ⟨rfl, rfl, rfl, rfl, rfl⟩
  | _ => cases hnote

/-! ## Passes -/

theorem render_head (w : Written) : ∃ c tail, w.render = c :: tail ∧ Written.head w = c.toNat := by
  cases w <;> exact ⟨_, _, rfl, rfl⟩

theorem head_isNote {w : Written} (hw : w.InTable) :
    ((97 ≤ Written.head w ∧ Written.head w ≤ 103) ∨ Written.head w = 114) ↔ w.isNote = true := by
  cases w with
  | note letter accidental l =>
    have hrange : (97 : Nat) ≤ letter.toNat ∧ letter.toNat ≤ 103 := hw.1
    exact ⟨fun _ => rfl, fun _ => Or.inl hrange⟩
  | rest l => exact ⟨fun _ => rfl, fun _ => Or.inr rfl⟩
  | legato on => cases on <;> decide
  | _ => simp [Written.head, Written.render, Written.isNote]

/-- A command does not go on with the one in front of it. -/
theorem render_stops {w : Written} (hw : w.InTable) (rest : Bytes) : Stops (w.render ++ rest) := by
  intro b hb
  cases w with
  | note letter accidental l =>
    obtain rfl : letter = b := Option.some.inj hb
    have hrange : (97 : Nat) ≤ letter.toNat ∧ letter.toNat ≤ 103 := hw.1
    have hall : ∀ i : Fin 7, continues (UInt8.ofNat (97 + i)) = false := by decide
    have hletter : letter = UInt8.ofNat (97 + (letter.toNat - 97)) := by
      rw [Nat.add_sub_cancel' hrange.1, UInt8.ofNat_toNat]
    rw [hletter]
    exact hall ⟨letter.toNat - 97, by omega⟩
  | legato on =>
    cases hb
    cases on <;> rfl
  | _ =>
    cases hb
    rfl

theorem flatMap_stops {ws : List Written} (hw : ∀ w ∈ ws, w.InTable) : Stops (ws.flatMap Written.render) := by
  cases ws with
  | nil => exact fun b hb => absurd hb (by simp)
  | cons w ws =>
    rw [List.flatMap_cons]
    exact render_stops (hw w List.mem_cons_self) _

theorem Performs.text {m' : Mml} {l : Bytes} (h : Performs m m' l.length s events) (htext : m.text = l ++ rest) :
    m'.text = rest := by
  have hdrop : m'.text = m.text.drop l.length := by
    unfold Mml.text
    rw [h.track, h.cursor, List.drop_drop]
  rw [hdrop, htext, List.drop_left]

/-- A pass takes one command. -/
theorem pass_performs (hone : ∀ x : F, MmlFloat.mul x (MmlFloat.decimal 10 1) = x) {w : Written} (hw : w.InTable)
    (hk : w.Kept) (hrest : Stops rest) (htext : m.text = w.render ++ rest)
    (h : m.settings.perform F w = .ok (s, events)) :
    ∃ m', m.pass F false = .ok (m', w.isNote && !m'.eventQueue.isEmpty) ∧ Performs m m' w.render.length s events := by
  obtain ⟨c, tail, hrender, hhead⟩ := render_head w
  have hbyte : m.getbyte m.cursor = some (Written.head w) := by
    have hfirst := getbyte_text m 0
    rw [Nat.add_zero, htext, hrender] at hfirst
    rw [hfirst, hhead]
    rfl
  unfold pass
  rw [hbyte]
  dsimp only
  cases hnote : w.isNote with
  | true =>
    obtain ⟨done, hdone, hperforms⟩ := note_performs hw hnote hrest htext h
    rw [if_pos ((head_isNote hw).mpr hnote), hdone]
    exact ⟨done, rfl, hperforms⟩
  | false =>
    obtain ⟨done, hdone, hperforms⟩ := command_performs hone hw hk hnote hrest htext h
    have hnot : ¬ ((97 ≤ Written.head w ∧ Written.head w ≤ 103) ∨ Written.head w = 114) := by
      rw [head_isNote hw, hnote]
      exact Bool.false_ne_true
    rw [if_neg hnot, hdone]
    exact ⟨done.move 1, rfl, hperforms⟩

end Commands

/-! ## Calls -/

/-- The parser is at these commands, and so these events are still to come. -/
structure Awaits (F : Type) [MmlFloat F] (m : Mml) (ws : List Written) (events : List Event) : Prop where
  inTable : ∀ w ∈ ws, w.InTable
  kept : ∀ w ∈ ws, w.Kept
  text : m.text = ws.flatMap Written.render
  finished : m.finished = false
  meaning : ∃ own, m.settings.performAll F ws = .ok own ∧ events = m.eventQueue ++ own

section Calls
variable {F : Type} [MmlFloat F] {m : Mml} {ws : List Written} {events : List Event} {fuel : Nat}

theorem Awaits.passes (hone : ∀ x : F, MmlFloat.mul x (MmlFloat.decimal 10 1) = x) (h : Awaits F m ws events)
    (hfuel : ws.length < fuel) : ∃ m', passes F false fuel m = .ok m' ∧ m'.eventQueue ≠ [] ∧
      ((∃ ws', ws'.length < ws.length ∧ Awaits F m' ws' events) ∨ m'.finished = true ∧ m'.eventQueue = events) := by
  induction ws generalizing m fuel with
  | nil =>
    obtain ⟨own, hown, hevents⟩ := h.meaning
    cases hown
    obtain ⟨fuel, rfl⟩ : ∃ k, fuel = k + 1 := ⟨fuel - 1, by omega⟩
    have hbyte : m.getbyte m.cursor = none := by
      have hfirst := getbyte_text m 0
      rw [Nat.add_zero, h.text] at hfirst
      exact hfirst
    have hpass : m.pass F false = .ok ({ m with finished := true }.pushEvent .mute 1 0, true) := by
      unfold pass
      rw [hbyte]
      rfl
    unfold Mml.passes
    rw [hpass]
    exact ⟨_, rfl, List.append_ne_nil_of_right_ne_nil _ (List.cons_ne_nil _ _), Or.inr ⟨rfl, hevents.symm⟩⟩
  | cons w ws ih =>
    obtain ⟨own, hown, hevents⟩ := h.meaning
    obtain ⟨⟨s, es⟩, hperform, hbind⟩ := bind_eq_ok.mp hown
    obtain ⟨rest, hrest, hret⟩ := bind_eq_ok.mp hbind
    cases hret
    have hin := h.inTable
    have hk := h.kept
    have htext := h.text
    rw [List.flatMap_cons] at htext
    have hstops := flatMap_stops fun v hv => hin v (List.mem_cons_of_mem w hv)
    obtain ⟨m', hpass, hperforms⟩ :=
      pass_performs hone (hin w List.mem_cons_self) (hk w List.mem_cons_self) hstops htext hperform
    have hawaits : Awaits F m' ws events := by
      refine ⟨fun v hv => hin v (List.mem_cons_of_mem w hv), fun v hv => hk v (List.mem_cons_of_mem w hv),
        hperforms.text htext, hperforms.finished.trans h.finished, rest, ?_, ?_⟩
      · rw [hperforms.settings]
        exact hrest
      · rw [hevents, hperforms.queue, List.append_assoc]
    obtain ⟨fuel, rfl⟩ : ∃ k, fuel = k + 1 := ⟨fuel - 1, by omega⟩
    unfold Mml.passes
    rw [hpass]
    dsimp only
    cases hstop : w.isNote && !m'.eventQueue.isEmpty with
    | true =>
      rw [Bool.and_eq_true, Bool.not_eq_true', List.isEmpty_eq_false_iff] at hstop
      exact ⟨m', rfl, hstop.2, Or.inl ⟨ws, Nat.lt_succ_self _, hawaits⟩⟩
    | false =>
      rw [List.length_cons] at hfuel
      obtain ⟨n, hn, hqueue, hcase⟩ := ih hawaits (Nat.lt_of_succ_lt_succ hfuel)
      refine ⟨n, hn, hqueue, hcase.imp_left ?_⟩
      rintro ⟨ws', hlt, hws'⟩
      exact ⟨ws', Nat.lt_succ_of_lt hlt, hws'⟩

/-- What waits in the queue is given first. -/
theorem produces_queue (m : Mml) (queue : List Event) {es : List Event}
    (h : Produces (reduceNext F false fuel) { m with eventQueue := [] } es) :
    Produces (reduceNext F false fuel) { m with eventQueue := queue } (queue ++ es) := by
  induction queue with
  | nil => exact h
  | cons e queue ih => exact .more rfl ih

theorem produces_finished (h : m.finished = true) (hqueue : m.eventQueue = []) :
    Produces (reduceNext F false fuel) m [] := by
  apply Produces.done
  unfold reduceNext
  rw [if_neg (not_not.mpr hqueue), if_pos h]
  rfl

/-- The calls give the events that are still to come. -/
theorem Awaits.produces (hone : ∀ x : F, MmlFloat.mul x (MmlFloat.decimal 10 1) = x) (n : Nat) (hn : ws.length < n)
    (hfuel : ws.length < fuel) (h : Awaits F m ws events) : Produces (reduceNext F false fuel) m events := by
  induction n generalizing m ws events with
  | zero => exact absurd hn (Nat.not_lt_zero _)
  | succ n ih =>
    obtain ⟨own, hown, rfl⟩ := h.meaning
    apply produces_queue m m.eventQueue
    have hstart : Awaits F { m with eventQueue := [], modRate := none } ws own :=
      ⟨h.inTable, h.kept, h.text, h.finished, own, hown, rfl⟩
    obtain ⟨m', hpasses, hqueue, hcase⟩ := hstart.passes hone hfuel
    obtain ⟨e, queue, hcons⟩ := List.exists_cons_of_ne_nil hqueue
    have hnot : ¬ m.finished = true := by
      rw [h.finished]
      exact Bool.false_ne_true
    have hcall : reduceNext F false fuel { m with eventQueue := [] } =
        .ok (some (e, { m' with eventQueue := queue })) := by
      unfold reduceNext
      rw [if_neg (not_not.mpr rfl), if_neg hnot, hpasses]
      have hshift : m'.shiftEvent = some (e, { m' with eventQueue := queue }) := by
        unfold shiftEvent
        rw [hcons]
      exact congrArg Except.ok hshift
    rcases hcase with ⟨ws', hlt, hawaits⟩ | ⟨hfinished, hevents⟩
    · obtain ⟨own', hown', heq⟩ := hawaits.meaning
      rw [heq, hcons]
      refine .more hcall ?_
      exact ih (by omega) (by omega)
        ⟨hawaits.inTable, hawaits.kept, hawaits.text, hawaits.finished, own', hown', rfl⟩
    · rw [← hevents, hcons]
      refine .more hcall ?_
      have hdone : Produces (reduceNext F false fuel) { m' with eventQueue := queue } (queue ++ []) :=
        produces_queue m' queue (produces_finished hfinished rfl)
      rwa [List.append_nil] at hdone

end Calls

/-- The events that the README promises for a track. -/
def meaning (F : Type) [MmlFloat F] (ws : List Written) : Except MmlError (List Event) := do
  let s ← Settings.initial F
  s.performAll F ws

theorem length_le_flatMap (ws : List Written) : ws.length ≤ (ws.flatMap Written.render).length := by
  induction ws with
  | nil => exact Nat.le_refl 0
  | cons w ws ih =>
    obtain ⟨c, tail, hrender, -⟩ := render_head w
    rw [List.flatMap_cons, List.length_append, hrender, List.length_cons, List.length_cons]
    omega

theorem new_start {F : Type} [MmlFloat F] (trackId : Nat) (exception : Bool) {track text : Bytes} {commonDuration : Int}
    (hexpand : expandLoops track = .ok text)
    (hrounded : rounded F (MmlFloat.div (MmlFloat.div (durationBase F) (MmlFloat.ofInt 120)) (MmlFloat.ofInt 4)) =
      .ok commonDuration) :
    ∃ m, Mml.new F trackId track exception = .ok m ∧ m.text = downcase text ∧
      m.settings = ⟨4, 120, 8, 0, 0, commonDuration⟩ ∧ m.finished = false ∧ m.eventQueue = [] := by
  refine ⟨_, bind_eq_ok.mpr ⟨text, hexpand, bind_eq_ok.mpr ⟨commonDuration, hrounded, rfl⟩⟩, rfl, rfl, rfl, rfl⟩

end Mml

/-- A track of commands that are kept gives the events that it is said to give. -/
theorem track_performs {F : Type} [MmlFloat F] (hone : ∀ x : F, MmlFloat.mul x (MmlFloat.decimal 10 1) = x)
    (exception : Bool) (trackId : Nat) {track text : Bytes} {ws : List Written} {events : List Event}
    (hexpand : expandLoops track = .ok text) (htext : downcase text = ws.flatMap Written.render)
    (hw : ∀ w ∈ ws, w.InTable) (hmeaning : Mml.meaning F ws = .ok events) (hk : ∀ w ∈ ws, w.Kept) :
    TrackEvents F exception (text.length + 1) trackId track events := by
  obtain ⟨s, hs, hevents⟩ := bind_eq_ok.mp hmeaning
  obtain ⟨commonDuration, hrounded, hret⟩ := bind_eq_ok.mp hs
  cases hret
  have hlength : ws.length < text.length + 1 := by
    have hle := Mml.length_le_flatMap ws
    rw [← htext] at hle
    unfold downcase at hle
    rw [List.length_map] at hle
    omega
  obtain ⟨m, hnew, htext', hsettings, hfinished, hqueue⟩ := Mml.new_start trackId exception hexpand hrounded
  refine ⟨m, hnew, Mml.Awaits.produces hone _ hlength hlength ?_⟩
  refine ⟨hw, hk, htext'.trans htext, hfinished, events, ?_, ?_⟩
  · rw [hsettings]
    exact hevents
  · rw [hqueue]
    rfl

theorem mul_one_decimal (x : Rat) : MmlFloat.mul x (MmlFloat.decimal 10 1) = x := by
  have hdecimal : (MmlFloat.decimal 10 1 : Rat) = 1 := by decide +kernel
  rw [hdecimal]
  exact mul_one x

/-- The track `v5o5a8.`. -/
theorem track_performs_note : TrackEvents Rat true 8 0 [118, 53, 111, 53, 97, 56, 46]
    [⟨.volume, 5, 0⟩, ⟨.play, 71, 375⟩, ⟨.mute, 1, 0⟩] := by
  have hexpand : expandLoops [118, 53, 111, 53, 97, 56, 46] = .ok [118, 53, 111, 53, 97, 56, 46] := rfl
  have hlength : Length.InTable ⟨[56], 1⟩ := ⟨rfl, by simp, by simp⟩
  have hw : ∀ w ∈ [Written.volume [53], .octave 53, .note 97 none ⟨[56], 1⟩], w.InTable := by
    rw [List.forall_mem_cons, List.forall_mem_cons, List.forall_mem_singleton]
    have hfive : IsNumber [53] ∧ number [53] ≤ 15 := ⟨⟨rfl, List.cons_ne_nil _ _⟩, by decide⟩
    have hnote : (97 ≤ (97 : UInt8) ∧ (97 : UInt8) ≤ 103) ∧
        (∀ a ∈ (none : Option UInt8), a = 43 ∨ a = 35 ∨ a = 45) ∧ Length.InTable ⟨[56], 1⟩ :=
      ⟨by decide, nofun, hlength⟩
    exact ⟨hfive, And.intro (by decide) (by decide), hnote⟩
  apply track_performs mul_one_decimal true 0 hexpand rfl hw (by decide +kernel)
  rw [List.forall_mem_cons, List.forall_mem_cons, List.forall_mem_singleton]
  have hfive : number [53] ≠ 0 := by decide
  exact ⟨hfive, trivial, trivial⟩

/-- The track `v0`: a volume of 0 is in its range, and the call raises. -/
theorem silence_raises :
    (∀ w ∈ [Written.volume [48]], w.InTable) ∧ downcase [118, 48] = [Written.volume [48]].flatMap Written.render ∧
      Mml.meaning Rat [Written.volume [48]] = .ok [⟨.volume, 0, 0⟩, ⟨.mute, 1, 0⟩] ∧
      ∀ fuel, ¬ TrackEvents Rat true fuel 0 [118, 48] [⟨.volume, 0, 0⟩, ⟨.mute, 1, 0⟩] := by
  refine ⟨?_, rfl, by decide +kernel, ?_⟩
  · rw [List.forall_mem_singleton]
    exact ⟨⟨rfl, List.cons_ne_nil _ _⟩, by decide⟩
  · rintro fuel ⟨m, hnew, hproduces⟩
    obtain ⟨expanded, hexpanded, hnew⟩ := bind_eq_ok.mp hnew
    cases hexpanded
    obtain ⟨commonDuration, hrounded, hnew⟩ := bind_eq_ok.mp hnew
    cases hnew
    cases hproduces with
    | more hcall _ =>
      cases fuel with
      | zero => cases hcall
      | succ fuel => cases hcall

end PicoRuby.Psg
