import PicoRuby.Psg.Commands
import Mathlib.Tactic.Linarith
import Mathlib.Tactic.NormNum
import Mathlib.Tactic.Positivity

/-!
# Note lengths

A length stands behind a note, or `l` gives it to the notes that have none. Dots make it longer. The arithmetic is
exact.
-/

namespace PicoRuby.Psg

open Shared

set_option autoImplicit false

/-! ## Milliseconds -/

/-- What so many dots multiply a length by. -/
def dotted (dots : Nat) : ℚ := 2 - (1 / 2) ^ dots

def noteMillis (tempo n dots : Nat) : Int := round ((240000 : ℚ) / tempo / n * dotted dots)

/-- The dots of `l` are with the fraction. -/
def defaultMillis (tempo n dots : Nat) : Int := round ((240000 : ℚ) / tempo / (n * dotted dots))

theorem round_eq_iff {x : ℚ} {n : Int} : round x = n ↔ (n : ℚ) - 1 / 2 ≤ x ∧ x < n + 1 / 2 := by
  rw [round_eq, Int.floor_eq_iff]
  constructor
  · rintro ⟨hle, hlt⟩
    exact ⟨by linarith, by linarith⟩
  · rintro ⟨hle, hlt⟩
    exact ⟨by linarith, by linarith⟩

theorem round_nonneg {x : ℚ} (hx : 0 ≤ x) : 0 ≤ round x := by
  rw [round_eq]
  exact Int.floor_nonneg.mpr (by linarith)

theorem dotted_mono {j k : Nat} (h : j ≤ k) : dotted j ≤ dotted k := by
  have hpow : (1 / 2 : ℚ) ^ k ≤ (1 / 2) ^ j := pow_le_pow_of_le_one (by norm_num) (by norm_num) h
  unfold dotted
  linarith

@[simp] theorem dotted_zero : dotted 0 = 1 := by norm_num [dotted]

@[simp] theorem dotted_one : dotted 1 = 3 / 2 := by norm_num [dotted]

@[simp] theorem dotted_two : dotted 2 = 7 / 4 := by norm_num [dotted]

@[simp] theorem dotted_three : dotted 3 = 15 / 8 := by norm_num [dotted]

theorem dotted_pos (dots : Nat) : 0 < dotted dots :=
  lt_of_lt_of_le one_pos (dotted_zero ▸ dotted_mono (Nat.zero_le dots))

/-- Multiplied and divided by a factor from 3/2 on, a positive number rounds to the same only below 2. -/
theorem round_factor {x c : ℚ} (hx : 0 < x) (hc : 3 / 2 ≤ c) :
    round (x / c) = round (x * c) ↔ x * c < 1 / 2 ∨ c / 2 ≤ x ∧ x * c < 3 / 2 := by
  have hpos : 0 < c := by linarith
  have hquot : 0 < x / c := div_pos hx hpos
  have hprod : 0 < x * c := mul_pos hx hpos
  have hless : x / c ≤ x * c := by
    have hone : 1 ≤ c := by linarith
    exact (div_le_self hx.le hone).trans (le_mul_of_one_le_right hx.le hone)
  constructor
  · intro heq
    obtain ⟨hle, -⟩ := round_eq_iff.mp heq
    obtain ⟨-, hlt⟩ := round_eq_iff.mp (rfl : round (x * c) = round (x * c))
    generalize round (x * c) = n at hle hlt
    rw [le_div_iff₀ hpos] at hle
    have hlow : -1 < n := by
      have hcast : (-1 : ℚ) < n := by linarith
      exact_mod_cast hcast
    have hhigh : n < 2 := by
      by_contra hge
      have hcast : (2 : ℚ) ≤ n := by exact_mod_cast not_lt.mp hge
      have hmul : ((n : ℚ) - 1 / 2) * c * c ≤ x * c := mul_le_mul_of_nonneg_right hle hpos.le
      have hsquare : 9 / 4 ≤ c * c := by nlinarith only [hc]
      have hscale : ((n : ℚ) - 1 / 2) * (9 / 4) ≤ ((n : ℚ) - 1 / 2) * (c * c) :=
        mul_le_mul_of_nonneg_left hsquare (by linarith)
      rw [← mul_assoc] at hscale
      linarith
    obtain rfl | rfl : n = 0 ∨ n = 1 := by omega
    · left
      push_cast at hlt
      linarith
    · right
      push_cast at hle hlt
      exact ⟨by linarith, by linarith⟩
  · rintro (hlt | ⟨hle, hlt⟩)
    · have hzero : round (x * c) = 0 := round_eq_iff.mpr ⟨by push_cast; linarith, by push_cast; linarith⟩
      rw [hzero]
      exact round_eq_iff.mpr ⟨by push_cast; linarith, by push_cast; linarith⟩
    · have hone : round (x * c) = 1 := by
        refine round_eq_iff.mpr ⟨?_, by push_cast; linarith⟩
        push_cast
        nlinarith only [hle, hc]
      rw [hone]
      refine round_eq_iff.mpr ⟨?_, by push_cast; linarith⟩
      rw [le_div_iff₀ hpos]
      push_cast
      linarith

/-- Where the two paths of a dotted length meet. -/
theorem millis_agree {tempo n dots : Nat} (htempo : 0 < tempo) (hn : 0 < n) :
    defaultMillis tempo n dots = noteMillis tempo n dots ↔ dots = 0 ∨ 480000 * dotted dots < tempo * n ∨
      dots = 1 ∧ 240000 < tempo * n ∧ tempo * n ≤ 320000 := by
  have htempo' : (0 : ℚ) < tempo := by exact_mod_cast htempo
  have hn' : (0 : ℚ) < n := by exact_mod_cast hn
  have hwhole : (0 : ℚ) < tempo * n := mul_pos htempo' hn'
  unfold defaultMillis noteMillis
  rw [← div_div, div_div 240000 (tempo : ℚ)]
  by_cases hdots : dots = 0
  · subst hdots
    simp
  · have hx : (0 : ℚ) < 240000 / (tempo * n) := by positivity
    have hge : 3 / 2 ≤ dotted dots := dotted_one ▸ dotted_mono (Nat.one_le_iff_ne_zero.mpr hdots)
    rw [round_factor hx hge]
    have hzero : 240000 / ((tempo : ℚ) * n) * dotted dots < 1 / 2 ↔ 480000 * dotted dots < tempo * n := by
      rw [div_mul_eq_mul_div, div_lt_iff₀ hwhole]
      constructor
      · intro hlt
        linarith
      · intro hlt
        linarith
    have hle : dotted dots / 2 ≤ 240000 / ((tempo : ℚ) * n) ↔ dotted dots * (tempo * n) ≤ 480000 := by
      rw [le_div_iff₀ hwhole]
      constructor
      · intro hle
        linarith
      · intro hle
        linarith
    have hlt : 240000 / ((tempo : ℚ) * n) * dotted dots < 3 / 2 ↔ 160000 * dotted dots < tempo * n := by
      rw [div_mul_eq_mul_div, div_lt_iff₀ hwhole]
      constructor
      · intro hlt
        linarith
      · intro hlt
        linarith
    rw [hzero, hle, hlt, or_iff_right hdots]
    apply or_congr_right
    constructor
    · rintro ⟨hle, hlt⟩
      have hone : dots = 1 := by
        by_contra hne
        have htwo : 7 / 4 ≤ dotted dots := dotted_two ▸ dotted_mono (by omega)
        have hmul : dotted dots * (160000 * dotted dots) < dotted dots * (tempo * n) :=
          mul_lt_mul_of_pos_left hlt (by linarith)
        nlinarith only [hle, htwo, hmul]
      subst hone
      rw [dotted_one] at hle hlt
      have hlt' : (240000 : ℚ) < tempo * n := by linarith
      have hle' : (tempo : ℚ) * n ≤ 320000 := by linarith
      exact ⟨rfl, by exact_mod_cast hlt', by exact_mod_cast hle'⟩
    · rintro ⟨rfl, hlt, hle⟩
      have hlt' : (240000 : ℚ) < tempo * n := by exact_mod_cast hlt
      have hle' : (tempo : ℚ) * n ≤ 320000 := by exact_mod_cast hle
      rw [dotted_one]
      exact ⟨by linarith, by linarith⟩

/-! ## Exact arithmetic -/

namespace Mml

theorem rounded_rat {x : ℚ} (hx : 0 ≤ x) : rounded Rat x = .ok (round x) := by
  have hhalf : MmlFloat.add x (MmlFloat.decimal 5 1) = x + 1 / 2 := by
    have hdecimal : (MmlFloat.decimal 5 1 : Rat) = 1 / 2 := by decide +kernel
    rw [hdecimal]
    rfl
  have htoI : MmlFloat.toI (x + 1 / 2) = some (round x) := by
    have hnonneg : 0 ≤ x + 1 / 2 := by linarith
    rw [round_eq]
    exact congrArg some (if_pos hnonneg)
  unfold rounded
  rw [hhalf, htoI]
  rfl

theorem coefTable_rat {dots : Nat} (hdots : dots ≤ 3) : coefTable Rat dots = dotted dots := by
  obtain rfl | rfl | rfl | rfl : dots = 0 ∨ dots = 1 ∨ dots = 2 ∨ dots = 3 := by omega
  · rw [dotted_zero]
    decide +kernel
  · rw [dotted_one]
    decide +kernel
  · rw [dotted_two]
    decide +kernel
  · rw [dotted_three]
    decide +kernel

theorem period_rat (s : Settings) (letter : UInt8) (accidental : Option UInt8) :
    ∃ period, s.period Rat letter accidental = .ok period := by
  unfold Settings.period getTonePeriod
  dsimp only
  split
  · exact ⟨_, rfl⟩
  · rename_i hnone
    cases hnone

/-- A gate time of at most 8 keeps the part that sounds within the length. -/
theorem sustainOf_rat {m : Mml} {period length : Int} (hpos : 0 ≤ m.q) (hle : m.q ≤ 8) (hlength : 0 ≤ length) :
    ∃ sustain, m.sustainOf Rat period length = .ok sustain ∧ 0 ≤ sustain ∧ sustain ≤ length := by
  unfold sustainOf
  split
  · exact ⟨0, rfl, Int.le_refl 0, hlength⟩
  · split
    · exact ⟨length, rfl, hlength, Int.le_refl length⟩
    · have height : (MmlFloat.decimal 80 1 : Rat) = 8 := by decide +kernel
      have hpos' : (0 : ℚ) ≤ m.q := by exact_mod_cast hpos
      have hle' : (m.q : ℚ) ≤ 8 := by exact_mod_cast hle
      have hlength' : (0 : ℚ) ≤ length := by exact_mod_cast hlength
      have hvalue : MmlFloat.mul (MmlFloat.div (MmlFloat.ofInt length) (MmlFloat.decimal 80 1))
          (MmlFloat.ofInt m.q) = (length : ℚ) / 8 * m.q := by
        rw [height]
        rfl
      have hnonneg : 0 ≤ (length : ℚ) / 8 * m.q := by positivity
      have htoI : MmlFloat.toI ((length : ℚ) / 8 * m.q) = some ⌊(length : ℚ) / 8 * m.q⌋ :=
        congrArg some (if_pos hnonneg)
      rw [hvalue, htoI]
      refine ⟨_, rfl, Int.floor_nonneg.mpr hnonneg, ?_⟩
      have hfloor := Int.floor_le ((length : ℚ) / 8 * m.q)
      have hwhole : (length : ℚ) / 8 * m.q ≤ length := by
        have hmul := mul_le_mul_of_nonneg_left hle' hlength'
        linarith
      exact_mod_cast hfloor.trans hwhole

/-! ## How long a note lasts -/

/-- What is pushed lasts so long. -/
def Lasts (m m' : Mml) (millis : Int) : Prop :=
  ∃ events, m'.eventQueue = m.eventQueue ++ events ∧ (events.map eventDuration).sum = millis

/-- A note of this length lasts so many milliseconds, whatever the gate time. -/
def NoteLasts (m : Mml) (l : Length) (millis : Int) : Prop :=
  ∀ letter accidental rest, (Written.note letter accidental l).InTable → Stops rest →
    m.text = (Written.note letter accidental l).render ++ rest → 0 ≤ m.q → m.q ≤ 8 →
      ∃ m' stop, m.pass Rat false = .ok (m', stop) ∧ m.Lasts m' millis

section Lengths
variable {m m' : Mml} {l : Length} {n : Bytes} {dots : Nat} {millis : Int}

theorem noteEvents_duration {period sustain release : Int} (hsustain : 0 ≤ sustain) (hrelease : 0 ≤ release) :
    ((noteEvents period sustain release).map eventDuration).sum = sustain + release := by
  unfold noteEvents
  rcases hsustain.eq_or_lt with rfl | hsustain
  · rcases hrelease.eq_or_lt with rfl | hrelease
    · simp
    · simp [hrelease, eventDuration]
  · rcases hrelease.eq_or_lt with rfl | hrelease
    · simp [hsustain, eventDuration]
    · simp [hsustain, hrelease, eventDuration]

/-- The part of a note that sounds and its release add up. -/
theorem noteLasts_of_lasting (hlasting : m.settings.lasting Rat l = .ok millis) (hmillis : 0 ≤ millis) :
    m.NoteLasts l millis := by
  intro letter accidental rest hw hrest htext hpos hle
  obtain ⟨period, hperiod⟩ := period_rat m.settings letter accidental
  have hgate : ∃ sustain, m.settings.parser.sustainOf Rat period millis = .ok sustain ∧ 0 ≤ sustain ∧ sustain ≤ millis :=
    sustainOf_rat hpos hle hmillis
  obtain ⟨sustain, hsustain, hnonneg, hwithin⟩ := hgate
  have hperform : m.settings.perform Rat (.note letter accidental l) =
      .ok (m.settings, noteEvents period sustain (millis - sustain)) :=
    bind_eq_ok.mpr ⟨period, hperiod, bind_eq_ok.mpr ⟨millis, hlasting, bind_eq_ok.mpr ⟨sustain, hsustain, rfl⟩⟩⟩
  obtain ⟨m', hpass, hperforms⟩ := pass_performs mul_one_decimal hw trivial hrest htext hperform
  refine ⟨m', _, hpass, _, hperforms.queue, ?_⟩
  rw [noteEvents_duration hnonneg (by omega)]
  omega

theorem default_noteLasts (h : 0 ≤ m.commonDuration) : m.NoteLasts ⟨[], 0⟩ m.commonDuration :=
  noteLasts_of_lasting rfl h

theorem base_rat : durationBase Rat = 240000 := by
  decide +kernel

theorem explicit_noteLasts (hne : n ≠ []) (hdots : dots ≤ 3) :
    m.NoteLasts ⟨n, dots⟩ (noteMillis m.tempo (number n) dots) := by
  apply noteLasts_of_lasting
  · have hmillis : m.settings.lasting Rat ⟨n, dots⟩ =
        rounded Rat ((durationBase Rat) / m.tempo / number n * coefTable Rat dots) := if_pos hne
    rw [hmillis, base_rat, coefTable_rat hdots]
    have hdotted := dotted_pos dots
    exact rounded_rat (by positivity)
  · have hdotted := dotted_pos dots
    exact round_nonneg (by positivity)

/-- The pass of an `l`. -/
theorem length_pass {rest : Bytes} (hn : IsNumber n) (hpos : 0 < number n) (hdots : dots ≤ 3) (hrest : Stops rest)
    (htext : m.text = (Written.length n dots).render ++ rest) : ∃ m', m.pass Rat false = .ok (m', false) ∧
      m'.commonDuration = defaultMillis m.tempo (number n) dots := by
  have hrender : (Written.length n dots).render ++ rest = 108 :: (n ++ (List.replicate dots 46 ++ rest)) := by
    rw [Written.render, List.cons_append, List.append_assoc]
  rw [hrender] at htext
  have hreads : m.command Rat 108 = _ := length_reads hn hpos hrest htext
  have hrounded : rounded Rat ((durationBase Rat) / (m.tempo : ℚ) / (number n * coefTable Rat dots)) =
      .ok (defaultMillis m.tempo (number n) dots) := by
    have hdotted := dotted_pos dots
    rw [base_rat, coefTable_rat hdots]
    exact rounded_rat (by positivity)
  have hbyte : m.getbyte m.cursor = some 108 := by
    have hfirst := getbyte_text m 0
    rw [Nat.add_zero, htext] at hfirst
    exact hfirst
  have hupdate : (m.move (n.length + dots)).updateCommonDuration Rat
      (MmlFloat.mul (MmlFloat.ofInt (number n)) (coefTable Rat dots)) =
      .ok { m.move (n.length + dots) with commonDuration := defaultMillis m.tempo (number n) dots } :=
    bind_eq_ok.mpr ⟨_, hrounded, rfl⟩
  unfold pass
  rw [hbyte]
  dsimp only
  rw [if_neg (by omega), hreads, hupdate]
  exact ⟨_, rfl, rfl⟩

/-- Events that are pushed last one time. -/
theorem NoteLasts.unique {rest : Bytes} {letter : UInt8} {accidental : Option UInt8} {millis' : Int}
    (h : m.NoteLasts l millis) (h' : m.NoteLasts l millis') (hw : (Written.note letter accidental l).InTable)
    (hrest : Stops rest) (htext : m.text = (Written.note letter accidental l).render ++ rest) (hpos : 0 ≤ m.q)
    (hle : m.q ≤ 8) : millis = millis' := by
  obtain ⟨next, stop, hpass, events, hqueue, hsum⟩ := h letter accidental rest hw hrest htext hpos hle
  obtain ⟨next', stop', hpass', events', hqueue', hsum'⟩ := h' letter accidental rest hw hrest htext hpos hle
  rw [hpass] at hpass'
  cases hpass'
  rw [hqueue] at hqueue'
  rw [← hsum, ← hsum', List.append_cancel_left hqueue']

end Lengths
end Mml

/-! ## The two paths -/

/-- With this tempo, a note without a length behind this `l`, and one with the length itself. -/
structure LengthsAgree (tempo : Nat) (n : Bytes) (dots : Nat) : Prop where
  default (m : Mml) (rest : Bytes) : m.tempo = tempo → m.text = (Written.length n dots).render ++ rest →
    Mml.Stops rest → ∃ m', m.pass Rat false = .ok (m', false) ∧
      ∀ later : Mml, later.commonDuration = m'.commonDuration →
        later.NoteLasts ⟨[], 0⟩ (noteMillis tempo (number n) dots)
  own (m : Mml) : m.tempo = tempo → m.NoteLasts ⟨n, dots⟩ (noteMillis tempo (number n) dots)

section Agree
variable {tempo : Nat} {n : Bytes} {dots : Nat}

theorem number_of_leading (hn : IsNumber n) (hleading : ∀ b ∈ n.head?, b ≠ 48) : 0 < number n := by
  obtain ⟨hdigits, hne⟩ := hn
  cases n with
  | nil => exact absurd rfl hne
  | cons b n =>
    rw [List.all_cons, Bool.and_eq_true] at hdigits
    exact Mml.number_pos hdigits.1 (hleading b rfl) n

theorem defaultMillis_nonneg (tempo n dots : Nat) : 0 ≤ defaultMillis tempo n dots := by
  have hdotted := dotted_pos dots
  exact round_nonneg (by positivity)

/-- The milliseconds that `l` keeps are those that a note behind it lasts. -/
theorem LengthsAgree.millis (h : LengthsAgree tempo n dots) (hn : IsNumber n) (hpos : 0 < number n)
    (hdots : dots ≤ 3) : defaultMillis tempo (number n) dots = noteMillis tempo (number n) dots := by
  have hstops : Mml.Stops [] := fun b hb => absurd hb (by simp)
  have hnote : (Written.note 97 none ⟨[], 0⟩).InTable := ⟨by decide, nofun, rfl, nofun, Nat.zero_le 3⟩
  let m : Mml := { (Settings.parser ⟨4, tempo, 8, 0, 0, 0⟩) with track := (Written.length n dots).render ++ [] }
  obtain ⟨m', hpass, hlater⟩ := h.default m [] rfl rfl hstops
  obtain ⟨own, hown, hduration⟩ := Mml.length_pass (m := m) hn hpos hdots hstops rfl
  rw [hown] at hpass
  cases hpass
  -- the parser at a note of its own that has no length
  let later : Mml := { m' with track := [97], cursor := 0, q := 8 }
  have hkept : later.NoteLasts ⟨[], 0⟩ (defaultMillis tempo (number n) dots) := by
    have hnonneg : 0 ≤ later.commonDuration := by
      have hlasts : later.commonDuration = defaultMillis tempo (number n) dots := hduration
      rw [hlasts]
      exact defaultMillis_nonneg _ _ _
    exact hduration ▸ Mml.default_noteLasts hnonneg
  exact hkept.unique (hlater later rfl) hnote hstops rfl (by simp [later]) (by simp [later])

/-- The two last as long where the two roundings meet. -/
theorem lengthsAgree_iff (htempo : 0 < tempo) (hn : IsNumber n) (hleading : ∀ b ∈ n.head?, b ≠ 48) (hdots : dots ≤ 3) :
    LengthsAgree tempo n dots ↔ dots = 0 ∨ 480000 * dotted dots < tempo * number n ∨
      dots = 1 ∧ 240000 < tempo * number n ∧ tempo * number n ≤ 320000 := by
  have hpos := number_of_leading hn hleading
  rw [← millis_agree htempo hpos]
  constructor
  · intro h
    exact h.millis hn hpos hdots
  · intro heq
    refine ⟨?_, ?_⟩
    · rintro m rest rfl htext hrest
      obtain ⟨m', hpass, hduration⟩ := Mml.length_pass hn hpos hdots hrest htext
      refine ⟨m', hpass, ?_⟩
      intro later hlater
      rw [hduration] at hlater
      rw [← heq, ← hlater]
      apply Mml.default_noteLasts
      rw [hlater]
      exact defaultMillis_nonneg _ _ _
    · rintro m rfl
      exact Mml.explicit_noteLasts hn.ne_nil hdots

/-- At 120 beats per minute, a note behind `l4` lasts as long as one with the length 4. -/
theorem lengthsAgree_quarter : LengthsAgree 120 [52] 0 ↔ (0 = 0 ∨ 480000 * dotted 0 < (120 : Nat) * number [52] ∨
    0 = 1 ∧ 240000 < 120 * number [52] ∧ 120 * number [52] ≤ 320000) :=
  lengthsAgree_iff (by decide) ⟨rfl, List.cons_ne_nil _ _⟩ (by simp) (by decide)

/-- At 120 beats per minute, `l4.c` lasts 333 ms and `c4.` 750 ms. -/
theorem dotted_quarter_disagrees : ¬ LengthsAgree 120 [52] 1 := by
  intro h
  have heq := h.millis ⟨rfl, List.cons_ne_nil _ _⟩ (by decide) (by decide)
  revert heq
  decide +kernel

end Agree

end PicoRuby.Psg
