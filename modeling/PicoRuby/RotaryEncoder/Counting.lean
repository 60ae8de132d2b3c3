import PicoRuby.Shared.Tour
import PicoRuby.RotaryEncoder.Callback

/-!
# The count of the turns

The four levels of the pins are the places of a cycle, and the shaft walks around it. Between two visits of the
detent, the rotation that is packed in the status is the direction in which the detent has been left, so the
place from which the walk comes back tells a turn from a reversal.
-/

namespace PicoRuby.RotaryEncoder

open Shared

set_option autoImplicit false

/-! ## The walk of the shaft -/

/-- The place of a level on the cycle, clockwise from the detent. -/
def Level.place : Level → Int
  | ⟨true, true⟩ => 0
  | ⟨false, true⟩ => 1
  | ⟨false, false⟩ => 2
  | ⟨true, false⟩ => 3

/-- At most one pin changes. -/
def OnePin (l l' : Level) : Prop := l.a = l'.a ∨ l.b = l'.b

instance (l l' : Level) : Decidable (OnePin l l') := inferInstanceAs (Decidable (_ ∨ _))

/-- A quarter of a turn: 1 clockwise, -1 counterclockwise. -/
def quarter (l l' : Level) : Int :=
  if l'.place = (l.place + 1) % 4 then 1 else if l.place = (l'.place + 1) % 4 then -1 else 0

/-- The level of the pins, and the way of the shaft in quarters of a turn. -/
structure Walk where
  level : Level
  tour : Tour

namespace Walk

def start : Walk := ⟨.detent, Tour.start⟩

def step (w : Walk) (l : Level) : Walk := ⟨l, w.tour.step 4 (quarter w.level l)⟩

end Walk

/-- The signed number of complete turns of a walk from the detent at its last visit there. -/
def turns (levels : List Level) : Int := (levels.foldl Walk.step Walk.start).tour.turns

/-! ## The packed status -/

/-- The direction in which the detent has been left. -/
def rotationAt (offset : Int) : UInt8 := if offset = 0 then 0b00 else if 0 < offset then 0b10 else 0b01

/-- The status and the count belong to the walk. -/
structure Tracks (e : Encoder) (w : Walk) (consumed : Int) : Prop where
  within : w.tour.Within 4
  place : w.level.place = w.tour.offset 4 % 4
  previous : e.previous = w.level.current
  rotation : e.rotation = rotationAt (w.tour.offset 4)
  count : e.rotationCount = Int8.ofInt (w.tour.turns - consumed)

section Status
variable {e : Encoder} {l l' : Level} {w : Walk} {consumed : Int}

theorem quarter_abs (l l' : Level) : |quarter l l'| ≤ 1 := by
  unfold quarter
  split_ifs <;> decide

/-- With one pin at most, a quarter leads from a place to the next one. -/
theorem quarter_place (h : OnePin l l') : l'.place = (l.place + quarter l l') % 4 := by
  obtain ⟨a, b⟩ := l
  obtain ⟨a', b'⟩ := l'
  cases a <;> cases b <;> cases a' <;> cases b' <;> first | decide | exact absurd h (by decide)

theorem current_lt (l : Level) : l.current.toNat < 4 := by
  obtain ⟨a, b⟩ := l
  cases a <;> cases b <;> decide

theorem rotationAt_lt (offset : Int) : (rotationAt offset).toNat < 4 := by
  unfold rotationAt
  split_ifs <;> decide

/-- What is packed is read back. -/
theorem setStatus_packed {r p c : UInt8} (hr : r.toNat < 4) (hp : p.toNat < 4) (hc : c.toNat < 4) :
    (e.setStatus r p c).previous = c ∧ (e.setStatus r p c).rotation = r := by
  have hpacked : ∀ r p c : Fin 4,
      let status := ((UInt8.ofNat r <<< 4) + (UInt8.ofNat p <<< 2) + UInt8.ofNat c).toInt8
      status.toUInt8 &&& 0b00000011 = UInt8.ofNat c ∧
        (status.toUInt8 &&& 0b00110000) >>> 4 = UInt8.ofNat r := by decide
  have hbits := hpacked ⟨_, hr⟩ ⟨_, hp⟩ ⟨_, hc⟩
  simp only [UInt8.ofNat_toNat] at hbits
  exact hbits

/-- The detent is left clockwise or counterclockwise. -/
theorem leaves_detent (hpin : OnePin .detent l) (hne : l ≠ .detent) :
    l.current = 0b10 ∧ quarter .detent l = 1 ∨ l.current = 0b01 ∧ quarter .detent l = -1 := by
  obtain ⟨a, b⟩ := l
  revert hpin hne
  cases a <;> cases b <;> decide

/-- The walk comes back from the third place or from the first one. -/
theorem reaches_detent (hpin : OnePin l .detent) (hne : l ≠ .detent) :
    l.current = 0b01 ∧ l.place = 3 ∧ quarter l .detent = 1 ∨
      l.current = 0b10 ∧ l.place = 1 ∧ quarter l .detent = -1 := by
  obtain ⟨a, b⟩ := l
  revert hpin hne
  cases a <;> cases b <;> decide

theorem current_eq_zero_iff : l.current = 0b00 ↔ l = .detent := by
  obtain ⟨a, b⟩ := l
  cases a <;> cases b <;> decide

theorem place_eq_zero_iff : l.place = 0 ↔ l = .detent := by
  obtain ⟨a, b⟩ := l
  cases a <;> cases b <;> decide

theorem current_inj (h : l.current = l'.current) : l = l' := by
  obtain ⟨a, b⟩ := l
  obtain ⟨a', b'⟩ := l'
  revert h
  cases a <;> cases b <;> cases a' <;> cases b' <;> decide

@[simp] theorem quarter_self (l : Level) : quarter l l = 0 := by
  obtain ⟨a, b⟩ := l
  cases a <;> cases b <;> rfl

theorem rotationAt_pos {offset : Int} (h : 0 < offset) : rotationAt offset = 0b10 := by
  unfold rotationAt
  rw [if_neg (by omega), if_pos h]

theorem rotationAt_neg {offset : Int} (h : offset < 0) : rotationAt offset = 0b01 := by
  unfold rotationAt
  rw [if_neg (by omega), if_neg (by omega)]

theorem rotationAt_eq_zero_iff {offset : Int} : rotationAt offset = 0b00 ↔ offset = 0 := by
  unfold rotationAt
  split_ifs with hzero hpos
  · simp [hzero]
  · simp [hzero]
  · simp [hzero]

end Status

/-! ## Interrupts -/

section Interrupts
variable {e : Encoder} {l : Level} {w : Walk} {consumed : Int}

theorem Tracks.at_detent (h : Tracks e w consumed) : w.level = .detent ↔ w.tour.offset 4 = 0 := by
  have hwithin := abs_lt.mp h.within
  rw [← place_eq_zero_iff, h.place]
  omega

/-- The status that is stored with a new level. -/
theorem Tracks.store (h : Tracks e w consumed) (hpin : OnePin w.level l) {count : Int8}
    {rotation : UInt8} (hrotation : rotation = rotationAt ((w.step l).tour.offset 4))
    (hcount : count = Int8.ofInt ((w.step l).tour.turns - consumed)) :
    Tracks ({ e with rotationCount := count }.setStatus rotation e.previous l.current) (w.step l) consumed := by
  have hlt : rotation.toNat < 4 := by
    rw [hrotation]
    exact rotationAt_lt _
  have hprevious : e.previous.toNat < 4 := by
    rw [h.previous]
    exact current_lt _
  obtain ⟨hlevel, hrotation'⟩ := setStatus_packed (e := { e with rotationCount := count }) hlt hprevious (current_lt l)
  constructor
  · exact Tour.step_within (by decide) h.within (quarter_abs _ _)
  · have hplace := quarter_place hpin
    rw [h.place] at hplace
    change l.place = _
    rcases Tour.step_cases (by decide) h.within (quarter_abs w.level l) with
      ⟨-, -, hoffset⟩ | ⟨hturn, -, hoffset⟩ | ⟨hturn, -, hoffset⟩
    · have hoffset' : (w.step l).tour.offset 4 = w.tour.offset 4 + quarter w.level l := hoffset
      omega
    · have hoffset' : (w.step l).tour.offset 4 = 0 := hoffset
      omega
    · have hoffset' : (w.step l).tour.offset 4 = 0 := hoffset
      omega
  · exact hlevel
  · rw [hrotation', hrotation]
  · exact hcount

theorem Tracks.count_step (h : Tracks e w consumed) {k : Int} (hk : (w.step l).tour.turns = w.tour.turns + k) :
    e.rotationCount + Int8.ofInt k = Int8.ofInt ((w.step l).tour.turns - consumed) := by
  have hsum : w.tour.turns + k - consumed = w.tour.turns - consumed + k := by omega
  rw [h.count, hk, hsum, Int8.ofInt_add]

theorem Tracks.count_same (h : Tracks e w consumed) (hk : (w.step l).tour.turns = w.tour.turns) :
    e.rotationCount = Int8.ofInt ((w.step l).tour.turns - consumed) := by
  rw [h.count, hk]

/-- Within a turn, the walk goes on in the same tour. -/
theorem Tracks.goes_on (h : Tracks e w consumed) (hin : |w.tour.offset 4 + quarter w.level l| < 4) :
    (w.step l).tour.turns = w.tour.turns ∧
      (w.step l).tour.offset 4 = w.tour.offset 4 + quarter w.level l := by
  rw [abs_lt] at hin
  rcases Tour.step_cases (by decide) h.within (quarter_abs w.level l) with
    ⟨-, hturns, hoffset⟩ | ⟨hturn, -, -⟩ | ⟨hturn, -, -⟩
  · exact ⟨hturns, hoffset⟩
  · omega
  · omega

/-- Without a change of the level nothing happens. -/
theorem Tracks.stay (h : Tracks e w consumed) : Tracks e (w.step w.level) consumed := by
  obtain ⟨hturns, hoffset⟩ := h.goes_on (l := w.level) (by rw [quarter_self, add_zero]; exact h.within)
  rw [quarter_self, add_zero] at hoffset
  constructor
  · exact Tour.step_within (by decide) h.within (quarter_abs _ _)
  · rw [hoffset]
    exact h.place
  · exact h.previous
  · rw [hoffset]
    exact h.rotation
  · exact h.count_same hturns

/-- The detent is left: the level tells the direction. -/
theorem Tracks.leave (h : Tracks e w consumed) (hpin : OnePin w.level l) (hne : l ≠ w.level)
    (hdetent : w.level = .detent) : Tracks (e.sample l) (w.step l) consumed := by
  have hoffset := h.at_detent.mp hdetent
  have hzero : e.rotation = 0b00 := by
    rw [h.rotation]
    exact rotationAt_eq_zero_iff.mpr hoffset
  have hchange : l.current ≠ e.previous := fun heq => hne (current_inj (heq.trans h.previous))
  have hout := leaves_detent (hdetent ▸ hpin) (hdetent ▸ hne)
  obtain ⟨hturns, hnext⟩ := h.goes_on (l := l) <| by
    rw [hoffset, zero_add]
    exact (quarter_abs _ _).trans_lt (by decide)
  rw [hoffset, zero_add, hdetent] at hnext
  have hout' : l.current = 0b01 ∨ l.current = 0b10 := by
    rcases hout with ⟨hcurrent, -⟩ | ⟨hcurrent, -⟩
    · exact Or.inr hcurrent
    · exact Or.inl hcurrent
  unfold Encoder.sample
  rw [if_pos hchange, if_pos hzero, if_pos hout']
  apply h.store hpin
  · rw [hnext]
    rcases hout with ⟨hcurrent, hquarter⟩ | ⟨hcurrent, hquarter⟩
    · rw [hcurrent, hquarter]
      rfl
    · rw [hcurrent, hquarter]
      rfl
  · exact h.count_same hturns

/-- The detent is reached: a turn if the walk comes from the other side. -/
theorem Tracks.arrive (h : Tracks e w consumed) (hpin : OnePin w.level .detent) (hne : w.level ≠ .detent) :
    Tracks (e.sample .detent) (w.step .detent) consumed := by
  have hwithin := abs_lt.mp h.within
  have hplace := h.place
  have hprevious := h.previous
  have hturn (k : Int) (hk : w.tour.offset 4 + quarter w.level .detent = 4 * k) :
      (w.step .detent).tour.turns = w.tour.turns + k ∧ (w.step .detent).tour.offset 4 = 0 := by
    have hturns := Tour.step_turns k (by decide) hk
    refine ⟨hturns, ?_⟩
    change (w.tour.step 4 (quarter w.level .detent)).offset 4 = 0
    unfold Tour.offset at hk ⊢
    rw [hturns]
    change w.tour.position + quarter w.level .detent - _ = _
    omega
  have hrotation : e.rotation ≠ 0b00 := by
    rw [h.rotation]
    exact fun heq => hne (h.at_detent.mpr (rotationAt_eq_zero_iff.mp heq))
  have hchange : Level.detent.current ≠ e.previous := by
    rw [hprevious]
    exact fun heq => hne (current_inj heq.symm)
  unfold Encoder.sample
  rw [if_pos hchange, if_neg hrotation, if_pos (current_eq_zero_iff.mpr rfl)]
  have hside := lt_or_gt_of_ne fun heq => hne (h.at_detent.mpr heq)
  rcases reaches_detent hpin hne with ⟨hcurrent, hthird, hquarter⟩ | ⟨hcurrent, hfirst, hquarter⟩
  · rw [hcurrent] at hprevious
    rcases hside with hneg | hpos
    · have hccw := h.rotation.trans (rotationAt_neg hneg)
      obtain ⟨hturns, hoffset⟩ := hturn 0 (by omega)
      rw [if_neg (by simp [hccw]), if_neg (by simp [hprevious])]
      exact h.store hpin (by rw [hoffset]; rfl) (h.count_same (by rw [hturns, add_zero]))
    · have hcw := h.rotation.trans (rotationAt_pos hpos)
      obtain ⟨hturns, hoffset⟩ := hturn 1 (by omega)
      rw [if_pos ⟨hcw, hprevious⟩]
      exact h.store hpin (by rw [hoffset]; rfl) (h.count_step hturns)
  · rw [hcurrent] at hprevious
    rcases hside with hneg | hpos
    · have hccw := h.rotation.trans (rotationAt_neg hneg)
      obtain ⟨hturns, hoffset⟩ := hturn (-1) (by omega)
      rw [if_neg (by simp [hccw]), if_pos ⟨hccw, hprevious⟩, Int8.sub_eq_add_neg]
      exact h.store hpin (by rw [hoffset]; rfl) (h.count_step hturns)
    · have hcw := h.rotation.trans (rotationAt_pos hpos)
      obtain ⟨hturns, hoffset⟩ := hturn 0 (by omega)
      rw [if_neg (by simp [hprevious]), if_neg (by simp [hcw])]
      exact h.store hpin (by rw [hoffset]; rfl) (h.count_same (by rw [hturns, add_zero]))

/-- Away from the detent the direction is kept. -/
theorem Tracks.away (h : Tracks e w consumed) (hpin : OnePin w.level l) (hne : l ≠ w.level)
    (hdetent : w.level ≠ .detent) (hnext : l ≠ .detent) : Tracks (e.sample l) (w.step l) consumed := by
  have hwithin := abs_lt.mp h.within
  have hquarter := abs_le.mp (quarter_abs w.level l)
  have hoffset : w.tour.offset 4 ≠ 0 := fun heq => hdetent (h.at_detent.mpr heq)
  have hrotation : e.rotation ≠ 0b00 := by
    rw [h.rotation]
    exact fun heq => hoffset (rotationAt_eq_zero_iff.mp heq)
  have hchange : l.current ≠ e.previous := fun heq => hne (current_inj (heq.trans h.previous))
  have hplace : (w.tour.offset 4 + quarter w.level l) % 4 ≠ 0 := by
    have hlevel := quarter_place hpin
    rw [h.place] at hlevel
    have hzero : l.place ≠ 0 := fun heq => hnext (place_eq_zero_iff.mp heq)
    omega
  obtain ⟨hturns, hgone⟩ := h.goes_on (l := l) (by rw [abs_lt]; omega)
  unfold Encoder.sample
  rw [if_pos hchange, if_neg hrotation, if_neg (fun heq => hnext (current_eq_zero_iff.mp heq))]
  apply h.store hpin
  · rw [hgone, h.rotation]
    rcases lt_or_gt_of_ne hoffset with hneg | hpos
    · rw [rotationAt_neg hneg, rotationAt_neg (by omega)]
    · rw [rotationAt_pos hpos, rotationAt_pos (by omega)]
  · exact h.count_same hturns

/-- A callback follows the walk. -/
theorem Tracks.sample (h : Tracks e w consumed) (hpin : OnePin w.level l) :
    Tracks (e.sample l) (w.step l) consumed := by
  by_cases hsame : l = w.level
  · subst hsame
    have hkept : e.sample w.level = e := if_neg (not_not.mpr h.previous.symm)
    rw [hkept]
    exact h.stay
  by_cases hdetent : w.level = .detent
  · exact h.leave hpin hsame hdetent
  by_cases hnext : l = .detent
  · subst hnext
    exact h.arrive hpin hdetent
  · exact h.away hpin hsame hdetent hnext

end Interrupts

/-! ## Runs -/

section Runs
variable {e : Encoder} {w : Walk} {consumed : Int} {s : Session} {i : Fin maxEncoderCount}

/-- What is consumed is not pending any more. -/
theorem consume_tracks (h : Tracks (s.encoders.encoder i) w (s.consumed i)) (number : Fin maxEncoderCount) :
    Tracks ((s.step (.consume number)).encoders.encoder i) w ((s.step (.consume number)).consumed i) := by
  have hencoder : (s.step (.consume number)).encoders.encoder i = _ :=
    Encoders.consumeEncoder_encoder s.encoders number i
  have hconsumed : (s.step (.consume number)).consumed i =
      if i = number then s.consumed i + (s.encoders.consumeEncoder number).1 else s.consumed i := rfl
  by_cases hi : i = number
  · rw [if_pos hi] at hencoder hconsumed
    rw [hencoder, hconsumed]
    refine ⟨h.within, h.place, h.previous, h.rotation, ?_⟩
    have hsum (k : Int) : w.tour.turns - (s.consumed i + k) = w.tour.turns - s.consumed i - k := by omega
    rw [hsum]
    dsimp only
    rw [h.count]
    exact (Int8.ofInt_sub _ _).symm
  · rw [if_neg hi] at hencoder hconsumed
    rw [hencoder, hconsumed]
    exact h

theorem run_tracks {events : List Event} (h : Tracks (s.encoders.encoder i) w (s.consumed i))
    (hwalk : (w.level :: s.encoders.samples i events).IsChain OnePin) :
    Tracks ((s.run events).encoders.encoder i) ((s.encoders.samples i events).foldl Walk.step w)
      ((s.run events).consumed i) := by
  induction events generalizing s w with
  | nil => exact h
  | cons event events ih =>
    cases event with
    | consume number =>
      have hpins := Encoders.consumeEncoder_samePins (s := s.encoders) number
      have hsamples : (s.step (.consume number)).encoders.samples i events = s.encoders.samples i events :=
        hpins.samples_eq events
      have hrest := ih (consume_tracks h number) (hsamples ▸ hwalk)
      rw [hsamples] at hrest
      exact hrest
    | callback gpio gpioGet =>
      have hsamples : (s.step (.callback gpio gpioGet)).encoders.samples i events =
          s.encoders.samples i events := Encoders.callback_samePins.samples_eq events
      have hencoder : (s.step (.callback gpio gpioGet)).encoders.encoder i = _ :=
        Encoders.callback_encoder s.encoders gpio gpioGet i
      by_cases hsampled : s.encoders.Samples i gpio
      · rw [Encoders.samples_callback hsampled] at hwalk ⊢
        rw [if_pos hsampled] at hencoder
        rw [List.isChain_cons_cons] at hwalk
        have hnext := h.sample hwalk.1
        rw [← hencoder] at hnext
        have hrest := ih hnext (hsamples ▸ hwalk.2)
        rw [hsamples] at hrest
        exact hrest
      · rw [Encoders.samples_skip hsampled] at hwalk ⊢
        rw [if_neg hsampled] at hencoder
        have hnext := h
        rw [← hencoder] at hnext
        have hrest := ih hnext (hsamples ▸ hwalk)
        rw [hsamples] at hrest
        exact hrest

end Runs

/-- As `init_encoder` leaves it, at the detent. -/
structure Encoder.Started (e : Encoder) : Prop where
  status : e.status = 0
  rotationCount : e.rotationCount = 0

theorem Encoder.Started.tracks {e : Encoder} (h : e.Started) : Tracks e Walk.start 0 where
  within := Tour.start_within (by decide)
  place := by decide
  previous := by
    unfold Encoder.previous
    rw [h.status]
    decide
  rotation := by
    unfold Encoder.rotation
    rw [h.status]
    decide
  count := h.rotationCount

theorem reset_started (i : Fin maxEncoderCount) : (Encoders.reset.encoder i).Started := ⟨rfl, rfl⟩

theorem initEncoder_started {s t : Encoders} {pinA pinB : UInt8} {number : Nat}
    (h : ∀ i, (s.encoder i).Started) (hinit : s.initEncoder pinA pinB = some (t, number))
    (i : Fin maxEncoderCount) : (t.encoder i).Started := by
  unfold Encoders.initEncoder at hinit
  split at hinit
  · rename_i hlt
    cases hinit
    by_cases hi : i = ⟨s.encoderCount, hlt⟩
    · subst hi
      change ((s.set ⟨s.encoderCount, hlt⟩ _).encoder ⟨s.encoderCount, hlt⟩).Started
      rw [Encoders.set_same]
      exact ⟨(h _).status, (h _).rotationCount⟩
    · change ((s.set ⟨s.encoderCount, hlt⟩ _).encoder i).Started
      rw [Encoders.set_other _ hi]
      exact h i
  · cases hinit

/-- **No turn is lost or made up.** From the detent on, whatever the interrupts of any pins sample for an
encoder with at most one pin changed at a time, and whatever is consumed in between, what is pending and what
has been consumed are together the turns of the walk, as long as an `int8_t` holds what is pending. -/
theorem turns_counted (s : Encoders) (i : Fin maxEncoderCount) (hstart : (s.encoder i).Started)
    (events : List Event) (hwalk : (Level.detent :: s.samples i events).IsChain OnePin)
    (hlow : -128 ≤ turns (s.samples i events) - (Session.run ⟨s, fun _ => 0⟩ events).consumed i)
    (hhigh : turns (s.samples i events) - (Session.run ⟨s, fun _ => 0⟩ events).consumed i ≤ 127) :
    ((Session.run ⟨s, fun _ => 0⟩ events).encoders.encoder i).rotationCount.toInt +
      (Session.run ⟨s, fun _ => 0⟩ events).consumed i = turns (s.samples i events) := by
  have htracks := run_tracks (s := ⟨s, fun _ => 0⟩) hstart.tracks hwalk
  have hcount : ((Session.run ⟨s, fun _ => 0⟩ events).encoders.encoder i).rotationCount.toInt =
      turns (s.samples i events) - (Session.run ⟨s, fun _ => 0⟩ events).consumed i := by
    rw [htracks.count]
    exact Int8.toInt_ofInt_of_le hlow (Int.lt_add_one_of_le hhigh)
  omega

/-- An encoder on the pins 2 and 3. -/
def oneEncoder : Encoders := ((Encoders.reset.initEncoder 2 3).map Prod.fst).getD Encoders.reset

/-- A clockwise turn with a bounce, the turn consumed, and half a turn on. -/
def clockwiseEvents : List Event :=
  [.callback 2 fun _ => ⟨false, true⟩, .callback 2 fun _ => ⟨true, true⟩, .callback 2 fun _ => ⟨false, true⟩,
    .callback 3 fun _ => ⟨false, false⟩, .callback 2 fun _ => ⟨true, false⟩, .callback 3 fun _ => ⟨true, true⟩,
    .consume 0, .callback 2 fun _ => ⟨false, true⟩, .callback 3 fun _ => ⟨false, false⟩]

theorem turns_counted_clockwise :
    ((Session.run ⟨oneEncoder, fun _ => 0⟩ clockwiseEvents).encoders.encoder 0).rotationCount.toInt +
      (Session.run ⟨oneEncoder, fun _ => 0⟩ clockwiseEvents).consumed 0 = 1 := by
  have hstart : (oneEncoder.encoder 0).Started := initEncoder_started reset_started rfl 0
  exact turns_counted oneEncoder 0 hstart clockwiseEvents (by decide) (by decide +kernel) (by decide +kernel)

end PicoRuby.RotaryEncoder
