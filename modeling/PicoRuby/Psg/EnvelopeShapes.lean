import PicoRuby.Psg.DriverCalls
import Mathlib.Logic.Function.Iterate

/-!
# The shapes of the envelope

The waveform table of psg.h, what `update_envelope` plays for the same flags, and what a track that uses
the envelope goes through after a reset.
-/

namespace PicoRuby.Psg

open Shared PsgState

set_option autoImplicit false

/-! ## The table -/

/-- What follows the first ramp. -/
inductive AfterRamp where
  | low
  | high
  | sawtooth
  | triangle
deriving DecidableEq, Repr

structure Waveform where
  rises : Bool
  after : AfterRamp
deriving DecidableEq, Repr

/-- The rows of the table in psg.h. -/
def drawnWaveform (shape : UInt8) : Waveform :=
  match shape.toNat with
  | 0 | 1 | 2 | 3 => ⟨false, .low⟩
  | 4 | 5 | 6 | 7 => ⟨true, .low⟩
  | 8 => ⟨false, .sawtooth⟩
  | 9 => ⟨false, .low⟩
  | 10 => ⟨false, .triangle⟩
  | 11 => ⟨false, .high⟩
  | 12 => ⟨true, .sawtooth⟩
  | 13 => ⟨true, .high⟩
  | 14 => ⟨true, .triangle⟩
  | _ => ⟨true, .low⟩

def rampLevel (rises : Bool) (i : Nat) : Nat := if rises then i else 15 - i

/-- The level after some steps. -/
def Waveform.level (w : Waveform) (step : Nat) : Nat :=
  if step < 16 then rampLevel w.rises step
  else match w.after with
    | .low => 0
    | .high => 15
    | .sawtooth => rampLevel w.rises (step % 16)
    | .triangle => rampLevel (w.rises ^^ decide (step / 16 % 2 = 1)) (step % 16)

/-! ## What the flags play -/

namespace Envelope

/-- The envelope stops at the end of the first ramp. -/
def stops (e : Envelope) : Bool := e.cont = 0 ∨ e.hold ≠ 0

/-- An envelope that stops keeps the level it has. -/
def waveform (e : Envelope) : Waveform where
  rises := e.attack ≠ 0
  after :=
    if e.stops then (if e.attack ≠ 0 then .high else .low)
    else if e.alternate ≠ 0 then .triangle else .sawtooth

/-- A step, which comes with every `envelope_period`-th sample. -/
def step (e : Envelope) : Envelope := if e.running then ({ e with cnt := 0 }.advance).1 else e

/-- The envelope at a place of a ramp. -/
def onRamp (e : Envelope) (dir : UInt8) (i : Nat) : Envelope :=
  { e with dir, level := UInt8.ofNat (rampLevel (dir ≠ 0) i), running := true, cnt := 0 }

/-- The direction of the ramp that follows one in the direction `dir`. -/
def nextDir (e : Envelope) (dir : UInt8) : UInt8 := if e.alternate ≠ 0 then dir ^^^ 1 else e.attack

theorem reset_eq_onRamp (e : Envelope) : e.reset = e.onRamp e.attack 0 := by
  unfold reset onRamp rampLevel
  by_cases h : e.attack = 0 <;> simp [h]

theorem step_onRamp (e : Envelope) (dir : UInt8) {i : Nat} (hi : i < 15) :
    (e.onRamp dir i).step = e.onRamp dir (i + 1) := by
  have hup : ∀ i < 15, UInt8.ofNat i < 15 ∧ UInt8.ofNat i + 1 = UInt8.ofNat (i + 1) := by decide
  have hdown : ∀ i < 15, 0 < UInt8.ofNat (15 - i) ∧
      UInt8.ofNat (15 - i) - 1 = UInt8.ofNat (15 - (i + 1)) := by decide
  by_cases hdir : dir = 0
  · simp [step, advance, atEnd, onRamp, rampLevel, hdir, hdown i hi]
  · obtain ⟨hlt, hnext⟩ := hup i hi
    simp [step, advance, atEnd, onRamp, rampLevel, hdir, hlt, ← hnext]

theorem ramp_start (dir : UInt8) : (if dir ≠ 0 then 0 else 15 : UInt8) = UInt8.ofNat (rampLevel (dir ≠ 0) 0) := by
  by_cases hdir : dir = 0 <;> simp [rampLevel, hdir]

theorem step_atEnd {e : Envelope} (hend : e.atEnd = true) (hrun : e.running = true) : e.step =
    if e.stops then { e with running := false, cnt := 0 } else e.onRamp (e.nextDir e.dir) 0 := by
  have hend' : { e with cnt := 0 }.atEnd = true := hend
  unfold step advance onRamp
  rw [if_pos hrun, hend', ← ramp_start]
  by_cases hcont : e.cont = 0
  · simp [stops, hcont]
  by_cases hhold : e.hold = 0
  · simp [stops, hcont, hhold, nextDir, hrun]
  · simp [stops, hcont, hhold]

theorem step_top (e : Envelope) (dir : UInt8) : (e.onRamp dir 15).step =
    if e.stops then { e.onRamp dir 15 with running := false } else e.onRamp (e.nextDir dir) 0 := by
  have htop : (e.onRamp dir 15).atEnd = true := by
    by_cases hdir : dir = 0 <;> simp [atEnd, onRamp, rampLevel, hdir]
  exact step_atEnd htop rfl

theorem iterate_onRamp (e : Envelope) (dir : UInt8) {i : Nat} (hi : i ≤ 15) :
    step^[i] (e.onRamp dir 0) = e.onRamp dir i := by
  induction i with
  | zero => rfl
  | succ i ih => rw [Function.iterate_succ_apply', ih (by omega), step_onRamp e dir (by omega)]

theorem iterate_stopped {e : Envelope} (h : e.running = false) (n : Nat) : step^[n] e = e := by
  apply Function.iterate_fixed
  simp [step, h]

/-- The ramps of an envelope that does not stop. -/
theorem iterate_ramps {e : Envelope} (h : e.stops = false) (dir : UInt8) (m : Nat) :
    step^[16 * m] (e.onRamp dir 0) = e.onRamp (e.nextDir^[m] dir) 0 := by
  induction m with
  | zero => rfl
  | succ m ih =>
    have hsplit : 16 * (m + 1) = 1 + (15 + 16 * m) := by omega
    rw [hsplit, Function.iterate_add_apply, Function.iterate_add_apply, ih, iterate_onRamp e _ le_rfl,
      Function.iterate_one, step_top, h, Function.iterate_succ_apply']
    rfl

theorem nextDir_sawtooth {e : Envelope} (h : e.alternate = 0) (m : Nat) :
    e.nextDir^[m] e.attack = e.attack := by
  apply Function.iterate_fixed
  simp [nextDir, h]

theorem nextDir_triangle {e : Envelope} (h : e.alternate ≠ 0) (m : Nat) :
    e.nextDir^[m] e.attack = if m % 2 = 1 then e.attack ^^^ 1 else e.attack := by
  induction m with
  | zero => rfl
  | succ m ih =>
    rw [Function.iterate_succ_apply', ih]
    by_cases hm : m % 2 = 1
    · have hnext : ¬ (m + 1) % 2 = 1 := by omega
      rw [if_pos hm, if_neg hnext, nextDir, if_pos h, UInt8.xor_assoc, UInt8.xor_self, UInt8.xor_zero]
    · have hnext : (m + 1) % 2 = 1 := by omega
      simp [nextDir, h, hm, hnext]

theorem toNat_onRamp (e : Envelope) (dir : UInt8) {i : Nat} (hi : i < 16) :
    (e.onRamp dir i).level.toNat = rampLevel (dir ≠ 0) i := by
  apply UInt8.toNat_ofNat_of_lt'
  have hsize : UInt8.size = 256 := rfl
  unfold rampLevel
  split <;> omega

theorem iterate_reset_level (e : Envelope) (hattack : e.attack = 0 ∨ e.attack = 1) (q : Nat) :
    (step^[q] e.reset).level.toNat = e.waveform.level q := by
  rw [reset_eq_onRamp]
  by_cases hq : q < 16
  · rw [iterate_onRamp e _ (by omega), toNat_onRamp e _ hq, Waveform.level, if_pos hq]
    rfl
  have hdm := Nat.div_add_mod q 16
  have hmod : q % 16 < 16 := Nat.mod_lt q (by omega)
  rw [Waveform.level, if_neg hq]
  cases hstops : e.stops with
  | true =>
    -- the level at which it stops is that of the end of the ramp
    have hsplit : q = (q - 16) + (1 + 15) := by omega
    rw [hsplit, Function.iterate_add_apply, Function.iterate_add_apply, iterate_onRamp e _ le_rfl,
      Function.iterate_one, step_top, hstops, if_pos rfl, iterate_stopped rfl]
    rcases hattack with h | h <;> simp [waveform, hstops, h, onRamp, rampLevel]
  | false =>
    rw [← hdm, Nat.add_comm, Function.iterate_add_apply, iterate_ramps hstops,
      iterate_onRamp e _ (by omega), toNat_onRamp e _ hmod]
    have hdiv : (q % 16 + 16 * (q / 16)) / 16 = q / 16 := by omega
    have hrest : (q % 16 + 16 * (q / 16)) % 16 = q % 16 := by omega
    by_cases halternate : e.alternate = 0
    · simp [waveform, hstops, halternate, nextDir_sawtooth halternate]
    · rw [nextDir_triangle halternate]
      rcases hattack with h | h
      all_goals by_cases hodd : q / 16 % 2 = 1
      all_goals simp [waveform, hstops, halternate, h, hdiv, hrest, hodd]

/-! ## Samples -/

/-- A sample, for a track that uses the envelope and is not held up. -/
def sampled (period : UInt16) (e : Envelope) : Envelope := (e.update true period).1

def withCnt (e : Envelope) (cnt : UInt16) : Envelope := { e with cnt }

section Period
variable {period : UInt16} {e : Envelope}

theorem sampled_running (hperiod : period ≠ 0) (h : e.running = true) (c : UInt16) :
    (e.withCnt c).sampled period = if c + 1 < period then e.withCnt (c + 1) else e.step := by
  by_cases hlt : c + 1 < period
  · simp [sampled, withCnt, update, h, hperiod, hlt]
  · simp [sampled, withCnt, update, h, hperiod, hlt, step]

theorem sampled_stopped (h : e.running = false) (c : UInt16) :
    (e.withCnt c).sampled period = e.withCnt c := by
  simp [sampled, withCnt, update, h]

theorem step_cnt (h : e.running = true) : e.step.withCnt 0 = e.step := by
  unfold step advance
  rw [if_pos h]
  dsimp only
  split_ifs <;> rfl

theorem succ_div_mod (r p : Nat) (hp : 0 < p) : (r % p + 1 < p → (r + 1) / p = r / p ∧ (r + 1) % p = r % p + 1) ∧
    (r % p + 1 = p → (r + 1) / p = r / p + 1 ∧ (r + 1) % p = 0) := by
  have hdm := Nat.div_add_mod r p
  have hr : r + 1 = r % p + 1 + p * (r / p) := by omega
  constructor
  · intro hlt
    rw [hr, Nat.add_mul_div_left _ _ hp, Nat.add_mul_mod_self_left, Nat.div_eq_of_lt hlt,
      Nat.mod_eq_of_lt hlt]
    simp
  · intro heq
    rw [hr, heq, Nat.add_mul_div_left _ _ hp, Nat.add_mul_mod_self_left, Nat.div_self hp, Nat.mod_self]
    simp [Nat.add_comm]

/-- The steps come at the multiples of the period, and the counter is the rest. -/
theorem iterate_sampled (hperiod : period ≠ 0) (hcnt : e.cnt = 0) (r : Nat) :
    ∃ c : UInt16, (sampled period)^[r] e = (step^[r / period.toNat] e).withCnt c ∧
      ((step^[r / period.toNat] e).running = true → c.toNat = r % period.toNat) := by
  have hp : 0 < period.toNat := Nat.pos_of_ne_zero fun h => hperiod (UInt16.toNat.inj h)
  have hbound := period.toNat_lt
  induction r with
  | zero => exact ⟨0, by simp [withCnt, ← hcnt], fun _ => by simp⟩
  | succ r ih =>
    obtain ⟨c, hc, hrest⟩ := ih
    obtain ⟨hwithin, hover⟩ := succ_div_mod r period.toNat hp
    have hmod := Nat.mod_lt r hp
    rw [Function.iterate_succ_apply', hc]
    cases hrun : (step^[r / period.toNat] e).running with
    | false =>
      have hsame : step^[(r + 1) / period.toNat] e = step^[r / period.toNat] e := by
        by_cases hlt : r % period.toNat + 1 < period.toNat
        · rw [(hwithin hlt).1]
        · rw [(hover (by omega)).1, Function.iterate_succ_apply']
          simp [step, hrun]
      rw [sampled_stopped hrun, hsame, hrun]
      exact ⟨c, rfl, fun h => by simp at h⟩
    | true =>
      have hcr := hrest hrun
      have hsucc : (c + 1).toNat = r % period.toNat + 1 := by
        rw [UInt16.toNat_add, hcr, UInt16.toNat_one]
        omega
      rw [sampled_running hperiod hrun]
      by_cases hlt : r % period.toNat + 1 < period.toNat
      · have hstep : c + 1 < period := UInt16.lt_iff_toNat_lt.mpr (by omega)
        rw [if_pos hstep, (hwithin hlt).1, (hwithin hlt).2]
        exact ⟨c + 1, rfl, fun _ => hsucc⟩
      · have heq : r % period.toNat + 1 = period.toNat := by omega
        have hstep : ¬ c + 1 < period := fun h => by
          have := UInt16.lt_iff_toNat_lt.mp h
          omega
        rw [if_neg hstep, (hover heq).1, (hover heq).2, Function.iterate_succ_apply']
        exact ⟨0, (step_cnt hrun).symm, fun _ => rfl⟩

theorem sampled_reset_level (hperiod : period ≠ 0) (hattack : e.attack = 0 ∨ e.attack = 1) (r : Nat) :
    ((sampled period)^[r] e.reset).level.toNat = e.waveform.level (r / period.toNat) := by
  obtain ⟨c, hc, -⟩ := iterate_sampled hperiod (rfl : e.reset.cnt = 0) r
  rw [hc]
  exact iterate_reset_level e hattack _

theorem count_up (hperiod : period ≠ 0) (hrun : e.running = true) {j : Nat}
    (hj : e.cnt.toNat + j < period.toNat) :
    (sampled period)^[j] e = e.withCnt (e.cnt + UInt16.ofNat j) := by
  induction j with
  | zero => simp [withCnt]
  | succ j ih =>
    have hbound := period.toNat_lt
    have hlt : e.cnt + UInt16.ofNat j + 1 < period := by
      rw [UInt16.lt_iff_toNat_lt]
      simp only [UInt16.toNat_add, UInt16.toNat_ofNat', UInt16.toNat_one]
      omega
    rw [Function.iterate_succ_apply', ih (by omega), sampled_running hperiod hrun, if_pos hlt,
      UInt16.ofNat_add, UInt16.add_assoc]
    rfl

/-- A running envelope comes to a step within a period. -/
theorem step_within (hperiod : period ≠ 0) (hrun : e.running = true) (hcnt : e.cnt.toNat + 1 < UInt16.size) :
    ∃ j < period.toNat, ∃ c, (sampled period)^[j] e = e.withCnt c ∧ period ≤ c + 1 := by
  have hp : 0 < period.toNat := Nat.pos_of_ne_zero fun h => hperiod (UInt16.toNat.inj h)
  have hbound := period.toNat_lt
  have hsize : UInt16.size = 65536 := rfl
  by_cases hle : period.toNat ≤ e.cnt.toNat + 1
  · refine ⟨0, hp, e.cnt, rfl, UInt16.le_iff_toNat_le.mpr ?_⟩
    rw [UInt16.toNat_add, UInt16.toNat_one]
    omega
  · refine ⟨period.toNat - 1 - e.cnt.toNat, by omega, _, count_up hperiod hrun (by omega), ?_⟩
    rw [UInt16.le_iff_toNat_le]
    simp only [UInt16.toNat_add, UInt16.toNat_ofNat', UInt16.toNat_one]
    omega

/-- A running envelope makes `update_envelope` return within two periods: after a step that does not, the
next ramp begins. -/
theorem due_within (hperiod : period ≠ 0) (hrun : e.running = true) (hcnt : e.cnt.toNat + 1 < UInt16.size) :
    ∃ j < 2 * period.toNat, ((sampled period)^[j] e).Due true period := by
  obtain ⟨j, hj, c, hc, hle⟩ := step_within hperiod hrun hcnt
  by_cases hreturns : e.atEnd = false ∨ e.cont = 0 ∨ e.hold ≠ 0
  · refine ⟨j, by omega, ?_⟩
    rw [hc]
    exact ⟨rfl, hrun, hperiod, hle, hreturns⟩
  · simp only [not_or, Bool.not_eq_false, ne_eq, not_not] at hreturns
    obtain ⟨hend, hcont, hhold⟩ := hreturns
    have hstops : e.stops = false := by simp [stops, hcont, hhold]
    have hnext : e.step = e.onRamp (e.nextDir e.dir) 0 := by simp [step_atEnd hend hrun, hstops]
    have hafter : (sampled period)^[j + 1] e = e.onRamp (e.nextDir e.dir) 0 := by
      have hnot : ¬ c + 1 < period := UInt16.not_lt.mpr hle
      rw [Function.iterate_succ_apply', hc, sampled_running hperiod hrun, if_neg hnot, hnext]
    obtain ⟨k, hk, c', hc', hle'⟩ := step_within (e := e.onRamp (e.nextDir e.dir) 0) hperiod rfl
      (by decide : (0 : UInt16).toNat + 1 < UInt16.size)
    have hramp : (e.onRamp (e.nextDir e.dir) 0).atEnd = false := by
      by_cases hd : e.nextDir e.dir = 0 <;> simp [atEnd, onRamp, rampLevel, hd]
    refine ⟨k + (j + 1), by omega, ?_⟩
    rw [Function.iterate_add_apply, hafter, hc']
    exact ⟨rfl, rfl, hperiod, hle', Or.inl hramp⟩

end Period

end Envelope

/-! ## Flags and counters -/

/-- The bits of the shape register. -/
def Envelope.HasShape (e : Envelope) (shape : UInt8) : Prop :=
  e.cont = (shape >>> 3) &&& 1 ∧ e.attack = (shape >>> 2) &&& 1 ∧ e.alternate = (shape >>> 1) &&& 1 ∧
    e.hold = shape &&& 1

/-- The register has only the lower four bits. -/
theorem Envelope.hasShape_nibble {e : Envelope} {val : UInt8} (h : e.HasShape val) :
    e.HasShape (val &&& 0x0F) := by
  have hbits : ∀ n < 256, ∀ k < 4, ((UInt8.ofNat n &&& 0x0F) >>> UInt8.ofNat k) &&& (1 : UInt8) =
      (UInt8.ofNat n >>> UInt8.ofNat k) &&& (1 : UInt8) := by decide +kernel
  have hval : UInt8.ofNat val.toNat = val := UInt8.ofNat_toNat
  have hbit (k : Nat) (hk : k < 4) := hval ▸ hbits val.toNat val.toNat_lt k hk
  obtain ⟨hcont, hattack, halternate, hhold⟩ := h
  refine ⟨hcont.trans (hbit 3 (by omega)).symm, hattack.trans (hbit 2 (by omega)).symm,
    halternate.trans (hbit 1 (by omega)).symm, hhold.trans ?_⟩
  simpa using (hbit 0 (by omega)).symm

/-- What every state after `reset_psg` has. -/
structure EnvelopesSet (s : PsgState) : Prop where
  pan : PanInRange s
  shape : s.envelopeShape.toNat < 16
  flags (tr : Fin 3) : (s.track tr).env.HasShape s.envelopeShape
  cnt (tr : Fin 3) : (s.track tr).env.cnt.toNat + 1 < UInt16.size

theorem resetPsg_envelopesSet : EnvelopesSet resetPsg where
  pan := fun _ => (by decide : 8 < 16)
  shape := by decide
  flags := fun _ => ⟨rfl, rfl, rfl, rfl⟩
  cnt := fun _ => (by decide : 0 + 1 < UInt16.size)

section Shape
variable {s s' : PsgState} {tr : Fin 3}

theorem updateEnvelopes_shape (trs : List (Fin 3)) :
    (s.updateEnvelopes trs).envelopeShape = s.envelopeShape := by
  induction trs generalizing s with
  | nil => rfl
  | cons tr trs ih =>
    unfold updateEnvelopes
    dsimp only
    split
    · rfl
    · rw [ih]
      rfl

theorem mixTracks_shape {trs : List (Fin 3)} {l r l' r' : UInt32}
    (h : s.mixTracks l r trs = some (l', r', s')) : s'.envelopeShape = s.envelopeShape := by
  induction trs generalizing s l r with
  | nil =>
    cases h
    rfl
  | cons tr trs ih =>
    obtain ⟨mixed, -, hrest⟩ := Option.bind_eq_some_iff.mp h
    rw [ih hrest]
    rfl

theorem calcSample_shape {out : UInt16 × UInt16} (h : s.calcSample = some (out, s')) :
    s'.envelopeShape = s.envelopeShape := by
  obtain ⟨⟨l, r, mixed⟩, hmixed, hret⟩ := Option.bind_eq_some_iff.mp h
  cases hret
  rw [mixTracks_shape hmixed]
  unfold updateNoise
  dsimp only
  split <;> exact updateEnvelopes_shape _

theorem writeReg_shape (reg val : UInt8) : (s.writeReg reg val).envelopeShape =
    if reg.toNat = 13 then val &&& 0x0F else s.envelopeShape := by
  unfold PsgState.writeReg
  split
  all_goals simp_all [setTrack]

/-- A packet that writes the shape. -/
def Packet.WritesShape (pkt : Packet) : Prop := pkt.op = pktRegWrite ∧ pkt.reg.toNat = 13

theorem processPacket_shape {pkt : Packet} (h : s.processPacket pkt = some s') :
    pkt.WritesShape ∧ s'.envelopeShape = pkt.val &&& 0x0F ∨
      ¬ pkt.WritesShape ∧ s'.envelopeShape = s.envelopeShape := by
  unfold processPacket at h
  by_cases hreg : pkt.op = pktRegWrite
  · rw [if_pos hreg] at h
    rw [← Option.some.inj h, writeReg_shape]
    by_cases hshape : pkt.reg.toNat = 13
    · exact Or.inl ⟨⟨hreg, hshape⟩, if_pos hshape⟩
    · exact Or.inr ⟨fun hwrites => hshape hwrites.2, if_neg hshape⟩
  right
  refine ⟨fun hwrites => hreg hwrites.1, ?_⟩
  have hset {f : Track → Track} (h : s.setOfTrack pkt f = some s') : s'.envelopeShape = s.envelopeShape := by
    obtain ⟨k, -, rfl⟩ := setOfTrack_some h
    rfl
  have hsame (h : some s = some s') : s'.envelopeShape = s.envelopeShape := by rw [Option.some.inj h]
  rw [if_neg hreg] at h
  split_ifs at h
  · exact hsame h
  · exact hset h
  · exact Option.some.inj h ▸ rfl
  · exact hset h
  · exact hset h
  · exact hset h
  · exact hsame h

end Shape

namespace Envelope

theorem reset_hasShape {e : Envelope} {shape : UInt8} (h : e.HasShape shape) : e.reset.HasShape shape := h

theorem update_hasShape {e : Envelope} {shape : UInt8} (used : Bool) (period : UInt16)
    (h : e.HasShape shape) : (e.update used period).1.HasShape shape := by
  unfold update advance
  dsimp only
  split_ifs
  all_goals exact h

theorem update_cnt {e : Envelope} (used : Bool) (period : UInt16) (h : e.cnt.toNat + 1 < UInt16.size) :
    (e.update used period).1.cnt.toNat + 1 < UInt16.size := by
  have hzero : (0 : UInt16).toNat + 1 < UInt16.size := by decide
  have hadvance (e : Envelope) : e.advance.1.cnt = e.cnt := by
    unfold advance
    dsimp only
    split_ifs
    all_goals rfl
  unfold update
  dsimp only
  by_cases hlt : e.cnt + 1 < period
  · have hcnt := UInt16.lt_iff_toNat_lt.mp hlt
    have hbound := period.toNat_lt
    have hsize : UInt16.size = 65536 := rfl
    rw [if_pos hlt]
    split_ifs
    · exact h
    · exact h
    · dsimp only
      omega
  · rw [if_neg hlt]
    split_ifs
    · exact h
    · exact h
    · rw [hadvance]
      exact hzero

end Envelope

/-- What a packet does with the flags and the counter. -/
theorem Heard.next_packet {v : Heard} {tr : Fin 3} (pkt : Packet) {shape shape' : UInt8}
    (hshape : pkt.WritesShape ∧ shape' = pkt.val &&& 0x0F ∨ ¬ pkt.WritesShape ∧ shape' = shape)
    (hflags : v.env.HasShape shape) (hcnt : v.env.cnt.toNat + 1 < UInt16.size) :
    (v.next tr (.packet pkt)).env.HasShape shape' ∧
      (v.next tr (.packet pkt)).env.cnt.toNat + 1 < UInt16.size := by
  have hzero : (0 : UInt16).toNat + 1 < UInt16.size := by decide
  have htr := tr.isLt
  unfold Heard.next
  dsimp only
  rcases hshape with ⟨⟨hop, hreg⟩, rfl⟩ | ⟨hother, rfl⟩
  · rw [if_pos hop, Heard.writeReg, if_neg (by omega), if_neg (by omega), if_pos hreg]
    exact ⟨Envelope.hasShape_nibble ⟨rfl, rfl, rfl, rfl⟩, hzero⟩
  by_cases hop : pkt.op = pktRegWrite
  · have hreg : ¬ pkt.reg.toNat = 13 := fun hreg => hother ⟨hop, hreg⟩
    rw [if_pos hop, Heard.writeReg, if_neg hreg]
    split_ifs with hmsb hused
    · exact ⟨hflags, hzero⟩
    · exact ⟨hflags, hcnt⟩
    · exact ⟨hflags, hcnt⟩
    · exact ⟨hflags, hcnt⟩
  · rw [if_neg hop]
    split_ifs
    · exact ⟨hflags, hcnt⟩
    · exact ⟨hflags, hcnt⟩

section Invariant
variable {s s' : PsgState}

theorem next_envelopesSet {a : EngineAction} (hs : EnvelopesSet s) (h : s.next a = some s') :
    EnvelopesSet s' := by
  cases a with
  | packet pkt =>
    have hshape := processPacket_shape h
    have htrack (tr : Fin 3) : (s'.heard tr).env.HasShape s'.envelopeShape ∧
        (s'.heard tr).env.cnt.toNat + 1 < UInt16.size := by
      rw [heard_packet h]
      split_ifs with hconcerns
      · exact Heard.next_packet pkt hshape (hs.flags tr) (hs.cnt tr)
      · -- a write of the shape is for every track
        have hother : ¬ pkt.WritesShape := fun hwrites => by
          simp [Packet.concerns, hwrites.1, hwrites.2] at hconcerns
        rcases hshape with ⟨hwrites, -⟩ | ⟨-, hsame⟩
        · exact absurd hwrites hother
        · rw [hsame]
          exact ⟨hs.flags tr, hs.cnt tr⟩
    refine ⟨next_panInRange hs.pan h, ?_, fun tr => (htrack tr).1, fun tr => (htrack tr).2⟩
    rcases hshape with ⟨-, hval⟩ | ⟨-, hsame⟩
    · rw [hval]
      exact and_nibble_lt pkt.val
    · rw [hsame]
      exact hs.shape
  | sample =>
    obtain ⟨⟨out, t⟩, ht, rfl⟩ := Option.map_eq_some_iff.mp h
    have hshape := calcSample_shape ht
    have htrack (tr : Fin 3) : (t.heard tr).env.HasShape s.envelopeShape ∧
        (t.heard tr).env.cnt.toNat + 1 < UInt16.size := by
      rw [heard_sample h]
      split_ifs
      · exact ⟨Envelope.update_hasShape _ _ (hs.flags tr), Envelope.update_cnt _ _ (hs.cnt tr)⟩
      · exact ⟨hs.flags tr, hs.cnt tr⟩
    refine ⟨next_panInRange hs.pan h, hshape ▸ hs.shape, fun tr => ?_, fun tr => (htrack tr).2⟩
    rw [hshape]
    exact (htrack tr).1
  | tick =>
    cases h
    exact ⟨hs.pan, hs.shape, hs.flags, hs.cnt⟩

theorem run_envelopesSet {actions : List EngineAction} (hs : EnvelopesSet s)
    (h : s.run actions = some s') : EnvelopesSet s' :=
  (Run.of_foldlM (fun _ _ _ hst => hst) h).invariant (fun _ _ _ hs _ hst => next_envelopesSet hs hst) hs

end Invariant

/-! ## A track after a reset -/

/-- The packet resets the envelope of the track. -/
def ResetsEnvelope (s : PsgState) (tr : Fin 3) (pkt : Packet) : Prop :=
  pkt.op = pktRegWrite ∧ (pkt.reg.toNat = 13 ∨
    pkt.reg.toNat = 2 * tr + 1 ∧ (s.track tr).usesEnvelope = true ∧ (s.track tr).legato = false)

namespace Heard

/-- A sample for a track that is not held up. -/
def sampled (v : Heard) : Heard := { v with env := (v.env.update v.usesEnvelope v.period).1 }

theorem iterate_sampled {v : Heard} (h : v.usesEnvelope = true) (r : Nat) :
    sampled^[r] v = { v with env := (Envelope.sampled v.period)^[r] v.env } := by
  induction r with
  | zero => rfl
  | succ r ih =>
    rw [Function.iterate_succ_apply', Function.iterate_succ_apply', ih]
    have hused : v.usesEnvelope = true := h
    unfold sampled
    unfold usesEnvelope at hused ⊢
    dsimp only
    rw [hused]
    rfl

theorem sampled_idle {v : Heard} (h : ¬ (v.usesEnvelope = true ∧ v.env.running = true)) : v.sampled = v := by
  unfold sampled Envelope.update
  by_cases hused : v.usesEnvelope = true
  · have hrun : v.env.running = false := by simpa [hused] using h
    simp [hused, hrun]
  · simp [hused]

theorem foldl_samples (v : Heard) (tr : Fin 3) {rest : List EngineAction}
    (hrest : ∀ pkt, EngineAction.packet pkt ∉ rest) :
    (rest.filter (EngineAction.concerns tr)).foldl (Heard.next tr) v =
      sampled^[rest.count .sample] v := by
  induction rest generalizing v with
  | nil => rfl
  | cons a rest ih =>
    simp only [List.mem_cons, not_or] at hrest
    have hrest' (pkt : Packet) := (hrest pkt).2
    cases a with
    | packet pkt => exact absurd rfl (hrest pkt).1
    | tick => simpa [EngineAction.concerns] using ih v hrest'
    | sample =>
      rw [List.count_cons_self, Function.iterate_succ_apply, ← ih v.sampled hrest']
      rfl

end Heard

section Resets
variable {s s' : PsgState} {tr : Fin 3} {rest : List EngineAction}

theorem reset_of_resetsEnvelope {pkt : Packet} (h : s.processPacket pkt = some s')
    (hreset : ResetsEnvelope s tr pkt) : (s'.track tr).env.reset = (s'.track tr).env := by
  obtain ⟨hop, hreg⟩ := hreset
  have htr := tr.isLt
  rw [processPacket, if_pos hop] at h
  rw [← Option.some.inj h, writeReg_track, Track.writeReg]
  rcases hreg with hshape | ⟨hmsb, hused, hlegato⟩
  · rw [if_neg (by omega), if_neg (by omega), if_neg (by omega), if_pos hshape]
    rfl
  · rw [if_neg (by omega), if_pos hmsb, Track.writeToneMsb]
    simp only [hused, hlegato, Bool.not_false, Bool.and_self, if_pos]
    rfl

theorem run_snoc (s : PsgState) (actions : List EngineAction) (a : EngineAction) :
    s.run (actions ++ [a]) = (s.run actions).bind fun t => t.next a := by
  simp [PsgState.run, List.foldlM_append]

/-- Without packets a track gets a number of samples, all of them if it is not held up. -/
theorem run_samples (hs : EnvelopesSet s) (tr : Fin 3) (hrest : ∀ pkt, EngineAction.packet pkt ∉ rest) :
    ∃ t, s.run rest = some t ∧ ∃ r ≤ rest.count .sample, t.heard tr = Heard.sampled^[r] (s.heard tr) ∧
      (r = rest.count .sample → Run (fun s a t => s.next a = some t) (Unhindered tr) s rest t) := by
  induction rest using List.reverseRecOn with
  | nil => exact ⟨s, rfl, 0, Nat.le_refl 0, rfl, fun _ => .refl s⟩
  | append_singleton rest a ih =>
    simp only [List.mem_append, List.mem_singleton, not_or] at hrest
    obtain ⟨t, ht, r, hr, hheard, hrun⟩ := ih fun pkt => (hrest pkt).1
    have hin : a.InTracks := fun pkt ha => absurd ha.symm (hrest pkt).2
    obtain ⟨u, hu⟩ := Option.isSome_iff_exists.mp ((next_isSome (run_envelopesSet hs ht).pan).mpr hin)
    refine ⟨u, by rw [run_snoc, ht]; exact hu, ?_⟩
    rw [List.count_append]
    cases a with
    | packet pkt => exact absurd rfl (hrest pkt).2
    | tick =>
      refine ⟨r, Nat.le_trans hr (Nat.le_add_right _ _), ?_, fun h => (hrun (by simpa using h)).snoc nofun hu⟩
      rw [heard_next hu nofun]
      exact hheard
    | sample =>
      have hone : List.count EngineAction.sample [EngineAction.sample] = 1 := rfl
      by_cases hclear : t.Clear tr
      · refine ⟨r + 1, by omega, ?_, fun h => (hrun (by omega)).snoc (fun _ => hclear) hu⟩
        rw [heard_sample hu, if_pos hclear, hheard, Function.iterate_succ_apply']
        rfl
      · refine ⟨r, by omega, ?_, fun h => by omega⟩
        rw [heard_sample hu, if_neg hclear, hheard]

/-- Idle tracks stay idle and hold no track up. -/
theorem run_of_idle (hidle : ∀ k < tr, ¬ ((s.track k).usesEnvelope = true ∧ (s.track k).env.running = true))
    (hrest : ∀ pkt, EngineAction.packet pkt ∉ rest) (h : s.run rest = some s') :
    Run (fun s a t => s.next a = some t) (Unhindered tr) s rest s' ∧ ∀ k < tr, s'.heard k = s.heard k := by
  induction rest using List.reverseRecOn generalizing s' with
  | nil =>
    cases h
    exact ⟨.refl s, fun _ _ => rfl⟩
  | append_singleton rest a ih =>
    simp only [List.mem_append, List.mem_singleton, not_or] at hrest
    rw [run_snoc] at h
    obtain ⟨t, ht, hstep⟩ := Option.bind_eq_some_iff.mp h
    obtain ⟨hrun, hsame⟩ := ih (fun pkt => (hrest pkt).1) ht
    have hidle' (k : Fin 3) (hk : k < tr) :
        ¬ ((t.heard k).usesEnvelope = true ∧ (t.heard k).env.running = true) := by
      rw [hsame k hk]
      exact hidle k hk
    have hclear : t.Clear tr := fun k hk hdue => hidle' k hk ⟨hdue.1, hdue.2.1⟩
    refine ⟨hrun.snoc (fun _ => hclear) hstep, fun k hk => ?_⟩
    rw [← hsame k hk]
    cases a with
    | packet pkt => exact absurd rfl (hrest pkt).2
    | tick => exact heard_next hstep nofun
    | sample =>
      rw [heard_sample hstep]
      split_ifs
      · exact Heard.sampled_idle (hidle' k hk)
      · rfl

/-- A track that is not held up for two periods has no running envelope before it. -/
theorem idle_of_run {n : Nat} (hs : EnvelopesSet s) (hperiod : s.envelopePeriod ≠ 0)
    (hn : 2 * s.envelopePeriod.toNat ≤ n)
    (h : Run (fun s a t => s.next a = some t) (Unhindered tr) s (List.replicate n .sample) s') :
    ∀ k < tr, ¬ ((s.track k).usesEnvelope = true ∧ (s.track k).env.running = true) := by
  rintro k hk ⟨hused, hrun⟩
  obtain ⟨j, hj, hdue⟩ := Envelope.due_within hperiod hrun (hs.cnt k)
  have hsplit : List.replicate n EngineAction.sample =
      List.replicate j .sample ++ .sample :: List.replicate (n - j - 1) .sample := by
    rw [← List.replicate_succ, ← List.replicate_add]
    congr 1
    omega
  rw [hsplit] at h
  obtain ⟨t, hbefore, hafter⟩ := h.append_inv
  obtain ⟨u, hclear, -, -⟩ := hafter.cons_inv
  have hheard : t.heard k = Heard.sampled^[j] (s.heard k) := by
    have hsamples := Heard.foldl_samples (s.heard k) k
      (by simp : ∀ pkt, EngineAction.packet pkt ∉ List.replicate j EngineAction.sample)
    rw [List.count_replicate_self] at hsamples
    rw [← hsamples]
    exact run_heard (hbefore.mono fun s a hok ha i hi => hok ha i (lt_trans hi hk))
  have husedk : (s.heard k).usesEnvelope = true := hused
  rw [Heard.iterate_sampled husedk] at hheard
  have henv : (t.track k).env = (Envelope.sampled s.envelopePeriod)^[j] (s.track k).env :=
    congrArg Heard.env hheard
  have hvolume : (t.track k).volume = (s.track k).volume := congrArg Heard.volume hheard
  have hsame : t.envelopePeriod = s.envelopePeriod := congrArg Heard.period hheard
  have hused' : (t.track k).usesEnvelope = true := by
    unfold Track.usesEnvelope at hused ⊢
    rw [hvolume]
    exact hused
  apply hclear rfl k hk
  rw [henv, hsame, hused']
  exact hdue

end Resets

/-! ## The table and the flags -/

/-- What the flags of a shape play is what is drawn for it, or it is not at the end of the first ramp. -/
theorem played_waveform {e : Envelope} {shape : UInt8} (hshape : shape.toNat < 16) (h : e.HasShape shape) :
    (shape ∉ [4, 5, 6, 7, 11, 15] → e.waveform = drawnWaveform shape) ∧
      (shape ∈ [4, 5, 6, 7, 11, 15] → e.waveform.level 16 ≠ (drawnWaveform shape).level 16) ∧
      (∀ q < 3, e.waveform.level q ≠ (drawnWaveform shape).level 3) := by
  obtain ⟨hcont, hattack, halternate, hhold⟩ := h
  have hplayed : e.waveform = Envelope.waveform ⟨0, 0, 0, false, (shape >>> 3) &&& 1, (shape >>> 2) &&& 1,
      (shape >>> 1) &&& 1, shape &&& 1⟩ := by
    simp [Envelope.waveform, Envelope.stops, hcont, hattack, halternate, hhold]
  have hrows : ∀ n < 16, (UInt8.ofNat n ∉ [4, 5, 6, 7, 11, 15] → Envelope.waveform ⟨0, 0, 0, false,
        (UInt8.ofNat n >>> 3) &&& 1, (UInt8.ofNat n >>> 2) &&& 1, (UInt8.ofNat n >>> 1) &&& 1,
        UInt8.ofNat n &&& 1⟩ = drawnWaveform (UInt8.ofNat n)) ∧
      (UInt8.ofNat n ∈ [4, 5, 6, 7, 11, 15] → (Envelope.waveform ⟨0, 0, 0, false,
        (UInt8.ofNat n >>> 3) &&& 1, (UInt8.ofNat n >>> 2) &&& 1, (UInt8.ofNat n >>> 1) &&& 1,
        UInt8.ofNat n &&& 1⟩).level 16 ≠ (drawnWaveform (UInt8.ofNat n)).level 16) ∧
      (∀ q < 3, (Envelope.waveform ⟨0, 0, 0, false,
        (UInt8.ofNat n >>> 3) &&& 1, (UInt8.ofNat n >>> 2) &&& 1, (UInt8.ofNat n >>> 1) &&& 1,
        UInt8.ofNat n &&& 1⟩).level q ≠ (drawnWaveform (UInt8.ofNat n)).level 3) := by decide +kernel
  have hval : UInt8.ofNat shape.toNat = shape := UInt8.ofNat_toNat
  rw [hplayed]
  exact hval ▸ hrows shape.toNat hshape

theorem attack_of_hasShape {e : Envelope} {shape : UInt8} (h : e.HasShape shape) :
    e.attack = 0 ∨ e.attack = 1 := by
  have hbit : (e.attack).toNat < 2 := by
    rw [h.2.1, UInt8.toNat_and, UInt8.toNat_one, Nat.and_one_is_mod]
    exact Nat.mod_lt _ (by omega)
  rcases (by omega : e.attack.toNat = 0 ∨ e.attack.toNat = 1) with hzero | hone
  · exact Or.inl (UInt8.toNat.inj hzero)
  · exact Or.inr (UInt8.toNat.inj hone)

/-- A track that uses the envelope goes through the waveform that psg.h draws for the shape, for any number
of samples after a reset, exactly when the shape is not one at whose end the other level is drawn, and when
no track before it has a running envelope. -/
theorem envelope_as_drawn_iff (tr : Fin 3) (actions : List EngineAction) (s s' : PsgState) (pkt : Packet)
    (hs : resetPsg.run actions = some s) (hpkt : s.processPacket pkt = some s')
    (hreset : ResetsEnvelope s tr pkt) (hused : (s'.track tr).usesEnvelope = true)
    (hperiod : s'.envelopePeriod ≠ 0) :
    (∀ rest : List EngineAction, (∀ pkt, .packet pkt ∉ rest) → ∃ t, s'.run rest = some t ∧
        (t.track tr).env.level.toNat = (drawnWaveform s'.envelopeShape).level
          (rest.count .sample / s'.envelopePeriod.toNat)) ↔
      s'.envelopeShape ∉ [4, 5, 6, 7, 11, 15] ∧
        ∀ k < tr, ¬ ((s'.track k).usesEnvelope = true ∧ (s'.track k).env.running = true) := by
  have hset : EnvelopesSet s' := next_envelopesSet (a := .packet pkt)
    (run_envelopesSet resetPsg_envelopesSet hs) hpkt
  have henv := reset_of_resetsEnvelope hpkt hreset
  obtain ⟨hdrawn, hother, hramp⟩ := played_waveform hset.shape (hset.flags tr)
  have hp : 0 < s'.envelopePeriod.toNat := Nat.pos_of_ne_zero fun h => hperiod (UInt16.toNat.inj h)
  have hlevel {t : PsgState} {r : Nat} (h : t.heard tr = Heard.sampled^[r] (s'.heard tr)) :
      (t.track tr).env.level.toNat = (s'.track tr).env.waveform.level (r / s'.envelopePeriod.toNat) := by
    have husedtr : (s'.heard tr).usesEnvelope = true := hused
    rw [Heard.iterate_sampled husedtr] at h
    have hsampled : (t.track tr).env = (Envelope.sampled s'.envelopePeriod)^[r] (s'.track tr).env :=
      congrArg Heard.env h
    rw [hsampled, ← henv]
    exact Envelope.sampled_reset_level hperiod (attack_of_hasShape (hset.flags tr)) r
  have hsamples (n : Nat) : ∀ pkt, EngineAction.packet pkt ∉ List.replicate n EngineAction.sample := by simp
  constructor
  · intro hall
    have hidle : ∀ k < tr, ¬ ((s'.track k).usesEnvelope = true ∧ (s'.track k).env.running = true) := by
      have hthree := hsamples (3 * s'.envelopePeriod.toNat)
      obtain ⟨t, ht, r, hr, hheard, hrun⟩ := run_samples hset tr hthree
      rw [List.count_replicate_self] at hr hrun
      by_cases heq : r = 3 * s'.envelopePeriod.toNat
      · exact idle_of_run hset hperiod (by omega) (hrun heq)
      -- the track has fallen back, and it is still on the first ramp
      obtain ⟨u, hu, hdrawn⟩ := hall _ hthree
      rw [ht] at hu
      cases hu
      rw [hlevel hheard, List.count_replicate_self, Nat.mul_div_cancel _ hp] at hdrawn
      have hlt : r / s'.envelopePeriod.toNat < 3 := (Nat.div_lt_iff_lt_mul hp).mpr (by omega)
      exact absurd hdrawn (hramp _ hlt)
    refine ⟨fun hshape => ?_, hidle⟩
    have hramps := hsamples (16 * s'.envelopePeriod.toNat)
    obtain ⟨t, ht, hend⟩ := hall _ hramps
    have hheard := run_heard (run_of_idle hidle hramps ht).1
    rw [Heard.foldl_samples _ tr hramps] at hheard
    rw [hlevel hheard, List.count_replicate_self, Nat.mul_div_cancel _ hp] at hend
    exact hother hshape hend
  · rintro ⟨hshape, hidle⟩ rest hrest
    obtain ⟨t, ht, -⟩ := run_samples hset tr hrest
    have hheard := run_heard (run_of_idle hidle hrest ht).1
    rw [Heard.foldl_samples _ tr hrest] at hheard
    refine ⟨t, ht, ?_⟩
    rw [hlevel hheard, hdrawn hshape]

/-- Track A with the shape for a repeated fall and the period 2. -/
theorem envelope_as_drawn_sawtooth :
    ∃ t, (((resetPsg.writeReg 8 16).writeReg 11 2).writeReg 13 8).run (List.replicate 40 .sample) = some t ∧
      (t.track 0).env.level.toNat = (drawnWaveform 8).level (40 / 2) := by
  let s := (resetPsg.writeReg 8 16).writeReg 11 2
  have hs : resetPsg.run [.packet ⟨0, 0, 8, 16, 0⟩, .packet ⟨0, 0, 11, 2, 0⟩] = some s := rfl
  have hused : (((s.writeReg 13 8).track 0).usesEnvelope) = true := by decide +kernel
  have hperiod : (s.writeReg 13 8).envelopePeriod ≠ 0 := by decide +kernel
  refine (envelope_as_drawn_iff 0 _ s _ ⟨0, 0, 13, 8, 0⟩ hs rfl ⟨rfl, Or.inl rfl⟩ hused hperiod).mpr ?_
    (List.replicate 40 .sample) (by simp)
  exact ⟨by decide +kernel, by decide⟩

/-- The shape 4 at the end of its ramp. -/
theorem rise_without_silence :
    (drawnWaveform 4).level 16 = 0 ∧
      (resetPsg.run ([.packet ⟨0, 0, 8, 16, 0⟩, .packet ⟨0, 0, 11, 1, 0⟩, .packet ⟨0, 0, 13, 4, 0⟩] ++
        List.replicate 16 .sample)).map (fun s => (s.track 0).env.level) = some 15 := by
  decide +kernel

end PicoRuby.Psg
