import Mathlib.Data.List.FinRange
import Mathlib.Data.Int.Order.Basic

/-!
# Rotary encoders

The static arrays of prk-rotary_encoder.c, what an interrupt does with them, and how Ruby code takes the
rotations out.
-/

namespace PicoRuby.RotaryEncoder

set_option autoImplicit false

/-- `MAX_ENCODER_COUNT`. -/
abbrev maxEncoderCount : Nat := 5

/-- The elements of the arrays for one encoder. -/
structure Encoder where
  pinA : Int8
  pinB : Int8
  status : Int8
  rotationCount : Int8
deriving DecidableEq, Repr

structure Encoders where
  encoderCount : Nat
  encoder : Fin maxEncoderCount → Encoder

/-- What `RotaryEncoder_gpio_get` returns for `pins_a[i]` and for `pins_b[i]`. -/
structure Level where
  a : Bool
  b : Bool
deriving DecidableEq, Repr

/-- The pins are pulled up. -/
def Level.detent : Level := ⟨true, true⟩

/-- `current` in `encoder_callback`. -/
def Level.current (l : Level) : UInt8 := ((if l.a then 0 else 1 : UInt8) <<< 1) + (if l.b then 0 else 1)

namespace Encoder

def previous (e : Encoder) : UInt8 := e.status.toUInt8 &&& 0b00000011

def rotation (e : Encoder) : UInt8 := (e.status.toUInt8 &&& 0b00110000) >>> 4

def setStatus (e : Encoder) (rotation previous current : UInt8) : Encoder :=
  { e with status := ((rotation <<< 4) + (previous <<< 2) + current).toInt8 }

/-- What `encoder_callback` does with the encoder of a pin. -/
def sample (e : Encoder) (l : Level) : Encoder :=
  if l.current ≠ e.previous then
    if e.rotation = 0b00 then
      if l.current = 0b01 ∨ l.current = 0b10 then e.setStatus l.current e.previous l.current
      else e.setStatus e.rotation e.previous l.current
    else if l.current = 0b00 then
      if e.rotation = 0b10 ∧ e.previous = 0b01 then
        { e with rotationCount := e.rotationCount + 1 }.setStatus 0b00 e.previous l.current
      else if e.rotation = 0b01 ∧ e.previous = 0b10 then
        { e with rotationCount := e.rotationCount - 1 }.setStatus 0b00 e.previous l.current
      else e.setStatus 0b00 e.previous l.current
    else e.setStatus e.rotation e.previous l.current
  else e

/-- A pin of the encoder, compared as an `int`. -/
def HasPin (e : Encoder) (gpio : UInt32) : Prop :=
  gpio = e.pinA.toInt32.toUInt32 ∨ gpio = e.pinB.toInt32.toUInt32

instance (e : Encoder) (gpio : UInt32) : Decidable (e.HasPin gpio) :=
  inferInstanceAs (Decidable (_ ∨ _))

end Encoder

namespace Encoders

def set (s : Encoders) (i : Fin maxEncoderCount) (e : Encoder) : Encoders :=
  { s with encoder := fun j => if j = i then e else s.encoder j }

/-- `RotaryEncoder_reset`, and the initial values. -/
def reset : Encoders := ⟨0, fun _ => ⟨-1, -1, 0, 0⟩⟩

/-- `RotaryEncoder#init_encoder`; `none` if it raises. -/
def initEncoder (s : Encoders) (pinA pinB : UInt8) : Option (Encoders × Nat) :=
  if h : s.encoderCount < maxEncoderCount then
    let e := { s.encoder ⟨s.encoderCount, h⟩ with pinA := pinA.toInt8, pinB := pinB.toInt8 }
    some ({ s.set ⟨s.encoderCount, h⟩ e with encoderCount := s.encoderCount + 1 }, s.encoderCount)
  else none

/-- The loop in `encoder_callback`; `gpioGet` has what is sampled for each encoder. -/
def callbackLoop (gpio : UInt32) (gpioGet : Fin maxEncoderCount → Level) :
    List (Fin maxEncoderCount) → Encoders → Encoders
  | [], s => s
  | i :: is, s =>
    if (s.encoder i).pinA < 0 then s
    else
      callbackLoop gpio gpioGet is
        (if (s.encoder i).HasPin gpio then s.set i ((s.encoder i).sample (gpioGet i)) else s)

/-- `encoder_callback`. -/
def callback (s : Encoders) (gpio : UInt32) (gpioGet : Fin maxEncoderCount → Level) : Encoders :=
  callbackLoop gpio gpioGet (List.finRange maxEncoderCount) s

/-- `RotaryEncoder#consume_encoder`, with the value that it returns. -/
def consumeEncoder (s : Encoders) (number : Fin maxEncoderCount) : Int × Encoders :=
  let e := s.encoder number
  if 0 < e.rotationCount then (1, s.set number { e with rotationCount := e.rotationCount - 1 })
  else if e.rotationCount < 0 then (-1, s.set number { e with rotationCount := e.rotationCount + 1 })
  else (0, s)

end Encoders

/-! ## Runs -/

inductive Event where
  | callback (gpio : UInt32) (gpioGet : Fin maxEncoderCount → Level)
  | consume (number : Fin maxEncoderCount)

/-- The arrays, and the sum of what has been consumed of each encoder. -/
structure Session where
  encoders : Encoders
  consumed : Fin maxEncoderCount → Int

namespace Session

def step (s : Session) : Event → Session
  | .callback gpio gpioGet => { s with encoders := s.encoders.callback gpio gpioGet }
  | .consume number =>
    let (value, encoders) := s.encoders.consumeEncoder number
    ⟨encoders, fun j => if j = number then s.consumed j + value else s.consumed j⟩

def run (s : Session) (events : List Event) : Session := events.foldl step s

end Session

/-! ## What is sampled -/

namespace Encoders
variable {s : Encoders} {i : Fin maxEncoderCount} {gpio : UInt32} {gpioGet : Fin maxEncoderCount → Level}

/-- The loop gets to the encoder, and the pin is one of its pins. -/
def Samples (s : Encoders) (i : Fin maxEncoderCount) (gpio : UInt32) : Prop :=
  (∀ j ≤ i, ¬ (s.encoder j).pinA < 0) ∧ (s.encoder i).HasPin gpio

instance (s : Encoders) (i : Fin maxEncoderCount) (gpio : UInt32) : Decidable (s.Samples i gpio) :=
  inferInstanceAs (Decidable (_ ∧ _))

/-- The levels that some events sample for an encoder. -/
def samples (s : Encoders) (i : Fin maxEncoderCount) (events : List Event) : List Level :=
  events.filterMap fun
    | .callback gpio gpioGet => if s.Samples i gpio then some (gpioGet i) else none
    | .consume _ => none

theorem samples_callback (h : s.Samples i gpio) (events : List Event) :
    s.samples i (.callback gpio gpioGet :: events) = gpioGet i :: s.samples i events :=
  List.filterMap_cons_some (if_pos h)

theorem samples_skip (h : ¬ s.Samples i gpio) (events : List Event) :
    s.samples i (.callback gpio gpioGet :: events) = s.samples i events :=
  List.filterMap_cons_none (if_neg h)

/-- The pins stay the same. -/
def SamePins (s t : Encoders) : Prop :=
  ∀ i, (t.encoder i).pinA = (s.encoder i).pinA ∧ (t.encoder i).pinB = (s.encoder i).pinB

theorem SamePins.samples_iff {t : Encoders} (h : s.SamePins t) : t.Samples i gpio ↔ s.Samples i gpio := by
  unfold Samples Encoder.HasPin
  simp only [(h _).1, (h _).2]

theorem SamePins.samples_eq {t : Encoders} (h : s.SamePins t) (events : List Event) :
    t.samples i events = s.samples i events := by
  unfold samples
  congr 1
  funext event
  cases event with
  | callback gpio gpioGet => simp only [h.samples_iff]
  | consume number => rfl

@[simp] theorem set_same (e : Encoder) : (s.set i e).encoder i = e := if_pos rfl

theorem set_other {j : Fin maxEncoderCount} (e : Encoder) (h : j ≠ i) :
    (s.set i e).encoder j = s.encoder j := if_neg h

theorem sample_pins (e : Encoder) (l : Level) : (e.sample l).pinA = e.pinA ∧ (e.sample l).pinB = e.pinB := by
  unfold Encoder.sample Encoder.setStatus
  split_ifs <;> exact ⟨rfl, rfl⟩

theorem set_samePins {e : Encoder} (hA : e.pinA = (s.encoder i).pinA) (hB : e.pinB = (s.encoder i).pinB) :
    s.SamePins (s.set i e) := by
  intro j
  by_cases hj : j = i
  · subst hj
    rw [set_same]
    exact ⟨hA, hB⟩
  · rw [set_other _ hj]
    exact ⟨rfl, rfl⟩

/-- A round of the loop, when it goes on. -/
theorem callbackLoop_cons (gpio : UInt32) (gpioGet : Fin maxEncoderCount → Level) (is : List (Fin maxEncoderCount))
    (h : ¬ (s.encoder i).pinA < 0) :
    ∃ t, callbackLoop gpio gpioGet (i :: is) s = callbackLoop gpio gpioGet is t ∧ s.SamePins t ∧
      t.encoder i = (if (s.encoder i).HasPin gpio then (s.encoder i).sample (gpioGet i) else s.encoder i) ∧
      ∀ j, j ≠ i → t.encoder j = s.encoder j := by
  rw [callbackLoop, if_neg h]
  split_ifs with hpin
  · refine ⟨_, rfl, set_samePins (sample_pins _ _).1 (sample_pins _ _).2, set_same _, ?_⟩
    intro j hj
    exact set_other _ hj
  · exact ⟨s, rfl, fun _ => ⟨rfl, rfl⟩, rfl, fun _ _ => rfl⟩

/-- Encoders that are not in the rest of the loop keep what they have. -/
theorem callbackLoop_other {is : List (Fin maxEncoderCount)} (hi : i ∉ is) :
    (callbackLoop gpio gpioGet is s).encoder i = s.encoder i := by
  induction is generalizing s with
  | nil => rfl
  | cons k is ih =>
    rw [List.mem_cons, not_or] at hi
    by_cases hk : (s.encoder k).pinA < 0
    · rw [callbackLoop, if_pos hk]
    · obtain ⟨t, heq, -, -, hothers⟩ := callbackLoop_cons gpio gpioGet is hk
      rw [heq, ih hi.2, hothers i hi.1]

theorem callbackLoop_samePins (is : List (Fin maxEncoderCount)) :
    s.SamePins (callbackLoop gpio gpioGet is s) := by
  induction is generalizing s with
  | nil => exact fun _ => ⟨rfl, rfl⟩
  | cons k is ih =>
    by_cases hk : (s.encoder k).pinA < 0
    · rw [callbackLoop, if_pos hk]
      exact fun _ => ⟨rfl, rfl⟩
    · obtain ⟨t, heq, hpins, -, -⟩ := callbackLoop_cons gpio gpioGet is hk
      rw [heq]
      intro i
      exact ⟨(ih i).1.trans (hpins i).1, (ih i).2.trans (hpins i).2⟩

theorem callbackLoop_encoder {is : List (Fin maxEncoderCount)} (his : is.Pairwise (· < ·)) (hi : i ∈ is) :
    (callbackLoop gpio gpioGet is s).encoder i =
      if (∀ j ∈ is, j ≤ i → ¬ (s.encoder j).pinA < 0) ∧ (s.encoder i).HasPin gpio then
        (s.encoder i).sample (gpioGet i)
      else s.encoder i := by
  induction is generalizing s with
  | nil => cases hi
  | cons k is ih =>
    rw [List.pairwise_cons] at his
    have hki : k ≤ i := by
      rcases List.mem_cons.mp hi with rfl | hi
      · exact le_refl _
      · exact (his.1 i hi).le
    by_cases hk : (s.encoder k).pinA < 0
    · rw [callbackLoop, if_pos hk, if_neg]
      intro hall
      exact hall.1 k List.mem_cons_self hki hk
    · obtain ⟨t, heq, hpins, hsame, hothers⟩ :=
        callbackLoop_cons gpio gpioGet is hk
      rw [heq]
      by_cases hik : i = k
      · subst hik
        have hrest : i ∉ is := fun hmem => lt_irrefl _ (his.1 i hmem)
        have hreached : ∀ j ∈ i :: is, j ≤ i → ¬ (s.encoder j).pinA < 0 := by
          intro j hj hle
          rcases List.mem_cons.mp hj with rfl | hj
          · exact hk
          · exact absurd (his.1 j hj) hle.not_gt
        rw [callbackLoop_other hrest, hsame]
        exact if_congr ⟨fun h => ⟨hreached, h⟩, fun h => h.2⟩ rfl rfl
      · have hmem : i ∈ is := List.mem_of_ne_of_mem hik hi
        rw [ih his.2 hmem, hothers i hik]
        refine if_congr (and_congr_left fun _ => ?_) rfl rfl
        rw [List.forall_mem_cons]
        constructor
        · intro h
          exact ⟨fun _ => hk, fun j hj hle => (hpins j).1 ▸ h j hj hle⟩
        · intro h j hj hle
          rw [(hpins j).1]
          exact h.2 j hj hle

/-- An interrupt samples the encoders with its pin. -/
theorem callback_encoder (s : Encoders) (gpio : UInt32) (gpioGet : Fin maxEncoderCount → Level)
    (i : Fin maxEncoderCount) : (s.callback gpio gpioGet).encoder i =
      if s.Samples i gpio then (s.encoder i).sample (gpioGet i) else s.encoder i := by
  unfold callback
  rw [callbackLoop_encoder (List.pairwise_lt_finRange _) (List.mem_finRange i)]
  refine if_congr (and_congr_left fun _ => ?_) rfl rfl
  exact ⟨fun h j => h j (List.mem_finRange j), fun h j _ => h j⟩

theorem callback_samePins : s.SamePins (s.callback gpio gpioGet) := callbackLoop_samePins _

/-- What `consume_encoder` returns leaves the count. -/
theorem consumeEncoder_encoder (s : Encoders) (number i : Fin maxEncoderCount) :
    (s.consumeEncoder number).2.encoder i =
      if i = number then { s.encoder i with
        rotationCount := (s.encoder i).rotationCount - Int8.ofInt (s.consumeEncoder number).1 }
      else s.encoder i := by
  unfold consumeEncoder
  by_cases hi : i = number
  · subst hi
    rw [if_pos rfl]
    dsimp only
    split_ifs
    · exact set_same _
    · refine (set_same _).trans ?_
      rw [Int8.sub_eq_add_neg]
      rfl
    · change s.encoder i = { s.encoder i with rotationCount := (s.encoder i).rotationCount - 0 }
      rw [Int8.sub_zero]
  · rw [if_neg hi]
    dsimp only
    split_ifs
    · exact set_other _ hi
    · exact set_other _ hi
    · rfl

theorem consumeEncoder_samePins (number : Fin maxEncoderCount) : s.SamePins (s.consumeEncoder number).2 := by
  unfold consumeEncoder
  dsimp only
  split_ifs
  · exact set_samePins rfl rfl
  · exact set_samePins rfl rfl
  · exact fun _ => ⟨rfl, rfl⟩

end Encoders

end PicoRuby.RotaryEncoder
