import Mathlib.Order.Monotone.Basic

/-!
# HCSR04#distance_cm

The echo is polled with a clock of which only the microseconds of the second are seen. The samples of the echo and the
readings of the clock are numbered. A polling loop, and the method with its `retry`, run for a number of rounds.
-/

namespace PicoRuby.Hcsr04

set_option autoImplicit false

/-- Whether the echo is high at each sample, and the microseconds at each reading. -/
structure World where
  echo : Nat → Bool
  clock : Nat → Nat
  forward : Monotone clock

/-- `Time.now.usec`. -/
def World.usec (w : World) (t : Nat) : Int := (w.clock t % 1000000 : Nat)

def timeoutUsec : Int := 30000

/-- How a polling loop ends, with the next sample and the next reading. -/
inductive Poll where
  | left (l t : Nat)
  | wraparoundError (l t : Nat)
  | timeoutError
  | polling
deriving DecidableEq, Repr

/-- How the method ends, or why it does not. -/
inductive Result where
  | value (cm : Int)
  | timeoutError (message : String)
  | polling
  | retrying
deriving DecidableEq, Repr

/-- An attempt: its result, or where it was interrupted. -/
inductive Attempt where
  | result (r : Result)
  | wraparoundError (l t : Nat)
deriving DecidableEq, Repr

section Methods
variable (w : World) (rounds : Nat)

/-- The loops `while echo.low?` and `while echo.high?`, which end at the other level. -/
def poll (level : Bool) (startUsec : Int) : Nat → Nat → Nat → Poll
  | 0, _, _ => .polling
  | rounds + 1, l, t =>
    if w.echo l = level then .left (l + 1) t
    else if w.usec t - startUsec < 0 then .wraparoundError (l + 1) (t + 1)
    else if timeoutUsec < w.usec t - startUsec then .timeoutError
    else poll level startUsec rounds (l + 1) (t + 1)

/-- From the start of the echo on. -/
def echoEnd (l t : Nat) : Attempt :=
  match poll w false (w.usec t) rounds l (t + 1) with
  | .left _ t' =>
    let durationUsec := w.usec t' - w.usec t
    .result (.value ((if durationUsec < 0 then durationUsec + 1000000 else durationUsec) * 1715 / 100000))
  | .wraparoundError l t => .wraparoundError l t
  | .timeoutError => .result (.timeoutError "Echo signal timeout within 30000 us")
  | .polling => .result .polling

/-- The body of `distance_cm`. -/
def attempt (l t : Nat) : Attempt :=
  match poll w true (w.usec t) rounds l (t + 1) with
  | .left l t => echoEnd w rounds l t
  | .wraparoundError l t => .wraparoundError l t
  | .timeoutError => .result (.timeoutError "Echo signal not received within 30000 us")
  | .polling => .result .polling

/-- `distance_cm` with its `rescue`. -/
def distanceCm : Nat → Nat → Nat → Nat → Result
  | 0, _, _, _ => .retrying
  | retries + 1, count, l, t =>
    match attempt w rounds l t with
    | .result r => r
    | .wraparoundError l t =>
      if 3 < count + 1 then distanceCm retries (count + 1) l t
      else .timeoutError "Time wrapped around too many times"

end Methods

/-! ## The property -/

section Trace
variable (w : World)

/-- `m` rounds of a loop that started at the reading `s`: the level has not come, and no boundary is noticed. -/
def Quiet (level : Bool) (s l t m : Nat) : Prop :=
  ∀ i < m, w.echo (l + i) ≠ level ∧ w.usec s ≤ w.usec (t + i)

/-- The level comes, and is seen within 30 ms. -/
structure Seen (level : Bool) (s l t m : Nat) : Prop where
  quiet : Quiet w level s l t m
  comes : w.echo (l + m) = level
  inTime : w.clock (t + m) ≤ w.clock s + 30000

/-- No round has timed out. -/
def InTime (s t m : Nat) : Prop := ∀ i < m, w.usec (t + i) - w.usec s ≤ timeoutUsec

/-- A boundary is noticed in the last round. -/
structure Wrapped (level : Bool) (s l t m : Nat) : Prop where
  quiet : Quiet w level s l t m
  inTime : InTime w s t m
  waits : w.echo (l + m) ≠ level
  back : w.usec (t + m) < w.usec s

/-- An attempt from the sample `l` and the reading `t` on sees its echo rise and fall, with `d` in between. -/
def Succeeds (l t d : Nat) : Prop :=
  ∃ m n, Seen w true t l (t + 1) m ∧ Seen w false (t + 1 + m) (l + m + 1) (t + 1 + m + 1) n ∧
    w.clock (t + 1 + m + 1 + n) = w.clock (t + 1 + m) + d

/-- An attempt is interrupted before its echo, or in it. -/
inductive Interrupted (l t : Nat) : Nat → Nat → Prop where
  | before (m : Nat) (h : Wrapped w true t l (t + 1) m) : Interrupted l t (l + m + 1) (t + 1 + m + 1)
  | within (m n : Nat) (quiet : Quiet w true t l (t + 1) m) (inTime : InTime w t (t + 1) m)
      (rises : w.echo (l + m) = true) (h : Wrapped w false (t + 1 + m) (l + m + 1) (t + 1 + m + 1) n) :
      Interrupted l t (l + m + 1 + n + 1) (t + 1 + m + 1 + n + 1)

/-- Where the attempt begins that has so many interrupted ones before it. -/
inductive Attempts : Nat → Nat → Nat → Prop where
  | first : Attempts 0 0 0
  | next {k l t l' t' : Nat} (h : Attempts k l t) (hinterrupted : Interrupted w l t l' t') : Attempts (k + 1) l' t'

/-- The method returns a distance, however long it is run beyond some number of rounds. -/
def Returns (cm : Int) : Prop :=
  ∃ n, ∀ rounds retries, n ≤ rounds → n ≤ retries → distanceCm w rounds retries 0 0 0 = .value cm

/-- **Measurement**: the first of four attempts that is not interrupted gives the distance, and it is not retried for
ever. -/
structure Measures : Prop where
  value : ∀ k < 4, ∀ l t d, Attempts w k l t → Succeeds w l t d → Returns w (d * 1715 / 100000)
  ends : ∃ retries, ∀ rounds, distanceCm w rounds retries 0 0 0 ≠ .retrying

end Trace

/-! ## Polling -/

section Polling
variable {w : World} {level : Bool} {s l t m : Nat}

theorem quiet_succ : Quiet w level s l t (m + 1) ↔
    (w.echo l ≠ level ∧ w.usec s ≤ w.usec t) ∧ Quiet w level s (l + 1) (t + 1) m := by
  constructor
  · intro h
    refine ⟨h 0 m.succ_pos, fun i hi => ?_⟩
    rw [Nat.add_right_comm l, Nat.add_right_comm t]
    exact h (i + 1) (Nat.succ_lt_succ hi)
  · rintro ⟨hfirst, hrest⟩ i hi
    cases i with
    | zero => exact hfirst
    | succ i =>
      have hnext := hrest i (Nat.lt_of_succ_lt_succ hi)
      rw [Nat.add_right_comm l, Nat.add_right_comm t] at hnext
      exact hnext

theorem inTime_succ : InTime w s t (m + 1) ↔ w.usec t - w.usec s ≤ timeoutUsec ∧ InTime w s (t + 1) m := by
  constructor
  · intro h
    refine ⟨h 0 m.succ_pos, fun i hi => ?_⟩
    rw [Nat.add_right_comm t]
    exact h (i + 1) (Nat.succ_lt_succ hi)
  · rintro ⟨hfirst, hrest⟩ i hi
    cases i with
    | zero => exact hfirst
    | succ i =>
      have hnext := hrest i (Nat.lt_of_succ_lt_succ hi)
      rw [Nat.add_right_comm t] at hnext
      exact hnext

/-- The quiet rounds are passed, one by one. -/
theorem poll_quiet (hquiet : Quiet w level s l t m) (htime : InTime w s t m) (rounds : Nat) :
    poll w level (w.usec s) (m + rounds) l t = poll w level (w.usec s) rounds (l + m) (t + m) := by
  induction m generalizing l t with
  | zero => rw [Nat.zero_add]; rfl
  | succ m ih =>
    obtain ⟨⟨hecho, hforward⟩, hquiet⟩ := quiet_succ.mp hquiet
    obtain ⟨hfirst, htime⟩ := inTime_succ.mp htime
    rw [Nat.add_right_comm m, poll, if_neg hecho, if_neg (by omega), if_neg (by omega), ih hquiet htime,
      Nat.add_right_comm l, Nat.add_right_comm t]
    rfl

theorem poll_left (hquiet : Quiet w level s l t m) (htime : InTime w s t m) (hcomes : w.echo (l + m) = level)
    {rounds : Nat} (hrounds : m < rounds) : poll w level (w.usec s) rounds l t = .left (l + m + 1) (t + m) := by
  obtain ⟨rest, rfl⟩ := Nat.exists_eq_add_of_lt hrounds
  rw [Nat.add_assoc, poll_quiet hquiet htime, poll, if_pos hcomes]

theorem poll_wrapped (h : Wrapped w level s l t m) {rounds : Nat} (hrounds : m < rounds) :
    poll w level (w.usec s) rounds l t = .wraparoundError (l + m + 1) (t + m + 1) := by
  obtain ⟨rest, rfl⟩ := Nat.exists_eq_add_of_lt hrounds
  have hback := h.back
  rw [Nat.add_assoc, poll_quiet h.quiet h.inTime, poll, if_neg h.waits, if_pos (by omega)]

/-- Within 30 ms without a boundary the fraction shows the time. -/
theorem Seen.times_in (h : Seen w level s l t m) (hs : s ≤ t) : InTime w s t m := by
  intro i hi
  have hforward := (h.quiet i hi).2
  have hbefore := w.forward (Nat.le_trans hs (Nat.le_add_right t i))
  have hlater := w.forward (Nat.add_le_add_left (Nat.le_of_lt hi) t)
  have htime := h.inTime
  unfold World.usec at hforward ⊢
  unfold timeoutUsec
  omega

/-- A boundary at the end of the echo is made up for. -/
theorem duration_eq {a b d : Nat} (hd : b = a + d) (hle : d ≤ 30000) :
    (if ((b % 1000000 : Nat) : Int) - (a % 1000000 : Nat) < 0 then ((b % 1000000 : Nat) : Int) - (a % 1000000 : Nat) + 1000000
      else ((b % 1000000 : Nat) : Int) - (a % 1000000 : Nat)) = d := by
  split
  · omega
  · omega

theorem attempt_succeeds {d : Nat} (h : Succeeds w l t d) :
    ∃ n, ∀ rounds, n ≤ rounds → attempt w rounds l t = .result (.value (d * 1715 / 100000)) := by
  obtain ⟨m, n, hrise, hfall, hd⟩ := h
  refine ⟨m + n + 1, fun rounds hrounds => ?_⟩
  have hle : d ≤ 30000 := by
    have htime := hfall.inTime
    omega
  unfold attempt
  rw [poll_left hrise.quiet (hrise.times_in (Nat.le_succ t)) hrise.comes (by omega)]
  dsimp only
  unfold echoEnd
  rw [poll_left hfall.quiet (hfall.times_in (Nat.le_succ _)) hfall.comes (by omega)]
  dsimp only
  unfold World.usec
  rw [duration_eq hd hle]

theorem attempt_interrupted {l' t' : Nat} (h : Interrupted w l t l' t') :
    ∃ n, ∀ rounds, n ≤ rounds → attempt w rounds l t = .wraparoundError l' t' := by
  cases h with
  | before m h =>
    refine ⟨m + 1, fun rounds hrounds => ?_⟩
    unfold attempt
    rw [poll_wrapped h (by omega)]
  | within m n quiet inTime rises h =>
    refine ⟨m + n + 1, fun rounds hrounds => ?_⟩
    unfold attempt
    rw [poll_left quiet inTime rises (by omega)]
    dsimp only
    unfold echoEnd
    rw [poll_wrapped h (by omega)]

theorem attempt_ne_retrying (rounds l t : Nat) : attempt w rounds l t ≠ .result .retrying := by
  unfold attempt
  split
  · unfold echoEnd
    split
    all_goals nofun
  all_goals nofun

/-- The first boundary ends the method. -/
theorem distanceCm_not_retrying (rounds : Nat) : distanceCm w rounds 1 0 0 0 ≠ .retrying := by
  rw [distanceCm]
  split
  · rename_i r hattempt
    intro hretrying
    rw [hretrying] at hattempt
    exact attempt_ne_retrying rounds 0 0 hattempt
  · nofun

theorem Attempts.first_interrupted {k : Nat} (h : Attempts w (k + 1) l t) : ∃ l' t', Interrupted w 0 0 l' t' := by
  induction k generalizing l t with
  | zero =>
    cases h with
    | next h hinterrupted =>
      cases h
      exact ⟨_, _, hinterrupted⟩
  | succ k ih =>
    cases h with
    | next h _ => exact ih h

theorem not_returns_of_interrupted {l' t' : Nat} (h : Interrupted w 0 0 l' t') (cm : Int) : ¬ Returns w cm := by
  rintro ⟨n, hall⟩
  obtain ⟨m, hattempt⟩ := attempt_interrupted h
  have hvalue := hall (max m n) (n + 1) (Nat.le_max_right m n) (Nat.le_succ n)
  rw [distanceCm, hattempt _ (Nat.le_max_left m n)] at hvalue
  cases hvalue

end Polling

theorem measures_iff (w : World) :
    Measures w ↔ ∀ k, 0 < k → k < 4 → ∀ l t d, Attempts w k l t → ¬ Succeeds w l t d := by
  constructor
  · intro h k hpos hk l t d hattempts hsucceeds
    cases k with
    | zero => exact absurd hpos (Nat.lt_irrefl 0)
    | succ k =>
      obtain ⟨l', t', hinterrupted⟩ := hattempts.first_interrupted
      exact not_returns_of_interrupted hinterrupted _ (h.value (k + 1) hk l t d hattempts hsucceeds)
  · intro h
    refine ⟨fun k hk l t d hattempts hsucceeds => ?_, 1, distanceCm_not_retrying⟩
    cases k with
    | succ k => exact absurd hsucceeds (h (k + 1) k.succ_pos hk l t d hattempts)
    | zero =>
      cases hattempts
      obtain ⟨n, hattempt⟩ := attempt_succeeds hsucceeds
      refine ⟨n + 1, fun rounds retries hrounds hretries => ?_⟩
      obtain ⟨rest, rfl⟩ := Nat.exists_eq_add_of_le hretries
      rw [Nat.add_right_comm, distanceCm, hattempt rounds (by omega)]

/-- The second starts while the echo is awaited. The next attempt would see an echo of 1 ms. -/
def boundary : World where
  echo l := l == 1
  clock t := [999990, 1000005, 1000010, 1000020].getD t 1001020
  forward := by
    apply monotone_nat_of_le_succ
    intro t
    match t with
    | 0 | 1 | 2 | 3 => decide
    | t + 4 => exact Nat.le_refl _

theorem boundary_not_measured : ¬ Measures boundary := by
  intro h
  have hwrapped : Wrapped boundary true 0 0 1 0 := ⟨nofun, nofun, by decide, by decide⟩
  have hinterrupted : Interrupted boundary 0 0 1 2 := .before 0 hwrapped
  have hrise : Seen boundary true 2 1 3 0 := ⟨nofun, by decide, by decide⟩
  have hfall : Seen boundary false 3 2 4 0 := ⟨nofun, by decide, by decide⟩
  have hreturns := h.value 1 (by decide) 1 2 1000 (.next .first hinterrupted) ⟨0, 0, hrise, hfall, rfl⟩
  exact not_returns_of_interrupted hinterrupted _ hreturns

end PicoRuby.Hcsr04
