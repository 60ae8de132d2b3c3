import PicoRuby.Debounce.Resolve

/-!
# Debouncing by key

The table has one entry for each key, which is the trace of the key: so each key is debounced by itself.
-/

namespace PicoRuby.Debounce

open Shared

set_option autoImplicit false

namespace DebouncePerKey

/-- What the table keeps of a trace. -/
def statusOf (t : Trace Bool) : KeyStatus := ⟨t.output, t.settled⟩

/-- The entries are the traces of the keys. -/
structure Follows (threshold : Int) (s : Session DebouncePerKey) : Prop where
  threshold : s.debouncer.threshold = threshold
  table (inPin outPin : Nat) (hout : outPin < 256) : hashGet s.debouncer.pkTable (keyOf inPin outPin) =
    (Trace.of (signal inPin outPin s.log)).map statusOf

section Step
variable {threshold : Int} {s : Session DebouncePerKey} {r : Reading} {inPin outPin inPin' outPin' : Nat}

theorem keyOf_eq (hout : outPin < 256) : keyOf inPin outPin = 256 * inPin + outPin := by
  unfold keyOf
  rw [← Nat.shiftLeft_add_eq_or_of_lt hout, Nat.shiftLeft_eq, Nat.mul_comm]

/-- Different keys have different entries. -/
theorem keyOf_inj (hout : outPin < 256) (hout' : outPin' < 256) (h : keyOf inPin outPin = keyOf inPin' outPin') :
    inPin = inPin' ∧ outPin = outPin' := by
  rw [keyOf_eq hout, keyOf_eq hout'] at h
  omega

/-- What is returned, and what becomes of the entry of the key. -/
theorem resolve_eq (d : DebouncePerKey) (pinVal : Bool) (t : Option (Trace Bool))
    (h : hashGet d.pkTable (keyOf inPin outPin) = t.map statusOf) :
    let output := eagerOutput d.threshold d.now pinVal t
    (d.resolve pinVal inPin outPin).1 = output ∧
      (d.resolve pinVal inPin outPin).2.threshold = d.threshold ∧
      (∀ key, key ≠ keyOf inPin outPin →
        hashGet (d.resolve pinVal inPin outPin).2.pkTable key = hashGet d.pkTable key) ∧
      hashGet (d.resolve pinVal inPin outPin).2.pkTable (keyOf inPin outPin) =
        (Trace.extend t ⟨d.now, pinVal, output⟩).map statusOf := by
  unfold resolve
  dsimp only
  rw [h]
  cases t with
  | none =>
    exact ⟨rfl, rfl, fun key hkey => hashGet_hashSet_of_ne hkey, hashGet_hashSet_self⟩
  | some t =>
    have hkept (level : Bool) : (t.next ⟨d.now, level, t.output⟩).output = t.output ∧
        (t.next ⟨d.now, level, t.output⟩).settled = t.settled := Trace.next_same rfl
    rw [Option.map_some] at h ⊢
    dsimp only [statusOf, eagerOutput, Trace.extend, Option.elim_some, Option.map_some] at h ⊢
    by_cases hsame : t.output = pinVal
    · -- the level is the one that is reported
      subst hsame
      rw [if_neg (by simp), if_neg (by simp)]
      refine ⟨rfl, rfl, fun _ _ => rfl, ?_⟩
      rw [h, (hkept _).1, (hkept _).2]
    · have hother : (!pinVal) = t.output := by
        revert hsame
        cases pinVal <;> cases t.output <;> decide
      rw [if_pos hsame]
      by_cases hearly : d.now - t.settled < d.threshold
      · rw [if_pos hearly, if_pos ⟨Ne.symm hsame, hearly⟩]
        refine ⟨hother, rfl, fun _ _ => rfl, ?_⟩
        rw [h, (hkept _).1, (hkept _).2]
      · rw [if_neg hearly, if_neg fun hheld => hearly hheld.2]
        refine ⟨rfl, rfl, fun key hkey => hashGet_hashSet_of_ne hkey, ?_⟩
        have hsettled : (t.next ⟨d.now, pinVal, pinVal⟩).settled = d.now :=
          Trace.next_changed (Ne.symm hsame)
        rw [hsettled]
        exact hashGet_hashSet_self

theorem Follows.next (h : Follows threshold s) (hout : r.outPin < 256) : Follows threshold (s.next read r) ∧
    (s.next read r).log = s.log ++ [(r, eagerOutput threshold r.time r.pinVal
      (Trace.of (signal r.inPin r.outPin s.log)))] := by
  obtain ⟨houtput, hthreshold, hothers, hself⟩ :=
    resolve_eq (s.debouncer.setTime r.time) r.pinVal _ (h.table r.inPin r.outPin hout)
  have hset : (s.debouncer.setTime r.time).threshold = threshold := h.threshold
  rw [hset] at houtput hself hthreshold
  have hlog : (s.next read r).log = s.log ++ [(r, eagerOutput threshold r.time r.pinVal
      (Trace.of (signal r.inPin r.outPin s.log)))] :=
    congrArg (fun output => s.log ++ [(r, output)]) houtput
  refine ⟨⟨hthreshold, fun inPin outPin hout' => ?_⟩, hlog⟩
  rw [hlog, signal_append]
  by_cases hkey : r.inPin = inPin ∧ r.outPin = outPin
  · obtain ⟨rfl, rfl⟩ := hkey
    rw [if_pos ⟨rfl, rfl⟩, Trace.of_append]
    exact hself
  · rw [if_neg hkey, List.append_nil, ← h.table inPin outPin hout']
    apply hothers
    intro heq
    obtain ⟨hin, hout⟩ := keyOf_inj hout' hout heq
    exact hkey ⟨hin.symm, hout.symm⟩

end Step

section Runs
variable {threshold : Int} {readings : List Reading}

/-- Each key is debounced as if it were alone. -/
theorem run_follows (threshold : Int) (hout : ∀ r ∈ readings, r.outPin < 256) :
    Follows threshold (run read (init threshold) readings) ∧ ∀ inPin outPin,
      signal inPin outPin (run read (init threshold) readings).log =
        eager threshold (levels inPin outPin readings) := by
  induction readings using List.reverseRecOn with
  | nil => exact ⟨⟨rfl, fun _ _ _ => rfl⟩, fun _ _ => rfl⟩
  | append_singleton readings r ih =>
    rw [List.forall_mem_append, List.forall_mem_singleton] at hout
    obtain ⟨hfollows, hsignal⟩ := ih hout.1
    obtain ⟨hnext, hlog⟩ := hfollows.next hout.2
    rw [run_append]
    refine ⟨hnext, fun inPin outPin => ?_⟩
    rw [hlog, signal_append, levels_append]
    by_cases hkey : r.inPin = inPin ∧ r.outPin = outPin
    · obtain ⟨rfl, rfl⟩ := hkey
      rw [if_pos ⟨rfl, rfl⟩, if_pos ⟨rfl, rfl⟩, eager_append, hsignal]
    · rw [if_neg hkey, if_neg hkey, List.append_nil, List.append_nil, hsignal]

end Runs

/-- **Debouncing by key.** For whatever is read of any keys: the report of a key changes to its level only, changes
are at least the threshold apart, once the threshold has passed since the last change or the first reading the
level is reported at once, and what is read of other keys makes no difference. -/
theorem debounces (threshold : Int) (readings : List Reading)
    (hpins : ∀ r ∈ readings, r.inPin < 256 ∧ r.outPin < 256) (inPin outPin : Nat) :
    AtEach (Prompt threshold) (signal inPin outPin (run read (init threshold) readings).log) ∧
      AtEach (Spaced threshold) (signal inPin outPin (run read (init threshold) readings).log) ∧
      ∀ readings' : List Reading, (∀ r ∈ readings', r.inPin < 256 ∧ r.outPin < 256) →
        levels inPin outPin readings' = levels inPin outPin readings →
        signal inPin outPin (run read (init threshold) readings').log =
          signal inPin outPin (run read (init threshold) readings).log := by
  have hsignal := (run_follows threshold fun r hr => (hpins r hr).2).2 inPin outPin
  rw [hsignal]
  refine ⟨eager_prompt _, eager_spaced _, fun readings' hpins' hlevels => ?_⟩
  rw [(run_follows threshold fun r hr => (hpins' r hr).2).2, hlevels]

/-- A key bounces while its neighbour is pressed. -/
def bouncingReadings : List Reading :=
  [⟨0, 2, 6, true⟩, ⟨0, 3, 6, true⟩, ⟨20, 2, 6, false⟩, ⟨20, 3, 6, false⟩, ⟨40, 2, 6, true⟩, ⟨40, 3, 6, false⟩,
    ⟨60, 2, 6, true⟩, ⟨60, 3, 6, false⟩]

theorem debounces_bouncing :
    AtEach (Prompt 40) (signal 2 6 (run read (init 40) bouncingReadings).log) ∧
      AtEach (Spaced 40) (signal 2 6 (run read (init 40) bouncingReadings).log) ∧
      ∀ readings' : List Reading, (∀ r ∈ readings', r.inPin < 256 ∧ r.outPin < 256) →
        levels 2 6 readings' = levels 2 6 bouncingReadings →
        signal 2 6 (run read (init 40) readings').log = signal 2 6 (run read (init 40) bouncingReadings).log :=
  debounces 40 bouncingReadings (by decide) 2 6

end DebouncePerKey

end PicoRuby.Debounce
