import PicoRuby.Debounce.Resolve

/-!
# Debouncing by row

A row has one record, of the key that was stored last. A change of a key is held back only while the record is
the key's own, so a key is debounced as long as the record has been its own whenever it bounces.
-/

namespace PicoRuby.Debounce

open Shared

set_option autoImplicit false

namespace DebouncePerRow

/-- What `resolve` can do. -/
inductive Resolved (d : DebouncePerRow) (pinVal : Bool) (inPin outPin : Nat) : Bool × DebouncePerRow → Prop where
  | first (h : hashGet d.prTable outPin = none) :
      Resolved d pinVal inPin outPin (pinVal, d.store outPin ⟨none, pinVal, d.now⟩)
  | held (status : RowStatus) (h : hashGet d.prTable outPin = some status) (hin : status.inPin = some inPin)
      (hval : status.pinVal = !pinVal) (hearly : d.now - status.time < d.threshold) :
      Resolved d pinVal inPin outPin (!pinVal, d)
  | recorded (status : RowStatus) (h : hashGet d.prTable outPin = some status) (hval : status.pinVal = !pinVal)
      (hlate : status.inPin = some inPin → d.threshold ≤ d.now - status.time) :
      Resolved d pinVal inPin outPin (pinVal, d.store outPin ⟨some inPin, pinVal, d.now⟩)
  | passed (status : RowStatus) (h : hashGet d.prTable outPin = some status)
      (hother : status.inPin = some inPin → status.pinVal = pinVal) : Resolved d pinVal inPin outPin (pinVal, d)

theorem resolve_resolved (d : DebouncePerRow) (pinVal : Bool) (inPin outPin : Nat) :
    Resolved d pinVal inPin outPin (d.resolve pinVal inPin outPin) := by
  unfold resolve
  cases h : hashGet d.prTable outPin with
  | none => exact .first h
  | some status =>
    dsimp only
    have hlate (hnot : ¬ (status.inPin = some inPin ∧ d.now - status.time < d.threshold))
        (hin : status.inPin = some inPin) : d.threshold ≤ d.now - status.time :=
      Int.not_lt.mp fun hlt => hnot ⟨hin, hlt⟩
    cases pinVal with
    | true =>
      rw [if_pos rfl]
      by_cases hother : status.pinVal = true ∨ status.inPin ≠ some inPin
      · rw [if_neg (not_not.mpr hother)]
        exact .passed status h fun hin => hother.resolve_right (not_not.mpr hin)
      · rw [if_pos hother]
        have hval : status.pinVal = !true := Bool.eq_false_iff.mpr fun hval => hother (Or.inl hval)
        by_cases hearly : status.inPin = some inPin ∧ d.now - status.time < d.threshold
        · rw [if_pos hearly]
          exact .held status h hearly.1 hval hearly.2
        · rw [if_neg hearly]
          exact .recorded status h hval (hlate hearly)
    | false =>
      rw [if_neg Bool.false_ne_true]
      by_cases hval : status.pinVal = true
      · rw [if_pos hval]
        by_cases hearly : status.inPin = some inPin ∧ d.now - status.time < d.threshold
        · rw [if_pos hearly]
          exact .held status h hearly.1 hval hearly.2
        · rw [if_neg hearly]
          exact .recorded status h hval (hlate hearly)
      · rw [if_neg hval]
        exact .passed status h fun _ => Bool.eq_false_iff.mpr hval

theorem read_resolved (d : DebouncePerRow) (r : Reading) :
    Resolved (d.setTime r.time) r.pinVal r.inPin r.outPin (read d r) := resolve_resolved _ _ _ _

/-! ## The record of a row -/

/-- The record belongs to the trace of its key: it holds what is reported, is not older than the last change, and
older than the level if that is another one. -/
structure Records (status : RowStatus) (t : Trace Bool) : Prop where
  output : t.output = status.pinVal
  changed : ∀ c ∈ t.changes.head?, c ≤ status.time
  level : t.level ≠ status.pinVal → status.time ≤ t.since

/-- Everything in a trace has happened by then. -/
structure Past (last : Int) (t : Trace Bool) : Prop where
  since : t.since ≤ last
  changed : ∀ c ∈ t.changes.head?, c ≤ last

/-- The table after some readings, the last of them at the time `last`. -/
structure Follows (threshold last : Int) (s : Session DebouncePerRow) : Prop where
  threshold : s.debouncer.threshold = threshold
  unseen (outPin : Nat) (h : hashGet s.debouncer.prTable outPin = none) (inPin : Nat) :
    Trace.of (signal inPin outPin s.log) = none
  record (outPin : Nat) (status : RowStatus) (h : hashGet s.debouncer.prTable outPin = some status) (inPin : Nat)
    (hin : status.inPin = some inPin) : ∃ t, Trace.of (signal inPin outPin s.log) = some t ∧ Records status t
  pastRecord (outPin : Nat) (status : RowStatus) (h : hashGet s.debouncer.prTable outPin = some status) :
    status.time ≤ last
  pastTrace (inPin outPin : Nat) : ∀ t ∈ Trace.of (signal inPin outPin s.log), Past last t

section Step
variable {threshold last time : Int} {s : Session DebouncePerRow} {r : Reading} {t : Trace Bool}
  {status : RowStatus} {level output : Bool} {inPin outPin : Nat}

theorem Past.next (h : Past last t) (hle : last ≤ time) (level output : Bool) :
    Past time (t.next ⟨time, level, output⟩) := by
  unfold Trace.next
  constructor
  · dsimp only
    split_ifs
    · exact Int.le_trans h.since hle
    · exact le_refl _
  · dsimp only
    split_ifs
    · exact fun c hc => Int.le_trans (h.changed c hc) hle
    · intro c hc
      cases hc
      exact le_refl _

theorem Past.extend {t : Option (Trace Bool)} (h : ∀ t' ∈ t, Past last t') (hle : last ≤ time)
    (level output : Bool) : ∀ t' ∈ Trace.extend t ⟨time, level, output⟩, Past time t' := by
  intro t' ht'
  cases t with
  | none =>
    obtain rfl := Option.some.inj ht'
    exact ⟨le_refl _, fun c hc => by cases hc⟩
  | some t =>
    obtain rfl := Option.some.inj ht'
    exact (h t rfl).next hle level output

/-- A record that stays belongs to the trace with the next sample, if that repeats what is reported. -/
theorem Records.next (h : Records status t) (hle : status.time ≤ time) (level : Bool) :
    Records status (t.next ⟨time, level, status.pinVal⟩) := by
  unfold Trace.next
  constructor
  · rfl
  · dsimp only
    rw [if_pos h.output.symm]
    exact h.changed
  · dsimp only
    intro hlevel
    split_ifs with hsame
    · exact h.level (hsame ▸ hlevel)
    · exact hle

/-- A record that is stored belongs to the trace with the sample. -/
theorem records_stored {t : Option (Trace Bool)} (h : ∀ t' ∈ t, Past last t') (hle : last ≤ time)
    (level : Bool) : ∃ t', Trace.extend t ⟨time, level, level⟩ = some t' ∧
      Records ⟨some inPin, level, time⟩ t' := by
  have hpast := Past.extend h hle level level
  cases t with
  | none => exact ⟨_, rfl, rfl, (hpast _ rfl).changed, fun hne => absurd rfl hne⟩
  | some t => exact ⟨_, rfl, rfl, (hpast _ rfl).changed, fun hne => absurd rfl hne⟩

/-- The parts of the table that a reading leaves alone, with a record of its key that may be stored. -/
theorem Follows.append (h : Follows threshold last s) (hle : last ≤ r.time) {d : DebouncePerRow} {output : Bool}
    (hthreshold : d.threshold = threshold)
    (hothers : ∀ outPin, outPin ≠ r.outPin → hashGet d.prTable outPin = hashGet s.debouncer.prTable outPin)
    (hrow : ∃ status, hashGet d.prTable r.outPin = some status ∧ status.time ≤ r.time ∧
      ∀ inPin, status.inPin = some inPin →
        ∃ t, Trace.of (signal inPin r.outPin (s.log ++ [(r, output)])) = some t ∧ Records status t) :
    Follows threshold r.time ⟨d, s.log ++ [(r, output)]⟩ := by
  obtain ⟨status, hstatus, htime, hrecord⟩ := hrow
  have hkept {outPin : Nat} (hne : outPin ≠ r.outPin) (inPin : Nat) :
      signal inPin outPin (s.log ++ [(r, output)]) = signal inPin outPin s.log := by
    rw [signal_append, if_neg fun hkey => hne hkey.2.symm, List.append_nil]
  constructor
  · exact hthreshold
  · intro outPin hnone inPin
    by_cases hout : outPin = r.outPin
    · subst hout
      cases hstatus.symm.trans hnone
    · rw [hkept hout]
      exact h.unseen outPin ((hothers outPin hout).symm.trans hnone) inPin
  · intro outPin status' hstatus' inPin hin
    by_cases hout : outPin = r.outPin
    · subst hout
      obtain rfl := Option.some.inj (hstatus.symm.trans hstatus')
      exact hrecord inPin hin
    · rw [hkept hout]
      exact h.record outPin status' ((hothers outPin hout).symm.trans hstatus') inPin hin
  · intro outPin status' hstatus'
    by_cases hout : outPin = r.outPin
    · subst hout
      obtain rfl := Option.some.inj (hstatus.symm.trans hstatus')
      exact htime
    · exact Int.le_trans (h.pastRecord outPin status' ((hothers outPin hout).symm.trans hstatus')) hle
  · intro inPin outPin t ht
    rw [signal_append] at ht
    split_ifs at ht with hkey
    · rw [Trace.of_append] at ht
      exact Past.extend (h.pastTrace inPin outPin) hle _ _ t ht
    · rw [List.append_nil] at ht
      have hpast := h.pastTrace inPin outPin t ht
      exact ⟨Int.le_trans hpast.since hle, fun c hc => Int.le_trans (hpast.changed c hc) hle⟩

theorem Follows.next (h : Follows threshold last s) (hle : last ≤ r.time) :
    Follows threshold r.time (s.next read r) := by
  have hresolved := read_resolved s.debouncer r
  unfold Session.next
  generalize read s.debouncer r = result at hresolved ⊢
  have hpast := h.pastTrace r.inPin r.outPin
  -- a record that is stored, and one that stays
  have hstored : ∀ inPin, some r.inPin = some inPin → ∃ t, Trace.of (signal inPin r.outPin
      (s.log ++ [(r, r.pinVal)])) = some t ∧ Records ⟨some r.inPin, r.pinVal, r.time⟩ t := by
    intro inPin hin
    obtain rfl := Option.some.inj hin
    rw [signal_append, if_pos ⟨rfl, rfl⟩, Trace.of_append]
    exact records_stored hpast hle r.pinVal
  have hstays {status : RowStatus} (hget : hashGet s.debouncer.prTable r.outPin = some status) {output : Bool}
      (houtput : status.inPin = some r.inPin → output = status.pinVal) : ∀ inPin, status.inPin = some inPin →
      ∃ t, Trace.of (signal inPin r.outPin (s.log ++ [(r, output)])) = some t ∧ Records status t := by
    intro inPin hin
    obtain ⟨t, ht, hrecords⟩ := h.record r.outPin status hget inPin hin
    rw [signal_append]
    by_cases hkey : r.inPin = inPin
    · subst hkey
      rw [if_pos ⟨rfl, rfl⟩, Trace.of_append, ht, houtput hin]
      exact ⟨_, rfl, hrecords.next (Int.le_trans (h.pastRecord _ _ hget) hle) r.pinVal⟩
    · rw [if_neg fun heq => hkey heq.1, List.append_nil]
      exact ⟨t, ht, hrecords⟩
  cases hresolved with
  | first hnone =>
    refine h.append hle h.threshold (fun _ hne => hashGet_hashSet_of_ne hne) ⟨_, hashGet_hashSet_self, le_refl _, ?_⟩
    exact fun _ hin => by cases hin
  | held status hget hin hval hearly =>
    exact h.append hle h.threshold (fun _ _ => rfl)
      ⟨status, hget, Int.le_trans (h.pastRecord _ _ hget) hle, hstays hget fun _ => hval.symm⟩
  | recorded status hget hval hlate =>
    exact h.append hle h.threshold (fun _ hne => hashGet_hashSet_of_ne hne)
      ⟨_, hashGet_hashSet_self, le_refl _, hstored⟩
  | passed status hget hother =>
    exact h.append hle h.threshold (fun _ _ => rfl)
      ⟨status, hget, Int.le_trans (h.pastRecord _ _ hget) hle, hstays hget fun hin => (hother hin).symm⟩

theorem Follows.records {status : RowStatus} (h : Follows threshold last s)
    (hget : hashGet s.debouncer.prTable r.outPin = some status) (hin : status.inPin = some r.inPin)
    (ht : Trace.of (signal r.inPin r.outPin s.log) = some t) : Records status t := by
  obtain ⟨t', ht', hrecords⟩ := h.record r.outPin status hget r.inPin hin
  obtain rfl := Option.some.inj (ht'.symm.trans ht)
  exact hrecords

/-- If the key is not what is reported so soon behind a change, the record is the key's own. -/
def Owned (threshold : Int) (s : Session DebouncePerRow) (r : Reading) : Prop :=
  ∀ t ∈ Trace.of (signal r.inPin r.outPin s.log), r.pinVal ≠ t.output →
    ∀ c ∈ t.changes.head?, r.time - c < threshold →
      ∃ status, hashGet s.debouncer.prTable r.outPin = some status ∧ status.inPin = some r.inPin

/-- Just the changes of keys that do not own the record come too soon. -/
theorem Follows.spaced_iff (h : Follows threshold last s) :
    (∀ t ∈ Trace.of (signal r.inPin r.outPin s.log),
      Spaced threshold t ⟨r.time, r.pinVal, (read s.debouncer r).1⟩) ↔ Owned threshold s r := by
  have hresolved := read_resolved s.debouncer r
  have hthreshold : (s.debouncer.setTime r.time).threshold = threshold := h.threshold
  constructor
  · intro hspaced t ht hval c hc hearly
    have houtput : (read s.debouncer r).1 ≠ r.pinVal := by
      intro heq
      have hlate := hspaced t ht (by rw [heq]; exact hval) c hc
      dsimp only at hlate
      omega
    generalize read s.debouncer r = result at hresolved houtput
    cases hresolved with
    | held status hget hin => exact ⟨status, hget, hin⟩
    | first | recorded | passed => exact absurd rfl houtput
  · intro howned t ht hchange c hc
    by_contra hearly
    rw [Int.not_le] at hearly
    -- a record of the key would have been stored by the last change
    have hown {status : RowStatus} (hget : hashGet s.debouncer.prTable r.outPin = some status)
        (hin : status.inPin = some r.inPin) : t.output = status.pinVal ∧ c ≤ status.time := by
      have hrecords := h.records hget hin ht
      exact ⟨hrecords.output, hrecords.changed c hc⟩
    have howner {status : RowStatus} (hget : hashGet s.debouncer.prTable r.outPin = some status)
        (hval : r.pinVal ≠ t.output) : status.inPin = some r.inPin := by
      obtain ⟨status', hget', hin⟩ := howned t ht hval c hc hearly
      obtain rfl := Option.some.inj (hget'.symm.trans hget)
      exact hin
    dsimp only at hchange hearly
    generalize read s.debouncer r = result at hresolved hchange
    cases hresolved with
    | first hnone =>
      rw [h.unseen r.outPin hnone r.inPin] at ht
      cases ht
    | held status hget hin hval =>
      apply hchange
      rw [(hown hget hin).1, hval]
    | recorded status hget hval hlate =>
      have hin := howner hget hchange
      have htime := (hown hget hin).2
      have hlate := hlate hin
      rw [hthreshold] at hlate
      have hnow : r.time - status.time ≥ threshold := hlate
      omega
    | passed status hget hother =>
      have hin := howner hget hchange
      apply hchange
      rw [(hown hget hin).1, hother hin]

/-- A level that has been held for the threshold is reported. -/
theorem Follows.reportsHeld (h : Follows threshold last s) :
    ∀ t ∈ Trace.of (signal r.inPin r.outPin s.log),
      ReportsHeld threshold t ⟨r.time, r.pinVal, (read s.debouncer r).1⟩ := by
  intro t ht hlevel hlong
  have hresolved := read_resolved s.debouncer r
  dsimp only at hlevel hlong ⊢
  generalize read s.debouncer r = result at hresolved ⊢
  cases hresolved with
  | first | recorded | passed => rfl
  | held status hget hin hval hearly =>
    have hrecords := h.records hget hin ht
    have hother : t.level ≠ status.pinVal := by
      rw [← hlevel, hval]
      cases r.pinVal <;> decide
    have hsince := hrecords.level hother
    have hearly' : r.time - status.time < s.debouncer.threshold := hearly
    rw [h.threshold] at hearly'
    omega

end Step

/-! ## Runs -/

section Runs
variable {threshold : Int} {readings : List Reading} {r : Reading}

/-- The readings are in the order of their times. -/
def Chronological (readings : List Reading) : Prop := readings.Pairwise fun r r' => r.time ≤ r'.time

instance (readings : List Reading) : Decidable (Chronological readings) :=
  inferInstanceAs (Decidable (List.Pairwise _ _))

theorem run_follows (threshold : Int) (h : Chronological (readings ++ [r])) :
    ∃ last ≤ r.time, Follows threshold last (run read (init threshold) readings) := by
  induction readings using List.reverseRecOn generalizing r with
  | nil =>
    refine ⟨r.time, Int.le_refl _, rfl, fun _ _ _ => rfl, ?_, ?_, ?_⟩
    · intro _ _ hget
      cases hget
    · intro _ _ hget
      cases hget
    · intro _ _ _ ht
      cases ht
  | append_singleton readings r' ih =>
    have hpairs := List.pairwise_append.mp h
    obtain ⟨last, hle, hfollows⟩ := ih hpairs.1
    rw [run_append]
    exact ⟨r'.time, hpairs.2.2 r' (by simp) r (by simp), hfollows.next hle⟩

/-- In every reading the record is owned where it has to be. -/
def AlwaysOwned (threshold : Int) (readings : List Reading) : Prop :=
  ∀ before r, before ++ [r] <+: readings → Owned threshold (run read (init threshold) before) r

theorem alwaysOwned_append : AlwaysOwned threshold (readings ++ [r]) ↔
    AlwaysOwned threshold readings ∧ Owned threshold (run read (init threshold) readings) r := by
  constructor
  · intro h
    exact ⟨fun before r' hpre => h before r' (hpre.trans (List.prefix_append _ _)),
      h readings r (List.prefix_refl _)⟩
  · rintro ⟨h, hlast⟩ before r' hpre
    rcases List.prefix_concat_iff.mp hpre with heq | hpre
    · obtain ⟨rfl, hr⟩ := List.append_inj' heq rfl
      cases hr
      exact hlast
    · exact h before r' hpre

/-- A law of the samples of all keys holds behind a reading if it did before and the reading of the key obeys it. -/
theorem forall_atEach_append {P : Trace Bool → Sample Bool → Prop} :
    (∀ inPin outPin, AtEach P (signal inPin outPin (run read (init threshold) (readings ++ [r])).log)) ↔
      (∀ inPin outPin, AtEach P (signal inPin outPin (run read (init threshold) readings).log)) ∧
        ∀ t ∈ Trace.of (signal r.inPin r.outPin (run read (init threshold) readings).log),
          P t ⟨r.time, r.pinVal, (read (run read (init threshold) readings).debouncer r).1⟩ := by
  rw [run_append]
  unfold Session.next
  constructor
  · intro h
    constructor
    · intro inPin outPin
      have hkey := h inPin outPin
      rw [signal_append] at hkey
      split_ifs at hkey
      · exact (atEach_append.mp hkey).1
      · rw [List.append_nil] at hkey
        exact hkey
    · have hkey := h r.inPin r.outPin
      rw [signal_append, if_pos ⟨rfl, rfl⟩] at hkey
      exact (atEach_append.mp hkey).2
  · rintro ⟨h, hlast⟩ inPin outPin
    rw [signal_append]
    split_ifs with hkey
    · obtain ⟨rfl, rfl⟩ := hkey
      exact atEach_append.mpr ⟨h _ _, hlast⟩
    · rw [List.append_nil]
      exact h inPin outPin

theorem spaced_iff (h : Chronological readings) :
    (∀ inPin outPin, AtEach (Spaced threshold) (signal inPin outPin (run read (init threshold) readings).log)) ↔
      AlwaysOwned threshold readings := by
  induction readings using List.reverseRecOn with
  | nil => exact iff_of_true (fun _ _ => AtEach.nil) fun before r hpre => by simp at hpre
  | append_singleton readings r ih =>
    obtain ⟨last, -, hfollows⟩ := run_follows threshold h
    rw [forall_atEach_append, alwaysOwned_append, ih (List.pairwise_append.mp h).1, hfollows.spaced_iff]

theorem reportsHeld (h : Chronological readings) (inPin outPin : Nat) :
    AtEach (ReportsHeld threshold) (signal inPin outPin (run read (init threshold) readings).log) := by
  revert inPin outPin
  induction readings using List.reverseRecOn with
  | nil => exact fun _ _ => AtEach.nil
  | append_singleton readings r ih =>
    obtain ⟨last, -, hfollows⟩ := run_follows threshold h
    exact forall_atEach_append.mpr ⟨ih (List.pairwise_append.mp h).1, hfollows.reportsHeld⟩

end Runs

/-- Each key of each row changes at most once in a short window, and is reported as it has been held. -/
def Debounces (threshold : Int) (readings : List Reading) : Prop :=
  ∀ inPin outPin, OncePerWindow threshold (signal inPin outPin (run read (init threshold) readings).log) ∧
    AtEach (ReportsHeld threshold) (signal inPin outPin (run read (init threshold) readings).log)

/-- **Debouncing by row.** A run is debounced if and only if the record is the key's own whenever a key is not what
is reported so soon behind a change. -/
theorem debounces_iff (threshold : Int) (readings : List Reading) (h : Chronological readings) :
    Debounces threshold readings ↔ AlwaysOwned threshold readings := by
  rw [← spaced_iff h]
  constructor
  · intro hall inPin outPin
    exact (oncePerWindow_iff (signal_inOrder _ h)).mp (hall inPin outPin).1
  · intro hall inPin outPin
    exact ⟨(oncePerWindow_iff (signal_inOrder _ h)).mpr (hall inPin outPin), reportsHeld h inPin outPin⟩

/-- The key 3 bounces while the key 2 of its row is held. -/
def bouncingReadings : List Reading :=
  [⟨0, 2, 6, true⟩, ⟨0, 3, 6, true⟩, ⟨20, 2, 6, false⟩, ⟨20, 3, 6, true⟩, ⟨40, 2, 6, false⟩, ⟨40, 3, 6, false⟩,
    ⟨60, 2, 6, false⟩, ⟨60, 3, 6, true⟩]

theorem debounces_bouncing_iff : Debounces 40 bouncingReadings ↔ AlwaysOwned 40 bouncingReadings :=
  debounces_iff 40 bouncingReadings (by decide)

/-- The bounce of the second key is reported, and so is that of the only key of a row if it is held at the start. -/
theorem bounces_reported :
    ¬ Debounces 40 bouncingReadings ∧ ¬ Debounces 40 [⟨0, 2, 6, false⟩, ⟨20, 2, 6, true⟩, ⟨40, 2, 6, false⟩] := by
  constructor
  · intro h
    have hchanges := (h 3 6).1 _ rfl
    exact absurd hchanges (by decide)
  · intro h
    have hchanges := (h 2 6).1 _ rfl
    exact absurd hchanges (by decide)

end DebouncePerRow

end PicoRuby.Debounce
