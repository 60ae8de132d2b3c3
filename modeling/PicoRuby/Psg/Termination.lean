import Mathlib.Logic.Relation
import PicoRuby.Psg.Skimming

/-!
# The end of a call

The loop of `reduce_next` takes one command after the other, so that it comes to a note that breaks it or to the end of
the track, where a looped track goes back to the segno. From there on it ends if a note or a rest gives an event, its
own or one that waits for it.
-/

namespace PicoRuby.Psg

open Shared

set_option autoImplicit false

namespace Mml

/-! ## Reading behind the segno -/

section Statement
variable (F : Type) [MmlFloat F]

/-- A place in the track, and the clock with which it is read. -/
structure Reading where
  cursor : Nat
  clock : Clock

def Reading.next (track : Bytes) (r : Reading) : Option Reading :=
  match byteAt track r.cursor with
  | none => none
  | some c =>
    match r.clock.after F track c r.cursor with
    | .ok clock => some ⟨lastByte track c r.cursor + 1, clock⟩
    | .error _ => none

def Reading.Comes (track : Bytes) (r r' : Reading) : Prop :=
  Relation.ReflTransGen (fun r r' => r.next F track = some r') r r'

/-- The command at the place gives an event. -/
def Reading.Pushes (track : Bytes) (r : Reading) : Prop :=
  ∃ c, byteAt track r.cursor = some c ∧ pushes track c r.cursor = true

def Reading.AtNote (track : Bytes) (r : Reading) : Prop := ∃ c, byteAt track r.cursor = some c ∧ isNote c = true

/-- At a note or a rest of a millisecond or more. -/
def Reading.Lasts (track : Bytes) (r : Reading) : Prop :=
  ∃ c length, byteAt track r.cursor = some c ∧ r.clock.duration F track c r.cursor = .ok length ∧ 0 < length

/-- Behind the segno there is a note or a rest, and an event waits for it, a command in front of it gives one, or it
lasts. -/
def Heard (m : Mml) : Prop :=
  ∃ r, Reading.Comes F m.track ⟨m.segnoPos, m.clock⟩ r ∧ r.AtNote m.track ∧
    (m.eventQueue ≠ [] ∨
      (∃ p : Reading, Reading.Comes F m.track ⟨m.segnoPos, m.clock⟩ p ∧ p.Pushes m.track ∧
        Reading.Comes F m.track p r) ∨
      r.Lasts F m.track)

/-- The passes that neither break the loop nor go back. -/
def Reads (m m' : Mml) : Prop := Relation.ReflTransGen (fun m m' => m.pass F false = .ok (m', false)) m m'

/-- When the call comes to the end of a looped track, it is heard behind the segno. -/
def GoesOn (loop : Bool) (m : Mml) : Prop :=
  ∀ m', Reads F { m with modRate := none } m' → m'.getbyte m'.cursor = none → loop = true → 0 < m'.segnoPos →
    Heard F m'

/-- The parsers that the calls for a track leave. -/
inductive Called (trackId : Nat) (track : Bytes) (exception loop : Bool) : Mml → Prop where
  | new {m : Mml} (h : Mml.new F trackId track exception = .ok m) : Called trackId track exception loop m
  | call {m m' : Mml} {e : Event} {fuel : Nat} (h : Called trackId track exception loop m)
      (hcall : m.reduceNext F loop fuel = .ok (some (e, m'))) : Called trackId track exception loop m'

/-- Some number of passes is enough. -/
def Ends (loop : Bool) (m : Mml) : Prop := ∃ fuel, m.reduceNext F loop fuel ≠ .error .endless

/-- The loop ends from here. -/
def PassesEnd (loop : Bool) (m : Mml) : Prop := ∃ fuel, passes F loop fuel m ≠ .error .endless

end Statement

/-! ## One pass -/

section Pass
variable {F : Type} [MmlFloat F] {m m' : Mml} {loop : Bool} {c : Nat}

def reading (m : Mml) : Reading := ⟨m.cursor, m.clock⟩

theorem isNote_iff : isNote c = true ↔ (97 ≤ c ∧ c ≤ 103) ∨ c = 114 := by simp [isNote]

theorem pass_eq_of_byte (h : m.getbyte m.cursor = some c) : m.pass F loop = m.pass F false := by
  unfold pass
  rw [h]

theorem pass_onward (h : m.pass F false = .ok (m', false)) : m.pass F loop = .ok (m', false) := by
  have hlt := (pass_cases h).onward.2.1
  cases hbyte : m.getbyte m.cursor with
  | none =>
    rw [getbyte_eq_none] at hbyte
    omega
  | some c => rw [pass_eq_of_byte hbyte, h]

theorem pass_note (hbyte : byteAt m.track m.cursor = some c) (hnote : isNote c = true)
    (h : m.pass F loop = .ok (m', false)) : m.note F c = .ok m' ∧ m'.eventQueue = [] := by
  have hbyte : m.getbyte m.cursor = some c := hbyte
  unfold pass at h
  rw [hbyte] at h
  dsimp only at h
  rw [if_pos (isNote_iff.mp hnote)] at h
  obtain ⟨noted, hnoted, hret⟩ := bind_eq_ok.mp h
  have hresult := Except.ok.inj hret
  have hstop := congrArg Prod.snd hresult
  cases congrArg Prod.fst hresult
  exact ⟨hnoted, List.isEmpty_iff.mp (by simpa using hstop)⟩

theorem pass_command (hbyte : byteAt m.track m.cursor = some c) (hnote : isNote c = false)
    (h : m.pass F loop = .ok (m', false)) : ∃ done, m.command F c = .ok done ∧ m' = done.move 1 := by
  have hbyte : m.getbyte m.cursor = some c := hbyte
  have hnot : ¬ ((97 ≤ c ∧ c ≤ 103) ∨ c = 114) := by
    rw [← isNote_iff, hnote]
    exact Bool.false_ne_true
  unfold pass at h
  rw [hbyte] at h
  dsimp only at h
  rw [if_neg hnot] at h
  obtain ⟨done, hdone, hret⟩ := bind_eq_ok.mp h
  exact ⟨done, hdone, (congrArg Prod.fst (Except.ok.inj hret)).symm⟩

/-- The parser reads what is read ahead, and what waits goes on waiting. -/
theorem pass_reads (h : m.pass F false = .ok (m', false)) :
    m.reading.next F m.track = some m'.reading ∧ m'.track = m.track ∧
      (m.eventQueue ≠ [] ∨ m.reading.Pushes m.track → m'.eventQueue ≠ []) := by
  have hcases := pass_cases h
  have hlt := hcases.onward.2.1
  have htrack := hcases.track
  obtain ⟨c, hbyte⟩ : ∃ c, byteAt m.track m.cursor = some c := by
    cases hbyte : m.getbyte m.cursor with
    | none =>
      rw [getbyte_eq_none] at hbyte
      omega
    | some c => exact ⟨c, hbyte⟩
  have hnext (k : Clock) (hk : m.clock.after F m.track c m.cursor = .ok k) :
      m.reading.next F m.track = some ⟨lastByte m.track c m.cursor + 1, k⟩ := by
    have hbyte' : byteAt m.track m.reading.cursor = some c := hbyte
    have hk' : m.reading.clock.after F m.track c m.reading.cursor = .ok k := hk
    unfold Reading.next
    rw [hbyte']
    dsimp only
    rw [hk']
    rfl
  cases hnote : isNote c with
  | true =>
    obtain ⟨hnoted, hempty⟩ := pass_note hbyte hnote h
    obtain ⟨hcursor, hclock, -⟩ := note_skims hnote hnoted
    have hafter : m.clock.after F m.track c m.cursor = .ok m.clock := by
      have hrange := isNote_iff.mp hnote
      unfold Clock.after
      dsimp only
      rw [if_neg (by omega), if_neg (by omega)]
      rfl
    refine ⟨?_, htrack, ?_⟩
    · rw [hnext _ hafter, ← hcursor, ← hclock]
      rfl
    · rintro (hqueue | ⟨d, hd, hpush⟩)
      · obtain ⟨new, hadvances, -⟩ := note_advances hnoted
        rw [hadvances.queue]
        exact List.append_ne_nil_of_left_ne_nil hqueue _
      · have hd : byteAt m.track m.cursor = some d := hd
        rw [hbyte] at hd
        cases hd
        have hrange := isNote_iff.mp hnote
        simp only [pushes, Bool.or_eq_true, beq_iff_eq, Bool.and_eq_true] at hpush
        omega
  | false =>
    obtain ⟨done, hdone, rfl⟩ := pass_command hbyte hnote h
    have hskims := command_skims hnote hdone
    refine ⟨?_, htrack, ?_⟩
    · rw [hnext _ hskims.clock, ← hskims.cursor]
      rfl
    · rintro (hqueue | ⟨d, hd, hpush⟩)
      · obtain ⟨new, hadvances⟩ := command_advances hdone
        have hdone : done.eventQueue ≠ [] := by
          rw [hadvances.queue]
          exact List.append_ne_nil_of_left_ne_nil hqueue _
        exact hdone
      · have hd : byteAt m.track m.cursor = some d := hd
        rw [hbyte] at hd
        cases hd
        exact hskims.pushes hpush

/-- A note breaks the loop when an event waits or when it lasts, or something is raised. -/
theorem pass_breaks (hnote : m.reading.AtNote m.track) (h : m.eventQueue ≠ [] ∨ m.reading.Lasts F m.track) :
    ∀ m', m.pass F loop ≠ .ok (m', false) := by
  obtain ⟨c, hbyte, hnote⟩ := hnote
  intro m' hpass
  obtain ⟨hnoted, hempty⟩ := pass_note hbyte hnote hpass
  rcases h with hqueue | ⟨d, length, hd, hduration, hpos⟩
  · obtain ⟨new, hadvances, -⟩ := note_advances hnoted
    rw [hadvances.queue] at hempty
    exact hqueue (List.append_eq_nil_iff.mp hempty).1
  · rw [hbyte] at hd
    cases hd
    exact (note_skims hnote hnoted).2.2 length hduration hpos hempty

end Pass

/-! ## Passes to the end -/

section Passing
variable {F : Type} [MmlFloat F] {m m' : Mml} {loop : Bool}

theorem passesEnd_of_pass (h : ∀ m', m.pass F loop ≠ .ok (m', false)) : PassesEnd F loop m := by
  refine ⟨1, ?_⟩
  unfold passes
  cases hpass : m.pass F loop with
  | error e =>
    intro heq
    cases heq
  | ok result =>
    obtain ⟨next, stop⟩ := result
    cases stop with
    | true =>
      intro heq
      cases heq
    | false => exact absurd hpass (h next)

theorem passesEnd_of_next (hpass : m.pass F loop = .ok (m', false)) (h : PassesEnd F loop m') :
    PassesEnd F loop m := by
  obtain ⟨fuel, hfuel⟩ := h
  refine ⟨fuel + 1, ?_⟩
  unfold passes
  rw [hpass]
  exact hfuel

theorem passesEnd_of_reads (hreads : Reads F m m') (h : PassesEnd F loop m') : PassesEnd F loop m := by
  induction hreads using Relation.ReflTransGen.head_induction_on with
  | refl => exact h
  | head hpass _ ih => exact passesEnd_of_next (pass_onward hpass) ih

/-- Each pass takes a byte, so that the end of the track is reached unless the loop ends before. -/
theorem reads_to_end (n : Nat) (h : m.track.length - m.cursor ≤ n) :
    PassesEnd F loop m ∨ ∃ m', Reads F m m' ∧ m'.getbyte m'.cursor = none := by
  induction n generalizing m with
  | zero => exact Or.inr ⟨m, Relation.ReflTransGen.refl, getbyte_eq_none.mpr (by omega)⟩
  | succ n ih =>
    cases hbyte : m.getbyte m.cursor with
    | none => exact Or.inr ⟨m, Relation.ReflTransGen.refl, hbyte⟩
    | some c =>
      by_cases hnext : ∃ m', m.pass F false = .ok (m', false)
      · obtain ⟨m', hpass⟩ := hnext
        have hcases := pass_cases hpass
        obtain ⟨-, hlt, hcursor⟩ := hcases.onward
        have htrack := hcases.track
        rcases ih (m := m') (by rw [htrack]; omega) with hends | ⟨m'', hreads, hend⟩
        · exact Or.inl (passesEnd_of_next (pass_onward hpass) hends)
        · exact Or.inr ⟨m'', Relation.ReflTransGen.head hpass hreads, hend⟩
      · left
        apply passesEnd_of_pass
        intro m' hpass
        rw [pass_eq_of_byte hbyte] at hpass
        exact hnext ⟨m', hpass⟩

/-- What can be read ahead is reached by the parser, unless the loop ends before. -/
theorem reads_ahead {track : Bytes} {r r' : Reading} (hcomes : Reading.Comes F track r r') : ∀ m : Mml,
    m.track = track → m.reading = r → PassesEnd F loop m ∨ ∃ m', Reads F m m' ∧ m'.track = track ∧ m'.reading = r' ∧
      (m.eventQueue ≠ [] → m'.eventQueue ≠ []) := by
  induction hcomes using Relation.ReflTransGen.head_induction_on with
  | refl => exact fun m htrack hreading => Or.inr ⟨m, Relation.ReflTransGen.refl, htrack, hreading, id⟩
  | @head r s hnext _ ih =>
    rintro m htrack rfl
    by_cases hpass : ∃ m', m.pass F false = .ok (m', false)
    · obtain ⟨m', hpass⟩ := hpass
      obtain ⟨hreads, htrack', hqueue⟩ := pass_reads hpass
      rw [htrack, hnext] at hreads
      rcases ih m' (htrack'.trans htrack) (Option.some.inj hreads).symm with hends | ⟨m'', hm'', htrack'', hr', hqueue'⟩
      · exact Or.inl (passesEnd_of_next (pass_onward hpass) hends)
      · refine Or.inr ⟨m'', Relation.ReflTransGen.head hpass hm'', htrack'', hr', ?_⟩
        exact fun h => hqueue' (hqueue (Or.inl h))
    · left
      apply passesEnd_of_pass
      intro m' hm'
      obtain ⟨c, hbyte⟩ : ∃ c, m.getbyte m.cursor = some c := by
        rw [← htrack] at hnext
        unfold Reading.next at hnext
        cases hbyte : m.getbyte m.cursor with
        | none =>
          have hbyte' : byteAt m.track m.reading.cursor = none := hbyte
          rw [hbyte'] at hnext
          cases hnext
        | some c => exact ⟨c, rfl⟩
      rw [pass_eq_of_byte hbyte] at hm'
      exact hpass ⟨m', hm'⟩

/-- A command that gives an event is a pass, unless the loop ends there. -/
theorem pushes_pass (h : m.reading.Pushes m.track) :
    PassesEnd F loop m ∨ ∃ m', m.pass F false = .ok (m', false) ∧ m'.eventQueue ≠ [] := by
  by_cases hpass : ∃ m', m.pass F false = .ok (m', false)
  · obtain ⟨m', hpass⟩ := hpass
    exact Or.inr ⟨m', hpass, (pass_reads hpass).2.2 (Or.inr h)⟩
  · left
    apply passesEnd_of_pass
    intro m' hm'
    obtain ⟨c, hbyte, -⟩ := h
    rw [pass_eq_of_byte hbyte] at hm'
    exact hpass ⟨m', hm'⟩

/-- The loop ends at a note that can be read ahead. -/
theorem passesEnd_of_note {track : Bytes} {r r' : Reading} (hcomes : Reading.Comes F track r r')
    (hnote : r'.AtNote track) (m : Mml) (htrack : m.track = track) (hreading : m.reading = r)
    (h : m.eventQueue ≠ [] ∨ r'.Lasts F track) : PassesEnd F loop m := by
  have hahead : PassesEnd F loop m ∨ _ := reads_ahead hcomes m htrack hreading
  rcases hahead with hends | ⟨m', hreads, htrack', rfl, hwaits⟩
  · exact hends
  · apply passesEnd_of_reads hreads
    apply passesEnd_of_pass
    rw [← htrack'] at hnote h
    exact pass_breaks hnote (h.imp_left hwaits)

/-- A command that gives an event is no note, so that a note is read behind it. -/
theorem comes_behind {track : Bytes} {p q r : Reading} (hpush : p.Pushes track) (hnote : r.AtNote track)
    (hr : Reading.Comes F track p r) (hnext : p.next F track = some q) : Reading.Comes F track q r := by
  rcases Relation.ReflTransGen.cases_head hr with rfl | ⟨s, hs, hrest⟩
  · obtain ⟨c, hc, hnote⟩ := hnote
    obtain ⟨d, hd, hpush⟩ := hpush
    rw [hc] at hd
    cases hd
    have hrange := isNote_iff.mp hnote
    simp only [pushes, Bool.or_eq_true, beq_iff_eq, Bool.and_eq_true] at hpush
    omega
  · rw [hnext] at hs
    cases hs
    exact hrest

/-- Behind the segno the loop ends. -/
theorem Heard.passesEnd (h : Heard F m) : PassesEnd F loop { m with cursor := m.segnoPos } := by
  obtain ⟨r, hcomes, hnote, h⟩ := h
  rcases h with hqueue | ⟨p, hp, hpush, hr⟩ | hlasts
  · exact passesEnd_of_note hcomes hnote { m with cursor := m.segnoPos } rfl rfl (Or.inl hqueue)
  · have hahead : PassesEnd F loop { m with cursor := m.segnoPos } ∨ _ :=
      reads_ahead hp { m with cursor := m.segnoPos } rfl rfl
    rcases hahead with hends | ⟨m', hreads, htrack, rfl, -⟩
    · exact hends
    · apply passesEnd_of_reads hreads
      rw [← htrack] at hpush
      have hpushed : PassesEnd F loop m' ∨ _ := pushes_pass hpush
      rw [htrack] at hpush
      rcases hpushed with hends | ⟨m'', hpass, hwaits⟩
      · exact hends
      · obtain ⟨hnext, htrack', -⟩ := pass_reads hpass
        rw [htrack] at hnext htrack'
        apply passesEnd_of_next (pass_onward hpass)
        exact passesEnd_of_note (comes_behind hpush hnote hr hnext) hnote m'' htrack' rfl (Or.inl hwaits)
  · exact passesEnd_of_note hcomes hnote { m with cursor := m.segnoPos } rfl rfl (Or.inr hlasts)

theorem passesEnd_of_heard (h : ∀ m', Reads F m m' → m'.getbyte m'.cursor = none → loop = true → 0 < m'.segnoPos →
    Heard F m') : PassesEnd F loop m := by
  have hread : PassesEnd F loop m ∨ _ := reads_to_end _ (Nat.le_refl _)
  rcases hread with hends | ⟨m', hreads, hend⟩
  · exact hends
  · apply passesEnd_of_reads hreads
    by_cases hback : loop = true ∧ 0 < m'.segnoPos
    · have hpass : m'.pass F loop = .ok ({ m' with cursor := m'.segnoPos }, false) := by
        unfold pass
        rw [hend]
        dsimp only
        rw [if_pos hback]
        rfl
      apply passesEnd_of_next hpass
      exact (h m' hreads hend hback.1 hback.2).passesEnd
    · apply passesEnd_of_pass
      intro m'' hpass
      unfold pass at hpass
      rw [hend] at hpass
      dsimp only at hpass
      rw [if_neg hback] at hpass
      cases hpass

theorem GoesOn.ends (h : GoesOn F loop m) : Ends F loop m := by
  obtain ⟨fuel, hfuel⟩ := passesEnd_of_heard h
  refine ⟨fuel, ?_⟩
  unfold reduceNext
  split
  · intro heq
    cases heq
  · split
    · intro heq
      cases heq
    · intro heq
      cases hresult : passes F loop fuel { m with modRate := none } with
      | error e =>
        rw [hresult] at heq hfuel
        cases heq
        exact hfuel rfl
      | ok n =>
        rw [hresult] at heq
        cases heq

end Passing

/-- Every call of a compilation ends when each is heard behind the segno. -/
theorem calls_end (F : Type) [MmlFloat F] (trackId : Nat) (track : Bytes) (exception loop : Bool)
    (h : ∀ m, Called F trackId track exception loop m → GoesOn F loop m) :
    ∀ m, Called F trackId track exception loop m → Ends F loop m :=
  fun m hm => (h m hm).ends

/-! ## The tracks `$r` and `$` -/

/-- The parser of the looped track `$r`. -/
structure PlaysRest (m : Mml) : Prop where
  track : m.track = [36, 114]
  clock : m.clock = ⟨120, 500⟩
  segno : m.segnoPos ≤ 1

theorem PlaysRest.pass {m m' : Mml} {stop : Bool} (h : PlaysRest m) (hpass : m.pass Rat true = .ok (m', stop)) :
    PlaysRest m' := by
  have hbyte : m.getbyte m.cursor = byteAt [36, 114] m.cursor := by rw [← h.track]; rfl
  unfold Mml.pass at hpass
  split at hpass
  · split at hpass
    · cases hpass
      exact ⟨h.track, h.clock, h.segno⟩
    · cases hpass
      exact ⟨h.track, h.clock, h.segno⟩
  · rename_i c hc
    rw [hbyte] at hc
    split at hpass
    · rename_i hnote
      obtain ⟨noted, hnoted, hret⟩ := bind_eq_ok.mp hpass
      cases hret
      obtain ⟨new, hadvances, -⟩ := note_advances hnoted
      have hsegno := (hadvances.segno (by omega)).1
      refine ⟨hadvances.track.trans h.track, ?_, by rw [hsegno]; exact h.segno⟩
      exact (note_skims (isNote_iff.mpr hnote) hnoted).2.1.trans h.clock
    · rename_i hnote
      obtain ⟨done, hdone, hret⟩ := bind_eq_ok.mp hpass
      cases hret
      have hzero : m.cursor = 0 := by
        match hcursor : m.cursor with
        | 0 => rfl
        | 1 =>
          rw [hcursor] at hc
          cases hc
          exact absurd (Or.inr rfl) hnote
        | n + 2 =>
          rw [hcursor] at hc
          cases hc
      rw [hzero] at hc
      cases hc
      cases hdone
      exact ⟨h.track, h.clock, Nat.succ_le_succ (Nat.le_of_eq hzero)⟩

theorem PlaysRest.shift {m m' : Mml} {e : Event} (h : PlaysRest m) (hshift : m.shiftEvent = some (e, m')) :
    PlaysRest m' := by
  unfold shiftEvent at hshift
  split at hshift
  · cases hshift
  · cases hshift
    exact ⟨h.track, h.clock, h.segno⟩

theorem playsRest_called {m : Mml} (h : Called Rat 0 [36, 114] true true m) : PlaysRest m := by
  induction h with
  | new hnew =>
    have hclock : (Mml.new Rat 0 [36, 114] true).map (fun m => (m.track, m.tempo, m.commonDuration, m.segnoPos)) =
        .ok ([36, 114], 120, 500, 0) := by decide +kernel
    rw [hnew] at hclock
    have hfields := Except.ok.inj hclock
    simp only [Prod.mk.injEq] at hfields
    obtain ⟨htrack, htempo, hduration, hsegno⟩ := hfields
    refine ⟨htrack, ?_, by omega⟩
    unfold Mml.clock
    rw [htempo, hduration]
  | call _ hcall ih =>
    rcases reduceNext_cases hcall with ⟨-, hshift⟩ | ⟨-, hnone⟩ | ⟨-, n, hpasses, hshift⟩
    · exact ih.shift hshift.symm
    · cases hnone
    · have hn : PlaysRest n := by
        apply passes_keep (fun m m' stop hm hpass => PlaysRest.pass hm hpass) _ hpasses
        exact ⟨ih.track, ih.clock, ih.segno⟩
      exact hn.shift hshift.symm

theorem PlaysRest.reads {m m' : Mml} (h : PlaysRest m) (hreads : Reads Rat m m') : PlaysRest m' := by
  induction hreads with
  | refl => exact h
  | tail _ hpass ih => exact ih.pass (pass_onward hpass)

theorem PlaysRest.goesOn {m : Mml} (h : PlaysRest m) : GoesOn Rat true m := by
  intro m' hreads _ _ hsegno
  have hstart : PlaysRest { m with modRate := none } := ⟨h.track, h.clock, h.segno⟩
  have hm' := hstart.reads hreads
  have hone : m'.segnoPos = 1 := Nat.le_antisymm hm'.segno hsegno
  have hlasts : (Clock.duration Rat [36, 114] 114 1 ⟨120, 500⟩) = .ok 500 := by decide +kernel
  refine ⟨⟨m'.segnoPos, m'.clock⟩, Relation.ReflTransGen.refl, ?_, ?_⟩
  · rw [hm'.track, hone]
    exact ⟨114, rfl, rfl⟩
  · rw [hm'.track, hm'.clock, hone]
    exact Or.inr (Or.inr ⟨114, 500, rfl, hlasts, by decide⟩)

theorem rest_calls_end : ∃ m, Called Rat 0 [36, 114] true true m ∧ Ends Rat true m := by
  obtain ⟨m, hm⟩ : ∃ m, Mml.new Rat 0 [36, 114] true = .ok m := ⟨_, rfl⟩
  exact ⟨m, .new hm, calls_end Rat 0 [36, 114] true true (fun _ hm => (playsRest_called hm).goesOn) m (.new hm)⟩

/-- Behind the segno of `$` there is nothing, and the first call does not end. -/
theorem segno_endless : ∃ m, Called Rat 0 [36] true true m ∧ ¬ Ends Rat true m := by
  obtain ⟨m, hm⟩ : ∃ m, Mml.new Rat 0 [36] true = .ok m := ⟨_, rfl⟩
  refine ⟨m, .new hm, ?_⟩
  have hfields : (Mml.new Rat 0 [36] true).map (fun m => (m.track, m.cursor, m.eventQueue, m.finished)) =
      .ok ([36], 0, [], false) := by decide +kernel
  rw [hm] at hfields
  have hfields := Except.ok.inj hfields
  simp only [Prod.mk.injEq] at hfields
  obtain ⟨htrack, hcursor, hqueue, hfinished⟩ := hfields
  have hback : ∀ (fuel : Nat) (n : Mml), n.track = [36] → n.cursor = 1 → n.segnoPos = 1 →
      passes Rat true fuel n = .error .endless := by
    intro fuel
    induction fuel with
    | zero => exact fun n _ _ _ => rfl
    | succ fuel ih =>
      intro n htrack hcursor hsegno
      have hpass : n.pass Rat true = .ok ({ n with cursor := n.segnoPos }, false) := by
        unfold Mml.pass getbyte
        rw [htrack, hcursor]
        dsimp only [List.getElem?_cons_succ, List.getElem?_nil, Option.map_none]
        rw [if_pos ⟨rfl, by omega⟩]
        rfl
      unfold passes
      rw [hpass]
      exact ih _ htrack hsegno hsegno
  rintro ⟨fuel, hends⟩
  apply hends
  have hnot : ¬ m.finished = true := by
    rw [hfinished]
    exact Bool.false_ne_true
  have hpasses : passes Rat true fuel { m with modRate := none } = .error .endless := by
    cases fuel with
    | zero => rfl
    | succ fuel =>
      have hpass : ({ m with modRate := none } : Mml).pass Rat true =
          .ok (({ m with modRate := none, segnoPos := m.cursor + 1 } : Mml).pushEvent .segno 0 0 |>.move 1, false) := by
        unfold Mml.pass getbyte
        dsimp only
        rw [htrack, hcursor]
        rfl
      unfold passes
      rw [hpass]
      exact hback fuel _ htrack (congrArg (· + 1) hcursor) (congrArg (· + 1) hcursor)
  unfold reduceNext
  rw [if_neg (not_not.mpr hqueue), if_neg hnot, hpasses]
  rfl

end Mml

end PicoRuby.Psg
