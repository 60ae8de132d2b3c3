import PicoRuby.Shared.Timeline
import Mathlib.Data.List.Nodup
import Mathlib.Algebra.Order.Group.Int
import Mathlib.Algebra.GroupWithZero.Nat

/-!
# Merging by time

Sources that produce events, where an event takes its duration until the next one of its source. The
merge always takes the event that is first in time, and of several at one time the one of the first
source; it gives each event the time since the one before it.
-/

namespace PicoRuby.Shared

set_option autoImplicit false

universe u v w
variable {S : Type u} {E : Type v} {ε : Type w}

/-- The events of one source with their times. -/
def clocked (duration : E → Int) (tick : Int) : List E → List (Int × E)
  | [] => []
  | e :: events => (tick, e) :: clocked duration (tick + duration e) events

/-- What a source produces until it has no more. -/
inductive Produces (next : S → Except ε (Option (E × S))) : S → List E → Prop where
  | done {s : S} (h : next s = .ok none) : Produces next s []
  | more {s s' : S} {e : E} {events : List E} (h : next s = .ok (some (e, s')))
      (rest : Produces next s' events) : Produces next s (e :: events)

/-- What a source produces, for a source that has no more after so many events. -/
def produced (next : S → Except ε (Option (E × S))) : Nat → S → Option (List E)
  | 0, _ => none
  | n + 1, s => match next s with
    | .error _ => none
    | .ok none => some []
    | .ok (some (e, s')) => (produced next n s').map (e :: ·)

/-- A source with its next event and the time of it. -/
structure Voice (S : Type u) (E : Type v) where
  track : Nat
  source : S
  tick : Int
  event : E

/-- How a merge ends. `running` is that there was no fuel left. -/
inductive Ending (ε : Type w) where
  | returned (time : Int)
  | raised (e : ε)
  | running
deriving DecidableEq

/-- The first of the voices that are first in time. -/
def earliest (v : Voice S E) : List (Voice S E) → Voice S E
  | [] => v
  | w :: voices => if w.tick < v.tick then earliest w voices else earliest v voices

def setVoice (v : Voice S E) (voices : List (Voice S E)) : List (Voice S E) :=
  voices.map fun w => if w.track = v.track then v else w

def dropVoice (track : Nat) (voices : List (Voice S E)) : List (Voice S E) :=
  voices.filter fun w => w.track ≠ track

section Merge
variable (next : S → Except ε (Option (E × S))) (duration : E → Int)

/-- The merge from a time on: the events with the time since the one before, and the end. -/
def merge : Nat → List (Voice S E) → Int → List (Int × Nat × E) × Ending ε
  | 0, _, _ => ([], .running)
  | _ + 1, [], prev => ([], .returned prev)
  | fuel + 1, v :: voices, prev =>
    let m := earliest v voices
    let rest := match next m.source with
      | .error e => ([], Ending.raised e)
      | .ok none => merge fuel (dropVoice m.track (v :: voices)) m.tick
      | .ok (some (event, source)) => merge fuel
        (setVoice ⟨m.track, source, m.tick + duration m.event, event⟩ (v :: voices)) m.tick
    ((m.tick - prev, m.track, m.event) :: rest.1, rest.2)

end Merge

/-- The events of one track. -/
def ofTrack (track : Nat) (events : List (Int × Nat × E)) : List (Int × E) :=
  events.filterMap fun y => if y.2.1 = track then some (y.1, y.2.2) else none

theorem produces_of_produced {next : S → Except ε (Option (E × S))} {n : Nat} {s : S} {events : List E}
    (h : produced next n s = some events) : Produces next s events := by
  induction n generalizing s events with
  | zero => cases h
  | succ n ih =>
    unfold produced at h
    split at h
    · cases h
    · rename_i hnext
      cases h
      exact .done hnext
    · rename_i e s' hnext
      obtain ⟨rest, hrest, rfl⟩ := Option.map_eq_some_iff.mp h
      exact .more hnext (ih hrest)

section Sources
variable {duration : E → Int} {tick : Int} {events : List E}

theorem clocked_snd : (clocked duration tick events).map Prod.snd = events := by
  induction events generalizing tick with
  | nil => rfl
  | cons e events ih =>
    change e :: (clocked duration (tick + duration e) events).map Prod.snd = _
    rw [ih]

theorem ofTrack_map {D : Type v} (f : E → D) (track : Nat) (events : List (Int × Nat × E)) :
    ofTrack track (events.map fun y => (y.1, y.2.1, f y.2.2)) =
      (ofTrack track events).map fun y => (y.1, f y.2) := by
  rw [ofTrack, ofTrack, List.filterMap_map, List.map_filterMap]
  apply List.filterMap_congr
  intro y _
  dsimp only [Function.comp]
  split
  · rfl
  · rfl

end Sources

/-! ## Voices -/

section Voices
variable {v m : Voice S E} {voices : List (Voice S E)} {track : Nat}

theorem earliest_mem (v : Voice S E) (voices : List (Voice S E)) :
    earliest v voices ∈ v :: voices := by
  induction voices generalizing v with
  | nil => exact List.mem_singleton_self v
  | cons w voices ih =>
    unfold earliest
    split
    · exact List.mem_cons_of_mem v (ih w)
    · rcases List.mem_cons.mp (ih v) with heq | hmem
      · rw [heq]
        exact List.mem_cons_self
      · exact List.mem_cons_of_mem v (List.mem_cons_of_mem w hmem)

theorem earliest_le (v : Voice S E) (voices : List (Voice S E)) :
    ∀ w ∈ v :: voices, (earliest v voices).tick ≤ w.tick := by
  induction voices generalizing v with
  | nil =>
    intro w hw
    rw [List.mem_singleton.mp hw]
    exact Int.le_refl _
  | cons x voices ih =>
    intro w hw
    unfold earliest
    split
    · rename_i hlt
      rcases List.mem_cons.mp hw with rfl | hw
      · have hle := ih x x List.mem_cons_self
        omega
      · exact ih x w hw
    · rename_i hle
      rcases List.mem_cons.mp hw with rfl | hw
      · exact ih w w List.mem_cons_self
      · rcases List.mem_cons.mp hw with rfl | hw
        · have hfirst := ih v v List.mem_cons_self
          omega
        · exact ih v w (List.mem_cons_of_mem v hw)

theorem setVoice_tracks : (setVoice v voices).map Voice.track = voices.map Voice.track := by
  rw [setVoice, List.map_map]
  apply List.map_congr_left
  intro w _
  dsimp only [Function.comp]
  split
  · rename_i heq
    exact heq.symm
  · rfl

theorem mem_setVoice {w : Voice S E} (h : w ∈ setVoice v voices) :
    w = v ∨ w ∈ voices ∧ w.track ≠ v.track := by
  obtain ⟨x, hx, rfl⟩ := List.mem_map.mp h
  by_cases heq : x.track = v.track
  · exact Or.inl (if_pos heq)
  · rw [if_neg heq]
    exact Or.inr ⟨hx, heq⟩

theorem setVoice_mem_of_ne {w : Voice S E} (hw : w ∈ voices) (hne : w.track ≠ v.track) :
    w ∈ setVoice v voices := List.mem_map.mpr ⟨w, hw, if_neg hne⟩

theorem setVoice_mem (h : ∃ w ∈ voices, w.track = v.track) : v ∈ setVoice v voices := by
  obtain ⟨w, hw, heq⟩ := h
  exact List.mem_map.mpr ⟨w, hw, if_pos heq⟩

theorem mem_dropVoice {w : Voice S E} : w ∈ dropVoice track voices ↔ w ∈ voices ∧ w.track ≠ track := by
  rw [dropVoice, List.mem_filter, decide_eq_true_eq]

/-- In voices of different tracks, the track tells the voice. -/
theorem voice_eq_of_track (hnodup : (voices.map Voice.track).Nodup) (hv : v ∈ voices) (hm : m ∈ voices)
    (h : v.track = m.track) : v = m := List.inj_on_of_nodup_map hnodup hv hm h

end Voices

/-! ## What is merged -/

section Spec
variable {next : S → Except ε (Option (E × S))} {duration : E → Int}

theorem ofTrack_cons_self (tick : Int) (track : Nat) (e : E) (events : List (Int × Nat × E)) :
    ofTrack track ((tick, track, e) :: events) = (tick, e) :: ofTrack track events :=
  List.filterMap_cons_some (if_pos rfl)

theorem ofTrack_cons_ne {track other : Nat} (h : other ≠ track) (tick : Int) (e : E)
    (events : List (Int × Nat × E)) :
    ofTrack track ((tick, other, e) :: events) = ofTrack track events :=
  List.filterMap_cons_none (if_neg h)

theorem ofTrack_eq_nil {track : Nat} {events : List (Int × Nat × E)}
    (h : ∀ y ∈ events, y.2.1 ≠ track) : ofTrack track events = [] := by
  rw [ofTrack, List.filterMap_eq_nil_iff]
  intro y hy
  exact if_neg (h y hy)

theorem mem_atTimes {start : Int} {events : List (Int × Nat × E)} {y : Int × Nat × E}
    (h : y ∈ atTimes start events) : ∃ x ∈ events, x.2 = y.2 := by
  obtain ⟨k, hk⟩ := List.mem_iff_getElem?.mp h
  rw [atTimes_getElem?, Option.map_eq_some_iff] at hk
  obtain ⟨x, hx, rfl⟩ := hk
  exact ⟨x, List.mem_of_getElem? hx, rfl⟩

/-- What is left to be merged of the voices: `rest` are the events behind the next ones. -/
structure Pending (next : S → Except ε (Option (E × S))) (duration : E → Int)
    (voices : List (Voice S E)) (rest : Nat → List E) : Prop where
  nodup : (voices.map Voice.track).Nodup
  produces : ∀ v ∈ voices, Produces next v.source (rest v.track)
  forward : ∀ v ∈ voices, ∀ e ∈ v.event :: rest v.track, 0 ≤ duration e

/-- How many events are left. -/
def pendingCount (voices : List (Voice S E)) (rest : Nat → List E) : Nat :=
  (voices.map fun v => (rest v.track).length + 1).sum

/-- The merged events: each track with its own times, and no time going back. -/
structure Merged (duration : E → Int) (voices : List (Voice S E)) (rest : Nat → List E) (prev : Int)
    (events : List (Int × Nat × E)) : Prop where
  tracks : ∀ v ∈ voices, ofTrack v.track (atTimes prev events) =
    clocked duration v.tick (v.event :: rest v.track)
  others : ∀ y ∈ events, y.2.1 ∈ voices.map Voice.track
  deltas : ∀ y ∈ events, 0 ≤ y.1

/-- What is left behind the next event of a track. -/
def advance (rest : Nat → List E) (track : Nat) (events : List E) (t : Nat) : List E :=
  if t = track then events else rest t

section Steps
variable {voices : List (Voice S E)} {rest : Nat → List E} {m : Voice S E} {prev : Int}
variable {events : List (Int × Nat × E)}

theorem Pending.drop (h : Pending next duration voices rest) (track : Nat) :
    Pending next duration (dropVoice track voices) rest := by
  refine ⟨h.nodup.sublist (List.filter_sublist.map _), ?_, ?_⟩
  · intro v hv
    exact h.produces v (mem_dropVoice.mp hv).1
  · intro v hv
    exact h.forward v (mem_dropVoice.mp hv).1

theorem Pending.set (h : Pending next duration voices rest) (hm : m ∈ voices) {source : S} {e : E}
    {es : List E} (hrest : rest m.track = e :: es) (hproduces : Produces next source es) (tick : Int) :
    Pending next duration (setVoice ⟨m.track, source, tick, e⟩ voices) (advance rest m.track es) := by
  have hown : advance rest m.track es m.track = es := if_pos rfl
  refine ⟨?_, ?_, ?_⟩
  · rw [setVoice_tracks]
    exact h.nodup
  · intro v hv
    rcases mem_setVoice hv with rfl | ⟨hmem, hne⟩
    · rw [hown]
      exact hproduces
    · rw [advance, if_neg hne]
      exact h.produces v hmem
  · intro v hv f hf
    rcases mem_setVoice hv with rfl | ⟨hmem, hne⟩
    · rw [hown] at hf
      apply h.forward m hm f
      rw [hrest]
      exact List.mem_cons_of_mem _ hf
    · rw [advance, if_neg hne] at hf
      exact h.forward v hmem f hf

theorem pendingCount_drop (hnodup : (voices.map Voice.track).Nodup) (hm : m ∈ voices)
    (hrest : rest m.track = []) :
    pendingCount (dropVoice m.track voices) rest + 1 = pendingCount voices rest := by
  induction voices with
  | nil => cases hm
  | cons v voices ih =>
    rw [List.map_cons, List.nodup_cons] at hnodup
    unfold pendingCount at ih ⊢
    by_cases heq : v.track = m.track
    · have hsame : dropVoice m.track (v :: voices) = voices := by
        rw [dropVoice, List.filter_cons_of_neg (by rw [heq]; simp), List.filter_eq_self]
        intro w hw
        rw [decide_eq_true_eq]
        intro hwm
        exact hnodup.1 (List.mem_map.mpr ⟨w, hw, hwm.trans heq.symm⟩)
      rw [hsame, List.map_cons, List.sum_cons, heq, hrest, List.length_nil]
      omega
    · have hmem : m ∈ voices := by
        rcases List.mem_cons.mp hm with rfl | hmem
        · exact absurd rfl heq
        · exact hmem
      have htail : dropVoice m.track (v :: voices) = v :: dropVoice m.track voices := by
        rw [dropVoice, List.filter_cons_of_pos (by rw [decide_eq_true_eq]; exact heq)]
        rfl
      have hstep := ih hnodup.2 hmem
      rw [htail, List.map_cons, List.sum_cons, List.map_cons, List.sum_cons]
      omega

theorem pendingCount_set (hnodup : (voices.map Voice.track).Nodup) (hm : m ∈ voices) {source : S}
    {e : E} {es : List E} (hrest : rest m.track = e :: es) (tick : Int) :
    pendingCount (setVoice ⟨m.track, source, tick, e⟩ voices) (advance rest m.track es) + 1 =
      pendingCount voices rest := by
  have hown : advance rest m.track es m.track = es := if_pos rfl
  induction voices with
  | nil => cases hm
  | cons v voices ih =>
    rw [List.map_cons, List.nodup_cons] at hnodup
    unfold pendingCount setVoice at ih ⊢
    rw [List.map_cons, List.map_cons, List.sum_cons, List.map_cons, List.sum_cons]
    by_cases heq : v.track = m.track
    · have hothers : ∀ w ∈ voices, w.track ≠ m.track := by
        intro w hw hwm
        exact hnodup.1 (List.mem_map.mpr ⟨w, hw, hwm.trans heq.symm⟩)
      have hsame : (voices.map fun w => if w.track = m.track then
          (⟨m.track, source, tick, e⟩ : Voice S E) else w).map
            (fun v => (advance rest m.track es v.track).length + 1) =
          voices.map fun v => (rest v.track).length + 1 := by
        rw [List.map_map]
        apply List.map_congr_left
        intro w hw
        dsimp only [Function.comp]
        rw [if_neg (hothers w hw), advance, if_neg (hothers w hw)]
      rw [hsame, if_pos heq, hown, heq, hrest, List.length_cons]
      omega
    · have hmem : m ∈ voices := by
        rcases List.mem_cons.mp hm with rfl | hmem
        · exact absurd rfl heq
        · exact hmem
      have hstep := ih hnodup.2 hmem
      rw [if_neg heq, advance, if_neg heq]
      omega

theorem atTimes_step (tick : Int) (track : Nat) (e : E) :
    atTimes prev ((tick - prev, track, e) :: events) = (tick, track, e) :: atTimes tick events := by
  have hsum : prev + (tick - prev) = tick := by omega
  change (prev + (tick - prev), track, e) :: atTimes (prev + (tick - prev)) events = _
  rw [hsum]

/-- The last event of a track goes before what is merged of the others. -/
theorem Merged.last (hnodup : (voices.map Voice.track).Nodup) (hm : m ∈ voices)
    (hrest : rest m.track = []) (hprev : prev ≤ m.tick)
    (h : Merged duration (dropVoice m.track voices) rest m.tick events) :
    Merged duration voices rest prev ((m.tick - prev, m.track, m.event) :: events) := by
  have hothers : ∀ y ∈ events, y.2.1 ∈ voices.map Voice.track ∧ y.2.1 ≠ m.track := by
    intro y hy
    obtain ⟨w, hw, heq⟩ := List.mem_map.mp (h.others y hy)
    obtain ⟨hmem, hne⟩ := mem_dropVoice.mp hw
    exact ⟨heq ▸ List.mem_map_of_mem hmem, heq ▸ hne⟩
  refine ⟨?_, ?_, ?_⟩
  · intro v hv
    rw [atTimes_step]
    by_cases heq : v.track = m.track
    · have hsame := voice_eq_of_track hnodup hv hm heq
      subst hsame
      rw [ofTrack_cons_self, hrest, ofTrack_eq_nil]
      · rfl
      · intro y hy
        obtain ⟨x, hx, hxy⟩ := mem_atTimes hy
        rw [← hxy]
        exact (hothers x hx).2
    · rw [ofTrack_cons_ne (Ne.symm heq)]
      exact h.tracks v (mem_dropVoice.mpr ⟨hv, heq⟩)
  · intro y hy
    rcases List.mem_cons.mp hy with rfl | hy
    · exact List.mem_map_of_mem hm
    · exact (hothers y hy).1
  · intro y hy
    rcases List.mem_cons.mp hy with rfl | hy
    · exact Int.sub_nonneg.mpr hprev
    · exact h.deltas y hy

/-- An event goes before what is merged of its track's other events and of the other tracks. -/
theorem Merged.onward (hnodup : (voices.map Voice.track).Nodup) (hm : m ∈ voices) {source : S} {e : E}
    {es : List E} (hrest : rest m.track = e :: es) (hprev : prev ≤ m.tick)
    (h : Merged duration (setVoice ⟨m.track, source, m.tick + duration m.event, e⟩ voices)
      (advance rest m.track es) m.tick events) :
    Merged duration voices rest prev ((m.tick - prev, m.track, m.event) :: events) := by
  have hown : advance rest m.track es m.track = es := if_pos rfl
  refine ⟨?_, ?_, ?_⟩
  · intro v hv
    rw [atTimes_step]
    by_cases heq : v.track = m.track
    · have hsame := voice_eq_of_track hnodup hv hm heq
      subst hsame
      have hset := h.tracks _ (setVoice_mem ⟨v, hv, rfl⟩)
      dsimp only at hset
      rw [ofTrack_cons_self, hset, hown, hrest]
      rfl
    · have hset := h.tracks v (setVoice_mem_of_ne hv heq)
      rw [advance, if_neg heq] at hset
      rw [ofTrack_cons_ne (Ne.symm heq)]
      exact hset
  · intro y hy
    rcases List.mem_cons.mp hy with rfl | hy
    · exact List.mem_map_of_mem hm
    · have hmem := h.others y hy
      rw [setVoice_tracks] at hmem
      exact hmem
  · intro y hy
    rcases List.mem_cons.mp hy with rfl | hy
    · exact Int.sub_nonneg.mpr hprev
    · exact h.deltas y hy

end Steps

/-- With enough fuel the merge returns the time of the last event, with all the events merged. -/
theorem merge_merged {fuel : Nat} {voices : List (Voice S E)} {rest : Nat → List E} {prev : Int}
    (h : Pending next duration voices rest) (hprev : ∀ v ∈ voices, prev ≤ v.tick)
    (hfuel : pendingCount voices rest < fuel) : ∃ events,
      merge next duration fuel voices prev = (events, .returned (endTime prev events)) ∧
        Merged duration voices rest prev events := by
  induction fuel generalizing voices rest prev with
  | zero => exact absurd hfuel (Nat.not_lt_zero _)
  | succ fuel ih =>
    cases voices with
    | nil =>
      refine ⟨[], ?_, fun v hv => absurd hv List.not_mem_nil, fun y hy => absurd hy List.not_mem_nil,
        fun y hy => absurd hy List.not_mem_nil⟩
      rw [merge, endTime, List.map_nil, List.sum_nil, add_zero]
    | cons v voices =>
      have hm := earliest_mem v voices
      have hle := earliest_le v voices
      unfold merge
      dsimp only
      generalize earliest v voices = m at hm hle ⊢
      have hend (tick : Int) (events : List (Int × Nat × E)) :
          endTime tick events = endTime prev ((tick - prev, m.track, m.event) :: events) := by
        have hsum : prev + (tick - prev) = tick := by omega
        rw [endTime_cons, hsum]
      have hproduces := h.produces m hm
      generalize hrest : rest m.track = left at hproduces
      cases hproduces with
      | done hnext =>
        have hcount := pendingCount_drop h.nodup hm hrest
        obtain ⟨events, hmerge, hmerged⟩ := ih (h.drop m.track)
          (fun w hw => hle w (mem_dropVoice.mp hw).1) (by omega)
        refine ⟨(m.tick - prev, m.track, m.event) :: events, ?_,
          hmerged.last h.nodup hm hrest (hprev m hm)⟩
        rw [hnext]
        dsimp only
        rw [hmerge, hend]
      | @more source source' e es hnext hmore =>
        have hcount := @pendingCount_set _ _ _ rest m h.nodup hm source' e es hrest
          (m.tick + duration m.event)
        have hforward := h.forward m hm m.event List.mem_cons_self
        have hahead : ∀ w ∈ setVoice ⟨m.track, source', m.tick + duration m.event, e⟩ (v :: voices),
            m.tick ≤ w.tick := by
          intro w hw
          rcases mem_setVoice hw with rfl | ⟨hmem, -⟩
          · exact Int.le_add_of_nonneg_right hforward
          · exact hle w hmem
        obtain ⟨events, hmerge, hmerged⟩ := ih (h.set hm hrest hmore _) hahead (by omega)
        refine ⟨(m.tick - prev, m.track, m.event) :: events, ?_,
          hmerged.onward h.nodup hm hrest (hprev m hm)⟩
        rw [hnext]
        dsimp only
        rw [hmerge, hend]

/-- A merge that returns has had all that its sources produce. -/
theorem produces_of_returned {fuel : Nat} {voices : List (Voice S E)} {prev time : Int}
    (hnodup : (voices.map Voice.track).Nodup)
    (h : (merge next duration fuel voices prev).2 = .returned time) :
    ∀ v ∈ voices, ∃ events, Produces next v.source events := by
  induction fuel generalizing voices prev with
  | zero => cases h
  | succ fuel ih =>
    cases voices with
    | nil => exact fun v hv => absurd hv List.not_mem_nil
    | cons first voices =>
      have hm := earliest_mem first voices
      unfold merge at h
      dsimp only at h
      generalize earliest first voices = m at hm h
      intro v hv
      cases hnext : next m.source with
      | error e =>
        rw [hnext] at h
        cases h
      | ok result =>
        rw [hnext] at h
        cases result with
        | none =>
          have hrest := ih (hnodup.sublist (List.filter_sublist.map _)) h
          by_cases heq : v.track = m.track
          · rw [voice_eq_of_track hnodup hv hm heq]
            exact ⟨[], .done hnext⟩
          · exact hrest v (mem_dropVoice.mpr ⟨hv, heq⟩)
        | some produced =>
          obtain ⟨e, source⟩ := produced
          have hrest := ih (by rw [setVoice_tracks]; exact hnodup) h
          by_cases heq : v.track = m.track
          · rw [voice_eq_of_track hnodup hv hm heq]
            obtain ⟨events, hevents⟩ := hrest _ (setVoice_mem ⟨v, hv, heq⟩)
            exact ⟨e :: events, .more hnext hevents⟩
          · exact hrest v (setVoice_mem_of_ne hv heq)

end Spec

/-! ## What is kept -/

section Kept
variable {next other : S → Except ε (Option (E × S))} {duration : E → Int}
variable {I : S → Prop} {P : E → Prop} {Q : ε → Prop}

/-- `I` goes on to hold of a source, its events are as `P` says and what it raises as `Q` says. -/
structure Keeps (next : S → Except ε (Option (E × S))) (I : S → Prop) (P : E → Prop) (Q : ε → Prop) :
    Prop where
  more : ∀ s e s', I s → next s = .ok (some (e, s')) → I s' ∧ P e
  raises : ∀ s x, I s → next s = .error x → Q x

/-- The voices have sources that `I` holds of and events that `P` holds of. -/
def VoicesKept (I : S → Prop) (P : E → Prop) (voices : List (Voice S E)) : Prop :=
  ∀ v ∈ voices, I v.source ∧ P v.event

theorem VoicesKept.drop {voices : List (Voice S E)} (h : VoicesKept I P voices) (track : Nat) :
    VoicesKept I P (dropVoice track voices) := fun w hw => h w (mem_dropVoice.mp hw).1

theorem VoicesKept.set {voices : List (Voice S E)} {v : Voice S E} (h : VoicesKept I P voices)
    (hsource : I v.source) (hevent : P v.event) : VoicesKept I P (setVoice v voices) := by
  intro w hw
  rcases mem_setVoice hw with rfl | ⟨hmem, -⟩
  · exact ⟨hsource, hevent⟩
  · exact h w hmem

theorem Keeps.produces {s : S} {events : List E} (h : Keeps next I P Q) (hs : I s)
    (hproduces : Produces next s events) : ∀ e ∈ events, P e := by
  induction hproduces with
  | done hnext => exact fun e he => absurd he List.not_mem_nil
  | more hnext rest ih =>
    obtain ⟨hsource, hevent⟩ := h.more _ _ _ hs hnext
    intro e he
    rcases List.mem_cons.mp he with rfl | he
    · exact hevent
    · exact ih hsource e he

theorem Produces.length_le {s : S} {events : List E} {measure : S → Nat}
    (hnext : ∀ s e s', I s → next s = .ok (some (e, s')) → I s' ∧ measure s' < measure s) (hs : I s)
    (h : Produces next s events) : events.length ≤ measure s := by
  induction h with
  | done hresult => exact Nat.zero_le _
  | more hresult rest ih =>
    obtain ⟨hsource, hless⟩ := hnext _ _ _ hs hresult
    exact Nat.lt_of_le_of_lt (ih hsource) hless

theorem merge_keeps {fuel : Nat} {voices : List (Voice S E)} {prev : Int} (h : Keeps next I P Q)
    (hvoices : VoicesKept I P voices) :
    (∀ y ∈ (merge next duration fuel voices prev).1, P y.2.2 ∧ y.2.1 ∈ voices.map Voice.track) ∧
      ∀ x, (merge next duration fuel voices prev).2 = .raised x → Q x := by
  induction fuel generalizing voices prev with
  | zero =>
    refine ⟨fun y hy => absurd hy List.not_mem_nil, ?_⟩
    intro x hx
    cases hx
  | succ fuel ih =>
    cases voices with
    | nil =>
      refine ⟨fun y hy => absurd hy List.not_mem_nil, ?_⟩
      intro x hx
      cases hx
    | cons first voices =>
      have hm := earliest_mem first voices
      unfold merge
      dsimp only
      generalize earliest first voices = m at hm ⊢
      obtain ⟨hsource, hevent⟩ := hvoices m hm
      have hown : P m.event ∧ m.track ∈ (first :: voices).map Voice.track :=
        ⟨hevent, List.mem_map_of_mem hm⟩
      cases hnext : next m.source with
      | error e =>
        refine ⟨?_, ?_⟩
        · intro y hy
          rw [List.mem_singleton.mp hy]
          exact hown
        · intro x hx
          cases hx
          exact h.raises _ _ hsource hnext
      | ok result =>
        cases result with
        | none =>
          have hrest := @ih _ m.tick (hvoices.drop m.track)
          refine ⟨?_, hrest.2⟩
          intro y hy
          rcases List.mem_cons.mp hy with rfl | hy
          · exact hown
          · obtain ⟨hp, htrack⟩ := hrest.1 y hy
            obtain ⟨w, hw, heq⟩ := List.mem_map.mp htrack
            exact ⟨hp, heq ▸ List.mem_map_of_mem (mem_dropVoice.mp hw).1⟩
        | some produced =>
          obtain ⟨e, source⟩ := produced
          obtain ⟨hsource', hevent'⟩ := h.more _ _ _ hsource hnext
          have hrest := @ih _ m.tick (hvoices.set
            (v := ⟨m.track, source, m.tick + duration m.event, e⟩) hsource' hevent')
          refine ⟨?_, hrest.2⟩
          intro y hy
          rcases List.mem_cons.mp hy with rfl | hy
          · exact hown
          · obtain ⟨hp, htrack⟩ := hrest.1 y hy
            rw [setVoice_tracks] at htrack
            exact ⟨hp, htrack⟩

/-- When no duration is negative no time goes back, whatever the end. -/
theorem merge_deltas {fuel : Nat} {voices : List (Voice S E)} {prev : Int} (h : Keeps next I P Q)
    (hduration : ∀ e, P e → 0 ≤ duration e) (hvoices : VoicesKept I P voices)
    (hprev : ∀ v ∈ voices, prev ≤ v.tick) :
    ∀ y ∈ (merge next duration fuel voices prev).1, 0 ≤ y.1 := by
  induction fuel generalizing voices prev with
  | zero => exact fun y hy => absurd hy List.not_mem_nil
  | succ fuel ih =>
    cases voices with
    | nil => exact fun y hy => absurd hy List.not_mem_nil
    | cons first voices =>
      have hm := earliest_mem first voices
      have hle := earliest_le first voices
      unfold merge
      dsimp only
      generalize earliest first voices = m at hm hle ⊢
      obtain ⟨hsource, hevent⟩ := hvoices m hm
      have hown := Int.sub_nonneg.mpr (hprev m hm)
      intro y hy
      cases hnext : next m.source with
      | error e =>
        rw [hnext] at hy
        rw [List.mem_singleton.mp hy]
        exact hown
      | ok result =>
        rw [hnext] at hy
        cases result with
        | none =>
          rcases List.mem_cons.mp hy with rfl | hy
          · exact hown
          · exact ih (hvoices.drop m.track) (fun w hw => hle w (mem_dropVoice.mp hw).1) y hy
        | some produced =>
          obtain ⟨e, source⟩ := produced
          obtain ⟨hsource', hevent'⟩ := h.more _ _ _ hsource hnext
          rcases List.mem_cons.mp hy with rfl | hy
          · exact hown
          · refine ih (hvoices.set (v := ⟨m.track, source, m.tick + duration m.event, e⟩) hsource'
              hevent') ?_ y hy
            intro w hw
            rcases mem_setVoice hw with rfl | ⟨hmem, -⟩
            · exact Int.le_add_of_nonneg_right (hduration m.event hevent)
            · exact hle w hmem

/-- Sources that come to the same make the same merge. -/
theorem merge_congr {fuel : Nat} {voices : List (Voice S E)} {prev : Int} (h : Keeps next I P Q)
    (hvoices : VoicesKept I P voices) (hother : ∀ s, I s → other s = next s) :
    merge other duration fuel voices prev = merge next duration fuel voices prev := by
  induction fuel generalizing voices prev with
  | zero => rfl
  | succ fuel ih =>
    cases voices with
    | nil => rfl
    | cons first voices =>
      have hm := earliest_mem first voices
      unfold merge
      dsimp only
      generalize earliest first voices = m at hm ⊢
      obtain ⟨hsource, hevent⟩ := hvoices m hm
      rw [hother m.source hsource]
      cases hnext : next m.source with
      | error e => rfl
      | ok result =>
        cases result with
        | none =>
          dsimp only
          rw [ih (hvoices.drop m.track)]
        | some produced =>
          obtain ⟨e, source⟩ := produced
          obtain ⟨hsource', hevent'⟩ := h.more _ _ _ hsource hnext
          dsimp only
          rw [ih (hvoices.set (v := ⟨m.track, source, m.tick + duration m.event, e⟩) hsource' hevent')]

end Kept

/-! ## The end -/

section Ends
variable {next : S → Except ε (Option (E × S))} {duration : E → Int} {measure : S → Nat}

/-- How much the sources have to give. -/
def measureSum (measure : S → Nat) (voices : List (Voice S E)) : Nat :=
  (voices.map fun v => measure v.source + 1).sum

theorem measureSum_drop_le (voices : List (Voice S E)) (track : Nat) :
    measureSum measure (dropVoice track voices) ≤ measureSum measure voices := by
  induction voices with
  | nil => exact Nat.le_refl _
  | cons v voices ih =>
    unfold measureSum dropVoice at ih ⊢
    rw [List.filter_cons]
    split
    · rw [List.map_cons, List.sum_cons, List.map_cons, List.sum_cons]
      exact Nat.add_le_add_left ih _
    · rw [List.map_cons, List.sum_cons]
      exact Nat.le_add_left_of_le ih

theorem measureSum_drop_lt {voices : List (Voice S E)} {m : Voice S E} (hm : m ∈ voices) :
    measureSum measure (dropVoice m.track voices) < measureSum measure voices := by
  induction voices with
  | nil => cases hm
  | cons v voices ih =>
    have hle := @measureSum_drop_le _ _ measure voices m.track
    unfold measureSum dropVoice at ih hle ⊢
    rw [List.filter_cons, List.map_cons, List.sum_cons]
    by_cases heq : v.track = m.track
    · rw [if_neg (fun hne => absurd heq (of_decide_eq_true hne))]
      omega
    · rw [if_pos (decide_eq_true heq), List.map_cons, List.sum_cons]
      rcases List.mem_cons.mp hm with rfl | hmem
      · exact absurd rfl heq
      · exact Nat.add_lt_add_left (ih hmem) _

theorem measureSum_set_lt {voices : List (Voice S E)} {m v : Voice S E} (hm : m ∈ voices)
    (htrack : v.track = m.track) (hnodup : (voices.map Voice.track).Nodup)
    (hlt : measure v.source < measure m.source) :
    measureSum measure (setVoice v voices) < measureSum measure voices := by
  induction voices with
  | nil => cases hm
  | cons w voices ih =>
    rw [List.map_cons, List.nodup_cons] at hnodup
    unfold measureSum setVoice at ih ⊢
    rw [List.map_cons, List.map_cons, List.sum_cons, List.map_cons, List.sum_cons]
    by_cases heq : w.track = v.track
    · have hsame : voices.map (fun x => if x.track = v.track then v else x) = voices := by
        have hid : voices.map (fun x => if x.track = v.track then v else x) = voices.map id := by
          apply List.map_congr_left
          intro x hx
          apply if_neg
          intro hxv
          exact hnodup.1 (List.mem_map.mpr ⟨x, hx, hxv.trans heq.symm⟩)
        rw [hid, List.map_id]
      have hown : w = m := by
        rcases List.mem_cons.mp hm with rfl | hmem
        · rfl
        · exact absurd (List.mem_map.mpr ⟨m, hmem, (heq.trans htrack).symm⟩) hnodup.1
      rw [hsame, if_pos heq, hown]
      omega
    · rw [if_neg heq]
      rcases List.mem_cons.mp hm with rfl | hmem
      · exact absurd htrack.symm heq
      · exact Nat.add_lt_add_left (ih hmem hnodup.2) _

/-- Sources with only so much to give are merged to an end. -/
theorem merge_ends {fuel : Nat} {voices : List (Voice S E)} {prev : Int} {I : S → Prop}
    (hnext : ∀ s e s', I s → next s = .ok (some (e, s')) → I s' ∧ measure s' < measure s)
    (hvoices : ∀ v ∈ voices, I v.source) (hnodup : (voices.map Voice.track).Nodup)
    (hfuel : measureSum measure voices < fuel) :
    (merge next duration fuel voices prev).2 ≠ .running := by
  induction fuel generalizing voices prev with
  | zero => exact absurd hfuel (Nat.not_lt_zero _)
  | succ fuel ih =>
    cases voices with
    | nil =>
      intro heq
      cases heq
    | cons first voices =>
      have hm := earliest_mem first voices
      unfold merge
      dsimp only
      generalize earliest first voices = m at hm ⊢
      cases hresult : next m.source with
      | error e =>
        intro heq
        cases heq
      | ok result =>
        cases result with
        | none =>
          have hlt := @measureSum_drop_lt _ _ measure _ _ hm
          refine ih (fun v hv => hvoices v (mem_dropVoice.mp hv).1)
            (hnodup.sublist (List.filter_sublist.map _)) ?_
          omega
        | some produced =>
          obtain ⟨e, source⟩ := produced
          obtain ⟨hsource, hless⟩ := hnext _ _ _ (hvoices m hm) hresult
          have hlt := measureSum_set_lt (v := ⟨m.track, source, m.tick + duration m.event, e⟩) hm rfl
            hnodup hless
          refine ih ?_ (by rw [setVoice_tracks]; exact hnodup) ?_
          · intro v hv
            rcases mem_setVoice hv with rfl | ⟨hmem, -⟩
            · exact hsource
            · exact hvoices v hmem
          · omega

end Ends

end PicoRuby.Shared
