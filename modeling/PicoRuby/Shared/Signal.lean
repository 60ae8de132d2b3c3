import Mathlib.Data.List.Induction
import Mathlib.Data.Int.Order.Basic
import Mathlib.Data.Option.Basic

/-!
# Signals that are sampled

A signal is read from time to time, and something is reported for it each time. The trace of some samples is what
there is to know about them: since when the level has been the same, and when the report has changed.
-/

namespace PicoRuby.Shared

set_option autoImplicit false

universe u
variable {α : Type u}

/-- What is read at a time, and what is reported. -/
structure Sample (α : Type u) where
  time : Int
  level : α
  output : α
deriving DecidableEq, Repr

/-- The times of the changes are the latest first. -/
structure Trace (α : Type u) where
  first : Int
  level : α
  since : Int
  output : α
  changes : List Int
deriving DecidableEq, Repr

namespace Trace
variable [DecidableEq α]

def start (s : Sample α) : Trace α := ⟨s.time, s.level, s.time, s.output, []⟩

def next (t : Trace α) (s : Sample α) : Trace α where
  first := t.first
  level := s.level
  since := if s.level = t.level then t.since else s.time
  output := s.output
  changes := if s.output = t.output then t.changes else s.time :: t.changes

/-- The time of the last change, or of the first sample. -/
def settled (t : Trace α) : Int := t.changes.head?.getD t.first

def extend (t : Option (Trace α)) (s : Sample α) : Option (Trace α) := some (t.elim (start s) fun t => t.next s)

theorem next_same {t : Trace α} {s : Sample α} (h : s.output = t.output) :
    (t.next s).output = t.output ∧ (t.next s).settled = t.settled := by
  unfold settled next
  dsimp only
  rw [if_pos h]
  exact ⟨h, rfl⟩

theorem next_changed {t : Trace α} {s : Sample α} (h : s.output ≠ t.output) :
    (t.next s).settled = s.time := by
  unfold settled next
  dsimp only
  rw [if_neg h]
  rfl

/-- The trace of some samples; there is none of no sample. -/
def of (samples : List (Sample α)) : Option (Trace α) := samples.foldl extend none

end Trace

section Laws
variable [DecidableEq α] {P Q : Trace α → Sample α → Prop} {samples : List (Sample α)} {s : Sample α}
  {t : Trace α} {threshold : Int}

@[simp] theorem Trace.of_nil : Trace.of ([] : List (Sample α)) = none := rfl

theorem Trace.of_append (samples : List (Sample α)) (s : Sample α) :
    Trace.of (samples ++ [s]) = Trace.extend (Trace.of samples) s := by
  unfold Trace.of
  rw [List.foldl_append]
  rfl

/-- Every sample but the first one is as the trace before it demands. -/
def AtEach (P : Trace α → Sample α → Prop) (samples : List (Sample α)) : Prop :=
  ∀ before s, before ++ [s] <+: samples → ∀ t ∈ Trace.of before, P t s

theorem AtEach.nil : AtEach P [] := by
  intro before s hpre
  simp at hpre

theorem atEach_append : AtEach P (samples ++ [s]) ↔ AtEach P samples ∧ ∀ t ∈ Trace.of samples, P t s := by
  constructor
  · intro h
    exact ⟨fun before s' hpre => h before s' (hpre.trans (List.prefix_append _ _)),
      h samples s (List.prefix_refl _)⟩
  · rintro ⟨h, hlast⟩ before s' hpre
    rcases List.prefix_concat_iff.mp hpre with heq | hpre
    · obtain ⟨rfl, hs⟩ := List.append_inj' heq rfl
      cases hs
      exact hlast
    · exact h before s' hpre

theorem AtEach.mono (h : AtEach P samples) (himp : ∀ t s, P t s → Q t s) : AtEach Q samples :=
  fun before s hpre t ht => himp t s (h before s hpre t ht)

/-- A change comes at least the threshold after the change before it. -/
def Spaced (threshold : Int) (t : Trace α) (s : Sample α) : Prop :=
  s.output ≠ t.output → ∀ c ∈ t.changes.head?, threshold ≤ s.time - c

/-- The report changes at most once in any window that is shorter than the threshold. -/
def OncePerWindow (threshold : Int) (samples : List (Sample α)) : Prop :=
  ∀ t ∈ Trace.of samples, t.changes.Pairwise fun later earlier => threshold ≤ later - earlier

/-- A level that has been held for the threshold is reported. -/
def ReportsHeld (threshold : Int) (t : Trace α) (s : Sample α) : Prop :=
  s.level = t.level → threshold ≤ s.time - t.since → s.output = s.level

/-- The samples are in the order of their times. -/
def InOrder (samples : List (Sample α)) : Prop := samples.Pairwise fun s s' => s.time ≤ s'.time

theorem Trace.changes_sublist (samples : List (Sample α)) :
    ∀ t ∈ Trace.of samples, t.changes.Sublist (samples.map Sample.time).reverse := by
  induction samples using List.reverseRecOn with
  | nil => simp
  | append_singleton samples s ih =>
    intro t ht
    rw [Trace.of_append, Trace.extend, Option.mem_def, Option.some.injEq] at ht
    subst ht
    rw [List.map_append, List.reverse_append]
    cases htrace : Trace.of samples with
    | none => exact List.nil_sublist _
    | some t =>
      have hsub := ih t htrace
      change (if s.output = t.output then t.changes else s.time :: t.changes).Sublist _
      split_ifs
      · exact hsub.trans (List.sublist_cons_self _ _)
      · exact hsub.cons_cons _

/-- The changes of samples in order are in order. -/
theorem InOrder.changes (h : InOrder samples) :
    ∀ t ∈ Trace.of samples, t.changes.Pairwise fun later earlier => earlier ≤ later := by
  intro t ht
  apply List.Pairwise.sublist (Trace.changes_sublist samples t ht)
  rw [List.pairwise_reverse, List.pairwise_map]
  exact h

/-- One change in a window means that each change is far enough from the one before. -/
theorem oncePerWindow_iff (h : InOrder samples) :
    OncePerWindow threshold samples ↔ AtEach (Spaced threshold) samples := by
  induction samples using List.reverseRecOn with
  | nil => exact iff_of_true (by simp [OncePerWindow]) AtEach.nil
  | append_singleton samples s ih =>
    have hbefore : InOrder samples := h.sublist (List.sublist_append_left _ _)
    rw [atEach_append, ← ih hbefore]
    unfold OncePerWindow
    rw [Trace.of_append]
    cases htrace : Trace.of samples with
    | none => simp [Trace.extend, Trace.start]
    | some t =>
      have horder := hbefore.changes t htrace
      simp only [Trace.extend, Option.elim_some, Option.mem_def, Option.some.injEq, forall_eq']
      change (if s.output = t.output then t.changes else s.time :: t.changes).Pairwise _ ↔ _
      unfold Spaced
      split_ifs with hsame
      · simp [hsame]
      · rw [List.pairwise_cons, and_comm]
        refine and_congr_right fun _ => ?_
        constructor
        · intro hall _ c hc
          exact hall c (List.mem_of_mem_head? hc)
        · intro hhead c hc
          cases hchanges : t.changes with
          | nil => simp [hchanges] at hc
          | cons last changes =>
            rw [hchanges] at hc horder
            have hlast := hhead hsame last (by simp [hchanges])
            rcases List.mem_cons.mp hc with rfl | hc
            · exact hlast
            · have hle := (List.pairwise_cons.mp horder).1 c hc
              omega

/-! ## Eager debouncing -/

/-- A change is reported at once, and then no other one until the threshold has passed. -/
def eagerOutput (threshold time : Int) (level : α) : Option (Trace α) → α
  | none => level
  | some t => if level ≠ t.output ∧ time - t.settled < threshold then t.output else level

/-- The samples of a signal that is debounced by itself. -/
def eager (threshold : Int) (levels : List (Int × α)) : List (Sample α) :=
  levels.foldl (fun samples l =>
    samples ++ [⟨l.1, l.2, eagerOutput threshold l.1 l.2 (Trace.of samples)⟩]) []

/-- Reported is the level or what has been reported before, and only the level once the report has settled. -/
structure Prompt (threshold : Int) (t : Trace α) (s : Sample α) : Prop where
  level (h : s.output ≠ t.output) : s.output = s.level
  atOnce (h : threshold ≤ s.time - t.settled) : s.output = s.level

theorem eager_append (levels : List (Int × α)) (l : Int × α) : eager threshold (levels ++ [l]) =
    eager threshold levels ++ [⟨l.1, l.2, eagerOutput threshold l.1 l.2 (Trace.of (eager threshold levels))⟩] := by
  unfold eager
  rw [List.foldl_append]
  rfl

theorem eagerOutput_prompt (time : Int) (level : α) :
    Prompt threshold t ⟨time, level, eagerOutput threshold time level (some t)⟩ := by
  unfold eagerOutput
  dsimp only
  constructor
  · intro h
    dsimp only at h ⊢
    split_ifs at h ⊢ with hheld
    · exact absurd rfl h
    · rfl
  · intro h
    dsimp only at h ⊢
    rw [if_neg (by omega)]

theorem eagerOutput_spaced (time : Int) (level : α) :
    Spaced threshold t ⟨time, level, eagerOutput threshold time level (some t)⟩ := by
  intro h c hc
  unfold eagerOutput at h
  dsimp only at h ⊢
  have hsettled : t.settled = c := by
    unfold Trace.settled
    rw [Option.mem_def.mp hc]
    rfl
  split_ifs at h with hheld
  · exact absurd rfl h
  · have hlate := not_and.mp hheld h
    omega

theorem eager_atEach (hP : ∀ t time level, P t ⟨time, level, eagerOutput threshold time level (some t)⟩)
    (levels : List (Int × α)) : AtEach P (eager threshold levels) := by
  induction levels using List.reverseRecOn with
  | nil => exact AtEach.nil
  | append_singleton levels l ih =>
    rw [eager_append, atEach_append]
    refine ⟨ih, fun t ht => ?_⟩
    rw [Option.mem_def.mp ht]
    exact hP t l.1 l.2

theorem eager_prompt (levels : List (Int × α)) : AtEach (Prompt threshold) (eager threshold levels) :=
  eager_atEach (fun _ => eagerOutput_prompt) levels

theorem eager_spaced (levels : List (Int × α)) : AtEach (Spaced threshold) (eager threshold levels) :=
  eager_atEach (fun _ => eagerOutput_spaced) levels

end Laws

end PicoRuby.Shared
