import PicoRuby.Task.Effects

/-!
# Join wake-ups

A task that has joined another one is released when that one ends. Only the end of
a slice in `mrb_tasks_run` looks for joiners; `mrb_terminate_task` does not.
-/

namespace PicoRuby.Task

open Shared

set_option autoImplicit false

/-! ## Joiners -/

/-- `u` waits for `t` to end, or was suspended while it did. -/
def Joined (core : Core) (u t : TaskId) : Prop :=
  ((core.tcb u).status = .waiting ∨ (core.tcb u).status = .suspended) ∧ hasJoined core t u

instance (core : Core) (u t : TaskId) : Decidable (Joined core u t) :=
  inferInstanceAs (Decidable (_ ∧ _))

section Conditions
variable {Q : Type}

/-- Nobody waits for a DORMANT task, except while `mrb_tasks_run` is about to release
its joiners. -/
def NoLostJoin (s : State Q) : Prop :=
  ∀ u < s.mem.core.created, ∀ t, Joined s.mem.core u t →
    (s.mem.core.tcb t).status = .dormant → s.pc = .stoppedGap t

/-- `u` is DORMANT, but its TCB still says that it waits for another DORMANT task. -/
def StaleJoin (core : Core) (u : TaskId) : Prop :=
  (core.tcb u).status = .dormant ∧
    ∃ t ∈ (core.tcb u).tcbJoin, hasJoined core t u ∧ (core.tcb t).status = .dormant

instance (core : Core) (u : TaskId) : Decidable (StaleJoin core u) :=
  inferInstanceAs (Decidable (_ ∧ _))

def keepsJoiners (m : Mem Q) : Pc → Bool
  | .op _ (.terminateSection t) => ∀ u < m.core.created, ¬ Joined m.core u t
  | .op _ (.suspendSection u) => ¬ StaleJoin m.core u
  | _ => true

/-- Nobody terminates a joined task, or suspends a DORMANT one with a stale join. -/
def KeepsJoiners (s : State Q) (a : Act) : Prop := a = .run → keepsJoiners s.mem s.pc = true

instance (s : State Q) (a : Act) : Decidable (KeepsJoiners s a) :=
  inferInstanceAs (Decidable (_ → _))

end Conditions

/-- The walk over the joiners of an ended task releases all of them. -/
def EndReleases (cfg : Config) {Q : Type} [TaskQueues Q] (s : State Q) : Prop :=
  ∀ t s', s.pc = .stoppedGap t → Step cfg s .run s' →
    ∀ u < s.mem.core.created, Joined s.mem.core u t →
      (s'.mem.core.tcb u).reason = .none ∧
        (s'.mem.core.tcb u).status =
          if (s.mem.core.tcb u).status = .waiting then .ready else .suspended

/-! ## One step -/

section Step
variable {cfg : Config} {m : Mem Lists} {b b' : State Lists} {pc : Pc} {a : Act} {t u : TaskId}
  {w : WaitState}

theorem Effect.joined_cases (h : Effect cfg m u pc a w) (hr : ReasonOk (m.core.tcb u))
    (hst : w.status = .waiting ∨ w.status = .suspended) (hreason : w.reason = .join)
    (hjoin : w.tcbJoin = some t) :
    Joined m.core u t ∨ pc = .op u (.joinSection t) ∧ (m.core.tcb t).status ≠ .dormant ∨
      (∃ x, pc = .op x (.suspendSection u)) ∧ a = .run ∧ (m.core.tcb u).status = .dormant ∧
        hasJoined m.core t u := by
  cases h with
  | same => exact Or.inl ⟨hst, hreason, hjoin⟩
  | created _ => simp at hst
  | woken _ _ => simp at hst
  | marked _ => simp at hst
  | slept _ => cases hreason
  | @suspended x hne =>
    cases hold : (m.core.tcb u).status with
    | dormant => exact Or.inr (Or.inr ⟨⟨x, rfl⟩, rfl, rfl, hreason, hjoin⟩)
    | ready =>
      rw [ReasonOk, hold] at hr
      exact absurd (hr.symm.trans hreason) (by simp)
    | running =>
      rw [ReasonOk, hold] at hr
      exact absurd (hr.symm.trans hreason) (by simp)
    | waiting => exact Or.inl ⟨Or.inl hold, hreason, hjoin⟩
    | suspended => exact absurd hold hne
  | resumed hold _ => exact Or.inl ⟨Or.inr hold, hreason, hjoin⟩
  | terminated => simp at hst
  | @joined x _ hlive =>
    cases hjoin
    exact Or.inr (Or.inl ⟨rfl, hlive⟩)
  | stopped => simp at hst
  | unmarked _ => simp at hst
  | releasedWaiting _ _ => simp at hst
  | releasedSuspended _ _ => cases hreason

theorem Effect.dormant_cases (h : Effect cfg m u pc a w) (hst : w.status = .dormant) :
    (m.core.tcb u).status = .dormant ∨ (∃ x, pc = .op x (.terminateSection u)) ∧ a = .run ∨
      pc = .afterSlice u ∧ a = .run ∧ (m.core.tcb u).c.status = .stopped := by
  cases h with
  | same => exact Or.inl hst
  | terminated => exact Or.inr (Or.inl ⟨⟨_, rfl⟩, rfl⟩)
  | stopped hstopped => exact Or.inr (Or.inr ⟨rfl, rfl, hstopped⟩)
  | @resumed _ flag _ _ => cases flag <;> simp at hst
  | @releasedSuspended _ hold _ => exact absurd (hold.symm.trans hst) (by simp)
  | _ => simp at hst

/-- A step creates at most one task, which is READY. -/
theorem Trans.created_cases (h : Trans cfg b a b') :
    b'.mem.core.created = b.mem.core.created ∨
      b'.mem.core.created = b.mem.core.created + 1 ∧
        (b'.mem.core.tcb b.mem.core.created).status = .ready := by
  rcases h.created_or_new with heq | ⟨priority, proc, -, hmem⟩
  · exact Or.inl heq
  · rw [hmem]
    refine Or.inr ⟨rfl, ?_⟩
    rw [Lists.createTask_tcb, if_pos rfl]
    rfl

theorem Trans.released (h : Trans cfg ⟨m, .stoppedGap t⟩ .run b') (hw : Wf ⟨m, .stoppedGap t⟩)
    (hu : u < m.core.created) (hj : Joined m.core u t) :
    (b'.mem.core.tcb u).reason = .none ∧ (b'.mem.core.tcb u).status =
      if (m.core.tcb u).status = .waiting then .ready else .suspended := by
  cases h with
  | silent hs => cases hs
  | release _ =>
    obtain ⟨k, hk⟩ := hw.placed.release_noted_tcb t u
    dsimp only
    rw [hk]
    obtain ⟨hst, hjoined⟩ := hj
    by_cases hwaiting : (m.core.tcb u).status = .waiting
    · rw [if_pos ⟨⟨hu, hwaiting⟩, hjoined⟩, if_pos hwaiting]
      exact ⟨rfl, rfl⟩
    · have hsuspended := hst.resolve_left hwaiting
      rw [if_neg fun h => hwaiting h.1.2, if_pos ⟨⟨hu, hsuspended⟩, hjoined⟩, if_neg hwaiting]
      exact ⟨rfl, hsuspended⟩

/-- A slice that ends with a stopped context goes on to release the joiners. -/
theorem Trans.stopped_pc (h : Trans cfg ⟨m, .afterSlice t⟩ .run b')
    (hst : (m.core.tcb t).c.status = .stopped) : b'.pc = .stoppedGap t := by
  cases h with
  | silent hs =>
    cases hs with
    | noSwitch hne _ => exact absurd hst hne
  | stopped _ => rfl
  | unmark hne _ => exact absurd hst hne

theorem Trans.tick_pc (h : Trans cfg b .tick b') : b'.pc = b.pc := by
  cases h with
  | tick => rfl
  | silent hs =>
    cases hs with
    | nothing hne => exact absurd rfl hne
    | sleepCall hne => exact absurd rfl hne

theorem Trans.noLostJoin (h : Trans cfg b a b') (hw : Wf b) (hok : KeepsJoiners b a)
    (hi : NoLostJoin b) : NoLostJoin b' := by
  obtain ⟨m, pc⟩ := b
  intro u hu t hj hd
  have hlt : u < m.core.created := by
    rcases h.created_cases with heq | ⟨heq, hready⟩
    · exact heq ▸ hu
    · by_contra hge
      have hnew : u = m.core.created := by
        dsimp only at heq
        omega
      dsimp only at hready
      rw [← hnew] at hready
      rcases hj.1 with hst | hst <;> exact absurd (hready.symm.trans hst) (by simp)
  have hdorm := (h.effect hw t).dormant_cases hd
  rcases (h.effect hw u).joined_cases (hw.reason u) hj.1 hj.2.1 hj.2.2 with
    hold | ⟨rfl, hlive⟩ | ⟨⟨x, rfl⟩, rfl, hu_dormant, hstale⟩
  · rcases hdorm with ht | ⟨⟨x, rfl⟩, rfl⟩ | ⟨rfl, rfl, hstopped⟩
    · -- lost before the step: the release is under way
      have hgap : pc = .stoppedGap t := hi u hlt t hold ht
      subst hgap
      by_cases ha : a = .tick
      · subst ha
        exact h.tick_pc
      · have hrun : a = .run := by
          cases h with
          | tick => exact absurd rfl ha
          | silent hs => cases hs
          | release _ => rfl
        subst hrun
        have hnone := (h.released hw hlt hold).1
        exact absurd (hnone.symm.trans hj.2.1) (by simp)
    · have hno := hok rfl
      simp only [keepsJoiners, decide_eq_true_eq] at hno
      exact absurd hold (hno u hlt)
    · exact h.stopped_pc hstopped
  · rcases hdorm with ht | ⟨⟨x, hpc⟩, _⟩ | ⟨hpc, _⟩
    · exact absurd ht hlive
    · cases hpc
    · cases hpc
  · rcases hdorm with ht | ⟨⟨x, hpc⟩, _⟩ | ⟨hpc, _⟩
    · have hno := hok rfl
      simp only [keepsJoiners, decide_eq_true_eq] at hno
      exact absurd ⟨hu_dormant, t, hstale.2, hstale, ht⟩ hno
    · cases hpc
    · cases hpc

end Step

/-! ## No lost join -/

section Claim
variable {cfg : Config} {s : State Links} {b : State Lists}

theorem keepsJoiners_related (s : State Links) (b : State Lists) (a : Act) (h : Related s b)
    (hok : KeepsJoiners s a) : KeepsJoiners b a := by
  intro ha
  have hs := hok ha
  unfold keepsJoiners at hs ⊢
  rw [h.core, h.pc] at hs
  exact hs

theorem Related.noLostJoin (h : Related s b) (hi : NoLostJoin b) : NoLostJoin s := by
  unfold NoLostJoin
  rw [h.core, h.pc]
  exact hi

theorem Related.endReleases (h : Related s b) : EndReleases cfg s := by
  intro t s' hpc hstep u hu hj
  obtain ⟨b', hstep', hrel⟩ := h.step hstep
  rw [h.core] at hu hj ⊢
  rw [hrel.core]
  rw [h.pc] at hpc
  have htrans := hstep'.trans
  have hw := h.wf
  obtain ⟨m, pc⟩ := b
  dsimp only at hpc
  subst hpc
  exact htrans.released hw hu hj

/-- In a run that terminates no joined task and suspends no task with a stale join,
every joiner waits for a live task, and the end of that task releases it. -/
theorem noLostJoin_of_run {as : List Act} (h : Run (Step cfg) KeepsJoiners boot as s) :
    NoLostJoin s ∧ EndReleases cfg s := by
  obtain ⟨b, hrun, hrel⟩ := Related.boot.run keepsJoiners_related h
  have hinit : NoLostJoin bootLists := fun u hu => absurd hu (Nat.not_lt_zero u)
  have hstep : ∀ c a c', Wf c → NoLostJoin c → KeepsJoiners c a → Trans cfg c a c' →
      NoLostJoin c' := fun c a c' hw hi hok ht => ht.noLostJoin hw hok hi
  obtain ⟨_, hi⟩ := Wf.init.run_invariant hrun hstep hinit
  exact ⟨hrel.noLostJoin hi, hrel.endReleases⟩

end Claim

/-- Task 0 joins task 1, which is then dispatched. -/
def joinOther : List Act :=
  [.createTask none 0, .createTask none 1, .run, .run, .run, .run, .join 1, .run, .run,
    .vmReturn ⟨.yielded, 0, 1, []⟩, .run, .run, .run, .run, .run]

theorem noLostJoin_of_joinOther : ∃ s,
    Run (Step Config.hal) KeepsJoiners boot (joinOther ++ [.vmReturn ⟨.finished, 0, 1, []⟩, .run, .run]) s ∧
      Joined s.mem.core 0 1 ∧ NoLostJoin s ∧ EndReleases Config.hal s := by
  have hplay : ∃ s ∈ play Config.hal KeepsJoiners boot
      (joinOther ++ [.vmReturn ⟨.finished, 0, 1, []⟩, .run, .run]), Joined s.mem.core 0 1 := by
    decide +kernel
  obtain ⟨s, hs, hj⟩ := hplay
  exact ⟨s, run_of_play hs, hj, noLostJoin_of_run (run_of_play hs)⟩

/-- `mrb_terminate_task` releases nobody. -/
theorem noLostJoin_fails : ¬ ∀ (as : List Act) (s : State Links),
    Run (Step Config.hal) (fun _ _ => True) boot as s → ∀ u < s.mem.core.created, ∀ t,
      Joined s.mem.core u t → (s.mem.core.tcb t).status ≠ .dormant := by
  intro hall
  have hplay : ∃ s ∈ play Config.hal (fun _ _ => True) boot (joinOther ++ [.terminate 1, .run]),
      0 < s.mem.core.created ∧ Joined s.mem.core 0 1 ∧ (s.mem.core.tcb 1).status = .dormant := by
    decide +kernel
  obtain ⟨s, hs, hcreated, hj, hdormant⟩ := hplay
  exact hall _ s (run_of_play hs) 0 hcreated 1 hj hdormant

end PicoRuby.Task
