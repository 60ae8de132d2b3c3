import PicoRuby.Task.SleepTiming
import PicoRuby.Task.JoinRelease

/-!
# Suspending and resuming

`mrb_resume_task` decides from the wait reason alone whether the task is READY or
goes on waiting, and neither `mrb_suspend_task` nor `mrb_terminate_task` looks at it.
Resuming restores what suspending interrupted as long as no reason is left over
from a task that has ended.
-/

namespace PicoRuby.Task

open Shared

set_option autoImplicit false

/-! ## What is required of a run -/

section Conditions
variable {Q : Type} [TaskQueues Q]

def keepsWaits (m : Mem Q) : Pc → Act → Bool
  | .op c (.sleepEnter _), .run => head m.queues qReady = some c
  | .op _ (.terminateSection t), .run => ∀ u < m.core.created, ¬ Joined m.core u t
  | .op _ (.suspendSection u), .run =>
    ¬ ((m.core.tcb u).status = .dormant ∧ (m.core.tcb u).reason ≠ .none)
  | _, .sandboxExecute u _ => (m.core.tcb u).c.calls = []
  | _, _ => true

/-- A sleep finds its caller at the head of the ready queue, nobody terminates a joined
task, no DORMANT task is suspended with a reason left over, no context with open calls
is executed again, and sleeps are short. -/
def KeepsWaits (cfg : Config) (s : State Q) (a : Act) : Prop :=
  keepsWaits s.mem s.pc a = true ∧ ShortSleeps cfg s a

instance (cfg : Config) (s : State Q) (a : Act) : Decidable (KeepsWaits cfg s a) :=
  inferInstanceAs (Decidable (_ ∧ _))

end Conditions

/-! ## The claims about a state -/

section Claims
variable {Q : Type} [TaskQueues Q]

/-- The reason says what the status needs. -/
def ReasonsFit (s : State Q) : Prop :=
  ∀ u, ((s.mem.core.tcb u).status = .ready ∨ (s.mem.core.tcb u).status = .running →
      (s.mem.core.tcb u).reason = .none) ∧
    ((s.mem.core.tcb u).status = .waiting →
      (s.mem.core.tcb u).reason = .sleep ∨ (s.mem.core.tcb u).reason = .join)

/-- A later tick wakes the sleeper `u`. -/
def TickReleases (cfg : Config) (u : TaskId) (s : State Q) : Prop :=
  ∃ n : Nat, ∀ (as : List Act) (s' : State Q), Run (Step cfg) (Sleeps cfg u) s (as ++ [.tick]) s' →
    as.count .tick = n →
      (s'.mem.core.tcb u).status = .ready ∧ (s'.mem.core.tcb u).reason = .none

/-- `u` waits for something it started itself and that is still to come. -/
structure OwnWait (cfg : Config) (u : TaskId) (s : State Q) : Prop where
  starter : (s.mem.core.tcb u).waitStarter = some u
  sleep : (s.mem.core.tcb u).reason = .sleep → s.pc.resuming ≠ some u → TickReleases cfg u s
  join : ∀ t, hasJoined s.mem.core t u → (s.mem.core.tcb t).status = .dormant →
    s.pc = .stoppedGap t

/-- Suspending `u` and resuming it leaves `u` READY, or back in the wait it was in. -/
def Transparent (cfg : Config) (Ok : State Q → Act → Prop) (s : State Q) : Prop :=
  ∀ (t u : TaskId) (s₁ : State Q), s.pc = .op t (.suspendSection u) → Ok s .run →
    Step cfg s .run s₁ →
    ∀ (as : List Act) (s₂ : State Q),
      Run (Step cfg) (fun s a => Ok s a ∧ (s.mem.core.tcb u).status = .suspended) s₁ as s₂ →
      ∀ (t' : TaskId) (flag : Bool) (s₃ : State Q), s₂.pc = .op t' (.resumeSection u flag) →
        Step cfg s₂ .run s₃ →
        (s₃.mem.core.tcb u).status = .ready ∨
          (s.mem.core.tcb u).status = .waiting ∧
            (s₃.mem.core.tcb u).waitState = (s.mem.core.tcb u).waitState ∧ OwnWait cfg u s₃

/-- `u` does not return from the VM and is given no other code. -/
def LeavesContext (u : TaskId) (s : State Q) (a : Act) : Prop :=
  (∀ r, a = .vmReturn r → s.pc ≠ .exec u) ∧ (∀ proc, a ≠ .sandboxExecute u proc) ∧
    ∀ proc, a ≠ .sandboxExecVmCode u proc

/-- `Sandbox#execute` on `u` makes its next slice start with the new code. -/
def RunsNewCode (cfg : Config) (Ok : State Q → Act → Prop) (s : State Q) : Prop :=
  ∀ (u : TaskId) (proc : ProcId) (s₁ : State Q), Ok s (.sandboxExecute u proc) →
    Step cfg s (.sandboxExecute u proc) s₁ →
    (s₁.mem.core.tcb u).c.status = .created ∧
    ∀ (as : List Act) (s₂ : State Q), Run (Step cfg) (LeavesContext u) s₁ as s₂ →
      (s₂.mem.core.tcb u).c.ci = ⟨proc, 0⟩

/-- Everything the scheduler promises about waits in the state `s`. -/
structure WaitsKept (cfg : Config) (Ok : State Q → Act → Prop) (s : State Q) : Prop where
  reasons : ReasonsFit s
  own : ∀ u < s.mem.core.created, (s.mem.core.tcb u).status = .waiting → OwnWait cfg u s
  released : EndReleases cfg s
  transparent : Transparent cfg Ok s
  newCode : RunsNewCode cfg Ok s

end Claims

/-! ## Who started a wait -/

/-- Every task in a wait has started it, and a sleep under way is aimed at its caller. -/
structure Starters (b : State Lists) : Prop where
  starter : ∀ u, (b.mem.core.tcb u).status = .waiting ∨ (b.mem.core.tcb u).status = .suspended →
    (b.mem.core.tcb u).reason ≠ .none → (b.mem.core.tcb u).waitStarter = some u
  aim : ∀ t u ms, b.pc = .op t (.sleepSection (some u) ms) → u = t

section Step
variable {cfg : Config} {m : Mem Lists} {b b' : State Lists} {pc : Pc} {a : Act} {t u : TaskId}
  {w : WaitState} {ms : Int} {target : Option TaskId}

theorem KeepsWaits.keepsJoiners {Q : Type} [TaskQueues Q] {s : State Q} (h : KeepsWaits cfg s a) :
    KeepsJoiners s a := by
  rintro rfl
  have hok := h.1
  unfold keepsWaits at hok
  unfold keepsJoiners
  split
  · rename_i v hpc
    rw [hpc] at hok
    exact hok
  · rename_i v hpc
    rw [hpc] at hok
    simp only [decide_not, Bool.not_eq_true', decide_eq_false_iff_not] at hok ⊢
    rintro ⟨hdormant, x, _, hjoined, _⟩
    exact hok ⟨hdormant, by simp [hjoined.1]⟩
  · rfl

theorem keepsWaits_execute {proc : ProcId} :
    keepsWaits m pc (.sandboxExecute u proc) = decide ((m.core.tcb u).c.calls = []) := by
  cases pc with
  | op t o => cases o <;> rfl
  | _ => rfl

/-- The section of a sleep comes from the read of `q_ready_`. -/
theorem Trans.sleepSection_pc (h : Trans cfg b a b')
    (hpc : b'.pc = .op t (.sleepSection target ms)) :
    b.pc = .op t (.sleepSection target ms) ∨
      b.pc = .op t (.sleepEnter ms) ∧ a = .run ∧ target = (b.mem.queues qReady).head? := by
  cases h with
  | tick => exact Or.inl hpc
  | silent hs =>
    cases hs with
    | sleepEnter =>
      cases hpc
      exact Or.inr ⟨rfl, rfl, rfl⟩
    | _ => cases hpc
  | execute _ =>
    unfold Task.resumePc at hpc
    split at hpc <;> cases hpc
  | execVmCode _ =>
    unfold Task.resumePc at hpc
    split at hpc <;> cases hpc
  | release hpc' => rcases hpc' with rfl | rfl <;> cases hpc
  | _ => cases hpc

theorem Effect.starter (h : Effect cfg m u pc a w) (hr : ReasonOk (m.core.tcb u))
    (hi : Starters ⟨m, pc⟩) (hok : keepsWaits m pc a = true)
    (hst : w.status = .waiting ∨ w.status = .suspended) (hreason : w.reason ≠ .none) :
    w.waitStarter = some u := by
  have hold := hi.starter u
  cases h with
  | same => exact hold hst hreason
  | created _ => simp at hst
  | woken _ _ => simp at hst
  | marked _ => simp at hst
  | @slept t ms _ => rw [hi.aim t u ms rfl]
  | @suspended x hne =>
    unfold ReasonOk at hr
    cases hstatus : (m.core.tcb u).status with
    | dormant =>
      have hno : (m.core.tcb u).reason = .none := by simpa [keepsWaits, hstatus] using hok
      exact absurd hno hreason
    | ready =>
      rw [hstatus] at hr
      exact absurd hr hreason
    | running =>
      rw [hstatus] at hr
      exact absurd hr hreason
    | waiting => exact hold (Or.inl hstatus) hreason
    | suspended => exact absurd hstatus hne
  | resumed hsusp _ => exact hold (Or.inr hsusp) hreason
  | terminated => simp at hst
  | joined _ _ => rfl
  | stopped => simp at hst
  | unmarked _ => simp at hst
  | releasedWaiting _ _ => simp at hst
  | releasedSuspended _ _ => exact absurd rfl hreason

theorem Trans.starters (h : Trans cfg b a b') (hw : Wf b) (hok : keepsWaits b.mem b.pc a = true)
    (hi : Starters b) : Starters b' := by
  obtain ⟨m, pc⟩ := b
  refine ⟨fun u hst hreason => (h.effect hw u).starter (hw.reason u) hi hok hst hreason, ?_⟩
  intro t u ms hpc
  rcases h.sleepSection_pc hpc with hbefore | ⟨hbefore, rfl, hhead⟩
  · exact hi.aim t u ms hbefore
  · dsimp only at hbefore
    subst hbefore
    have hcaller : head m.queues qReady = some t := of_decide_eq_true hok
    exact Option.some.inj (hhead.trans hcaller)

/-! ## A task while it is suspended -/

/-- A suspended task keeps its wait, unless the task it has joined ends. -/
theorem Effect.suspended_cases (h : Effect cfg m u pc a w)
    (hst : (m.core.tcb u).status = .suspended) (hlt : u < m.core.created) :
    w.status = .suspended → w.reason = .none ∨ w = (m.core.tcb u).waitState := by
  intro hw
  cases h with
  | same => exact Or.inr rfl
  | created hnew => exact absurd hnew (Nat.ne_of_lt hlt)
  | releasedSuspended _ _ => exact Or.inl rfl
  | suspended hne => exact absurd hst hne
  | @resumed _ flag _ _ => cases flag <;> simp at hw
  | _ => simp at hw

theorem suspended_run {as : List Act}
    (h : Run (Step cfg) (fun b _ => (b.mem.core.tcb u).status = .suspended) b as b') (hw : Wf b)
    (hlt : u < b.mem.core.created) (hst : (b'.mem.core.tcb u).status = .suspended) :
    (b'.mem.core.tcb u).reason = .none ∨
      (b'.mem.core.tcb u).waitState = (b.mem.core.tcb u).waitState := by
  have hall := hw.run_invariant h (I := fun c => u < c.mem.core.created ∧
    ((c.mem.core.tcb u).status = .suspended → (c.mem.core.tcb u).reason = .none ∨
      (c.mem.core.tcb u).waitState = (b.mem.core.tcb u).waitState)) ?_ ⟨hlt, fun _ => Or.inr rfl⟩
  · exact hall.2.2 hst
  · rintro c a c' hw ⟨hlt, hkeep⟩ hold htrans
    refine ⟨htrans.created_mono hlt, fun hst' => ?_⟩
    obtain ⟨m, pc⟩ := c
    rcases (htrans.effect hw u).suspended_cases hold hlt hst' with hnone | hsame
    · exact Or.inl hnone
    · rcases hkeep hold with hnone | heq
      · have hreason := congrArg WaitState.reason hsame
        exact Or.inl (hreason.trans hnone)
      · exact Or.inr (hsame.trans heq)

theorem Trans.suspended (h : Trans cfg ⟨m, .op t (.suspendSection u)⟩ .run b') :
    (b'.mem.core.tcb u).waitState = { (m.core.tcb u).waitState with status := .suspended } := by
  cases h with
  | silent hs => cases hs
  | suspendSection =>
    dsimp only
    rw [Lists.requeue_tcb, if_pos rfl]
    rfl

theorem Trans.resumed {flag : Bool} (h : Trans cfg ⟨m, .op t (.resumeSection u flag)⟩ .run b') :
    b'.pc = .op t (.resumeTest u) ∧ (b'.mem.core.tcb u).waitState =
      { (m.core.tcb u).waitState with status := if flag then .ready else .waiting } := by
  cases h with
  | silent hs => cases hs
  | resumeSection =>
    dsimp only
    rw [Lists.resume_tcb, if_pos rfl]
    exact ⟨rfl, rfl⟩

/-- What is suspended in a wait goes back to it; everything else becomes READY. -/
theorem suspend_resume {as : List Act} {b₁ b₂ b₃ : State Lists} {t' : TaskId} {flag : Bool}
    (hw : Wf ⟨m, .op t (.suspendSection u)⟩)
    (hok : ¬ ((m.core.tcb u).status = .dormant ∧ (m.core.tcb u).reason ≠ .none))
    (hsuspend : Trans cfg ⟨m, .op t (.suspendSection u)⟩ .run b₁)
    (hrun : Run (Step cfg) (fun b _ => (b.mem.core.tcb u).status = .suspended) b₁ as b₂)
    (hpc : b₂.pc = .op t' (.resumeSection u flag)) (hresume : Trans cfg b₂ .run b₃) :
    (b₃.mem.core.tcb u).status = .ready ∨ (m.core.tcb u).status = .waiting ∧
      (b₃.mem.core.tcb u).waitState = (m.core.tcb u).waitState := by
  have hw₁ := hsuspend.wf hw
  have hlt : u < b₁.mem.core.created := hsuspend.created_mono hw.pcOk.2.2.1
  have hw₂ := (hw₁.run_invariant (I := fun _ => True) hrun (fun _ _ _ _ _ _ _ => trivial) trivial).1
  obtain ⟨m₂, pc₂⟩ := b₂
  dsimp only at hpc
  subst hpc
  obtain ⟨_, hst₂, hflag⟩ := hw₂.pcOk.2.2
  have hw₃ := hresume.resumed.2
  have hstatus₃ := congrArg WaitState.status hw₃
  by_cases hnone : (m₂.core.tcb u).reason = .none
  · left
    rw [hflag, decide_eq_true hnone] at hstatus₃
    exact hstatus₃
  · right
    have hkeep := (suspended_run hrun hw₁ hlt hst₂).resolve_left hnone
    rw [hsuspend.suspended] at hkeep
    have hreason : (m.core.tcb u).reason ≠ .none := by
      have hsame := congrArg WaitState.reason hkeep
      exact fun h => hnone (hsame.trans h)
    have hold := hw.reason u
    have hstatus : (m.core.tcb u).status = .waiting := by
      unfold ReasonOk at hold
      cases hst : (m.core.tcb u).status with
      | dormant => exact absurd ⟨hst, hreason⟩ hok
      | ready => exact absurd (by simpa [hst] using hold) hreason
      | running => exact absurd (by simpa [hst] using hold) hreason
      | waiting => rfl
      | suspended => exact absurd hst hw.pcOk.2.2.2
    refine ⟨hstatus, ?_⟩
    rw [hw₃, hkeep, hflag, decide_eq_false hnone]
    simp [Tcb.waitState, hstatus]

/-! ## New code -/

theorem Trans.ci (h : Trans cfg b a b') (hw : Wf b) (hlt : u < b.mem.core.created)
    (hok : LeavesContext u b a) : (b'.mem.core.tcb u).c.ci = (b.mem.core.tcb u).c.ci := by
  obtain ⟨m, pc⟩ := b
  have heff := h.bodyEffect hw u
  generalize b'.mem.core.tcb u = tcb at heff
  cases heff with
  | same hsame => rw [hsame.1]
  | created hnew => exact absurd hnew (Nat.ne_of_lt hlt)
  | vmReturn => exact absurd rfl (hok.1 _ rfl)
  | stop => rfl
  | execute => exact absurd rfl (hok.2.1 _)
  | execVmCode => exact absurd rfl (hok.2.2 _)
  | fail _ => rfl

theorem ci_run {as : List Act} (h : Run (Step cfg) (LeavesContext u) b as b') (hw : Wf b)
    (hlt : u < b.mem.core.created) : (b'.mem.core.tcb u).c.ci = (b.mem.core.tcb u).c.ci := by
  have hstep : ∀ c a c', Wf c →
      (u < c.mem.core.created ∧ (c.mem.core.tcb u).c.ci = (b.mem.core.tcb u).c.ci) →
      LeavesContext u c a → Trans cfg c a c' →
      u < c'.mem.core.created ∧ (c'.mem.core.tcb u).c.ci = (b.mem.core.tcb u).c.ci :=
    fun c a c' hw hi hok ht => ⟨ht.created_mono hi.1, (ht.ci hw hi.1 hok).trans hi.2⟩
  exact (hw.run_invariant h hstep ⟨hlt, rfl⟩).2.2

theorem Step.executes {proc : ProcId} (h : Step cfg b (.sandboxExecute u proc) b')
    (hcalls : (b.mem.core.tcb u).c.calls = []) :
    u < b'.mem.core.created ∧ (b'.mem.core.tcb u).c = ⟨⟨proc, 0⟩, [], .created, false⟩ := by
  unfold Step Task.step at h
  dsimp only at h
  split at h
  · unfold call at h
    dsimp only at h
    split at h
    · cases h
      refine ⟨‹_›, ?_⟩
      rw [Mem.setTcb_core, Core.setTcb_tcb_self, mrbSandboxExecute, mrbTaskProcSet, hcalls]
      rfl
    · cases h
  · cases h

end Step

/-! ## Waits are kept -/

section Claim
variable {cfg : Config} {s : State Links} {b : State Lists} {u : TaskId}

/-- What the run invariants say about a state. -/
structure Kept (b : State Lists) : Prop where
  starters : Starters b
  joins : NoLostJoin b
  wakes : WakeInv b

theorem Kept.init : Kept bootLists := by
  refine ⟨⟨fun _ _ h => absurd rfl h, fun _ _ _ h => ?_⟩, fun u hu => ?_, WakeInv.init⟩
  · cases h
  · exact absurd hu (Nat.not_lt_zero u)

theorem Kept.run {as : List Act} {b' : State Lists} (hi : Kept b) (hw : Wf b)
    (h : Run (Step cfg) (KeepsWaits cfg) b as b') : Wf b' ∧ Kept b' := by
  have hstep : ∀ c a c', Wf c → Kept c → KeepsWaits cfg c a → Trans cfg c a c' → Kept c' :=
    fun c a c' hw hi hok ht => ⟨ht.starters hw hok.1 hi.starters,
      ht.noLostJoin hw hok.keepsJoiners hi.joins, ht.wakeInv hw hok.2 hi.wakes⟩
  exact hw.run_invariant h hstep hi

theorem keepsWaits_related (s : State Links) (b : State Lists) (a : Act) (h : Related s b)
    (hok : KeepsWaits cfg s a) : KeepsWaits cfg b a := by
  refine ⟨?_, shortSleeps_related s b a h hok.2⟩
  have hhead : head s.mem.queues qReady = head b.mem.queues qReady := h.head qReady
  have hkeep := hok.1
  unfold keepsWaits at hkeep ⊢
  rw [h.pc, h.core, hhead] at hkeep
  exact hkeep

theorem Related.tickReleases (h : Related s b) (hi : WakeInv b) (hu : u < b.mem.core.created)
    (hsleep : Sleeping b.mem.core u) (hpc : b.pc.resuming ≠ some u) : TickReleases cfg u s := by
  refine ⟨(sleepDist b.mem.core u).toNat, fun as s' hrun hcount => ?_⟩
  obtain ⟨b', hrun', hrel⟩ := h.run sleeps_related hrun
  rw [hrel.core]
  exact asleep_wakes hrun' h.wf hi ⟨hu, hsleep, rfl, hpc⟩ hcount

theorem Related.ownWait (h : Related s b) (hstart : Starters b) (hjoin : NoLostJoin b)
    (hwake : b.pc.resuming ≠ some u → WakeInv b) (hu : u < b.mem.core.created)
    (hst : (b.mem.core.tcb u).status = .waiting) : OwnWait cfg u s := by
  have hreason := h.wf.reason u
  rw [ReasonOk, hst] at hreason
  refine ⟨?_, fun hsleep hpc => ?_, fun t hj hdormant => ?_⟩
  · rw [h.core]
    apply hstart.starter u (Or.inl hst)
    rcases hreason with hr | hr <;> simp [hr]
  · rw [h.core] at hsleep
    rw [h.pc] at hpc
    exact h.tickReleases (hwake hpc) hu ⟨hst, hsleep⟩ hpc
  · rw [h.core] at hj hdormant
    rw [h.pc]
    exact hjoin u hu t ⟨Or.inl hst, hj⟩ hdormant

theorem Related.reasonsFit (h : Related s b) : ReasonsFit s := by
  intro u
  have hreason := h.wf.reason u
  rw [h.core]
  unfold ReasonOk at hreason
  constructor
  · rintro (hst | hst) <;> simpa [hst] using hreason
  · intro hst
    simpa [hst] using hreason

theorem Related.transparent (h : Related s b) (hi : Kept b) :
    Transparent cfg (KeepsWaits cfg) s := by
  intro t u s₁ hpc hok hsuspend as s₂ hrun t' flag s₃ hpc₂ hresume
  have hside : ∀ (s : State Links) (b : State Lists) (a : Act), Related s b →
      KeepsWaits cfg s a ∧ (s.mem.core.tcb u).status = .suspended →
      KeepsWaits cfg b a ∧ (b.mem.core.tcb u).status = .suspended :=
    fun s b a hr hk => ⟨keepsWaits_related s b a hr hk.1, hr.core ▸ hk.2⟩
  have hok' := keepsWaits_related s b .run h hok
  obtain ⟨b₁, hsuspend', hrel₁⟩ := h.step hsuspend
  obtain ⟨b₂, hrun', hrel₂⟩ := hrel₁.run hside hrun
  obtain ⟨b₃, hresume', hrel₃⟩ := hrel₂.step hresume
  -- the invariants reach the resumed state
  obtain ⟨_, hi₁⟩ := hi.run h.wf (.single hok' hsuspend')
  obtain ⟨_, hi₂⟩ := hi₁.run hrel₁.wf (hrun'.mono fun _ _ hk => hk.1)
  have hpc₂' : b₂.pc = .op t' (.resumeSection u flag) := hrel₂.pc ▸ hpc₂
  have htrans := hresume'.trans
  have hstart₃ := htrans.starters hrel₂.wf (by rw [hpc₂']; rfl) hi₂.starters
  have hjoins₃ := htrans.noLostJoin hrel₂.wf (fun _ => by rw [hpc₂']; rfl) hi₂.joins
  have hpc' := h.pc ▸ hpc
  have hw := h.wf
  have htrans₁ := hsuspend'.trans
  have hcore := h.core
  obtain ⟨m, pc⟩ := b
  dsimp only at hpc' hcore
  subst hpc'
  have hended : ¬ ((m.core.tcb u).status = .dormant ∧ (m.core.tcb u).reason ≠ .none) :=
    of_decide_eq_true hok'.1
  rw [hcore, hrel₃.core]
  rcases suspend_resume hw hended htrans₁ (hrun'.mono fun _ _ hk => hk.2) hpc₂' htrans with
    hready | ⟨hst, hsame⟩
  · exact Or.inl hready
  · refine Or.inr ⟨hst, hsame, ?_⟩
    have hst₃ : (b₃.mem.core.tcb u).status = .waiting := (congrArg WaitState.status hsame).trans hst
    have hpc₃ : b₃.pc = .op t' (.resumeTest u) := by
      obtain ⟨m₂, pc₂⟩ := b₂
      dsimp only at hpc₂'
      subst hpc₂'
      exact htrans.resumed.1
    refine hrel₃.ownWait hstart₃ hjoins₃ (fun hno => absurd ?_ hno) ?_ hst₃
    · rw [hpc₃]
      rfl
    · have hlt : u < m.core.created := hw.pcOk.2.2.1
      have hlt₂ : u < b₂.mem.core.created := by
        have hw₂ := hrel₂.wf.pcOk
        rw [hpc₂'] at hw₂
        exact hw₂.2.2.1
      exact htrans.created_mono hlt₂

theorem Related.runsNewCode (h : Related s b) : RunsNewCode cfg (KeepsWaits cfg) s := by
  intro u proc s₁ hok hexec
  have hok' := (keepsWaits_related s b _ h hok).1
  obtain ⟨b₁, hexec', hrel₁⟩ := h.step hexec
  have hcalls : (b.mem.core.tcb u).c.calls = [] := by
    rw [keepsWaits_execute] at hok'
    exact of_decide_eq_true hok'
  obtain ⟨hlt, hc⟩ := hexec'.executes hcalls
  refine ⟨?_, fun as s₂ hrun => ?_⟩
  · rw [hrel₁.core, hc]
  · have hside : ∀ (s : State Links) (b : State Lists) (a : Act), Related s b →
        LeavesContext u s a → LeavesContext u b a :=
      fun s b a hr hk => ⟨fun r ha => hr.pc ▸ hk.1 r ha, hk.2⟩
    obtain ⟨b₂, hrun', hrel₂⟩ := hrel₁.run hside hrun
    rw [hrel₂.core, ci_run hrun' hrel₁.wf hlt, hc]
    rfl

/-- In a run in which every sleep hits its caller, no joined task is terminated, no
ended task is suspended with a reason left over, no context with open calls is executed
again and sleeps are short, waits are kept. -/
theorem waitsKept_of_run {as : List Act} (h : Run (Step cfg) (KeepsWaits cfg) boot as s) :
    WaitsKept cfg (KeepsWaits cfg) s := by
  obtain ⟨b, hrun, hrel⟩ := Related.boot.run keepsWaits_related h
  obtain ⟨_, hi⟩ := Kept.init.run Wf.init hrun
  refine ⟨hrel.reasonsFit, fun u hu hst => ?_, hrel.endReleases, hrel.transparent hi,
    hrel.runsNewCode⟩
  rw [hrel.core] at hu hst
  exact hrel.ownWait hi.starters hi.joins (fun _ => hi.wakes) hu hst

end Claim

/-- Task 0 sleeps, and task 1 is dispatched. -/
def sleepThenSwitch : List Act :=
  [.createTask none 0, .createTask none 1, .run, .run, .run, .run, .sleepMs (.integer 4),
    .run, .run, .run, .vmReturn ⟨.yielded, 0, 1, []⟩, .run, .run, .run, .run, .run]

theorem waitsKept_of_sleepThenSwitch : ∃ s,
    Run (Step Config.hal) (KeepsWaits Config.hal) boot (sleepThenSwitch ++ [.suspend 0, .run]) s ∧
      s.pc = .op 1 (.suspendSection 0) ∧ WaitsKept Config.hal (KeepsWaits Config.hal) s := by
  have hplay : ∃ s ∈ play Config.hal (KeepsWaits Config.hal) boot
      (sleepThenSwitch ++ [.suspend 0, .run]), s.pc = .op 1 (.suspendSection 0) := by decide +kernel
  obtain ⟨s, hs, hpc⟩ := hplay
  exact ⟨s, run_of_play hs, hpc, waitsKept_of_run (run_of_play hs)⟩

/-- Task 1 terminates the sleeping task 0, suspends and resumes it: task 0 is WAITING
for the end of a sleep that was over when it was suspended. -/
theorem waitsKept_fails : ¬ ∀ (as : List Act) (s : State Links),
    Run (Step Config.hal) (fun _ _ => True) boot as s →
      WaitsKept Config.hal (fun _ _ => True) s := by
  intro hall
  have hplay : ∃ s ∈ play Config.hal (fun _ _ => True) boot
      (sleepThenSwitch ++ [.terminate 0, .run, .suspend 0, .run]),
      s.pc = .op 1 (.suspendSection 0) ∧ (s.mem.core.tcb 0).status = .dormant ∧
      ∃ s₁ ∈ play Config.hal (fun _ _ => True) s [.run],
      ∃ s₂ ∈ play Config.hal (fun s _ => True ∧ (s.mem.core.tcb 0).status = .suspended) s₁
        [.run, .resume 0], s₂.pc = .op 1 (.resumeSection 0 false) ∧
      ∃ s₃ ∈ play Config.hal (fun _ _ => True) s₂ [.run],
        (s₃.mem.core.tcb 0).status = .waiting := by decide +kernel
  obtain ⟨s, hs, hpc, hdormant, s₁, hs₁, s₂, hs₂, hpc₂, s₃, hs₃, hwaiting⟩ := hplay
  have htransparent := (hall _ s (run_of_play hs)).transparent
  rcases htransparent 1 0 s₁ hpc trivial (run_of_play hs₁).single_inv.2 _ s₂ (run_of_play hs₂) 1 false
      s₃ hpc₂ (run_of_play hs₃).single_inv.2 with hready | ⟨hst, _⟩
  · rw [hwaiting] at hready
    cases hready
  · rw [hdormant] at hst
    cases hst

end PicoRuby.Task
