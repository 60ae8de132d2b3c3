import PicoRuby.Task.Refinement

/-!
# What one step does to one task

The wait state of a TCB is everything `sleep`, `suspend`, `resume` and `join` work
on; its body is the context and the value. `Effect` and `BodyEffect` list what a step
can make of them, with the piece of code that does so.
-/

namespace PicoRuby.Task

open Shared

set_option autoImplicit false

structure WaitState where
  status : TaskStatus
  reason : TaskReason
  wakeupTick : BitVec 32
  tcbJoin : Option TaskId
  waitStarter : Option TaskId
deriving DecidableEq, Repr

def Tcb.waitState (tcb : Tcb) : WaitState :=
  ⟨tcb.status, tcb.reason, tcb.wakeupTick, tcb.tcbJoin, tcb.waitStarter⟩

/-- The wait states `u` can have after a step taken from `⟨m, pc⟩`. -/
inductive Effect (cfg : Config) (m : Mem Lists) (u : TaskId) : Pc → Act → WaitState → Prop where
  | same {pc : Pc} {a : Act} : Effect cfg m u pc a (m.core.tcb u).waitState
  | created {pc : Pc} {a : Act} : u = m.core.created →
      Effect cfg m u pc a ⟨.ready, .none, 0, none, none⟩
  | woken {pc : Pc} : (m.core.tcb u).status = .waiting → (m.core.tcb u).reason = .sleep →
      Effect cfg m u pc .tick { (m.core.tcb u).waitState with status := .ready, reason := .none }
  | marked : (m.core.tcb u).status = .ready →
      Effect cfg m u (.chosen u) .run { (m.core.tcb u).waitState with status := .running }
  | slept {t : TaskId} {ms : Int} :
      (m.core.tcb u).status = .ready ∨ (m.core.tcb u).status = .running →
      Effect cfg m u (.op t (.sleepSection (some u) ms)) .run
        { (m.core.tcb u).waitState with
          status := .waiting
          reason := .sleep
          wakeupTick := m.core.tick + BitVec.ofInt 32 (sleepTicks cfg ms)
          waitStarter := some t }
  | suspended {t : TaskId} : (m.core.tcb u).status ≠ .suspended →
      Effect cfg m u (.op t (.suspendSection u)) .run
        { (m.core.tcb u).waitState with status := .suspended }
  | resumed {t : TaskId} {flag : Bool} : (m.core.tcb u).status = .suspended →
      flag = decide ((m.core.tcb u).reason = .none) →
      Effect cfg m u (.op t (.resumeSection u flag)) .run
        { (m.core.tcb u).waitState with status := if flag then .ready else .waiting }
  | terminated {t : TaskId} : Effect cfg m u (.op t (.terminateSection u)) .run
      { (m.core.tcb u).waitState with status := .dormant }
  | joined {x : TaskId} : x ≠ u → (m.core.tcb x).status ≠ .dormant →
      Effect cfg m u (.op u (.joinSection x)) .run
        { (m.core.tcb u).waitState with
          status := .waiting
          reason := .join
          tcbJoin := some x
          waitStarter := some u }
  | stopped : (m.core.tcb u).c.status = .stopped → Effect cfg m u (.afterSlice u) .run
      { (m.core.tcb u).waitState with status := .dormant }
  | unmarked : (m.core.tcb u).status = .running → Effect cfg m u (.afterSlice u) .run
      { (m.core.tcb u).waitState with status := .ready }
  | releasedWaiting {t : TaskId} : (m.core.tcb u).status = .waiting → hasJoined m.core t u →
      Effect cfg m u (.stoppedGap t) .run
        { (m.core.tcb u).waitState with status := .ready, reason := .none }
  | releasedSuspended {t : TaskId} : (m.core.tcb u).status = .suspended → hasJoined m.core t u →
      Effect cfg m u (.stoppedGap t) .run { (m.core.tcb u).waitState with reason := .none }

section Writes
variable {cfg : Config} {m : Mem Lists} {u v : TaskId} {pc : Pc} {a : Act}

theorem Effect.setTcb {f : Tcb → Tcb} (hf : ∀ tcb, (f tcb).waitState = tcb.waitState) :
    Effect cfg m u pc a ((m.core.setTcb v f).tcb u).waitState := by
  rw [Core.setTcb_tcb]
  split
  · rename_i huv
    rw [hf, huv]
    exact .same
  · exact .same

theorem Effect.requeue {f : Tcb → Tcb}
    (hf : Effect cfg m v pc a (f (m.core.tcb v)).waitState) :
    Effect cfg m u pc a ((Lists.requeue m v f).core.tcb u).waitState := by
  rw [Lists.requeue_tcb]
  split
  · rename_i huv
    rw [huv]
    exact hf
  · exact .same

theorem Effect.release {t : TaskId} (hp : Placed m) (hu : pc = .stoppedGap t) (ha : a = .run) :
    Effect cfg m u pc a ((Lists.release (m.setCore noteException) t).core.tcb u).waitState := by
  subst hu ha
  obtain ⟨k, hk⟩ := hp.release_noted_tcb t u
  rw [hk]
  split
  · rename_i hw
    exact .releasedWaiting hw.1.2 hw.2
  · split
    · rename_i hs
      exact .releasedSuspended hs.1.2 hs.2
    · exact .same

end Writes

/-- Every step, seen from one task. -/
theorem Trans.effect {cfg : Config} {m : Mem Lists} {pc : Pc} {a : Act} {b' : State Lists}
    (h : Trans cfg ⟨m, pc⟩ a b') (hw : Wf ⟨m, pc⟩) (u : TaskId) :
    Effect cfg m u pc a (b'.mem.core.tcb u).waitState := by
  have hpc := hw.pcOk
  cases h with
  | tick =>
    obtain ⟨n, k, hk⟩ := Lists.tick_tcb (hw.placed.nodup qWaiting) u
    rw [hk]
    split
    · rename_i hwakes
      exact .woken (hw.placed.mem_waiting_iff.mp hwakes.2.1).2 hwakes.2.2.1
    · exact .same
  | silent _ => exact .same
  | bootCreate =>
    rw [Lists.createTask_tcb]
    split
    · exact .created ‹_›
    · exact .same
  | create =>
    rw [Lists.createTask_tcb]
    split
    · exact .created ‹_›
    · exact .same
  | @mark _ t =>
    rw [Mem.setTcb_core, Core.setTcb_tcb]
    split
    · rename_i hut
      subst hut
      exact .marked hpc.2
    · exact .same
  | enter => exact Effect.setTcb fun _ => rfl
  | @vmReturn _ t r =>
    obtain ⟨exc, heq⟩ := vmReturn_eq _ t r
    rw [heq]
    exact Effect.setTcb fun _ => rfl
  | setPriority _ => exact Effect.setTcb fun _ => rfl
  | stop _ => exact Effect.setTcb fun _ => rfl
  | execute _ =>
    apply Effect.setTcb
    intro tcb
    obtain ⟨c, hc⟩ := mrbSandboxExecute_eq _ tcb
    rw [hc]
    rfl
  | execVmCode _ => exact Effect.setTcb fun _ => rfl
  | pass => exact Effect.setTcb fun _ => rfl
  | passPriority => exact Effect.setTcb fun _ => rfl
  | @sleepSection _ t v ms =>
    rw [(Lists.sleep_core m v cfg ms).1]
    apply Effect.requeue
    have hslept : (fallAsleep cfg m.core ms (m.core.tcb v)).waitState =
        { (m.core.tcb v).waitState with
          status := .waiting
          reason := .sleep
          wakeupTick := m.core.tick + BitVec.ofInt 32 (sleepTicks cfg ms)
          waitStarter := some t } := by
      rw [fallAsleep, hpc.2.1]
      rfl
    rw [hslept]
    exact .slept hpc.2.2.2
  | @suspendSection _ t v => exact Effect.requeue (.suspended hpc.2.2.2)
  | setSwitching => exact .same
  | @resumeSection _ t v flag =>
    rw [Lists.resume_tcb]
    split
    · rename_i huv
      subst huv
      exact .resumed hpc.2.2.2.1 hpc.2.2.2.2
    · exact .same
  | resumeStore => exact .same
  | terminateSection => exact Effect.requeue .terminated
  | @joinSection _ t x =>
    have hcur : currentTask m t = t := currentTask_eq hpc.2.1
    rw [hcur]
    apply Effect.requeue
    have hjoined : (waitFor m.core x (m.core.tcb t)).waitState =
        { (m.core.tcb t).waitState with
          status := .waiting
          reason := .join
          tcbJoin := some x
          waitStarter := some t } := by
      rw [waitFor, hpc.2.1]
      rfl
    rw [hjoined]
    exact .joined hpc.2.2.2.1 hpc.2.2.2.2
  | returned =>
    unfold afterVm
    split
    · exact Effect.setTcb fun _ => rfl
    · exact .same
  | stopped hst => exact Effect.requeue (.stopped hst)
  | release _ => exact Effect.release hw.placed rfl rfl
  | @unmark _ t _ hrunning =>
    rw [Mem.setTcb_core, Core.setTcb_tcb]
    split
    · rename_i hut
      subst hut
      exact .unmarked hrunning
    · exact .same
  | switch => exact Effect.requeue .same

/-! ## The body of a task -/

/-- Neither the context nor the value changes. -/
def SameBody (tcb tcb' : Tcb) : Prop := tcb'.c = tcb.c ∧ tcb'.value = tcb.value

/-- The TCBs, up to `SameBody`, that `u` can have after a step taken from `⟨m, pc⟩`. -/
inductive BodyEffect (m : Mem Lists) (u : TaskId) : Pc → Act → Tcb → Prop where
  | same {pc : Pc} {a : Act} {tcb : Tcb} : SameBody (m.core.tcb u) tcb → BodyEffect m u pc a tcb
  | created {pc : Pc} {a : Act} {tcb : Tcb} {proc : ProcId} : u = m.core.created →
      tcb.c = ⟨⟨proc, 0⟩, [], .created, false⟩ → tcb.value = .nil → BodyEffect m u pc a tcb
  | vmReturn {r : VmResult} :
      BodyEffect m u (.exec u) (.vmReturn r) (storeResult r (m.core.tcb u))
  | stop {t : TaskId} : BodyEffect m u (.exec t) (.stop u) (mrbStopTask (m.core.tcb u))
  | execute {t : TaskId} {proc : ProcId} :
      BodyEffect m u (.exec t) (.sandboxExecute u proc) (mrbSandboxExecute proc (m.core.tcb u))
  | execVmCode {t : TaskId} {proc : ProcId} :
      BodyEffect m u (.exec t) (.sandboxExecVmCode u proc) (mrbTaskInitContext proc (m.core.tcb u))
  | fail {e : ExcObj} : m.core.exc = some e →
      BodyEffect m u (.returned u) .run (storeException e (m.core.tcb u))

section Body
variable {m : Mem Lists} {u v : TaskId} {pc : Pc} {a : Act} {f : Tcb → Tcb}

theorem SameBody.refl (tcb : Tcb) : SameBody tcb tcb := ⟨rfl, rfl⟩

theorem BodyEffect.setTcb (hf : BodyEffect m v pc a (f (m.core.tcb v))) :
    BodyEffect m u pc a ((m.core.setTcb v f).tcb u) := by
  rw [Core.setTcb_tcb]
  split
  · rename_i huv
    rw [huv]
    exact hf
  · exact .same (.refl _)

theorem BodyEffect.requeue (hf : ∀ tcb, SameBody tcb (f tcb)) :
    BodyEffect m u pc a ((Lists.requeue m v f).core.tcb u) := by
  rw [Lists.requeue_tcb]
  split
  · rename_i huv
    rw [huv]
    exact .same (hf _)
  · exact .same (.refl _)

theorem BodyEffect.createTask {priority : Option Int} {proc : ProcId} :
    BodyEffect m u pc a ((Lists.createTask m priority proc).core.tcb u) := by
  rw [Lists.createTask_tcb]
  split
  · exact .created ‹_› rfl rfl
  · exact .same (.refl _)

end Body

theorem Trans.bodyEffect {cfg : Config} {m : Mem Lists} {pc : Pc} {a : Act} {b' : State Lists}
    (h : Trans cfg ⟨m, pc⟩ a b') (hw : Wf ⟨m, pc⟩) (u : TaskId) :
    BodyEffect m u pc a (b'.mem.core.tcb u) := by
  cases h with
  | tick =>
    obtain ⟨n, k, hk⟩ := Lists.tick_tcb (hw.placed.nodup qWaiting) u
    rw [hk]
    split <;> exact .same ⟨rfl, rfl⟩
  | silent _ => exact .same (.refl _)
  | bootCreate => exact .createTask
  | create => exact .createTask
  | mark => exact .setTcb (.same ⟨rfl, rfl⟩)
  | @enter _ t =>
    have hslice : BodyEffect m u (.marked t) .run
        ((m.core.setTcb t (.setTimeslice cfg.timesliceTickCount)).tcb u) := .setTcb (.same ⟨rfl, rfl⟩)
    exact hslice
  | @vmReturn _ t r =>
    obtain ⟨exc, heq⟩ := vmReturn_eq _ t r
    rw [heq]
    exact .setTcb .vmReturn
  | setPriority _ => exact .setTcb (.same ⟨rfl, rfl⟩)
  | stop _ => exact .setTcb .stop
  | execute _ => exact .setTcb .execute
  | execVmCode _ => exact .setTcb .execVmCode
  | pass => exact .setTcb (.same ⟨rfl, rfl⟩)
  | passPriority => exact .setTcb (.same ⟨rfl, rfl⟩)
  | @sleepSection _ t v ms =>
    rw [(Lists.sleep_core m v cfg ms).1]
    exact .requeue fun _ => ⟨rfl, rfl⟩
  | suspendSection => exact .requeue fun _ => ⟨rfl, rfl⟩
  | setSwitching => exact .same (.refl _)
  | resumeSection =>
    rw [Lists.resume_tcb]
    split
    · rename_i huv
      rw [huv]
      exact .same ⟨rfl, rfl⟩
    · exact .same (.refl _)
  | resumeStore => exact .same (.refl _)
  | terminateSection => exact .requeue fun _ => ⟨rfl, rfl⟩
  | joinSection => exact .requeue fun _ => ⟨rfl, rfl⟩
  | returned =>
    unfold afterVm
    split
    · exact .setTcb (.fail ‹_›)
    · exact .same (.refl _)
  | stopped _ => exact .requeue fun _ => ⟨rfl, rfl⟩
  | @release _ t _ _ =>
    obtain ⟨k, hk⟩ := hw.placed.release_noted_tcb t u
    dsimp only
    rw [hk]
    split
    · exact .same ⟨rfl, rfl⟩
    · split <;> exact .same ⟨rfl, rfl⟩
  | unmark _ _ => exact .setTcb (.same ⟨rfl, rfl⟩)
  | switch => exact .requeue fun _ => ⟨rfl, rfl⟩

/-! ## New tasks -/

theorem Trans.created_or_new {cfg : Config} {b b' : State Lists} {a : Act} (h : Trans cfg b a b') :
    b'.mem.core.created = b.mem.core.created ∨ ∃ priority proc, a = .createTask priority proc ∧
      b'.mem = Lists.createTask b.mem priority proc := by
  cases h with
  | tick => exact Or.inl Lists.tick_core.2.1
  | bootCreate => exact Or.inr ⟨_, _, rfl, rfl⟩
  | create => exact Or.inr ⟨_, _, rfl, rfl⟩
  | @vmReturn m t r =>
    left
    obtain ⟨exc, heq⟩ := vmReturn_eq m t r
    rw [heq]
    rfl
  | @sleepSection m t v ms => exact Or.inl (Lists.sleep_core m v cfg ms).2.1
  | resumeSection => exact Or.inl (Lists.resume_core ..).1
  | returned =>
    left
    unfold afterVm
    split <;> rfl
  | @release m t _ _ =>
    left
    dsimp only
    rw [(Lists.release_core _ t).1, Mem.setCore_core, noteException_created m.core]
  | _ => exact Or.inl rfl

theorem Trans.created_mono {cfg : Config} {b b' : State Lists} {a : Act} {u : TaskId} (h : Trans cfg b a b')
    (hlt : u < b.mem.core.created) : u < b'.mem.core.created := by
  rcases h.created_or_new with heq | ⟨priority, proc, -, hmem⟩
  · exact heq ▸ hlt
  · rw [hmem, Lists.createTask_created]
    exact Nat.lt_succ_of_lt hlt

/-! ## The priorities of a task -/

/-- `Task#priority`, and the value that orders the queues. -/
def Tcb.priorities (tcb : Tcb) : Nat × Nat := (tcb.priority, tcb.priorityPreemption)

/-- What is stored for a priority, in a `uint8_t`. -/
def storedPriority (priority : Int) : Nat := (priority % 256).toNat

/-- The priorities that `u` can have after a step taken from `⟨m, pc⟩`. -/
inductive PriorityEffect (m : Mem Lists) (u : TaskId) : Pc → Act → Nat × Nat → Prop
  | same {pc : Pc} {a : Act} : PriorityEffect m u pc a (m.core.tcb u).priorities
  | created {pc : Pc} {priority : Option Int} {proc : ProcId} : u = m.core.created →
      PriorityEffect m u pc (.createTask priority proc)
        (storedPriority (priority.getD defaultPriority), storedPriority (priority.getD defaultPriority))
  | set {t : TaskId} {priority : Int} : PriorityEffect m u (.exec t) (.setPriority u priority)
      (storedPriority priority, (m.core.tcb u).priorityPreemption)
  | pass : PriorityEffect m u (.op u .passPriority) .run ((m.core.tcb u).priority, 1)

section Priorities
variable {m : Mem Lists} {u v : TaskId} {pc : Pc} {a : Act} {f : Tcb → Tcb}

theorem PriorityEffect.setTcb (hf : PriorityEffect m v pc a (f (m.core.tcb v)).priorities) :
    PriorityEffect m u pc a ((m.core.setTcb v f).tcb u).priorities := by
  rw [Core.setTcb_tcb]
  split
  · rename_i huv
    rw [huv]
    exact hf
  · exact .same

theorem PriorityEffect.requeue (hf : ∀ tcb, (f tcb).priorities = tcb.priorities) :
    PriorityEffect m u pc a ((Lists.requeue m v f).core.tcb u).priorities := by
  rw [Lists.requeue_tcb]
  split
  · rename_i huv
    have heq : ({ f (m.core.tcb v) with insertedAt := m.core.insertions } : Tcb).priorities =
        (m.core.tcb u).priorities := huv ▸ hf _
    rw [heq]
    exact .same
  · exact .same

theorem PriorityEffect.createTask {priority : Option Int} {proc : ProcId} :
    PriorityEffect m u pc (.createTask priority proc) ((Lists.createTask m priority proc).core.tcb u).priorities := by
  rw [Lists.createTask_tcb]
  split
  · exact .created ‹_›
  · exact .same

end Priorities

/-- Only `Task.new`, `priority=` and `Task.pass` write a priority. -/
theorem Trans.priorityEffect {cfg : Config} {m : Mem Lists} {pc : Pc} {a : Act} {b' : State Lists}
    (h : Trans cfg ⟨m, pc⟩ a b') (hw : Wf ⟨m, pc⟩) (u : TaskId) :
    PriorityEffect m u pc a (b'.mem.core.tcb u).priorities := by
  cases h with
  | tick =>
    obtain ⟨n, k, hk⟩ := Lists.tick_tcb (hw.placed.nodup qWaiting) u
    rw [hk]
    split <;> exact .same
  | silent _ => exact .same
  | bootCreate => exact .createTask
  | create => exact .createTask
  | mark => exact .setTcb .same
  | @enter _ t =>
    have hslice : PriorityEffect m u (.marked t) .run
        ((m.core.setTcb t (.setTimeslice cfg.timesliceTickCount)).tcb u).priorities := .setTcb .same
    exact hslice
  | @vmReturn _ t r =>
    obtain ⟨exc, heq⟩ := vmReturn_eq _ t r
    rw [heq]
    exact .setTcb .same
  | setPriority _ => exact .setTcb .set
  | stop _ => exact .setTcb .same
  | execute _ =>
    apply PriorityEffect.setTcb
    obtain ⟨c, hc⟩ := mrbSandboxExecute_eq _ _
    rw [hc]
    exact .same
  | execVmCode _ => exact .setTcb .same
  | pass => exact .setTcb .same
  | @passPriority _ t =>
    have hcur : currentTask m t = t := currentTask_eq hw.pcOk.2.1
    rw [hcur]
    exact .setTcb .pass
  | @sleepSection _ t v ms =>
    rw [(Lists.sleep_core m v cfg ms).1]
    exact .requeue fun _ => rfl
  | suspendSection => exact .requeue fun _ => rfl
  | setSwitching => exact .same
  | resumeSection =>
    rw [Lists.resume_tcb]
    split
    · rename_i huv
      rw [huv]
      exact .same
    · exact .same
  | resumeStore => exact .same
  | terminateSection => exact .requeue fun _ => rfl
  | joinSection => exact .requeue fun _ => rfl
  | returned =>
    unfold afterVm
    split
    · exact .setTcb .same
    · exact .same
  | stopped _ => exact .requeue fun _ => rfl
  | @release _ t _ _ =>
    obtain ⟨k, hk⟩ := hw.placed.release_noted_tcb t u
    dsimp only
    rw [hk]
    split
    · exact .same
    · split <;> exact .same
  | unmark _ _ => exact .setTcb .same
  | switch => exact .requeue fun _ => rfl

end PicoRuby.Task
