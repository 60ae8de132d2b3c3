import PicoRuby.Task.Placement

/-!
# The transitions of the machine on lists

`Trans` lists everything one step can do, with what the taken branch has tested.
`Silent` collects the steps that move the program point and write nothing. Every
invariant of the scheduler is a case analysis over these two relations.
-/

namespace PicoRuby.Task

open Shared

set_option autoImplicit false

/-- Steps that leave the memory alone. -/
inductive Silent (m : Mem Lists) : Pc → Act → Pc → Prop where
  | start : Silent m .boot .run .loop
  | startEmpty : Silent m .boot .run .exited
  | idle : m.queues qReady = [] → Silent m .loop .run .loop
  | choose {t : TaskId} : (m.queues qReady).head? = some t → Silent m .loop .run (.chosen t)
  | nothing {t : TaskId} {a : Act} : a ≠ .tick → Silent m (.exec t) a (.exec t)
  | sleepCall {t : TaskId} {a : Act} {ms : Int} : a ≠ .tick →
      Silent m (.exec t) a (.op t (.sleepEnter ms))
  | sleepForeverCall {t : TaskId} : Silent m (.exec t) (.sleep .absent) (.op t .sleepForever)
  | suspendCall {t u : TaskId} : u < m.core.created →
      Silent m (.exec t) (.suspend u) (.op t (.suspendTarget (some u)))
  | resumeCall {t u : TaskId} : u < m.core.created → (m.core.tcb u).status = .suspended →
      Silent m (.exec t) (.resume u)
        (.op t (.resumeSection u (decide ((m.core.tcb u).reason = .none))))
  | terminateCall {t u : TaskId} : u < m.core.created → (m.core.tcb u).status ≠ .dormant →
      Silent m (.exec t) (.terminate u) (.op t (.terminateSection u))
  | joinCall {t u : TaskId} : u < m.core.created → u ≠ currentTask m t →
      (m.core.tcb u).status ≠ .dormant → Silent m (.exec t) (.join u) (.op t (.joinSection u))
  | sleepEnter {t : TaskId} {ms : Int} :
      Silent m (.op t (.sleepEnter ms)) .run (.op t (.sleepSection (m.queues qReady).head? ms))
  | sleepForever {t : TaskId} :
      Silent m (.op t .sleepForever) .run (.op t (.suspendTarget (m.queues qReady).head?))
  | suspendTargetSkip {t u : TaskId} : (m.core.tcb u).status = .suspended →
      Silent m (.op t (.suspendTarget (some u))) .run (.exec t)
  | suspendTarget {t u : TaskId} : (m.core.tcb u).status ≠ .suspended →
      Silent m (.op t (.suspendTarget (some u))) .run (.op t (.suspendSection u))
  | resumeTest {t u : TaskId} : (m.core.tcb u).reason = .sleep →
      Silent m (.op t (.resumeTest u)) .run (.op t (.resumeCompare u))
  | resumeTestSkip {t u : TaskId} : (m.core.tcb u).reason ≠ .sleep →
      Silent m (.op t (.resumeTest u)) .run (.exec t)
  | resumeCompare {t u : TaskId} :
      signedDiff (m.core.tcb u).wakeupTick m.core.wakeupTick < 0 →
      Silent m (.op t (.resumeCompare u)) .run (.op t (.resumeStore u))
  | resumeCompareSkip {t u : TaskId} :
      ¬ signedDiff (m.core.tcb u).wakeupTick m.core.wakeupTick < 0 →
      Silent m (.op t (.resumeCompare u)) .run (.exec t)
  | noSwitch {t : TaskId} : (m.core.tcb t).c.status ≠ .stopped →
      (m.core.tcb t).status ≠ .running → Silent m (.afterSlice t) .run .loop

inductive Trans (cfg : Config) : State Lists → Act → State Lists → Prop where
  | tick {m : Mem Lists} {pc : Pc} : Trans cfg ⟨m, pc⟩ .tick ⟨Lists.tick m, pc⟩
  | silent {m : Mem Lists} {pc pc' : Pc} {a : Act} : Silent m pc a pc' →
      Trans cfg ⟨m, pc⟩ a ⟨m, pc'⟩
  | bootCreate {m : Mem Lists} {priority : Option Int} {proc : ProcId} :
      Trans cfg ⟨m, .boot⟩ (.createTask priority proc) ⟨Lists.createTask m priority proc, .boot⟩
  | create {m : Mem Lists} {t : TaskId} {priority : Option Int} {proc : ProcId} :
      Trans cfg ⟨m, .exec t⟩ (.createTask priority proc)
        ⟨Lists.createTask m priority proc, .exec t⟩
  | mark {m : Mem Lists} {t : TaskId} : Trans cfg ⟨m, .chosen t⟩ .run
      ⟨m.setTcb t (.setStatus .running), .marked t⟩
  | enter {m : Mem Lists} {t : TaskId} : Trans cfg ⟨m, .marked t⟩ .run
      ⟨(m.setCore fun core => { core with c := some t }).setTcb t
        (.setTimeslice cfg.timesliceTickCount), .exec t⟩
  | vmReturn {m : Mem Lists} {t : TaskId} {r : VmResult} :
      Trans cfg ⟨m, .exec t⟩ (.vmReturn r) ⟨vmReturn m t r, .returned t⟩
  | setPriority {m : Mem Lists} {t u : TaskId} {priority : Int} : u < m.core.created →
      Trans cfg ⟨m, .exec t⟩ (.setPriority u priority)
        ⟨m.setTcb u (mrbTaskPrioritySet priority), .exec t⟩
  | stop {m : Mem Lists} {t u : TaskId} : u < m.core.created →
      Trans cfg ⟨m, .exec t⟩ (.stop u)
        ⟨m.setTcb u mrbStopTask, .exec t⟩
  | execute {m : Mem Lists} {t u : TaskId} {proc : ProcId} : u < m.core.created →
      Trans cfg ⟨m, .exec t⟩ (.sandboxExecute u proc)
        ⟨m.setTcb u (mrbSandboxExecute proc),
          resumePc (m.setTcb u (mrbSandboxExecute proc)) t u⟩
  | execVmCode {m : Mem Lists} {t u : TaskId} {proc : ProcId} : u < m.core.created →
      Trans cfg ⟨m, .exec t⟩ (.sandboxExecVmCode u proc)
        ⟨m.setTcb u (mrbTaskInitContext proc),
          resumePc (m.setTcb u (mrbTaskInitContext proc)) t u⟩
  | pass {m : Mem Lists} {t : TaskId} : Trans cfg ⟨m, .exec t⟩ .pass
      ⟨m.setTcb (currentTask m t) (.setTimeslice 0), .op t .passPriority⟩
  | passPriority {m : Mem Lists} {t : TaskId} : Trans cfg ⟨m, .op t .passPriority⟩ .run
      ⟨m.setTcb (currentTask m t) Task.passPriority, .exec t⟩
  | sleepSection {m : Mem Lists} {t u : TaskId} {ms : Int} :
      Trans cfg ⟨m, .op t (.sleepSection (some u) ms)⟩ .run
        ⟨Lists.sleep cfg m u ms, .op t .setSwitching⟩
  | suspendSection {m : Mem Lists} {t u : TaskId} :
      Trans cfg ⟨m, .op t (.suspendSection u)⟩ .run
        ⟨Lists.requeue m u (.setStatus .suspended), .op t .setSwitching⟩
  | setSwitching {m : Mem Lists} {t : TaskId} : Trans cfg ⟨m, .op t .setSwitching⟩ .run
      ⟨m.setCore fun core => { core with switching := true }, .exec t⟩
  | resumeSection {m : Mem Lists} {t u : TaskId} {flag : Bool} :
      Trans cfg ⟨m, .op t (.resumeSection u flag)⟩ .run
        ⟨Lists.resume m u flag, .op t (.resumeTest u)⟩
  | resumeStore {m : Mem Lists} {t u : TaskId} : Trans cfg ⟨m, .op t (.resumeStore u)⟩ .run
      ⟨m.setCore fun core => core.setWakeupTick (core.tcb u).wakeupTick, .exec t⟩
  | terminateSection {m : Mem Lists} {t u : TaskId} :
      Trans cfg ⟨m, .op t (.terminateSection u)⟩ .run
        ⟨Lists.requeue m u (.setStatus .dormant), .exec t⟩
  | joinSection {m : Mem Lists} {t u : TaskId} : Trans cfg ⟨m, .op t (.joinSection u)⟩ .run
      ⟨Lists.requeue m (currentTask m t) (waitFor m.core u), .op t .setSwitching⟩
  | returned {m : Mem Lists} {t : TaskId} :
      Trans cfg ⟨m, .returned t⟩ .run ⟨afterVm m t, .afterSlice t⟩
  | stopped {m : Mem Lists} {t : TaskId} : (m.core.tcb t).c.status = .stopped →
      Trans cfg ⟨m, .afterSlice t⟩ .run
        ⟨Lists.requeue m t (.setStatus .dormant), .stoppedGap t⟩
  | release {m : Mem Lists} {t : TaskId} {pc : Pc} : pc = .loop ∨ pc = .exited →
      Trans cfg ⟨m, .stoppedGap t⟩ .run ⟨Lists.release (m.setCore noteException) t, pc⟩
  | unmark {m : Mem Lists} {t : TaskId} : (m.core.tcb t).c.status ≠ .stopped →
      (m.core.tcb t).status = .running → Trans cfg ⟨m, .afterSlice t⟩ .run
        ⟨m.setTcb t (.setStatus .ready), .switchReady t⟩
  | switch {m : Mem Lists} {t : TaskId} : Trans cfg ⟨m, .switchReady t⟩ .run
      ⟨Lists.requeue m t id, .loop⟩

section Inversion
variable {cfg : Config} {m : Mem Lists} {t : TaskId} {a : Act} {s' : State Lists}

theorem resume_trans {u : TaskId} (hu : u < m.core.created) :
    Silent m (.exec t) (.resume u) (resumePc m t u) := by
  unfold resumePc
  split
  · exact .resumeCall hu ‹_›
  · exact .nothing (by simp)

/-- Everything a method call of the executing bytecode can start. -/
theorem call_trans (h : call m t a = some (.ok s')) : Trans cfg ⟨m, .exec t⟩ a s' := by
  cases a with
  | tick => cases h
  | run => cases h
  | vmReturn r =>
    cases h
    exact .vmReturn
  | createTask priority proc =>
    simp only [call, Lists.mrbCreateTask_eq] at h
    cases h
    exact .create
  | sleep arg =>
    cases arg <;> cases h
    · exact .silent .sleepForeverCall
    · exact .silent (.sleepCall (by simp))
    · exact .silent (.sleepCall (by simp))
    · exact .silent (.nothing (by simp))
  | sleepMs arg =>
    cases arg <;> cases h
    · exact .silent (.nothing (by simp))
    · exact .silent (.sleepCall (by simp))
    · exact .silent (.nothing (by simp))
    · exact .silent (.nothing (by simp))
  | suspend u =>
    simp only [call] at h
    split at h <;> cases h
    exact .silent (.suspendCall ‹_›)
  | resume u =>
    simp only [call] at h
    split at h <;> cases h
    exact .silent (resume_trans ‹_›)
  | terminate u =>
    simp only [call] at h
    split at h <;> cases h
    split
    · exact .silent (.nothing (by simp))
    · exact .silent (.terminateCall ‹_› ‹_›)
  | join u =>
    simp only [call] at h
    split at h <;> cases h
    split
    · exact .silent (.nothing (by simp))
    · split
      · exact .silent (.nothing (by simp))
      · exact .silent (.joinCall ‹_› ‹_› ‹_›)
  | pass =>
    cases h
    exact .pass
  | setPriority u priority =>
    simp only [call] at h
    split at h <;> cases h
    exact .setPriority ‹_›
  | stop u =>
    simp only [call] at h
    split at h <;> cases h
    exact .stop ‹_›
  | sandboxExecute u proc =>
    simp only [call] at h
    split at h <;> cases h
    exact .execute ‹_›
  | sandboxExecVmCode u proc =>
    simp only [call] at h
    split at h <;> cases h
    exact .execVmCode ‹_›

theorem opStep_trans {o : OpPc} (h : opStep cfg m t o = .ok s') :
    Trans cfg ⟨m, .op t o⟩ .run s' := by
  cases o with
  | sleepEnter ms =>
    cases h
    exact .silent .sleepEnter
  | sleepSection target ms =>
    cases target with
    | none => cases h
    | some u =>
      simp only [opStep, Lists.sleepMsImpl_some] at h
      cases h
      exact .sleepSection
  | sleepForever =>
    cases h
    exact .silent .sleepForever
  | suspendTarget target =>
    cases target with
    | none => cases h
    | some u =>
      cases h
      split
      · exact .silent (.suspendTargetSkip ‹_›)
      · exact .silent (.suspendTarget ‹_›)
  | suspendSection u =>
    cases h
    exact .suspendSection
  | setSwitching =>
    cases h
    exact .setSwitching
  | resumeSection u flag =>
    simp only [opStep, Lists.mrbResumeTask_eq] at h
    cases h
    exact .resumeSection
  | resumeTest u =>
    cases h
    split
    · exact .silent (.resumeTest ‹_›)
    · exact .silent (.resumeTestSkip ‹_›)
  | resumeCompare u =>
    cases h
    split
    · exact .silent (.resumeCompare ‹_›)
    · exact .silent (.resumeCompareSkip ‹_›)
  | resumeStore u =>
    cases h
    exact .resumeStore
  | terminateSection u =>
    cases h
    exact .terminateSection
  | joinSection u =>
    cases h
    exact .joinSection
  | passPriority =>
    cases h
    exact .passPriority

theorem tasksRunStep_trans {pc : Pc} (h : tasksRunStep cfg m pc = some (.ok s')) :
    Trans cfg ⟨m, pc⟩ .run s' := by
  cases pc with
  | boot =>
    cases h
    split
    · exact .silent .startEmpty
    · exact .silent .start
  | loop =>
    have hhead : head m.queues qReady = (m.queues qReady).head? := rfl
    simp only [tasksRunStep, hhead] at h
    split at h
    · cases h
      exact .silent (.idle (List.head?_eq_none_iff.mp ‹_›))
    · cases h
      exact .silent (.choose ‹_›)
  | chosen u =>
    cases h
    exact .mark
  | marked u =>
    cases h
    exact .enter
  | exec u => cases h
  | op u o => cases h
  | returned u =>
    cases h
    exact .returned
  | afterSlice u =>
    simp only [tasksRunStep] at h
    split at h
    · cases h
      exact .stopped ‹_›
    · split at h
      · cases h
        exact .unmark ‹_› ‹_›
      · cases h
        exact .silent (.noSwitch ‹_› ‹_›)
  | stoppedGap u =>
    simp only [tasksRunStep, Lists.releaseJoiners_eq] at h
    cases h
    apply Trans.release
    split
    · exact Or.inr rfl
    · exact Or.inl rfl
  | switchReady u =>
    cases h
    exact .switch
  | exited => cases h

/-- The inversion lemma: a step of the machine is one of the listed transitions. -/
theorem Step.trans {s : State Lists} (h : Step cfg s a s') : Trans cfg s a s' := by
  obtain ⟨m, pc⟩ := s
  unfold Step step at h
  split at h
  · simp only [Lists.mrbTick_eq] at h
    cases h
    exact .tick
  · dsimp only at h
    split at h
    · exact opStep_trans (Option.some.inj h)
    · exact tasksRunStep_trans h
  · dsimp only at h
    split at h
    · simp only [Lists.mrbCreateTask_eq] at h
      cases h
      exact .bootCreate
    · exact call_trans h
    · cases h
  · dsimp only at h
    split at h
    · exact call_trans h
    · cases h

/-- A tick is never refused. -/
theorem step_tick (m : Mem Lists) (pc : Pc) :
    step cfg (⟨m, pc⟩ : State Lists) .tick = some (.ok ⟨Lists.tick m, pc⟩) := by
  unfold step
  rw [Lists.mrbTick_eq]
  rfl

theorem Step.tick_eq {pc : Pc} (h : Step cfg ⟨m, pc⟩ .tick s') : s' = ⟨Lists.tick m, pc⟩ := by
  unfold Step at h
  rw [step_tick] at h
  cases h
  rfl

end Inversion

end PicoRuby.Task
