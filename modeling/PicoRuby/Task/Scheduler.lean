import PicoRuby.Task.Queues
import PicoRuby.Shared.Timeline
import PicoRuby.Shared.Runs

/-!
# The scheduler of task.c

Each definition below is one piece of `task.c` that runs without interruption:
an IRQ-disabled section, the tick handler, or a statement between two points at
which a tick may strike. `Pc` names these points, with the local variables that
are live there, and `step` runs the next piece.
-/

namespace PicoRuby.Task

open Shared

set_option autoImplicit false

variable {Q : Type} [TaskQueues Q]

/-- `q_delete_task`, a rewrite of the TCB, `q_insert_task`: the body of most sections. -/
def requeue (m : Mem Q) (t : TaskId) (f : Tcb → Tcb) : Except Fault (Mem Q) := do
  let m ← qDeleteTask m (some t)
  qInsertTask (m.setTcb t f) t

/-! ## The tick handler -/

def preemptOne (s : Mem Q × Unit) (t : TaskId) : Except Fault (Mem Q × Unit) :=
  if (s.1.core.tcb t).status = .running then
    .ok (s.1.setCore fun core => { core with switching := true }, ())
  else .ok s

def preemptRunningTask (m : Mem Q) : Except Fault (Mem Q) :=
  (walk preemptOne qReady (m, ())).map Prod.fst

def decreaseTimeslice (m : Mem Q) : Mem Q :=
  match head m.queues qReady with
  | none => m
  | some t =>
    if 0 < (m.core.tcb t).timeslice then
      let m := m.setTcb t (.setTimeslice ((m.core.tcb t).timeslice - 1))
      if (m.core.tcb t).timeslice = 0 then m.setCore fun core => { core with switching := true }
      else m
    else m

/-- READY again, waiting for nothing. -/
def wakeUp (tcb : Tcb) : Tcb := { tcb with status := .ready, reason := .none }

/-- The body of the wake-up loop; the flag is `task_switch`. -/
def wakeOne (s : Mem Q × Bool) (t : TaskId) : Except Fault (Mem Q × Bool) :=
  let m := s.1
  if (m.core.tcb t).reason ≠ .sleep then .ok s
  else if signedDiff (m.core.tcb t).wakeupTick m.core.tick < 0 then
    (requeue m t wakeUp).map (·, true)
  else if signedDiff (m.core.tcb t).wakeupTick m.core.wakeupTick < 0 then
    .ok (m.setCore fun core => core.setWakeupTick (core.tcb t).wakeupTick, s.2)
  else .ok s

def mrbTick (m : Mem Q) : Except Fault (Mem Q) :=
  let m := m.setCore fun core => { core with tick := core.tick + 1 }
  let m := decreaseTimeslice m
  if signedDiff m.core.wakeupTick m.core.tick < 0 then do
    let m := m.setCore fun core => core.setWakeupTick (core.tick + wakeupSpan)
    let s ← walk wakeOne qWaiting (m, false)
    if s.2 then preemptRunningTask s.1 else .ok s.1
  else .ok m

/-! ## Contexts -/

def mrbTaskInitContext (proc : ProcId) (tcb : Tcb) : Tcb :=
  { tcb with c := ⟨⟨proc, 0⟩, [], .created, false⟩ }

def mrbTaskResetContext (tcb : Tcb) : Tcb :=
  { tcb with c := { tcb.c with calls := [], status := .created, finished := false } }

/-- Writes the body into the frame `c.ci` points to, whichever frame that is. -/
def mrbTaskProcSet (proc : ProcId) (tcb : Tcb) : Tcb :=
  match tcb.c.calls with
  | [] => { tcb with c := { tcb.c with cibase := ⟨proc, 0⟩ } }
  | _ :: calls => { tcb with c := { tcb.c with calls := ⟨proc, 0⟩ :: calls } }

/-! ## Task operations -/

def defaultPriority : Int := 128

/-- A new TCB; its priority is stored in a `uint8_t`. -/
def mrbTcbNew (status : TaskStatus) (priority : Int) : Tcb :=
  { Tcb.zero with
    status := status
    priority := (priority % 256).toNat
    priorityPreemption := (priority % 256).toNat }

def mrbCreateTask (m : Mem Q) (priority : Option Int) (proc : ProcId) : Except Fault (Mem Q) := do
  let t := m.core.created
  let tcb := mrbTaskInitContext proc (mrbTcbNew .ready (priority.getD defaultPriority))
  let m := m.setCore fun core => { core.setTcb t (fun _ => tcb) with created := t + 1 }
  let m ← qInsertTask m t
  if tcb.status.code &&& TaskStatus.ready.code ≠ 0 then preemptRunningTask m else .ok m

/-- `(ms / MRB_TICK_UNIT) + !!(ms % MRB_TICK_UNIT)`. -/
def sleepTicks (cfg : Config) (ms : Int) : Int :=
  ms.tdiv cfg.tickUnit + if ms.tmod cfg.tickUnit ≠ 0 then 1 else 0

/-- What `sleep_ms_impl` writes into the TCB. -/
def fallAsleep (cfg : Config) (core : Core) (ms : Int) (tcb : Tcb) : Tcb :=
  { tcb with
    status := .waiting
    reason := .sleep
    wakeupTick := core.tick + BitVec.ofInt 32 (sleepTicks cfg ms)
    waitStarter := core.c }

/-- The IRQ-disabled section of `sleep_ms_impl`. -/
def sleepMsImpl (cfg : Config) (m : Mem Q) (target : Option TaskId) (ms : Int) :
    Except Fault (Mem Q) := do
  let core := m.core
  let m ← qDeleteTask m target
  match target with
  | none => .error .nullTask
  | some t =>
    let m := m.setTcb t (fallAsleep cfg core ms)
    let m :=
      if signedDiff (m.core.tcb t).wakeupTick m.core.wakeupTick < 0 then
        m.setCore fun core => core.setWakeupTick (core.tcb t).wakeupTick
      else m
    qInsertTask m t

def mrbSuspendTask (m : Mem Q) (t : TaskId) : Except Fault (Mem Q) :=
  requeue m t (.setStatus .suspended)

def mrbResumeTask (m : Mem Q) (t : TaskId) (flagToReadyStatus : Bool) : Except Fault (Mem Q) := do
  let m ← if flagToReadyStatus then preemptRunningTask m else .ok m
  requeue m t (.setStatus (if flagToReadyStatus then .ready else .waiting))

def mrbTerminateTask (m : Mem Q) (t : TaskId) : Except Fault (Mem Q) :=
  requeue m t (.setStatus .dormant)

/-- What `mrb_task_join` writes into the TCB. -/
def waitFor (core : Core) (toJoin : TaskId) (tcb : Tcb) : Tcb :=
  { tcb with
    status := .waiting
    reason := .join
    tcbJoin := some toJoin
    waitStarter := core.c }

def mrbTaskJoin (m : Mem Q) (current toJoin : TaskId) : Except Fault (Mem Q) :=
  requeue m current (waitFor m.core toJoin)

/-- `tcb->priority_preemption = 1` of `mrb_task_s_pass`. -/
def passPriority (tcb : Tcb) : Tcb := { tcb with priorityPreemption := 1 }

def mrbTaskPrioritySet (priority : Int) (tcb : Tcb) : Tcb :=
  { tcb with priority := (priority % 256).toNat }

def mrbStopTask (tcb : Tcb) : Tcb := { tcb with c := { tcb.c with status := .stopped } }

/-- `mrb_sandbox_execute` before it resumes the task. -/
def mrbSandboxExecute (proc : ProcId) (tcb : Tcb) : Tcb :=
  mrbTaskResetContext (mrbTaskProcSet proc tcb)

/-! ## The stopped and the switch branch of mrb_tasks_run -/

def stopTask (m : Mem Q) (t : TaskId) : Except Fault (Mem Q) :=
  requeue m t (.setStatus .dormant)

def hasJoined (core : Core) (t u : TaskId) : Prop :=
  (core.tcb u).reason = .join ∧ (core.tcb u).tcbJoin = some t

instance (core : Core) (t u : TaskId) : Decidable (hasJoined core t u) :=
  inferInstanceAs (Decidable (_ ∧ _))

def releaseWaitingOne (t : TaskId) (s : Mem Q × Unit) (u : TaskId) : Except Fault (Mem Q × Unit) :=
  if hasJoined s.1.core t u then
    (requeue s.1 u wakeUp).map (·, ())
  else .ok s

def clearReason (tcb : Tcb) : Tcb := { tcb with reason := .none }

def releaseSuspendedOne (t : TaskId) (s : Mem Q × Unit) (u : TaskId) :
    Except Fault (Mem Q × Unit) :=
  if hasJoined s.1.core t u then
    .ok (s.1.setTcb u clearReason, ())
  else .ok s

/-- "find task that called join". -/
def releaseJoiners (m : Mem Q) (t : TaskId) : Except Fault (Mem Q) := do
  let s ← walk (releaseWaitingOne t) qWaiting (m, ())
  let s ← walk (releaseSuspendedOne t) qSuspended s
  .ok s.1

def switchTask (m : Mem Q) (t : TaskId) : Except Fault (Mem Q) :=
  requeue m t id

/-! ## The machine -/

/-- The argument of `sleep` and `sleep_ms`; a float stands for the `mrb_int` it is cast to. -/
inductive SleepArg where
  | absent
  | integer (i : Int)
  | float (ms : Int)
  | other
deriving DecidableEq, Repr

inductive VmOutcome where
  | yielded | finished | raised (obj : Nat)
deriving DecidableEq, Repr

/-- How `mrb_vm_exec` returns: the outcome, the returned value and the frames it leaves. -/
structure VmResult where
  outcome : VmOutcome
  value : Nat
  basePc : Nat
  calls : List CallInfo
deriving DecidableEq, Repr

/-- Points inside a method called by the executing bytecode. -/
inductive OpPc where
  | sleepEnter (ms : Int)
  | sleepSection (target : Option TaskId) (ms : Int)
  | sleepForever
  | suspendTarget (target : Option TaskId)
  | suspendSection (target : TaskId)
  | setSwitching
  | resumeSection (target : TaskId) (flagToReadyStatus : Bool)
  | resumeTest (target : TaskId)
  | resumeCompare (target : TaskId)
  | resumeStore (target : TaskId)
  | terminateSection (target : TaskId)
  | joinSection (toJoin : TaskId)
  | passPriority
deriving DecidableEq, Repr

/-- Points of `mrb_tasks_run`; `tcb` is its local variable. -/
inductive Pc where
  | boot
  | loop
  | chosen (tcb : TaskId)
  | marked (tcb : TaskId)
  | exec (tcb : TaskId)
  | op (tcb : TaskId) (o : OpPc)
  | returned (tcb : TaskId)
  | afterSlice (tcb : TaskId)
  | stoppedGap (tcb : TaskId)
  | switchReady (tcb : TaskId)
  | exited
deriving DecidableEq, Repr

/-- `tick` is the timer interrupt, `run` the next piece of C code; the others are
what the executing bytecode may do next. -/
inductive Act where
  | tick
  | run
  | vmReturn (r : VmResult)
  | createTask (priority : Option Int) (proc : ProcId)
  | sleep (arg : SleepArg)
  | sleepMs (arg : SleepArg)
  | suspend (t : TaskId)
  | resume (t : TaskId)
  | terminate (t : TaskId)
  | join (t : TaskId)
  | pass
  | setPriority (t : TaskId) (priority : Int)
  | stop (t : TaskId)
  | sandboxExecute (t : TaskId) (proc : ProcId)
  | sandboxExecVmCode (t : TaskId) (proc : ProcId)
deriving DecidableEq, Repr

structure State (Q : Type) where
  mem : Mem Q
  pc : Pc

def allQueuesEmpty (m : Mem Q) : Bool :=
  (head m.queues qReady).isNone && (head m.queues qWaiting).isNone &&
    (head m.queues qSuspended).isNone

/-- The task whose context `mrb->c` is, `MRB2TCB(mrb)->task`. -/
def currentTask (m : Mem Q) (tcb : TaskId) : TaskId := m.core.c.getD tcb

def storeResult (r : VmResult) (tcb : Tcb) : Tcb :=
  { tcb with
    value := .ret r.value
    c :=
      { cibase := { tcb.c.cibase with pc := r.basePc }
        calls := r.calls
        status := if r.outcome = .finished then .stopped else tcb.c.status
        finished := if r.outcome = .finished then true else tcb.c.finished } }

def vmReturn (m : Mem Q) (t : TaskId) (r : VmResult) : Mem Q :=
  let m := m.setTcb t (storeResult r)
  match r.outcome with
  | .raised obj => m.setCore fun core => { core with exc := some ⟨t, obj⟩ }
  | _ => m

def storeException (e : ExcObj) (tcb : Tcb) : Tcb :=
  { tcb with value := .exc e, c := { tcb.c with status := .stopped } }

/-- `if (mrb->exc)` after the slice, then `switching_ = FALSE`. -/
def afterVm (m : Mem Q) (t : TaskId) : Mem Q :=
  let m :=
    match m.core.exc with
    | some e => m.setTcb t (storeException e)
    | none => m
  m.setCore fun core => { core with switching := false }

def noteException (core : Core) : Core :=
  match core.exc with
  | some e => { core with ret := .exc e }
  | none => core

/-- Conversion of a 64 bit product, `mrb_integer(sec) * 1000`. -/
def secToMs (sec : Int) : Int := (sec * 1000).bmod (2 ^ 64)

/-- Entry of the resume path shared by `Task#resume` and `Sandbox`. -/
def resumePc (m : Mem Q) (tcb t : TaskId) : Pc :=
  if (m.core.tcb t).status = .suspended then
    .op tcb (.resumeSection t (decide ((m.core.tcb t).reason = .none)))
  else .exec tcb

/-- A method call of the bytecode executing as `tcb`. -/
def call (m : Mem Q) (tcb : TaskId) : Act → Option (Except Fault (State Q))
  | .vmReturn r => some (.ok ⟨vmReturn m tcb r, .returned tcb⟩)
  | .createTask priority proc =>
    some ((mrbCreateTask m priority proc).map (⟨·, .exec tcb⟩))
  | .sleep .absent => some (.ok ⟨m, .op tcb .sleepForever⟩)
  | .sleep (.integer sec) => some (.ok ⟨m, .op tcb (.sleepEnter (secToMs sec))⟩)
  | .sleep (.float ms) => some (.ok ⟨m, .op tcb (.sleepEnter ms)⟩)
  | .sleep .other => some (.ok ⟨m, .exec tcb⟩)
  | .sleepMs (.integer ms) => some (.ok ⟨m, .op tcb (.sleepEnter ms)⟩)
  | .sleepMs _ => some (.ok ⟨m, .exec tcb⟩)
  | .suspend t =>
    if t < m.core.created then some (.ok ⟨m, .op tcb (.suspendTarget (some t))⟩) else none
  | .resume t => if t < m.core.created then some (.ok ⟨m, resumePc m tcb t⟩) else none
  | .terminate t =>
    if t < m.core.created then
      some (.ok ⟨m, if (m.core.tcb t).status = .dormant then .exec tcb
        else .op tcb (.terminateSection t)⟩)
    else none
  | .join t =>
    if t < m.core.created then
      some (.ok ⟨m,
        if t = currentTask m tcb then .exec tcb
        else if (m.core.tcb t).status = .dormant then .exec tcb
        else .op tcb (.joinSection t)⟩)
    else none
  | .pass =>
    some (.ok ⟨m.setTcb (currentTask m tcb) (.setTimeslice 0),
      .op tcb .passPriority⟩)
  | .setPriority t priority =>
    if t < m.core.created then
      some (.ok ⟨m.setTcb t (mrbTaskPrioritySet priority), .exec tcb⟩)
    else none
  | .stop t =>
    if t < m.core.created then
      some (.ok ⟨m.setTcb t mrbStopTask, .exec tcb⟩)
    else none
  | .sandboxExecute t proc =>
    if t < m.core.created then
      let m := m.setTcb t (mrbSandboxExecute proc)
      some (.ok ⟨m, resumePc m tcb t⟩)
    else none
  | .sandboxExecVmCode t proc =>
    if t < m.core.created then
      let m := m.setTcb t (mrbTaskInitContext proc)
      some (.ok ⟨m, resumePc m tcb t⟩)
    else none
  | _ => none

/-- The rest of a method that `call` has entered. -/
def opStep (cfg : Config) (m : Mem Q) (tcb : TaskId) : OpPc → Except Fault (State Q)
  | .sleepEnter ms => .ok ⟨m, .op tcb (.sleepSection (head m.queues qReady) ms)⟩
  | .sleepSection target ms =>
    (sleepMsImpl cfg m target ms).map (⟨·, .op tcb .setSwitching⟩)
  | .sleepForever => .ok ⟨m, .op tcb (.suspendTarget (head m.queues qReady))⟩
  | .suspendTarget none => .error .nullTask
  | .suspendTarget (some t) =>
    .ok ⟨m, if (m.core.tcb t).status = .suspended then .exec tcb else .op tcb (.suspendSection t)⟩
  | .suspendSection t => (mrbSuspendTask m t).map (⟨·, .op tcb .setSwitching⟩)
  | .setSwitching => .ok ⟨m.setCore fun core => { core with switching := true }, .exec tcb⟩
  | .resumeSection t flag => (mrbResumeTask m t flag).map (⟨·, .op tcb (.resumeTest t)⟩)
  | .resumeTest t =>
    .ok ⟨m, if (m.core.tcb t).reason = .sleep then .op tcb (.resumeCompare t) else .exec tcb⟩
  | .resumeCompare t =>
    .ok ⟨m,
      if signedDiff (m.core.tcb t).wakeupTick m.core.wakeupTick < 0 then .op tcb (.resumeStore t)
      else .exec tcb⟩
  | .resumeStore t =>
    .ok ⟨m.setCore fun core => core.setWakeupTick (core.tcb t).wakeupTick, .exec tcb⟩
  | .terminateSection t => (mrbTerminateTask m t).map (⟨·, .exec tcb⟩)
  | .joinSection t =>
    (mrbTaskJoin m (currentTask m tcb) t).map (⟨·, .op tcb .setSwitching⟩)
  | .passPriority =>
    .ok ⟨m.setTcb (currentTask m tcb) passPriority, .exec tcb⟩

/-- The code of `mrb_tasks_run` itself. -/
def tasksRunStep (cfg : Config) (m : Mem Q) : Pc → Option (Except Fault (State Q))
  | .boot =>
    some (.ok ⟨m, if cfg.schedulerExit && allQueuesEmpty m then .exited else .loop⟩)
  | .loop =>
    match head m.queues qReady with
    | none => some (.ok ⟨m, .loop⟩)
    | some t => some (.ok ⟨m, .chosen t⟩)
  | .chosen t =>
    some (.ok ⟨m.setTcb t (.setStatus .running), .marked t⟩)
  | .marked t =>
    let m := m.setCore fun core => { core with c := some t }
    some (.ok ⟨m.setTcb t (.setTimeslice cfg.timesliceTickCount), .exec t⟩)
  | .returned t => some (.ok ⟨afterVm m t, .afterSlice t⟩)
  | .afterSlice t =>
    if (m.core.tcb t).c.status = .stopped then
      some ((stopTask m t).map (⟨·, .stoppedGap t⟩))
    else if (m.core.tcb t).status = .running then
      some (.ok ⟨m.setTcb t (.setStatus .ready), .switchReady t⟩)
    else some (.ok ⟨m, .loop⟩)
  | .stoppedGap t =>
    some ((releaseJoiners (m.setCore noteException) t).map fun m =>
      ⟨m, if cfg.schedulerExit && allQueuesEmpty m then .exited else .loop⟩)
  | .switchReady t => some ((switchTask m t).map (⟨·, .loop⟩))
  | _ => none

def step (cfg : Config) (s : State Q) : Act → Option (Except Fault (State Q))
  | .tick => some ((mrbTick s.mem).map (⟨·, s.pc⟩))
  | .run =>
    match s.pc with
    | .op tcb o => some (opStep cfg s.mem tcb o)
    | pc => tasksRunStep cfg s.mem pc
  | .createTask priority proc =>
    match s.pc with
    | .boot => some ((mrbCreateTask s.mem priority proc).map (⟨·, .boot⟩))
    | .exec tcb => call s.mem tcb (.createTask priority proc)
    | _ => none
  | a =>
    match s.pc with
    | .exec tcb => call s.mem tcb a
    | _ => none

def Step (cfg : Config) (s : State Q) (a : Act) (s' : State Q) : Prop :=
  step cfg s a = some (.ok s')

/-- The machine of the source, before `mrb_tasks_run` is called. -/
def boot : State Links := ⟨⟨Core.init, Links.init⟩, .boot⟩

/-- Plays a list of actions that all meet `Ok`; `none` when one is not enabled or faults. -/
def play (cfg : Config) (Ok : State Q → Act → Prop) [∀ s a, Decidable (Ok s a)] (s : State Q) :
    List Act → Option (State Q)
  | [] => some s
  | a :: as =>
    if Ok s a then
      match step cfg s a with
      | some (.ok s') => play cfg Ok s' as
      | _ => none
    else none

theorem run_of_play {cfg : Config} {Ok : State Q → Act → Prop} [∀ s a, Decidable (Ok s a)]
    {s t : State Q} {as : List Act} (h : play cfg Ok s as = some t) : Run (Step cfg) Ok s as t := by
  induction as generalizing s with
  | nil =>
    cases h
    exact .refl _
  | cons a as ih =>
    unfold play at h
    split at h
    · rename_i hok
      split at h
      · rename_i s' hstep
        exact .cons hok hstep (ih h)
      · cases h
    · cases h

theorem play_of_run {cfg : Config} {Ok : State Q → Act → Prop} [∀ s a, Decidable (Ok s a)]
    {s t : State Q} {as : List Act} (h : Run (Step cfg) Ok s as t) : play cfg Ok s as = some t := by
  induction as generalizing s with
  | nil => rw [h.nil_inv, play]
  | cons a as ih =>
    obtain ⟨s', hok, hstep, hrest⟩ := h.cons_inv
    unfold Step at hstep
    rw [play, if_pos hok, hstep]
    exact ih hrest

end PicoRuby.Task
