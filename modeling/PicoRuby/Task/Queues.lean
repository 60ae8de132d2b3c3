import Mathlib.Logic.Function.Basic
import Mathlib.Data.List.Sort

/-!
# Task control blocks and scheduler memory

The data of `include/task.h` and of `mrb->task`. A TCB is addressed by its
creation number; `next` is not a field here but belongs to the queue structure,
so that the same code runs on linked cells and on plain lists.

Two fields are history: `insertedAt` and `waitStarter` are written where the
source writes the queue or the wait reason, and no branch ever reads them.
-/

namespace PicoRuby.Task

set_option autoImplicit false

abbrev TaskId := Nat

/-- A compiled body, `struct RProc`. -/
abbrev ProcId := Nat

/-- The build-time constants of `hal.h`. -/
structure Config where
  tickUnit : Nat
  timesliceTickCount : Nat
  schedulerExit : Bool
  tickUnit_pos : 0 < tickUnit
  timeslice_pos : 0 < timesliceTickCount
  timeslice_lt : timesliceTickCount < 256

/-- The values `hal.h` falls back to. -/
def Config.hal : Config :=
  ⟨4, 3, true, by decide, by decide, by decide⟩

/-- `enum TASKSTATUS`. -/
inductive TaskStatus where
  | dormant | ready | running | waiting | suspended
deriving DecidableEq, Repr

/-- The bit mapped value of a status. -/
def TaskStatus.code : TaskStatus → Nat
  | dormant => 0x00
  | ready => 0x02
  | running => 0x03
  | waiting => 0x04
  | suspended => 0x08

/-- `enum TASKREASON`. -/
inductive TaskReason where
  | none | sleep | mutex | join
deriving DecidableEq, Repr

/-- `conv_tbl`, indexed by half the status code. -/
def convTbl : List (Fin 4) := [0, 1, 2, 0, 3]

def queueOf (status : TaskStatus) : Fin 4 := convTbl.getD (status.code / 2) 0

abbrev qDormant : Fin 4 := 0
abbrev qReady : Fin 4 := 1
abbrev qWaiting : Fin 4 := 2
abbrev qSuspended : Fin 4 := 3

@[simp] theorem queueOf_dormant : queueOf .dormant = qDormant := rfl
@[simp] theorem queueOf_ready : queueOf .ready = qReady := rfl
@[simp] theorem queueOf_running : queueOf .running = qReady := rfl
@[simp] theorem queueOf_waiting : queueOf .waiting = qWaiting := rfl
@[simp] theorem queueOf_suspended : queueOf .suspended = qSuspended := rfl

theorem queueOf_eq_ready_iff {st : TaskStatus} :
    queueOf st = qReady ↔ st = .ready ∨ st = .running := by
  cases st <;> decide

theorem queueOf_eq_waiting_iff {st : TaskStatus} : queueOf st = qWaiting ↔ st = .waiting := by
  cases st <;> decide

theorem queueOf_eq_suspended_iff {st : TaskStatus} :
    queueOf st = qSuspended ↔ st = .suspended := by
  cases st <;> decide

/-- An exception object, with the task whose bytecode raised it. -/
structure ExcObj where
  raisedBy : TaskId
  obj : Nat
deriving DecidableEq, Repr

/-- `tcb->value`: never set, returned by `mrb_vm_exec`, or taken from `mrb->exc`. -/
inductive Value where
  | nil
  | ret (v : Nat)
  | exc (e : ExcObj)
deriving DecidableEq, Repr

/-- `mrb_callinfo`: a body and the position in it. -/
structure CallInfo where
  proc : ProcId
  pc : Nat
deriving DecidableEq, Repr

/-- `c.status`, as far as `task.c` names its values. -/
inductive ContextStatus where
  | created | stopped
deriving DecidableEq, Repr

/-- `struct mrb_context`: the base frame, the frames above it (innermost first)
and the status. `finished` is history: the bytecode ran to its end since the
context was last reset. -/
structure Context where
  cibase : CallInfo
  calls : List CallInfo
  status : ContextStatus
  finished : Bool
deriving DecidableEq, Repr

/-- `c->ci`, the frame `mrb_vm_exec` continues in. -/
def Context.ci (c : Context) : CallInfo := c.calls.headD c.cibase

/-- `mrb_tcb` without its `next` pointer. -/
structure Tcb where
  priority : Nat
  priorityPreemption : Nat
  timeslice : Nat
  status : TaskStatus
  reason : TaskReason
  wakeupTick : BitVec 32
  tcbJoin : Option TaskId
  value : Value
  c : Context
  /-- History: the insertion count when the TCB last entered a queue. -/
  insertedAt : Nat
  /-- History: the task that executed the sleep or join behind `reason`. -/
  waitStarter : Option TaskId
deriving DecidableEq, Repr

/-- What `mrb_calloc` hands out, before `mrb_tcb_new` fills it in. -/
def Tcb.zero : Tcb where
  priority := 0
  priorityPreemption := 0
  timeslice := 0
  status := .dormant
  reason := .none
  wakeupTick := 0
  tcbJoin := none
  value := .nil
  c := ⟨⟨0, 0⟩, [], .created, false⟩
  insertedAt := 0
  waitStarter := none

def Tcb.setStatus (status : TaskStatus) (tcb : Tcb) : Tcb := { tcb with status := status }

@[simp] theorem Tcb.setStatus_status (status : TaskStatus) (tcb : Tcb) :
    (tcb.setStatus status).status = status := rfl
@[simp] theorem Tcb.setStatus_reason (status : TaskStatus) (tcb : Tcb) :
    (tcb.setStatus status).reason = tcb.reason := rfl

def Tcb.setTimeslice (n : Nat) (tcb : Tcb) : Tcb := { tcb with timeslice := n }

/-- `mrb_state` as far as the scheduler uses it, less the queue links. -/
structure Core where
  tcb : TaskId → Tcb
  created : Nat
  tick : BitVec 32
  wakeupTick : BitVec 32
  switching : Bool
  exc : Option ExcObj
  c : Option TaskId
  ret : Value
  /-- History: the number of queue insertions so far. -/
  insertions : Nat

/-- `1 << 16`: how far ahead the cached wake-up time is put when nothing is closer. -/
def wakeupSpan : BitVec 32 := 1 <<< 16

/-- `mrb_picoruby_mruby_gem_init` on a zeroed `mrb_state`. -/
def Core.init : Core where
  tcb := fun _ => .zero
  created := 0
  tick := 0
  wakeupTick := wakeupSpan
  switching := false
  exc := none
  c := none
  ret := .nil
  insertions := 0

/-- Scheduler memory over a representation `Q` of the four queues. -/
structure Mem (Q : Type) where
  core : Core
  queues : Q

variable {Q : Type}

def Core.setTcb (core : Core) (t : TaskId) (f : Tcb → Tcb) : Core :=
  { core with tcb := Function.update core.tcb t (f (core.tcb t)) }

def Mem.setTcb (m : Mem Q) (t : TaskId) (f : Tcb → Tcb) : Mem Q :=
  { m with core := m.core.setTcb t f }

def Mem.setCore (m : Mem Q) (f : Core → Core) : Mem Q := { m with core := f m.core }

def Core.setWakeupTick (core : Core) (wake : BitVec 32) : Core := { core with wakeupTick := wake }

/-- History kept by `q_insert_task`. -/
def Core.noteInsertion (core : Core) (t : TaskId) : Core :=
  { core.setTcb t fun tcb => { tcb with insertedAt := core.insertions } with
    insertions := core.insertions + 1 }

section Projections
variable (core : Core) (t u : TaskId) (f : Tcb → Tcb)

theorem Core.setTcb_tcb : (core.setTcb t f).tcb u = if u = t then f (core.tcb t) else core.tcb u := by
  simp [Core.setTcb, Function.update_apply]

@[simp] theorem Core.setTcb_tcb_self : (core.setTcb t f).tcb t = f (core.tcb t) := by
  simp [Core.setTcb]

@[simp] theorem Core.setTcb_created : (core.setTcb t f).created = core.created := rfl
@[simp] theorem Core.setTcb_tick : (core.setTcb t f).tick = core.tick := rfl
@[simp] theorem Core.setTcb_wakeupTick : (core.setTcb t f).wakeupTick = core.wakeupTick := rfl
@[simp] theorem Core.setTcb_switching : (core.setTcb t f).switching = core.switching := rfl
@[simp] theorem Core.setTcb_exc : (core.setTcb t f).exc = core.exc := rfl
@[simp] theorem Core.setTcb_c : (core.setTcb t f).c = core.c := rfl
@[simp] theorem Core.setTcb_insertions : (core.setTcb t f).insertions = core.insertions := rfl

@[simp] theorem Mem.setCore_core (m : Mem Q) (f : Core → Core) :
    (m.setCore f).core = f m.core := rfl
@[simp] theorem Mem.setCore_queues (m : Mem Q) (f : Core → Core) :
    (m.setCore f).queues = m.queues := rfl
@[simp] theorem Mem.setTcb_core (m : Mem Q) : (m.setTcb t f).core = m.core.setTcb t f := rfl
@[simp] theorem Mem.setTcb_queues (m : Mem Q) : (m.setTcb t f).queues = m.queues := rfl

variable (wake : BitVec 32)

@[simp] theorem Core.setWakeupTick_wakeupTick : (core.setWakeupTick wake).wakeupTick = wake := rfl
@[simp] theorem Core.setWakeupTick_tcb : (core.setWakeupTick wake).tcb = core.tcb := rfl
@[simp] theorem Core.setWakeupTick_created :
    (core.setWakeupTick wake).created = core.created := rfl
@[simp] theorem Core.setWakeupTick_tick : (core.setWakeupTick wake).tick = core.tick := rfl
@[simp] theorem Core.setWakeupTick_switching :
    (core.setWakeupTick wake).switching = core.switching := rfl
@[simp] theorem Core.setWakeupTick_exc : (core.setWakeupTick wake).exc = core.exc := rfl
@[simp] theorem Core.setWakeupTick_c : (core.setWakeupTick wake).c = core.c := rfl
@[simp] theorem Core.setWakeupTick_ret : (core.setWakeupTick wake).ret = core.ret := rfl
@[simp] theorem Core.setWakeupTick_insertions :
    (core.setWakeupTick wake).insertions = core.insertions := rfl

end Projections

end PicoRuby.Task

/-!
# The task queues

`q_insert_task` and `q_delete_task` on the linked cells of the source, and the
same two operations on plain lists. The C loops over a queue all read the
successor of a TCB before they touch it; `walk` is that loop.
-/

namespace PicoRuby.Task

set_option autoImplicit false

/-- What stops the machine: `q_delete_task` given NULL, its assertion
"Not found target task in queue", or a queue walk that does not end. -/
inductive Fault where
  | nullTask | notFound | endless
deriving DecidableEq, Repr

/-- A representation of the four queues of `mrb->task`. -/
class TaskQueues (Q : Type) where
  head : Q → Fin 4 → Option TaskId
  qInsertTask : Mem Q → TaskId → Except Fault (Mem Q)
  qDeleteTask : Mem Q → Option TaskId → Except Fault (Mem Q)
  walk {β : Type} : (Mem Q × β → TaskId → Except Fault (Mem Q × β)) → Fin 4 → Mem Q × β →
    Except Fault (Mem Q × β)

export TaskQueues (head qInsertTask qDeleteTask walk)

/-! ## Linked cells -/

/-- The `next` fields and the four queue heads. -/
structure Links where
  next : TaskId → Option TaskId
  queues : Fin 4 → Option TaskId

namespace Links

def init : Links := ⟨fun _ => none, fun _ => none⟩

/-- The loop of `q_insert_task`: the cell behind which `p` goes. -/
def insertPoint (core : Core) (next : TaskId → Option TaskId) (p : TaskId) :
    Nat → TaskId → Option TaskId
  | 0, _ => none
  | fuel + 1, r =>
    match next r with
    | none => some r
    | some n =>
      if (core.tcb p).priorityPreemption < (core.tcb n).priorityPreemption then some r
      else insertPoint core next p fuel n

def qInsertTask (m : Mem Links) (p : TaskId) : Except Fault (Mem Links) :=
  let q := queueOf (m.core.tcb p).status
  let core := m.core.noteInsertion p
  let next := m.queues.next
  match m.queues.queues q with
  | none =>
    .ok ⟨core, Function.update next p none, Function.update m.queues.queues q (some p)⟩
  | some h =>
    if (m.core.tcb p).priorityPreemption < (m.core.tcb h).priorityPreemption then
      .ok ⟨core, Function.update next p (some h), Function.update m.queues.queues q (some p)⟩
    else
      match insertPoint m.core next p m.core.created h with
      | none => .error .endless
      | some r =>
        .ok ⟨core, Function.update (Function.update next p (next r)) r (some p), m.queues.queues⟩

/-- The loop of `q_delete_task`: the cell whose successor is `p`. -/
def predecessor (next : TaskId → Option TaskId) (p : TaskId) :
    Nat → Option TaskId → Except Fault TaskId
  | _, none => .error .notFound
  | 0, some _ => .error .endless
  | fuel + 1, some r => if next r = some p then .ok r else predecessor next p fuel (next r)

def qDeleteTask (m : Mem Links) : Option TaskId → Except Fault (Mem Links)
  | none => .error .nullTask
  | some p =>
    let q := queueOf (m.core.tcb p).status
    let next := m.queues.next
    if m.queues.queues q = some p then
      .ok ⟨m.core, Function.update next p none, Function.update m.queues.queues q (next p)⟩
    else
      match predecessor next p m.core.created (m.queues.queues q) with
      | .error f => .error f
      | .ok r =>
        .ok ⟨m.core, Function.update (Function.update next r (next p)) p none, m.queues.queues⟩

def walkFrom {β : Type} (body : Mem Links × β → TaskId → Except Fault (Mem Links × β)) :
    Nat → Option TaskId → Mem Links × β → Except Fault (Mem Links × β)
  | _, none, s => .ok s
  | 0, some _, _ => .error .endless
  | fuel + 1, some t, s =>
    let nextT := s.1.queues.next t
    match body s t with
    | .error f => .error f
    | .ok s' => walkFrom body fuel nextT s'

end Links

instance : TaskQueues Links where
  head links q := links.queues q
  qInsertTask := Links.qInsertTask
  qDeleteTask := Links.qDeleteTask
  walk body q s := Links.walkFrom body s.1.core.created (s.1.queues.queues q) s

/-! ## Plain lists -/

abbrev Lists := Fin 4 → List TaskId

namespace Lists

/-- Behind every TCB whose `priority_preemption` is not larger. -/
def place (core : Core) (p : TaskId) (l : List TaskId) : List TaskId :=
  l.orderedInsert
    (fun a b => (core.tcb a).priorityPreemption < (core.tcb b).priorityPreemption) p

def insert (m : Mem Lists) (p : TaskId) : Mem Lists :=
  let q := queueOf (m.core.tcb p).status
  ⟨m.core.noteInsertion p, Function.update m.queues q (place m.core p (m.queues q))⟩

def delete (m : Mem Lists) (p : TaskId) : Mem Lists :=
  let q := queueOf (m.core.tcb p).status
  ⟨m.core, Function.update m.queues q ((m.queues q).erase p)⟩

def walk {β : Type} (body : Mem Lists × β → TaskId → Except Fault (Mem Lists × β)) :
    List TaskId → Mem Lists × β → Except Fault (Mem Lists × β)
  | [], s => .ok s
  | t :: l, s =>
    match body s t with
    | .error f => .error f
    | .ok s' => walk body l s'

end Lists

instance : TaskQueues Lists where
  head queues q := (queues q).head?
  qInsertTask m p := .ok (Lists.insert m p)
  qDeleteTask m
    | none => .error .nullTask
    | some p => .ok (Lists.delete m p)
  walk body q s := Lists.walk body (s.1.queues q) s

end PicoRuby.Task
