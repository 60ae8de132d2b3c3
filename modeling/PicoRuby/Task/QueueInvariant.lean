import PicoRuby.Task.Refinement

/-!
# The queue invariant

As long as the ready queue is not empty where `sleep` and `sleep_ms` take its head
for the calling task, every TCB stands in the queue of its status, and in no other.
-/

namespace PicoRuby.Task

open Shared

set_option autoImplicit false

/-- The task inside a sleep that is about to read `q_ready_` as its own TCB. -/
def Pc.sleeper : Pc → Option TaskId
  | .op t (.sleepEnter _) | .op t .sleepForever => some t
  | _ => none

/-- A method that holds the NULL it has read from `q_ready_`. -/
def Pc.holdsNull : Pc → Prop
  | .op _ (.sleepSection none _) | .op _ (.suspendTarget none) => True
  | _ => False

section Condition
variable {Q : Type} [TaskQueues Q]

def ReadyWhenSleeping (s : State Q) (a : Act) : Prop :=
  a = .run → s.pc.sleeper ≠ none → head s.mem.queues qReady ≠ none

instance (s : State Q) (a : Act) : Decidable (ReadyWhenSleeping s a) :=
  inferInstanceAs (Decidable (_ → _ → _))

end Condition

/-- Following `next` from the head of a queue visits a finite list; a created TCB is
once in the list of the queue that `conv_tbl` gives for its status, and in no other. -/
def QueueInvariant (m : Mem Links) : Prop :=
  ∃ l : Fin 4 → List TaskId, (∀ q, Linked m.queues.next (m.queues.queues q) (l q)) ∧
    ∀ q t, (l q).count t =
      if t < m.core.created ∧ q = queueOf (m.core.tcb t).status then 1 else 0

theorem Rep.queueInvariant {m : Mem Links} {a : Mem Lists} (h : Rep m a) : QueueInvariant m := by
  refine ⟨a.queues, h.linked, fun q t => ?_⟩
  rw [h.core]
  have hmem := h.placed.mem_iff q t
  split
  · rename_i hq
    exact List.count_eq_one_of_mem (h.placed.nodup q) (hmem.mpr ⟨hq.1, hq.2.symm, by simp⟩)
  · rename_i hq
    exact List.count_eq_zero.mpr fun ht => hq ⟨(hmem.mp ht).1, (hmem.mp ht).2.1.symm⟩

section Faults
variable {cfg : Config} {b b' : State Lists} {a : Act} {f : Fault}

theorem opStep_error {m : Mem Lists} {t : TaskId} {o : OpPc} (h : opStep cfg m t o = .error f) :
    (Pc.op t o).holdsNull := by
  cases o with
  | sleepSection target ms =>
    cases target with
    | none => trivial
    | some u =>
      rw [opStep, Lists.sleepMsImpl_some] at h
      cases h
  | suspendTarget target =>
    cases target with
    | none => trivial
    | some u => cases h
  | resumeSection u flag =>
    rw [opStep, Lists.mrbResumeTask_eq] at h
    cases h
  | _ => cases h

theorem tasksRunStep_ne_error {m : Mem Lists} {pc : Pc} :
    tasksRunStep cfg m pc ≠ some (.error f) := by
  intro h
  cases pc with
  | loop =>
    simp only [tasksRunStep] at h
    split at h <;> cases h
  | afterSlice u =>
    simp only [tasksRunStep] at h
    split at h
    · cases h
    · split at h <;> cases h
  | stoppedGap u =>
    rw [tasksRunStep, Lists.releaseJoiners_eq] at h
    cases h
  | _ => cases h

theorem call_ne_error {m : Mem Lists} {t : TaskId} : call m t a ≠ some (.error f) := by
  intro h
  cases a with
  | createTask priority proc =>
    rw [call, Lists.mrbCreateTask_eq] at h
    cases h
  | sleep arg => cases arg <;> cases h
  | sleepMs arg => cases arg <;> cases h
  | tick => cases h
  | run => cases h
  | vmReturn r => cases h
  | pass => cases h
  | _ =>
    simp only [call] at h
    split at h <;> cases h

/-- The queue operations on lists fail on NULL only. -/
theorem step_error (h : step cfg b a = some (.error f)) : b.pc.holdsNull := by
  obtain ⟨m, pc⟩ := b
  unfold step at h
  split at h
  · rw [Lists.mrbTick_eq] at h
    cases h
  · dsimp only at h
    split at h
    · exact opStep_error (Option.some.inj h)
    · exact absurd h tasksRunStep_ne_error
  · dsimp only at h
    split at h
    · rw [Lists.mrbCreateTask_eq] at h
      cases h
    · exact absurd h call_ne_error
    · cases h
  · dsimp only at h
    split at h
    · exact absurd h call_ne_error
    · cases h

/-- NULL comes from an empty ready queue. -/
theorem Trans.not_holdsNull (h : Trans cfg b a b') (hok : ReadyWhenSleeping b a)
    (hb : ¬ b.pc.holdsNull) : ¬ b'.pc.holdsNull := by
  cases h with
  | @silent m pc pc' a hs =>
    have hhead : pc.sleeper ≠ none → a = .run → ∃ u, (m.queues qReady).head? = some u :=
      fun hpc ha => Option.ne_none_iff_exists'.mp (hok ha hpc)
    cases hs with
    | sleepEnter =>
      obtain ⟨u, hu⟩ := hhead (by simp [Pc.sleeper]) rfl
      simp [hu, Pc.holdsNull]
    | sleepForever =>
      obtain ⟨u, hu⟩ := hhead (by simp [Pc.sleeper]) rfl
      simp [hu, Pc.holdsNull]
    | _ => simp [Pc.holdsNull]
  | tick => exact hb
  | release hpc => rcases hpc with rfl | rfl <;> simp [Pc.holdsNull]
  | execute _ =>
    simp only [resumePc]
    split <;> simp [Pc.holdsNull]
  | execVmCode _ =>
    simp only [resumePc]
    split <;> simp [Pc.holdsNull]
  | _ => simp [Pc.holdsNull]

theorem run_not_holdsNull {as : List Act}
    (h : Run (Step cfg) ReadyWhenSleeping bootLists as b) : ¬ b.pc.holdsNull :=
  h.invariant (I := fun b => ¬ b.pc.holdsNull)
    (fun _ _ _ hb hok hstep => hstep.trans.not_holdsNull hok hb) (by simp [bootLists, Pc.holdsNull])

end Faults

theorem readyWhenSleeping_related (s : State Links) (b : State Lists) (a : Act) (h : Related s b)
    (hok : ReadyWhenSleeping s a) : ReadyWhenSleeping b a := by
  intro ha hpc
  have hhead : TaskQueues.head s.mem.queues qReady = TaskQueues.head b.mem.queues qReady :=
    h.head qReady
  exact hhead ▸ hok ha (h.pc ▸ hpc)

/-- In a run whose sleeps all find a task in `q_ready_`, the queue invariant holds in
every state and `q_delete_task` always finds its target. -/
theorem queueInvariant_of_run {cfg : Config} {as : List Act} {s : State Links}
    (h : Run (Step cfg) ReadyWhenSleeping boot as s) :
    QueueInvariant s.mem ∧ ∀ a f, step cfg s a ≠ some (.error f) := by
  obtain ⟨b, hrun, hrel⟩ := Related.boot.run readyWhenSleeping_related h
  refine ⟨hrel.mem.queueInvariant, fun a f hfault => ?_⟩
  exact run_not_holdsNull hrun (step_error (hrel.fault hfault))

/-- Two tasks; the first sleeps, the second terminates the first and then itself. -/
def tidyRun : List Act :=
  [.createTask none 0, .createTask none 1, .run, .run, .run, .run, .sleepMs (.integer 5), .run,
    .tick, .run, .run, .vmReturn ⟨.yielded, 0, 1, []⟩, .run, .run, .run, .run, .run, .terminate 0,
    .tick, .run, .terminate 1, .run, .tick]

theorem queueInvariant_of_tidyRun :
    ∃ s, Run (Step Config.hal) ReadyWhenSleeping boot tidyRun s ∧ QueueInvariant s.mem := by
  have hplay : (play Config.hal ReadyWhenSleeping boot tidyRun).isSome := by decide +kernel
  obtain ⟨s, hs⟩ := Option.isSome_iff_exists.mp hplay
  exact ⟨s, run_of_play hs, (queueInvariant_of_run (run_of_play hs)).1⟩

/-- The only task terminates itself and then calls `sleep_ms`: `q_delete_task` is given NULL. -/
def sleepAfterTerminate : List Act :=
  [.createTask none 0, .run, .run, .run, .run, .terminate 0, .run, .sleepMs (.integer 1), .run]

theorem queueInvariant_fails : ¬ ∀ (as : List Act) (s : State Links),
    Run (Step Config.hal) (fun _ _ => True) boot as s →
      QueueInvariant s.mem ∧ ∀ a f, step Config.hal s a ≠ some (.error f) := by
  intro hall
  have hplay : ∃ s, play Config.hal (fun _ _ => True) boot sleepAfterTerminate = some s ∧
      step Config.hal s .run = some (.error .nullTask) :=
    ⟨_, rfl, rfl⟩
  obtain ⟨s, hs, hfault⟩ := hplay
  exact (hall _ s (run_of_play hs)).2 _ _ hfault

end PicoRuby.Task
