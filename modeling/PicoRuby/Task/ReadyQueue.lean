import PicoRuby.Shared.Placing
import PicoRuby.Task.Effects

/-!
# How the ready queue changes

Every section changes the ready queue by taking tasks out and placing tasks by `priority_preemption`. A task that is
READY before and after a step is moved by the step only where `mrb_tasks_run` switches from it.
-/

namespace PicoRuby.Task

open Shared

set_option autoImplicit false

/-- What the queues are ordered by. -/
def Core.key (core : Core) (u : TaskId) : Nat := (core.tcb u).priorityPreemption

/-- `u` is READY before and after the step, which does not switch from it. -/
structure KeepsReady (b b' : State Lists) (u : TaskId) : Prop where
  created : u < b.mem.core.created
  before : (b.mem.core.tcb u).status = .ready
  after : (b'.mem.core.tcb u).status = .ready
  unswitched : b.pc ≠ .switchReady u

/-- The keys are kept, and the ready queue changes by moves of the tasks that `Moved` allows. -/
structure Reorders (Moved : TaskId → Prop) (m m' : Mem Lists) : Prop where
  key : m'.core.key = m.core.key
  moves : Moves m.core.key Moved (m.queues qReady) (m'.queues qReady)

namespace Reorders
variable {M : TaskId → Prop} {m m' m'' : Mem Lists} {t u : TaskId}

theorem of_eq (hkey : m'.core.key = m.core.key) (hqueue : m'.queues qReady = m.queues qReady) :
    Reorders M m m' :=
  ⟨hkey, hqueue ▸ .refl⟩

theorem trans (h : Reorders M m m') (h' : Reorders M m' m'') : Reorders M m m'' :=
  ⟨h'.key.trans h.key, h.moves.trans (h.key ▸ h'.moves)⟩

theorem setTcb {f : Tcb → Tcb} (hf : ∀ tcb, (f tcb).priorityPreemption = tcb.priorityPreemption) :
    Reorders M m (m.setTcb u f) := by
  refine of_eq (funext fun v => ?_) rfl
  unfold Core.key
  rw [Mem.setTcb_core, Core.setTcb_tcb]
  split
  · rename_i hv
    rw [hf, hv]
  · rfl

theorem setCore {f : Core → Core} (hf : (f m.core).tcb = m.core.tcb) : Reorders M m (m.setCore f) :=
  of_eq (funext fun v => congrArg Tcb.priorityPreemption (congrFun hf v)) rfl

/-- Taking a task out of its queue. -/
theorem delete (hu : M u) : Reorders M m (Lists.delete m u) := by
  refine ⟨rfl, ?_⟩
  unfold Lists.delete
  dsimp only
  by_cases hq : qReady = queueOf (m.core.tcb u).status
  · rw [← hq, Function.update_self]
    exact .remove .refl hu
  · rw [Function.update_of_ne hq]
    exact .refl

/-- Placing a task in the queue of its status. -/
theorem insert (hu : M u) : Reorders M m (Lists.insert m u) := by
  have hkey : (Lists.insert m u).core.key = m.core.key := by
    funext v
    unfold Core.key Lists.insert
    rw [Core.noteInsertion_tcb]
    split
    · rename_i hv
      rw [hv]
    · rfl
  refine ⟨hkey, ?_⟩
  unfold Lists.insert
  dsimp only
  by_cases hq : qReady = queueOf (m.core.tcb u).status
  · rw [← hq, Function.update_self]
    exact .place .refl hu
  · rw [Function.update_of_ne hq]
    exact .refl

theorem requeue {f : Tcb → Tcb} (hu : M u)
    (hf : ∀ tcb, (f tcb).priorityPreemption = tcb.priorityPreemption) :
    Reorders M m (Lists.requeue m u f) :=
  ((delete hu).trans (setTcb hf)).trans (insert hu)

theorem tick (hwaiting : ∀ u ∈ m.queues qWaiting, M u) : Reorders M m (Lists.tick m) := by
  apply Lists.tick_induct
  · refine of_eq (funext fun v => ?_) (by rw [Lists.advance_queues])
    obtain ⟨n, hn⟩ := Lists.advance_tcb m v
    unfold Core.key
    rw [hn]
  · intro a f htcb _ _ ha
    exact ha.trans (setCore htcb)
  · intro a u ha hu
    exact ha.trans (requeue (hwaiting u hu) fun _ => rfl)

theorem release (hwaiting : ∀ u ∈ m.queues qWaiting, M u) : Reorders M m (Lists.release m t) := by
  have hfirst : ∀ (l : List TaskId) (a : Mem Lists), (∀ u ∈ l, M u) →
      Reorders M a (l.foldl (Lists.releaseWaitingStep t) a) := by
    intro l
    induction l with
    | nil => exact fun a _ => of_eq rfl rfl
    | cons u l ih =>
      intro a hl
      have hstep : Reorders M a (Lists.releaseWaitingStep t a u) := by
        unfold Lists.releaseWaitingStep
        split
        · exact requeue (hl u List.mem_cons_self) fun _ => rfl
        · exact of_eq rfl rfl
      exact hstep.trans (ih _ fun v hv => hl v (List.mem_cons_of_mem u hv))
  have hsecond : ∀ (l : List TaskId) (a : Mem Lists), Reorders M a (l.foldl (Lists.releaseSuspendedStep t) a) := by
    intro l
    induction l with
    | nil => exact fun a => of_eq rfl rfl
    | cons u l ih =>
      intro a
      have hstep : Reorders M a (Lists.releaseSuspendedStep t a u) := by
        unfold Lists.releaseSuspendedStep
        split
        · exact setTcb fun _ => rfl
        · exact of_eq rfl rfl
      exact hstep.trans (ih _)
  exact (hfirst _ m hwaiting).trans (hsecond _ _)

end Reorders

section Step
variable {cfg : Config} {b b' : State Lists} {a : Act} {m : Mem Lists} {pc pc' : Pc} {u : TaskId} {f : Tcb → Tcb}

theorem Reorders.moves_key {Moved : TaskId → Prop} {m m' : Mem Lists} (h : Reorders Moved m m') :
    Moves m'.core.key Moved (m.queues qReady) (m'.queues qReady) :=
  h.key ▸ h.moves

theorem not_keepsReady_requeue (hmem : b'.mem = Lists.requeue b.mem u f)
    (h : (f (b.mem.core.tcb u)).status ≠ .ready) : ¬ KeepsReady b b' u := by
  intro hk
  have hafter := hk.after
  rw [hmem, Lists.requeue_tcb, if_pos rfl] at hafter
  exact h hafter

theorem requeue_moves (hmem : b'.mem = Lists.requeue b.mem u f)
    (hf : ∀ tcb, (f tcb).priorityPreemption = tcb.priorityPreemption) (hmoved : ¬ KeepsReady b b' u) :
    Moves b'.mem.core.key (fun u => ¬ KeepsReady b b' u) (b.mem.queues qReady) (b'.mem.queues qReady) := by
  have h : Reorders (fun u => ¬ KeepsReady b b' u) b.mem (Lists.requeue b.mem u f) := .requeue hmoved hf
  rw [← hmem] at h
  exact h.moves_key

theorem not_keepsReady_of_status {st : TaskStatus} (h : (b.mem.core.tcb u).status = st) (hne : st ≠ .ready) :
    ¬ KeepsReady b b' u :=
  fun hk => hne (h.symm.trans hk.before)

/-- **No step moves a task that it keeps READY**, other than the switch from that task. -/
theorem Trans.moves (h : Trans cfg b a b') (hw : Wf b) :
    Moves b'.mem.core.key (fun u => ¬ KeepsReady b b' u) (b.mem.queues qReady) (b'.mem.queues qReady) := by
  have hp := hw.placed
  have hwaiting : ∀ u ∈ b.mem.queues qWaiting, ¬ KeepsReady b b' u := fun u hu =>
    not_keepsReady_of_status (hp.mem_waiting_iff.mp hu).2 TaskStatus.noConfusion
  have hcreate : ∀ priority proc pc', (b' = ⟨Lists.createTask b.mem priority proc, pc'⟩) →
      Moves b'.mem.core.key (fun u => ¬ KeepsReady b b' u) (b.mem.queues qReady) (b'.mem.queues qReady) := by
    rintro priority proc pc' rfl
    have hnew : ¬ KeepsReady b ⟨Lists.createTask b.mem priority proc, pc'⟩ b.mem.core.created :=
      fun hk => Nat.lt_irrefl _ hk.created
    exact (Reorders.insert (m := b.mem.setCore _) hnew).moves_key
  cases h with
  | tick => exact (Reorders.tick hwaiting).moves_key
  | silent _ => exact .refl
  | bootCreate => exact hcreate _ _ _ rfl
  | create => exact hcreate _ _ _ rfl
  | mark => exact .refl
  | enter => exact .refl
  | @vmReturn m t r =>
    obtain ⟨exc, heq⟩ := vmReturn_eq m t r
    rw [heq]
    exact .refl
  | setPriority _ => exact .refl
  | stop _ => exact .refl
  | execute _ => exact .refl
  | execVmCode _ => exact .refl
  | pass => exact .refl
  | passPriority => exact .refl
  | @sleepSection m t v ms =>
    obtain ⟨htcb, -, -, -, -, -, hqueues⟩ := Lists.sleep_core m v cfg ms
    have hmoved : ¬ KeepsReady ⟨m, .op t (.sleepSection (some v) ms)⟩
        ⟨Lists.sleep cfg m v ms, .op t .setSwitching⟩ v := by
      intro hk
      have hafter := hk.after
      dsimp only at hafter
      rw [htcb, Lists.requeue_tcb, if_pos rfl] at hafter
      cases hafter
    have hrequeue : Reorders (fun u => ¬ KeepsReady ⟨m, .op t (.sleepSection (some v) ms)⟩
        ⟨Lists.sleep cfg m v ms, .op t .setSwitching⟩ u) m (Lists.requeue m v (fallAsleep cfg m.core ms)) :=
      .requeue hmoved fun _ => rfl
    have hkey : (Lists.sleep cfg m v ms).core.key = (Lists.requeue m v (fallAsleep cfg m.core ms)).core.key := by
      unfold Core.key
      rw [htcb]
    dsimp only
    rw [hqueues, hkey]
    exact hrequeue.moves_key
  | suspendSection =>
    exact requeue_moves rfl (fun _ => rfl) (not_keepsReady_requeue rfl TaskStatus.noConfusion)
  | setSwitching => exact .refl
  | @resumeSection m t v flag =>
    have hmoved : ¬ KeepsReady ⟨m, .op t (.resumeSection v flag)⟩ ⟨Lists.resume m v flag, .op t (.resumeTest v)⟩ v :=
      not_keepsReady_of_status hw.pcOk.2.2.2.1 TaskStatus.noConfusion
    cases flag with
    | false => exact requeue_moves rfl (fun _ => rfl) hmoved
    | true =>
      have hpreempt : Reorders (fun u => ¬ KeepsReady ⟨m, .op t (.resumeSection v true)⟩
          ⟨Lists.resume m v true, .op t (.resumeTest v)⟩ u) m (Lists.preempt m) := .of_eq rfl rfl
      have hresume := hpreempt.trans (.requeue (f := .setStatus .ready) hmoved fun _ => rfl)
      exact hresume.moves_key
  | resumeStore => exact .refl
  | terminateSection =>
    exact requeue_moves rfl (fun _ => rfl) (not_keepsReady_requeue rfl TaskStatus.noConfusion)
  | joinSection =>
    exact requeue_moves rfl (fun _ => rfl) (not_keepsReady_requeue rfl TaskStatus.noConfusion)
  | returned =>
    unfold afterVm
    split <;> exact .refl
  | stopped _ =>
    exact requeue_moves rfl (fun _ => rfl) (not_keepsReady_requeue rfl TaskStatus.noConfusion)
  | @release m t pc' _ =>
    have hnote : Reorders (fun u => ¬ KeepsReady ⟨m, .stoppedGap t⟩ ⟨Lists.release (m.setCore noteException) t, pc'⟩ u)
        m (m.setCore noteException) := .setCore (noteException_tcb m.core)
    exact (hnote.trans (.release hwaiting)).moves_key
  | unmark _ _ => exact .refl
  | @switch m t =>
    have hmoved : ¬ KeepsReady ⟨m, .switchReady t⟩ ⟨Lists.requeue m t id, .loop⟩ t := fun hk => hk.unswitched rfl
    exact requeue_moves rfl (fun _ => rfl) hmoved

theorem requeue_ready_queue (hst : (m.core.tcb u).status = .ready) : (Lists.requeue m u id).queues qReady =
    placeBy (Lists.requeue m u id).core.key u ((m.queues qReady).erase u) := by
  have hkey : (Lists.requeue m u id).core.key = m.core.key :=
    (Reorders.requeue (M := fun _ => True) trivial fun _ => rfl).key
  have hself : ((m.core.setTcb u id).tcb u).status = .ready := by rw [Core.setTcb_tcb_self, id, hst]
  have hsame : (m.core.setTcb u id).tcb = m.core.tcb := by
    funext v
    rw [Core.setTcb_tcb]
    split
    · rename_i hv
      rw [hv, id]
    · rfl
  rw [hkey]
  unfold Lists.requeue Lists.insert Lists.delete Lists.place placeBy
  simp only [Mem.setTcb_core, Mem.setTcb_queues, hsame, hst, queueOf_ready, Function.update_self]
  rw [hself, queueOf_ready, Function.update_self]
  rfl

/-- A switch places the task again. -/
theorem Trans.switch_queue (h : Trans cfg b a b') (hw : Wf b) (hpc : b.pc = .switchReady u)
    (hpc' : b'.pc ≠ .switchReady u) :
    b'.pc = .loop ∧ b'.mem.queues qReady = placeBy b'.mem.core.key u ((b.mem.queues qReady).erase u) := by
  obtain ⟨m, pc⟩ := b
  cases hpc
  cases h with
  | tick => exact absurd rfl hpc'
  | silent hsilent => cases hsilent
  | switch => exact ⟨rfl, requeue_ready_queue hw.pcOk.2⟩

end Step

end PicoRuby.Task
