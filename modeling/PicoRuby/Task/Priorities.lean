import PicoRuby.Task.DispatchOrder
import PicoRuby.Task.Effects
import PicoRuby.Task.Preemption

/-!
# Task#priority= and the scheduler

`Task#priority=` stores a value that the scheduler never reads: the queues are ordered by `priority_preemption`, which
`Task.new` and `Task.pass` write. A dispatch goes by `Task#priority` as long as the two order the tasks alike.
-/

namespace PicoRuby.Task

open Shared

set_option autoImplicit false

/-- With the priority `p` and the value `e` in the queues, `t` is before and behind the same tasks by both. -/
def Agrees (core : Core) (t : TaskId) (p e : Nat) : Prop :=
  ∀ u < core.created, u ≠ t →
    (e ≤ (core.tcb u).priorityPreemption → p ≤ (core.tcb u).priority) ∧
      ((core.tcb u).priorityPreemption ≤ e → (core.tcb u).priority ≤ p)

instance (core : Core) (t : TaskId) (p e : Nat) : Decidable (Agrees core t p e) :=
  inferInstanceAs (Decidable (∀ u, u < core.created → (u ≠ t → (_ → _) ∧ (_ → _))))

section Condition
variable {Q : Type} [TaskQueues Q]

def keepsPriorities (m : Mem Q) : Pc → Act → Bool
  | _, .createTask priority _ =>
    Agrees m.core m.core.created (storedPriority (priority.getD defaultPriority))
      (storedPriority (priority.getD defaultPriority))
  | _, .setPriority u priority => Agrees m.core u (storedPriority priority) (m.core.tcb u).priorityPreemption
  | .chosen t, .run => head m.queues qReady = some t
  | .op t (.terminateSection u), .run => u ≠ t ∨ m.core.switching = true
  | .op t .passPriority, .run => FitsInPlace m.core t ∧ Agrees m.core t (m.core.tcb t).priority 1
  | _, _ => true

/-- What `Task.new`, `priority=` and `Task.pass` write orders the tasks by `Task#priority` as in the queues, `Task.pass`
moves its caller past no other task, no tick changes the head of the ready queue between the choice of a task and its
start, and no task terminates itself before `switching_` is set. -/
def KeepsPriorities (s : State Q) (a : Act) : Prop := keepsPriorities s.mem s.pc a = true

instance (s : State Q) (a : Act) : Decidable (KeepsPriorities s a) := inferInstanceAs (Decidable (_ = _))

end Condition

/-- A dispatch takes a READY task with the least `Task#priority`, and where a READY task has a smaller one than the
executing task, `switching_` is set, however short the time since it became READY. -/
structure ObeysPriorities (cfg : Config) (s : State Links) : Prop where
  dispatched : ∀ (t : TaskId) (s' : State Links), s.pc = .loop → Step cfg s .run s' → s'.pc = .chosen t →
    (s.mem.core.tcb t).status = .ready ∧ ∀ u < s.mem.core.created, (s.mem.core.tcb u).status = .ready →
      (s.mem.core.tcb t).priority ≤ (s.mem.core.tcb u).priority
  preempted : ∀ (t u : TaskId), s.pc = .exec t → u < s.mem.core.created → (s.mem.core.tcb u).status = .ready →
    (s.mem.core.tcb u).priority < (s.mem.core.tcb t).priority → s.mem.core.switching = true

/-! ## The two orders -/

/-- Every task is before and behind the same tasks by its priority as in the queues. -/
def PrioritiesAgree (core : Core) : Prop :=
  ∀ t < core.created, Agrees core t (core.tcb t).priority (core.tcb t).priorityPreemption

section Agreement
variable {cfg : Config} {b b' : State Lists} {a : Act} {m : Mem Lists} {pc : Pc} {t : TaskId} {w : Nat × Nat}

theorem PriorityEffect.agrees (h : PriorityEffect m t pc a w) (hlt : t < m.core.created)
    (hok : KeepsPriorities ⟨m, pc⟩ a) (hi : PrioritiesAgree m.core) : Agrees m.core t w.1 w.2 := by
  cases h with
  | same => exact hi t hlt
  | created heq => exact absurd heq (Nat.ne_of_lt hlt)
  | set => exact of_decide_eq_true hok
  | pass => exact (of_decide_eq_true hok).2

/-- A step without a new task writes the priorities of one task at most. -/
theorem PriorityEffect.others_same {u : TaskId} {w' : Nat × Nat} (h : PriorityEffect m t pc a w)
    (hu : PriorityEffect m u pc a w') (hlt : t < m.core.created) (hltu : u < m.core.created) (hne : u ≠ t) :
    w = (m.core.tcb t).priorities ∨ w' = (m.core.tcb u).priorities := by
  cases h with
  | same => exact Or.inl rfl
  | created heq => exact absurd heq (Nat.ne_of_lt hlt)
  | set =>
    cases hu with
    | same => exact Or.inr rfl
    | set => exact absurd rfl hne
  | pass =>
    cases hu with
    | same => exact Or.inr rfl
    | pass => exact absurd rfl hne

theorem PrioritiesAgree.createTask {priority : Option Int} {proc : ProcId} (hi : PrioritiesAgree m.core)
    (hok : Agrees m.core m.core.created (storedPriority (priority.getD defaultPriority))
      (storedPriority (priority.getD defaultPriority))) :
    PrioritiesAgree (Lists.createTask m priority proc).core := by
  intro t ht u hu hne
  have hcases : ∀ v, v < (Lists.createTask m priority proc).core.created → v < m.core.created ∨ v = m.core.created :=
    fun v hv => Nat.lt_succ_iff_lt_or_eq.mp hv
  have hold : ∀ v, v < m.core.created → (Lists.createTask m priority proc).core.tcb v = m.core.tcb v := by
    intro v hv
    rw [Lists.createTask_tcb, if_neg (Nat.ne_of_lt hv)]
  have hnew : ((Lists.createTask m priority proc).core.tcb m.core.created).priorities =
      (storedPriority (priority.getD defaultPriority), storedPriority (priority.getD defaultPriority)) := by
    rw [Lists.createTask_tcb, if_pos rfl]
    rfl
  obtain ⟨hp, he⟩ := Prod.mk.inj hnew
  rcases hcases t ht with hlt | rfl
  · rcases hcases u hu with hltu | rfl
    · rw [hold t hlt, hold u hltu]
      exact hi t hlt u hltu hne
    · rw [hold t hlt, hp, he]
      exact (hok t hlt hne.symm).symm
  · have hltu := (hcases u hu).resolve_right hne
    rw [hold u hltu, hp, he]
    exact hok u hltu hne

theorem Trans.prioritiesAgree (h : Trans cfg b a b') (hw : Wf b) (hok : KeepsPriorities b a)
    (hi : PrioritiesAgree b.mem.core) : PrioritiesAgree b'.mem.core := by
  obtain ⟨m, pc⟩ := b
  rcases h.created_or_new with hcreated | ⟨priority, proc, rfl, hmem⟩
  · intro t ht u hu hne
    rw [hcreated] at ht hu
    have heffect := h.priorityEffect hw
    have hfits : ∀ v < m.core.created, Agrees m.core v (b'.mem.core.tcb v).priority
        (b'.mem.core.tcb v).priorityPreemption := fun v hv => (heffect v).agrees hv hok hi
    rcases (heffect t).others_same (heffect u) ht hu hne with hsame | hsame
    · obtain ⟨hp, he⟩ := Prod.mk.inj hsame
      rw [hp, he]
      exact (hfits u hu t ht hne.symm).symm
    · obtain ⟨hp, he⟩ := Prod.mk.inj hsame
      rw [hp, he]
      exact hfits t ht u hu hne
  · rw [hmem]
    apply hi.createTask
    have hok' : keepsPriorities m pc (.createTask priority proc) = true := hok
    unfold keepsPriorities at hok'
    exact of_decide_eq_true hok'

end Agreement

/-! ## The executing task -/

/-- The slice of `t` is to end, or `t` is RUNNING at the head of the ready queue. -/
def Held (m : Mem Lists) (t : TaskId) : Prop := m.core.switching = true ∨ RunsAtHead m t

def HeldOk (b : State Lists) : Prop :=
  match b.pc with
  | .op _ .setSwitching => True
  | .marked t | .exec t | .op t _ => Held b.mem t
  | _ => True

section Slice
variable {cfg : Config} {b b' : State Lists} {a : Act} {m : Mem Lists} {t u : TaskId}

theorem Held.tick (h : Held m t) (hp : Placed m) : Held (Lists.tick m) t := by
  rcases h with hsw | hrun
  · exact Or.inl (Lists.tick_switching hsw)
  · exact (hrun.tick hp).imp_right And.left

theorem Held.setTcb {f : Tcb → Tcb} (h : Held m t) (hstatus : ∀ tcb, (f tcb).status = tcb.status) :
    Held (m.setTcb u f) t := by
  refine h.imp_right fun hrun => ⟨hrun.1, ?_⟩
  rw [Mem.setTcb_core, Core.setTcb_tcb]
  split
  · rename_i hu
    rw [hstatus, ← hu]
    exact hrun.2
  · exact hrun.2

theorem Held.createTask (h : Held m t) (hp : Placed m) (priority : Option Int) (proc : ProcId) :
    Held (Lists.createTask m priority proc) t := by
  rcases h with hsw | hrun
  · exact Or.inl (createTask_switching hsw priority proc)
  · exact Or.inl (hrun.createTask hp priority proc)

theorem Held.requeue {f : Tcb → Tcb} (h : Held m t) (hne : t ≠ u)
    (hq : queueOf (f (m.core.tcb u)).status ≠ qReady) : Held (Lists.requeue m u f) t :=
  h.imp_right fun hrun => hrun.requeue hne hq

theorem Held.preempt (h : Held m t) : (Lists.preempt m).core.switching = true := by
  rcases h with hsw | hrun
  · rw [Lists.preempt_switching]
    exact Or.inl hsw
  · exact hrun.preempt

theorem Held.op {o : OpPc} (h : Held m t) : HeldOk ⟨m, .op t o⟩ := by
  cases o with
  | setSwitching => trivial
  | _ => exact h

theorem Held.resumePc (h : Held m t) : HeldOk ⟨m, resumePc m t u⟩ := by
  unfold Task.resumePc
  split
  · exact h.op
  · exact h

theorem Silent.heldOk {pc pc' : Pc} (h : Silent m pc a pc') (hs : HeldOk ⟨m, pc⟩) : HeldOk ⟨m, pc'⟩ := by
  cases h <;> exact hs

theorem Trans.heldOk (h : Trans cfg b a b') (hw : Wf b) (hok : KeepsPriorities b a) (hs : HeldOk b) : HeldOk b' := by
  have hp := hw.placed
  cases h with
  | @tick m pc =>
    cases pc with
    | marked t => exact Held.tick hs hp
    | exec t => exact Held.tick hs hp
    | op t o =>
      cases o with
      | setSwitching => trivial
      | _ => exact Held.tick hs hp
    | _ => trivial
  | silent hsilent => exact hsilent.heldOk hs
  | bootCreate => trivial
  | create => exact Held.createTask hs hp _ _
  | @mark m t =>
    have hhead : (m.queues qReady).head? = some t := of_decide_eq_true hok
    refine Or.inr ⟨hhead, ?_⟩
    rw [Mem.setTcb_core, Core.setTcb_tcb_self]
    rfl
  | @enter m t =>
    have hheld : Held (m.setCore fun core => { core with c := some t }) t := hs
    exact hheld.setTcb fun _ => rfl
  | vmReturn => trivial
  | setPriority _ => exact Held.setTcb hs fun _ => rfl
  | stop _ => exact Held.setTcb hs fun _ => rfl
  | execute _ =>
    apply Held.resumePc
    exact Held.setTcb hs fun _ => resetContext_wait.1
  | execVmCode _ =>
    apply Held.resumePc
    exact Held.setTcb hs fun _ => rfl
  | pass => exact Held.setTcb hs fun _ => rfl
  | passPriority => exact Held.setTcb hs fun _ => rfl
  | sleepSection => trivial
  | suspendSection => trivial
  | setSwitching => exact Or.inl rfl
  | @resumeSection m t u flag =>
    obtain ⟨_, _, _, hst, _⟩ := hw.pcOk
    have hheld : Held m t := hs
    cases flag with
    | true => exact Or.inl hheld.preempt
    | false =>
      rcases hheld with hsw | hrun
      · exact Or.inl hsw
      · apply Held.requeue (Or.inr hrun)
        · rintro rfl
          exact absurd (hst.symm.trans hrun.2) (by simp)
        · have hqueue : queueOf .waiting ≠ qReady := by decide
          exact hqueue
  | resumeStore => exact hs
  | @terminateSection m t u =>
    by_cases hut : u = t
    · have hsw : u ≠ t ∨ m.core.switching = true := of_decide_eq_true hok
      exact Or.inl (hsw.resolve_left fun hne => hne hut)
    · apply Held.requeue hs (Ne.symm hut)
      have hqueue : queueOf .dormant ≠ qReady := by decide
      exact hqueue
  | joinSection => trivial
  | returned => trivial
  | stopped _ => trivial
  | release hpc =>
    rcases hpc with rfl | rfl
    · trivial
    · trivial
  | unmark _ _ => trivial
  | switch => trivial

end Slice

/-! ## Every run -/

section Runs
variable {cfg : Config} {s : State Links} {b b' : State Lists} {a : Act} {as : List Act}

/-- What the scheduler relies on. -/
structure PriorityInv (b : State Lists) : Prop where
  ordered : Ordered b.mem
  agree : PrioritiesAgree b.mem.core
  held : HeldOk b

theorem PriorityInv.init : PriorityInv bootLists :=
  ⟨Ordered.init, fun _ ht => absurd ht (Nat.not_lt_zero _), trivial⟩

theorem KeepsPriorities.passKeepsOrder (h : KeepsPriorities b a) : PassKeepsOrder b a := by
  obtain ⟨m, pc⟩ := b
  rintro rfl t ht
  cases pc with
  | op c o =>
    cases o with
    | passPriority =>
      cases ht
      exact (of_decide_eq_true h).1
    | _ => cases ht
  | _ => cases ht

theorem run_priorityInv (h : Run (Step cfg) KeepsPriorities bootLists as b) : Wf b ∧ PriorityInv b := by
  refine Wf.init.run_invariant h (fun c a c' hw hi hok ht => ?_) PriorityInv.init
  exact ⟨ht.ordered hw hok.passKeepsOrder hi.ordered, ht.prioritiesAgree hw hok hi.agree, ht.heldOk hw hok hi.held⟩

/-- The head of the ready queue has the least `Task#priority` of all READY tasks. -/
theorem PriorityInv.head_le (hi : PriorityInv b) (hp : Placed b.mem) {t u : TaskId}
    (hhead : (b.mem.queues qReady).head? = some t) (hu : u < b.mem.core.created)
    (hready : (b.mem.core.tcb u).status = .ready) : (b.mem.core.tcb t).priority ≤ (b.mem.core.tcb u).priority := by
  by_cases hut : u = t
  · rw [hut]
  · have ht : t < b.mem.core.created := hp.lt_created (List.mem_of_mem_head? hhead)
    exact (hi.agree t ht u hu hut).1 (hi.ordered.head_le hp hhead hu hready hut).le

theorem keepsPriorities_related (s : State Links) (b : State Lists) (a : Act) (h : Related s b)
    (hok : KeepsPriorities s a) : KeepsPriorities b a := by
  have hhead : head s.mem.queues qReady = head b.mem.queues qReady := h.head qReady
  unfold KeepsPriorities keepsPriorities at hok ⊢
  rw [h.pc, h.core, hhead] at hok
  exact hok

theorem Related.obeysPriorities (h : Related s b) (hi : PriorityInv b) : ObeysPriorities cfg s := by
  have hw := h.wf
  constructor
  · intro t s' hpc hstep ht
    have hhead := head_of_dispatch hpc hstep ht
    rw [h.head] at hhead
    rw [h.core]
    have hbpc : b.pc = .loop := h.pc ▸ hpc
    refine ⟨?_, fun u hu hready => hi.head_le hw.placed hhead hu hready⟩
    apply (hw.mem_ready (List.mem_of_mem_head? hhead)).ready hw
    rw [hbpc]
    exact nofun
  · intro t u hpc hu hready hlt
    rw [h.core] at hu hready hlt ⊢
    have hbpc : b.pc = .exec t := h.pc ▸ hpc
    have hheld := hi.held
    unfold HeldOk at hheld
    rw [hbpc] at hheld
    rcases hheld with hsw | hrun
    · exact hsw
    · have hle := hi.head_le hw.placed hrun.1 hu hready
      omega

/-- **Dispatches go by `Task#priority`** in every run whose steps keep the two priorities in step. -/
theorem obeysPriorities_of_run (h : Run (Step cfg) KeepsPriorities boot as s) : ObeysPriorities cfg s := by
  obtain ⟨b, hrun, hrel⟩ := Related.boot.run keepsPriorities_related h
  exact hrel.obeysPriorities (run_priorityInv hrun).2

end Runs

/-- Two tasks of the priorities 10 and 20; the first gives the second the priority 30. -/
def raiseSecond : List Act :=
  [.createTask (some 10) 0, .createTask (some 20) 1, .run, .run, .run, .run, .setPriority 1 30]

theorem obeysPriorities_of_raiseSecond : ∃ s, Run (Step Config.hal) KeepsPriorities boot raiseSecond s ∧
    ObeysPriorities Config.hal s := by
  have hplay : (play Config.hal KeepsPriorities boot raiseSecond).isSome := by decide +kernel
  obtain ⟨s, hs⟩ := Option.isSome_iff_exists.mp hplay
  exact ⟨s, run_of_play hs, obeysPriorities_of_run (run_of_play hs)⟩

/-- Three tasks of default priority; the first gives the third the priority 5 and executes for a whole slice. -/
def preferThird : List Act :=
  [.createTask none 0, .createTask none 1, .createTask none 2, .run, .run, .run, .run, .setPriority 2 5, .tick, .tick,
    .tick, .vmReturn ⟨.yielded, 0, 0, []⟩, .run, .run, .run]

/-- The second task is dispatched next. -/
theorem obeysPriorities_fails : ¬ ∀ (as : List Act) (s : State Links),
    Run (Step Config.hal) (fun _ _ => True) boot as s → ObeysPriorities Config.hal s := by
  intro hall
  have hloop : (play Config.hal (fun _ _ => True) boot preferThird).all fun s => s.pc = .loop ∧
      2 < s.mem.core.created ∧ (s.mem.core.tcb 2).status = .ready ∧
        (s.mem.core.tcb 2).priority < (s.mem.core.tcb 1).priority := by decide +kernel
  have hnext : ∃ s, play Config.hal (fun _ _ => True) boot (preferThird ++ [.run]) = some s ∧ s.pc = .chosen 1 :=
    Option.map_eq_some_iff.mp (by decide +kernel)
  obtain ⟨s', hs', ht⟩ := hnext
  obtain ⟨s, hrun, -, hstep⟩ := (run_of_play hs').snoc_inv
  rw [play_of_run hrun] at hloop
  obtain ⟨hpc, hcreated, hready, hlt⟩ := of_decide_eq_true hloop
  have hle := ((hall _ s hrun).dispatched 1 s' hpc hstep ht).2 2 hcreated hready
  omega

end PicoRuby.Task
