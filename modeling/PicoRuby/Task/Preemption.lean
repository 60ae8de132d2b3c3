import PicoRuby.Task.Refinement

/-!
# Preemption within a slice

While bytecode executes, either `switching_` is set already or the executing task is
the head of the ready queue and its time slice is running out. Three steps can break
this link, and the condition of the main theorem names them.
-/

namespace PicoRuby.Task

open Shared

set_option autoImplicit false

/-! ## What a tick does to the head of the ready queue -/

namespace Lists
variable {m : Mem Lists} {t u : TaskId}

theorem advance_switching (h : m.core.switching = true) : (advance m).core.switching = true := by
  unfold advance decreaseTimeslice
  split
  · exact h
  · dsimp only
    split
    · split
      · rfl
      · exact h
    · exact h

theorem decreaseTimeslice_of_head (hhead : (m.queues qReady).head? = some t)
    (hpos : 0 < (m.core.tcb t).timeslice) :
    (decreaseTimeslice m).core.switching = true ∨
      ((decreaseTimeslice m).core.tcb t).timeslice = (m.core.tcb t).timeslice - 1 ∧
        0 < ((decreaseTimeslice m).core.tcb t).timeslice := by
  have hq : head m.queues qReady = some t := hhead
  unfold decreaseTimeslice
  rw [hq]
  dsimp only
  rw [if_pos hpos]
  split
  · exact Or.inl rfl
  · rename_i hne
    refine Or.inr ⟨?_, Nat.pos_of_ne_zero hne⟩
    simp [Tcb.setTimeslice]

theorem advance_of_head (hhead : (m.queues qReady).head? = some t)
    (hpos : 0 < (m.core.tcb t).timeslice) :
    (advance m).core.switching = true ∨
      ((advance m).core.tcb t).timeslice = (m.core.tcb t).timeslice - 1 ∧
        0 < ((advance m).core.tcb t).timeslice :=
  decreaseTimeslice_of_head (m := m.setCore _) hhead hpos

theorem tick_switching_of_advance (h : (advance m).core.switching = true) :
    (tick m).core.switching = true := by
  have hscan : (scan (advance m)).1.core.switching = true := by
    rw [scan, (foldl_wakeStep_core _ _).2.2.1, scanStart_switching]
    exact h
  rcases tick_cases (m := m) with ⟨heq, _⟩ | ⟨_, ⟨heq, _⟩ | ⟨heq, _⟩⟩
  · exact heq ▸ h
  · rw [heq, preempt_switching]
    exact Or.inl hscan
  · exact heq ▸ hscan

theorem tick_switching (h : m.core.switching = true) : (tick m).core.switching = true :=
  tick_switching_of_advance (advance_switching h)

theorem foldl_wakeStep_quiet (l : List TaskId) (s : Mem Lists × Bool)
    (h : ∀ t ∈ l, ¬ Due s.1.core t) :
    (l.foldl wakeStep s).1.queues = s.1.queues ∧
      (l.foldl wakeStep s).1.core.tcb = s.1.core.tcb := by
  induction l generalizing s with
  | nil => exact ⟨rfl, rfl⟩
  | cons t l ih =>
    have hstep : (wakeStep s t).1.queues = s.1.queues ∧
        (wakeStep s t).1.core.tcb = s.1.core.tcb := by
      unfold wakeStep
      rw [if_neg (h t List.mem_cons_self)]
      split <;> exact ⟨rfl, rfl⟩
    have hrest : ∀ u ∈ l, ¬ Due (wakeStep s t).1.core u := by
      intro u hu
      simp only [Due, hstep.2, (wakeStep_core s t).1]
      exact h u (List.mem_cons_of_mem t hu)
    obtain ⟨hq, htcb⟩ := ih _ hrest
    exact ⟨hq.trans hstep.1, htcb.trans hstep.2⟩

theorem tick_quiet (h : ∀ u, ¬ Wakes m u) : (tick m).queues = m.queues ∧
    (tick m).core.tcb = (advance m).core.tcb := by
  have hquiet : Scans m → (scan (advance m)).1.queues = m.queues ∧
      (scan (advance m)).1.core.tcb = (advance m).core.tcb := by
    intro hs
    have hfold := foldl_wakeStep_quiet ((advance m).queues qWaiting) (scanStart (advance m), false) (by
      intro u hu hdue
      simp only [Due, scanStart_tcb, scanStart_tick] at hdue
      exact h u ⟨hs, advance_queues m ▸ hu, (due_advance u).mp hdue⟩)
    rw [scanStart_queues, scanStart_tcb, advance_queues] at hfold
    rw [scan, advance_queues]
    exact hfold
  rcases tick_cases (m := m) with ⟨heq, _⟩ | ⟨hs, ⟨heq, _⟩ | ⟨heq, _⟩⟩
  · rw [heq]
    exact ⟨advance_queues m, rfl⟩
  · rw [heq]
    exact hquiet hs
  · rw [heq]
    exact hquiet hs

theorem tick_woken (h : Placed m) (hu : Wakes m u) (ht : t < m.core.created)
    (hrun : (m.core.tcb t).status = .running) : (tick m).core.switching = true := by
  have hdue : ∃ v ∈ (advance m).queues qWaiting, Due (scanStart (advance m)).core v := by
    refine ⟨u, advance_queues m ▸ hu.2.1, ?_⟩
    simp only [Due, scanStart_tcb, scanStart_tick]
    exact (due_advance u).mpr hu.2.2
  have hflag : (scan (advance m)).2 = true := by
    rw [scan, foldl_wakeStep_flag]
    · exact Or.inr hdue
    · exact advance_queues m ▸ h.nodup qWaiting
  rcases tick_cases (m := m) with ⟨_, hs⟩ | ⟨_, ⟨heq, _⟩ | ⟨_, hno⟩⟩
  · exact absurd hu.1 hs
  · -- the tick handler itself keeps `t` in the ready queue and RUNNING
    have hmem : t ∈ (tick m).queues qReady ∧ ((tick m).core.tcb t).status = .running := by
      have hst : ((tick m).core.tcb t).status = .running := by
        rcases tick_wait h t with hsame | hwoken
        · exact hsame.1.trans hrun
        · exact absurd (hrun.symm.trans hwoken.1) (by simp)
      have hcreated : t < (tick m).core.created := tick_core.2.1.symm ▸ ht
      exact ⟨h.tick.mem_ready_iff.mpr ⟨hcreated, Or.inr hst⟩, hst⟩
    rw [heq] at hmem ⊢
    exact (preempt_switching _).mpr (Or.inr ⟨t, hmem.1, hmem.2⟩)
  · rw [hflag] at hno
    cases hno

theorem requeue_head {f : Tcb → Tcb} (hne : t ≠ u) (hhead : (m.queues qReady).head? = some t)
    (hq : queueOf (f (m.core.tcb u)).status ≠ qReady) :
    ((requeue m u f).queues qReady).head? = some t := by
  obtain ⟨l, hl⟩ : ∃ l, m.queues qReady = t :: l := by
    cases hl : m.queues qReady with
    | nil => simp [hl] at hhead
    | cons v l =>
      rw [hl] at hhead
      exact ⟨l, by rw [Option.some.inj hhead]⟩
  rw [requeue_queues_of_ne _ _ _ hq.symm, hl]
  split
  · rw [List.erase_cons_tail (by simpa using hne)]
    rfl
  · rfl

end Lists

/-! ## The invariant of a slice -/

/-- `t` is RUNNING at the head of the ready queue. -/
def RunsAtHead (m : Mem Lists) (t : TaskId) : Prop :=
  (m.queues qReady).head? = some t ∧ (m.core.tcb t).status = .running

/-- The slice of `t` is to end, at the latest after `n` ticks. -/
def Expiring (n : Nat) (m : Mem Lists) (t : TaskId) : Prop :=
  m.core.switching = true ∨
    RunsAtHead m t ∧ 0 < (m.core.tcb t).timeslice ∧ (m.core.tcb t).timeslice ≤ n

def SliceOk (n : Nat) (b : State Lists) : Prop :=
  match b.pc with
  | .marked t => b.mem.core.switching = true ∨ RunsAtHead b.mem t
  | .exec t => Expiring n b.mem t
  | .op _ .setSwitching | .op _ .passPriority => True
  | .op t _ => Expiring n b.mem t
  | _ => True

section Condition
variable {Q : Type} [TaskQueues Q]

/-- The next piece of code does not break the link between the executing task, the
head of the ready queue and `switching_`. -/
def keepsPreemption (m : Mem Q) : Pc → Bool
  | .chosen t => head m.queues qReady = some t
  | .op t (.terminateSection u) => u ≠ t || m.core.switching
  | .op _ .passPriority => m.core.switching
  | _ => true

def KeepsPreemption (s : State Q) (a : Act) : Prop := a = .run → keepsPreemption s.mem s.pc = true

instance (s : State Q) (a : Act) : Decidable (KeepsPreemption s a) :=
  inferInstanceAs (Decidable (_ → _))

end Condition

section Slice
variable {m : Mem Lists} {t u : TaskId} {n : Nat}

theorem Expiring.write (h : Expiring n m t) (m' : Mem Lists) (hq : m'.queues qReady = m.queues qReady)
    (hswitching : m'.core.switching = m.core.switching)
    (hstatus : (m'.core.tcb t).status = (m.core.tcb t).status)
    (hslice : (m'.core.tcb t).timeslice = (m.core.tcb t).timeslice) : Expiring n m' t := by
  unfold Expiring RunsAtHead at h ⊢
  rw [hq, hswitching, hstatus, hslice]
  exact h

theorem RunsAtHead.tick (h : RunsAtHead m t) (hp : Placed m) :
    (Lists.tick m).core.switching = true ∨
      RunsAtHead (Lists.tick m) t ∧ (Lists.tick m).core.tcb = (Lists.advance m).core.tcb := by
  have ht : t ∈ m.queues qReady := List.mem_of_mem_head? h.1
  by_cases hw : ∃ u, Lists.Wakes m u
  · obtain ⟨u, hu⟩ := hw
    exact Or.inl (Lists.tick_woken hp hu (hp.lt_created ht) h.2)
  · obtain ⟨hq, htcb⟩ := Lists.tick_quiet fun u hu => hw ⟨u, hu⟩
    obtain ⟨k, hk⟩ := Lists.advance_tcb m t
    refine Or.inr ⟨⟨hq ▸ h.1, ?_⟩, htcb⟩
    rw [htcb, hk]
    exact h.2

theorem Expiring.tick (h : Expiring n m t) (hp : Placed m) : Expiring (n - 1) (Lists.tick m) t := by
  rcases h with hsw | ⟨hrun, hpos, hle⟩
  · exact Or.inl (Lists.tick_switching hsw)
  · rcases hrun.tick hp with hsw | ⟨hrun', htcb⟩
    · exact Or.inl hsw
    · rcases Lists.advance_of_head hrun.1 hpos with hsw | ⟨heq, hpos'⟩
      · exact Or.inl (Lists.tick_switching_of_advance hsw)
      · refine Or.inr ⟨hrun', ?_⟩
        rw [htcb]
        refine ⟨hpos', ?_⟩
        omega

/-- A section that inserts a READY task while `t` is RUNNING preempts `t`. -/
theorem RunsAtHead.preempt (h : RunsAtHead m t) : (Lists.preempt m).core.switching = true := by
  rw [Lists.preempt_switching]
  exact Or.inr ⟨t, List.mem_of_mem_head? h.1, h.2⟩

theorem RunsAtHead.createTask (h : RunsAtHead m t) (hp : Placed m) (priority : Option Int) (proc : ProcId) :
    (Lists.createTask m priority proc).core.switching = true := by
  have ht : t < m.core.created := hp.lt_created (List.mem_of_mem_head? h.1)
  have hplaced := (hp.fresh (mrbTaskInitContext proc
    (mrbTcbNew .ready (priority.getD defaultPriority)))).insert (Nat.lt_succ_self _)
  have htcb := Lists.createTask_tcb m t priority proc
  rw [if_neg (Nat.ne_of_lt ht)] at htcb
  have hst : ((Lists.createTask m priority proc).core.tcb t).status = .running := by
    rw [htcb]
    exact h.2
  unfold Lists.createTask
  rw [Lists.preempt_switching]
  exact Or.inr ⟨t, hplaced.mem_ready_iff.mpr ⟨Nat.lt_succ_of_lt ht, Or.inr hst⟩, hst⟩

theorem RunsAtHead.requeue {f : Tcb → Tcb} (h : RunsAtHead m t) (hne : t ≠ u)
    (hq : queueOf (f (m.core.tcb u)).status ≠ qReady) : RunsAtHead (Lists.requeue m u f) t := by
  unfold RunsAtHead
  rw [Lists.requeue_tcb, if_neg hne]
  exact ⟨Lists.requeue_head hne h.1 hq, h.2⟩

theorem Expiring.preempt (h : Expiring n m t) :
    (Lists.preempt m).core.switching = true := by
  rcases h with hsw | ⟨hrun, _⟩
  · rw [Lists.preempt_switching]
    exact Or.inl hsw
  · exact hrun.preempt

theorem createTask_switching (h : m.core.switching = true) (priority : Option Int) (proc : ProcId) :
    (Lists.createTask m priority proc).core.switching = true := by
  unfold Lists.createTask
  rw [Lists.preempt_switching]
  exact Or.inl h

theorem Expiring.createTask (h : Expiring n m t) (hp : Placed m) (priority : Option Int)
    (proc : ProcId) : Expiring n (Lists.createTask m priority proc) t := by
  left
  rcases h with hsw | ⟨hrun, _⟩
  · exact createTask_switching hsw priority proc
  · exact hrun.createTask hp priority proc

theorem Expiring.requeue {f : Tcb → Tcb} (h : Expiring n m t) (hne : t ≠ u)
    (hq : queueOf (f (m.core.tcb u)).status ≠ qReady) : Expiring n (Lists.requeue m u f) t := by
  rcases h with hsw | ⟨hrun, hslice⟩
  · exact Or.inl hsw
  · refine Or.inr ⟨hrun.requeue hne hq, ?_⟩
    rw [Lists.requeue_tcb, if_neg hne]
    exact hslice

theorem Expiring.setTcb {f : Tcb → Tcb} (h : Expiring n m t) (hstatus : ∀ tcb, (f tcb).status = tcb.status)
    (hslice : ∀ tcb, (f tcb).timeslice = tcb.timeslice) : Expiring n (m.setTcb u f) t := by
  refine h.write (m.setTcb u f) rfl rfl ?_ ?_
  · rw [Mem.setTcb_core, Core.setTcb_tcb]
    split
    · rename_i hu
      rw [hu, hstatus]
    · rfl
  · rw [Mem.setTcb_core, Core.setTcb_tcb]
    split
    · rename_i hu
      rw [hu, hslice]
    · rfl

theorem sandboxExecute_timeslice {proc : ProcId} {tcb : Tcb} :
    (mrbSandboxExecute proc tcb).timeslice = tcb.timeslice := by
  obtain ⟨c, hc⟩ := mrbSandboxExecute_eq proc tcb
  rw [hc]

theorem Expiring.resumePc (h : Expiring n m t) : SliceOk n ⟨m, resumePc m t u⟩ := by
  unfold Task.resumePc
  split <;> exact h

theorem Silent.sliceOk {pc pc' : Pc} {a : Act} (h : Silent m pc a pc')
    (hs : SliceOk n ⟨m, pc⟩) : SliceOk n ⟨m, pc'⟩ := by
  cases h <;> exact hs

theorem Trans.sliceOk {cfg : Config} {b b' : State Lists} {a : Act} (h : Trans cfg b a b')
    (hw : Wf b) (hok : KeepsPreemption b a) (hn : ∀ t, b.pc = .marked t → cfg.timesliceTickCount ≤ n)
    (hs : SliceOk n b) : SliceOk (if a = .tick then n - 1 else n) b' := by
  have hp := hw.placed
  cases h with
  | @tick m pc =>
    rw [if_pos rfl]
    cases pc with
    | marked t =>
      rcases hs with hsw | hrun
      · exact Or.inl (Lists.tick_switching hsw)
      · exact (hrun.tick hp).imp_right And.left
    | exec t => exact Expiring.tick hs hp
    | op t o => cases o <;> first | exact Expiring.tick hs hp | trivial
    | _ => trivial
  | @silent m pc pc' a hsilent =>
    have hne : a ≠ .tick := by
      rintro rfl
      cases hsilent <;> contradiction
    rw [if_neg hne]
    exact hsilent.sliceOk hs
  | bootCreate => trivial
  | create => exact Expiring.createTask hs hp _ _
  | @mark m t =>
    have hhead : (m.queues qReady).head? = some t := of_decide_eq_true (hok rfl)
    refine Or.inr ⟨hhead, ?_⟩
    rw [Mem.setTcb_core, Core.setTcb_tcb_self]
    rfl
  | @enter m t =>
    rcases hs with hsw | hrun
    · exact Or.inl hsw
    · refine Or.inr ⟨⟨hrun.1, ?_⟩, ?_⟩
      · rw [Mem.setTcb_core, Core.setTcb_tcb_self]
        exact hrun.2
      · rw [Mem.setTcb_core, Core.setTcb_tcb_self]
        exact ⟨cfg.timeslice_pos, hn t rfl⟩
  | vmReturn => trivial
  | setPriority _ => exact Expiring.setTcb hs (fun _ => rfl) fun _ => rfl
  | stop _ => exact Expiring.setTcb hs (fun _ => rfl) fun _ => rfl
  | execute _ =>
    apply Expiring.resumePc
    exact Expiring.setTcb hs (fun _ => resetContext_wait.1) fun _ => sandboxExecute_timeslice
  | execVmCode _ =>
    apply Expiring.resumePc
    exact Expiring.setTcb hs (fun _ => rfl) fun _ => rfl
  | pass => trivial
  | passPriority => exact Or.inl (hok rfl)
  | sleepSection => trivial
  | suspendSection => trivial
  | setSwitching => exact Or.inl rfl
  | @resumeSection m t u flag =>
    obtain ⟨_, _, _, hst, _⟩ := hw.pcOk
    cases flag with
    | true => exact Or.inl (Expiring.preempt hs)
    | false =>
      have hexp : Expiring n m t := hs
      rcases hexp with hsw | ⟨hrun, hslice⟩
      · exact Or.inl hsw
      · apply Expiring.requeue (Or.inr ⟨hrun, hslice⟩)
        · rintro rfl
          exact absurd (hst.symm.trans hrun.2) (by simp)
        · change queueOf .waiting ≠ qReady
          decide
  | resumeStore => exact Expiring.write hs _ rfl rfl rfl rfl
  | @terminateSection m t u =>
    by_cases hut : u = t
    · have hsw := hok rfl
      simp only [keepsPreemption, hut, ne_eq, not_true_eq_false, decide_false, Bool.false_or] at hsw
      exact Or.inl hsw
    · apply Expiring.requeue hs (Ne.symm hut)
      change queueOf .dormant ≠ qReady
      decide
  | joinSection => trivial
  | returned => trivial
  | stopped _ => trivial
  | release hpc => rcases hpc with rfl | rfl <;> trivial
  | unmark _ _ => trivial
  | switch => trivial

theorem SliceOk.mono {n' : Nat} {b : State Lists} (h : SliceOk n b) (hle : n ≤ n') : SliceOk n' b := by
  have hexp : ∀ {m t}, Expiring n m t → Expiring n' m t :=
    fun h => h.imp_right fun h => ⟨h.1, h.2.1, h.2.2.trans hle⟩
  obtain ⟨m, pc⟩ := b
  cases pc with
  | exec t => exact hexp h
  | op t o => cases o <;> first | exact hexp h | trivial
  | _ => exact h

/-- Steps before `mrb_vm_exec` returns. -/
def InSlice {S : Type} (Ok : S → Act → Prop) (s : S) (a : Act) : Prop :=
  Ok s a ∧ ∀ r, a ≠ .vmReturn r

/-- The task whose bytecode, or a method called by it, is executing. -/
def Pc.executing : Pc → Option TaskId
  | .exec t | .op t _ => some t
  | _ => none

/-- Only the return of `mrb_vm_exec` ends a slice. -/
theorem Trans.executing {cfg : Config} {b b' : State Lists} {a : Act} (h : Trans cfg b a b')
    (ha : ∀ r, a ≠ .vmReturn r) (ht : b.pc.executing = some t) : b'.pc.executing = some t := by
  have hresume : ∀ {m u v}, (resumePc (Q := Lists) m u v).executing = some u := by
    intro m u v
    unfold resumePc
    split <;> rfl
  cases h with
  | tick => exact ht
  | silent hs => cases hs <;> exact ht
  | vmReturn => exact absurd rfl (ha _)
  | execute _ => exact hresume.trans ht
  | execVmCode _ => exact hresume.trans ht
  | _ => first | exact ht | cases ht

variable {cfg : Config} {b b' : State Lists} {as : List Act}

theorem run_sliceOk (h : Run (Step cfg) KeepsPreemption bootLists as b) :
    Wf b ∧ SliceOk cfg.timesliceTickCount b :=
  Wf.init.run_invariant h (fun _ _ _ hw hs hok ht =>
    (ht.sliceOk hw hok (fun _ _ => le_refl _) hs).mono (by split <;> omega)) trivial

/-- The ticks of the rest of the slice are counted down. -/
theorem slice_counts_down {n : Nat} (hw : Wf b) (ht : b.pc.executing = some t) (hs : SliceOk n b)
    (h : Run (Step cfg) (InSlice KeepsPreemption) b as b') :
    SliceOk (n - as.count .tick) b' := by
  have hall : Wf b' ∧ b'.pc.executing = some t ∧ SliceOk (n - as.count .tick) b' := by
    refine h.invariant_actions
      (I := fun as c => Wf c ∧ c.pc.executing = some t ∧ SliceOk (n - as.count .tick) c) ?_ ?_
    · rintro as c a c' ⟨hwc, htc, hsc⟩ ⟨hok, ha⟩ hstep
      refine ⟨hstep.trans.wf hwc, hstep.trans.executing ha htc, ?_⟩
      have hnext := hstep.trans.sliceOk hwc hok (fun u hu => by simp [hu, Pc.executing] at htc) hsc
      rw [List.count_append, List.count_singleton]
      refine hnext.mono ?_
      by_cases htick : a = .tick
      · simp [htick]
        omega
      · simp [htick]
    · exact ⟨hw, ht, by simpa using hs⟩
  exact hall.2.2

end Slice

/-! ## Bounded preemption -/

/-- `switching_` is set, or the ticks count down the slice of the executing task. -/
def Preemptible {Q : Type} [TaskQueues Q] (cfg : Config) (m : Mem Q) (t : TaskId) : Prop :=
  m.core.switching = true ∨
    head m.queues qReady = some t ∧ 0 < (m.core.tcb t).timeslice ∧
      (m.core.tcb t).timeslice ≤ cfg.timesliceTickCount

/-- The executing task is preemptible, and once `MRB_TIMESLICE_TICK_COUNT` ticks have
passed in its slice, its bytecode finds `switching_` set. -/
def BoundedPreemption (cfg : Config) (Ok : State Links → Act → Prop) (s : State Links)
    (t : TaskId) : Prop :=
  Preemptible cfg s.mem t ∧
    ∀ (as : List Act) (s' : State Links),
      Run (Step cfg) (InSlice Ok) s as s' → s'.pc = .exec t →
        cfg.timesliceTickCount ≤ as.count .tick → s'.mem.core.switching = true

theorem keepsPreemption_related (s : State Links) (b : State Lists) (a : Act) (h : Related s b)
    (hok : KeepsPreemption s a) : KeepsPreemption b a := by
  intro ha
  have hs := hok ha
  have hhead : head s.mem.queues qReady = head b.mem.queues qReady := h.head qReady
  unfold keepsPreemption at hs ⊢
  rw [h.pc, h.core, hhead] at hs
  exact hs

theorem Related.preemptible {cfg : Config} {s : State Links} {b : State Lists} {t : TaskId}
    (h : Related s b) (hexp : Expiring cfg.timesliceTickCount b.mem t) :
    Preemptible cfg s.mem t := by
  unfold Preemptible
  rw [h.core, h.head]
  exact hexp.imp_right fun hrun => ⟨hrun.1.1, hrun.2⟩

/-- In a run whose steps keep the link, every executing task is preempted in time. -/
theorem boundedPreemption_of_run {cfg : Config} {as : List Act} {s : State Links} {t : TaskId}
    (h : Run (Step cfg) KeepsPreemption boot as s) (hpc : s.pc = .exec t) :
    BoundedPreemption cfg KeepsPreemption s t := by
  obtain ⟨b, hrun, hrel⟩ := Related.boot.run keepsPreemption_related h
  obtain ⟨hw, hs⟩ := run_sliceOk hrun
  have hbpc : b.pc = .exec t := hrel.pc ▸ hpc
  constructor
  · apply hrel.preemptible
    unfold SliceOk at hs
    rw [hbpc] at hs
    exact hs
  · intro bs s' hslice hpc' hticks
    have hslice_related : ∀ (s : State Links) (b : State Lists) (a : Act), Related s b →
        InSlice KeepsPreemption s a → InSlice KeepsPreemption b a :=
      fun s b a hr hok => ⟨keepsPreemption_related s b a hr hok.1, hok.2⟩
    obtain ⟨b', hrun', hrel'⟩ := hrel.run hslice_related hslice
    have hend := slice_counts_down hw (by rw [hbpc]; rfl) hs hrun'
    have hbpc' : b'.pc = .exec t := hrel'.pc ▸ hpc'
    unfold SliceOk at hend
    rw [hbpc', Nat.sub_eq_zero_of_le hticks] at hend
    rw [hrel'.core]
    rcases hend with hsw | ⟨_, hpos, hle⟩
    · exact hsw
    · omega

/-- Two tasks of equal priority; the first has just been dispatched. -/
def firstSlice : List Act := [.createTask none 0, .createTask none 1, .run, .run, .run, .run]

theorem boundedPreemption_of_firstSlice : ∃ s, Run (Step Config.hal) KeepsPreemption boot firstSlice s ∧
    BoundedPreemption Config.hal KeepsPreemption s 0 := by
  have hplay : ∃ s, play Config.hal KeepsPreemption boot firstSlice = some s ∧ s.pc = .exec 0 :=
    ⟨_, rfl, rfl⟩
  obtain ⟨s, hs, hpc⟩ := hplay
  exact ⟨s, run_of_play hs, boundedPreemption_of_run (run_of_play hs) hpc⟩

/-- `Task.pass` leaves the caller RUNNING at the head with an exhausted slice, which no
tick counts down any more. -/
theorem boundedPreemption_fails : ¬ ∀ (as : List Act) (s : State Links) (t : TaskId),
    Run (Step Config.hal) (fun _ _ => True) boot as s → s.pc = .exec t →
      BoundedPreemption Config.hal (fun _ _ => True) s t := by
  intro hall
  have hplay : ∃ s, play Config.hal (fun _ _ => True) boot (firstSlice ++ [.pass, .run]) = some s ∧
      s.pc = .exec 0 ∧ s.mem.core.switching = false ∧ (s.mem.core.tcb 0).timeslice = 0 :=
    ⟨_, rfl, rfl, rfl, rfl⟩
  obtain ⟨s, hs, hpc, hswitching, hslice⟩ := hplay
  rcases (hall _ s 0 (run_of_play hs) hpc).1 with hsw | ⟨_, hpos, _⟩
  · rw [hswitching] at hsw
    cases hsw
  · omega

end PicoRuby.Task
