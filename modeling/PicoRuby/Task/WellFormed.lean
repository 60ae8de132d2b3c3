import PicoRuby.Task.Transitions

/-!
# The basic invariant of the scheduler

`Wf` holds in every reachable state, whatever the tasks do: every TCB is in its
place, at most the task in its slice is RUNNING, the wait reason fits the status,
and the local variables of the C code still describe the tasks they were read from.
-/

namespace PicoRuby.Task

open Shared

set_option autoImplicit false

/-- The task whose slice is under way. -/
def Pc.runner : Pc → Option TaskId
  | .marked t | .exec t | .op t _ | .returned t | .afterSlice t => some t
  | _ => none

def ReasonOk (tcb : Tcb) : Prop :=
  match tcb.status with
  | .ready | .running => tcb.reason = .none
  | .waiting => tcb.reason = .sleep ∨ tcb.reason = .join
  | .suspended | .dormant => tcb.reason ≠ .mutex

def OpOk (core : Core) (t : TaskId) : OpPc → Prop
  | .sleepSection (some u) _ =>
    u < core.created ∧ ((core.tcb u).status = .ready ∨ (core.tcb u).status = .running)
  | .suspendTarget (some u) => u < core.created
  | .suspendSection u => u < core.created ∧ (core.tcb u).status ≠ .suspended
  | .resumeSection u flag => u < core.created ∧ (core.tcb u).status = .suspended ∧
      flag = decide ((core.tcb u).reason = .none)
  | .resumeTest u | .resumeCompare u | .resumeStore u => u < core.created
  | .terminateSection u => u < core.created ∧ (core.tcb u).status ≠ .dormant
  | .joinSection u => u < core.created ∧ u ≠ t ∧ (core.tcb u).status ≠ .dormant
  | _ => True

def PcOk (core : Core) : Pc → Prop
  | .chosen t => t < core.created ∧ (core.tcb t).status = .ready
  | .marked t => t < core.created ∧ (core.tcb t).status = .running
  | .exec t => t < core.created ∧ core.c = some t
  | .op t o => t < core.created ∧ core.c = some t ∧ OpOk core t o
  | .returned t | .afterSlice t => t < core.created ∧ core.c = some t
  | .stoppedGap t => t < core.created ∧ (core.tcb t).status = .dormant
  | .switchReady t => t < core.created ∧ (core.tcb t).status = .ready
  | _ => True

structure Wf (s : State Lists) : Prop where
  placed : Placed s.mem
  runner : ∀ u, (s.mem.core.tcb u).status = .running → s.pc.runner = some u
  reason : ∀ u, ReasonOk (s.mem.core.tcb u)
  pcOk : PcOk s.mem.core s.pc

theorem currentTask_eq {Q : Type} {m : Mem Q} {t : TaskId} (h : m.core.c = some t) :
    currentTask m t = t := by
  simp [currentTask, h]

/-- A TCB rewrite that keeps the wait state. -/
def SameWait (tcb tcb' : Tcb) : Prop := tcb'.status = tcb.status ∧ tcb'.reason = tcb.reason

theorem ReasonOk.same {tcb tcb' : Tcb} (h : ReasonOk tcb) (hs : SameWait tcb tcb') :
    ReasonOk tcb' := by
  obtain ⟨h1, h2⟩ := hs
  unfold ReasonOk at h ⊢
  rw [h1, h2]
  exact h

theorem ReasonOk.clear {tcb : Tcb} (h : tcb.status = .suspended) :
    ReasonOk (clearReason tcb) := by
  simp [ReasonOk, clearReason, h]

theorem ReasonOk.resumed {tcb : Tcb} {flag : Bool} (h : ReasonOk tcb) (hst : tcb.status = .suspended)
    (hflag : flag = decide (tcb.reason = .none)) :
    ReasonOk (tcb.setStatus (if flag then .ready else .waiting)) := by
  rw [ReasonOk, hst] at h
  cases flag with
  | true =>
    change tcb.reason = .none
    exact of_decide_eq_true hflag.symm
  | false =>
    have hne : tcb.reason ≠ .none := of_decide_eq_false hflag.symm
    change tcb.reason = .sleep ∨ tcb.reason = .join
    cases hre : tcb.reason with
    | none => exact absurd hre hne
    | sleep => exact Or.inl rfl
    | mutex => exact absurd hre h
    | join => exact Or.inr rfl

theorem SameWait.setTcb {Q : Type} {m : Mem Q} {t u : TaskId} {f : Tcb → Tcb}
    (hf : ∀ tcb, SameWait tcb (f tcb)) : SameWait (m.core.tcb u) ((m.setTcb t f).core.tcb u) := by
  rw [Mem.setTcb_core, Core.setTcb_tcb]
  split
  · rename_i hu
    exact hu ▸ hf _
  · exact ⟨rfl, rfl⟩

theorem SameWait.refl (tcb : Tcb) : SameWait tcb tcb := ⟨rfl, rfl⟩

/-- What a tick can do to the wait state of a TCB. -/
def TickWait (tcb tcb' : Tcb) : Prop :=
  SameWait tcb tcb' ∨
    tcb.status = .waiting ∧ tcb.reason = .sleep ∧ tcb'.status = .ready ∧ tcb'.reason = .none

theorem tick_wait {m : Mem Lists} (h : Placed m) (u : TaskId) :
    TickWait (m.core.tcb u) ((Lists.tick m).core.tcb u) := by
  obtain ⟨n, k, hk⟩ := Lists.tick_tcb (h.nodup qWaiting) u
  rw [hk]
  split
  · rename_i hw
    exact Or.inr ⟨((h.mem_waiting_iff).mp hw.2.1).2, hw.2.2.1, rfl, rfl⟩
  · exact Or.inl ⟨rfl, rfl⟩

theorem PcOk.same {core core' : Core} {pc : Pc} (h : PcOk core pc)
    (hcreated : core.created ≤ core'.created) (hc : core'.c = core.c)
    (hwait : ∀ u, u < core.created → TickWait (core.tcb u) (core'.tcb u)) : PcOk core' pc := by
  have hkeep : ∀ u st, u < core.created → (core.tcb u).status = st → st ≠ .waiting →
      (core'.tcb u).status = st := by
    intro u st hu hst hne
    rcases hwait u hu with hs | hs
    · rw [hs.1, hst]
    · exact absurd (hst.symm.trans hs.1) hne
  have hnever : ∀ u st, u < core.created → (core.tcb u).status ≠ st → st ≠ .ready →
      (core'.tcb u).status ≠ st := by
    intro u st hu hst hne
    rcases hwait u hu with hs | hs
    · rwa [hs.1]
    · rw [hs.2.2.1]
      exact fun h => hne h.symm
  have hlt : ∀ u, u < core.created → u < core'.created := fun u hu => lt_of_lt_of_le hu hcreated
  cases pc with
  | boot => trivial
  | loop => trivial
  | exited => trivial
  | chosen t => exact ⟨hlt t h.1, hkeep t _ h.1 h.2 (by simp)⟩
  | marked t => exact ⟨hlt t h.1, hkeep t _ h.1 h.2 (by simp)⟩
  | exec t => exact ⟨hlt t h.1, hc.trans h.2⟩
  | returned t => exact ⟨hlt t h.1, hc.trans h.2⟩
  | afterSlice t => exact ⟨hlt t h.1, hc.trans h.2⟩
  | stoppedGap t => exact ⟨hlt t h.1, hkeep t _ h.1 h.2 (by simp)⟩
  | switchReady t => exact ⟨hlt t h.1, hkeep t _ h.1 h.2 (by simp)⟩
  | op t o =>
    obtain ⟨ht, hct, ho⟩ := h
    refine ⟨hlt t ht, hc.trans hct, ?_⟩
    cases o with
    | sleepSection target ms =>
      cases target with
      | none => trivial
      | some u =>
        refine ⟨hlt u ho.1, ?_⟩
        rcases ho.2 with hst | hst
        · exact Or.inl (hkeep u _ ho.1 hst (by simp))
        · exact Or.inr (hkeep u _ ho.1 hst (by simp))
    | suspendTarget target =>
      cases target with
      | none => trivial
      | some u => exact hlt u ho
    | suspendSection u => exact ⟨hlt u ho.1, hnever u _ ho.1 ho.2 (by simp)⟩
    | resumeSection u flag =>
      obtain ⟨hu, hst, hflag⟩ := ho
      refine ⟨hlt u hu, hkeep u _ hu hst (by simp), ?_⟩
      rcases hwait u hu with hs | hs
      · rw [hflag, hs.2]
      · rw [hst] at hs
        exact absurd hs.1 (by simp)
    | terminateSection u => exact ⟨hlt u ho.1, hnever u _ ho.1 ho.2 (by simp)⟩
    | joinSection u => exact ⟨hlt u ho.1, ho.2.1, hnever u _ ho.1 ho.2.2 (by simp)⟩
    | resumeTest u => exact hlt u ho
    | resumeCompare u => exact hlt u ho
    | resumeStore u => exact hlt u ho
    | sleepEnter ms => trivial
    | sleepForever => trivial
    | setSwitching => trivial
    | passPriority => trivial

theorem Silent.pcOk {m : Mem Lists} {pc pc' : Pc} {a : Act} (hs : Silent m pc a pc')
    (h : Wf ⟨m, pc⟩) : PcOk m.core pc' ∧
      ∀ u, (m.core.tcb u).status = .running → pc'.runner = some u := by
  obtain ⟨hplaced, hrunner, _, hpc⟩ := h
  have hhead : ∀ {u}, (m.queues qReady).head? = some u → u < m.core.created ∧
      ((m.core.tcb u).status = .ready ∨ (m.core.tcb u).status = .running) :=
    fun hu => hplaced.mem_ready_iff.mp (List.mem_of_mem_head? hu)
  cases hs with
  | start => exact ⟨trivial, hrunner⟩
  | startEmpty => exact ⟨trivial, hrunner⟩
  | idle _ => exact ⟨trivial, hrunner⟩
  | choose hu =>
    refine ⟨⟨(hhead hu).1, ?_⟩, hrunner⟩
    rcases (hhead hu).2 with hst | hst
    · exact hst
    · exact absurd (hrunner _ hst) (by simp [Pc.runner])
  | nothing _ => exact ⟨hpc, hrunner⟩
  | sleepCall _ => exact ⟨⟨hpc.1, hpc.2, trivial⟩, hrunner⟩
  | sleepForeverCall => exact ⟨⟨hpc.1, hpc.2, trivial⟩, hrunner⟩
  | suspendCall hu => exact ⟨⟨hpc.1, hpc.2, hu⟩, hrunner⟩
  | resumeCall hu hst => exact ⟨⟨hpc.1, hpc.2, hu, hst, rfl⟩, hrunner⟩
  | terminateCall hu hst => exact ⟨⟨hpc.1, hpc.2, hu, hst⟩, hrunner⟩
  | joinCall hu hne hst =>
    exact ⟨⟨hpc.1, hpc.2, hu, currentTask_eq hpc.2 ▸ hne, hst⟩, hrunner⟩
  | sleepEnter =>
    refine ⟨⟨hpc.1, hpc.2.1, ?_⟩, hrunner⟩
    cases hq : (m.queues qReady).head? with
    | none => trivial
    | some u => exact hhead hq
  | sleepForever =>
    refine ⟨⟨hpc.1, hpc.2.1, ?_⟩, hrunner⟩
    cases hq : (m.queues qReady).head? with
    | none => trivial
    | some u => exact (hhead hq).1
  | suspendTargetSkip _ => exact ⟨⟨hpc.1, hpc.2.1⟩, hrunner⟩
  | suspendTarget hst => exact ⟨⟨hpc.1, hpc.2.1, hpc.2.2, hst⟩, hrunner⟩
  | resumeTest _ => exact ⟨hpc, hrunner⟩
  | resumeTestSkip _ => exact ⟨⟨hpc.1, hpc.2.1⟩, hrunner⟩
  | resumeCompare _ => exact ⟨hpc, hrunner⟩
  | resumeCompareSkip _ => exact ⟨⟨hpc.1, hpc.2.1⟩, hrunner⟩
  | noSwitch _ hst =>
    refine ⟨trivial, fun u hu => ?_⟩
    have heq := Option.some.inj (hrunner u hu)
    exact absurd (heq ▸ hu) hst

namespace Wf
variable {m : Mem Lists} {pc : Pc} {t u : TaskId}

theorem init : Wf ⟨⟨Core.init, fun _ => []⟩, .boot⟩ := by
  refine ⟨PlacedBut.init, fun u hu => ?_, fun u => ?_, trivial⟩
  · exact absurd hu (by simp [Core.init, Tcb.zero])
  · simp [ReasonOk, Core.init, Tcb.zero]

/-- Writes that keep every wait state keep the invariant at an unchanged program point. -/
theorem write (h : Wf ⟨m, pc⟩) (core : Core) (hcreated : core.created = m.core.created)
    (hsame : ∀ u, SameWait (m.core.tcb u) (core.tcb u)) (hc : core.c = m.core.c) :
    Wf ⟨⟨core, m.queues⟩, pc⟩ where
  placed := h.placed.of_status core hcreated fun u => by rw [(hsame u).1]
  runner := fun u hu => h.runner u ((hsame u).1 ▸ hu)
  reason := fun u => (h.reason u).same (hsame u)
  pcOk := h.pcOk.same hcreated.ge hc fun u _ => Or.inl (hsame u)

theorem setCore {f : Core → Core} (h : Wf ⟨m, pc⟩) (hcreated : (f m.core).created = m.core.created)
    (htcb : (f m.core).tcb = m.core.tcb) (hc : (f m.core).c = m.core.c) : Wf ⟨m.setCore f, pc⟩ :=
  h.write (f m.core) hcreated (fun _ => htcb ▸ SameWait.refl _) hc

theorem goto {pc' : Pc} (h : Wf ⟨m, pc⟩) (hrun : pc'.runner = pc.runner)
    (hok : PcOk m.core pc') : Wf ⟨m, pc'⟩ :=
  ⟨h.placed, fun u hu => hrun ▸ h.runner u hu, h.reason, hok⟩

theorem setTcb {f : Tcb → Tcb} (h : Wf ⟨m, pc⟩) (u : TaskId)
    (hf : ∀ tcb, SameWait tcb (f tcb)) : Wf ⟨m.setTcb u f, pc⟩ :=
  h.write (m.core.setTcb u f) rfl (fun _ => SameWait.setTcb (m := m) hf) rfl

theorem requeue {f : Tcb → Tcb} {pc' : Pc} (h : Wf ⟨m, pc⟩) (hu : u < m.core.created)
    (hstatus : (f (m.core.tcb u)).status ≠ .running) (hreason : ReasonOk (f (m.core.tcb u)))
    (hrun : ∀ v, v ≠ u → pc.runner = some v → pc'.runner = some v)
    (hok : PcOk (Lists.requeue m u f).core pc') : Wf ⟨Lists.requeue m u f, pc'⟩ := by
  refine ⟨h.placed.requeue hu f, fun v hv => ?_, fun v => ?_, hok⟩
  · rw [Lists.requeue_tcb] at hv
    split at hv
    · exact absurd hv hstatus
    · exact hrun v ‹_› (h.runner v hv)
  · rw [Lists.requeue_tcb]
    split
    · exact hreason.same ⟨rfl, rfl⟩
    · exact h.reason v

theorem createTask {priority : Option Int} {proc : ProcId} (h : Wf ⟨m, pc⟩) :
    Wf ⟨Lists.createTask m priority proc, pc⟩ := by
  refine ⟨h.placed.createTask priority proc, fun u hu => ?_, fun u => ?_, ?_⟩
  · rw [Lists.createTask_tcb] at hu
    split at hu
    · cases hu
    · exact h.runner u hu
  · rw [Lists.createTask_tcb]
    split
    · rfl
    · exact h.reason u
  · refine h.pcOk.same (Nat.le_succ _) rfl fun u hu => ?_
    rw [Lists.createTask_tcb, if_neg (Nat.ne_of_lt hu)]
    exact Or.inl ⟨rfl, rfl⟩

theorem tick (h : Wf ⟨m, pc⟩) : Wf ⟨Lists.tick m, pc⟩ := by
  obtain ⟨_, hcreated, _, hc⟩ := Lists.tick_core (m := m)
  refine ⟨h.placed.tick, fun u hu => ?_, fun u => ?_, ?_⟩
  · rcases tick_wait h.placed u with hs | hs
    · exact h.runner u (hs.1 ▸ hu)
    · rw [hs.2.2.1] at hu
      cases hu
  · rcases tick_wait h.placed u with hs | hs
    · exact (h.reason u).same hs
    · simp [ReasonOk, hs.2.2.1, hs.2.2.2]
  · exact h.pcOk.same hcreated.ge hc fun u _ => tick_wait h.placed u

theorem release (h : Wf ⟨m, .stoppedGap t⟩) {pc' : Pc} (hpc' : pc' = .loop ∨ pc' = .exited) :
    Wf ⟨Lists.release (m.setCore noteException) t, pc'⟩ := by
  have hnote : Wf ⟨m.setCore noteException, .stoppedGap t⟩ := by
    apply h.write (noteException m.core)
    · exact noteException_created m.core
    · intro u
      rw [noteException_tcb]
      exact ⟨rfl, rfl⟩
    · exact noteException_c m.core
  obtain ⟨hp, hr, hreason, _⟩ := hnote
  have hnone : ∀ u, ((m.setCore noteException).core.tcb u).status ≠ .running :=
    fun u hu => absurd (hr u hu) (by simp [Pc.runner])
  refine ⟨hp.release t, fun u hu => ?_, fun u => ?_, ?_⟩
  · obtain ⟨k, hk⟩ := hp.release_tcb t u
    rw [hk] at hu
    split at hu
    · cases hu
    · split at hu <;> exact absurd hu (hnone u)
  · obtain ⟨k, hk⟩ := hp.release_tcb t u
    rw [hk]
    split
    · rfl
    · split
      · rename_i hsusp
        have hst : ((m.setCore noteException).core.tcb u).status = .suspended :=
          (hp.mem_suspended_iff.mp hsusp.1).2
        exact ReasonOk.clear hst
      · exact hreason u
  · rcases hpc' with rfl | rfl <;> trivial

end Wf

theorem ReasonOk.ne_mutex {tcb : Tcb} (h : ReasonOk tcb) : tcb.reason ≠ .mutex := by
  unfold ReasonOk at h
  split at h
  · simp [h]
  · simp [h]
  · rcases h with h | h <;> simp [h]
  · exact h
  · exact h

theorem Wf.vmReturn {m : Mem Lists} {pc : Pc} {t : TaskId} {r : VmResult} (h : Wf ⟨m, pc⟩) :
    Wf ⟨vmReturn m t r, pc⟩ := by
  have hset : Wf ⟨m.setTcb t (storeResult r), pc⟩ := h.setTcb t fun _ => ⟨rfl, rfl⟩
  obtain ⟨exc, heq⟩ := vmReturn_eq m t r
  rw [heq]
  exact hset.setCore rfl rfl rfl

theorem Wf.afterVm {m : Mem Lists} {pc : Pc} {t : TaskId} (h : Wf ⟨m, pc⟩) :
    Wf ⟨afterVm m t, pc⟩ := by
  unfold Task.afterVm
  split
  · rename_i e _
    have hset : Wf ⟨m.setTcb t (storeException e), pc⟩ := h.setTcb t fun _ => ⟨rfl, rfl⟩
    exact hset.setCore rfl rfl rfl
  · exact h.setCore rfl rfl rfl

theorem resetContext_wait {tcb : Tcb} {proc : ProcId} :
    SameWait tcb (mrbSandboxExecute proc tcb) := by
  obtain ⟨c, hc⟩ := mrbSandboxExecute_eq proc tcb
  rw [hc]
  exact ⟨rfl, rfl⟩

theorem Wf.resumePc {m : Mem Lists} {t u : TaskId} (h : Wf ⟨m, .exec t⟩)
    (hu : u < m.core.created) : Wf ⟨m, resumePc m t u⟩ := by
  have hs := (resume_trans (t := t) hu).pcOk h
  exact ⟨h.placed, hs.2, h.reason, hs.1⟩

theorem Trans.wf {cfg : Config} {s s' : State Lists} {a : Act} (h : Trans cfg s a s') (hw : Wf s) :
    Wf s' := by
  have hpc := hw.pcOk
  cases h with
  | tick => exact hw.tick
  | silent hs =>
    obtain ⟨hok, hrun⟩ := hs.pcOk hw
    exact ⟨hw.placed, hrun, hw.reason, hok⟩
  | bootCreate => exact hw.createTask
  | create => exact hw.createTask
  | @mark m t =>
    have hready : (m.core.tcb t).status = .ready := hpc.2
    have htcb : ∀ u, (m.core.setTcb t (.setStatus .running)).tcb u =
        if u = t then (m.core.tcb t).setStatus .running else m.core.tcb u :=
      fun u => Core.setTcb_tcb _ _ _ _
    have hqueue : queueOf TaskStatus.running = queueOf (m.core.tcb t).status := by
      rw [hready, queueOf_running, queueOf_ready]
    refine ⟨hw.placed.setTcb hqueue, fun u hu => ?_, fun u => ?_, ?_⟩
    · rw [Mem.setTcb_core, htcb] at hu
      split at hu
      · rename_i hut
        rw [hut]
        rfl
      · exact absurd (hw.runner u hu) (by simp [Pc.runner])
    · rw [Mem.setTcb_core, htcb]
      have hr := hw.reason u
      split
      · rename_i hut
        rw [hut] at hr
        simpa [ReasonOk, Tcb.setStatus, hready] using hr
      · exact hr
    · exact ⟨hpc.1, by rw [Mem.setTcb_core, Core.setTcb_tcb_self]; rfl⟩
  | @enter m t =>
    have hsame : ∀ u, SameWait (m.core.tcb u)
        (((m.setCore fun core => { core with c := some t }).setTcb t
          (.setTimeslice cfg.timesliceTickCount)).core.tcb u) :=
      fun u => SameWait.setTcb (m := m.setCore _) fun _ => ⟨rfl, rfl⟩
    exact ⟨hw.placed.of_status _ rfl fun u => congrArg queueOf (hsame u).1,
      fun u hu => hw.runner u ((hsame u).1 ▸ hu), fun u => (hw.reason u).same (hsame u), hpc.1, rfl⟩
  | vmReturn => exact hw.vmReturn.goto rfl hw.vmReturn.pcOk
  | setPriority _ => exact hw.setTcb _ fun _ => ⟨rfl, rfl⟩
  | stop _ => exact hw.setTcb _ fun _ => ⟨rfl, rfl⟩
  | execute hu => exact (hw.setTcb (f := mrbSandboxExecute _) _ fun _ => resetContext_wait).resumePc hu
  | execVmCode hu =>
    exact (hw.setTcb (f := mrbTaskInitContext _) _ fun _ => ⟨rfl, rfl⟩).resumePc hu
  | pass =>
    exact (hw.setTcb (f := .setTimeslice 0) _ fun _ => ⟨rfl, rfl⟩).goto rfl ⟨hpc.1, hpc.2, trivial⟩
  | passPriority =>
    exact (hw.setTcb (f := Task.passPriority) _ fun _ => ⟨rfl, rfl⟩).goto rfl ⟨hpc.1, hpc.2.1⟩
  | @sleepSection m t u ms =>
    obtain ⟨htcb, hcreated, hc, _, _, _, hqueues⟩ := Lists.sleep_core m u cfg ms
    have hsec : Wf ⟨Lists.requeue m u (fallAsleep cfg m.core ms), .op t .setSwitching⟩ := by
      apply hw.requeue hpc.2.2.1
      · exact TaskStatus.noConfusion
      · exact Or.inl rfl
      · exact fun v _ hv => hv
      · exact ⟨hpc.1, hpc.2.1, trivial⟩
    have hwrite := hsec.write (Lists.sleep cfg m u ms).core hcreated
      (fun v => by rw [htcb]; exact ⟨rfl, rfl⟩) hc
    rwa [← hqueues] at hwrite
  | @suspendSection m t u =>
    apply hw.requeue hpc.2.2.1
    · exact TaskStatus.noConfusion
    · exact (hw.reason u).ne_mutex
    · exact fun v _ hv => hv
    · exact ⟨hpc.1, hpc.2.1, trivial⟩
  | setSwitching =>
    exact (hw.setCore (f := fun core => { core with switching := true }) rfl rfl rfl).goto rfl
      ⟨hpc.1, hpc.2.1⟩
  | @resumeSection m t u flag =>
    obtain ⟨ht, hct, hu, hst, hflag⟩ := hpc
    have hbase : Wf ⟨if flag then Lists.preempt m else m, .op t (.resumeSection u flag)⟩ := by
      split
      · exact hw.setCore rfl rfl rfl
      · exact hw
    have hcore : (if flag then Lists.preempt m else m).core.created = m.core.created ∧
        (if flag then Lists.preempt m else m).core.c = m.core.c ∧
        (if flag then Lists.preempt m else m).core.tcb = m.core.tcb := by
      split <;> exact ⟨rfl, rfl, rfl⟩
    obtain ⟨hcreated, hc, htcb⟩ := hcore
    have hr := hw.reason u
    apply hbase.requeue (hcreated.symm ▸ hu)
    · cases flag <;> exact TaskStatus.noConfusion
    · rw [htcb]
      exact hr.resumed hst hflag
    · exact fun v _ hv => hv
    · refine ⟨?_, ?_, ?_⟩
      · rw [Lists.requeue_created, hcreated]
        exact ht
      · rw [Lists.requeue_c, hc]
        exact hct
      · change u < (Lists.requeue _ u _).core.created
        rw [Lists.requeue_created, hcreated]
        exact hu
  | resumeStore =>
    exact (hw.setCore (f := fun core => core.setWakeupTick (core.tcb _).wakeupTick) rfl rfl
      rfl).goto rfl ⟨hpc.1, hpc.2.1⟩
  | @terminateSection m t u =>
    apply hw.requeue hpc.2.2.1
    · exact TaskStatus.noConfusion
    · exact (hw.reason u).ne_mutex
    · exact fun v _ hv => hv
    · exact ⟨hpc.1, hpc.2.1⟩
  | @joinSection m t u =>
    have hcur : currentTask m t = t := currentTask_eq hpc.2.1
    apply hw.requeue (hcur.symm ▸ hpc.1)
    · exact TaskStatus.noConfusion
    · exact Or.inr rfl
    · exact fun v _ hv => hv
    · exact ⟨hpc.1, hpc.2.1, trivial⟩
  | returned => exact hw.afterVm.goto rfl hw.afterVm.pcOk
  | @stopped m t _ =>
    apply hw.requeue hpc.1
    · exact TaskStatus.noConfusion
    · exact (hw.reason t).ne_mutex
    · exact fun v hv hrun => absurd (Option.some.inj hrun).symm hv
    · exact ⟨hpc.1, by rw [Lists.requeue_tcb, if_pos rfl]; rfl⟩
  | release hpc' => exact hw.release hpc'
  | @unmark m t _ hrunning =>
    have hrunner : ∀ u, u ≠ t → (m.core.tcb u).status ≠ .running :=
      fun u hne hu => hne (Option.some.inj (hw.runner u hu)).symm
    have hqueue : queueOf TaskStatus.ready = queueOf (m.core.tcb t).status := by
      rw [hrunning, queueOf_running, queueOf_ready]
    refine ⟨hw.placed.setTcb hqueue, fun u hu => ?_, fun u => ?_, ?_⟩
    · rw [Mem.setTcb_core, Core.setTcb_tcb] at hu
      split at hu
      · cases hu
      · exact absurd hu (hrunner u ‹_›)
    · rw [Mem.setTcb_core, Core.setTcb_tcb]
      have hr := hw.reason u
      split
      · rename_i hut
        rw [hut] at hr
        simpa [ReasonOk, Tcb.setStatus, hrunning] using hr
      · exact hr
    · exact ⟨hpc.1, by rw [Mem.setTcb_core, Core.setTcb_tcb_self]; rfl⟩
  | @switch m t =>
    apply hw.requeue hpc.1
    · change (m.core.tcb t).status ≠ .running
      rw [hpc.2]
      exact TaskStatus.noConfusion
    · exact hw.reason t
    · exact fun v _ hv => hv
    · trivial

/-- An invariant may rely on the basic one. -/
theorem Wf.run_invariant {cfg : Config} {Ok : State Lists → Act → Prop} {I : State Lists → Prop}
    {b b' : State Lists} {as : List Act} (hw : Wf b) (h : Run (Step cfg) Ok b as b')
    (hstep : ∀ c a c', Wf c → I c → Ok c a → Trans cfg c a c' → I c') (hI : I b) : Wf b' ∧ I b' :=
  h.invariant (I := fun c => Wf c ∧ I c)
    (fun c a c' hc hok hst => ⟨hst.trans.wf hc.1, hstep c a c' hc.1 hc.2 hok hst.trans⟩) ⟨hw, hI⟩

end PicoRuby.Task
