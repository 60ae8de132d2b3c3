import PicoRuby.Task.Scheduler

/-!
# The sections of the scheduler on plain lists

On lists no queue operation can fail, except on NULL, so every section is a total
function. This module names these functions, shows that the code computes them and
says field by field what they do to the scheduler memory.
-/

namespace PicoRuby.Task

open Shared

set_option autoImplicit false

section History
variable (core : Core) (t u : TaskId)

theorem Core.noteInsertion_tcb : (core.noteInsertion t).tcb u =
    if u = t then { core.tcb t with insertedAt := core.insertions } else core.tcb u := by
  simp [Core.noteInsertion, Core.setTcb_tcb]

@[simp] theorem Core.noteInsertion_created : (core.noteInsertion t).created = core.created := rfl
@[simp] theorem Core.noteInsertion_tick : (core.noteInsertion t).tick = core.tick := rfl
@[simp] theorem Core.noteInsertion_wakeupTick :
    (core.noteInsertion t).wakeupTick = core.wakeupTick := rfl
@[simp] theorem Core.noteInsertion_switching :
    (core.noteInsertion t).switching = core.switching := rfl
@[simp] theorem Core.noteInsertion_exc : (core.noteInsertion t).exc = core.exc := rfl
@[simp] theorem Core.noteInsertion_c : (core.noteInsertion t).c = core.c := rfl
@[simp] theorem Core.noteInsertion_insertions :
    (core.noteInsertion t).insertions = core.insertions + 1 := rfl

end History

/-! ## Single writes -/

theorem noteException_eq (core : Core) : ∃ ret, noteException core = { core with ret := ret } := by
  unfold noteException
  split
  · exact ⟨_, rfl⟩
  · exact ⟨core.ret, rfl⟩

section NoteException
variable (core : Core)

@[simp] theorem noteException_tcb : (noteException core).tcb = core.tcb := by
  obtain ⟨ret, h⟩ := noteException_eq core
  rw [h]

@[simp] theorem noteException_created : (noteException core).created = core.created := by
  obtain ⟨ret, h⟩ := noteException_eq core
  rw [h]

@[simp] theorem noteException_tick : (noteException core).tick = core.tick := by
  obtain ⟨ret, h⟩ := noteException_eq core
  rw [h]

@[simp] theorem noteException_wakeupTick : (noteException core).wakeupTick = core.wakeupTick := by
  obtain ⟨ret, h⟩ := noteException_eq core
  rw [h]

@[simp] theorem noteException_c : (noteException core).c = core.c := by
  obtain ⟨ret, h⟩ := noteException_eq core
  rw [h]

@[simp] theorem noteException_insertions : (noteException core).insertions = core.insertions := by
  obtain ⟨ret, h⟩ := noteException_eq core
  rw [h]

end NoteException

theorem mrbSandboxExecute_eq (proc : ProcId) (tcb : Tcb) :
    ∃ c, mrbSandboxExecute proc tcb = { tcb with c := c } := by
  unfold mrbSandboxExecute mrbTaskProcSet
  split
  · exact ⟨_, rfl⟩
  · exact ⟨_, rfl⟩

/-- Besides the result, a return from the VM can write the exception. -/
theorem vmReturn_eq {Q : Type} (m : Mem Q) (t : TaskId) (r : VmResult) : ∃ exc,
    vmReturn m t r =
      (m.setTcb t (storeResult r)).setCore fun core => { core with exc := exc } := by
  unfold vmReturn
  dsimp only
  split
  · exact ⟨_, rfl⟩
  · exact ⟨m.core.exc, rfl⟩

namespace Lists

/-! ## Requeueing -/

theorem qInsertTask_eq (m : Mem Lists) (t : TaskId) : qInsertTask m t = .ok (insert m t) := rfl

theorem qDeleteTask_eq (m : Mem Lists) (t : TaskId) :
    qDeleteTask m (some t) = .ok (delete m t) := rfl

def requeue (m : Mem Lists) (t : TaskId) (f : Tcb → Tcb) : Mem Lists :=
  insert ((delete m t).setTcb t f) t

theorem requeue_eq (m : Mem Lists) (t : TaskId) (f : Tcb → Tcb) :
    Task.requeue m t f = .ok (requeue m t f) := rfl

section Requeue
variable (m : Mem Lists) (t u : TaskId) (f : Tcb → Tcb)

theorem requeue_tcb : (requeue m t f).core.tcb u =
    if u = t then { f (m.core.tcb t) with insertedAt := m.core.insertions } else m.core.tcb u := by
  simp only [requeue, insert, delete, Mem.setTcb, Core.noteInsertion_tcb, Core.setTcb_tcb,
    Core.setTcb_insertions, if_true]
  split <;> rfl

theorem requeue_queues_of_ne {q : Fin 4} (hq : q ≠ queueOf (f (m.core.tcb t)).status) :
    (requeue m t f).queues q =
      if q = queueOf (m.core.tcb t).status then (m.queues q).erase t else m.queues q := by
  simp only [requeue, insert, delete, Mem.setTcb_core, Mem.setTcb_queues, Core.setTcb_tcb_self,
    Function.update_of_ne hq, Function.update_apply]
  split
  · rename_i heq
    rw [← heq]
  · rfl

@[simp] theorem requeue_created : (requeue m t f).core.created = m.core.created := rfl
@[simp] theorem requeue_tick : (requeue m t f).core.tick = m.core.tick := rfl
@[simp] theorem requeue_wakeupTick : (requeue m t f).core.wakeupTick = m.core.wakeupTick := rfl
@[simp] theorem requeue_switching : (requeue m t f).core.switching = m.core.switching := rfl
@[simp] theorem requeue_exc : (requeue m t f).core.exc = m.core.exc := rfl
@[simp] theorem requeue_c : (requeue m t f).core.c = m.core.c := rfl
@[simp] theorem requeue_insertions :
    (requeue m t f).core.insertions = m.core.insertions + 1 := rfl

end Requeue

theorem mem_place {core : Core} {p u : TaskId} {l : List TaskId} :
    u ∈ place core p l ↔ u = p ∨ u ∈ l := by
  simp [place]

/-! ## Preemption -/

def preempt (m : Mem Lists) : Mem Lists :=
  m.setCore fun core =>
    { core with
      switching :=
        core.switching || (m.queues qReady).any fun t => (core.tcb t).status = .running }

theorem walk_preemptOne (l : List TaskId) (m : Mem Lists) :
    walk preemptOne l (m, ()) = .ok (m.setCore fun core =>
      { core with
        switching := core.switching || l.any fun t => (core.tcb t).status = .running }, ()) := by
  induction l generalizing m with
  | nil => simp [walk, Mem.setCore]
  | cons t l ih =>
    by_cases hrun : (m.core.tcb t).status = .running
    · simp [walk, preemptOne, hrun, ih, Mem.setCore]
    · simp [walk, preemptOne, hrun, ih, Mem.setCore]

theorem preemptRunningTask_eq (m : Mem Lists) : preemptRunningTask m = .ok (preempt m) := by
  change (walk preemptOne (m.queues qReady) (m, ())).map Prod.fst = _
  rw [walk_preemptOne]
  rfl

section Preempt
variable (m : Mem Lists)

@[simp] theorem preempt_queues : (preempt m).queues = m.queues := rfl
@[simp] theorem preempt_tcb : (preempt m).core.tcb = m.core.tcb := rfl
@[simp] theorem preempt_created : (preempt m).core.created = m.core.created := rfl
@[simp] theorem preempt_tick : (preempt m).core.tick = m.core.tick := rfl
@[simp] theorem preempt_wakeupTick : (preempt m).core.wakeupTick = m.core.wakeupTick := rfl
@[simp] theorem preempt_exc : (preempt m).core.exc = m.core.exc := rfl
@[simp] theorem preempt_c : (preempt m).core.c = m.core.c := rfl
@[simp] theorem preempt_insertions : (preempt m).core.insertions = m.core.insertions := rfl

theorem preempt_switching : (preempt m).core.switching = true ↔
    m.core.switching = true ∨ ∃ t ∈ m.queues qReady, (m.core.tcb t).status = .running := by
  simp [preempt, Mem.setCore]

end Preempt

/-! ## The tick handler -/

/-- A sleeper whose wake-up time has passed. -/
def Due (core : Core) (t : TaskId) : Prop :=
  (core.tcb t).reason = .sleep ∧ signedDiff (core.tcb t).wakeupTick core.tick < 0

instance (core : Core) (t : TaskId) : Decidable (Due core t) :=
  inferInstanceAs (Decidable (_ ∧ _))

def wakeStep (s : Mem Lists × Bool) (t : TaskId) : Mem Lists × Bool :=
  if Due s.1.core t then (requeue s.1 t wakeUp, true)
  else if (s.1.core.tcb t).reason = .sleep ∧
      signedDiff (s.1.core.tcb t).wakeupTick s.1.core.wakeupTick < 0 then
    (s.1.setCore fun core => core.setWakeupTick (core.tcb t).wakeupTick, s.2)
  else s

theorem wakeOne_eq (s : Mem Lists × Bool) (t : TaskId) : wakeOne s t = .ok (wakeStep s t) := by
  unfold wakeOne wakeStep Due
  by_cases hsleep : (s.1.core.tcb t).reason = .sleep
  · by_cases hdue : signedDiff (s.1.core.tcb t).wakeupTick s.1.core.tick < 0
    · simp only [hsleep, hdue, ne_eq, not_true_eq_false, if_false, if_true, and_self]
      rfl
    · by_cases hnext : signedDiff (s.1.core.tcb t).wakeupTick s.1.core.wakeupTick < 0
      · simp [hsleep, hdue, hnext, Mem.setCore]
      · simp [hsleep, hdue, hnext]
  · simp [hsleep]

theorem walk_wakeOne (l : List TaskId) (s : Mem Lists × Bool) :
    walk wakeOne l s = .ok (l.foldl wakeStep s) := by
  induction l generalizing s with
  | nil => rfl
  | cons t l ih => simp only [walk, wakeOne_eq, List.foldl_cons, ih]

/-- The tick handler up to the comparison with `wakeup_tick_`. -/
def advance (m : Mem Lists) : Mem Lists :=
  decreaseTimeslice (m.setCore fun core => { core with tick := core.tick + 1 })

def scanStart (m : Mem Lists) : Mem Lists :=
  m.setCore fun core => core.setWakeupTick (core.tick + wakeupSpan)

section ScanStart
variable (m : Mem Lists)

@[simp] theorem scanStart_queues : (scanStart m).queues = m.queues := by
  rw [scanStart, Mem.setCore_queues]
@[simp] theorem scanStart_tcb : (scanStart m).core.tcb = m.core.tcb := by
  rw [scanStart, Mem.setCore_core, Core.setWakeupTick_tcb]
@[simp] theorem scanStart_tick : (scanStart m).core.tick = m.core.tick := by
  rw [scanStart, Mem.setCore_core, Core.setWakeupTick_tick]
@[simp] theorem scanStart_created : (scanStart m).core.created = m.core.created := by
  rw [scanStart, Mem.setCore_core, Core.setWakeupTick_created]
@[simp] theorem scanStart_switching : (scanStart m).core.switching = m.core.switching := by
  rw [scanStart, Mem.setCore_core, Core.setWakeupTick_switching]
@[simp] theorem scanStart_exc : (scanStart m).core.exc = m.core.exc := by
  rw [scanStart, Mem.setCore_core, Core.setWakeupTick_exc]
@[simp] theorem scanStart_c : (scanStart m).core.c = m.core.c := by
  rw [scanStart, Mem.setCore_core, Core.setWakeupTick_c]

end ScanStart

def scan (m : Mem Lists) : Mem Lists × Bool :=
  (m.queues qWaiting).foldl wakeStep (scanStart m, false)

def tick (m : Mem Lists) : Mem Lists :=
  if signedDiff (advance m).core.wakeupTick (advance m).core.tick < 0 then
    if (scan (advance m)).2 then preempt (scan (advance m)).1 else (scan (advance m)).1
  else advance m

theorem mrbTick_eq (m : Mem Lists) : mrbTick m = .ok (tick m) := by
  have hwalk : ∀ a : Mem Lists, Task.walk wakeOne qWaiting (scanStart a, false) = .ok (scan a) :=
    fun a => walk_wakeOne _ _
  change (if signedDiff (advance m).core.wakeupTick (advance m).core.tick < 0 then
    (Task.walk wakeOne qWaiting (scanStart (advance m), false)).bind
      (fun s => if s.2 then preemptRunningTask s.1 else .ok s.1)
    else .ok (advance m)) = _
  unfold tick
  split
  · rw [hwalk]
    change (if (scan (advance m)).2 then preemptRunningTask (scan (advance m)).1
      else .ok (scan (advance m)).1) = _
    split
    · exact preemptRunningTask_eq _
    · rfl
  · rfl

/-! ### What the scan does -/

section Advance
variable (m : Mem Lists) (u : TaskId)

@[simp] theorem advance_queues : (advance m).queues = m.queues := by
  unfold advance decreaseTimeslice
  split
  · rfl
  · dsimp only
    split
    · split <;> rfl
    · rfl

/-- Only the time slice of the head of the ready queue and the tick itself change. -/
theorem advance_tcb : ∃ n, (advance m).core.tcb u = { m.core.tcb u with timeslice := n } := by
  unfold advance decreaseTimeslice
  split
  · exact ⟨_, rfl⟩
  · rename_i t ht
    have hset : ∀ n, ∃ k, ((m.setCore fun core => { core with tick := core.tick + 1 }).setTcb t
        (.setTimeslice n)).core.tcb u = { m.core.tcb u with timeslice := k } := by
      intro n
      by_cases hu : u = t
      · subst u
        exact ⟨n, by simp [Mem.setTcb, Mem.setCore, Tcb.setTimeslice]⟩
      · exact ⟨(m.core.tcb u).timeslice, by simp [Mem.setTcb, Mem.setCore, Core.setTcb_tcb, hu]⟩
    dsimp only
    split
    · split
      · exact hset _
      · exact hset _
    · exact ⟨_, rfl⟩

theorem advance_core : (advance m).core.tick = m.core.tick + 1 ∧
    (advance m).core.created = m.core.created ∧ (advance m).core.wakeupTick = m.core.wakeupTick ∧
    (advance m).core.exc = m.core.exc ∧ (advance m).core.c = m.core.c ∧
    (advance m).core.insertions = m.core.insertions := by
  unfold advance decreaseTimeslice
  split
  · exact ⟨rfl, rfl, rfl, rfl, rfl, rfl⟩
  · dsimp only
    split
    · split <;> exact ⟨rfl, rfl, rfl, rfl, rfl, rfl⟩
    · exact ⟨rfl, rfl, rfl, rfl, rfl, rfl⟩

end Advance

/-- A projection that every round of a queue loop keeps is kept by the loop. -/
theorem foldl_keep {σ β : Type} {round : σ → TaskId → σ} (g : σ → β)
    (hround : ∀ s t, g (round s t) = g s) (l : List TaskId) (s : σ) :
    g (l.foldl round s) = g s := by
  induction l generalizing s with
  | nil => rfl
  | cons t l ih => rw [List.foldl_cons, ih, hround]

section Scan
variable (s : Mem Lists × Bool) (l : List TaskId) (t u : TaskId)

theorem wakeStep_core : (wakeStep s t).1.core.tick = s.1.core.tick ∧
    (wakeStep s t).1.core.created = s.1.core.created ∧
    (wakeStep s t).1.core.switching = s.1.core.switching ∧
    (wakeStep s t).1.core.exc = s.1.core.exc ∧ (wakeStep s t).1.core.c = s.1.core.c := by
  unfold wakeStep
  split
  · exact ⟨rfl, rfl, rfl, rfl, rfl⟩
  · split <;> exact ⟨rfl, rfl, rfl, rfl, rfl⟩

theorem foldl_wakeStep_core : (l.foldl wakeStep s).1.core.tick = s.1.core.tick ∧
    (l.foldl wakeStep s).1.core.created = s.1.core.created ∧
    (l.foldl wakeStep s).1.core.switching = s.1.core.switching ∧
    (l.foldl wakeStep s).1.core.exc = s.1.core.exc ∧ (l.foldl wakeStep s).1.core.c = s.1.core.c := by
  refine ⟨?_, ?_, ?_, ?_, ?_⟩
  · exact foldl_keep (·.1.core.tick) (fun s t => (wakeStep_core s t).1) l s
  · exact foldl_keep (·.1.core.created) (fun s t => (wakeStep_core s t).2.1) l s
  · exact foldl_keep (·.1.core.switching) (fun s t => (wakeStep_core s t).2.2.1) l s
  · exact foldl_keep (·.1.core.exc) (fun s t => (wakeStep_core s t).2.2.2.1) l s
  · exact foldl_keep (·.1.core.c) (fun s t => (wakeStep_core s t).2.2.2.2) l s

theorem wakeStep_tcb_of_ne (hu : u ≠ t) : (wakeStep s t).1.core.tcb u = s.1.core.tcb u := by
  unfold wakeStep
  split
  · simp [requeue_tcb, hu]
  · split <;> rfl

theorem wakeStep_tcb_self : (wakeStep s t).1.core.tcb t =
    if Due s.1.core t then { wakeUp (s.1.core.tcb t) with insertedAt := s.1.core.insertions }
    else s.1.core.tcb t := by
  unfold wakeStep
  split
  · simp [requeue_tcb]
  · split <;> rfl

/-- A scanned task is woken exactly when it is due at the start of the scan. -/
theorem foldl_wakeStep_tcb (hnd : l.Nodup) : ∃ k, (l.foldl wakeStep s).1.core.tcb u =
    if u ∈ l ∧ Due s.1.core u then { wakeUp (s.1.core.tcb u) with insertedAt := k }
    else s.1.core.tcb u := by
  induction l generalizing s with
  | nil => exact ⟨0, by simp⟩
  | cons t l ih =>
    obtain ⟨htl, hl⟩ := List.nodup_cons.mp hnd
    obtain ⟨k, hk⟩ := ih (wakeStep s t) hl
    rw [List.foldl_cons, hk]
    by_cases hu : u = t
    · subst u
      refine ⟨s.1.core.insertions, ?_⟩
      simp only [htl, false_and, if_false, List.mem_cons, true_or, true_and, wakeStep_tcb_self]
    · refine ⟨k, ?_⟩
      simp only [Due, wakeStep_tcb_of_ne s t u hu, (wakeStep_core s t).1, List.mem_cons, hu,
        false_or]

/-- The flag of the scan says whether it woke anything. -/
theorem foldl_wakeStep_flag (hnd : l.Nodup) :
    (l.foldl wakeStep s).2 = true ↔ s.2 = true ∨ ∃ t ∈ l, Due s.1.core t := by
  induction l generalizing s with
  | nil => simp
  | cons t l ih =>
    obtain ⟨htl, hl⟩ := List.nodup_cons.mp hnd
    have hkeep : ∀ u ∈ l, (Due (wakeStep s t).1.core u ↔ Due s.1.core u) := by
      intro u hu
      have hne : u ≠ t := fun h => htl (h ▸ hu)
      simp only [Due, wakeStep_tcb_of_ne s t u hne, (wakeStep_core s t).1]
    have hflag : (wakeStep s t).2 = true ↔ s.2 = true ∨ Due s.1.core t := by
      unfold wakeStep
      by_cases hdue : Due s.1.core t
      · simp [hdue]
      · simp only [hdue, if_false, or_false]
        split <;> rfl
    rw [List.foldl_cons, ih _ hl, hflag, List.exists_mem_cons_iff, or_assoc]
    refine or_congr Iff.rfl (or_congr Iff.rfl ⟨?_, ?_⟩)
    · rintro ⟨u, hu, hdue⟩
      exact ⟨u, hu, (hkeep u hu).mp hdue⟩
    · rintro ⟨u, hu, hdue⟩
      exact ⟨u, hu, (hkeep u hu).mpr hdue⟩

end Scan

/-! ### What a tick does -/

/-- The cached wake-up time has passed at the next tick. -/
def Scans (m : Mem Lists) : Prop := signedDiff m.core.wakeupTick (m.core.tick + 1) < 0

instance (m : Mem Lists) : Decidable (Scans m) := inferInstanceAs (Decidable (_ < _))

/-- The next tick wakes `u`. -/
def Wakes (m : Mem Lists) (u : TaskId) : Prop :=
  Scans m ∧ u ∈ m.queues qWaiting ∧ (m.core.tcb u).reason = .sleep ∧
    signedDiff (m.core.tcb u).wakeupTick (m.core.tick + 1) < 0

instance (m : Mem Lists) (u : TaskId) : Decidable (Wakes m u) :=
  inferInstanceAs (Decidable (_ ∧ _))

section Tick
variable {m : Mem Lists}

theorem scans_iff : Scans m ↔ signedDiff (advance m).core.wakeupTick (advance m).core.tick < 0 := by
  obtain ⟨htick, _, hwake, _⟩ := advance_core m
  rw [htick, hwake]
  rfl

theorem due_advance (u : TaskId) : Due (advance m).core u ↔ (m.core.tcb u).reason = .sleep ∧
    signedDiff (m.core.tcb u).wakeupTick (m.core.tick + 1) < 0 := by
  obtain ⟨n, hn⟩ := advance_tcb m u
  simp only [Due, hn, (advance_core m).1]

theorem tick_cases : tick m = advance m ∧ ¬ Scans m ∨
    Scans m ∧ (tick m = preempt (scan (advance m)).1 ∧ (scan (advance m)).2 = true ∨
      tick m = (scan (advance m)).1 ∧ (scan (advance m)).2 = false) := by
  unfold tick
  by_cases hs : Scans m
  · rw [if_pos (scans_iff.mp hs)]
    refine Or.inr ⟨hs, ?_⟩
    cases hflag : (scan (advance m)).2
    · exact Or.inr ⟨rfl, rfl⟩
    · exact Or.inl ⟨rfl, rfl⟩
  · rw [if_neg (fun h => hs (scans_iff.mpr h))]
    exact Or.inl ⟨rfl, hs⟩

theorem tick_core : (tick m).core.tick = m.core.tick + 1 ∧
    (tick m).core.created = m.core.created ∧ (tick m).core.exc = m.core.exc ∧
    (tick m).core.c = m.core.c := by
  obtain ⟨h1, h2, _, h4, h5, _⟩ := advance_core m
  have hscan : (scan (advance m)).1.core.tick = m.core.tick + 1 ∧
      (scan (advance m)).1.core.created = m.core.created ∧
      (scan (advance m)).1.core.exc = m.core.exc ∧ (scan (advance m)).1.core.c = m.core.c := by
    have hfold := foldl_wakeStep_core (scanStart (advance m), false) ((advance m).queues qWaiting)
    simp only [scanStart_tick, scanStart_created, scanStart_exc, scanStart_c] at hfold
    rw [scan]
    exact ⟨hfold.1.trans h1, hfold.2.1.trans h2, hfold.2.2.2.1.trans h4, hfold.2.2.2.2.trans h5⟩
  rcases tick_cases (m := m) with ⟨h, _⟩ | ⟨_, ⟨h, _⟩ | ⟨h, _⟩⟩
  · rw [h]
    exact ⟨h1, h2, h4, h5⟩
  · rw [h]
    exact hscan
  · rw [h]
    exact hscan

theorem scan_tcb (hnd : (m.queues qWaiting).Nodup) (u : TaskId) :
    ∃ n k, (scan (advance m)).1.core.tcb u =
      if u ∈ m.queues qWaiting ∧ Due (advance m).core u then
        { wakeUp (m.core.tcb u) with timeslice := n, insertedAt := k }
      else { m.core.tcb u with timeslice := n } := by
  obtain ⟨n, hn⟩ := advance_tcb m u
  have hnd' : ((advance m).queues qWaiting).Nodup := by simpa using hnd
  obtain ⟨k, hk⟩ := foldl_wakeStep_tcb (scanStart (advance m), false)
    ((advance m).queues qWaiting) u hnd'
  refine ⟨n, k, ?_⟩
  have hdue : Due (scanStart (advance m)).core u ↔ Due (advance m).core u := by
    simp only [Due, scanStart_tcb, scanStart_tick]
  simp only [advance_queues, hdue, scanStart_tcb, hn] at hk
  rw [scan, advance_queues, hk]
  rfl

/-- A tick wakes the sleepers it finds expired, and otherwise changes time slices only. -/
theorem tick_tcb (hnd : (m.queues qWaiting).Nodup) (u : TaskId) :
    ∃ n k, (tick m).core.tcb u =
      if Wakes m u then { wakeUp (m.core.tcb u) with timeslice := n, insertedAt := k }
      else { m.core.tcb u with timeslice := n } := by
  have hwakes : Scans m → ((u ∈ m.queues qWaiting ∧ Due (advance m).core u) ↔ Wakes m u) := by
    intro hs
    rw [due_advance, Wakes]
    exact ⟨fun h => ⟨hs, h⟩, fun h => h.2⟩
  obtain ⟨n, k, hk⟩ := scan_tcb hnd u
  rcases tick_cases (m := m) with ⟨h, hs⟩ | ⟨hs, ⟨h, _⟩ | ⟨h, _⟩⟩
  · obtain ⟨n, hn⟩ := advance_tcb m u
    refine ⟨n, 0, ?_⟩
    rw [h, if_neg (fun hw => hs hw.1), hn]
  · refine ⟨n, k, ?_⟩
    simp only [← hwakes hs, h, preempt_tcb, hk]
  · refine ⟨n, k, ?_⟩
    simp only [← hwakes hs, h, hk]

/-- What the pieces of a tick preserve, the tick preserves. -/
theorem tick_induct {P : Mem Lists → Prop} (hadv : P (advance m))
    (hcore : ∀ (a : Mem Lists) (f : Core → Core), (f a.core).tcb = a.core.tcb →
      (f a.core).created = a.core.created → (f a.core).insertions = a.core.insertions →
      P a → P (a.setCore f))
    (hreq : ∀ a t, P a → t ∈ m.queues qWaiting → P (requeue a t wakeUp)) : P (tick m) := by
  have hstep : ∀ (s : Mem Lists × Bool) (t : TaskId), P s.1 → t ∈ m.queues qWaiting →
      P (wakeStep s t).1 := by
    intro s t hs ht
    unfold wakeStep
    split
    · exact hreq s.1 t hs ht
    · split
      · exact hcore s.1 (fun core => core.setWakeupTick (core.tcb t).wakeupTick)
          rfl rfl rfl hs
      · exact hs
  have hfold : ∀ (l : List TaskId) (s : Mem Lists × Bool), (∀ t ∈ l, t ∈ m.queues qWaiting) →
      P s.1 → P (l.foldl wakeStep s).1 := by
    intro l
    induction l with
    | nil => exact fun _ _ hs => hs
    | cons t l ih =>
      intro s hl hs
      exact ih _ (fun u hu => hl u (List.mem_cons_of_mem t hu))
        (hstep s t hs (hl t List.mem_cons_self))
  have hstart : P (scanStart (advance m)) :=
    hcore (advance m) (fun core => core.setWakeupTick (core.tick + wakeupSpan))
      (Core.setWakeupTick_tcb _ _) (Core.setWakeupTick_created _ _)
      (Core.setWakeupTick_insertions _ _) hadv
  have hscan : P (scan (advance m)).1 :=
    hfold _ (scanStart (advance m), false) (by simp) hstart
  have hpreempt : ∀ a, P a → P (preempt a) := fun a ha => hcore a _ rfl rfl rfl ha
  rcases tick_cases (m := m) with ⟨h, _⟩ | ⟨_, ⟨h, _⟩ | ⟨h, _⟩⟩
  · exact h ▸ hadv
  · exact h ▸ hpreempt _ hscan
  · exact h ▸ hscan

end Tick

/-! ## The other sections -/

def createTask (m : Mem Lists) (priority : Option Int) (proc : ProcId) : Mem Lists :=
  let t := m.core.created
  let tcb := mrbTaskInitContext proc (mrbTcbNew .ready (priority.getD defaultPriority))
  preempt (insert (m.setCore fun core => { core.setTcb t (fun _ => tcb) with created := t + 1 }) t)

theorem mrbCreateTask_eq (m : Mem Lists) (priority : Option Int) (proc : ProcId) :
    mrbCreateTask m priority proc = .ok (createTask m priority proc) := by
  have hready : (mrbTaskInitContext proc
      (mrbTcbNew .ready (priority.getD defaultPriority))).status.code &&&
        TaskStatus.ready.code ≠ 0 := by
    change TaskStatus.ready.code &&& TaskStatus.ready.code ≠ 0
    decide
  unfold mrbCreateTask
  simp only [hready, ne_eq, not_false_eq_true, if_true]
  exact preemptRunningTask_eq _

def sleep (cfg : Config) (m : Mem Lists) (t : TaskId) (ms : Int) : Mem Lists :=
  let wake := m.core.tick + BitVec.ofInt 32 (sleepTicks cfg ms)
  (requeue m t (fallAsleep cfg m.core ms)).setCore fun core =>
    if signedDiff wake core.wakeupTick < 0 then core.setWakeupTick wake else core

theorem sleepMsImpl_some (cfg : Config) (m : Mem Lists) (t : TaskId) (ms : Int) :
    sleepMsImpl cfg m (some t) ms = .ok (sleep cfg m t ms) := by
  have hself : (((delete m t).setTcb t (fallAsleep cfg m.core ms)).core.tcb t).wakeupTick =
      m.core.tick + BitVec.ofInt 32 (sleepTicks cfg ms) := by
    simp [Mem.setTcb, fallAsleep]
  let asleep := (delete m t).setTcb t (fallAsleep cfg m.core ms)
  change Except.ok (insert (if signedDiff (asleep.core.tcb t).wakeupTick asleep.core.wakeupTick < 0
    then asleep.setCore fun core => core.setWakeupTick (core.tcb t).wakeupTick
    else asleep) t) = Except.ok (sleep cfg m t ms)
  have hset : asleep.setCore (fun core => core.setWakeupTick (core.tcb t).wakeupTick) =
      asleep.setCore fun core =>
        core.setWakeupTick (m.core.tick + BitVec.ofInt 32 (sleepTicks cfg ms)) := by
    simp only [Mem.setCore]
    rw [hself]
  have hkeep : asleep.core.wakeupTick = m.core.wakeupTick := rfl
  rw [hset, hself, hkeep]
  unfold sleep
  congr 1
  by_cases hw : signedDiff (m.core.tick + BitVec.ofInt 32 (sleepTicks cfg ms)) m.core.wakeupTick < 0
  · simp only [Mem.setCore, requeue_wakeupTick, hw, if_true]
    rfl
  · simp only [Mem.setCore, requeue_wakeupTick, hw, if_false]
    rfl

def resume (m : Mem Lists) (t : TaskId) (flag : Bool) : Mem Lists :=
  requeue (if flag then preempt m else m) t (.setStatus (if flag then .ready else .waiting))

theorem mrbResumeTask_eq (m : Mem Lists) (t : TaskId) (flag : Bool) :
    mrbResumeTask m t flag = .ok (resume m t flag) := by
  cases flag with
  | false => rfl
  | true =>
    change (preemptRunningTask m).bind (fun m => Task.requeue m t _) = _
    rw [preemptRunningTask_eq]
    rfl

def releaseWaitingStep (t : TaskId) (m : Mem Lists) (u : TaskId) : Mem Lists :=
  if hasJoined m.core t u then requeue m u wakeUp else m

def releaseSuspendedStep (t : TaskId) (m : Mem Lists) (u : TaskId) : Mem Lists :=
  if hasJoined m.core t u then m.setTcb u clearReason else m

theorem walk_releaseWaitingOne (t : TaskId) (l : List TaskId) (m : Mem Lists) :
    walk (releaseWaitingOne t) l (m, ()) = .ok (l.foldl (releaseWaitingStep t) m, ()) := by
  induction l generalizing m with
  | nil => rfl
  | cons u l ih =>
    by_cases hj : hasJoined m.core t u
    · have hone : releaseWaitingOne t (m, ()) u = .ok (requeue m u wakeUp, ()) := by
        rw [releaseWaitingOne, if_pos hj, requeue_eq]
        rfl
      simp only [walk, hone, ih, List.foldl_cons, releaseWaitingStep, if_pos hj]
    · simp only [walk, releaseWaitingOne, if_neg hj, ih, List.foldl_cons, releaseWaitingStep]

theorem walk_releaseSuspendedOne (t : TaskId) (l : List TaskId) (m : Mem Lists) :
    walk (releaseSuspendedOne t) l (m, ()) = .ok (l.foldl (releaseSuspendedStep t) m, ()) := by
  induction l generalizing m with
  | nil => rfl
  | cons u l ih =>
    by_cases hj : hasJoined m.core t u
    · simp only [walk, releaseSuspendedOne, if_pos hj, ih, List.foldl_cons, releaseSuspendedStep]
    · simp only [walk, releaseSuspendedOne, if_neg hj, ih, List.foldl_cons, releaseSuspendedStep]

def release (m : Mem Lists) (t : TaskId) : Mem Lists :=
  let m := (m.queues qWaiting).foldl (releaseWaitingStep t) m
  (m.queues qSuspended).foldl (releaseSuspendedStep t) m

theorem releaseJoiners_eq (m : Mem Lists) (t : TaskId) :
    releaseJoiners m t = .ok (release m t) := by
  change (walk (releaseWaitingOne t) (m.queues qWaiting) (m, ())).bind
    (fun s => (walk (releaseSuspendedOne t) (s.1.queues qSuspended) s).bind fun s => .ok s.1) = _
  rw [walk_releaseWaitingOne]
  change (walk (releaseSuspendedOne t) _ (_, ())).bind (fun s => .ok s.1) = _
  rw [walk_releaseSuspendedOne]
  rfl

/-! ### What the other sections write -/

section Writes
variable (m : Mem Lists) (t u : TaskId)

theorem createTask_tcb (priority : Option Int) (proc : ProcId) :
    (createTask m priority proc).core.tcb u =
      if u = m.core.created then
        { mrbTaskInitContext proc (mrbTcbNew .ready (priority.getD defaultPriority)) with
          insertedAt := m.core.insertions }
      else m.core.tcb u := by
  simp only [createTask, preempt_tcb, insert, Core.noteInsertion_tcb, Mem.setCore_core,
    Core.setTcb_tcb, if_true, Core.setTcb_insertions]
  split <;> rfl

@[simp] theorem createTask_created (priority : Option Int) (proc : ProcId) :
    (createTask m priority proc).core.created = m.core.created + 1 := rfl

@[simp] theorem createTask_c (priority : Option Int) (proc : ProcId) :
    (createTask m priority proc).core.c = m.core.c := rfl

theorem sleep_core (cfg : Config) (ms : Int) :
    (sleep cfg m t ms).core.tcb = (requeue m t (fallAsleep cfg m.core ms)).core.tcb ∧
    (sleep cfg m t ms).core.created = m.core.created ∧ (sleep cfg m t ms).core.c = m.core.c ∧
    (sleep cfg m t ms).core.tick = m.core.tick ∧
    (sleep cfg m t ms).core.switching = m.core.switching ∧
    (sleep cfg m t ms).core.exc = m.core.exc ∧
    (sleep cfg m t ms).queues = (requeue m t (fallAsleep cfg m.core ms)).queues := by
  unfold sleep
  dsimp only [Mem.setCore_core, Mem.setCore_queues]
  split <;> exact ⟨rfl, rfl, rfl, rfl, rfl, rfl, rfl⟩

theorem resume_tcb (flag : Bool) : (resume m t flag).core.tcb u =
    if u = t then
      { m.core.tcb t with
        status := if flag then .ready else .waiting
        insertedAt := m.core.insertions }
    else m.core.tcb u := by
  cases flag <;> simp [resume, requeue_tcb, Tcb.setStatus]

theorem resume_core (flag : Bool) : (resume m t flag).core.created = m.core.created ∧
    (resume m t flag).core.c = m.core.c ∧ (resume m t flag).core.tick = m.core.tick ∧
    (resume m t flag).core.wakeupTick = m.core.wakeupTick ∧
    (resume m t flag).core.exc = m.core.exc := by
  cases flag <;> exact ⟨rfl, rfl, rfl, rfl, rfl⟩

theorem foldl_releaseWaiting_tcb (l : List TaskId) (hnd : l.Nodup) :
    ∃ k, (l.foldl (releaseWaitingStep t) m).core.tcb u =
      if u ∈ l ∧ hasJoined m.core t u then { wakeUp (m.core.tcb u) with insertedAt := k }
      else m.core.tcb u := by
  induction l generalizing m with
  | nil => exact ⟨0, by simp⟩
  | cons v l ih =>
    obtain ⟨hvl, hl⟩ := List.nodup_cons.mp hnd
    obtain ⟨k, hk⟩ := ih (releaseWaitingStep t m v) hl
    have hne : ∀ w, w ≠ v → (releaseWaitingStep t m v).core.tcb w = m.core.tcb w := by
      intro w hw
      unfold releaseWaitingStep
      split
      · simp [requeue_tcb, hw]
      · rfl
    rw [List.foldl_cons, hk]
    by_cases hu : u = v
    · subst u
      refine ⟨m.core.insertions, ?_⟩
      simp only [hvl, false_and, if_false, List.mem_cons, true_or, true_and]
      unfold releaseWaitingStep
      split
      · simp [requeue_tcb]
      · rfl
    · refine ⟨k, ?_⟩
      simp only [hasJoined, hne u hu, List.mem_cons, hu, false_or]

theorem foldl_releaseSuspended_tcb (l : List TaskId) (hnd : l.Nodup) :
    (l.foldl (releaseSuspendedStep t) m).core.tcb u =
      if u ∈ l ∧ hasJoined m.core t u then clearReason (m.core.tcb u)
      else m.core.tcb u := by
  induction l generalizing m with
  | nil => simp
  | cons v l ih =>
    obtain ⟨hvl, hl⟩ := List.nodup_cons.mp hnd
    have hne : ∀ w, w ≠ v → (releaseSuspendedStep t m v).core.tcb w = m.core.tcb w := by
      intro w hw
      unfold releaseSuspendedStep
      split
      · simp [Core.setTcb_tcb, hw]
      · rfl
    rw [List.foldl_cons, ih _ hl]
    by_cases hu : u = v
    · subst u
      simp only [hvl, false_and, if_false, List.mem_cons, true_or, true_and]
      unfold releaseSuspendedStep
      split
      · simp
      · rfl
    · simp only [hasJoined, hne u hu, List.mem_cons, hu, false_or]

theorem releaseWaitingStep_core : (releaseWaitingStep t m u).core.created = m.core.created ∧
    (releaseWaitingStep t m u).core.tick = m.core.tick ∧
    (releaseWaitingStep t m u).core.wakeupTick = m.core.wakeupTick ∧
    (releaseWaitingStep t m u).core.exc = m.core.exc := by
  unfold releaseWaitingStep
  split <;> exact ⟨rfl, rfl, rfl, rfl⟩

theorem releaseSuspendedStep_core : (releaseSuspendedStep t m u).core.created = m.core.created ∧
    (releaseSuspendedStep t m u).core.tick = m.core.tick ∧
    (releaseSuspendedStep t m u).core.wakeupTick = m.core.wakeupTick ∧
    (releaseSuspendedStep t m u).core.exc = m.core.exc := by
  unfold releaseSuspendedStep
  split <;> exact ⟨rfl, rfl, rfl, rfl⟩

theorem release_core : (release m t).core.created = m.core.created ∧
    (release m t).core.tick = m.core.tick ∧ (release m t).core.wakeupTick = m.core.wakeupTick ∧
    (release m t).core.exc = m.core.exc := by
  unfold release
  refine ⟨?_, ?_, ?_, ?_⟩
  · exact (foldl_keep (·.core.created) (fun s v => (releaseSuspendedStep_core s t v).1) _ _).trans
      (foldl_keep (·.core.created) (fun s v => (releaseWaitingStep_core s t v).1) _ _)
  · exact (foldl_keep (·.core.tick) (fun s v => (releaseSuspendedStep_core s t v).2.1) _ _).trans
      (foldl_keep (·.core.tick) (fun s v => (releaseWaitingStep_core s t v).2.1) _ _)
  · exact (foldl_keep (·.core.wakeupTick)
      (fun s v => (releaseSuspendedStep_core s t v).2.2.1) _ _).trans
      (foldl_keep (·.core.wakeupTick) (fun s v => (releaseWaitingStep_core s t v).2.2.1) _ _)
  · exact (foldl_keep (·.core.exc) (fun s v => (releaseSuspendedStep_core s t v).2.2.2) _ _).trans
      (foldl_keep (·.core.exc) (fun s v => (releaseWaitingStep_core s t v).2.2.2) _ _)

end Writes

end Lists

end PicoRuby.Task
