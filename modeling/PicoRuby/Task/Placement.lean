import PicoRuby.Task.ListModel

/-!
# Every TCB stands in the queue of its status

`PlacedBut hole` is the queue invariant in the middle of a section, when the TCB
`hole` has been taken out and not yet put back; `Placed` is the invariant itself.
-/

namespace PicoRuby.Task

set_option autoImplicit false

structure PlacedBut (hole : Option TaskId) (m : Mem Lists) : Prop where
  mem_iff : ∀ q t, t ∈ m.queues q ↔
    t < m.core.created ∧ queueOf (m.core.tcb t).status = q ∧ hole ≠ some t
  nodup : ∀ q, (m.queues q).Nodup

abbrev Placed (m : Mem Lists) : Prop := PlacedBut none m

namespace PlacedBut
variable {hole : Option TaskId} {m : Mem Lists} {t u : TaskId}

theorem mem_queueOf (h : Placed m) (ht : t < m.core.created) :
    t ∈ m.queues (queueOf (m.core.tcb t).status) :=
  (h.mem_iff _ t).mpr ⟨ht, rfl, by simp⟩

theorem mem_ready_iff (h : Placed m) : t ∈ m.queues qReady ↔
    t < m.core.created ∧ ((m.core.tcb t).status = .ready ∨ (m.core.tcb t).status = .running) := by
  rw [h.mem_iff, queueOf_eq_ready_iff]
  simp

theorem mem_waiting_iff (h : Placed m) : t ∈ m.queues qWaiting ↔
    t < m.core.created ∧ (m.core.tcb t).status = .waiting := by
  rw [h.mem_iff, queueOf_eq_waiting_iff]
  simp

theorem mem_suspended_iff (h : Placed m) : t ∈ m.queues qSuspended ↔
    t < m.core.created ∧ (m.core.tcb t).status = .suspended := by
  rw [h.mem_iff, queueOf_eq_suspended_iff]
  simp

theorem lt_created {q : Fin 4} (h : PlacedBut hole m) (ht : t ∈ m.queues q) : t < m.core.created :=
  ((h.mem_iff q t).mp ht).1

theorem init : Placed ⟨Core.init, fun _ => []⟩ :=
  ⟨fun _ _ => by simp [Core.init], fun _ => List.nodup_nil⟩

/-- Rewriting memory without touching a status keeps every TCB in its place. -/
theorem of_status (h : PlacedBut hole m) (core : Core)
    (hcreated : core.created = m.core.created)
    (hstatus : ∀ u, queueOf (core.tcb u).status = queueOf (m.core.tcb u).status) :
    PlacedBut hole ⟨core, m.queues⟩ := by
  refine ⟨fun q u => ?_, h.nodup⟩
  rw [hcreated, hstatus u]
  exact h.mem_iff q u

theorem setTcb {f : Tcb → Tcb} (h : PlacedBut hole m)
    (hq : queueOf (f (m.core.tcb t)).status = queueOf (m.core.tcb t).status) :
    PlacedBut hole (m.setTcb t f) := by
  refine h.of_status (m.core.setTcb t f) rfl fun u => ?_
  rw [Core.setTcb_tcb]
  split
  · rename_i hu
    rw [hu, hq]
  · rfl

theorem setTcb_hole (h : PlacedBut (some t) m) (f : Tcb → Tcb) :
    PlacedBut (some t) (m.setTcb t f) := by
  refine ⟨fun q u => ?_, h.nodup⟩
  rw [Mem.setTcb, Core.setTcb_tcb, Core.setTcb_created, h.mem_iff]
  by_cases hu : u = t
  · simp [hu]
  · simp [hu]

theorem delete (h : Placed m) (t : TaskId) : PlacedBut (some t) (Lists.delete m t) := by
  refine ⟨fun q u => ?_, fun q => ?_⟩
  · have hmem := h.mem_iff q u
    simp only [Lists.delete, Function.update_apply]
    split
    · rename_i hq
      rw [(h.nodup _).mem_erase_iff, ← hq, hmem]
      simp only [ne_eq, reduceCtorEq, not_false_eq_true, and_true, Option.some.injEq]
      constructor
      · rintro ⟨hne, hlt, hst⟩
        exact ⟨hlt, hst, fun h => hne h.symm⟩
      · rintro ⟨hlt, hst, hne⟩
        exact ⟨fun h => hne h.symm, hlt, hst⟩
    · rename_i hq
      rw [hmem]
      simp only [ne_eq, reduceCtorEq, not_false_eq_true, and_true, Option.some.injEq]
      constructor
      · rintro ⟨hlt, hst⟩
        exact ⟨hlt, hst, fun heq => hq (by rw [← hst, heq])⟩
      · rintro ⟨hlt, hst, _⟩
        exact ⟨hlt, hst⟩
  · simp only [Lists.delete, Function.update_apply]
    split
    · exact (h.nodup _).erase t
    · exact h.nodup q

theorem insert (h : PlacedBut (some t) m) (ht : t < m.core.created) : Placed (Lists.insert m t) := by
  have hfree : ∀ q, t ∉ m.queues q := fun q hmem => ((h.mem_iff q t).mp hmem).2.2 rfl
  have hstatus : ∀ u, ((m.core.noteInsertion t).tcb u).status = (m.core.tcb u).status := by
    intro u
    rw [Core.noteInsertion_tcb]
    split
    · rename_i hu
      rw [hu]
    · rfl
  refine ⟨fun q u => ?_, fun q => ?_⟩
  · simp only [Lists.insert, hstatus, Core.noteInsertion_created, Function.update_apply]
    split
    · rename_i hq
      rw [Lists.mem_place, h.mem_iff, ← hq]
      by_cases hu : u = t
      · simp [hu, ht, hq]
      · simp [hu, Ne.symm hu]
    · rename_i hq
      rw [h.mem_iff]
      by_cases hu : u = t
      · subst u
        simp [Ne.symm hq]
      · simp [Ne.symm hu]
  · simp only [Lists.insert, Function.update_apply]
    split
    · exact (List.perm_orderedInsert _ _ _).nodup_iff.mpr
        (List.nodup_cons.mpr ⟨hfree _, h.nodup _⟩)
    · exact h.nodup q

theorem requeue (h : Placed m) (ht : t < m.core.created) (f : Tcb → Tcb) :
    Placed (Lists.requeue m t f) :=
  insert (setTcb_hole (delete h t) f) ht

theorem preempt (h : Placed m) : Placed (Lists.preempt m) :=
  h.of_status _ rfl fun _ => rfl

theorem advance (h : Placed m) : Placed (Lists.advance m) := by
  have hq : (Lists.advance m) = ⟨(Lists.advance m).core, m.queues⟩ := by
    rw [← Lists.advance_queues m]
  rw [hq]
  apply h.of_status _ (Lists.advance_core m).2.1
  intro u
  obtain ⟨n, hn⟩ := Lists.advance_tcb m u
  rw [hn]

theorem tick (h : Placed m) : Placed (Lists.tick m) := by
  -- the number of TCBs is carried along because `requeue` needs its TCB to exist
  have hboth : Placed (Lists.tick m) ∧ (Lists.tick m).core.created = m.core.created := by
    apply Lists.tick_induct (P := fun a => Placed a ∧ a.core.created = m.core.created)
    · exact ⟨h.advance, (Lists.advance_core m).2.1⟩
    · rintro a f htcb hcreated _ ⟨ha, hc⟩
      exact ⟨ha.of_status _ hcreated fun u => by rw [htcb], hcreated.trans hc⟩
    · rintro a u ⟨ha, hc⟩ hu
      exact ⟨ha.requeue (hc ▸ h.lt_created hu) _, hc⟩
  exact hboth.1

theorem fresh (h : Placed m) (tcb : Tcb) : PlacedBut (some m.core.created)
    (m.setCore fun core =>
      { core.setTcb m.core.created (fun _ => tcb) with created := m.core.created + 1 }) := by
  refine ⟨fun q u => ?_, h.nodup⟩
  simp only [Mem.setCore_core, Mem.setCore_queues, Core.setTcb_tcb, h.mem_iff]
  by_cases hu : u = m.core.created
  · simp [hu]
  · have hlt : u < m.core.created + 1 ↔ u < m.core.created := by
      rw [Nat.lt_succ_iff_lt_or_eq]
      exact or_iff_left hu
    simp [hu, hlt, Ne.symm hu]

theorem createTask (h : Placed m) (priority : Option Int) (proc : ProcId) :
    Placed (Lists.createTask m priority proc) :=
  preempt (insert (h.fresh _) (Nat.lt_succ_self _))

theorem sleep (h : Placed m) (ht : t < m.core.created) (cfg : Config) (ms : Int) :
    Placed (Lists.sleep cfg m t ms) := by
  apply (h.requeue ht _).of_status
  · dsimp only
    split <;> rfl
  · intro u
    dsimp only
    split <;> rfl

theorem resume (h : Placed m) (ht : t < m.core.created) (flag : Bool) :
    Placed (Lists.resume m t flag) := by
  cases flag with
  | false => exact h.requeue ht _
  | true => exact h.preempt.requeue ht _

theorem foldl_releaseWaiting (t : TaskId) (l : List TaskId) (h : Placed m)
    (hl : ∀ u ∈ l, u < m.core.created) : Placed (l.foldl (Lists.releaseWaitingStep t) m) := by
  induction l generalizing m with
  | nil => exact h
  | cons u l ih =>
    have hstep : Placed (Lists.releaseWaitingStep t m u) := by
      unfold Lists.releaseWaitingStep
      split
      · exact h.requeue (hl u List.mem_cons_self) _
      · exact h
    apply ih hstep
    intro v hv
    rw [(Lists.releaseWaitingStep_core m t u).1]
    exact hl v (List.mem_cons_of_mem u hv)

theorem foldl_releaseSuspended (t : TaskId) (l : List TaskId) (h : Placed m) :
    Placed (l.foldl (Lists.releaseSuspendedStep t) m) := by
  induction l generalizing m with
  | nil => exact h
  | cons u l ih =>
    apply ih
    unfold Lists.releaseSuspendedStep
    split
    · exact h.setTcb rfl
    · exact h

theorem release (h : Placed m) (t : TaskId) : Placed (Lists.release m t) :=
  (h.foldl_releaseWaiting t _ fun _ hu => h.lt_created hu).foldl_releaseSuspended t _

/-- The end of `t` wakes the tasks that wait for it and clears the reason of those
that were suspended while they waited. -/
theorem release_tcb (h : Placed m) (t u : TaskId) : ∃ k, (Lists.release m t).core.tcb u =
    if u ∈ m.queues qWaiting ∧ hasJoined m.core t u then
      { wakeUp (m.core.tcb u) with insertedAt := k }
    else if u ∈ m.queues qSuspended ∧ hasJoined m.core t u then
      clearReason (m.core.tcb u)
    else m.core.tcb u := by
  obtain ⟨k, hk⟩ := Lists.foldl_releaseWaiting_tcb m t u _ (h.nodup qWaiting)
  have hfirst := h.foldl_releaseWaiting t (m.queues qWaiting) fun _ hu => h.lt_created hu
  have hcreated : ((m.queues qWaiting).foldl (Lists.releaseWaitingStep t) m).core.created =
      m.core.created :=
    Lists.foldl_keep (·.core.created) (fun s v => (Lists.releaseWaitingStep_core s t v).1) _ _
  refine ⟨k, ?_⟩
  unfold Lists.release
  simp only [Lists.foldl_releaseSuspended_tcb _ t u _ (hfirst.nodup qSuspended), hasJoined, hk,
    hfirst.mem_suspended_iff, h.mem_suspended_iff, hcreated]
  by_cases hw : u ∈ m.queues qWaiting ∧ (m.core.tcb u).reason = .join ∧
      (m.core.tcb u).tcbJoin = some t
  · simp only [hw, and_self, if_true, wakeUp]
    simp
  · simp only [hw, if_false]

theorem noteException (h : Placed m) : Placed (m.setCore Task.noteException) :=
  h.of_status _ (noteException_created m.core) fun u => by rw [noteException_tcb]

/-- `release_tcb` where the exception of the slice has been noted first. -/
theorem release_noted_tcb (h : Placed m) (t u : TaskId) :
    ∃ k, (Lists.release (m.setCore Task.noteException) t).core.tcb u =
      if (u < m.core.created ∧ (m.core.tcb u).status = .waiting) ∧ hasJoined m.core t u then
        { wakeUp (m.core.tcb u) with insertedAt := k }
      else if (u < m.core.created ∧ (m.core.tcb u).status = .suspended) ∧ hasJoined m.core t u then
        clearReason (m.core.tcb u)
      else m.core.tcb u := by
  obtain ⟨k, hk⟩ := h.noteException.release_tcb t u
  simp only [h.noteException.mem_waiting_iff, h.noteException.mem_suspended_iff, Mem.setCore_core, hasJoined,
    noteException_tcb, noteException_created] at hk
  exact ⟨k, hk⟩

end PlacedBut

end PicoRuby.Task
