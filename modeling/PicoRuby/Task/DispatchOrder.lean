import PicoRuby.Task.Refinement

/-!
# Dispatch order

The queues are sorted by `priority_preemption` and FIFO among equal values, as long
as `Task.pass` does not move its caller past another task of the same queue. From
this follow the choice of the dispatched task and the round robin of equal tasks.
-/

namespace PicoRuby.Task

open Shared

set_option autoImplicit false

/-- `a` belongs in front of `b`: a smaller value, or the same value and inserted earlier. -/
def Before (core : Core) (a b : TaskId) : Prop :=
  (core.tcb a).priorityPreemption < (core.tcb b).priorityPreemption ∨
    (core.tcb a).priorityPreemption = (core.tcb b).priorityPreemption ∧
      (core.tcb a).insertedAt < (core.tcb b).insertedAt

instance (core : Core) (a b : TaskId) : Decidable (Before core a b) :=
  inferInstanceAs (Decidable (_ ∨ _))

theorem Before.le {core : Core} {a b : TaskId} (h : Before core a b) :
    (core.tcb a).priorityPreemption ≤ (core.tcb b).priorityPreemption := by
  unfold Before at h
  omega

/-- The queues are in order, and every insertion was counted. -/
structure Ordered (m : Mem Lists) : Prop where
  sorted : ∀ q, (m.queues q).Pairwise (Before m.core)
  counted : ∀ q t, t ∈ m.queues q → (m.core.tcb t).insertedAt < m.core.insertions

section Place
variable {core : Core} {p : TaskId} {l : List TaskId}

theorem place_sorted (h : l.Pairwise (Before core)) (hp : p ∉ l)
    (hcounted : ∀ t ∈ l, (core.tcb t).insertedAt < core.insertions) :
    (Lists.place core p l).Pairwise (Before (core.noteInsertion p)) := by
  have hself : (core.noteInsertion p).tcb p = { core.tcb p with insertedAt := core.insertions } := by
    rw [Core.noteInsertion_tcb, if_pos rfl]
  have hother : ∀ t, t ≠ p → (core.noteInsertion p).tcb t = core.tcb t := by
    intro t ht
    rw [Core.noteInsertion_tcb, if_neg ht]
  induction l with
  | nil => exact List.pairwise_singleton _ _
  | cons b l ih =>
    obtain ⟨hb, hl⟩ := List.pairwise_cons.mp h
    have hpb : b ≠ p := fun heq => hp (heq ▸ List.mem_cons_self)
    have hpl : p ∉ l := fun hmem => hp (List.mem_cons_of_mem b hmem)
    have hkeep : ∀ x ∈ l, Before (core.noteInsertion p) b x := by
      intro x hx
      unfold Before
      rw [hother b hpb, hother x fun heq => hpl (heq ▸ hx)]
      exact hb x hx
    unfold Lists.place
    rw [List.orderedInsert]
    split
    · rename_i hlt
      have hfront : ∀ x ∈ b :: l, Before (core.noteInsertion p) p x := by
        intro x hx
        unfold Before
        rw [hself, hother x fun heq => hp (heq ▸ hx)]
        left
        rcases List.mem_cons.mp hx with rfl | hx
        · exact hlt
        · exact lt_of_lt_of_le hlt (hb x hx).le
      have hrest : (b :: l).Pairwise (Before (core.noteInsertion p)) := by
        refine List.pairwise_cons.mpr ⟨hkeep, hl.imp_of_mem fun {x y} hx hy hxy => ?_⟩
        unfold Before
        rw [hother x fun heq => hpl (heq ▸ hx), hother y fun heq => hpl (heq ▸ hy)]
        exact hxy
      exact List.pairwise_cons.mpr ⟨hfront, hrest⟩
    · rename_i hlt
      refine List.pairwise_cons.mpr ⟨fun x hx => ?_, ih hl hpl fun t ht =>
        hcounted t (List.mem_cons_of_mem b ht)⟩
      rcases Lists.mem_place.mp hx with rfl | hx
      · unfold Before
        rw [hself, hother b hpb]
        have hcount := hcounted b List.mem_cons_self
        dsimp only
        omega
      · exact hkeep x hx

end Place

namespace Ordered
variable {m : Mem Lists} {t : TaskId}

theorem init : Ordered ⟨Core.init, fun _ => []⟩ :=
  ⟨fun _ => List.Pairwise.nil, fun _ _ h => absurd h (List.not_mem_nil)⟩

/-- Rewrites that keep the values and the insertion counts keep the order. -/
theorem write (h : Ordered m) (core : Core)
    (hpp : ∀ u, (core.tcb u).priorityPreemption = (m.core.tcb u).priorityPreemption)
    (hat : ∀ u, (core.tcb u).insertedAt = (m.core.tcb u).insertedAt)
    (hins : core.insertions = m.core.insertions) : Ordered ⟨core, m.queues⟩ := by
  refine ⟨fun q => (h.sorted q).imp fun {a b} hab => ?_, fun q t ht => ?_⟩
  · unfold Before
    rw [hpp a, hpp b, hat a, hat b]
    exact hab
  · rw [hat, hins]
    exact h.counted q t ht

theorem setTcb (h : Ordered m) (u : TaskId) {f : Tcb → Tcb}
    (hpp : ∀ tcb, (f tcb).priorityPreemption = tcb.priorityPreemption)
    (hat : ∀ tcb, (f tcb).insertedAt = tcb.insertedAt) : Ordered (m.setTcb u f) := by
  refine h.write (m.core.setTcb u f) (fun v => ?_) (fun v => ?_) rfl
  · rw [Core.setTcb_tcb]
    split
    · rename_i hv
      rw [hpp, hv]
    · rfl
  · rw [Core.setTcb_tcb]
    split
    · rename_i hv
      rw [hat, hv]
    · rfl

theorem setTcb_free (h : Ordered m) (hfree : ∀ q, t ∉ m.queues q) (f : Tcb → Tcb) :
    Ordered (m.setTcb t f) := by
  have hkeep : ∀ q u, u ∈ m.queues q → (m.core.setTcb t f).tcb u = m.core.tcb u := by
    intro q u hu
    rw [Core.setTcb_tcb, if_neg (fun heq : u = t => hfree q (heq ▸ hu))]
  refine ⟨fun q => (h.sorted q).imp_of_mem fun {a b} ha hb hab => ?_, fun q u hu => ?_⟩
  · unfold Before
    rw [Mem.setTcb_core, hkeep q a ha, hkeep q b hb]
    exact hab
  · rw [Mem.setTcb_core, hkeep q u hu]
    exact h.counted q u hu

theorem delete (h : Ordered m) (t : TaskId) : Ordered (Lists.delete m t) := by
  have hsub : ∀ q, ((Lists.delete m t).queues q).Sublist (m.queues q) := by
    intro q
    simp only [Lists.delete, Function.update_apply]
    split
    · rename_i hq
      rw [hq]
      exact List.erase_sublist
    · exact List.Sublist.refl _
  exact ⟨fun q => (h.sorted q).sublist (hsub q), fun q u hu => h.counted q u ((hsub q).subset hu)⟩

theorem insert (h : Ordered m) (hfree : ∀ q, t ∉ m.queues q) : Ordered (Lists.insert m t) := by
  have hkeep : ∀ q u, u ∈ m.queues q → (m.core.noteInsertion t).tcb u = m.core.tcb u := by
    intro q u hu
    rw [Core.noteInsertion_tcb, if_neg (fun heq : u = t => hfree q (heq ▸ hu))]
  refine ⟨fun q => ?_, fun q u hu => ?_⟩
  · simp only [Lists.insert, Function.update_apply]
    split
    · exact place_sorted (h.sorted _) (hfree _) (h.counted _)
    · refine (h.sorted q).imp_of_mem fun {a b} ha hb hab => ?_
      unfold Before
      rw [hkeep q a ha, hkeep q b hb]
      exact hab
  · have hu' : u = t ∨ ∃ q', u ∈ m.queues q' := by
      simp only [Lists.insert, Function.update_apply] at hu
      split at hu
      · exact (Lists.mem_place.mp hu).imp_right fun h => ⟨_, h⟩
      · exact Or.inr ⟨q, hu⟩
    change ((m.core.noteInsertion t).tcb u).insertedAt < m.core.insertions + 1
    rcases hu' with rfl | ⟨q', hq'⟩
    · rw [Core.noteInsertion_tcb, if_pos rfl]
      exact Nat.lt_succ_self _
    · rw [hkeep q' u hq']
      exact Nat.lt_succ_of_lt (h.counted q' u hq')

theorem requeue (h : Ordered m) (hp : Placed m) (t : TaskId) (f : Tcb → Tcb) :
    Ordered (Lists.requeue m t f) := by
  have hfree : ∀ q, t ∉ (Lists.delete m t).queues q :=
    fun q hmem => (((hp.delete t).mem_iff q t).mp hmem).2.2 rfl
  exact ((h.delete t).setTcb_free hfree f).insert hfree

theorem preempt (h : Ordered m) : Ordered (Lists.preempt m) :=
  h.write (Lists.preempt m).core (fun _ => rfl) (fun _ => rfl) rfl

theorem tick (h : Ordered m) (hp : Placed m) : Ordered (Lists.tick m) := by
  have hall : Ordered (Lists.tick m) ∧ Placed (Lists.tick m) ∧
      (Lists.tick m).core.created = m.core.created := by
    apply Lists.tick_induct (P := fun a => Ordered a ∧ Placed a ∧ a.core.created = m.core.created)
    · obtain ⟨_, hcreated, _, _, _, hins⟩ := Lists.advance_core m
      refine ⟨?_, hp.advance, hcreated⟩
      have hq : Lists.advance m = ⟨(Lists.advance m).core, m.queues⟩ := by
        rw [← Lists.advance_queues m]
      rw [hq]
      apply h.write _ _ _ hins
      · intro u
        obtain ⟨n, hn⟩ := Lists.advance_tcb m u
        rw [hn]
      · intro u
        obtain ⟨n, hn⟩ := Lists.advance_tcb m u
        rw [hn]
    · rintro a f htcb hcreated hins ⟨ha, hpa, hc⟩
      refine ⟨ha.write (f a.core) (fun u => by rw [htcb]) (fun u => by rw [htcb]) hins, ?_,
        hcreated.trans hc⟩
      exact hpa.of_status _ hcreated fun u => by rw [htcb]
    · rintro a u ⟨ha, hpa, hc⟩ hu
      exact ⟨ha.requeue hpa u wakeUp, hpa.requeue (hc ▸ hp.lt_created hu) _, hc⟩
  exact hall.1

theorem createTask (h : Ordered m) (hp : Placed m) (priority : Option Int) (proc : ProcId) :
    Ordered (Lists.createTask m priority proc) := by
  have hfree : ∀ q, m.core.created ∉ m.queues q :=
    fun q hmem => Nat.lt_irrefl _ (hp.lt_created hmem)
  have hset := h.setTcb_free hfree fun _ =>
    mrbTaskInitContext proc (mrbTcbNew .ready (priority.getD defaultPriority))
  exact preempt (insert (m := m.setCore _) (hset.write _ (fun _ => rfl) (fun _ => rfl) rfl) hfree)

theorem sleep (h : Ordered m) (hp : Placed m) (cfg : Config) (t : TaskId) (ms : Int) :
    Ordered (Lists.sleep cfg m t ms) := by
  apply (h.requeue hp t (fallAsleep cfg m.core ms)).write
  · intro u
    dsimp only
    split <;> rfl
  · intro u
    dsimp only
    split <;> rfl
  · dsimp only
    split <;> rfl

theorem resume (h : Ordered m) (hp : Placed m) (t : TaskId) (flag : Bool) :
    Ordered (Lists.resume m t flag) := by
  cases flag with
  | false => exact h.requeue hp t _
  | true => exact h.preempt.requeue hp.preempt t _

theorem release (h : Ordered m) (hp : Placed m) (t : TaskId) : Ordered (Lists.release m t) := by
  have hwaiting : ∀ (l : List TaskId) (a : Mem Lists), Ordered a → Placed a →
      (∀ u ∈ l, u < a.core.created) → Ordered (l.foldl (Lists.releaseWaitingStep t) a) := by
    intro l
    induction l with
    | nil => exact fun _ ha _ _ => ha
    | cons u l ih =>
      intro a ha hpa hl
      have hpa' := hpa.foldl_releaseWaiting t [u] fun v hv => hl v (by simp_all)
      refine ih _ ?_ hpa' fun v hv => ?_
      · unfold Lists.releaseWaitingStep
        split
        · exact ha.requeue hpa u wakeUp
        · exact ha
      · rw [(Lists.releaseWaitingStep_core a t u).1]
        exact hl v (List.mem_cons_of_mem u hv)
  have hsuspended : ∀ (l : List TaskId) (a : Mem Lists), Ordered a →
      Ordered (l.foldl (Lists.releaseSuspendedStep t) a) := by
    intro l
    induction l with
    | nil => exact fun _ ha => ha
    | cons u l ih =>
      intro a ha
      refine ih _ ?_
      unfold Lists.releaseSuspendedStep
      split
      · exact ha.setTcb u (fun _ => rfl) fun _ => rfl
      · exact ha
  exact hsuspended _ _ (hwaiting _ m h hp fun u hu => hp.lt_created hu)

end Ordered

/-! ## The order is kept -/

/-- The task inside `mrb_task_s_pass` that is about to store its new value. -/
def Pc.passing : Pc → Option TaskId
  | .op t .passPriority => some t
  | _ => none

/-- With the value 1, `t` still stands on the same side of `u`. -/
def KeepsSide (core : Core) (t u : TaskId) : Prop :=
  (Before core u t → (core.tcb u).priorityPreemption < 1 ∨
    (core.tcb u).priorityPreemption = 1 ∧ (core.tcb u).insertedAt < (core.tcb t).insertedAt) ∧
  (Before core t u → 1 < (core.tcb u).priorityPreemption ∨
    1 = (core.tcb u).priorityPreemption ∧ (core.tcb t).insertedAt < (core.tcb u).insertedAt)

instance (core : Core) (t u : TaskId) : Decidable (KeepsSide core t u) :=
  inferInstanceAs (Decidable ((_ → _) ∧ (_ → _)))

/-- The value 1 moves `t` past no other task of its queue. -/
def FitsInPlace (core : Core) (t : TaskId) : Prop :=
  ∀ u < core.created, u ≠ t ∧ queueOf (core.tcb u).status = queueOf (core.tcb t).status →
    KeepsSide core t u

instance (core : Core) (t : TaskId) : Decidable (FitsInPlace core t) :=
  inferInstanceAs (Decidable (∀ u, u < core.created → (u ≠ t ∧ _ = _) → KeepsSide core t u))

section Condition
variable {Q : Type}

def PassKeepsOrder (s : State Q) (a : Act) : Prop :=
  a = .run → ∀ t ∈ s.pc.passing, FitsInPlace s.mem.core t

instance (s : State Q) (a : Act) : Decidable (PassKeepsOrder s a) :=
  inferInstanceAs (Decidable (_ → ∀ t ∈ _, _))

end Condition

section Steps
variable {cfg : Config} {b b' : State Lists} {a : Act} {m : Mem Lists} {t : TaskId}

theorem Ordered.pass (h : Ordered m) (hp : Placed m) (hfits : FitsInPlace m.core t) :
    Ordered (m.setTcb t Task.passPriority) := by
  have hself : ((m.setTcb t passPriority).core.tcb t).priorityPreemption = 1 ∧
      ((m.setTcb t passPriority).core.tcb t).insertedAt = (m.core.tcb t).insertedAt := by
    rw [Mem.setTcb_core, Core.setTcb_tcb_self]
    exact ⟨rfl, rfl⟩
  have hother : ∀ u, u ≠ t → (m.setTcb t passPriority).core.tcb u = m.core.tcb u := by
    intro u hu
    rw [Mem.setTcb_core, Core.setTcb_tcb, if_neg hu]
  refine ⟨fun q => (h.sorted q).imp_of_mem fun {x y} hx hy hxy => ?_, fun q u hu => ?_⟩
  · have hsame : queueOf (m.core.tcb x).status = queueOf (m.core.tcb y).status :=
      ((hp.mem_iff q x).mp hx).2.1.trans ((hp.mem_iff q y).mp hy).2.1.symm
    by_cases hxt : x = t
    · subst x
      have hyt : y ≠ t := by
        rintro rfl
        unfold Before at hxy
        omega
      unfold Before
      rw [hself.1, hself.2, hother y hyt]
      exact (hfits y (hp.lt_created hy) ⟨hyt, hsame.symm⟩).2 hxy
    · by_cases hyt : y = t
      · subst y
        unfold Before
        rw [hself.1, hself.2, hother x hxt]
        exact (hfits x (hp.lt_created hx) ⟨hxt, hsame⟩).1 hxy
      · unfold Before
        rw [hother x hxt, hother y hyt]
        exact hxy
  · have hcount := h.counted q u hu
    by_cases hut : u = t
    · subst u
      rw [hself.2]
      exact hcount
    · rw [hother u hut]
      exact hcount

theorem Trans.ordered (h : Trans cfg b a b') (hw : Wf b) (hok : PassKeepsOrder b a)
    (ho : Ordered b.mem) : Ordered b'.mem := by
  have hp := hw.placed
  cases h with
  | tick => exact ho.tick hp
  | silent _ => exact ho
  | bootCreate => exact ho.createTask hp _ _
  | create => exact ho.createTask hp _ _
  | mark => exact ho.setTcb _ (fun _ => rfl) fun _ => rfl
  | @enter m t =>
    have hc : Ordered (m.setCore fun core => { core with c := some t }) :=
      ho.write _ (fun _ => rfl) (fun _ => rfl) rfl
    exact hc.setTcb _ (fun _ => rfl) fun _ => rfl
  | @vmReturn m t r =>
    have hset : Ordered (m.setTcb t (storeResult r)) := ho.setTcb t (fun _ => rfl) fun _ => rfl
    obtain ⟨exc, heq⟩ := vmReturn_eq m t r
    dsimp only
    rw [heq]
    exact hset.write _ (fun _ => rfl) (fun _ => rfl) rfl
  | setPriority _ => exact ho.setTcb _ (fun _ => rfl) fun _ => rfl
  | stop _ => exact ho.setTcb _ (fun _ => rfl) fun _ => rfl
  | execute _ =>
    apply ho.setTcb
    · intro tcb
      obtain ⟨c, hc⟩ := mrbSandboxExecute_eq _ tcb
      rw [hc]
    · intro tcb
      obtain ⟨c, hc⟩ := mrbSandboxExecute_eq _ tcb
      rw [hc]
  | execVmCode _ => exact ho.setTcb _ (fun _ => rfl) fun _ => rfl
  | pass => exact ho.setTcb _ (fun _ => rfl) fun _ => rfl
  | @passPriority m t =>
    have hcur : currentTask m t = t := currentTask_eq hw.pcOk.2.1
    have hfits : FitsInPlace m.core t := hok rfl t rfl
    rw [hcur]
    exact ho.pass hp hfits
  | sleepSection => exact ho.sleep hp cfg _ _
  | suspendSection => exact ho.requeue hp _ _
  | setSwitching => exact ho.write _ (fun _ => rfl) (fun _ => rfl) rfl
  | resumeSection => exact ho.resume hp _ _
  | resumeStore => exact ho.write _ (fun _ => rfl) (fun _ => rfl) rfl
  | terminateSection => exact ho.requeue hp _ _
  | joinSection => exact ho.requeue hp _ _
  | @returned m t =>
    dsimp only
    unfold afterVm
    split
    · rename_i e _
      have hset : Ordered (m.setTcb t (storeException e)) := ho.setTcb t (fun _ => rfl) fun _ => rfl
      exact hset.write _ (fun _ => rfl) (fun _ => rfl) rfl
    · exact ho.write _ (fun _ => rfl) (fun _ => rfl) rfl
  | stopped _ => exact ho.requeue hp _ _
  | @release m t pc _ =>
    have htcb := noteException_tcb m.core
    have ho' : Ordered (m.setCore noteException) :=
      ho.write _ (fun u => by rw [htcb]) (fun u => by rw [htcb]) (noteException_insertions m.core)
    exact ho'.release hp.noteException t
  | unmark _ _ => exact ho.setTcb _ (fun _ => rfl) fun _ => rfl
  | switch => exact ho.requeue hp _ _

theorem run_ordered {as : List Act} (hw : Wf b) (ho : Ordered b.mem)
    (h : Run (Step cfg) PassKeepsOrder b as b') : Wf b' ∧ Ordered b'.mem :=
  hw.run_invariant h (fun _ _ _ hw ho hok ht => ht.ordered hw hok ho) ho

/-- The head of an ordered ready queue has the least value of all READY tasks. -/
theorem Ordered.head_le (h : Ordered m) (hp : Placed m) {u : TaskId}
    (hhead : (m.queues qReady).head? = some t) (hu : u < m.core.created)
    (hready : (m.core.tcb u).status = .ready) (hne : u ≠ t) : Before m.core t u := by
  have hmem : u ∈ m.queues qReady := hp.mem_ready_iff.mpr ⟨hu, Or.inl hready⟩
  have hsorted := h.sorted qReady
  cases hl : m.queues qReady with
  | nil => simp [hl] at hhead
  | cons v l =>
    rw [hl] at hhead hmem hsorted
    have hvt : v = t := Option.some.inj hhead
    rcases List.mem_cons.mp hmem with huv | hul
    · exact absurd (huv.trans hvt) hne
    · exact hvt ▸ (List.pairwise_cons.mp hsorted).1 u hul

end Steps

/-! ## Round robin -/

def StaysReady (core : Core) (x : TaskId) : Prop :=
  x < core.created ∧ ((core.tcb x).status = .ready ∨ (core.tcb x).status = .running)

instance (core : Core) (x : TaskId) : Decidable (StaysReady core x) :=
  inferInstanceAs (Decidable (_ ∧ _))

theorem Wf.mem_ready {b : State Lists} {x : TaskId} (hw : Wf b) (hx : x ∈ b.mem.queues qReady) :
    StaysReady b.mem.core x := hw.placed.mem_ready_iff.mp hx

/-- Only the runner is RUNNING. -/
theorem StaysReady.ready {b : State Lists} {x : TaskId} (h : StaysReady b.mem.core x) (hw : Wf b)
    (hpc : b.pc.runner ≠ some x) : (b.mem.core.tcb x).status = .ready :=
  h.2.resolve_right fun hst => hpc (hw.runner x hst)

/-- `x` and `y` are both READY, or one of them RUNNING, with the same value. -/
def EquallyReady {Q : Type} (x y : TaskId) (s : State Q) : Prop :=
  StaysReady s.mem.core x ∧ StaysReady s.mem.core y ∧
    (s.mem.core.tcb x).priorityPreemption = (s.mem.core.tcb y).priorityPreemption

section RoundRobin
variable {cfg : Config} {b b' : State Lists} {a : Act} {m : Mem Lists} {x y : TaskId} {k : Nat}

/-- All that can happen to a task that stays READY or RUNNING: nothing, or its own dispatch. -/
inductive StayStep (x : TaskId) (b b' : State Lists) : Prop where
  | same : (b'.mem.core.tcb x).status = (b.mem.core.tcb x).status →
      (b'.mem.core.tcb x).insertedAt = (b.mem.core.tcb x).insertedAt → StayStep x b b'
  | mark : b.pc = .chosen x → (b'.mem.core.tcb x).status = .running →
      (b'.mem.core.tcb x).insertedAt = (b.mem.core.tcb x).insertedAt → StayStep x b b'
  | unmark : (b.mem.core.tcb x).status = .running → b'.pc = .switchReady x →
      (b'.mem.core.tcb x).insertedAt = (b.mem.core.tcb x).insertedAt → StayStep x b b'
  | switch : b.pc = .switchReady x → (b'.mem.core.tcb x).insertedAt = b.mem.core.insertions →
      (b'.mem.core.tcb x).status = (b.mem.core.tcb x).status → StayStep x b b'

theorem StayStep.of_tcb {tcb : Tcb} (h : b'.mem.core.tcb x = tcb)
    (hstatus : tcb.status = (b.mem.core.tcb x).status)
    (hat : tcb.insertedAt = (b.mem.core.tcb x).insertedAt) : StayStep x b b' := by
  subst h
  exact .same hstatus hat

theorem StayStep.of_setTcb {pc pc' : Pc} {u : TaskId} {f : Tcb → Tcb}
    (hstatus : ∀ tcb, (f tcb).status = tcb.status)
    (hat : ∀ tcb, (f tcb).insertedAt = tcb.insertedAt) :
    StayStep x ⟨m, pc⟩ ⟨m.setTcb u f, pc'⟩ := by
  apply StayStep.same
  · change ((m.core.setTcb u f).tcb x).status = _
    rw [Core.setTcb_tcb]
    split
    · rename_i hx
      rw [hstatus, hx]
    · rfl
  · change ((m.core.setTcb u f).tcb x).insertedAt = _
    rw [Core.setTcb_tcb]
    split
    · rename_i hx
      rw [hat, hx]
    · rfl

theorem StayStep.setCore {pc' : Pc} {f : Core → Core} (h : StayStep x b ⟨m, pc'⟩)
    (hf : (f m.core).tcb = m.core.tcb) : StayStep x b ⟨m.setCore f, pc'⟩ := by
  have htcb : (m.setCore f).core.tcb x = m.core.tcb x := by rw [Mem.setCore_core, hf]
  cases h with
  | same hst hat => exact .same (htcb ▸ hst) (htcb ▸ hat)
  | mark hpc hst hat => exact .mark hpc (htcb ▸ hst) (htcb ▸ hat)
  | unmark hst hpc hat => exact .unmark hst hpc (htcb ▸ hat)
  | switch hpc hat hst => exact .switch hpc (htcb ▸ hat) (htcb ▸ hst)

theorem StayStep.of_requeue {pc pc' : Pc} {u : TaskId} {f : Tcb → Tcb}
    (hleaves : x = u → ¬ StaysReady (Lists.requeue m u f).core x)
    (h : StaysReady (Lists.requeue m u f).core x) :
    StayStep x ⟨m, pc⟩ ⟨Lists.requeue m u f, pc'⟩ := by
  have hx : x ≠ u := fun hx => hleaves hx h
  have htcb := Lists.requeue_tcb m u x f
  rw [if_neg hx] at htcb
  exact .same (congrArg Tcb.status htcb) (congrArg Tcb.insertedAt htcb)

theorem requeue_leaves {u : TaskId} {f : Tcb → Tcb}
    (hstatus : (f (m.core.tcb u)).status ≠ .ready ∧ (f (m.core.tcb u)).status ≠ .running)
    (hx : x = u) : ¬ StaysReady (Lists.requeue m u f).core x := by
  rintro ⟨_, hst⟩
  rw [hx, Lists.requeue_tcb, if_pos rfl] at hst
  rcases hst with hst | hst
  · exact hstatus.1 hst
  · exact hstatus.2 hst

theorem Trans.stays (h : Trans cfg b a b') (hw : Wf b) (hs : StaysReady b.mem.core x)
    (hs' : StaysReady b'.mem.core x) : StayStep x b b' := by
  have hp := hw.placed
  have hsuspended : (b.mem.core.tcb x).status ≠ .suspended := by
    rcases hs.2 with hst | hst <;> simp [hst]
  cases h with
  | @tick m pc =>
    have hnot : ¬ Lists.Wakes m x := by
      intro hwakes
      have hst : (m.core.tcb x).status = .waiting := (hp.mem_waiting_iff.mp hwakes.2.1).2
      rcases hs.2 with hst' | hst' <;> simp [hst] at hst'
    obtain ⟨n, k, hk⟩ := Lists.tick_tcb (hp.nodup qWaiting) x
    rw [if_neg hnot] at hk
    exact .of_tcb hk rfl rfl
  | silent _ => exact .same rfl rfl
  | @bootCreate m priority proc =>
    have htcb := Lists.createTask_tcb m x priority proc
    rw [if_neg (Nat.ne_of_lt hs.1)] at htcb
    exact .of_tcb htcb rfl rfl
  | @create m t priority proc =>
    have htcb := Lists.createTask_tcb m x priority proc
    rw [if_neg (Nat.ne_of_lt hs.1)] at htcb
    exact .of_tcb htcb rfl rfl
  | @mark m t =>
    have htcb := Core.setTcb_tcb m.core t x (.setStatus .running)
    by_cases hx : x = t
    · subst hx
      apply StayStep.mark rfl
      · rw [Mem.setTcb_core, Core.setTcb_tcb_self, Tcb.setStatus_status]
      · rw [Mem.setTcb_core, Core.setTcb_tcb_self]
        rfl
    · rw [if_neg hx] at htcb
      exact .of_tcb htcb rfl rfl
  | @enter m t =>
    have htcb := Core.setTcb_tcb { m.core with c := some t } t x (.setTimeslice cfg.timesliceTickCount)
    by_cases hx : x = t
    · subst hx
      rw [if_pos rfl] at htcb
      exact .of_tcb htcb rfl rfl
    · rw [if_neg hx] at htcb
      exact .of_tcb htcb rfl rfl
  | @vmReturn m t r =>
    have hset : StayStep x ⟨m, .exec t⟩ ⟨m.setTcb t (storeResult r), .returned t⟩ :=
      .of_setTcb (fun _ => rfl) fun _ => rfl
    obtain ⟨exc, heq⟩ := vmReturn_eq m t r
    rw [heq]
    exact hset.setCore rfl
  | setPriority _ => exact .of_setTcb (fun _ => rfl) fun _ => rfl
  | stop _ => exact .of_setTcb (fun _ => rfl) fun _ => rfl
  | execute _ =>
    apply StayStep.of_setTcb
    · exact fun _ => resetContext_wait.1
    · intro tcb
      obtain ⟨c, hc⟩ := mrbSandboxExecute_eq _ tcb
      rw [hc]
  | execVmCode _ => exact .of_setTcb (fun _ => rfl) fun _ => rfl
  | pass => exact .of_setTcb (fun _ => rfl) fun _ => rfl
  | passPriority => exact .of_setTcb (fun _ => rfl) fun _ => rfl
  | @sleepSection m t u ms =>
    have htcb := (Lists.sleep_core m u cfg ms).1
    have hx : x ≠ u := by
      intro hx
      have hst := hs'.2
      rw [htcb, hx, Lists.requeue_tcb, if_pos rfl] at hst
      rcases hst with hst | hst <;> cases hst
    have hkeep : (Lists.sleep cfg m u ms).core.tcb x = m.core.tcb x := by
      rw [htcb, Lists.requeue_tcb, if_neg hx]
    exact .of_tcb hkeep rfl rfl
  | suspendSection =>
    exact .of_requeue (requeue_leaves ⟨TaskStatus.noConfusion, TaskStatus.noConfusion⟩) hs'
  | setSwitching => exact .same rfl rfl
  | @resumeSection m t u flag =>
    have hx : x ≠ u := by
      rintro rfl
      exact hsuspended hw.pcOk.2.2.2.1
    have htcb := Lists.resume_tcb m u x flag
    rw [if_neg hx] at htcb
    exact .of_tcb htcb rfl rfl
  | resumeStore => exact .same rfl rfl
  | terminateSection =>
    exact .of_requeue (requeue_leaves ⟨TaskStatus.noConfusion, TaskStatus.noConfusion⟩) hs'
  | joinSection =>
    exact .of_requeue (requeue_leaves ⟨TaskStatus.noConfusion, TaskStatus.noConfusion⟩) hs'
  | @returned m t =>
    have hset : ∀ e pc pc', StayStep x ⟨m, pc⟩ ⟨m.setTcb t (storeException e), pc'⟩ :=
      fun _ _ _ => .of_setTcb (fun _ => rfl) fun _ => rfl
    unfold afterVm
    split
    · rename_i e _
      exact (hset e (.returned t) (.afterSlice t)).setCore rfl
    · exact .same rfl rfl
  | stopped _ =>
    exact .of_requeue (requeue_leaves ⟨TaskStatus.noConfusion, TaskStatus.noConfusion⟩) hs'
  | @release m t pc _ =>
    obtain ⟨k, hk⟩ := hp.release_noted_tcb t x
    have hwaiting : (m.core.tcb x).status ≠ .waiting := by
      intro hst
      rcases hs.2 with hst' | hst' <;> simp [hst] at hst'
    rw [if_neg fun h => hwaiting h.1.2, if_neg fun h => hsuspended h.1.2] at hk
    exact .of_tcb hk rfl rfl
  | @unmark m t _ hrunning =>
    have htcb := Core.setTcb_tcb m.core t x (.setStatus .ready)
    by_cases hx : x = t
    · subst hx
      apply StayStep.unmark hrunning rfl
      rw [Mem.setTcb_core, Core.setTcb_tcb_self]
      rfl
    · rw [if_neg hx] at htcb
      exact .of_tcb htcb rfl rfl
  | @switch m t =>
    have htcb := Lists.requeue_tcb m t x id
    by_cases hx : x = t
    · subst hx
      rw [if_pos rfl] at htcb
      apply StayStep.switch rfl
      · rw [htcb]
      · rw [htcb]
        rfl
    · rw [if_neg hx] at htcb
      exact .of_tcb htcb rfl rfl

/-- From the dispatch of `x` on, `y` has waited since insertion `k`, and once the slice
of `x` is over, `x` stands behind `y`. -/
structure Waits (x y : TaskId) (k : Nat) (b : State Lists) : Prop where
  ready : (b.mem.core.tcb y).status = .ready
  since : (b.mem.core.tcb y).insertedAt = k
  waiting : b.pc ≠ .switchReady y
  behind : b.pc = .chosen x ∨ (b.pc.runner = some x ∧ (b.mem.core.tcb x).status = .running) ∨
    b.pc = .switchReady x ∨ k < (b.mem.core.tcb x).insertedAt

/-- Where the slice of a RUNNING task can go. -/
theorem Trans.runner (h : Trans cfg b a b') (hx : b.pc.runner = some x)
    (hrun : (b'.mem.core.tcb x).status = .running) : b'.pc.runner = some x := by
  have hresume : ∀ {m u v}, (resumePc (Q := Lists) m u v).runner = some u := by
    intro m u v
    unfold resumePc
    split <;> rfl
  cases h with
  | tick => exact hx
  | silent hs =>
    cases hs with
    | noSwitch _ hst =>
      have htx := Option.some.inj hx
      subst htx
      exact absurd hrun hst
    | _ => exact hx
  | execute _ => exact hresume.trans hx
  | execVmCode _ => exact hresume.trans hx
  | @stopped m t _ =>
    have htx : t = x := Option.some.inj hx
    rw [Lists.requeue_tcb, if_pos htx.symm] at hrun
    cases hrun
  | @unmark m t _ _ =>
    have htx : t = x := Option.some.inj hx
    subst htx
    rw [Mem.setTcb_core, Core.setTcb_tcb_self] at hrun
    cases hrun
  | _ => first | exact hx | cases hx

/-- The switch from a task follows a slice that it ended RUNNING. -/
theorem Trans.switchReady_cases (h : Trans cfg b a b') {u : TaskId} (hpc : b'.pc = .switchReady u) :
    b.pc = .switchReady u ∨ (b.mem.core.tcb u).status = .running := by
  have hresume : ∀ {m : Mem Lists} {v w : TaskId}, resumePc m v w ≠ .switchReady u := by
    intro m v w heq
    unfold resumePc at heq
    split at heq <;> cases heq
  cases h with
  | tick => exact Or.inl hpc
  | silent hsilent => cases hsilent <;> cases hpc
  | release hpc' => rcases hpc' with rfl | rfl <;> cases hpc
  | execute _ => exact absurd hpc hresume
  | execVmCode _ => exact absurd hpc hresume
  | unmark _ hrun =>
    cases hpc
    exact Or.inr hrun
  | _ => cases hpc

theorem Trans.chosen_cases (h : Trans cfg b a b') {u : TaskId} (hpc : b'.pc = .chosen u) :
    b.pc = .chosen u ∨ b.pc = .loop ∧ (b.mem.queues qReady).head? = some u := by
  have hresume : ∀ {m : Mem Lists} {v w : TaskId}, resumePc m v w ≠ .chosen u := by
    intro m v w heq
    unfold resumePc at heq
    split at heq <;> cases heq
  cases h with
  | tick => exact Or.inl hpc
  | silent hsilent =>
    cases hsilent with
    | choose hhead =>
      cases hpc
      exact Or.inr ⟨rfl, hhead⟩
    | _ => cases hpc
  | release hpc' => rcases hpc' with rfl | rfl <;> cases hpc
  | execute _ => exact absurd hpc hresume
  | execVmCode _ => exact absurd hpc hresume
  | _ => cases hpc

theorem Trans.waits (h : Trans cfg b a b') (hw : Wf b) (ho : Ordered b.mem)
    (hs : EquallyReady x y b) (hs' : EquallyReady x y b') (hnot : b.pc ≠ .chosen y)
    (hwaits : Waits x y k b) : Waits x y k b' := by
  obtain ⟨hready, hsince, hwaiting, hbehind⟩ := hwaits
  have hy : (b'.mem.core.tcb y).status = .ready ∧ (b'.mem.core.tcb y).insertedAt = k ∧
      b'.pc ≠ .switchReady y := by
    have hpc' : b'.pc ≠ .switchReady y := by
      intro heq
      rcases h.switchReady_cases heq with hb | hb
      · exact hwaiting hb
      · rw [hready] at hb
        cases hb
    cases h.stays hw hs.2.1 hs'.2.1 with
    | same hst hat => exact ⟨hst.trans hready, hat.trans hsince, hpc'⟩
    | mark heq _ _ => exact absurd heq hnot
    | unmark hrun _ _ =>
      rw [hready] at hrun
      cases hrun
    | switch heq _ _ => exact absurd heq hwaiting
  refine ⟨hy.1, hy.2.1, hy.2.2, ?_⟩
  have hcount : k < b.mem.core.insertions := by
    have hmem := hw.placed.mem_ready_iff.mpr hs.2.1
    exact hsince ▸ ho.counted qReady y hmem
  rcases hbehind with hpc | ⟨hrunner, hrun⟩ | hpc | hlt
  · -- `x` has been chosen: a tick, or the store of RUNNING
    obtain ⟨m, pc⟩ := b
    cases hpc
    cases h with
    | tick => exact Or.inl rfl
    | silent hsilent => cases hsilent
    | mark =>
      refine Or.inr (Or.inl ⟨rfl, ?_⟩)
      rw [Mem.setTcb_core, Core.setTcb_tcb_self, Tcb.setStatus_status]
  · cases h.stays hw hs.1 hs'.1 with
    | same hst _ =>
      have hrun' := hst.trans hrun
      exact Or.inr (Or.inl ⟨h.runner hrunner hrun', hrun'⟩)
    | mark heq _ _ =>
      rw [heq] at hrunner
      cases hrunner
    | unmark _ hpc _ => exact Or.inr (Or.inr (Or.inl hpc))
    | switch heq _ _ =>
      rw [heq] at hrunner
      cases hrunner
  · obtain ⟨m, pc⟩ := b
    cases hpc
    cases h with
    | tick => exact Or.inr (Or.inr (Or.inl rfl))
    | silent hsilent => cases hsilent
    | switch =>
      refine Or.inr (Or.inr (Or.inr ?_))
      rw [Lists.requeue_tcb, if_pos rfl]
      exact hcount
  · refine Or.inr (Or.inr (Or.inr ?_))
    cases h.stays hw hs.1 hs'.1 with
    | same _ hat => omega
    | mark _ _ hat => omega
    | unmark _ _ hat => omega
    | switch _ hat _ => omega

/-- While `y` is not dispatched, `x` is not dispatched again. -/
theorem Waits.not_head (h : Waits x y k b) (hw : Wf b) (ho : Ordered b.mem)
    (hs : EquallyReady x y b) (hne : x ≠ y) (hpc : b.pc = .loop) :
    (b.mem.queues qReady).head? ≠ some x := by
  intro hhead
  have hbefore := ho.head_le hw.placed hhead hs.2.1.1 h.ready (Ne.symm hne)
  have hlt : k < (b.mem.core.tcb x).insertedAt := by
    rcases h.behind with hb | ⟨hb, _⟩ | hb | hb
    · rw [hpc] at hb
      cases hb
    · rw [hpc] at hb
      cases hb
    · rw [hpc] at hb
      cases hb
    · exact hb
  have hpp := hs.2.2
  have hsince := h.since
  unfold Before at hbefore
  omega

end RoundRobin

/-! ## The order of dispatches -/

theorem head_of_dispatch {Q : Type} [TaskQueues Q] {cfg : Config} {s s' : State Q} {t : TaskId}
    (hpc : s.pc = .loop) (h : Step cfg s .run s') (ht : s'.pc = .chosen t) :
    head s.mem.queues qReady = some t := by
  obtain ⟨m, pc⟩ := s
  subst hpc
  simp only [Step, step, tasksRunStep] at h
  split at h
  · cases h
    cases ht
  · cases h
    cases ht
    assumption

/-- The queues are sorted and FIFO among equals, a dispatch takes a READY task with the
least value, and of two tasks that stay READY with equal values, none is dispatched
twice without the other in between. -/
structure DispatchOrder (cfg : Config) (Ok : State Links → Act → Prop) (s : State Links) :
    Prop where
  sorted : ∃ l : Fin 4 → List TaskId,
    (∀ q, Linked s.mem.queues.next (s.mem.queues.queues q) (l q)) ∧
      ∀ q, (l q).Pairwise (Before s.mem.core)
  least : ∀ (t : TaskId) (s' : State Links), s.pc = .loop → Step cfg s .run s' →
    s'.pc = .chosen t → (s.mem.core.tcb t).status = .ready ∧
      ∀ u < s.mem.core.created, (s.mem.core.tcb u).status = .ready →
        (s.mem.core.tcb t).priorityPreemption ≤ (s.mem.core.tcb u).priorityPreemption
  roundRobin : ∀ (x y : TaskId) (as : List Act) (s' s'' : State Links), x ≠ y →
    s.pc = .chosen x → Run (Step cfg) (fun s a => Ok s a ∧ EquallyReady x y s) s as s' →
      EquallyReady x y s' → s'.pc = .loop → Step cfg s' .run s'' → s''.pc = .chosen x →
        ∃ as₁ as₂ u, as = as₁ ++ as₂ ∧
          Run (Step cfg) (fun s a => Ok s a ∧ EquallyReady x y s) s as₁ u ∧
          Run (Step cfg) (fun s a => Ok s a ∧ EquallyReady x y s) u as₂ s' ∧ u.pc = .chosen y

section Source
variable {cfg : Config} {s : State Links} {b : State Lists} {x y : TaskId}

theorem passKeepsOrder_related (s : State Links) (b : State Lists) (a : Act) (h : Related s b)
    (hok : PassKeepsOrder s a) : PassKeepsOrder b a := by
  unfold PassKeepsOrder at hok ⊢
  rw [← h.pc, ← h.core]
  exact hok

theorem Related.equallyReady (h : Related s b) : EquallyReady x y s ↔ EquallyReady x y b := by
  unfold EquallyReady
  rw [h.core]

/-- Between two dispatches of `x`, a task `y` that could have been dispatched was. -/
theorem Related.not_dispatched_twice (h : Related s b) (ho : Ordered b.mem) (hne : x ≠ y)
    (hpc : s.pc = .chosen x) {as : List Act} {s' s'' : State Links}
    (hrun : Run (Step cfg)
      (fun s a => (PassKeepsOrder s a ∧ EquallyReady x y s) ∧ ¬ s.pc = .chosen y) s as s')
    (hs' : EquallyReady x y s') (hpc' : s'.pc = .loop) (hstep : Step cfg s' .run s'') :
    s''.pc ≠ .chosen x := by
  intro hdispatch
  have hrelated : ∀ (s : State Links) (b : State Lists) (a : Act), Related s b →
      ((PassKeepsOrder s a ∧ EquallyReady x y s) ∧ ¬ s.pc = .chosen y) →
        (PassKeepsOrder b a ∧ EquallyReady x y b) ∧ ¬ b.pc = .chosen y :=
    fun s b a hr hok => ⟨⟨passKeepsOrder_related s b a hr hok.1.1, hr.equallyReady.mp hok.1.2⟩,
      hr.pc ▸ hok.2⟩
  obtain ⟨b', hrun', hrel'⟩ := h.run hrelated hrun
  have hbpc : b.pc = .chosen x := h.pc ▸ hpc
  -- `y` cannot be RUNNING where `x` has just been chosen
  have hstart : EquallyReady x y b → Waits x y (b.mem.core.tcb y).insertedAt b := by
    intro hs
    refine ⟨?_, rfl, by simp [hbpc], Or.inl hbpc⟩
    apply hs.2.1.ready h.wf
    rw [hbpc]
    exact nofun
  obtain ⟨hw', ho', hwaits⟩ := h.wf.run_invariant (I := fun c => Ordered c.mem ∧
      (EquallyReady x y c → Waits x y (b.mem.core.tcb y).insertedAt c)) hrun'
    (fun c a c' hw hI hok ht => ⟨ht.ordered hw hok.1.1 hI.1, fun hs' =>
      ht.waits hw hI.1 hok.1.2 hs' hok.2 (hI.2 hok.1.2)⟩) ⟨ho, hstart⟩
  have hs := hrel'.equallyReady.mp hs'
  have hhead := head_of_dispatch hpc' hstep hdispatch
  rw [hrel'.head] at hhead
  exact (hwaits hs).not_head hw' ho' hs hne (hrel'.pc ▸ hpc') hhead

/-- In a run whose calls of `Task.pass` keep their callers in place, dispatch is in order. -/
theorem dispatchOrder_of_run {as : List Act} (h : Run (Step cfg) PassKeepsOrder boot as s) :
    DispatchOrder cfg PassKeepsOrder s := by
  obtain ⟨b, hrun, hrel⟩ := Related.boot.run passKeepsOrder_related h
  obtain ⟨hw, ho⟩ := run_ordered Wf.init Ordered.init hrun
  refine ⟨⟨b.mem.queues, hrel.mem.linked, ?_⟩, ?_, ?_⟩
  · rw [hrel.core]
    exact ho.sorted
  · intro t s' hpc hstep ht
    have hhead := head_of_dispatch hpc hstep ht
    rw [hrel.head] at hhead
    rw [hrel.core]
    have hbpc : b.pc = .loop := hrel.pc ▸ hpc
    constructor
    · apply (hw.mem_ready (List.mem_of_mem_head? hhead)).ready hw
      rw [hbpc]
      exact nofun
    · intro u hu hready
      by_cases hut : u = t
      · rw [hut]
      · exact (ho.head_le hw.placed hhead hu hready hut).le
  · intro x y as s' s'' hne hpc hseg hs' hpc' hstep hdispatch
    rcases hseg.visits_or_avoids fun s => s.pc = .chosen y with hvisit | ⟨havoid, _⟩
    · exact hvisit
    · exact absurd hdispatch (hrel.not_dispatched_twice ho hne hpc havoid hs' hpc' hstep)

end Source

/-- Two tasks of default priority; the first, at the head, calls `Task.pass`. -/
def passAtHead : List Act :=
  [.createTask none 0, .createTask none 1, .run, .run, .run, .run, .pass, .run]

theorem dispatchOrder_of_passAtHead : ∃ s, Run (Step Config.hal) PassKeepsOrder boot passAtHead s ∧
    DispatchOrder Config.hal PassKeepsOrder s := by
  have hplay : (play Config.hal PassKeepsOrder boot passAtHead).isSome := by decide +kernel
  obtain ⟨s, hs⟩ := Option.isSome_iff_exists.mp hplay
  exact ⟨s, run_of_play hs, dispatchOrder_of_run (run_of_play hs)⟩

/-- Two tasks of priority 0: the value 1 belongs behind the other task. -/
def passAtPriorityZero : List Act :=
  [.createTask (some 0) 0, .createTask (some 0) 1, .run, .run, .run, .run, .pass, .run]

theorem dispatchOrder_fails : ¬ ∀ (as : List Act) (s : State Links),
    Run (Step Config.hal) (fun _ _ => True) boot as s →
      DispatchOrder Config.hal (fun _ _ => True) s := by
  intro hall
  have hplay : ∃ s, play Config.hal (fun _ _ => True) boot passAtPriorityZero = some s ∧
      s.mem.queues.queues qReady = some 0 ∧ s.mem.queues.next 0 = some 1 ∧
        (s.mem.core.tcb 0).priorityPreemption = 1 ∧ (s.mem.core.tcb 1).priorityPreemption = 0 :=
    ⟨_, rfl, rfl, rfl, rfl, rfl⟩
  obtain ⟨s, hs, hhead, hnext, h0, h1⟩ := hplay
  obtain ⟨l, hlinked, hsorted⟩ := (hall _ s (run_of_play hs)).sorted
  have hlist := hlinked qReady
  have hready := hsorted qReady
  rw [hhead] at hlist
  match hl : l qReady, hlist, hready with
  | [], hlist, _ => cases hlist
  | [_], hlist, _ =>
    obtain ⟨ha, hrest⟩ := hlist
    cases ha
    rw [hnext] at hrest
    cases hrest
  | _ :: _ :: _, hlist, hready =>
    obtain ⟨ha, hb, _⟩ := hlist
    cases ha
    rw [hnext] at hb
    cases hb
    have hle := ((List.pairwise_cons.mp hready).1 1 List.mem_cons_self).le
    omega

end PicoRuby.Task
