import PicoRuby.Task.WellFormed
import PicoRuby.Shared.Linked

/-!
# The linked queues behave as the lists they represent

`Rep` relates a memory with `next` pointers to one with lists. Every section of the
source, run on the pointers, takes related memories to related memories, and the two
machines move in lockstep, faults included.
-/

namespace PicoRuby.Task

open Shared

set_option autoImplicit false

structure RepBut (hole : Option TaskId) (m : Mem Links) (a : Mem Lists) : Prop where
  core : m.core = a.core
  linked : ∀ q, Linked m.queues.next (m.queues.queues q) (a.queues q)
  placed : PlacedBut hole a

abbrev Rep (m : Mem Links) (a : Mem Lists) : Prop := RepBut none m a

/-- The section run on pointers succeeds and represents the result on lists. -/
def Refines (x : Except Fault (Mem Links)) (a : Mem Lists) : Prop := ∃ m, x = .ok m ∧ Rep m a

theorem Refines.of_both {x : Except Fault (Mem Links)} {y : Except Fault (Mem Lists)} {a : Mem Lists}
    (hy : y = .ok a) (h : ∃ m a, x = .ok m ∧ y = .ok a ∧ Rep m a) : Refines x a := by
  obtain ⟨m, a', hm, ha', hrep⟩ := h
  exact ⟨m, hm, Except.ok.inj (ha'.symm.trans hy) ▸ hrep⟩

theorem Rep.boot : Rep ⟨Core.init, Links.init⟩ ⟨Core.init, fun _ => []⟩ :=
  ⟨rfl, fun _ => rfl, PlacedBut.init⟩

/-- A queue holds distinct created TCBs, so a walk needs no more rounds than there are TCBs. -/
theorem PlacedBut.length_le {hole : Option TaskId} {a : Mem Lists} (h : PlacedBut hole a) (q : Fin 4) :
    (a.queues q).length ≤ a.core.created := by
  have hsub : a.queues q ⊆ List.range a.core.created :=
    fun t ht => List.mem_range.mpr (h.lt_created ht)
  simpa using (List.subperm_of_subset (h.nodup q) hsub).length_le

theorem PlacedBut.disjoint {hole : Option TaskId} {a : Mem Lists} (h : PlacedBut hole a) {q q' : Fin 4}
    {t : TaskId} (ht : t ∈ a.queues q) (hne : q' ≠ q) : t ∉ a.queues q' := by
  intro ht'
  exact hne (((h.mem_iff q' t).mp ht').2.1.symm.trans ((h.mem_iff q t).mp ht).2.1)

section Memory
variable {hole : Option TaskId} {m : Mem Links} {a : Mem Lists} {t : TaskId}

theorem RepBut.head_eq (h : RepBut hole m a) (q : Fin 4) : head m.queues q = head a.queues q :=
  (h.linked q).head_eq

theorem RepBut.setCore {f : Core → Core} (h : RepBut hole m a)
    (hcreated : (f a.core).created = a.core.created)
    (hstatus : ∀ u, ((f a.core).tcb u).status = (a.core.tcb u).status) :
    RepBut hole (m.setCore f) (a.setCore f) :=
  ⟨congrArg f h.core, h.linked, h.placed.of_status _ hcreated fun u => congrArg queueOf (hstatus u)⟩

theorem RepBut.setTcb {f : Tcb → Tcb} (h : RepBut hole m a)
    (hq : queueOf (f (a.core.tcb t)).status = queueOf (a.core.tcb t).status) :
    RepBut hole (m.setTcb t f) (a.setTcb t f) :=
  ⟨by rw [Mem.setTcb_core, Mem.setTcb_core, h.core], h.linked, h.placed.setTcb hq⟩

theorem RepBut.setTcb_hole (h : RepBut (some t) m a) (f : Tcb → Tcb) :
    RepBut (some t) (m.setTcb t f) (a.setTcb t f) :=
  ⟨by rw [Mem.setTcb_core, Mem.setTcb_core, h.core], h.linked, h.placed.setTcb_hole f⟩

/-! ## Deleting -/

theorem Links.predecessor_eq {next : TaskId → Option TaskId} {p r : TaskId} {post : List TaskId} :
    ∀ {fuel : Nat} {hd : Option TaskId} {pre : List TaskId},
      Linked next hd (pre ++ r :: p :: post) → pre.length < fuel →
        Links.predecessor next p fuel hd = .ok r
  | 0, _, _, _, hf => absurd hf (Nat.not_lt_zero _)
  | fuel + 1, hd, [], h, _ => by
    rw [h.1]
    unfold Links.predecessor
    rw [if_pos h.2.1]
  | fuel + 1, hd, b :: pre, h, hf => by
    have hnd := h.nodup
    have hne : next b ≠ some p := by
      intro hb
      have hlinked : Linked next (some p) (pre ++ r :: p :: post) := hb ▸ h.2
      cases pre with
      | nil =>
        have heq : p = r := Option.some.inj hlinked.1
        simp [heq] at hnd
      | cons c pre =>
        have heq : p = c := Option.some.inj hlinked.1
        simp [heq] at hnd
    rw [h.1]
    unfold Links.predecessor
    rw [if_neg hne]
    exact Links.predecessor_eq h.2 (by simpa using hf)

theorem RepBut.delete (h : Rep m a) (ht : t < a.core.created) :
    ∃ m', qDeleteTask m (some t) = .ok m' ∧ RepBut (some t) m' (Lists.delete a t) := by
  obtain ⟨core, links⟩ := m
  obtain ⟨_, lists⟩ := a
  obtain ⟨rfl, hlinked, hplaced⟩ := h
  dsimp only at hlinked ht hplaced
  have hdelete : PlacedBut (some t) (Lists.delete ⟨core, lists⟩ t) := hplaced.delete t
  have hmem : t ∈ lists (queueOf (core.tcb t).status) := hplaced.mem_queueOf ht
  have hother : ∀ q', q' ≠ queueOf (core.tcb t).status → t ∉ lists q' :=
    fun q' hne => hplaced.disjoint hmem hne
  have hlen : (lists (queueOf (core.tcb t).status)).length ≤ core.created := hplaced.length_le _
  have hlinked' := hlinked (queueOf (core.tcb t).status)
  change ∃ m', Links.qDeleteTask ⟨core, links⟩ (some t) = .ok m' ∧ _
  unfold Links.qDeleteTask Lists.delete at *
  dsimp only at hdelete ⊢
  generalize hq : queueOf (core.tcb t).status = q at *
  obtain ⟨pre, post, hl⟩ := List.append_of_mem hmem
  rw [hl] at hlinked' hlen
  have hnd := hlinked'.nodup
  have herase : (lists q).erase t = pre ++ post := by
    rw [hl, List.erase_append_right _ (by
      intro hpre
      exact (List.nodup_append.mp hnd).2.2 t hpre t List.mem_cons_self rfl)]
    simp
  rw [herase] at hdelete ⊢
  rcases List.eq_nil_or_concat pre with rfl | ⟨pre, r, rfl⟩
  · -- `t` is the head of its queue
    have hhead : links.queues q = some t := hlinked'.1
    rw [if_pos hhead]
    refine ⟨_, rfl, rfl, fun q' => ?_, hdelete⟩
    dsimp only
    by_cases hne : q' = q
    · subst q'
      rw [Function.update_self, Function.update_self]
      exact (hhead ▸ hlinked').pop
    · rw [Function.update_of_ne hne, Function.update_of_ne hne,
        Linked.update_of_not_mem (hother q' hne)]
      exact hlinked q'
  · have hassoc : pre ++ [r] ++ t :: post = pre ++ r :: t :: post := by simp
    rw [List.concat_eq_append, hassoc] at hlinked' hlen
    have hhead : links.queues q ≠ some t := by
      intro hhd
      have hnd' := hlinked'.nodup
      cases pre with
      | nil =>
        have heq : t = r := Option.some.inj (hhd.symm.trans hlinked'.1)
        simp [heq] at hnd'
      | cons b pre =>
        have heq : t = b := Option.some.inj (hhd.symm.trans hlinked'.1)
        simp [heq] at hnd'
    have hpred : Links.predecessor links.next t core.created (links.queues q) = .ok r := by
      apply Links.predecessor_eq hlinked'
      simp at hlen
      omega
    rw [if_neg hhead, hpred]
    refine ⟨_, rfl, rfl, fun q' => ?_, hdelete⟩
    dsimp only
    by_cases hne : q' = q
    · subst q'
      rw [Function.update_self, List.concat_eq_append, List.append_assoc]
      exact hlinked'.unlink_after
    · have hr : r ∉ lists q' := by
        apply hplaced.disjoint (q := q) _ hne
        change r ∈ lists q
        rw [hl]
        simp
      rw [Function.update_of_ne hne, Linked.update_of_not_mem (hother q' hne),
        Linked.update_of_not_mem hr]
      exact hlinked q'

/-! ## Inserting -/

theorem Links.insertPoint_eq (core : Core) {next : TaskId → Option TaskId} (p : TaskId) :
    ∀ {fuel : Nat} {r : TaskId} {l : List TaskId}, Linked next (next r) l → l.length < fuel →
      ∃ pre x post, r :: l = pre ++ x :: post ∧ Links.insertPoint core next p fuel r = some x ∧
        r :: Lists.place core p l = pre ++ x :: p :: post
  | 0, _, _, _, hf => absurd hf (Nat.not_lt_zero _)
  | fuel + 1, r, [], h, _ => by
    refine ⟨[], r, [], rfl, ?_, rfl⟩
    unfold Links.insertPoint
    rw [h]
  | fuel + 1, r, n :: l, h, hf => by
    unfold Links.insertPoint Lists.place
    rw [h.1, List.orderedInsert]
    dsimp only
    by_cases hlt : (core.tcb p).priorityPreemption < (core.tcb n).priorityPreemption
    · rw [if_pos hlt, if_pos hlt]
      exact ⟨[], r, n :: l, rfl, rfl, rfl⟩
    · rw [if_neg hlt, if_neg hlt]
      obtain ⟨pre, x, post, hl, hpoint, hplace⟩ :=
        Links.insertPoint_eq core p h.2 (Nat.lt_of_succ_lt_succ hf)
      exact ⟨r :: pre, x, post, congrArg (r :: ·) hl, hpoint, congrArg (r :: ·) hplace⟩

theorem RepBut.insert (h : RepBut (some t) m a) (ht : t < a.core.created) :
    ∃ m', qInsertTask m t = .ok m' ∧ Rep m' (Lists.insert a t) := by
  obtain ⟨core, links⟩ := m
  obtain ⟨_, lists⟩ := a
  obtain ⟨rfl, hlinked, hplaced⟩ := h
  dsimp only at hlinked ht hplaced
  have hinsert : Placed (Lists.insert ⟨core, lists⟩ t) := hplaced.insert ht
  have hfree : ∀ q', t ∉ lists q' := fun q' hmem => ((hplaced.mem_iff q' t).mp hmem).2.2 rfl
  change ∃ m', Links.qInsertTask ⟨core, links⟩ t = .ok m' ∧ _
  unfold Links.qInsertTask Lists.insert at *
  dsimp only at hinsert ⊢
  generalize hq : queueOf (core.tcb t).status = q at *
  have hlen : (lists q).length ≤ core.created := hplaced.length_le q
  have hothers : ∀ q', Linked (Function.update links.next t (links.queues q)) (links.queues q')
      (lists q') := by
    intro q'
    rw [Linked.update_of_not_mem (hfree q')]
    exact hlinked q'
  cases hl : lists q with
  | nil =>
    have hhead : links.queues q = none := by simpa [hl] using hlinked q
    rw [hl] at hinsert
    rw [hhead]
    refine ⟨_, rfl, rfl, fun q' => ?_, hinsert⟩
    dsimp only
    by_cases hne : q' = q
    · subst q'
      rw [Function.update_self, Function.update_self]
      exact ⟨rfl, by simp⟩
    · rw [Function.update_of_ne hne, Function.update_of_ne hne, ← hhead]
      exact hothers q'
  | cons hd l =>
    have hlinked' : Linked links.next (links.queues q) (hd :: l) := hl ▸ hlinked q
    rw [hl] at hinsert
    rw [hlinked'.1]
    dsimp only
    by_cases hlt : (core.tcb t).priorityPreemption < (core.tcb hd).priorityPreemption
    · rw [if_pos hlt]
      refine ⟨_, rfl, rfl, fun q' => ?_, hinsert⟩
      dsimp only
      by_cases hne : q' = q
      · subst q'
        rw [Function.update_self, Function.update_self]
        have hplace : Lists.place core t (hd :: l) = t :: hd :: l := by
          unfold Lists.place
          rw [List.orderedInsert, if_pos hlt]
        rw [hplace, ← hlinked'.1]
        exact hlinked'.push (hl ▸ hfree q)
      · rw [Function.update_of_ne hne, Function.update_of_ne hne, ← hlinked'.1]
        exact hothers q'
    · rw [if_neg hlt]
      rw [hl] at hlen
      obtain ⟨pre, r, post, hsplit, hpoint, hplace⟩ := Links.insertPoint_eq core t hlinked'.2 hlen
      rw [hpoint]
      refine ⟨_, rfl, rfl, fun q' => ?_, hinsert⟩
      dsimp only
      by_cases hne : q' = q
      · subst q'
        have hplace' : Lists.place core t (hd :: l) = pre ++ r :: t :: post := by
          rw [← hplace]
          unfold Lists.place
          rw [List.orderedInsert, if_neg hlt]
        rw [Function.update_self, hplace']
        apply Linked.insert_after
        · rw [← hsplit]
          exact hlinked'
        · rw [← hsplit, ← hl]
          exact hfree q
      · have hr : r ∉ lists q' := by
          apply hplaced.disjoint (q := q) _ hne
          change r ∈ lists q
          rw [hl, hsplit]
          simp
        rw [Function.update_of_ne hne, Linked.update_of_not_mem hr,
          Linked.update_of_not_mem (hfree q')]
        exact hlinked q'

end Memory

/-! ## Walking -/

/-- One round of a queue loop, run on both structures, keeps them related and leaves
the part of the queue it has not reached yet in place. -/
def RoundRefines {β : Type} (q : Fin 4)
    (body : Mem Links × β → TaskId → Except Fault (Mem Links × β))
    (body' : Mem Lists × β → TaskId → Except Fault (Mem Lists × β)) : Prop :=
  ∀ m a b t pre l, Rep m a → a.queues q = pre ++ t :: l →
    ∃ m' a' b', body (m, b) t = .ok (m', b') ∧ body' (a, b) t = .ok (a', b') ∧ Rep m' a' ∧
      ∃ pre', a'.queues q = pre' ++ l

section Walk
variable {β : Type} {q : Fin 4} {body : Mem Links × β → TaskId → Except Fault (Mem Links × β)}
  {body' : Mem Lists × β → TaskId → Except Fault (Mem Lists × β)}

theorem walkFrom_refines (hround : RoundRefines q body body') (l : List TaskId) :
    ∀ fuel pre m a b, Rep m a → a.queues q = pre ++ l → l.length ≤ fuel →
      ∃ m' a' b', Links.walkFrom body fuel l.head? (m, b) = .ok (m', b') ∧
        Lists.walk body' l (a, b) = .ok (a', b') ∧ Rep m' a' := by
  induction l with
  | nil =>
    intro fuel pre m a b h _ _
    refine ⟨m, a, b, ?_, rfl, h⟩
    cases fuel <;> rfl
  | cons t l ih =>
    intro fuel pre m a b h hq hf
    cases fuel with
    | zero => simp at hf
    | succ fuel =>
      obtain ⟨m', a', b', hbody, hbody', hrep, pre', hq'⟩ := hround m a b t pre l h hq
      have hlinked : Linked m.queues.next (some t) (t :: l) := (hq ▸ h.linked q).suffix
      have hnext : m.queues.next t = l.head? := hlinked.2.head_eq
      obtain ⟨m₂, a₂, b₂, hwalk, hwalk', hrep₂⟩ :=
        ih fuel pre' m' a' b' hrep hq' (Nat.le_of_succ_le_succ hf)
      refine ⟨m₂, a₂, b₂, ?_, ?_, hrep₂⟩
      · simp only [List.head?_cons, Links.walkFrom, hbody, hnext, hwalk]
      · simp only [Lists.walk, hbody', hwalk']

theorem walk_refines {m : Mem Links} {a : Mem Lists} (hround : RoundRefines q body body') (b : β)
    (h : Rep m a) : ∃ m' a' b', walk body q (m, b) = .ok (m', b') ∧
      walk body' q (a, b) = .ok (a', b') ∧ Rep m' a' := by
  have hlen : (a.queues q).length ≤ m.core.created := h.core ▸ h.placed.length_le q
  obtain ⟨m', a', b', hwalk, hwalk', hrep⟩ :=
    walkFrom_refines hround (a.queues q) m.core.created [] m a b h rfl hlen
  rw [← (h.linked q).head_eq] at hwalk
  exact ⟨m', a', b', hwalk, hwalk', hrep⟩

end Walk

/-! ## The sections -/

section Sections
variable {m : Mem Links} {a : Mem Lists} {t : TaskId}

theorem requeue_refines (h : Rep m a) (ht : t < a.core.created) (f : Tcb → Tcb) :
    Refines (requeue m t f) (Lists.requeue a t f) := by
  obtain ⟨m₁, hdelete, h₁⟩ := h.delete ht
  have ht₁ : t < ((Lists.delete a t).setTcb t f).core.created := ht
  obtain ⟨m₂, hinsert, h₂⟩ := (h₁.setTcb_hole f).insert ht₁
  refine ⟨m₂, ?_, h₂⟩
  unfold requeue
  rw [hdelete]
  exact hinsert

theorem preemptRunningTask_refines (h : Rep m a) :
    Refines (preemptRunningTask m) (Lists.preempt a) := by
  have hround : RoundRefines (β := Unit) qReady preemptOne preemptOne := by
    intro m a b t pre l h hq
    unfold preemptOne
    dsimp only
    rw [h.core]
    split
    · exact ⟨_, _, _, rfl, rfl, h.setCore rfl fun _ => rfl, pre ++ [t], by simp [hq]⟩
    · exact ⟨_, _, _, rfl, rfl, h, pre ++ [t], by simp [hq]⟩
  obtain ⟨m', a', b', hwalk, hwalk', hrep⟩ := walk_refines hround () h
  have hlists := Lists.preemptRunningTask_eq a
  unfold preemptRunningTask at hlists ⊢
  rw [hwalk'] at hlists
  rw [hwalk]
  exact ⟨m', rfl, Except.ok.inj hlists ▸ hrep⟩

/-- Taking the task a loop has reached out of the queue leaves the tasks behind it there. -/
theorem Lists.requeue_rest {q : Fin 4} {pre l : List TaskId} {f : Tcb → Tcb} (h : Placed a)
    (hq : a.queues q = pre ++ t :: l) (hne : queueOf (f (a.core.tcb t)).status ≠ q) :
    (Lists.requeue a t f).queues q = pre ++ l := by
  have hst : queueOf (a.core.tcb t).status = q := ((h.mem_iff q t).mp (by simp [hq])).2.1
  have hnd := h.nodup q
  rw [hq] at hnd
  have herase : (pre ++ t :: l).erase t = pre ++ l := by
    rw [List.erase_append_right _ (fun hpre =>
      (List.nodup_append.mp hnd).2.2 t hpre t List.mem_cons_self rfl)]
    simp
  simp only [Lists.requeue, Lists.insert, Lists.delete, Mem.setTcb_core, Mem.setTcb_queues,
    Core.setTcb_tcb_self, Function.update_of_ne (Ne.symm hne), hst, Function.update_self, hq,
    herase]

theorem wakeOne_round : RoundRefines (β := Bool) qWaiting wakeOne wakeOne := by
  intro m a b t pre l h hq
  have ht : t < a.core.created := h.placed.lt_created (q := qWaiting) (by simp [hq])
  unfold wakeOne
  dsimp only
  rw [h.core]
  split
  · exact ⟨m, a, b, rfl, rfl, h, pre ++ [t], by simp [hq]⟩
  · split
    · obtain ⟨m', hm', hrep⟩ := requeue_refines h ht wakeUp
      rw [hm', Lists.requeue_eq]
      refine ⟨m', _, true, rfl, rfl, hrep, pre, Lists.requeue_rest h.placed hq ?_⟩
      change queueOf .ready ≠ qWaiting
      decide
    · split
      · exact ⟨_, _, b, rfl, rfl, h.setCore rfl fun _ => rfl, pre ++ [t], by simp [hq]⟩
      · exact ⟨m, a, b, rfl, rfl, h, pre ++ [t], by simp [hq]⟩

theorem decreaseTimeslice_refines (h : Rep m a) :
    Rep (decreaseTimeslice m) (decreaseTimeslice a) := by
  unfold decreaseTimeslice
  rw [h.head_eq qReady]
  cases head a.queues qReady with
  | none => exact h
  | some t =>
    have hset : ∀ n, Rep (m.setTcb t (.setTimeslice n)) (a.setTcb t (.setTimeslice n)) :=
      fun n => h.setTcb rfl
    dsimp only
    rw [h.core]
    split
    · rw [(hset _).core]
      split
      · exact (hset _).setCore rfl fun _ => rfl
      · exact hset _
    · exact h

theorem mrbTick_refines (h : Rep m a) : Refines (mrbTick m) (Lists.tick a) := by
  apply Refines.of_both (Lists.mrbTick_eq a)
  have h₁ : Rep (decreaseTimeslice (m.setCore fun core => { core with tick := core.tick + 1 }))
      (decreaseTimeslice (a.setCore fun core => { core with tick := core.tick + 1 })) :=
    decreaseTimeslice_refines (h.setCore rfl fun _ => rfl)
  unfold mrbTick
  dsimp only
  revert h₁
  generalize decreaseTimeslice (m.setCore fun core => { core with tick := core.tick + 1 }) = m₁
  generalize decreaseTimeslice (a.setCore fun core => { core with tick := core.tick + 1 }) = a₁
  intro h₁
  rw [h₁.core]
  split
  · obtain ⟨m₂, a₂, b, hwalk, hwalk', h₂⟩ := walk_refines wakeOne_round false
      (h₁.setCore (f := fun core => core.setWakeupTick (core.tick + wakeupSpan))
        (Core.setWakeupTick_created _ _) fun u => by rw [Core.setWakeupTick_tcb])
    rw [hwalk, hwalk']
    cases b with
    | true =>
      obtain ⟨m₃, hm₃, h₃⟩ := preemptRunningTask_refines h₂
      exact ⟨m₃, _, hm₃, Lists.preemptRunningTask_eq a₂, h₃⟩
    | false => exact ⟨m₂, a₂, rfl, rfl, h₂⟩
  · exact ⟨m₁, a₁, rfl, rfl, h₁⟩

theorem mrbCreateTask_refines (h : Rep m a) (priority : Option Int) (proc : ProcId) :
    Refines (mrbCreateTask m priority proc) (Lists.createTask a priority proc) := by
  apply Refines.of_both (Lists.mrbCreateTask_eq a priority proc)
  have hfresh : ∀ tcb, RepBut (some a.core.created)
      (m.setCore fun core => { core.setTcb a.core.created (fun _ => tcb) with
        created := a.core.created + 1 })
      (a.setCore fun core => { core.setTcb a.core.created (fun _ => tcb) with
        created := a.core.created + 1 }) :=
    fun tcb => ⟨by rw [Mem.setCore_core, Mem.setCore_core, h.core], h.linked, h.placed.fresh tcb⟩
  unfold mrbCreateTask
  dsimp only
  rw [h.core]
  obtain ⟨m₁, hm₁, h₁⟩ := (hfresh (mrbTaskInitContext proc
    (mrbTcbNew .ready (priority.getD defaultPriority)))).insert (Nat.lt_succ_self _)
  rw [hm₁, Lists.qInsertTask_eq]
  dsimp only [bind, Except.bind]
  split
  · obtain ⟨m₂, hm₂, h₂⟩ := preemptRunningTask_refines h₁
    exact ⟨m₂, _, hm₂, Lists.preemptRunningTask_eq _, h₂⟩
  · exact ⟨m₁, _, rfl, rfl, h₁⟩

theorem sleepMsImpl_refines (cfg : Config) (h : Rep m a) (ht : t < a.core.created) (ms : Int) :
    Refines (sleepMsImpl cfg m (some t) ms) (Lists.sleep cfg a t ms) := by
  apply Refines.of_both (Lists.sleepMsImpl_some cfg a t ms)
  obtain ⟨m₁, hdelete, h₁⟩ := h.delete ht
  have h₂ := h₁.setTcb_hole (fallAsleep cfg a.core ms)
  have hsec : ∀ {m₂ a₂}, RepBut (some t) m₂ a₂ → t < a₂.core.created →
      ∃ m' a', qInsertTask m₂ t = .ok m' ∧ qInsertTask a₂ t = .ok a' ∧ Rep m' a' := by
    intro m₂ a₂ hrep hlt
    obtain ⟨m', hm', hrep'⟩ := hrep.insert hlt
    exact ⟨m', _, hm', rfl, hrep'⟩
  unfold sleepMsImpl
  rw [hdelete, Lists.qDeleteTask_eq, h.core]
  dsimp only [bind, Except.bind]
  rw [h₂.core]
  split
  · exact hsec (h₂.setCore rfl fun _ => rfl) ht
  · exact hsec h₂ ht

theorem mrbResumeTask_refines (h : Rep m a) (ht : t < a.core.created) (flag : Bool) :
    Refines (mrbResumeTask m t flag) (Lists.resume a t flag) := by
  unfold mrbResumeTask
  cases flag with
  | false => exact requeue_refines h ht _
  | true =>
    obtain ⟨m₁, hm₁, h₁⟩ := preemptRunningTask_refines h
    have ht₁ : t < (Lists.preempt a).core.created := ht
    obtain ⟨m₂, hm₂, h₂⟩ := requeue_refines h₁ ht₁ (.setStatus .ready)
    refine ⟨m₂, ?_, h₂⟩
    simp only [if_true, hm₁]
    exact hm₂

theorem releaseWaitingOne_round (u : TaskId) :
    RoundRefines (β := Unit) qWaiting (releaseWaitingOne u) (releaseWaitingOne u) := by
  intro m a b t pre l h hq
  have ht : t < a.core.created := h.placed.lt_created (q := qWaiting) (by simp [hq])
  unfold releaseWaitingOne
  dsimp only
  rw [h.core]
  split
  · obtain ⟨m', hm', hrep⟩ := requeue_refines h ht wakeUp
    rw [hm', Lists.requeue_eq]
    refine ⟨m', _, (), rfl, rfl, hrep, pre, Lists.requeue_rest h.placed hq ?_⟩
    change queueOf .ready ≠ qWaiting
    decide
  · exact ⟨m, a, b, rfl, rfl, h, pre ++ [t], by simp [hq]⟩

theorem releaseSuspendedOne_round (u : TaskId) :
    RoundRefines (β := Unit) qSuspended (releaseSuspendedOne u) (releaseSuspendedOne u) := by
  intro m a b t pre l h hq
  unfold releaseSuspendedOne
  dsimp only
  rw [h.core]
  split
  · exact ⟨_, _, _, rfl, rfl, h.setTcb rfl, pre ++ [t], by simp [hq]⟩
  · exact ⟨m, a, b, rfl, rfl, h, pre ++ [t], by simp [hq]⟩

theorem releaseJoiners_refines (h : Rep m a) (u : TaskId) :
    Refines (releaseJoiners m u) (Lists.release a u) := by
  apply Refines.of_both (Lists.releaseJoiners_eq a u)
  obtain ⟨m₁, a₁, _, hwalk, hwalk', h₁⟩ := walk_refines (releaseWaitingOne_round u) () h
  obtain ⟨m₂, a₂, _, hwalk₂, hwalk₂', h₂⟩ := walk_refines (releaseSuspendedOne_round u) () h₁
  refine ⟨m₂, a₂, ?_, ?_, h₂⟩
  · unfold releaseJoiners
    rw [hwalk]
    change (walk (releaseSuspendedOne u) qSuspended (m₁, ())).bind (fun s => .ok s.1) = _
    rw [hwalk₂]
    rfl
  · unfold releaseJoiners
    rw [hwalk']
    change (walk (releaseSuspendedOne u) qSuspended (a₁, ())).bind (fun s => .ok s.1) = _
    rw [hwalk₂']
    rfl

theorem vmReturn_refines (h : Rep m a) (r : VmResult) : Rep (vmReturn m t r) (vmReturn a t r) := by
  have hset : Rep (m.setTcb t (storeResult r)) (a.setTcb t (storeResult r)) := h.setTcb rfl
  unfold vmReturn
  dsimp only
  split
  · exact hset.setCore rfl fun _ => rfl
  · exact hset

theorem afterVm_refines (h : Rep m a) : Rep (afterVm m t) (afterVm a t) := by
  unfold afterVm
  rw [h.core]
  cases a.core.exc with
  | none => exact h.setCore rfl fun _ => rfl
  | some e =>
    have hset : Rep (m.setTcb t (storeException e)) (a.setTcb t (storeException e)) := h.setTcb rfl
    exact hset.setCore rfl fun _ => rfl

theorem allQueuesEmpty_refines (h : Rep m a) : allQueuesEmpty m = allQueuesEmpty a := by
  unfold allQueuesEmpty
  rw [h.head_eq, h.head_eq, h.head_eq]

end Sections

/-! ## The machine -/

structure RepState (s : State Links) (b : State Lists) : Prop where
  mem : Rep s.mem b.mem
  pc : s.pc = b.pc

/-- Both machines refuse the action, stop with the same fault, or step to related states. -/
inductive Matches : Option (Except Fault (State Links)) → Option (Except Fault (State Lists)) →
    Prop where
  | disabled : Matches none none
  | fault (f : Fault) : Matches (some (.error f)) (some (.error f))
  | ok {s : State Links} {b : State Lists} : RepState s b → Matches (some (.ok s)) (some (.ok b))

section Machine
variable {cfg : Config} {m : Mem Links} {a : Mem Lists} {t : TaskId}

theorem Matches.move (h : Rep m a) (pc : Pc) : Matches (some (.ok ⟨m, pc⟩)) (some (.ok ⟨a, pc⟩)) :=
  .ok ⟨h, rfl⟩

/-- A section between two program points, where the second may depend on the result. -/
theorem Matches.of_section {x : Except Fault (Mem Links)} {y : Except Fault (Mem Lists)}
    {g : Mem Links → Pc} {k : Mem Lists → Pc} (h : Refines x a) (hy : y = .ok a)
    (hg : ∀ {m a}, Rep m a → g m = k a) :
    Matches (some (x.map fun m => ⟨m, g m⟩)) (some (y.map fun a => ⟨a, k a⟩)) := by
  obtain ⟨m, rfl, hrep⟩ := h
  subst hy
  exact .ok ⟨hrep, hg hrep⟩

theorem call_matches (h : Rep m a) (act : Act) : Matches (call m t act) (call a t act) := by
  have hcur : currentTask m t = currentTask a t := by
    unfold currentTask
    rw [h.core]
  have hpc : ∀ {m : Mem Links} {a : Mem Lists} (u : TaskId), Rep m a →
      resumePc m t u = resumePc a t u := by
    intro m a u hrep
    unfold resumePc
    rw [hrep.core]
  cases act with
  | tick => exact .disabled
  | run => exact .disabled
  | vmReturn r => exact .move (vmReturn_refines h r) _
  | createTask priority proc =>
    exact .of_section (mrbCreateTask_refines h priority proc) (Lists.mrbCreateTask_eq ..)
      fun _ => rfl
  | sleep arg => cases arg <;> exact .move h _
  | sleepMs arg => cases arg <;> exact .move h _
  | suspend u =>
    unfold call
    dsimp only
    rw [h.core]
    split
    · exact .move h _
    · exact .disabled
  | resume u =>
    unfold call
    dsimp only
    rw [h.core, hpc u h]
    split
    · exact .move h _
    · exact .disabled
  | terminate u =>
    unfold call
    dsimp only
    rw [h.core]
    split
    · exact .move h _
    · exact .disabled
  | join u =>
    unfold call
    dsimp only
    rw [h.core, hcur]
    split
    · exact .move h _
    · exact .disabled
  | pass =>
    unfold call
    dsimp only
    rw [hcur]
    exact .move (h.setTcb rfl) _
  | setPriority u priority =>
    unfold call
    dsimp only
    rw [h.core]
    split
    · exact .move (h.setTcb rfl) _
    · exact .disabled
  | stop u =>
    unfold call
    dsimp only
    rw [h.core]
    split
    · exact .move (h.setTcb rfl) _
    · exact .disabled
  | sandboxExecute u proc =>
    have hset : Rep (m.setTcb u (mrbSandboxExecute proc)) (a.setTcb u (mrbSandboxExecute proc)) :=
      h.setTcb (congrArg queueOf resetContext_wait.1)
    unfold call
    dsimp only
    rw [h.core, hpc u hset]
    split
    · exact .move hset _
    · exact .disabled
  | sandboxExecVmCode u proc =>
    have hset : Rep (m.setTcb u (mrbTaskInitContext proc)) (a.setTcb u (mrbTaskInitContext proc)) :=
      h.setTcb rfl
    unfold call
    dsimp only
    rw [h.core, hpc u hset]
    split
    · exact .move hset _
    · exact .disabled

theorem opStep_matches (h : Rep m a) {o : OpPc} (hw : Wf ⟨a, .op t o⟩) :
    Matches (some (opStep cfg m t o)) (some (opStep cfg a t o)) := by
  have hcur : currentTask m t = currentTask a t := by
    unfold currentTask
    rw [h.core]
  obtain ⟨ht, hc, ho⟩ := hw.pcOk
  cases o with
  | sleepEnter ms =>
    unfold opStep
    rw [h.head_eq]
    exact .move h _
  | sleepSection target ms =>
    cases target with
    | none => exact .fault .nullTask
    | some u =>
      exact .of_section (sleepMsImpl_refines cfg h ho.1 ms) (Lists.sleepMsImpl_some ..) fun _ => rfl
  | sleepForever =>
    unfold opStep
    rw [h.head_eq]
    exact .move h _
  | suspendTarget target =>
    cases target with
    | none => exact .fault .nullTask
    | some u =>
      unfold opStep
      rw [h.core]
      exact .move h _
  | suspendSection u =>
    exact .of_section (requeue_refines h ho.1 _) (Lists.requeue_eq ..) fun _ => rfl
  | setSwitching => exact .move (h.setCore rfl fun _ => rfl) _
  | resumeSection u flag =>
    exact .of_section (mrbResumeTask_refines h ho.1 flag) (Lists.mrbResumeTask_eq ..) fun _ => rfl
  | resumeTest u =>
    unfold opStep
    rw [h.core]
    exact .move h _
  | resumeCompare u =>
    unfold opStep
    rw [h.core]
    exact .move h _
  | resumeStore u => exact .move (h.setCore rfl fun _ => rfl) _
  | terminateSection u =>
    exact .of_section (requeue_refines h ho.1 _) (Lists.requeue_eq ..) fun _ => rfl
  | joinSection u =>
    have hlt : currentTask a t < a.core.created := by
      rw [currentTask_eq hc]
      exact ht
    unfold opStep mrbTaskJoin
    rw [hcur, h.core]
    exact .of_section (requeue_refines h hlt _) (Lists.requeue_eq ..) fun _ => rfl
  | passPriority =>
    unfold opStep
    rw [hcur]
    exact .move (h.setTcb rfl) _

theorem tasksRunStep_matches (h : Rep m a) {pc : Pc} (hw : Wf ⟨a, pc⟩) :
    Matches (tasksRunStep cfg m pc) (tasksRunStep cfg a pc) := by
  have hpc := hw.pcOk
  cases pc with
  | boot =>
    unfold tasksRunStep
    rw [allQueuesEmpty_refines h]
    exact .move h _
  | loop =>
    unfold tasksRunStep
    dsimp only
    rw [h.head_eq]
    split
    · exact .move h _
    · exact .move h _
  | chosen u =>
    have hready : (a.core.tcb u).status = .ready := hpc.2
    apply Matches.move (h.setTcb _)
    rw [Tcb.setStatus_status, hready, queueOf_running, queueOf_ready]
  | marked u =>
    have hc : Rep (m.setCore fun core => { core with c := some u })
        (a.setCore fun core => { core with c := some u }) := h.setCore rfl fun _ => rfl
    exact .move (hc.setTcb rfl) _
  | exec u => exact .disabled
  | op u o => exact .disabled
  | returned u => exact .move (afterVm_refines h) _
  | afterSlice u =>
    unfold tasksRunStep
    dsimp only
    rw [h.core]
    split
    · exact .of_section (requeue_refines h hpc.1 _) (Lists.requeue_eq ..) fun _ => rfl
    · split
      · rename_i hrunning
        apply Matches.move (h.setTcb _)
        rw [Tcb.setStatus_status, hrunning, queueOf_running, queueOf_ready]
      · exact .move h _
  | stoppedGap u =>
    have hnote : Rep (m.setCore noteException) (a.setCore noteException) := by
      apply h.setCore
      · unfold noteException
        split <;> rfl
      · intro v
        unfold noteException
        split <;> rfl
    refine .of_section (g := fun m => if cfg.schedulerExit && allQueuesEmpty m then .exited else .loop)
      (k := fun a => if cfg.schedulerExit && allQueuesEmpty a then .exited else .loop)
      (releaseJoiners_refines hnote u) (Lists.releaseJoiners_eq ..) fun hrep => ?_
    rw [allQueuesEmpty_refines hrep]
  | switchReady u =>
    exact .of_section (requeue_refines h hpc.1 _) (Lists.requeue_eq ..) fun _ => rfl
  | exited => exact .disabled

theorem step_matches (cfg : Config) {s : State Links} {b : State Lists} (h : RepState s b)
    (hw : Wf b) (act : Act) : Matches (step cfg s act) (step cfg b act) := by
  obtain ⟨m, pc⟩ := s
  obtain ⟨a, _⟩ := b
  obtain ⟨hrep, rfl⟩ := h
  dsimp only at hrep
  unfold step
  split
  · exact .of_section (g := fun _ => pc) (mrbTick_refines hrep) (Lists.mrbTick_eq a) fun _ => rfl
  · cases pc with
    | op t o => exact opStep_matches hrep hw
    | _ => exact tasksRunStep_matches hrep hw
  · cases pc with
    | boot =>
      exact .of_section (mrbCreateTask_refines hrep _ _) (Lists.mrbCreateTask_eq ..) fun _ => rfl
    | exec t => exact call_matches hrep _
    | _ => exact .disabled
  · cases pc with
    | exec t => exact call_matches hrep _
    | _ => exact .disabled

end Machine

/-! ## Runs -/

/-- The machine on lists, before `mrb_tasks_run` is called. -/
def bootLists : State Lists := ⟨⟨Core.init, fun _ => []⟩, .boot⟩

/-- What every pair of states reached in lockstep satisfies. -/
structure Related (s : State Links) (b : State Lists) : Prop extends RepState s b where
  wf : Wf b

theorem Related.boot : Related boot bootLists := ⟨⟨Rep.boot, rfl⟩, Wf.init⟩

section Lockstep
variable {cfg : Config} {s s' : State Links} {b : State Lists}

theorem Related.core (h : Related s b) : s.mem.core = b.mem.core := h.mem.core

theorem Related.head (h : Related s b) (q : Fin 4) :
    TaskQueues.head s.mem.queues q = (b.mem.queues q).head? := h.mem.head_eq q

theorem Related.step (h : Related s b) {a : Act} (hstep : Step cfg s a s') :
    ∃ b', Step cfg b a b' ∧ Related s' b' := by
  have hm := step_matches cfg h.toRepState h.wf a
  unfold Step at hstep
  rw [hstep] at hm
  generalize hb : Task.step cfg b a = x at hm
  cases hm with
  | ok hrep => exact ⟨_, hb, hrep, (Step.trans hb).wf h.wf⟩

theorem Related.fault {f : Fault} (h : Related s b) {a : Act}
    (hstep : Task.step cfg s a = some (.error f)) : Task.step cfg b a = some (.error f) := by
  have hm := step_matches cfg h.toRepState h.wf a
  rw [hstep] at hm
  generalize hb : Task.step cfg b a = x at hm
  cases hm with
  | fault f => rfl

/-- What the machine on lists can do, the source can do. -/
theorem Related.enabled {b' : State Lists} (h : Related s b) {a : Act} (hstep : Step cfg b a b') :
    ∃ s', Step cfg s a s' ∧ Related s' b' := by
  have hm := step_matches cfg h.toRepState h.wf a
  have hwf := hstep.trans.wf h.wf
  unfold Step at hstep
  rw [hstep] at hm
  generalize hs : Task.step cfg s a = x at hm
  cases hm with
  | ok hrep => exact ⟨_, hs, hrep, hwf⟩

theorem Related.run {Ok : State Links → Act → Prop} {Ok' : State Lists → Act → Prop}
    {as : List Act} (h : Related s b) (hok : ∀ s b a, Related s b → Ok s a → Ok' b a)
    (hrun : Run (Step cfg) Ok s as s') : ∃ b', Run (Step cfg) Ok' b as b' ∧ Related s' b' :=
  hrun.simulate h hok fun _ _ _ _ hrel hstep => hrel.step hstep

theorem Related.reach {Ok : State Links → Act → Prop} {as : List Act}
    (h : Run (Step cfg) Ok Task.boot as s) : ∃ b, Related s b := by
  have hall : ∀ (s : State Links) (b : State Lists) (a : Act), Related s b → Ok s a → True :=
    fun _ _ _ _ _ => trivial
  obtain ⟨b, _, hrel⟩ := Related.boot.run hall h
  exact ⟨b, hrel⟩

end Lockstep

end PicoRuby.Task
