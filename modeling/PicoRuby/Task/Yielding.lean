import Mathlib.Data.List.Infix
import PicoRuby.Task.DispatchOrder
import PicoRuby.Task.Preemption
import PicoRuby.Task.ReadyQueue

/-!
# What Task.pass does to its caller

`Task.pass` stores 1 in `priority_preemption` and never restores the priority of its caller. The caller is dispatched
behind the tasks that are at least as urgent only where 1 is its priority.
-/

namespace PicoRuby.Task

open Shared

set_option autoImplicit false

/-- The value 1 is the priority of `t`, whose next switch places it again, and no READY task with a priority of 1 or
less is behind that value. -/
def YieldsInOrder (core : Core) (t : TaskId) : Prop :=
  (core.tcb t).priority = 1 ∧ (core.tcb t).status ≠ .ready ∧
    ∀ u < core.created, (core.tcb u).status = .ready ∧ (core.tcb u).priority ≤ 1 → core.key u ≤ 1

instance (core : Core) (t : TaskId) : Decidable (YieldsInOrder core t) :=
  inferInstanceAs (Decidable (_ = _ ∧ _ ≠ _ ∧ ∀ u, u < core.created → (_ ∧ _ → _)))

section Condition
variable {Q : Type}

def PassYields (s : State Q) (a : Act) : Prop := a = .run → ∀ t ∈ s.pc.passing, YieldsInOrder s.mem.core t

instance (s : State Q) (a : Act) : Decidable (PassYields s a) := inferInstanceAs (Decidable (_ → ∀ t ∈ _, _))

end Condition

/-- `t` calls `Task.pass`: before it is dispatched again, every other READY task that is at least as urgent is, unless
it stops being READY, and from the end of the call on the priority of `t` is what `t` is placed by. -/
structure YieldsFairly (cfg : Config) (Ok : State Links → Act → Prop) (s : State Links) (t : TaskId) : Prop where
  others : ∀ (y : TaskId) (as : List Act) (s' s'' : State Links), y ≠ t → y < s.mem.core.created →
    (s.mem.core.tcb y).status = .ready → (s.mem.core.tcb y).priority ≤ (s.mem.core.tcb t).priority →
      Run (Step cfg) Ok s (.pass :: as) s' → s'.pc = .loop → Step cfg s' .run s'' → s''.pc = .chosen t →
        ∃ as₁ as₂ u, .pass :: as = as₁ ++ as₂ ∧ Run (Step cfg) Ok s as₁ u ∧ Run (Step cfg) Ok u as₂ s' ∧
          (u.pc = .chosen y ∨ (u.mem.core.tcb y).status ≠ .ready)
  priority : ∀ (as : List Act) (s' : State Links), (∀ q, .setPriority t q ∉ as) →
    Run (Step cfg) Ok s (.pass :: as) s' → s'.pc ≠ .op t .passPriority →
      s'.mem.core.key t = (s.mem.core.tcb t).priority

section Steps
variable {cfg : Config} {b b' : State Lists} {a : Act} {m : Mem Lists} {pc : Pc} {t u x y : TaskId}

/-! ## Keys -/

theorem PriorityEffect.key {w : Nat × Nat} (h : PriorityEffect m u pc a w) (hlt : u < m.core.created) :
    w.2 = m.core.key u ∨ w.2 = 1 ∧ pc = .op u .passPriority ∧ a = .run := by
  cases h with
  | same => exact Or.inl rfl
  | created heq => exact absurd heq (Nat.ne_of_lt hlt)
  | set => exact Or.inl rfl
  | pass => exact Or.inr ⟨rfl, rfl, rfl⟩

/-- Only `Task.pass` changes the key of a task, to 1. -/
theorem Trans.key_cases (h : Trans cfg b a b') (hw : Wf b) (hlt : u < b.mem.core.created) :
    b'.mem.core.key u = b.mem.core.key u ∨
      b'.mem.core.key u = 1 ∧ b.pc = .op u .passPriority ∧ a = .run := by
  obtain ⟨m, pc⟩ := b
  exact (h.priorityEffect hw u).key hlt

theorem Trans.key_le_one (h : Trans cfg b a b') (hw : Wf b) (hlt : u < b.mem.core.created)
    (hle : b.mem.core.key u ≤ 1) : b'.mem.core.key u ≤ 1 := by
  rcases h.key_cases hw hlt with heq | ⟨heq, -⟩
  · exact heq ▸ hle
  · exact heq.le

theorem Trans.key_one (h : Trans cfg b a b') (hw : Wf b) (hlt : u < b.mem.core.created)
    (hone : b.mem.core.key u = 1) : b'.mem.core.key u = 1 := by
  rcases h.key_cases hw hlt with heq | ⟨heq, -⟩
  · exact heq.trans hone
  · exact heq

/-! ## Urgent tasks come first -/

/-- `u` is where its key has placed it: neither RUNNING nor about to be placed again. -/
def Settled (b : State Lists) (u : TaskId) : Prop :=
  (b.mem.core.tcb u).status ≠ .running ∧ b.pc ≠ .switchReady u

/-- In front of a task with a key of 1 or less there are only such tasks. -/
def UrgentFirst (b : State Lists) : Prop :=
  (b.mem.queues qReady).Pairwise fun x y => Settled b y → b.mem.core.key y ≤ 1 → b.mem.core.key x ≤ 1

theorem suits_urgent {key : TaskId → Nat} {P : TaskId → Prop} {p : TaskId} :
    Suits key (fun x y => P y → key y ≤ 1 → key x ≤ 1) p := by
  refine ⟨fun a hle _ hp => hle.trans hp, fun c hlt _ hc => hlt.le.trans hc, fun c d hlt hcd hd hle => ?_⟩
  exact hlt.le.trans (hcd hd hle)

theorem Wf.running_lt (hw : Wf b) (hrun : (b.mem.core.tcb u).status = .running) : u < b.mem.core.created := by
  have hrunner := hw.runner u hrun
  have hpcOk := hw.pcOk
  obtain ⟨m, pc⟩ := b
  cases pc with
  | boot => cases hrunner
  | loop => cases hrunner
  | chosen t => cases hrunner
  | stoppedGap t => cases hrunner
  | switchReady t => cases hrunner
  | exited => cases hrunner
  | _ =>
    cases hrunner
    exact hpcOk.1

/-- The keys change, but not what is in front of what. -/
theorem Trans.urgent_keys (h : Trans cfg b a b') (hw : Wf b) (hok : PassYields b a) (hi : UrgentFirst b) :
    (b.mem.queues qReady).Pairwise fun x y => Settled b y → b'.mem.core.key y ≤ 1 → b'.mem.core.key x ≤ 1 := by
  refine hi.imp_of_mem fun {x y} hx hy hxy hsettled hle => ?_
  obtain ⟨hlt, hst⟩ := hw.mem_ready hy
  apply h.key_le_one hw (hw.mem_ready hx).1
  apply hxy hsettled
  rcases h.key_cases hw hlt with heq | ⟨-, hpc, hrun⟩
  · exact heq ▸ hle
  · have hyields : YieldsInOrder b.mem.core y := hok hrun y (by rw [hpc]; rfl)
    rcases hst with hst | hst
    · exact absurd hst hyields.2.1
    · exact absurd hst hsettled.1

/-- A task that comes to rest in a step has left the ready queue, or was switched from. -/
theorem Trans.settles (h : Trans cfg b a b') (hw : Wf b) (hu : u ∈ b.mem.queues qReady)
    (hu' : StaysReady b'.mem.core u) (hsettled : Settled b' u) : Settled b u ∨ b.pc = .switchReady u := by
  by_cases hpc : b.pc = .switchReady u
  · exact Or.inr hpc
  · refine Or.inl ⟨fun hrun => ?_, hpc⟩
    cases h.stays hw (hw.mem_ready hu) hu' with
    | same hst _ => exact hsettled.1 (hst.trans hrun)
    | mark _ hst _ => exact hsettled.1 hst
    | unmark _ hpc' _ => exact hsettled.2 hpc'
    | switch hpc' _ _ => exact hpc hpc'

theorem Trans.urgentFirst (h : Trans cfg b a b') (hw : Wf b) (hok : PassYields b a) (hi : UrgentFirst b) :
    UrgentFirst b' := by
  have hw' := h.wf hw
  have hkeys := h.urgent_keys hw hok hi
  by_cases hswitch : ∃ t, b.pc = .switchReady t ∧ b'.pc ≠ .switchReady t
  · -- the task that is placed again is the only one that was not settled
    obtain ⟨t, hpc, hpc'⟩ := hswitch
    obtain ⟨-, hqueue⟩ := h.switch_queue hw hpc hpc'
    have hready : (b.mem.core.tcb t).status = .ready := by
      have hpcOk := hw.pcOk
      rw [hpc] at hpcOk
      exact hpcOk.2
    have hnodup := hw.placed.nodup qReady
    have hothers : ((b.mem.queues qReady).erase t).Pairwise fun x y =>
        True → b'.mem.core.key y ≤ 1 → b'.mem.core.key x ≤ 1 := by
      refine (hkeys.sublist List.erase_sublist).imp_of_mem fun {x y} _ hy hxy _ => ?_
      obtain ⟨hne, hmem⟩ := hnodup.mem_erase_iff.mp hy
      refine hxy ⟨fun hrun => ?_, fun heq => ?_⟩
      · have hrunner := hw.runner y hrun
        rw [hpc] at hrunner
        cases hrunner
      · rw [hpc] at heq
        exact hne (Pc.switchReady.inj heq).symm
    unfold UrgentFirst
    rw [hqueue]
    refine (placeBy_pairwise (suits_urgent (P := fun _ => True)) hothers).imp ?_
    intro x y hxy _
    exact hxy trivial
  · have hall := (h.moves hw).pairwise (fun p _ => suits_urgent) hkeys
    refine hall.imp_of_mem fun {x y} _ hy hxy hsettled => hxy ?_
    by_cases hmem : y ∈ b.mem.queues qReady
    · rcases h.settles hw hmem (hw'.mem_ready hy) hsettled with hb | hpc
      · exact hb
      · exact absurd ⟨y, hpc, hsettled.2⟩ hswitch
    · -- a task from outside the ready queue
      refine ⟨fun hrun => ?_, fun hpc => ?_⟩
      · exact hmem (hw.placed.mem_ready_iff.mpr ⟨hw.running_lt hrun, Or.inr hrun⟩)
      · exact hswitch ⟨y, hpc, hsettled.2⟩

/-! ## After the call -/

/-- `y` is READY behind urgent tasks only, and the next place of `t` is behind it. -/
structure Overtaken (t y : TaskId) (b : State Lists) : Prop where
  created : t < b.mem.core.created
  ready : y < b.mem.core.created ∧ (b.mem.core.tcb y).status = .ready
  unswitched : b.pc ≠ .switchReady y
  key : b.mem.core.key t = 1 ∧ b.mem.core.key y ≤ 1
  front : (b.mem.queues qReady).Pairwise fun x z => z = y → b.mem.core.key x ≤ 1
  behind : b.pc.runner = some t ∧ (b.mem.core.tcb t).status = .running ∨ b.pc = .switchReady t ∨
    b.pc ≠ .chosen t ∧ (b.mem.queues qReady).Pairwise fun x z => z = y → x ≠ t

theorem suits_front {key : TaskId → Nat} {p : TaskId} (hne : p ≠ y) (hy : key y ≤ 1) :
    Suits key (fun x z => z = y → key x ≤ 1) p := by
  refine ⟨fun a _ heq => absurd heq hne, ?_, fun c d hlt hcd heq => hlt.le.trans (hcd heq)⟩
  rintro c hlt rfl
  exact hlt.le.trans hy

theorem suits_behind {key : TaskId → Nat} {p : TaskId} (hne : p ≠ y) (hy : key y ≤ 1) (ht : key t = 1) :
    Suits key (fun x z => z = y → key x ≤ 1 ∧ x ≠ t) p := by
  have hbelow : ∀ n, key p < n → n ≤ 1 → key p ≤ 1 ∧ p ≠ t := by
    intro n hlt hle
    refine ⟨by omega, ?_⟩
    rintro rfl
    omega
  refine ⟨fun a _ heq => absurd heq hne, ?_, fun c d hlt hcd heq => hbelow _ hlt (hcd heq).1⟩
  rintro c hlt rfl
  exact hbelow _ hlt hy

/-- Where `t` is not in front of `y`, it is not the head. -/
theorem head_ne_of_behind {l : List TaskId} (h : l.Pairwise fun x z => z = y → x ≠ t) (hy : y ∈ l) (hne : y ≠ t) :
    l.head? ≠ some t := by
  cases l with
  | nil => exact fun hhead => nomatch hhead
  | cons x l =>
    intro hhead
    cases hhead
    have hmem := (List.mem_cons.mp hy).resolve_left hne
    exact (List.pairwise_cons.mp h).1 y hmem rfl rfl

theorem behind_of_not_mem {l : List TaskId} (ht : t ∉ l) : l.Pairwise fun x z => z = y → x ≠ t := by
  apply List.pairwise_of_forall_mem_list
  intro x hx z _ _ heq
  exact ht (heq ▸ hx)

theorem Overtaken.mem (ho : Overtaken t y b) (hw : Wf b) : y ∈ b.mem.queues qReady :=
  hw.placed.mem_ready_iff.mpr ⟨ho.ready.1, Or.inl ho.ready.2⟩

/-- The slice of `t` goes on, `t` is about to be placed again, or it has left the ready queue. -/
theorem Trans.behind_of_running (h : Trans cfg b a b') (hw : Wf b) (ht : t < b.mem.core.created)
    (hrunner : b.pc.runner = some t) (hrun : (b.mem.core.tcb t).status = .running) :
    b'.pc.runner = some t ∧ (b'.mem.core.tcb t).status = .running ∨ b'.pc = .switchReady t ∨
      b'.pc ≠ .chosen t ∧ (b'.mem.queues qReady).Pairwise fun x z => z = y → x ≠ t := by
  by_cases hrun' : (b'.mem.core.tcb t).status = .running
  · exact Or.inl ⟨h.runner hrunner hrun', hrun'⟩
  · by_cases hmem : t ∈ b'.mem.queues qReady
    · cases h.stays hw ⟨ht, Or.inr hrun⟩ ((h.wf hw).mem_ready hmem) with
      | same hst _ => exact absurd (hst.trans hrun) hrun'
      | mark _ hst _ => exact absurd hst hrun'
      | unmark _ hpc' _ => exact Or.inr (Or.inl hpc')
      | switch hpc' _ _ =>
        rw [hpc'] at hrunner
        cases hrunner
    · refine Or.inr (Or.inr ⟨fun heq => ?_, behind_of_not_mem hmem⟩)
      rcases h.chosen_cases heq with hpc' | ⟨hpc', -⟩
      · rw [hpc'] at hrunner
        cases hrunner
      · rw [hpc'] at hrunner
        cases hrunner

/-- The switch places `t` behind `y`. -/
theorem Trans.behind_of_switch (h : Trans cfg b a b') (hw : Wf b) (hne : y ≠ t) (hpc : b.pc = .switchReady t)
    (hpc' : b'.pc ≠ .switchReady t) (hkt : b'.mem.core.key t = 1) (hky : b'.mem.core.key y ≤ 1)
    (hkeys : (b.mem.queues qReady).Pairwise fun x z => z = y → b'.mem.core.key x ≤ 1) :
    b'.pc = .loop ∧ (b'.mem.queues qReady).Pairwise fun x z => z = y → x ≠ t := by
  obtain ⟨hloop, hqueue⟩ := h.switch_queue hw hpc hpc'
  have hothers : ((b.mem.queues qReady).erase t).Pairwise fun x z => z = y → b'.mem.core.key x ≤ 1 ∧ x ≠ t := by
    refine (hkeys.sublist List.erase_sublist).imp_of_mem fun {x z} hx _ hxz heq => ⟨hxz heq, ?_⟩
    exact ((hw.placed.nodup qReady).mem_erase_iff.mp hx).1
  refine ⟨hloop, ?_⟩
  rw [hqueue]
  exact (placeBy_pairwise (suits_behind hne.symm hky hkt) hothers).imp fun hxz heq => (hxz heq).2

theorem Trans.overtaken (h : Trans cfg b a b') (hw : Wf b) (hne : y ≠ t) (hnot : b.pc ≠ .chosen y)
    (hready' : (b'.mem.core.tcb y).status = .ready) (ho : Overtaken t y b) : Overtaken t y b' := by
  have hkeep : KeepsReady b b' y := ⟨ho.ready.1, ho.ready.2, hready', ho.unswitched⟩
  have hmoved : ∀ p, ¬ KeepsReady b b' p → p ≠ y := by
    rintro p hp rfl
    exact hp hkeep
  have hkt := h.key_one hw ho.created ho.key.1
  have hky := h.key_le_one hw ho.ready.1 ho.key.2
  have hkeys : (b.mem.queues qReady).Pairwise fun x z => z = y → b'.mem.core.key x ≤ 1 := by
    refine ho.front.imp_of_mem fun {x z} hx _ hxz heq => ?_
    exact h.key_le_one hw (hw.mem_ready hx).1 (hxz heq)
  refine ⟨h.created_mono ho.created, ⟨h.created_mono ho.ready.1, hready'⟩, fun hpc => ?_, ⟨hkt, hky⟩,
    (h.moves hw).pairwise (fun p hp => suits_front (hmoved p hp) hky) hkeys, ?_⟩
  · rcases h.switchReady_cases hpc with hpc' | hrun
    · exact ho.unswitched hpc'
    · exact absurd (ho.ready.2.symm.trans hrun) TaskStatus.noConfusion
  · rcases ho.behind with ⟨hrunner, hrun⟩ | hpc | ⟨hpc, hbehind⟩
    · exact h.behind_of_running hw ho.created hrunner hrun
    · by_cases hpc' : b'.pc = .switchReady t
      · exact Or.inr (Or.inl hpc')
      · obtain ⟨hloop, hnext⟩ := h.behind_of_switch hw hne hpc hpc' hkt hky hkeys
        refine Or.inr (Or.inr ⟨?_, hnext⟩)
        rw [hloop]
        exact nofun
    · refine Or.inr (Or.inr ⟨fun heq => ?_, ?_⟩)
      · rcases h.chosen_cases heq with hpc' | ⟨-, hhead⟩
        · exact hpc hpc'
        · exact head_ne_of_behind hbehind (ho.mem hw) hne hhead
      · have hboth : (b.mem.queues qReady).Pairwise fun x z => z = y → b'.mem.core.key x ≤ 1 ∧ x ≠ t :=
          (hkeys.and hbehind).imp fun hxz heq => ⟨hxz.1 heq, hxz.2 heq⟩
        have hnext := (h.moves hw).pairwise (fun p hp => suits_behind (hmoved p hp) hky hkt) hboth
        exact hnext.imp fun hxz heq => (hxz heq).2

/-! ## The call -/

/-- `t` is about to store its new value, and `y` is READY and at least as urgent. -/
structure Passing (t y : TaskId) (b : State Lists) : Prop where
  pc : b.pc = .op t .passPriority
  ready : y < b.mem.core.created ∧ (b.mem.core.tcb y).status = .ready
  urgent : (b.mem.core.tcb y).priority ≤ (b.mem.core.tcb t).priority

theorem Trans.passing_cases (h : Trans cfg ⟨m, .op t .passPriority⟩ a b') (hw : Wf ⟨m, .op t .passPriority⟩) :
    a = .tick ∧ b'.pc = .op t .passPriority ∨ a = .run ∧ b' = ⟨m.setTcb t Task.passPriority, .exec t⟩ := by
  cases h with
  | tick => exact Or.inl ⟨rfl, rfl⟩
  | silent hsilent => cases hsilent
  | passPriority =>
    have hcur : currentTask m t = t := currentTask_eq hw.pcOk.2.1
    rw [hcur]
    exact Or.inr ⟨rfl, rfl⟩

theorem Trans.tick_priority (h : Trans cfg b .tick b') (hw : Wf b) (u : TaskId) :
    (b'.mem.core.tcb u).priority = (b.mem.core.tcb u).priority := by
  obtain ⟨m, pc⟩ := b
  have heffect := h.priorityEffect hw u
  generalize hnext : (b'.mem.core.tcb u).priorities = w at heffect
  cases heffect with
  | same => exact congrArg Prod.fst hnext

/-- The store replaces a key by the priority that it is. -/
theorem Trans.passed_key {p : Nat} (h : Trans cfg b a b') (hw : Wf b) (hok : PassYields b a)
    (hlt : t < b.mem.core.created)
    (hb : b.pc = .op t .passPriority ∧ (b.mem.core.tcb t).priority = p ∨ b.mem.core.key t = 1 ∧ p = 1) :
    b'.pc = .op t .passPriority ∧ (b'.mem.core.tcb t).priority = p ∨ b'.mem.core.key t = 1 ∧ p = 1 := by
  rcases hb with ⟨hpass, hpriority⟩ | ⟨hkey, hone⟩
  · obtain ⟨m, pc⟩ := b
    cases hpass
    rcases h.passing_cases hw with ⟨rfl, hpass'⟩ | ⟨rfl, rfl⟩
    · exact Or.inl ⟨hpass', (h.tick_priority hw t).trans hpriority⟩
    · refine Or.inr ⟨?_, hpriority.symm.trans (hok rfl t rfl).1⟩
      unfold Core.key
      rw [Mem.setTcb_core, Core.setTcb_tcb_self]
      rfl
  · exact Or.inr ⟨h.key_one hw hlt hkey, hone⟩

/-- Behind the store, `t` is overtaken. -/
theorem YieldsInOrder.overtaken (hyields : YieldsInOrder m.core t) (hw : Wf ⟨m, .op t .passPriority⟩)
    (hi : UrgentFirst ⟨m, .op t .passPriority⟩) (hp : Passing t y ⟨m, .op t .passPriority⟩) :
    Overtaken t y ⟨m.setTcb t passPriority, .exec t⟩ := by
  obtain ⟨hone, hnot, hothers⟩ := hyields
  obtain ⟨hready, hst⟩ := hp.ready
  have hne : y ≠ t := by
    rintro rfl
    exact hnot hst
  have hky : m.core.key y ≤ 1 := hothers y hready ⟨hst, hone ▸ hp.urgent⟩
  have hself : (m.setTcb t passPriority).core.tcb t = passPriority (m.core.tcb t) := by
    rw [Mem.setTcb_core, Core.setTcb_tcb_self]
  have hother : ∀ u, u ≠ t → (m.setTcb t passPriority).core.tcb u = m.core.tcb u := by
    intro u hu
    rw [Mem.setTcb_core, Core.setTcb_tcb, if_neg hu]
  have hkt : (m.setTcb t passPriority).core.key t = 1 := congrArg Tcb.priorityPreemption hself
  have hsame : ∀ u, u ≠ t → (m.setTcb t passPriority).core.key u = m.core.key u :=
    fun u hu => congrArg Tcb.priorityPreemption (hother u hu)
  have hfront : (m.queues qReady).Pairwise fun x z => z = y → (m.setTcb t passPriority).core.key x ≤ 1 := by
    refine hi.imp ?_
    rintro x z hxz rfl
    by_cases hx : x = t
    · rw [hx, hkt]
    · rw [hsame x hx]
      exact hxz ⟨fun hrun => TaskStatus.noConfusion (hst.symm.trans hrun), nofun⟩ hky
  refine ⟨hw.pcOk.1, ⟨hready, (congrArg Tcb.status (hother y hne)).trans hst⟩, nofun, ⟨hkt, (hsame y hne).trans_le hky⟩,
    hfront, ?_⟩
  by_cases hrun : (m.core.tcb t).status = .running
  · exact Or.inl ⟨rfl, (congrArg Tcb.status hself).trans hrun⟩
  · have hmem : t ∉ m.queues qReady := by
      intro hmem
      rcases (hw.mem_ready hmem).2 with hst | hst
      · exact hnot hst
      · exact hrun hst
    exact Or.inr (Or.inr ⟨nofun, behind_of_not_mem hmem⟩)

/-- `y` has been dispatched, or is not READY any more. -/
def Served {Q : Type} (y : TaskId) (s : State Q) : Prop := s.pc = .chosen y ∨ (s.mem.core.tcb y).status ≠ .ready

theorem Trans.after_pass (h : Trans cfg b a b') (hw : Wf b) (hok : PassYields b a) (hi : UrgentFirst b) (hne : y ≠ t)
    (hnot : ¬ Served y b) (hnot' : ¬ Served y b') (hb : Passing t y b ∨ Overtaken t y b) :
    Passing t y b' ∨ Overtaken t y b' := by
  have hready' : (b'.mem.core.tcb y).status = .ready := not_not.mp (not_or.mp hnot').2
  rcases hb with hpass | hover
  · obtain ⟨m, pc⟩ := b
    cases hpass.pc
    rcases h.passing_cases hw with ⟨rfl, hpc⟩ | ⟨rfl, rfl⟩
    · refine Or.inl ⟨hpc, ⟨h.created_mono hpass.ready.1, hready'⟩, ?_⟩
      rw [h.tick_priority hw, h.tick_priority hw]
      exact hpass.urgent
    · exact Or.inr ((hok rfl t rfl).overtaken hw hi hpass)
  · exact Or.inr (h.overtaken hw hne (not_or.mp hnot).1 hready' hover)

theorem Overtaken.not_head (ho : Overtaken t y b) (hw : Wf b) (hne : y ≠ t) (hpc : b.pc = .loop) :
    (b.mem.queues qReady).head? ≠ some t := by
  rcases ho.behind with ⟨hrunner, -⟩ | hswitch | ⟨-, hbehind⟩
  · rw [hpc] at hrunner
    cases hrunner
  · rw [hpc] at hswitch
    cases hswitch
  · exact head_ne_of_behind hbehind (ho.mem hw) hne

/-- The call of `Task.pass`. -/
theorem Step.pass_eq {b' : State Lists} (h : Step cfg ⟨m, .exec t⟩ .pass b') :
    b' = ⟨m.setTcb (currentTask m t) (.setTimeslice 0), .op t .passPriority⟩ := by
  cases h
  rfl

end Steps

/-! ## Every run -/

section Runs
variable {cfg : Config} {s s' s'' : State Links} {b b' : State Lists} {as : List Act} {t y : TaskId}

theorem run_urgentFirst (h : Run (Step cfg) PassYields bootLists as b) : Wf b ∧ UrgentFirst b :=
  Wf.init.run_invariant h (fun _ _ _ hw hi hok ht => ht.urgentFirst hw hok hi) List.Pairwise.nil

theorem Wf.passing (hw : Wf b) (hpc : b.pc = .exec t) (hy : y < b.mem.core.created ∧ (b.mem.core.tcb y).status = .ready)
    (hle : (b.mem.core.tcb y).priority ≤ (b.mem.core.tcb t).priority) (h : Step cfg b .pass b') : Passing t y b' := by
  obtain ⟨m, pc⟩ := b
  cases hpc
  rw [h.pass_eq, currentTask_eq hw.pcOk.2]
  have hsame : ∀ u, ((m.setTcb t (.setTimeslice 0)).core.tcb u).status = (m.core.tcb u).status ∧
      ((m.setTcb t (.setTimeslice 0)).core.tcb u).priority = (m.core.tcb u).priority := by
    intro u
    rw [Mem.setTcb_core, Core.setTcb_tcb]
    split
    · rename_i hu
      rw [hu]
      exact ⟨rfl, rfl⟩
    · exact ⟨rfl, rfl⟩
  refine ⟨rfl, ⟨hy.1, (hsame y).1.trans hy.2⟩, ?_⟩
  rw [(hsame y).2, (hsame t).2]
  exact hle

/-- As long as `y` waits for its turn, it comes before `t`. -/
theorem Wf.run_pass (hw : Wf b) (hi : UrgentFirst b) (hne : y ≠ t) (hpc : b.pc = .exec t)
    (hy : y < b.mem.core.created ∧ (b.mem.core.tcb y).status = .ready)
    (hle : (b.mem.core.tcb y).priority ≤ (b.mem.core.tcb t).priority)
    (h : Run (Step cfg) (fun s a => PassYields s a ∧ ¬ Served y s) b (.pass :: as) b') :
    Wf b' ∧ (¬ Served y b' → Passing t y b' ∨ Overtaken t y b') := by
  obtain ⟨c, hok, hstep, hrun⟩ := h.cons_inv
  have hinit : UrgentFirst c ∧ (¬ Served y c → Passing t y c ∨ Overtaken t y c) :=
    ⟨hstep.trans.urgentFirst hw hok.1 hi, fun _ => Or.inl (hw.passing hpc hy hle hstep)⟩
  obtain ⟨hw', -, hafter⟩ := (hstep.trans.wf hw).run_invariant (I := fun c => UrgentFirst c ∧
      (¬ Served y c → Passing t y c ∨ Overtaken t y c)) hrun
    (fun c a c' hc hI hok ht => ⟨ht.urgentFirst hc hok.1 hI.1, fun hnot =>
      ht.after_pass hc hok.1 hI.1 hne hok.2 hnot (hI.2 hok.2)⟩) hinit
  exact ⟨hw', hafter⟩

/-- The value that `t` is placed by, from the end of the call on. -/
theorem Wf.run_key (hw : Wf b) (hpc : b.pc = .exec t) (h : Run (Step cfg) PassYields b (.pass :: as) b')
    (hpc' : b'.pc ≠ .op t .passPriority) : b'.mem.core.key t = (b.mem.core.tcb t).priority := by
  obtain ⟨m, pc⟩ := b
  cases hpc
  obtain ⟨c, -, hstep, hrun⟩ := h.cons_inv
  have hlt : t < c.mem.core.created := hstep.trans.created_mono hw.pcOk.1
  have hstart : c.pc = .op t .passPriority ∧ (c.mem.core.tcb t).priority = (m.core.tcb t).priority := by
    rw [hstep.pass_eq, currentTask_eq hw.pcOk.2, Mem.setTcb_core, Core.setTcb_tcb_self]
    exact ⟨rfl, rfl⟩
  obtain ⟨-, -, hend⟩ := (hstep.trans.wf hw).run_invariant (I := fun c => t < c.mem.core.created ∧
      (c.pc = .op t .passPriority ∧ (c.mem.core.tcb t).priority = (m.core.tcb t).priority ∨
        c.mem.core.key t = 1 ∧ (m.core.tcb t).priority = 1)) hrun
    (fun c a c' hc hI hok ht => ⟨ht.created_mono hI.1, ht.passed_key hc hok hI.1 hI.2⟩) ⟨hlt, Or.inl hstart⟩
  rcases hend with ⟨hpass, -⟩ | ⟨hkey, hone⟩
  · exact absurd hpass hpc'
  · exact hkey.trans hone.symm

theorem passYields_related (s : State Links) (b : State Lists) (a : Act) (h : Related s b)
    (hok : PassYields s a) : PassYields b a := by
  unfold PassYields at hok ⊢
  rw [← h.pc, ← h.core]
  exact hok

theorem Related.not_dispatched_again (h : Related s b) (hi : UrgentFirst b) (hne : y ≠ t) (hpc : s.pc = .exec t)
    (hy : y < s.mem.core.created ∧ (s.mem.core.tcb y).status = .ready)
    (hle : (s.mem.core.tcb y).priority ≤ (s.mem.core.tcb t).priority)
    (hrun : Run (Step cfg) (fun s a => PassYields s a ∧ ¬ Served y s) s (.pass :: as) s') (hnot : ¬ Served y s')
    (hpc' : s'.pc = .loop) (hstep : Step cfg s' .run s'') : s''.pc ≠ .chosen t := by
  intro hdispatch
  have hserved : ∀ (s : State Links) (b : State Lists), Related s b → (Served y s ↔ Served y b) := by
    intro s b hr
    unfold Served
    rw [hr.pc, hr.core]
  rw [h.core] at hy hle
  have hside : ∀ (s : State Links) (b : State Lists) (a : Act), Related s b →
      PassYields s a ∧ ¬ Served y s → PassYields b a ∧ ¬ Served y b :=
    fun s b a hr hok => ⟨passYields_related s b a hr hok.1, fun hb => hok.2 ((hserved s b hr).mpr hb)⟩
  obtain ⟨b', hrun', hrel⟩ := h.run hside hrun
  have hbpc : b'.pc = .loop := hrel.pc ▸ hpc'
  obtain ⟨hw', hafter⟩ := h.wf.run_pass hi hne (h.pc ▸ hpc) hy hle hrun'
  have hhead := head_of_dispatch hpc' hstep hdispatch
  rw [hrel.head] at hhead
  rcases hafter fun hb => hnot ((hserved s' b' hrel).mpr hb) with hpass | hover
  · rw [hpass.pc] at hbpc
    cases hbpc
  · exact hover.not_head hw' hne hbpc hhead

/-- **`Task.pass` yields** in every run in which 1 is the priority of each of its callers. -/
theorem yieldsFairly_of_run (h : Run (Step cfg) PassYields boot as s) (hpc : s.pc = .exec t) :
    YieldsFairly cfg PassYields s t := by
  obtain ⟨b, hrun, hrel⟩ := Related.boot.run passYields_related h
  have hi := (run_urgentFirst hrun).2
  constructor
  · intro y bs s' s'' hne hlt hready hle hseg hpc' hstep hdispatch
    rcases hseg.visits_or_avoids (Served y) with hvisit | ⟨havoid, hnot⟩
    · exact hvisit
    · exact absurd hdispatch (hrel.not_dispatched_again hi hne hpc ⟨hlt, hready⟩ hle havoid hnot hpc' hstep)
  · intro bs s' _ hseg hpc'
    obtain ⟨b', hseg', hrel'⟩ := hrel.run passYields_related hseg
    rw [hrel.core, hrel'.core]
    exact hrel.wf.run_key (hrel.pc ▸ hpc) hseg' (hrel'.pc ▸ hpc')

end Runs

/-- Two tasks of priority 1; the first executes. -/
def equalUrgency : List Act := [.createTask (some 1) 0, .createTask (some 1) 1, .run, .run, .run, .run]

theorem yieldsFairly_of_equalUrgency : ∃ s, Run (Step Config.hal) PassYields boot equalUrgency s ∧
    YieldsFairly Config.hal PassYields s 0 := by
  have hplay : ∃ s, play Config.hal PassYields boot equalUrgency = some s ∧ s.pc = .exec 0 := ⟨_, rfl, rfl⟩
  obtain ⟨s, hs, hpc⟩ := hplay
  exact ⟨s, run_of_play hs, yieldsFairly_of_run (run_of_play hs) hpc⟩

/-- The rest of a slice that ends with `Task.pass`, and the switch. -/
def passAndSwitch : List Act := [.pass, .run, .vmReturn ⟨.yielded, 0, 0, []⟩, .run, .run, .run]

/-- Of two tasks of default priority, the caller of `Task.pass` is dispatched again at once. -/
theorem yieldsFairly_fails : ¬ ∀ (as : List Act) (s : State Links) (t : TaskId),
    Run (Step Config.hal) (fun _ _ => True) boot as s → s.pc = .exec t →
      YieldsFairly Config.hal (fun _ _ => True) s t := by
  intro hall
  have hslice : (play Config.hal (fun _ _ => True) boot firstSlice).all fun s => s.pc = .exec 0 ∧
      1 < s.mem.core.created ∧ (s.mem.core.tcb 1).status = .ready ∧
        (s.mem.core.tcb 1).priority ≤ (s.mem.core.tcb 0).priority := by decide +kernel
  have hwaits : passAndSwitch.inits.all fun as => (play Config.hal (fun _ _ => True) boot (firstSlice ++ as)).all
      fun u => u.pc ≠ .chosen 1 ∧ (u.mem.core.tcb 1).status = .ready := by decide +kernel
  have hloop : (play Config.hal (fun _ _ => True) boot (firstSlice ++ passAndSwitch)).all
      fun s => s.pc = .loop := by decide +kernel
  have hagain : ∃ s, play Config.hal (fun _ _ => True) boot (firstSlice ++ passAndSwitch ++ [.run]) = some s ∧
      s.pc = .chosen 0 := Option.map_eq_some_iff.mp (by decide +kernel)
  obtain ⟨s'', hs'', hdispatch⟩ := hagain
  obtain ⟨s', hrun', -, hstep⟩ := (run_of_play hs'').snoc_inv
  rw [play_of_run hrun'] at hloop
  obtain ⟨s, hslices, hpass⟩ := hrun'.append_inv
  rw [play_of_run hslices] at hslice
  obtain ⟨hpc, hlt, hready, hle⟩ := of_decide_eq_true hslice
  obtain ⟨as₁, as₂, u, heq, hrun, -, hserved⟩ := (hall _ s 0 hslices hpc).others 1 _ s' s'' (by decide) hlt hready hle
    hpass (of_decide_eq_true hloop) hstep hdispatch
  have hinit : as₁ ∈ passAndSwitch.inits := (List.mem_inits as₁ _).mpr ⟨as₂, heq.symm⟩
  have hu := List.all_eq_true.mp hwaits as₁ hinit
  rw [play_of_run (hslices.trans hrun)] at hu
  obtain ⟨hnot, hstill⟩ := of_decide_eq_true hu
  rcases hserved with hchosen | hserved
  · exact hnot hchosen
  · exact hserved hstill

end PicoRuby.Task
