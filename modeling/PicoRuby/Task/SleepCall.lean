import PicoRuby.Task.Refinement

/-!
# The task a sleep puts to sleep

`sleep_ms_impl` and `mrb_sleep` take the head of the ready queue for the current
task, and read it before interrupts are disabled. The call hits its caller exactly
when the caller is at the head at that moment; ticks after the read change nothing.
-/

namespace PicoRuby.Task

open Shared

set_option autoImplicit false

/-! ## The call -/

/-- The points at which `sleep` and `sleep_ms` are about to read `q_ready_`. -/
def OpPc.sleepEntry : OpPc → Bool
  | .sleepEnter _ | .sleepForever => true
  | _ => false

/-- What the call is to make of its caller. -/
def FellAsleep (tcb : Tcb) : OpPc → Prop
  | .sleepEnter _ => tcb.status = .waiting ∧ tcb.reason = .sleep
  | _ => tcb.status = .suspended

section Call
variable {Q : Type} [TaskQueues Q]

/-- The call goes on: its own code, or a tick. -/
def InCall (c : TaskId) (s : State Q) (a : Act) : Prop :=
  (∃ o, s.pc = .op c o) ∧ (a = .run ∨ a = .tick)

/-- A step of the call's own code, entered at `o`, changes the status of no task but
`c`, leaves `c` asleep behind its critical section, and does not return before it. -/
structure OwnStep (c : TaskId) (o : OpPc) (s s' : State Q) : Prop where
  others : ∀ u, u ≠ c → (s'.mem.core.tcb u).status = (s.mem.core.tcb u).status
  asleep : s'.pc = .op c .setSwitching → FellAsleep (s'.mem.core.tcb c) o
  returns : s'.pc = .exec c → s.pc = .op c .setSwitching

/-- From the read of `q_ready_` on, whatever the ticks do, the call puts `c` to sleep
and changes the status of no other task. -/
def PutsToSleep (cfg : Config) (c : TaskId) (o : OpPc) (s : State Q) : Prop :=
  ∃ s₁, Step cfg s .run s₁ ∧ OwnStep c o s s₁ ∧
    ∀ (as : List Act) (s₂ : State Q), Run (Step cfg) (InCall c) s₁ as s₂ →
      (∃ o', s₂.pc = .op c o') → ∃ s₃, Step cfg s₂ .run s₃ ∧ OwnStep c o s₂ s₃

end Call

/-! ## A call aimed at its caller -/

/-- READY or RUNNING; no tick changes that. -/
def Active (core : Core) (t : TaskId) : Prop :=
  (core.tcb t).status = .ready ∨ (core.tcb t).status = .running

theorem Active.tick {m : Mem Lists} {t : TaskId} (h : Active m.core t) (hp : Placed m) :
    Active (Lists.tick m).core t := by
  unfold Active at h ⊢
  rcases tick_wait hp t with hs | hs
  · rw [hs.1]
    exact h
  · exact Or.inl hs.2.2.1

/-- The call of `c` entered at `o` has read `c` at the head of the ready queue. -/
inductive Aimed (c : TaskId) : OpPc → State Lists → Prop where
  | sleepSection {m : Mem Lists} {ms : Int} : Active m.core c →
      Aimed c (.sleepEnter ms) ⟨m, .op c (.sleepSection (some c) ms)⟩
  | suspendTarget {m : Mem Lists} : Active m.core c →
      Aimed c .sleepForever ⟨m, .op c (.suspendTarget (some c))⟩
  | suspendSection {m : Mem Lists} : Active m.core c →
      Aimed c .sleepForever ⟨m, .op c (.suspendSection c)⟩
  | setSwitching {m : Mem Lists} {o : OpPc} : Aimed c o ⟨m, .op c .setSwitching⟩
  | done {m : Mem Lists} {o : OpPc} : Aimed c o ⟨m, .exec c⟩

section Aim
variable {cfg : Config} {b b' : State Lists} {m : Mem Lists} {c u : TaskId} {o : OpPc} {a : Act}

theorem Aimed.tick {pc : Pc} (h : Aimed c o ⟨m, pc⟩) (hp : Placed m) :
    Aimed c o ⟨Lists.tick m, pc⟩ := by
  cases h with
  | sleepSection ha => exact .sleepSection (ha.tick hp)
  | suspendTarget ha => exact .suspendTarget (ha.tick hp)
  | suspendSection ha => exact .suspendSection (ha.tick hp)
  | setSwitching => exact .setSwitching
  | done => exact .done

theorem Active.ne_suspended (h : Active m.core c) : (m.core.tcb c).status ≠ .suspended := by
  rcases h with h | h <;> simp [h]

theorem Aimed.next (h : Aimed c o b) (hop : ∃ o', b.pc = .op c o') :
    ∃ b', Step cfg b .run b' ∧ Aimed c o b' ∧ OwnStep c o b b' := by
  obtain ⟨o', hop⟩ := hop
  cases h with
  | @sleepSection m ms ha =>
    refine ⟨⟨Lists.sleep cfg m c ms, .op c .setSwitching⟩, ?_, .setSwitching, ?_, fun _ => ?_,
      nofun⟩
    · unfold Step step opStep
      dsimp only
      rw [Lists.sleepMsImpl_some]
      rfl
    · intro u hu
      dsimp only
      rw [(Lists.sleep_core m c cfg ms).1, Lists.requeue_tcb, if_neg hu]
    · dsimp only
      rw [(Lists.sleep_core m c cfg ms).1, Lists.requeue_tcb, if_pos rfl]
      exact ⟨rfl, rfl⟩
  | @suspendTarget m ha =>
    refine ⟨⟨m, .op c (.suspendSection c)⟩, ?_, .suspendSection ha, fun _ _ => rfl, nofun, nofun⟩
    unfold Step step opStep
    dsimp only
    rw [if_neg ha.ne_suspended]
  | @suspendSection m ha =>
    refine ⟨⟨Lists.requeue m c (.setStatus .suspended), .op c .setSwitching⟩, rfl, .setSwitching,
      ?_, fun _ => ?_, nofun⟩
    · intro u hu
      dsimp only
      rw [Lists.requeue_tcb, if_neg hu]
    · dsimp only
      rw [Lists.requeue_tcb, if_pos rfl]
      rfl
  | setSwitching =>
    exact ⟨_, rfl, .done, fun _ _ => rfl, nofun, fun _ => rfl⟩
  | done => cases hop

/-- Every step of the call, and every tick during it, keeps its aim. -/
theorem Aimed.run {as : List Act} (h : Aimed c o b) (hw : Wf b)
    (hrun : Run (Step cfg) (InCall c) b as b') : Wf b' ∧ Aimed c o b' := by
  refine hrun.invariant (I := fun b => Wf b ∧ Aimed c o b) ?_ ⟨hw, h⟩
  rintro b a b' ⟨hw, h⟩ ⟨hop, ha⟩ hstep
  refine ⟨hstep.trans.wf hw, ?_⟩
  rcases ha with rfl | rfl
  · obtain ⟨b'', hstep', haim, _⟩ := h.next hop
    unfold Step at hstep hstep'
    rw [hstep] at hstep'
    cases hstep'
    exact haim
  · obtain ⟨m, pc⟩ := b
    rw [hstep.tick_eq]
    exact h.tick hw.placed

end Aim

/-! ## The head of the ready queue -/

section Entry
variable {cfg : Config} {s s' : State Links} {b : State Lists} {c u : TaskId} {o : OpPc}

theorem OwnStep.related {b' : State Lists} (h : Related s b) (h' : Related s' b')
    (hown : OwnStep c o b b') : OwnStep c o s s' := by
  refine ⟨fun u hu => ?_, fun hpc => ?_, fun hpc => ?_⟩
  · rw [h.core, h'.core]
    exact hown.others u hu
  · rw [h'.core]
    exact hown.asleep (h'.pc ▸ hpc)
  · rw [h.pc]
    exact hown.returns (h'.pc ▸ hpc)

/-- A call that has read its caller goes on to put it to sleep. -/
theorem Related.aimed {as : List Act} (h : Related s b) (ha : Aimed c o b)
    (hrun : Run (Step cfg) (InCall c) s as s') (hop : ∃ o', s'.pc = .op c o') :
    ∃ s'', Step cfg s' .run s'' ∧ OwnStep c o s' s'' := by
  have hcall : ∀ (s : State Links) (b : State Lists) (a : Act), Related s b → InCall c s a →
      InCall c b a := fun s b a hr hin => ⟨hr.pc ▸ hin.1, hin.2⟩
  obtain ⟨b', hrun', hrel⟩ := h.run hcall hrun
  obtain ⟨_, haim⟩ := ha.run h.wf hrun'
  obtain ⟨b'', hstep, _, hown⟩ := haim.next (hrel.pc ▸ hop)
  obtain ⟨s'', hstep', hrel'⟩ := hrel.enabled hstep
  exact ⟨s'', hstep', hown.related hrel hrel'⟩

/-- The section of `sleep_ms` changes the status of the task it has read. -/
theorem sleepSection_target {m : Mem Lists} {target : Option TaskId} {ms : Int} {b' : State Lists}
    (hw : Wf ⟨m, .op c (.sleepSection target ms)⟩)
    (h : Trans cfg ⟨m, .op c (.sleepSection target ms)⟩ .run b')
    (hown : ∀ u, u ≠ c → (b'.mem.core.tcb u).status = (m.core.tcb u).status) : target = some c := by
  have hpc := hw.pcOk
  cases h with
  | silent hs => cases hs
  | @sleepSection _ _ u _ =>
    by_contra hne
    have hsame := hown u fun h => hne (h ▸ rfl)
    dsimp only at hsame
    rw [(Lists.sleep_core m u cfg ms).1, Lists.requeue_tcb, if_pos rfl] at hsame
    have hwaiting : (m.core.tcb u).status = .waiting := hsame.symm
    rcases hpc.2.2.2 with hst | hst <;> exact absurd (hwaiting.symm.trans hst) (by simp)

theorem suspendSection_target {m : Mem Lists} {b' : State Lists}
    (hw : Wf ⟨m, .op c (.suspendSection u)⟩) (h : Trans cfg ⟨m, .op c (.suspendSection u)⟩ .run b')
    (hown : ∀ v, v ≠ c → (b'.mem.core.tcb v).status = (m.core.tcb v).status) : u = c := by
  have hpc := hw.pcOk
  cases h with
  | silent hs => cases hs
  | suspendSection =>
    by_contra hne
    have hsame := hown u hne
    dsimp only at hsame
    rw [Lists.requeue_tcb, if_pos rfl] at hsame
    exact hpc.2.2.2 hsame.symm

theorem suspendTarget_next {m : Mem Lists} {target : Option TaskId} {b' : State Lists}
    (h : Trans cfg ⟨m, .op c (.suspendTarget target)⟩ .run b') :
    b'.pc = .exec c ∨ ∃ u, target = some u ∧ b' = ⟨m, .op c (.suspendSection u)⟩ := by
  cases h with
  | silent hs =>
    cases hs with
    | suspendTargetSkip _ => exact Or.inl rfl
    | @suspendTarget _ u _ => exact Or.inr ⟨u, rfl, rfl⟩

theorem Related.active_of_head (h : Related s b) (hhead : TaskQueues.head s.mem.queues qReady = some u) :
    Active b.mem.core u := by
  rw [h.head] at hhead
  exact (h.wf.placed.mem_ready_iff.mp (List.mem_of_mem_head? hhead)).2

theorem Related.putsToSleep (h : Related s b) (hpc : s.pc = .op c o) (ho : o.sleepEntry = true)
    (hhead : TaskQueues.head s.mem.queues qReady = some c) : PutsToSleep cfg c o s := by
  have hactive := h.active_of_head hhead
  have hlist := (h.head qReady).symm.trans hhead
  have hbpc := h.pc ▸ hpc
  obtain ⟨m, pc⟩ := b
  dsimp only at hbpc hlist hactive
  subst hbpc
  have hread : ∃ b₁, Step cfg ⟨m, .op c o⟩ .run b₁ ∧ Aimed c o b₁ ∧ OwnStep c o ⟨m, .op c o⟩ b₁ := by
    cases o with
    | sleepEnter ms =>
      refine ⟨⟨m, .op c (.sleepSection (some c) ms)⟩, ?_, .sleepSection hactive, fun _ _ => rfl,
        nofun, nofun⟩
      rw [← hlist]
      rfl
    | sleepForever =>
      refine ⟨⟨m, .op c (.suspendTarget (some c))⟩, ?_, .suspendTarget hactive, fun _ _ => rfl,
        nofun, nofun⟩
      rw [← hlist]
      rfl
    | _ => cases ho
  obtain ⟨b₁, hstep, haim, hown⟩ := hread
  obtain ⟨s₁, hstep₁, hrel₁⟩ := h.enabled hstep
  exact ⟨s₁, hstep₁, hown.related h hrel₁, fun as s₂ hrun hop => hrel₁.aimed haim hrun hop⟩

theorem Related.head_of_putsToSleep (h : Related s b) (hpc : s.pc = .op c o)
    (ho : o.sleepEntry = true) (hsleep : PutsToSleep cfg c o s) :
    TaskQueues.head s.mem.queues qReady = some c := by
  obtain ⟨s₁, hstep, _, hrest⟩ := hsleep
  obtain ⟨b₁, hread, hrel₁⟩ := h.step hstep
  rw [h.head]
  have hbpc := h.pc ▸ hpc
  obtain ⟨m, pc⟩ := b
  dsimp only at hbpc
  subst hbpc
  cases o with
  | sleepEnter ms =>
    cases hread
    obtain ⟨s₂, hsection, hown⟩ := hrest [] s₁ (.refl _) ⟨_, hrel₁.pc⟩
    obtain ⟨b₂, hsection', hrel₂⟩ := hrel₁.step hsection
    apply sleepSection_target hrel₁.wf hsection'.trans
    intro u hu
    have hsame := hown.others u hu
    rw [hrel₁.core, hrel₂.core] at hsame
    exact hsame
  | sleepForever =>
    cases hread
    obtain ⟨s₂, htest, hown⟩ := hrest [] s₁ (.refl _) ⟨_, hrel₁.pc⟩
    obtain ⟨b₂, htest', hrel₂⟩ := hrel₁.step htest
    rcases suspendTarget_next htest'.trans with hexec | ⟨u, htarget, rfl⟩
    · have hback := hown.returns (hrel₂.pc.trans hexec)
      rw [hrel₁.pc] at hback
      cases hback
    · have hin : InCall c s₁ .run := ⟨⟨_, hrel₁.pc⟩, Or.inl rfl⟩
      obtain ⟨s₃, hsection, hown₃⟩ := hrest [.run] s₂ (.single hin htest) ⟨_, hrel₂.pc⟩
      obtain ⟨b₃, hsection', hrel₃⟩ := hrel₂.step hsection
      have huc : u = c := by
        apply suspendSection_target hrel₂.wf hsection'.trans
        intro v hv
        have hsame := hown₃.others v hv
        rw [hrel₂.core, hrel₃.core] at hsame
        exact hsame
      exact huc ▸ htarget
  | _ => cases ho

/-- In every reachable state in which `sleep` or `sleep_ms` reads `q_ready_`, the call
puts its caller to sleep, and nobody else, exactly when it reads the caller. -/
theorem putsToSleep_iff {as : List Act} (h : Run (Step cfg) (fun _ _ => True) boot as s)
    (hpc : s.pc = .op c o) (ho : o.sleepEntry = true) :
    PutsToSleep cfg c o s ↔ head s.mem.queues qReady = some c := by
  obtain ⟨b, hrel⟩ := Related.reach h
  exact ⟨hrel.head_of_putsToSleep hpc ho, hrel.putsToSleep hpc ho⟩

end Entry

/-- Task 0 has slept for one tick while task 1, of lower priority, runs and calls
`sleep_ms`; the next tick wakes task 0 before `sleep_ms` reads `q_ready_`. -/
def wakeDuringSleep : List Act :=
  [.createTask (some 1) 0, .createTask (some 2) 1, .run, .run, .run, .run,
    .sleepMs (.integer 4), .run, .run, .run, .vmReturn ⟨.yielded, 0, 1, []⟩, .run, .run,
    .run, .run, .run, .tick, .sleepMs (.integer 4), .tick]

/-- The first task of a system sleeps. -/
def firstSleep : List Act := [.createTask none 0, .run, .run, .run, .run, .sleepMs (.integer 4)]

theorem putsToSleep_of_firstSleep : ∃ s, Run (Step Config.hal) (fun _ _ => True) boot firstSleep s ∧
    PutsToSleep Config.hal 0 (.sleepEnter 4) s := by
  have hplay : ∃ s, play Config.hal (fun _ _ => True) boot firstSleep = some s ∧
      s.pc = .op 0 (.sleepEnter 4) ∧ head s.mem.queues qReady = some 0 := ⟨_, rfl, rfl, rfl⟩
  obtain ⟨s, hs, hpc, hhead⟩ := hplay
  exact ⟨s, run_of_play hs, (putsToSleep_iff (run_of_play hs) hpc rfl).mpr hhead⟩

/-- The sleep of task 1 hits task 0. -/
theorem putsToSleep_fails : ¬ ∀ (as : List Act) (s : State Links) (c : TaskId) (o : OpPc),
    Run (Step Config.hal) (fun _ _ => True) boot as s → s.pc = .op c o → o.sleepEntry = true →
      PutsToSleep Config.hal c o s := by
  intro hall
  have hplay : ∃ s ∈ play Config.hal (fun _ _ => True) boot wakeDuringSleep,
      s.pc = .op 1 (.sleepEnter 4) ∧ head s.mem.queues qReady = some 0 := by decide +kernel
  obtain ⟨s, hs, hpc, hhead⟩ := hplay
  have hrun := run_of_play hs
  obtain ⟨b, hrel⟩ := Related.reach hrun
  have hcaller := hrel.head_of_putsToSleep hpc rfl (hall _ s 1 _ hrun hpc rfl)
  rw [hhead] at hcaller
  cases hcaller

end PicoRuby.Task
