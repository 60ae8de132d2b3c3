import PicoRuby.Task.JoinRelease

/-!
# Exceptions of one task and the value of another

`mrb->exc` is tested after every slice and never cleared. A task that is dispatched
while it is NULL keeps its context and value to itself; a task that is dispatched
behind an uncaught exception of another one is stopped with that exception as its value.
-/

namespace PicoRuby.Task

open Shared

set_option autoImplicit false

/-! ## Harmless runs -/

section Conditions
variable {Q : Type}

/-- The task in whose slice `mrb->exc` may be set or tested. -/
def Pc.inSlice : Pc → Option TaskId
  | .exec t | .op t _ | .returned t => some t
  | _ => none

def terminates (t : TaskId) : Pc → Bool
  | .op _ (.terminateSection u) => u = t
  | _ => false

def raises (t : TaskId) : Pc → Act → Bool
  | .exec u, .vmReturn ⟨.raised _, _, _, _⟩ => u = t
  | _, _ => false

/-- `t` does not raise, and nobody stops or terminates it. -/
def Harmless (t : TaskId) (s : State Q) (a : Act) : Prop :=
  raises t s.pc a = false ∧ a ≠ .stop t ∧ (a = .run → terminates t s.pc = false)

instance (t : TaskId) (s : State Q) (a : Act) : Decidable (Harmless t s a) :=
  inferInstanceAs (Decidable (_ ∧ _ ∧ _))

/-- No exception is left behind when the bytecode of `t` is entered. -/
def CleanDispatch (t : TaskId) (s : State Q) (a : Act) : Prop :=
  a = .run → s.pc = .marked t → s.mem.core.exc = none

instance (t : TaskId) (s : State Q) (a : Act) : Decidable (CleanDispatch t s a) :=
  inferInstanceAs (Decidable (_ → _ → _))

/-- The value of `t` is no exception of another task, and no step moves `t` to DORMANT
before its bytecode has finished. -/
def Isolated [TaskQueues Q] (cfg : Config) (t : TaskId) (s : State Q) : Prop :=
  (∀ e, (s.mem.core.tcb t).value = .exc e → e.raisedBy = t) ∧
    ∀ a s', Harmless t s a → Step cfg s a s' → (s.mem.core.tcb t).status ≠ .dormant →
      (s'.mem.core.tcb t).status = .dormant → (s.mem.core.tcb t).c.finished = true

end Conditions

/-! ## The invariant -/

structure Clean (t : TaskId) (b : State Lists) : Prop where
  stopped : (b.mem.core.tcb t).c.status = .stopped → (b.mem.core.tcb t).c.finished = true
  value : ∀ e, (b.mem.core.tcb t).value = .exc e → e.raisedBy = t
  slice : b.pc.inSlice = some t → b.mem.core.exc = none

section Step
variable {cfg : Config} {m m' : Mem Lists} {b b' : State Lists} {pc pc' : Pc} {a : Act} {t u : TaskId}
  {f : Tcb → Tcb}

theorem raises_raised {r : VmResult} {obj : Nat} (hr : r.outcome = .raised obj) :
    raises t (.exec u) (.vmReturn r) = decide (u = t) := by
  obtain ⟨outcome, _, _, _⟩ := r
  cases hr
  rfl

/-- In the slice of `t` nothing but a raise of `t` sets `mrb->exc`. -/
theorem Trans.exc_slice (h : Trans cfg b a b') (hok : Harmless t b a)
    (hslice : b'.pc.inSlice = some t) : b'.mem.core.exc = b.mem.core.exc ∧
      (b.pc.inSlice = some t ∨ b.pc = .marked t ∧ a = .run) := by
  cases h with
  | tick => exact ⟨Lists.tick_core.2.2.1, Or.inl hslice⟩
  | silent hs =>
    refine ⟨rfl, Or.inl ?_⟩
    cases hs with
    | start => cases hslice
    | startEmpty => cases hslice
    | idle _ => cases hslice
    | choose _ => cases hslice
    | noSwitch _ _ => cases hslice
    | _ => exact hslice
  | enter =>
    cases hslice
    exact ⟨rfl, Or.inr ⟨rfl, rfl⟩⟩
  | @vmReturn m u r =>
    unfold Task.vmReturn
    dsimp only
    split
    · rename_i obj hraised
      have hno := hok.1
      rw [raises_raised hraised] at hno
      exact absurd (Option.some.inj hslice) (of_decide_eq_false hno)
    · exact ⟨rfl, Or.inl hslice⟩
  | execute _ =>
    refine ⟨rfl, Or.inl ?_⟩
    unfold Task.resumePc at hslice
    split at hslice <;> exact hslice
  | execVmCode _ =>
    refine ⟨rfl, Or.inl ?_⟩
    unfold Task.resumePc at hslice
    split at hslice <;> exact hslice
  | @sleepSection m v u ms => exact ⟨(Lists.sleep_core m u cfg ms).2.2.2.2.2.1, Or.inl hslice⟩
  | resumeSection => exact ⟨(Lists.resume_core ..).2.2.2.2, Or.inl hslice⟩
  | release hpc' => rcases hpc' with rfl | rfl <;> cases hslice
  | _ => first | exact ⟨rfl, Or.inl hslice⟩ | cases hslice

theorem Trans.clean (h : Trans cfg b a b') (hw : Wf b) (hok : Harmless t b a)
    (hclean : CleanDispatch t b a) (hi : Clean t b) : Clean t b' := by
  have hslice : b'.pc.inSlice = some t → b'.mem.core.exc = none := by
    intro hin
    obtain ⟨hexc, hbefore | ⟨hpc, ha⟩⟩ := h.exc_slice hok hin
    · exact hexc.trans (hi.slice hbefore)
    · exact hexc.trans (hclean ha hpc)
  obtain ⟨m, pc⟩ := b
  have heff := h.bodyEffect hw t
  obtain ⟨hstopped, hvalue, hexc⟩ := hi
  dsimp only at hstopped hvalue hexc
  refine ⟨?_, ?_, hslice⟩
  · generalize b'.mem.core.tcb t = tcb at heff
    intro hst
    cases heff with
    | same hsame =>
      rw [hsame.1] at hst ⊢
      exact hstopped hst
    | created _ hc _ =>
      rw [hc] at hst
      cases hst
    | @vmReturn r =>
      unfold storeResult at hst ⊢
      dsimp only at hst ⊢
      by_cases hfin : r.outcome = .finished
      · rw [if_pos hfin]
      · rw [if_neg hfin] at hst ⊢
        exact hstopped hst
    | stop => exact absurd rfl hok.2.1
    | execute => exact absurd hst (by simp [mrbSandboxExecute, mrbTaskResetContext])
    | execVmCode => cases hst
    | fail he =>
      -- the exception belongs to another slice
      rw [hexc rfl] at he
      cases he
  · generalize b'.mem.core.tcb t = tcb at heff
    intro e hval
    cases heff with
    | same hsame => exact hvalue e (hsame.2 ▸ hval)
    | created _ _ hv =>
      rw [hv] at hval
      cases hval
    | vmReturn => cases hval
    | stop => exact hvalue e hval
    | execute =>
      unfold mrbSandboxExecute mrbTaskProcSet at hval
      split at hval <;> exact hvalue e hval
    | execVmCode => exact hvalue e hval
    | fail he =>
      rw [hexc rfl] at he
      cases he

/-- A harmless step ends a task only when its bytecode has finished. -/
theorem Trans.ends_finished (h : Trans cfg b a b') (hw : Wf b) (hok : Harmless t b a)
    (hi : Clean t b) (hlive : (b.mem.core.tcb t).status ≠ .dormant)
    (hdormant : (b'.mem.core.tcb t).status = .dormant) : (b.mem.core.tcb t).c.finished = true := by
  obtain ⟨m, pc⟩ := b
  rcases (h.effect hw t).dormant_cases hdormant with hold | ⟨⟨u, rfl⟩, rfl⟩ | ⟨_, _, hstopped⟩
  · exact absurd hold hlive
  · have hno := hok.2.2 rfl
    simp [terminates] at hno
  · exact hi.stopped hstopped

end Step

/-! ## Isolation -/

/-- The steps that keep `t` apart from the exceptions of other tasks. -/
def KeepsApart {Q : Type} (t : TaskId) (s : State Q) (a : Act) : Prop :=
  Harmless t s a ∧ CleanDispatch t s a

instance {Q : Type} (t : TaskId) (s : State Q) (a : Act) : Decidable (KeepsApart t s a) :=
  inferInstanceAs (Decidable (_ ∧ _))

section Claim
variable {cfg : Config} {s : State Links} {b : State Lists} {t : TaskId}

theorem harmless_related (s : State Links) (b : State Lists) (a : Act) (h : Related s b)
    (hok : Harmless t s a) : Harmless t b a := by
  unfold Harmless at hok ⊢
  rw [h.pc] at hok
  exact hok

theorem keepsApart_related (s : State Links) (b : State Lists) (a : Act) (h : Related s b)
    (hok : KeepsApart t s a) : KeepsApart t b a := by
  refine ⟨harmless_related s b a h hok.1, fun ha hpc => ?_⟩
  rw [← h.core]
  exact hok.2 ha (h.pc ▸ hpc)

theorem Related.isolated (h : Related s b) (hi : Clean t b) : Isolated cfg t s := by
  constructor
  · intro e he
    rw [h.core] at he
    exact hi.value e he
  · intro a s' hok hstep hlive hdormant
    obtain ⟨b', hstep', hrel⟩ := h.step hstep
    rw [h.core] at hlive ⊢
    rw [hrel.core] at hdormant
    exact hstep'.trans.ends_finished h.wf (harmless_related s b a h hok) hi hlive hdormant

/-- A task that is never dispatched behind an exception is isolated from those of others. -/
theorem isolated_of_run {as : List Act} (h : Run (Step cfg) (KeepsApart t) boot as s) :
    Isolated cfg t s := by
  obtain ⟨b, hrun, hrel⟩ := Related.boot.run keepsApart_related h
  have hinit : Clean t bootLists := ⟨nofun, nofun, nofun⟩
  have hstep : ∀ c a c', Wf c → Clean t c → KeepsApart t c a → Trans cfg c a c' → Clean t c' :=
    fun c a c' hw hi hok ht => ht.clean hw hok.1 hok.2 hi
  exact hrel.isolated (Wf.init.run_invariant hrun hstep hinit).2

end Claim

/-- Task 0 raises in its first slice; task 1 is dispatched, and its slice ends. -/
def raiseThenDispatch : List Act :=
  [.createTask none 0, .createTask none 1, .run, .run, .run, .run,
    .vmReturn ⟨.raised 7, 0, 1, []⟩, .run, .run, .run, .run, .run, .run,
    .vmReturn ⟨.yielded, 0, 1, []⟩, .run]

/-- Task 1 is dispatched before task 0 raises. -/
def dispatchThenRaise : List Act :=
  [.createTask none 0, .createTask (some 1) 1, .run, .run, .run, .run,
    .vmReturn ⟨.finished, 0, 1, []⟩, .run, .run, .run, .run, .run, .run,
    .vmReturn ⟨.raised 7, 0, 1, []⟩, .run, .run]

theorem isolated_of_dispatchThenRaise : ∃ s,
    Run (Step Config.hal) (KeepsApart 1) boot dispatchThenRaise s ∧ s.mem.core.exc = some ⟨0, 7⟩ ∧
      Isolated Config.hal 1 s := by
  have hplay : ∃ s ∈ play Config.hal (KeepsApart 1) boot dispatchThenRaise,
      s.mem.core.exc = some ⟨0, 7⟩ := by decide +kernel
  obtain ⟨s, hs, hexc⟩ := hplay
  exact ⟨s, run_of_play hs, hexc, isolated_of_run (run_of_play hs)⟩

/-- The value of task 1 is the exception of task 0. -/
theorem isolated_fails : ¬ ∀ (as : List Act) (s : State Links) (t : TaskId),
    Run (Step Config.hal) (Harmless t) boot as s → Isolated Config.hal t s := by
  intro hall
  have hplay : ∃ s ∈ play Config.hal (Harmless 1) boot raiseThenDispatch,
      (s.mem.core.tcb 1).value = .exc ⟨0, 7⟩ := by decide +kernel
  obtain ⟨s, hs, hvalue⟩ := hplay
  have hby := (hall _ s 1 (run_of_play hs)).1 _ hvalue
  cases hby

end PicoRuby.Task
