import PicoRuby.Require.Semantics

/-!
# Files that fail

A file that cannot be compiled makes `require` raise and leaves the features alone. A file that
runs into an exception is recorded like any other.
-/

namespace PicoRuby.Require

set_option autoImplicit false

section Failures
variable {F : Type} {w : World F} {s : State F} {call : Call F}

/-- The file of the call could not be compiled, or ended with an exception. -/
def Call.Failed (call : Call F) : Prop :=
  (∃ f, call.ending = .notCompiled f) ∨ ∃ f e, call.ending = .failed f e

/-- The call raised, only features that were completed are new, and the next call of `require`
does not return without another try. -/
structure LeavesNoTrace (w : World F) (s : State F) (call : Call F) : Prop where
  raises : ∃ e, call.outcome = .error e
  kept : ∀ x ∈ call.before, x ∈ call.after
  onlyCompleted : ∀ x ∈ call.after, x ∈ call.before ∨
    ∃ c ∈ s.calls, (∃ f, c.ending = .completed f) ∧ c.feature = some x
  again : ∀ result features, require w call.after call.name ≠ .returned result features

/-- The name leads to a file, and the sandbox starts it. -/
def Starts (w : World F) (name : Text) : Prop :=
  ∃ feature path f body, findPath w name = some feature ∧ findFile w feature = some (path, f) ∧
    sandboxLoadFile (w.file f) path = .ok body

/-- The name leads to a file that the sandbox cannot start. -/
def NotCompiled (w : World F) (name : Text) : Prop :=
  ∃ feature path f e, findPath w name = some feature ∧ findFile w feature = some (path, f) ∧
    sandboxLoadFile (w.file f) path = .error e

theorem Starts.not_notCompiled {name : Text} (h : Starts w name) : ¬ NotCompiled w name := by
  rintro ⟨feature', path', f', e, hpath', hfile', hload'⟩
  obtain ⟨feature, path, f, body, hpath, hfile, hload⟩ := h
  rw [hpath', Option.some.injEq] at hpath
  rw [← hpath, hfile', Option.some.injEq, Prod.mk.injEq] at hfile
  rw [← hfile.1, ← hfile.2, hload'] at hload
  cases hload

/-- A call that raises for a file has found one that the sandbox cannot start. -/
theorem require_raised {features : List Text} {name : Text} {e : Failure} {f : F}
    (h : require w features name = .raised e (some f)) : NotCompiled w name := by
  unfold require at h
  split at h
  · cases h
  · split at h
    · cases h
    · cases h
    · unfold requireFile at h
      split at h
      · cases h
      · rename_i feature hpath
        split at h
        · cases h
        · unfold loadFile at h
          split at h
          · cases h
          · rename_i path file hfile
            split at h
            · rename_i e' hload
              exact ⟨feature, path, file, e', hpath, hfile, hload⟩
            · cases h

/-- What is known of a call that is over. -/
structure Accounted (w : World F) (call : Call F) : Prop where
  notCompiled : ∀ f, call.ending = .notCompiled f → NotCompiled w call.name ∧
    call.after = call.before ∧ ∃ e, call.outcome = .error e ∧
      require w call.before call.name = .raised e (some f)
  failed : ∀ f e, call.ending = .failed f e → Starts w call.name ∧ call.outcome = .ok true

/-- A call that waits has started its file, and calls that are over are accounted for. -/
structure AllAccounted (w : World F) (s : State F) : Prop where
  waiting : ∀ t ∈ s.stack, Starts w t.name
  ended : ∀ call ∈ s.calls, Accounted w call

theorem Accounted.returned {name : Text} {before after : List Text} {result : Bool} :
    Accounted w ⟨name, none, .notRun, before, after, .ok result⟩ := ⟨nofun, nofun⟩

theorem Accounted.raised {name : Text} {e : Failure} {file : Option F} {features : List Text}
    (h : require w features name = .raised e file) :
    Accounted w ⟨name, none, .ofRaised file, features, features, .error e⟩ := by
  cases file with
  | none => exact ⟨nofun, nofun⟩
  | some f =>
    refine ⟨?_, nofun⟩
    intro f' heq
    cases heq
    exact ⟨require_raised h, rfl, e, rfl, h⟩

theorem Accounted.ended {t : Waiting F} {error : Option Failure} {after : List Text}
    (h : Starts w t.name) :
    Accounted w ⟨t.name, some t.feature, t.ending error, t.before, after, .ok true⟩ := by
  cases error with
  | none => exact ⟨nofun, nofun⟩
  | some e => exact ⟨nofun, fun _ _ _ => ⟨h, rfl⟩⟩

theorem AllAccounted.addCall (h : AllAccounted w s) (hcall : Accounted w call) :
    ∀ c ∈ s.calls ++ [call], Accounted w c := by
  intro c hc
  rcases List.mem_append.mp hc with hc | hc
  · exact h.ended c hc
  · rw [List.mem_singleton.mp hc]
    exact hcall

theorem AllAccounted.advance (h : AllAccounted w s) (rest : List Statement) :
    AllAccounted w (s.advance rest) := by
  refine ⟨?_, by rw [advance_calls]; exact h.ended⟩
  unfold State.advance
  split
  · exact h.waiting
  · rename_i t below hstack
    intro u hu
    rcases List.mem_cons.mp hu with rfl | hu
    · exact h.waiting t (hstack ▸ List.mem_cons_self)
    · exact h.waiting u (hstack ▸ List.mem_cons_of_mem _ hu)

theorem AllAccounted.finish (h : AllAccounted w s) (error : Option Failure) :
    AllAccounted w (s.finish error) := by
  rcases finish_cases s error with ⟨-, heq⟩ | ⟨t, below, after, hstack, hbelow, hcalls, -, -, -⟩
  · rw [heq]
    exact ⟨h.waiting, h.ended⟩
  · refine ⟨?_, ?_⟩
    · rw [hbelow]
      exact fun u hu => h.waiting u (hstack ▸ List.mem_cons_of_mem _ hu)
    · rw [hcalls]
      exact h.addCall (.ended (h.waiting t (hstack ▸ List.mem_cons_self)))

theorem AllAccounted.step (h : AllAccounted w s) : AllAccounted w (s.step w) := by
  have hstep := step_stepped w s
  generalize s.step w = s' at hstep
  cases hstep with
  | ended _ => exact h.finish none
  | raises _ => exact h.finish _
  | returned _ _ => exact ⟨(h.advance _).waiting, h.addCall .returned⟩
  | @rescued name rescues rest e file _ hcall =>
    have hrecord : AllAccounted w (s.record name (.ofRaised file) (.error e)) :=
      ⟨h.waiting, h.addCall (.raised hcall)⟩
    exact hrecord.advance rest
  | @uncaught name rescues rest e file _ hcall =>
    have hrecord : AllAccounted w (s.record name (.ofRaised file) (.error e)) :=
      ⟨h.waiting, h.addCall (.raised hcall)⟩
    exact hrecord.finish _
  | @waits name feature rescues rest body file _ hcall =>
    obtain ⟨hpath, -, path, hfile, hbody⟩ := require_waiting hcall
    refine ⟨?_, (h.advance rest).ended⟩
    intro t ht
    rcases List.mem_cons.mp ht with rfl | ht
    · exact ⟨feature, path, file, body, hpath, hfile, hbody⟩
    · exact (h.advance rest).waiting t ht

theorem run_allAccounted (w : World F) (features : List Text) (main : List Statement) (n : Nat) :
    AllAccounted w (run w features main n) := by
  induction n with
  | zero => exact ⟨fun _ h => absurd h List.not_mem_nil, fun _ h => absurd h List.not_mem_nil⟩
  | succ n ih => exact ih.step

/-- A call for a file that fails leaves no trace exactly when the file cannot be compiled. -/
theorem leavesNoTrace_iff {features : List Text} {main : List Statement} {n : Nat}
    (hcall : call ∈ (run w features main n).calls) (hfailed : call.Failed) :
    LeavesNoTrace w (run w features main n) call ↔ NotCompiled w call.name := by
  have haccounted := (run_allAccounted w features main n).ended call hcall
  rcases hfailed with ⟨f, hending⟩ | ⟨f, e, hending⟩
  · obtain ⟨hnot, hsame, e, houtcome, hrequire⟩ := haccounted.notCompiled f hending
    constructor
    · exact fun _ => hnot
    · intro _
      refine ⟨⟨e, houtcome⟩, ?_, ?_, ?_⟩
      · rw [hsame]
        exact fun _ hx => hx
      · rw [hsame]
        exact fun _ hx => .inl hx
      · rw [hsame, hrequire]
        exact nofun
  · obtain ⟨hstarts, houtcome⟩ := haccounted.failed f e hending
    constructor
    · intro h
      obtain ⟨e', he'⟩ := h.raises
      rw [houtcome] at he'
      cases he'
    · intro h
      exact absurd h hstarts.not_notCompiled

end Failures

/-! ## Two files that fail -/

def boom : Failure := ⟨.standardError, "boom"⟩

/-- `/lib/bad.rb`, which is `false`, does not compile, and `/lib/boom.rb` raises. -/
def failingFiles : World Bool where
  prebuiltGems := []
  loadPath := some ["/lib".toList]
  expandPath := expandPath ⟨some ['/'], none, none⟩
  fileAt path :=
    if path = "/lib/bad.rb".toList then some false
    else if path = "/lib/boom.rb".toList then some true
    else none
  file raises :=
    if raises then ⟨some "raise 'boom'".toList, none, true, [.raise boom]⟩
    else ⟨some "def".toList, none, false, []⟩

def compileFailed : Failure := ⟨.runtimeError, "/lib/bad.rb: compile failed"⟩

def badCall : Call Bool := ⟨"bad".toList, none, .notCompiled false, [], [], .error compileFailed⟩

def boomCall : Call Bool :=
  ⟨"boom".toList, some "/lib/boom.rb".toList, .failed true boom, [], ["/lib/boom.rb".toList], .ok true⟩

theorem bad_leavesNoTrace :
    LeavesNoTrace failingFiles (run failingFiles [] [.require "bad".toList []] 1) badCall := by
  have hcalls : (run failingFiles [] [.require "bad".toList []] 1).calls = [badCall] := rfl
  have hmem : badCall ∈ (run failingFiles [] [.require "bad".toList []] 1).calls := by
    rw [hcalls]
    exact List.mem_cons_self
  exact (leavesNoTrace_iff hmem (.inl ⟨false, rfl⟩)).mpr
    ⟨"/lib/bad.rb".toList, "/lib/bad.rb".toList, false, compileFailed, rfl, rfl, rfl⟩

/-- `require 'boom'` returns true and records `/lib/boom.rb`. -/
theorem boom_leavesTrace :
    boomCall ∈ (run failingFiles [] [.require "boom".toList []] 2).calls ∧ boomCall.Failed ∧
      ¬ LeavesNoTrace failingFiles (run failingFiles [] [.require "boom".toList []] 2) boomCall := by
  have hcalls : (run failingFiles [] [.require "boom".toList []] 2).calls = [boomCall] := rfl
  refine ⟨?_, .inr ⟨true, boom, rfl⟩, ?_⟩
  · rw [hcalls]
    exact List.mem_cons_self
  · intro h
    obtain ⟨e, he⟩ := h.raises
    cases he

end PicoRuby.Require
