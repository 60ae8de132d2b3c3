import PicoRuby.Require.Kernel
import Mathlib.Algebra.BigOperators.Group.Finset.Basic
import Mathlib.Algebra.GroupWithZero.Nat
import Mathlib.Algebra.Order.BigOperators.Group.Finset

/-!
# The runs of a program that requires files

A feature is recorded when its file has run. A file that is required while it runs, or under
another path, is run again.
-/

namespace PicoRuby.Require

set_option autoImplicit false

section Calls
variable {F : Type} {w : World F} {features : List Text} {name : Text}

/-- The call has run the file. -/
def Call.Ran (call : Call F) (f : F) : Prop :=
  call.ending = .completed f ∨ ∃ e, call.ending = .failed f e

/-- A call that waits has found a path that is not recorded, and its sandbox runs the file. -/
theorem require_waiting {feature : Text} {file : F} {body : List Statement}
    (h : require w features name = .waiting feature file body) :
    findPath w name = some feature ∧ required? features feature = false ∧
      ∃ path, findFile w feature = some (path, file) ∧
        sandboxLoadFile (w.file file) path = .ok body := by
  unfold require at h
  split at h
  · cases h
  · split at h
    · cases h
    · cases h
    · unfold requireFile at h
      split at h
      · cases h
      · rename_i path hpath
        split at h
        · cases h
        · rename_i hrequired
          unfold loadFile at h
          split at h
          · cases h
          · rename_i path' file' hfile
            split at h
            · cases h
            · rename_i body' hbody
              cases h
              exact ⟨hpath, by simpa using hrequired, path', hfile, hbody⟩

theorem require_returned {result : Bool} {features' : List Text}
    (h : require w features name = .returned result features') :
    result = false ∧ features <+: features' := by
  unfold require at h
  split at h
  · cases h
    exact ⟨rfl, List.prefix_refl _⟩
  · split at h
    · cases h
    · rename_i result' hextern
      cases h
      refine ⟨?_, List.prefix_append _ _⟩
      unfold extern' at hextern
      cases hc : cString name with
      | error e =>
        rw [hc] at hextern
        cases hextern
      | ok u =>
        rw [hc] at hextern
        have hsome := Except.ok.inj hextern
        split at hsome
        · exact (Option.some.inj hsome).symm
        · cases hsome
    · unfold requireFile at h
      split at h
      · cases h
      · split at h
        · cases h
          exact ⟨rfl, List.prefix_refl _⟩
        · unfold loadFile at h
          split at h
          · cases h
          · split at h
            · cases h
            · cases h

/-- The sandbox runs what the file does, or nothing where there is nothing to read. -/
theorem sandboxLoadFile_body {file : RubyFile} {path : Text} {body : List Statement}
    (h : sandboxLoadFile file path = .ok body) : body = file.body ∨ body = [] := by
  unfold sandboxLoadFile at h
  split at h
  · split at h
    · exact .inl (Except.ok.inj h).symm
    · rename_i m _ _
      cases hc : compileFromMemory file m.physicalAddress m.size with
      | error e =>
        rw [hc] at h
        cases h
      | ok u =>
        rw [hc] at h
        exact .inl (Except.ok.inj h).symm
  · split at h
    · exact .inr (Except.ok.inj h).symm
    · rename_i rb _
      split at h
      · exact .inl (Except.ok.inj h).symm
      · cases hc : compile file path rb with
        | error e =>
          rw [hc] at h
          cases h
        | ok u =>
          rw [hc] at h
          exact .inl (Except.ok.inj h).symm

end Calls

/-! ## What a step can do -/

section Steps
variable {F : Type} (w : World F)

/-- The call is recorded as one that has not run a file. -/
def State.record (s : State F) (name : Text) (ending : Ending F) (outcome : Except Failure Bool) :
    State F :=
  { s with calls := s.calls ++ [⟨name, none, ending, s.features, s.features, outcome⟩] }

/-- The ways of a step. -/
inductive Stepped (s : State F) : State F → Prop where
  | ended (h : s.current = []) : Stepped s (s.finish none)
  | raises {e : Failure} {rest : List Statement} (h : s.current = .raise e :: rest) :
      Stepped s (s.finish (some e))
  | returned {name : Text} {rescues : List ErrorClass} {rest : List Statement} {result : Bool}
      {features : List Text} (h : s.current = .require name rescues :: rest)
      (hcall : require w s.features name = .returned result features) :
      Stepped s { s.advance rest with
        features
        calls := s.calls ++ [⟨name, none, .notRun, s.features, features, .ok result⟩] }
  | rescued {name : Text} {rescues : List ErrorClass} {rest : List Statement} {e : Failure}
      {file : Option F} (h : s.current = .require name rescues :: rest)
      (hcall : require w s.features name = .raised e file) :
      Stepped s ((s.record name (.ofRaised file) (.error e)).advance rest)
  | uncaught {name : Text} {rescues : List ErrorClass} {rest : List Statement} {e : Failure}
      {file : Option F} (h : s.current = .require name rescues :: rest)
      (hcall : require w s.features name = .raised e file) :
      Stepped s ((s.record name (.ofRaised file) (.error e)).finish (some e))
  | waits {name feature : Text} {rescues : List ErrorClass} {rest body : List Statement} {file : F}
      (h : s.current = .require name rescues :: rest)
      (hcall : require w s.features name = .waiting feature file body) :
      Stepped s { s.advance rest with
        stack := ⟨name, feature, file, body, s.features⟩ :: (s.advance rest).stack
        executed := s.executed ++ [file] }

theorem step_stepped (s : State F) : Stepped w s (s.step w) := by
  unfold State.step
  split
  · rename_i h
    exact .ended h
  · rename_i h
    exact .raises h
  · rename_i h
    split
    · rename_i hcall
      exact .returned h hcall
    · rename_i hcall
      dsimp only
      split
      · exact .rescued h hcall
      · exact .uncaught h hcall
    · rename_i hcall
      exact .waits h hcall

variable {w} {s s' : State F} {rest : List Statement} {error : Option Failure}

theorem advance_executed : (s.advance rest).executed = s.executed := by
  unfold State.advance
  split
  · rfl
  · rfl

theorem advance_calls : (s.advance rest).calls = s.calls := by
  unfold State.advance
  split
  · rfl
  · rfl

theorem advance_features : (s.advance rest).features = s.features := by
  unfold State.advance
  split
  · rfl
  · rfl

theorem advance_files : (s.advance rest).stack.map Waiting.file = s.stack.map Waiting.file := by
  unfold State.advance
  split
  · rename_i h
    rw [h]
  · rename_i h
    rw [h]
    rfl

theorem finish_executed : (s.finish error).executed = s.executed := by
  unfold State.finish
  split
  · rfl
  · rfl

/-- A task that ends takes its call from the stack to the calls that are over. -/
theorem finish_cases (s : State F) (error : Option Failure) :
    (s.stack = [] ∧ s.finish error = { s with main := [] }) ∨
      ∃ t below after, s.stack = t :: below ∧ (s.finish error).stack = below ∧
        (s.finish error).calls =
          s.calls ++ [⟨t.name, some t.feature, t.ending error, t.before, after, .ok true⟩] ∧
        (s.finish error).features = after ∧ s.features <+: after ∧ t.feature ∈ after := by
  unfold State.finish
  split
  · rename_i h
    exact .inl ⟨h, rfl⟩
  · rename_i t below h
    refine .inr ⟨t, below, _, h, rfl, rfl, rfl, ?_, ?_⟩
    · split
      · exact List.prefix_refl _
      · exact List.prefix_append _ _
    · split
      · rename_i hrequired
        simpa [required?] using hrequired
      · exact List.mem_append_right _ List.mem_cons_self

theorem Waiting.ending_ran_iff (t : Waiting F) {after : List Text} {f : F} :
    Call.Ran ⟨t.name, some t.feature, t.ending error, t.before, after, .ok true⟩ f ↔ f = t.file := by
  cases error with
  | none =>
    constructor
    · rintro (h | ⟨e, h⟩)
      · cases h
        rfl
      · cases h
    · rintro rfl
      exact .inl rfl
  | some e =>
    constructor
    · rintro (h | ⟨e', h⟩)
      · cases h
      · cases h
        rfl
    · rintro rfl
      exact .inr ⟨e, rfl⟩

theorem not_ran_ofRaised {call : Call F} {file : Option F} (h : call.ending = .ofRaised file)
    (f : F) : ¬ call.Ran f := by
  unfold Call.Ran
  rw [h]
  cases file with
  | none =>
    rintro (h | ⟨e, h⟩)
    · cases h
    · cases h
  | some f =>
    rintro (h | ⟨e, h⟩)
    · cases h
    · cases h

end Steps

/-! ## What has been run -/

section Traced
variable {F : Type} {w : World F} {s s' : State F}

/-- The files run are the ones of the calls that wait or are over. -/
def Traced (s : State F) : Prop :=
  ∀ f, f ∈ s.executed ↔ f ∈ s.stack.map Waiting.file ∨ ∃ call ∈ s.calls, call.Ran f

theorem Traced.start (features : List Text) (main : List Statement) :
    Traced (start features main : State F) := by
  intro f
  constructor
  · intro h
    exact absurd h List.not_mem_nil
  · rintro (h | ⟨call, h, -⟩)
    · exact absurd h List.not_mem_nil
    · exact absurd h List.not_mem_nil

theorem exists_ran_concat {calls : List (Call F)} {call : Call F} (f : F) :
    (∃ c ∈ calls ++ [call], c.Ran f) ↔ (∃ c ∈ calls, c.Ran f) ∨ call.Ran f := by
  constructor
  · rintro ⟨c, hc, hran⟩
    rcases List.mem_append.mp hc with hc | hc
    · exact .inl ⟨c, hc, hran⟩
    · rw [List.mem_singleton.mp hc] at hran
      exact .inr hran
  · rintro (⟨c, hc, hran⟩ | hran)
    · exact ⟨c, List.mem_append_left _ hc, hran⟩
    · exact ⟨call, List.mem_append_right _ List.mem_cons_self, hran⟩

theorem Traced.finish (h : Traced s) (error : Option Failure) : Traced (s.finish error) := by
  intro f
  rcases finish_cases s error with ⟨-, heq⟩ |
    ⟨t, below, after, hstack, hbelow, hcalls, -, -, -⟩
  · rw [heq]
    exact h f
  · rw [finish_executed, h f, hbelow, hcalls, exists_ran_concat, t.ending_ran_iff, hstack,
      List.map_cons, List.mem_cons, or_assoc, or_comm, or_assoc]

theorem Traced.advance (h : Traced s) (rest : List Statement) : Traced (s.advance rest) := by
  intro f
  rw [advance_executed, advance_files, advance_calls]
  exact h f

theorem Traced.addCall (h : Traced s) {call : Call F} (hcall : ∀ f, ¬ call.Ran f) :
    Traced { s with calls := s.calls ++ [call] } := by
  intro f
  rw [exists_ran_concat, h f]
  constructor
  · rintro (hf | hf)
    · exact .inl hf
    · exact .inr (.inl hf)
  · rintro (hf | hf | hf)
    · exact .inl hf
    · exact .inr hf
    · exact absurd hf (hcall f)

theorem Traced.step (h : Traced s) : Traced (s.step w) := by
  have hstep := step_stepped w s
  generalize s.step w = s' at hstep
  cases hstep with
  | ended _ => exact h.finish none
  | raises _ => exact h.finish _
  | @returned name rescues rest result features _ _ =>
    have hran (f : F) : ¬ Call.Ran ⟨name, none, .notRun, s.features, features, .ok result⟩ f :=
      not_ran_ofRaised (show _ = Ending.ofRaised none from rfl) f
    have hadd := (h.advance rest).addCall hran
    rw [advance_calls] at hadd
    exact hadd
  | rescued _ _ => exact (h.addCall (not_ran_ofRaised rfl)).advance _
  | uncaught _ _ => exact (h.addCall (not_ran_ofRaised rfl)).finish _
  | @waits name feature rescues rest body file _ _ =>
    intro f
    change f ∈ s.executed ++ [file] ↔ f ∈ file :: (s.advance rest).stack.map Waiting.file ∨ _
    rw [advance_files, advance_calls, List.mem_append, List.mem_singleton, List.mem_cons, h f,
      or_comm, or_assoc]

end Traced

/-! ## What is left to do -/

section Work
variable {F : Type} {w : World F} {s : State F}

/-- The file that the next call of `require` is to run is not being run already, and no call that
is over has run it under another path. -/
def Fresh (w : World F) (s : State F) : Prop :=
  ∀ name rescues rest feature file body, s.current = .require name rescues :: rest →
    require w s.features name = .waiting feature file body →
    file ∉ s.stack.map Waiting.file ∧ ∀ call ∈ s.calls, ¬ call.Ran file

/-- The statements left in the tasks, and the tasks. -/
def State.left (s : State F) : Nat :=
  (s.stack.map fun t => t.rest.length + 1).sum + s.main.length

/-- Only a call that has run a file has returned true. -/
def TrueOnlyRan (s : State F) : Prop :=
  ∀ call ∈ s.calls, call.outcome = .ok true → ∃ f, call.Ran f

theorem TrueOnlyRan.concat {calls : List (Call F)} {call : Call F}
    (h : ∀ c ∈ calls, c.outcome = .ok true → ∃ f, c.Ran f)
    (hcall : call.outcome = .ok true → ∃ f, call.Ran f) :
    ∀ c ∈ calls ++ [call], c.outcome = .ok true → ∃ f, c.Ran f := by
  intro c hc
  rcases List.mem_append.mp hc with hc | hc
  · exact h c hc
  · rw [List.mem_singleton.mp hc]
    exact hcall

theorem TrueOnlyRan.finish (h : TrueOnlyRan s) (error : Option Failure) :
    TrueOnlyRan (s.finish error) := by
  rcases finish_cases s error with ⟨-, heq⟩ |
    ⟨t, below, after, -, -, hcalls, -, -, -⟩
  · rw [heq]
    exact h
  · unfold TrueOnlyRan
    rw [hcalls]
    exact TrueOnlyRan.concat h fun _ => ⟨t.file, t.ending_ran_iff.mpr rfl⟩

theorem TrueOnlyRan.step (h : TrueOnlyRan s) : TrueOnlyRan (s.step w) := by
  have hstep := step_stepped w s
  generalize s.step w = s' at hstep
  cases hstep with
  | ended _ => exact h.finish none
  | raises _ => exact h.finish _
  | returned _ hcall =>
    refine TrueOnlyRan.concat h fun htrue => ?_
    rw [(require_returned hcall).1] at htrue
    cases htrue
  | rescued _ _ =>
    unfold TrueOnlyRan
    rw [advance_calls]
    exact TrueOnlyRan.concat h nofun
  | @uncaught name rescues rest e file _ _ =>
    have hrecord : TrueOnlyRan (s.record name (.ofRaised file) (.error e)) :=
      TrueOnlyRan.concat h nofun
    exact hrecord.finish _
  | waits _ _ =>
    change ∀ call ∈ (s.advance _).calls, _
    rw [advance_calls]
    exact h

variable [Fintype F] [DecidableEq F]

end Work

/-! ## Runs -/

section Runs
variable {F : Type} {w : World F} {features : List Text} {main : List Statement}

variable [Fintype F] [DecidableEq F]

end Runs

/-! ## Files that do not require each other in a cycle -/

section Acyclic
variable {F : Type} {w : World F} {s : State F} {rank : F → Nat}

/-- The name leads to the file, whose feature is the path. -/
def Finds (w : World F) (name feature : Text) (f : F) : Prop :=
  findPath w name = some feature ∧ ∃ path, findFile w feature = some (path, f)

/-- `f` has a statement that requires `g`. -/
def Requires (w : World F) (f g : F) : Prop :=
  ∃ name rescues feature, .require name rescues ∈ (w.file f).body ∧ Finds w name feature g

/-- The files that run are ordered by rank, each has statements of its own left, and a file that
has been run is recorded. -/
structure Nested (w : World F) (rank : F → Nat) (s : State F) : Prop where
  ranks : s.stack.Pairwise fun t u => rank t.file < rank u.file
  own : ∀ t ∈ s.stack, ∀ x ∈ t.rest, x ∈ (w.file t.file).body
  found : ∀ t ∈ s.stack, ∃ name, Finds w name t.feature t.file
  recorded : ∀ call ∈ s.calls, ∀ f, call.Ran f →
    ∃ name feature, feature ∈ s.features ∧ Finds w name feature f

theorem Nested.start (features : List Text) (main : List Statement) :
    Nested w rank (start features main) :=
  ⟨.nil, fun _ h => absurd h List.not_mem_nil, fun _ h => absurd h List.not_mem_nil,
    fun _ h => absurd h List.not_mem_nil⟩

theorem Nested.addCall (h : Nested w rank s) {call : Call F} {features : List Text}
    (hcall : ∀ f, ¬ call.Ran f) (hfeatures : s.features <+: features) :
    Nested w rank { s with features, calls := s.calls ++ [call] } := by
  refine ⟨h.ranks, h.own, h.found, ?_⟩
  intro c hc f hran
  rcases List.mem_append.mp hc with hc | hc
  · obtain ⟨name, feature, hmem, hfinds⟩ := h.recorded c hc f hran
    exact ⟨name, feature, hfeatures.subset hmem, hfinds⟩
  · rw [List.mem_singleton.mp hc] at hran
    exact absurd hran (hcall f)

theorem Nested.advance (h : Nested w rank s) {x : Statement} {rest : List Statement}
    (hcur : s.current = x :: rest) : Nested w rank (s.advance rest) := by
  unfold State.advance
  unfold State.current at hcur
  split at hcur
  · rename_i hstack
    rw [hstack]
    exact ⟨hstack ▸ h.ranks, hstack ▸ h.own, hstack ▸ h.found, h.recorded⟩
  · rename_i t below hstack
    have hranks := h.ranks
    have hown := h.own
    have hfound := h.found
    rw [hstack] at hranks hown hfound
    refine ⟨?_, ?_, ?_, h.recorded⟩
    · rw [List.pairwise_cons] at hranks ⊢
      exact hranks
    · intro u hu y hy
      rcases List.mem_cons.mp hu with rfl | hu
      · exact hown t List.mem_cons_self y (hcur ▸ List.mem_cons_of_mem _ hy)
      · exact hown u (List.mem_cons_of_mem _ hu) y hy
    · intro u hu
      rcases List.mem_cons.mp hu with rfl | hu
      · exact hfound t List.mem_cons_self
      · exact hfound u (List.mem_cons_of_mem _ hu)

theorem Nested.finish (h : Nested w rank s) (error : Option Failure) :
    Nested w rank (s.finish error) := by
  rcases finish_cases s error with ⟨-, heq⟩ |
    ⟨t, below, after, hstack, hbelow, hcalls, hafter, hprefix, hmem⟩
  · rw [heq]
    exact ⟨h.ranks, h.own, h.found, h.recorded⟩
  · have hsub : ∀ u ∈ below, u ∈ s.stack := fun u hu => hstack ▸ List.mem_cons_of_mem _ hu
    refine ⟨?_, ?_, ?_, ?_⟩
    · rw [hbelow]
      have hranks := h.ranks
      rw [hstack, List.pairwise_cons] at hranks
      exact hranks.2
    · rw [hbelow]
      exact fun u hu => h.own u (hsub u hu)
    · rw [hbelow]
      exact fun u hu => h.found u (hsub u hu)
    · rw [hcalls, hafter]
      intro c hc f hran
      rcases List.mem_append.mp hc with hc | hc
      · obtain ⟨name, feature, hfeature, hfinds⟩ := h.recorded c hc f hran
        exact ⟨name, feature, hprefix.subset hfeature, hfinds⟩
      · rw [List.mem_singleton.mp hc, t.ending_ran_iff] at hran
        obtain ⟨name, hfinds⟩ := h.found t (hstack ▸ List.mem_cons_self)
        exact ⟨name, t.feature, hmem, hran ▸ hfinds⟩

/-- A file that is about to run has a lower rank than the ones that wait for it. -/
theorem Nested.lower (h : Nested w rank s) (hrank : ∀ f g, Requires w f g → rank g < rank f)
    {name feature : Text} {rescues : List ErrorClass} {rest : List Statement} {file : F}
    (hcur : s.current = .require name rescues :: rest) (hfinds : Finds w name feature file) :
    ∀ t ∈ s.stack, rank file < rank t.file := by
  unfold State.current at hcur
  split at hcur
  · rename_i hstack
    rw [hstack]
    exact fun _ h => absurd h List.not_mem_nil
  · rename_i t below hstack
    have hranks := h.ranks
    have hown := h.own t (hstack ▸ List.mem_cons_self) (.require name rescues)
      (hcur ▸ List.mem_cons_self)
    have htop : rank file < rank t.file := hrank _ _ ⟨name, rescues, feature, hown, hfinds⟩
    rw [hstack] at hranks ⊢
    rw [List.pairwise_cons] at hranks
    intro u hu
    rcases List.mem_cons.mp hu with rfl | hu
    · exact htop
    · exact htop.trans (hranks.1 u hu)

theorem Nested.step (h : Nested w rank s) (hrank : ∀ f g, Requires w f g → rank g < rank f) :
    Nested w rank (s.step w) := by
  have hstep := step_stepped w s
  generalize s.step w = s' at hstep
  cases hstep with
  | ended _ => exact h.finish none
  | raises _ => exact h.finish _
  | @returned name rescues rest result features hcur hcall =>
    have hran (f : F) : ¬ Call.Ran ⟨name, none, .notRun, s.features, features, .ok result⟩ f :=
      not_ran_ofRaised (show _ = Ending.ofRaised none from rfl) f
    have hprefix : (s.advance rest).features <+: features := by
      rw [advance_features]
      exact (require_returned hcall).2
    have hadd := (h.advance hcur).addCall hran hprefix
    rw [advance_calls] at hadd
    exact hadd
  | @rescued name rescues rest e file hcur _ =>
    have hrecord : Nested w rank (s.record name (.ofRaised file) (.error e)) :=
      h.addCall (not_ran_ofRaised rfl) (List.prefix_refl _)
    exact hrecord.advance hcur
  | @uncaught name rescues rest e file _ _ =>
    have hrecord : Nested w rank (s.record name (.ofRaised file) (.error e)) :=
      h.addCall (not_ran_ofRaised rfl) (List.prefix_refl _)
    exact hrecord.finish _
  | @waits name feature rescues rest body file hcur hcall =>
    obtain ⟨hpath, -, path, hfile, hbody⟩ := require_waiting hcall
    have hfinds : Finds w name feature file := ⟨hpath, path, hfile⟩
    have hnext := h.advance hcur
    have hlower := h.lower hrank hcur hfinds
    refine ⟨?_, ?_, ?_, hnext.recorded⟩
    · rw [List.pairwise_cons]
      refine ⟨?_, hnext.ranks⟩
      intro u hu
      have hmem : u.file ∈ (s.advance rest).stack.map Waiting.file := List.mem_map_of_mem hu
      rw [advance_files] at hmem
      obtain ⟨t, ht, heq⟩ := List.mem_map.mp hmem
      exact heq ▸ hlower t ht
    · intro u hu x hx
      rcases List.mem_cons.mp hu with rfl | hu
      · rcases sandboxLoadFile_body hbody with rfl | rfl
        · exact hx
        · exact absurd hx List.not_mem_nil
      · exact hnext.own u hu x hx
    · intro u hu
      rcases List.mem_cons.mp hu with rfl | hu
      · exact ⟨name, hfinds⟩
      · exact hnext.found u hu

theorem Nested.fresh (h : Nested w rank s) (hrank : ∀ f g, Requires w f g → rank g < rank f)
    (hpath : ∀ name name' feature feature' f, Finds w name feature f → Finds w name' feature' f →
      feature = feature') : Fresh w s := by
  intro name rescues rest feature file body hcur hcall
  obtain ⟨hfound, hnew, path, hfile, -⟩ := require_waiting hcall
  have hfinds : Finds w name feature file := ⟨hfound, path, hfile⟩
  constructor
  · intro hmem
    obtain ⟨t, ht, heq⟩ := List.mem_map.mp hmem
    have hlt := h.lower hrank hcur hfinds t ht
    rw [heq] at hlt
    exact absurd hlt (Nat.lt_irrefl _)
  · intro call hc hran
    obtain ⟨name', feature', hmem, hfinds'⟩ := h.recorded call hc file hran
    rw [hpath _ _ _ _ _ hfinds' hfinds] at hmem
    exact absurd hnew (by simpa [required?] using hmem)

/-- Where no file requires itself through others, and each has one path, every step is fresh. -/
theorem fresh_of_acyclic (hrank : ∀ f g, Requires w f g → rank g < rank f)
    (hpath : ∀ name name' feature feature' f, Finds w name feature f → Finds w name' feature' f →
      feature = feature') (features : List Text) (main : List Statement) (n : Nat) :
    Fresh w (run w features main n) := by
  have hnested : Nested w rank (run w features main n) := by
    induction n with
    | zero => exact Nested.start features main
    | succ n ih => exact ih.step hrank
  exact hnested.fresh hrank hpath

end Acyclic

/-! ## Two files that require each other -/

end PicoRuby.Require
