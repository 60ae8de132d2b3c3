import Mathlib.Data.List.Induction
import Mathlib.Logic.Relation

/-!
# Runs of a labelled transition system

A run is a finite sequence of steps, each taken from a state and with an action
that satisfy a side condition `Ok`. The side condition is where a result about
every run says which steps it allows; `fun _ _ => True` allows them all.
-/

namespace PicoRuby.Shared

set_option autoImplicit false

universe u v w
variable {S : Type u} {A : Type v}

/-- Finite runs, grown at the end; the list holds the actions in order. -/
inductive Run (Step : S → A → S → Prop) (Ok : S → A → Prop) : S → List A → S → Prop where
  | refl (s : S) : Run Step Ok s [] s
  | snoc {s t u : S} {as : List A} {a : A} :
      Run Step Ok s as t → Ok t a → Step t a u → Run Step Ok s (as ++ [a]) u

namespace Run
variable {Step : S → A → S → Prop} {Ok Ok' : S → A → Prop} {s t u : S} {as bs : List A} {a : A}

theorem single (hok : Ok s a) (h : Step s a t) : Run Step Ok s [a] t := .snoc (.refl s) hok h

theorem trans (hst : Run Step Ok s as t) (htu : Run Step Ok t bs u) :
    Run Step Ok s (as ++ bs) u := by
  induction htu with
  | refl => simpa using hst
  | snoc _ hok hstep ih => simpa using Run.snoc ih hok hstep

theorem cons {a : A} (hok : Ok s a) (h : Step s a t) (htu : Run Step Ok t bs u) :
    Run Step Ok s (a :: bs) u := (single hok h).trans htu

/-- The last action of a run is taken from a state the rest of the run has reached. -/
theorem snoc_inv (h : Run Step Ok s (as ++ [a]) t) : ∃ u, Run Step Ok s as u ∧ Ok u a ∧ Step u a t := by
  generalize hbs : as ++ [a] = bs at h
  cases h with
  | refl => simp at hbs
  | snoc hrun hok hst =>
    obtain ⟨rfl, heq⟩ := List.append_inj' hbs rfl
    cases heq
    exact ⟨_, hrun, hok, hst⟩

theorem nil_inv (h : Run Step Ok s [] t) : t = s := by
  generalize hbs : ([] : List A) = bs at h
  cases h with
  | refl => rfl
  | snoc => simp at hbs

/-- The first action of a run is taken from its first state. -/
theorem cons_inv (h : Run Step Ok s (a :: as) t) :
    ∃ u, Ok s a ∧ Step s a u ∧ Run Step Ok u as t := by
  induction as using List.reverseRecOn generalizing t with
  | nil =>
    have hsnoc : Run Step Ok s ([] ++ [a]) t := h
    obtain ⟨u, hrun, hok, hst⟩ := hsnoc.snoc_inv
    rw [hrun.nil_inv] at hok hst
    exact ⟨t, hok, hst, .refl t⟩
  | append_singleton as b ih =>
    have hsnoc : Run Step Ok s ((a :: as) ++ [b]) t := h
    obtain ⟨v, hrun, hokb, hstb⟩ := hsnoc.snoc_inv
    obtain ⟨u, hok, hst, hrest⟩ := ih hrun
    exact ⟨u, hok, hst, hrest.snoc hokb hstb⟩

theorem append_inv (h : Run Step Ok s (as ++ bs) t) : ∃ u, Run Step Ok s as u ∧ Run Step Ok u bs t := by
  induction bs using List.reverseRecOn generalizing t with
  | nil =>
    rw [List.append_nil] at h
    exact ⟨t, h, .refl t⟩
  | append_singleton bs b ih =>
    rw [← List.append_assoc] at h
    obtain ⟨v, hrun, hok, hst⟩ := h.snoc_inv
    obtain ⟨u, has, hbs⟩ := ih hrun
    exact ⟨u, has, hbs.snoc hok hst⟩

theorem single_inv (h : Run Step Ok s [a] t) : Ok s a ∧ Step s a t := by
  obtain ⟨u, hok, hst, hrest⟩ := h.cons_inv
  rw [hrest.nil_inv]
  exact ⟨hok, hst⟩

theorem mono (himp : ∀ s a, Ok s a → Ok' s a) (h : Run Step Ok s as t) : Run Step Ok' s as t := by
  induction h with
  | refl => exact .refl _
  | snoc _ hok hstep ih => exact .snoc ih (himp _ _ hok) hstep

/-- What one step preserves, a whole run preserves. -/
theorem invariant {I : S → Prop} (h : Run Step Ok s as t)
    (hstep : ∀ s a t, I s → Ok s a → Step s a t → I t) (hs : I s) : I t := by
  induction h with
  | refl => exact hs
  | snoc _ hok hst ih => exact hstep _ _ _ ih hok hst

/-- A measure of the actions taken so far may take part in the invariant. -/
theorem invariant_actions {I : List A → S → Prop} (h : Run Step Ok s as t)
    (hstep : ∀ as s a t, I as s → Ok s a → Step s a t → I (as ++ [a]) t) (hs : I [] s) :
    I as t := by
  induction h with
  | refl => exact hs
  | snoc _ hok hst ih => exact hstep _ _ _ _ ih hok hst

/-- A run either passes through a state with `P` or keeps out of them to its end. -/
theorem visits_or_avoids (P : S → Prop) (h : Run Step Ok s as t) :
    (∃ as₁ as₂ u, as = as₁ ++ as₂ ∧ Run Step Ok s as₁ u ∧ Run Step Ok u as₂ t ∧ P u) ∨
      Run Step (fun s a => Ok s a ∧ ¬ P s) s as t ∧ ¬ P t := by
  induction h with
  | refl =>
    by_cases hp : P s
    · exact Or.inl ⟨[], [], s, rfl, .refl s, .refl s, hp⟩
    · exact Or.inr ⟨.refl s, hp⟩
  | @snoc t u as a hrun hok hst ih =>
    rcases ih with ⟨as₁, as₂, v, rfl, h₁, h₂, hv⟩ | ⟨havoid, ht⟩
    · exact Or.inl ⟨as₁, as₂ ++ [a], v, List.append_assoc .., h₁, .snoc h₂ hok hst, hv⟩
    · by_cases hp : P u
      · exact Or.inl ⟨as ++ [a], [], u, (List.append_nil _).symm, .snoc hrun hok hst, .refl u, hp⟩
      · exact Or.inr ⟨.snoc havoid ⟨hok, ht⟩ hst, hp⟩

/-- Steps that a function takes one after the other are a run. -/
theorem of_foldlM_ok {f : S → A → Option S} (hstep : ∀ s a t, f s a = some t → Ok s a ∧ Step s a t)
    (h : as.foldlM f s = some t) : Run Step Ok s as t := by
  induction as generalizing s with
  | nil =>
    cases h
    exact .refl _
  | cons a as ih =>
    rw [List.foldlM_cons] at h
    obtain ⟨u, hu, hrest⟩ := Option.bind_eq_some_iff.mp h
    obtain ⟨hok, hst⟩ := hstep s a u hu
    exact (ih hrest).cons hok hst

theorem of_foldlM {f : S → A → Option S} (hstep : ∀ s a t, f s a = some t → Step s a t)
    (h : as.foldlM f s = some t) : Run Step (fun _ _ => True) s as t :=
  of_foldlM_ok (fun s a t hst => ⟨trivial, hstep s a t hst⟩) h

theorem foldl {f : S → A → S} (hok : ∀ bs a cs, as = bs ++ a :: cs → Ok (bs.foldl f s) a) :
    Run (fun s a t => t = f s a) Ok s as (as.foldl f s) := by
  induction as using List.reverseRecOn with
  | nil => exact .refl s
  | append_singleton as a ih =>
    rw [List.foldl_append]
    refine .snoc (ih fun bs b cs heq => ?_) (hok as a [] rfl) rfl
    refine hok bs b (cs ++ [a]) ?_
    rw [heq, List.append_assoc, List.cons_append]

end Run

theorem forall_steps_cons {p : List A → A → Prop} {b : A} {as : List A} :
    (∀ pre a, pre ++ [a] <+: b :: as → p pre a) ↔ p [] b ∧ ∀ pre a, pre ++ [a] <+: as → p (b :: pre) a := by
  constructor
  · intro hall
    refine ⟨hall [] b (List.prefix_cons_inj b |>.mpr List.nil_prefix), fun pre a hpre => ?_⟩
    exact hall (b :: pre) a (List.prefix_cons_inj b |>.mpr hpre)
  · rintro ⟨hnil, hcons⟩ pre a hpre
    cases pre with
    | nil =>
      obtain ⟨rfl, -⟩ := List.cons_prefix_cons.mp hpre
      exact hnil
    | cons c pre =>
      obtain ⟨rfl, hpre'⟩ := List.cons_prefix_cons.mp hpre
      exact hcons pre a hpre'

theorem forall_steps_nil {p : List A → A → Prop} : ∀ pre a, pre ++ [a] <+: [] → p pre a := by
  intro pre a hpre
  simp at hpre

/-- What a step keeps that meets a side condition, holds all along the steps of a function that meet it. -/
theorem foldl_prefixes {f : S → A → S} {I : S → Prop} {Ok : S → A → Prop}
    (hstep : ∀ s a, I s → Ok s a → I (f s a)) {s : S} {as : List A} (hI : I s)
    (hok : ∀ pre a, pre ++ [a] <+: as → Ok (pre.foldl f s) a) : ∀ pre, pre <+: as → I (pre.foldl f s) := by
  intro pre
  induction pre using List.reverseRecOn with
  | nil => exact fun _ => hI
  | append_singleton pre a ih =>
    intro hpre
    rw [List.foldl_append]
    exact hstep _ a (ih ((List.prefix_append pre [a]).trans hpre)) (hok pre a hpre)

/-- A property that a step keeps exactly when it meets a side condition holds all along the steps of a function
exactly when each of them meets it. -/
theorem foldl_prefixes_iff {f : S → A → S} {I P : S → Prop} {Ok : S → A → Prop}
    (hstep : ∀ s a, I s → P s → (P (f s a) → I (f s a)) ∧ (P (f s a) ↔ Ok s a)) {s : S} {as : List A} (hI : I s)
    (hP : P s) : (∀ pre, pre <+: as → P (pre.foldl f s)) ↔
      ∀ pre a, pre ++ [a] <+: as → Ok (pre.foldl f s) a := by
  induction as generalizing s with
  | nil =>
    constructor
    · intro _ pre a hpre
      simp at hpre
    · intro _ pre hpre
      rw [List.prefix_nil.mp hpre]
      exact hP
  | cons a as ih =>
    obtain ⟨hnext, hiff⟩ := hstep s a hI hP
    constructor
    · intro hall pre b hpre
      have hPa : P (f s a) := hall [a] (List.prefix_cons_inj a |>.mpr List.nil_prefix)
      have hrest := (ih (hnext hPa) hPa).mp fun pre hpre => hall (a :: pre) (List.prefix_cons_inj a |>.mpr hpre)
      cases pre with
      | nil =>
        obtain ⟨rfl, -⟩ := List.cons_prefix_cons.mp hpre
        exact hiff.mp hPa
      | cons c pre =>
        obtain ⟨rfl, hpre'⟩ := List.cons_prefix_cons.mp hpre
        exact hrest pre b hpre'
    · intro hall pre hpre
      have hPa : P (f s a) := hiff.mpr (hall [] a (List.prefix_cons_inj a |>.mpr List.nil_prefix))
      have hrest := (ih (hnext hPa) hPa).mpr fun pre b hpre =>
        hall (a :: pre) b (List.prefix_cons_inj a |>.mpr hpre)
      cases pre with
      | nil => exact hP
      | cons c pre =>
        obtain ⟨rfl, hpre'⟩ := List.cons_prefix_cons.mp hpre
        exact hrest pre hpre'

/-- A step of the concrete system is matched by one step of the abstract system
with the same action, and the abstract side condition follows. -/
theorem Run.simulate {C : Type u} {B : Type w} {StepC : C → A → C → Prop} {StepB : B → A → B → Prop}
    {OkC : C → A → Prop} {OkB : B → A → Prop} {R : C → B → Prop} {c c' : C} {b : B} {as : List A}
    (h : Run StepC OkC c as c') (hR : R c b) (hok : ∀ c b a, R c b → OkC c a → OkB b a)
    (hsim : ∀ c b a c', R c b → StepC c a c' → ∃ b', StepB b a b' ∧ R c' b') :
    ∃ b', Run StepB OkB b as b' ∧ R c' b' := by
  induction h with
  | refl => exact ⟨b, .refl _, hR⟩
  | snoc _ hokc hst ih =>
    obtain ⟨b₁, hrun, hR₁⟩ := ih
    obtain ⟨b₂, hst₂, hR₂⟩ := hsim _ _ _ _ hR₁ hst
    exact ⟨b₂, .snoc hrun (hok _ _ _ hR₁ hokc) hst₂, hR₂⟩

end PicoRuby.Shared
