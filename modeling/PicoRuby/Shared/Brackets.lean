import Mathlib.Data.List.Infix

/-!
# Brackets

What opens weighs 1 and what closes weighs -1, so that the weight of what is in front of a place is its depth.
-/

namespace PicoRuby.Shared

set_option autoImplicit false

variable {α : Type} (weight : α → Int)

def height : List α → Int
  | [] => 0
  | a :: l => weight a + height l

/-- All that is passed on the way is at such heights. -/
def Throughout (P : Int → Prop) (l : List α) : Prop := ∀ p, p <+: l → P (height weight p)

/-- Nothing is closed that is not open, and nothing stays open. -/
structure Balanced (l : List α) : Prop where
  nonneg : Throughout weight (0 ≤ ·) l
  closed : height weight l = 0

section Height
variable {weight} {P Q : Int → Prop} {a : α} {l l' p : List α}

@[simp] theorem height_nil : height weight [] = 0 := rfl

@[simp] theorem height_cons (a : α) (l : List α) : height weight (a :: l) = weight a + height weight l :=
  rfl

@[simp] theorem height_append (l l' : List α) : height weight (l ++ l') = height weight l + height weight l' := by
  induction l with
  | nil => exact (Int.zero_add _).symm
  | cons a l ih => rw [List.cons_append, height_cons, height_cons, ih, Int.add_assoc]

theorem height_of_flat (h : ∀ a ∈ l, weight a = 0) : height weight l = 0 := by
  induction l with
  | nil => rfl
  | cons a l ih =>
    rw [height_cons, h a List.mem_cons_self, ih fun b hb => h b (List.mem_cons_of_mem a hb)]
    rfl

theorem prefix_append_iff : p <+: l ++ l' ↔ p <+: l ∨ ∃ q, q <+: l' ∧ p = l ++ q := by
  constructor
  · intro h
    rcases List.prefix_or_prefix_of_prefix h (List.prefix_append l l') with hp | ⟨q, rfl⟩
    · exact Or.inl hp
    · exact Or.inr ⟨q, (List.prefix_append_right_inj l).mp h, rfl⟩
  · rintro (hp | ⟨q, hq, rfl⟩)
    · exact hp.trans (List.prefix_append l l')
    · exact (List.prefix_append_right_inj l).mpr hq

theorem Throughout.mono (h : Throughout weight P l) (hpq : ∀ k, P k → Q k) : Throughout weight Q l :=
  fun p hp => hpq _ (h p hp)

theorem Throughout.initial (h : Throughout weight P l) (hp : p <+: l) : Throughout weight P p :=
  fun q hq => h q (hq.trans hp)

theorem Throughout.height (h : Throughout weight P l) : P (height weight l) := h l (List.prefix_refl l)

theorem Throughout.start (h : Throughout weight P l) : P 0 := h [] (List.nil_prefix)

@[simp] theorem throughout_nil : Throughout weight P [] ↔ P 0 := by
  constructor
  · exact Throughout.start
  · intro h p hp
    rw [List.prefix_nil.mp hp]
    exact h

theorem throughout_cons :
    Throughout weight P (a :: l) ↔ P 0 ∧ Throughout weight (fun k => P (weight a + k)) l := by
  constructor
  · intro h
    refine ⟨h.start, fun p hp => ?_⟩
    have hcons := h (a :: p) ((List.prefix_cons_inj a).mpr hp)
    rwa [height_cons] at hcons
  · rintro ⟨hzero, h⟩ p hp
    rcases List.prefix_cons_iff.mp hp with rfl | ⟨q, rfl, hq⟩
    · exact hzero
    · rw [height_cons]
      exact h q hq

theorem throughout_append :
    Throughout weight P (l ++ l') ↔
      Throughout weight P l ∧ Throughout weight (fun k => P (height weight l + k)) l' := by
  constructor
  · intro h
    refine ⟨h.initial (List.prefix_append l l'), fun p hp => ?_⟩
    have hall := h (l ++ p) ((List.prefix_append_right_inj l).mpr hp)
    rwa [height_append] at hall
  · rintro ⟨hl, hl'⟩ p hp
    rcases prefix_append_iff.mp hp with hp | ⟨q, hq, rfl⟩
    · exact hl p hp
    · rw [height_append]
      exact hl' q hq

theorem throughout_of_flat (h : ∀ a ∈ l, weight a = 0) (hzero : P 0) : Throughout weight P l := by
  intro p hp
  rw [height_of_flat fun a ha => h a (hp.subset ha)]
  exact hzero

end Height

end PicoRuby.Shared
