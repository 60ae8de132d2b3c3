import Mathlib.Data.List.Basic

/-!
# Computations that may fail

Inversion of a computation in `Except` that returned, and of one over a list in `Option`, and
`ErrorsIn`: every error the computation can end with satisfies a predicate.
-/

namespace PicoRuby.Shared

set_option autoImplicit false

universe u v w
variable {ε : Type u} {α β : Type v} {P : ε → Prop}

section Returned
variable {x : Except ε α} {f : α → Except ε β} {g : α → β} {b : β}

theorem bind_eq_ok : (x >>= f) = .ok b ↔ ∃ a, x = .ok a ∧ f a = .ok b := by
  cases x with
  | error e => exact ⟨nofun, nofun⟩
  | ok a => exact ⟨fun h => ⟨a, rfl, h⟩, fun ⟨_, ha, h⟩ => Except.ok.inj ha ▸ h⟩

theorem bind_of_ok {a : α} (h : x = .ok a) : (x >>= f) = f a := by
  rw [h]
  rfl

theorem bind_of_error {e : ε} (h : x = .error e) : (x >>= f) = .error e := by
  rw [h]
  rfl

/-- A computation that returns goes on to one that does. -/
theorem exists_bind_ok {Q : α → Prop} {R : β → Prop} (hx : ∃ a, x = .ok a ∧ Q a)
    (hf : ∀ a, Q a → ∃ b, f a = .ok b ∧ R b) : ∃ b, (x >>= f) = .ok b ∧ R b := by
  obtain ⟨a, rfl, ha⟩ := hx
  exact hf a ha

theorem map_eq_ok : x.map g = .ok b ↔ ∃ a, x = .ok a ∧ g a = b := by
  cases x with
  | error e => exact ⟨nofun, nofun⟩
  | ok a => exact ⟨fun h => ⟨a, rfl, Except.ok.inj h⟩, fun ⟨_, ha, h⟩ => by cases ha; rw [← h]; rfl⟩

theorem mapError_eq_ok {ε' : Type w} {h : ε → ε'} {a : α} : x.mapError h = .ok a ↔ x = .ok a := by
  cases x with
  | error e => exact ⟨nofun, nofun⟩
  | ok b => exact ⟨fun heq => congrArg Except.ok (Except.ok.inj heq), fun heq => congrArg Except.ok (Except.ok.inj heq)⟩

theorem mapM_ok {g : α → β} {l : List α} {f : α → Except ε β} (h : ∀ a ∈ l, f a = .ok (g a)) :
    l.mapM f = .ok (l.map g) := by
  induction l with
  | nil => rfl
  | cons a l ih =>
    rw [List.mapM_cons, h a List.mem_cons_self, ih fun b hb => h b (List.mem_cons_of_mem _ hb)]
    rfl

end Returned

section Options
variable {f : α → Option β} {l : List α} {m : List β}

/-- All of a list succeed, each with its own result. -/
theorem mapM_eq_some_iff : l.mapM f = some m ↔ l.map f = m.map some := by
  induction l generalizing m with
  | nil =>
    cases m with
    | nil => simp
    | cons b m => simp
  | cons a l ih =>
    rw [List.mapM_cons, List.map_cons]
    constructor
    · intro h
      obtain ⟨b, hb, h⟩ := Option.bind_eq_some_iff.mp h
      obtain ⟨m', hm, h⟩ := Option.bind_eq_some_iff.mp h
      cases h
      rw [List.map_cons, hb, ih.mp hm]
    · intro h
      cases m with
      | nil => cases h
      | cons b m =>
        rw [List.map_cons, List.cons.injEq] at h
        rw [h.1, ih.mpr h.2]
        rfl

theorem mapM_isSome : (l.mapM f).isSome = true ↔ ∀ a ∈ l, (f a).isSome = true := by
  induction l with
  | nil => simp
  | cons a l ih =>
    rw [List.mapM_cons, List.forall_mem_cons, ← ih]
    cases f a with
    | none => simp
    | some b => cases l.mapM f <;> simp

end Options

/-- Every error of `x` satisfies `P`. -/
def ErrorsIn (P : ε → Prop) (x : Except ε α) : Prop := ∀ e, x = .error e → P e

section Errors
variable {x : Except ε α} {f : α → Except ε β} {g : α → β} {a : α} {e : ε}

theorem ErrorsIn.ok : ErrorsIn P (.ok a : Except ε α) := nofun

theorem ErrorsIn.error (h : P e) : ErrorsIn P (.error e : Except ε α) := by
  rintro _ ⟨⟩
  exact h

theorem ErrorsIn.map (h : ErrorsIn P x) : ErrorsIn P (x.map g) := by
  cases x with
  | error e => exact ErrorsIn.error (h e rfl)
  | ok a => exact ErrorsIn.ok

theorem ErrorsIn.bind (h : ErrorsIn P x) (hf : ∀ a, x = .ok a → ErrorsIn P (f a)) :
    ErrorsIn P (x >>= f) := by
  cases x with
  | error e => exact ErrorsIn.error (h e rfl)
  | ok a => exact hf a rfl

end Errors

end PicoRuby.Shared

/-!
# Counting loops

A loop over an index whose body may fail, and a limit up to which the body succeeds.
-/

namespace PicoRuby.Shared

set_option autoImplicit false

universe u v
variable {ε : Type u} {σ : Type v}

/-- `n` rounds, from the index `i` on. -/
def loop (body : Nat → σ → Except ε σ) (i : Nat) : Nat → σ → Except ε σ
  | 0, s => .ok s
  | n + 1, s =>
    match body i s with
    | .ok s => loop body (i + 1) n s
    | .error e => .error e

section Limit
variable {body : Nat → σ → Except ε σ} {P : Nat → σ → Prop} {limit : Nat}
  (hbody : ∀ i s, i < limit → P i s → ∃ s', body i s = .ok s' ∧ P (i + 1) s')
include hbody

end Limit

end PicoRuby.Shared
