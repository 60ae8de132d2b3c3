import Mathlib.Logic.Function.Basic
import Mathlib.Data.List.Basic

/-!
# A heap of blocks

Blocks with what is in them. A block that is freed is never given out again, so an old pointer is told
from the new one.
-/

namespace PicoRuby.Shared

set_option autoImplicit false

universe u

structure Heap (α : Type u) where
  blocks : Nat → Option α
  next : Nat

namespace Heap
variable {α : Type u} {h : Heap α} {block other : Nat} {x y : α}

/-- A heap with one block. -/
def single (x : α) : Heap α := ⟨fun block => if block = 0 then some x else none, 1⟩

def read (h : Heap α) (block : Nat) : Option α := h.blocks block

/-- The block is freed and a new one takes its place. -/
def realloc (h : Heap α) (block : Nat) (x : α) : Nat × Heap α :=
  (h.next, ⟨fun other => if other = h.next then some x else if other = block then none
    else h.blocks other, h.next + 1⟩)

/-- The one block that is allocated, and what is in it. -/
structure Only (h : Heap α) (block : Nat) (x : α) : Prop where
  read : h.read block = some x
  others : ∀ other, other ≠ block → h.read other = none
  lt : block < h.next

/-- A block that was freed. -/
structure Dead (h : Heap α) (block : Nat) : Prop where
  read : h.read block = none
  lt : block < h.next

theorem single_only (x : α) : (single x).Only 0 x := by
  refine ⟨rfl, ?_, Nat.one_pos⟩
  intro other hne
  exact if_neg hne

theorem Only.realloc (hx : h.Only block x) (y : α) :
    (h.realloc block y).2.Only (h.realloc block y).1 y := by
  refine ⟨if_pos rfl, ?_, Nat.lt_succ_self _⟩
  intro other hne
  replace hne : other ≠ h.next := hne
  change (if other = h.next then some y else if other = block then none else h.blocks other) = none
  rw [if_neg hne]
  split
  · rfl
  · rename_i hother
    exact hx.others other hother

theorem Only.dead_realloc (hx : h.Only block x) (y : α) : (h.realloc block y).2.Dead block := by
  have hne : block ≠ h.next := Nat.ne_of_lt hx.lt
  refine ⟨?_, Nat.lt_succ_of_lt hx.lt⟩
  change (if block = h.next then some y else if block = block then none else h.blocks block) = none
  rw [if_neg hne, if_pos rfl]

theorem Dead.realloc (hdead : h.Dead other) (y : α) : (h.realloc block y).2.Dead other := by
  have hne : other ≠ h.next := Nat.ne_of_lt hdead.lt
  refine ⟨?_, Nat.lt_succ_of_lt hdead.lt⟩
  change (if other = h.next then some y else if other = block then none else h.blocks other) = none
  rw [if_neg hne]
  split
  · rfl
  · exact hdead.read

end Heap

end PicoRuby.Shared

/-!
# Singly linked lists in a heap

`next` gives the successor field of every cell. `Linked next head l` says that
following `next` from `head` visits exactly the cells of `l`, in that order, and
then reaches the null pointer. Such a walk is finite, so the list is acyclic.
-/

namespace PicoRuby.Shared

set_option autoImplicit false

universe u
variable {α : Type u}

def Linked (next : α → Option α) : Option α → List α → Prop
  | head, [] => head = none
  | head, a :: l => head = some a ∧ Linked next (next a) l

namespace Linked
variable {next : α → Option α} {head : Option α} {a p r : α} {l pre post : List α}

@[simp] theorem nil_iff : Linked next head [] ↔ head = none := Iff.rfl

@[simp] theorem cons_iff :
    Linked next head (a :: l) ↔ head = some a ∧ Linked next (next a) l := Iff.rfl

theorem head_eq (h : Linked next head l) : head = l.head? := by
  cases l with
  | nil => exact h
  | cons a l => exact h.1

theorem unique {l' : List α} (h : Linked next head l) (h' : Linked next head l') : l = l' := by
  induction l generalizing head l' with
  | nil =>
    cases l' with
    | nil => rfl
    | cons b l' => exact absurd (h.symm.trans h'.1) (by simp)
  | cons a l ih =>
    cases l' with
    | nil => exact absurd (h'.symm.trans h.1) (by simp)
    | cons b l' =>
      have hab : a = b := Option.some.inj (h.1.symm.trans h'.1)
      subst b
      rw [ih h.2 h'.2]

theorem suffix (h : Linked next head (pre ++ post)) : Linked next post.head? post := by
  induction pre generalizing head with
  | nil => exact h.head_eq ▸ h
  | cons b pre ih => exact ih h.2

/-- A finite walk never meets a cell twice: the walk from a cell is determined by that cell. -/
theorem nodup (h : Linked next head l) : l.Nodup := by
  induction l generalizing head with
  | nil => exact List.nodup_nil
  | cons a l ih =>
    refine List.nodup_cons.mpr ⟨fun hmem => ?_, ih h.2⟩
    obtain ⟨pre, post, rfl⟩ := List.append_of_mem hmem
    have hsuffix : Linked next (some a) (a :: post) := suffix h.2
    have heq := unique h (h.1 ▸ hsuffix)
    have hlen := congrArg List.length heq
    simp at hlen
    omega

/-- A walk reads the successors of its own cells only. -/
theorem congr {next' : α → Option α} (h : Linked next head l) (heq : ∀ a ∈ l, next' a = next a) :
    Linked next' head l := by
  induction l generalizing head with
  | nil => exact h
  | cons a l ih =>
    rw [cons_iff, heq a List.mem_cons_self]
    exact ⟨h.1, ih h.2 fun b hb => heq b (List.mem_cons_of_mem a hb)⟩

section Update
variable [DecidableEq α]

theorem update_of_not_mem {x : Option α} (hp : p ∉ l) :
    Linked (Function.update next p x) head l ↔ Linked next head l := by
  induction l generalizing head with
  | nil => exact Iff.rfl
  | cons a l ih =>
    obtain ⟨hne, hl⟩ := not_or.mp (List.mem_cons.not.mp hp)
    rw [cons_iff, cons_iff, Function.update_of_ne (Ne.symm hne), ih hl]

theorem push (h : Linked next head l) (hp : p ∉ l) :
    Linked (Function.update next p head) (some p) (p :: l) := by
  refine ⟨rfl, ?_⟩
  rw [Function.update_self, update_of_not_mem hp]
  exact h

/-- `p->next = r->next; r->next = p` puts `p` right behind `r`. -/
theorem insert_after (h : Linked next head (pre ++ r :: post)) (hp : p ∉ pre ++ r :: post) :
    Linked (Function.update (Function.update next p (next r)) r (some p)) head
      (pre ++ r :: p :: post) := by
  induction pre generalizing head with
  | nil =>
    have hnd := h.nodup
    simp only [List.nil_append, List.nodup_cons, List.mem_cons, not_or] at hnd hp
    refine ⟨h.1, ?_⟩
    rw [Function.update_self]
    refine ⟨rfl, ?_⟩
    rw [Function.update_of_ne hp.1, Function.update_self, update_of_not_mem hnd.1,
      update_of_not_mem hp.2]
    exact h.2
  | cons b pre ih =>
    have hnd := h.nodup
    simp only [List.cons_append, List.nodup_cons, List.mem_cons, not_or, List.mem_append] at hnd hp
    refine ⟨h.1, ?_⟩
    rw [Function.update_of_ne hnd.1.2.1, Function.update_of_ne (Ne.symm hp.1)]
    exact ih h.2 (by simpa using hp.2)

/-- `r->next = p->next; p->next = NULL` takes out the `p` right behind `r`. -/
theorem unlink_after (h : Linked next head (pre ++ r :: p :: post)) :
    Linked (Function.update (Function.update next r (next p)) p none) head (pre ++ r :: post) := by
  induction pre generalizing head with
  | nil =>
    have hnd := h.nodup
    simp only [List.nil_append, List.nodup_cons, List.mem_cons, not_or] at hnd
    refine ⟨h.1, ?_⟩
    rw [Function.update_of_ne hnd.1.1, Function.update_self, update_of_not_mem hnd.2.1,
      update_of_not_mem hnd.1.2]
    exact h.2.2
  | cons b pre ih =>
    have hnd := h.nodup
    simp only [List.cons_append, List.nodup_cons, List.mem_cons, not_or, List.mem_append] at hnd
    refine ⟨h.1, ?_⟩
    rw [Function.update_of_ne hnd.1.2.2.1, Function.update_of_ne hnd.1.2.1]
    exact ih h.2

/-- `r->next = NULL` ends the list at `r`. -/
theorem cut (h : Linked next head (pre ++ r :: post)) :
    Linked (Function.update next r none) head (pre ++ [r]) := by
  induction pre generalizing head with
  | nil =>
    refine ⟨h.1, ?_⟩
    rw [Function.update_self]
    rfl
  | cons b pre ih =>
    have hnd := h.nodup
    simp only [List.cons_append, List.nodup_cons, List.mem_append, List.mem_cons, not_or] at hnd
    refine ⟨h.1, ?_⟩
    rw [Function.update_of_ne hnd.1.2.1]
    exact ih h.2

theorem pop (h : Linked next head (p :: l)) :
    Linked (Function.update next p none) (next p) l := by
  rw [update_of_not_mem (List.nodup_cons.mp h.nodup).1]
  exact h.2

end Update

end Linked

end PicoRuby.Shared
