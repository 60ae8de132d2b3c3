import Mathlib.Data.List.DropRight
import Mathlib.Data.List.Basic

/-!
# Slash-separated paths

A normalised absolute path is the list of its names. `walk` follows segments from a directory,
with `.` and empty segments left out and `..` going up, at the root to the root itself.
-/

namespace PicoRuby.Shared

set_option autoImplicit false

universe u

/-! ## Splitting -/

section Fields
variable {α : Type u} [BEq α] [DecidableEq (List α)]

/-- `String#split` on one character: empty strings at the end are left out. -/
def fields (sep : α) (s : List α) : List (List α) := (s.splitOn sep).rdropWhile (· = [])

/-- The strings left out are empty. -/
theorem exists_fields_append (sep : α) (s : List α) :
    ∃ k, s.splitOn sep = fields sep s ++ List.replicate k [] := by
  unfold fields
  generalize s.splitOn sep = l
  induction l using List.reverseRecOn with
  | nil => exact ⟨0, rfl⟩
  | append_singleton l t ih =>
    by_cases ht : t = []
    · obtain ⟨k, hk⟩ := ih
      refine ⟨k + 1, ?_⟩
      rw [List.rdropWhile_concat_pos _ _ _ (by simpa using ht), List.replicate_succ', ht,
        ← List.append_assoc, ← hk]
    · exact ⟨0, by rw [List.rdropWhile_concat_neg _ _ _ (by simpa using ht), List.replicate_zero,
        List.append_nil]⟩

/-- Empty strings at the end make no difference to who reads a missing one as empty. -/
theorem fields_getD (sep : α) (s : List α) (i : Nat) :
    ((fields sep s)[i]?).getD [] = ((s.splitOn sep)[i]?).getD [] := by
  obtain ⟨k, hk⟩ := exists_fields_append sep s
  rw [hk, List.getElem?_append]
  split
  · rfl
  · rename_i hi
    rw [List.getElem?_eq_none (Nat.le_of_not_lt hi), List.getElem?_replicate]
    split
    · rfl
    · rfl

end Fields

theorem not_mem_splitOn {α : Type u} [BEq α] [LawfulBEq α] {sep : α} {s t : List α}
    (h : t ∈ s.splitOn sep) : sep ∉ t := by
  induction s generalizing t with
  | nil =>
    rw [List.splitOn_nil, List.mem_singleton] at h
    rw [h]
    exact List.not_mem_nil
  | cons c s ih =>
    rw [List.splitOn_cons_eq_if_modifyHead] at h
    split at h
    · rcases List.mem_cons.mp h with rfl | htail
      · exact List.not_mem_nil
      · exact ih htail
    · rename_i hc
      cases hsplit : s.splitOn sep with
      | nil => exact absurd hsplit (List.splitOn_ne_nil _ _)
      | cons first more =>
        rw [hsplit, List.modifyHead_cons] at h
        rcases List.mem_cons.mp h with rfl | htail
        · rw [List.mem_cons, not_or]
          refine ⟨fun heq => hc (by rw [heq]; exact beq_self_eq_true c), ?_⟩
          exact ih (hsplit ▸ List.mem_cons_self)
        · exact ih (hsplit ▸ List.mem_cons_of_mem _ htail)

/-- The first part goes up to the first separator. -/
theorem exists_splitOn_cons {α : Type u} [BEq α] [LawfulBEq α] (sep : α) (s : List α) :
    ∃ more, s.splitOn sep = s.takeWhile (· != sep) :: more := by
  induction s with
  | nil => exact ⟨[], rfl⟩
  | cons c s ih =>
    obtain ⟨more, hmore⟩ := ih
    rw [List.splitOn_cons_eq_if_modifyHead]
    split
    · rename_i hc
      refine ⟨s.splitOn sep, ?_⟩
      rw [List.takeWhile_cons_of_neg (by simpa using hc)]
    · rename_i hc
      refine ⟨more, ?_⟩
      rw [hmore, List.takeWhile_cons_of_pos (by simpa using hc)]
      rfl

/-! ## Names and paths -/

/-- The characters of a path or of a part of it. -/
abbrev Name := List Char

/-- A name that stands for itself. -/
def IsName (n : Name) : Prop := n ≠ [] ∧ '/' ∉ n ∧ n ≠ ['.'] ∧ n ≠ ['.', '.']

instance (n : Name) : Decidable (IsName n) := inferInstanceAs (Decidable (_ ∧ _ ∧ _ ∧ _))

/-- A normalised absolute path. -/
@[ext] structure Path where
  names : List Name
  valid : ∀ n ∈ names, IsName n

/-- The names, each behind a slash. -/
def slashed (ns : List Name) : Name := ns.flatMap ('/' :: ·)

def Path.render (p : Path) : Name := if p.names = [] then ['/'] else slashed p.names

theorem slashed_append (ms ns : List Name) : slashed (ms ++ ns) = slashed ms ++ slashed ns :=
  List.flatMap_append

theorem slashed_cons (n : Name) (ns : List Name) : slashed (n :: ns) = '/' :: (n ++ slashed ns) := rfl

theorem Path.render_eq_cons (p : Path) : p.render = '/' :: p.render.tail := by
  obtain ⟨ns, hvalid⟩ := p
  cases ns with
  | nil => rfl
  | cons n ns => rfl

theorem Path.render_ne_nil (p : Path) : p.render ≠ [] := by
  rw [p.render_eq_cons]
  exact List.cons_ne_nil _ _

theorem splitOn_slashed {n : Name} {ns : List Name} (h : ∀ m ∈ n :: ns, '/' ∉ m) :
    (n ++ slashed ns).splitOn '/' = n :: ns := by
  induction ns generalizing n with
  | nil =>
    rw [show slashed [] = [] from rfl, List.append_nil, List.splitOn_eq_singleton]
    exact h n List.mem_cons_self
  | cons m ns ih =>
    rw [slashed_cons, List.splitOn_append_cons_self_of_not_mem (h n List.mem_cons_self),
      ih fun k hk => h k (List.mem_cons_of_mem _ hk)]

theorem Path.splitOn_render (p : Path) (h : p.names ≠ []) :
    p.render.splitOn '/' = [] :: p.names := by
  obtain ⟨ns, hvalid⟩ := p
  cases ns with
  | nil => exact absurd rfl h
  | cons n ns =>
    rw [render, if_neg h]
    change ([] ++ slashed (n :: ns)).splitOn '/' = _
    refine splitOn_slashed fun m hm => ?_
    rcases List.mem_cons.mp hm with rfl | hm
    · exact List.not_mem_nil
    · exact (hvalid m hm).2.1

theorem Path.render_injective {p q : Path} (h : p.render = q.render) : p = q := by
  have hcons (r : Path) (hr : r.names ≠ []) : r.render.length ≠ 1 := by
    obtain ⟨ns, hvalid⟩ := r
    cases ns with
    | nil => exact absurd rfl hr
    | cons n ns =>
      have hn : n ≠ [] := (hvalid n List.mem_cons_self).1
      have hpos := List.length_pos_iff.mpr hn
      rw [render, if_neg hr, slashed_cons, List.length_cons, List.length_append]
      omega
  apply Path.ext
  by_cases hp : p.names = []
  · by_cases hq : q.names = []
    · rw [hp, hq]
    · rw [render, if_pos hp] at h
      exact absurd (by rw [← h]; rfl) (hcons q hq)
  · by_cases hq : q.names = []
    · have hlen := hcons p hp
      rw [h, render, if_pos hq] at hlen
      exact absurd rfl hlen
    · have hsplit := p.splitOn_render hp
      rw [h, q.splitOn_render hq, List.cons.injEq] at hsplit
      exact hsplit.2.symm

/-! ## Resolution -/

/-- One segment further. -/
def walkStep (base : List Name) (n : Name) : List Name :=
  if n = [] ∨ n = ['.'] then base
  else if n = ['.', '.'] then base.dropLast
  else base ++ [n]

def walk (base segments : List Name) : List Name := segments.foldl walkStep base

theorem walk_append (base ms ns : List Name) : walk base (ms ++ ns) = walk (walk base ms) ns :=
  List.foldl_append

theorem walk_valid {base segments : List Name} (hb : ∀ n ∈ base, IsName n)
    (hs : ∀ n ∈ segments, '/' ∉ n) : ∀ n ∈ walk base segments, IsName n := by
  induction segments generalizing base with
  | nil => exact hb
  | cons s segments ih =>
    refine ih ?_ fun n hn => hs n (List.mem_cons_of_mem _ hn)
    intro n hn
    unfold walkStep at hn
    split at hn
    · exact hb n hn
    · rename_i hblank
      split at hn
      · exact hb n (List.dropLast_subset _ hn)
      · rename_i hup
        rw [not_or] at hblank
        rcases List.mem_append.mp hn with hn | hn
        · exact hb n hn
        · rw [List.mem_singleton.mp hn]
          exact ⟨hblank.1, hs s List.mem_cons_self, hblank.2, hup⟩

/-- Names that stand for themselves are followed one by one. -/
theorem walk_names {base ns : List Name} (h : ∀ n ∈ ns, IsName n) : walk base ns = base ++ ns := by
  induction ns generalizing base with
  | nil => exact (List.append_nil base).symm
  | cons n ns ih =>
    have hn := h n List.mem_cons_self
    have hstep : walkStep base n = base ++ [n] := by
      rw [walkStep, if_neg (by rw [not_or]; exact ⟨hn.1, hn.2.2.1⟩), if_neg hn.2.2.2]
    rw [walk, List.foldl_cons, hstep]
    change walk (base ++ [n]) ns = _
    rw [ih fun m hm => h m (List.mem_cons_of_mem _ hm), List.append_assoc]
    rfl

theorem walk_blank (base : List Name) (k : Nat) : walk base (List.replicate k []) = base := by
  induction k with
  | zero => rfl
  | succ k ih =>
    rw [List.replicate_succ]
    exact ih

theorem walk_fields (base : List Name) (t : Name) :
    walk base (fields '/' t) = walk base (t.splitOn '/') := by
  obtain ⟨k, hk⟩ := exists_fields_append '/' t
  rw [hk, walk_append, walk_blank]

/-- The path that a text names from a directory. -/
def Path.resolve (base : Path) (t : Name) : Path where
  names := walk (if t.head? = some '/' then [] else base.names) (t.splitOn '/')
  valid := by
    refine walk_valid ?_ fun n hn => not_mem_splitOn hn
    intro n hn
    split at hn
    · exact absurd hn List.not_mem_nil
    · exact base.valid n hn

theorem Path.resolve_render (base p : Path) : base.resolve p.render = p := by
  apply Path.ext
  by_cases hp : p.names = []
  · rw [render, if_pos hp, hp]
    rfl
  · change walk (if p.render.head? = some '/' then [] else base.names) (p.render.splitOn '/') = _
    have hhead : p.render.head? = some '/' := by
      rw [p.render_eq_cons]
      rfl
    rw [if_pos hhead, p.splitOn_render hp]
    change walk [] p.names = _
    rw [walk_names p.valid, List.nil_append]

end PicoRuby.Shared
