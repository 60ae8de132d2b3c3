import Mathlib.Data.List.Basic

/-!
# Memory written front to back

An allocation of a fixed size and the index of the next write. A write outside of the allocation is lost.
-/

namespace PicoRuby.Shared

set_option autoImplicit false

variable {α : Type}

structure Output (α : Type) where
  memory : List α
  index : Nat

namespace Output

/-- What an allocation of so many cells holds is not known. -/
def alloc (garbage : Nat → α) (size : Nat) : Output α := ⟨(List.range size).map garbage, 0⟩

/-- `output[index++] = a`. -/
def put (o : Output α) (a : α) : Output α := ⟨o.memory.set o.index a, o.index + 1⟩

def puts (o : Output α) (l : List α) : Output α := l.foldl put o

/-- `l` is written, and there is room for so many writes. -/
def Holds (o : Output α) (l : List α) (room : Nat) : Prop := ∃ rest, o = ⟨l ++ rest, l.length⟩ ∧ rest.length = room

variable {o : Output α} {l m : List α} {room : Nat}

theorem alloc_holds (garbage : Nat → α) (size : Nat) : (alloc garbage size).Holds [] size := by
  refine ⟨(List.range size).map garbage, rfl, ?_⟩
  rw [List.length_map, List.length_range]

theorem Holds.put (h : o.Holds l (room + 1)) (a : α) : (o.put a).Holds (l ++ [a]) room := by
  obtain ⟨rest, rfl, hlength⟩ := h
  cases rest with
  | nil => simp at hlength
  | cons b rest =>
    refine ⟨rest, ?_, by simpa using hlength⟩
    simp [Output.put]

theorem Holds.puts (h : o.Holds l (m.length + room)) : (o.puts m).Holds (l ++ m) room := by
  induction m generalizing o l with
  | nil =>
    rw [List.append_nil]
    rwa [List.length_nil, Nat.zero_add] at h
  | cons a m ih =>
    rw [List.length_cons, Nat.add_right_comm] at h
    have htail := ih (h.put a)
    rwa [List.append_assoc] at htail

/-- The string made of the cells in front. -/
theorem Holds.take_eq (h : o.Holds l room) : o.memory.take l.length = l := by
  obtain ⟨rest, rfl, -⟩ := h
  exact List.take_left

theorem puts_index (o : Output α) (l : List α) : (o.puts l).index = o.index + l.length := by
  induction l generalizing o with
  | nil => rfl
  | cons a l ih =>
    refine (ih (o.put a)).trans ?_
    rw [Output.put, List.length_cons, Nat.add_right_comm, Nat.add_assoc]

/-- A loop whose rounds write as many cells each, at the place that its counter names. -/
theorem foldl_range_holds {step : List α → Nat → List α} {cells : Nat → List α} {width : Nat}
    (hcells : ∀ i, (cells i).length = width)
    (hstep : ∀ memory i, step memory i = (puts ⟨memory, i * width⟩ (cells i)).memory) (n : Nat) {memory : List α}
    (h : Holds ⟨memory, 0⟩ [] (n * width + room)) :
    Holds ⟨(List.range n).foldl step memory, n * width⟩ ((List.range n).flatMap cells) room := by
  induction n generalizing room with
  | zero => simpa using h
  | succ n ih =>
    have hsum : (n + 1) * width + room = n * width + ((cells n).length + room) := by
      rw [hcells, Nat.succ_mul, Nat.add_assoc]
    rw [hsum] at h
    have hround : (⟨step ((List.range n).foldl step memory) n, (n + 1) * width⟩ : Output α) =
        puts ⟨(List.range n).foldl step memory, n * width⟩ (cells n) := by
      have hindex := puts_index ⟨(List.range n).foldl step memory, n * width⟩ (cells n)
      rw [hcells, ← Nat.succ_mul] at hindex
      rw [hstep]
      exact congrArg _ hindex.symm
    rw [List.range_succ, List.foldl_append, List.flatMap_append, List.flatMap_singleton, List.foldl_cons, List.foldl_nil,
      hround]
    exact (ih h).puts

end Output

end PicoRuby.Shared
