import PicoRuby.Fat.Chain

/-!
# Files as cluster chains

What the FAT stands for: every file has its clusters in order, no cluster is in two files, and an entry is not 0 just
when its cluster is in a file or was lost before. Each change that the functions make to the table is a change of one
file.
-/

namespace PicoRuby.Fat

set_option autoImplicit false

universe u
variable {F : Type u} {t t' : Nat → Nat} {n c p eoc : Nat} {lost : Nat → Prop} {files : F → List Nat} {f : F}
  {l pre post : List Nat}

/-! ## What a table stands for -/

/-- A table with `n` entries, the clusters that are in no file though they are not free, and the files. -/
structure Represents (t : Nat → Nat) (n : Nat) (lost : Nat → Prop) (files : F → List Nat) : Prop where
  chained : ∀ f, Chained t n (files f)
  disjoint : ∀ f g c, c ∈ files f → c ∈ files g → f = g
  used : ∀ c, 2 ≤ c → c < n → (t c ≠ 0 ↔ (∃ f, c ∈ files f) ∨ lost c)
  apart : ∀ f, ∀ c ∈ files f, ¬ lost c
  sane : ∀ c, 2 ≤ c → c < n → t c ≠ 1

/-- A cluster that is in no file and not lost. -/
structure Fresh (n : Nat) (lost : Nat → Prop) (files : F → List Nat) (c : Nat) : Prop where
  range : 2 ≤ c ∧ c < n
  kept : ¬ lost c
  unused : ∀ f, c ∉ files f

/-- All clusters are in files or lost. -/
def Full (n : Nat) (lost : Nat → Prop) (files : F → List Nat) : Prop := ∀ c, ¬ Fresh n lost files c

theorem Chained.congr (h : Chained t n l) (heq : ∀ c ∈ l, t' c = t c) : Chained t' n l := by
  refine ⟨h.linked.congr ?_, h.range⟩
  intro c hc
  rw [next, next, heq c hc]

theorem Represents.free_iff (h : Represents t n lost files) (hc : 2 ≤ c ∧ c < n) :
    t c = 0 ↔ Fresh n lost files c := by
  have hused := h.used c hc.1 hc.2
  constructor
  · intro hzero
    have hnot : ¬ ((∃ f, c ∈ files f) ∨ lost c) := fun hor => hused.mpr hor hzero
    exact ⟨hc, fun hlost => hnot (.inr hlost), fun f hf => hnot (.inl ⟨f, hf⟩)⟩
  · intro hfresh
    by_contra hne
    obtain ⟨f, hf⟩ | hlost := hused.mp hne
    · exact hfresh.unused f hf
    · exact hfresh.kept hlost

theorem Represents.full (h : Represents t n lost files) (hnone : ∀ c, 2 ≤ c ∧ c < n → t c ≠ 0) :
    Full n lost files := fun c hfresh => hnone c hfresh.range ((h.free_iff hfresh.range).mpr hfresh)

variable [DecidableEq F]

theorem Chained.two_le (hn : 2 ≤ n) (h : Chained t n l) : ∀ c ∈ l, 2 ≤ t c := by
  induction l with
  | nil => exact fun c hc => absurd hc List.not_mem_nil
  | cons d l ih =>
    intro c hc
    obtain rfl | hc := List.mem_cons.mp hc
    · obtain ⟨_, hend⟩ | ⟨d, _, _, hd, htwo, _⟩ := h.entry
      · exact Nat.le_trans hn hend
      · exact hd ▸ htwo
    · exact ih h.tail c hc

theorem mem_update_iff : (∃ g, c ∈ Function.update files f l g) ↔ c ∈ l ∨ ∃ g, g ≠ f ∧ c ∈ files g := by
  constructor
  · intro ⟨g, hg⟩
    by_cases hgf : g = f
    · subst hgf
      rw [Function.update_self] at hg
      exact .inl hg
    · rw [Function.update_of_ne hgf] at hg
      exact .inr ⟨g, hgf, hg⟩
  · intro hc
    obtain hcl | ⟨g, hgf, hg⟩ := hc
    · exact ⟨f, by rwa [Function.update_self]⟩
    · exact ⟨g, by rwa [Function.update_of_ne hgf]⟩

/-- A file gets other clusters: the entries of the others stay, and what it gives back is free. -/
structure Replaces (t t' : Nat → Nat) (n : Nat) (lost : Nat → Prop) (files : F → List Nat) (f : F) (l : List Nat) :
    Prop where
  chained : Chained t' n l
  new : ∀ c ∈ l, c ∈ files f ∨ Fresh n lost files c
  same : ∀ c, c ∉ files f → c ∉ l → t' c = t c
  freed : ∀ c, c ∈ files f → c ∉ l → t' c = 0

namespace Replaces

omit [DecidableEq F] in
theorem other (h : Represents t n lost files) (hr : Replaces t t' n lost files f l) {g : F} (hg : g ≠ f)
    (hc : c ∈ files g) : c ∉ files f ∧ c ∉ l := by
  have hnot : c ∉ files f := fun hcf => hg (h.disjoint g f c hc hcf)
  refine ⟨hnot, ?_⟩
  intro hcl
  exact (hr.new c hcl).elim hnot fun hfresh => hfresh.unused g hc

theorem chained_update (h : Represents t n lost files) (hr : Replaces t t' n lost files f l) (g : F) :
    Chained t' n (Function.update files f l g) := by
  by_cases hgf : g = f
  · subst hgf
    rw [Function.update_self]
    exact hr.chained
  · rw [Function.update_of_ne hgf]
    exact (h.chained g).congr fun c hc => hr.same c (hr.other h hgf hc).1 (hr.other h hgf hc).2

theorem disjoint_update (h : Represents t n lost files) (hr : Replaces t t' n lost files f l) (g g' : F) (c : Nat)
    (hg : c ∈ Function.update files f l g) (hg' : c ∈ Function.update files f l g') : g = g' := by
  by_cases hgf : g = f
  · subst hgf
    rw [Function.update_self] at hg
    by_contra hne
    rw [Function.update_of_ne (Ne.symm hne)] at hg'
    exact (hr.other h (Ne.symm hne) hg').2 hg
  · rw [Function.update_of_ne hgf] at hg
    by_cases hgf' : g' = f
    · subst hgf'
      rw [Function.update_self] at hg'
      exact absurd hg' (hr.other h hgf hg).2
    · rw [Function.update_of_ne hgf'] at hg'
      exact h.disjoint g g' c hg hg'

theorem used_update (hn : 2 ≤ n) (h : Represents t n lost files) (hr : Replaces t t' n lost files f l) (hc : 2 ≤ c)
    (hlt : c < n) : t' c ≠ 0 ↔ (∃ g, c ∈ Function.update files f l g) ∨ lost c := by
  rw [mem_update_iff]
  by_cases hcl : c ∈ l
  · have htwo := hr.chained.two_le hn c hcl
    exact ⟨fun _ => .inl (.inl hcl), fun _ => by omega⟩
  by_cases hcf : c ∈ files f
  · rw [hr.freed c hcf hcl]
    refine ⟨fun hz => absurd rfl hz, ?_⟩
    intro hor
    obtain (hl | ⟨g, hg, hcg⟩) | hlost := hor
    · exact absurd hl hcl
    · exact absurd (h.disjoint g f c hcg hcf) hg
    · exact absurd hlost (h.apart f c hcf)
  · rw [hr.same c hcf hcl, h.used c hc hlt]
    constructor
    · intro hor
      obtain ⟨g, hg⟩ | hlost := hor
      · exact .inl (.inr ⟨g, fun heq => hcf (heq ▸ hg), hg⟩)
      · exact .inr hlost
    · intro hor
      obtain (hl | ⟨g, _, hcg⟩) | hlost := hor
      · exact absurd hl hcl
      · exact .inl ⟨g, hcg⟩
      · exact .inr hlost

theorem represents (hn : 2 ≤ n) (h : Represents t n lost files) (hr : Replaces t t' n lost files f l) :
    Represents t' n lost (Function.update files f l) := by
  refine ⟨hr.chained_update h, hr.disjoint_update h, fun c hc hlt => hr.used_update hn h hc hlt, ?_, ?_⟩
  · intro g c hg
    by_cases hgf : g = f
    · subst hgf
      rw [Function.update_self] at hg
      exact (hr.new c hg).elim (h.apart g c) Fresh.kept
    · rw [Function.update_of_ne hgf] at hg
      exact h.apart g c hg
  · intro c hc hlt
    by_cases hcl : c ∈ l
    · have htwo := hr.chained.two_le hn c hcl
      omega
    by_cases hcf : c ∈ files f
    · rw [hr.freed c hcf hcl]
      exact Nat.zero_ne_one
    · rw [hr.same c hcf hcl]
      exact h.sane c hc hlt

end Replaces

/-! ### The four changes -/

section Changes
variable (hn : 2 ≤ n) (heoc : n ≤ eoc) (h : Represents t n lost files)
include hn heoc h

theorem Represents.create (hf : files f = []) (hc : Fresh n lost files c) :
    Represents (Function.update t c eoc) n lost (Function.update files f [c]) := by
  refine Replaces.represents hn h ⟨⟨⟨rfl, ?_⟩, ?_⟩, ?_, ?_, ?_⟩
  · rw [next_update, Function.update_self, if_neg (Nat.not_lt.mpr heoc)]
    rfl
  · intro x hx
    rw [List.mem_singleton.mp hx]
    exact hc.range
  · intro x hx
    rw [List.mem_singleton.mp hx]
    exact .inr hc
  · intro x _ hx
    exact Function.update_of_ne (List.mem_singleton.not.mp hx) _ _
  · intro x hx _
    rw [hf] at hx
    exact absurd hx List.not_mem_nil

theorem Represents.extend (hf : files f = pre ++ [p]) (hc : Fresh n lost files c) :
    Represents (Function.update (Function.update t c eoc) p c) n lost (Function.update files f (pre ++ [p, c])) := by
  have hchained := h.chained f
  rw [hf] at hchained
  have hp : p ∈ files f := hf ▸ List.mem_append_right pre List.mem_cons_self
  have hne : p ≠ c := fun heq => hc.unused f (heq ▸ hp)
  have hsuffix : Shared.Linked (next t n) [p].head? [p] := hchained.linked.suffix
  have hlast : next t n p = none := hsuffix.2
  have hnot : c ∉ pre ++ [p] := hf ▸ hc.unused f
  have hlinked := hchained.linked.insert_after hnot
  have hhead : (pre ++ [p]).head? = (pre ++ [p, c]).head? := by
    cases pre with
    | nil => rfl
    | cons d pre => rfl
  refine Replaces.represents hn h ⟨⟨?_, ?_⟩, ?_, ?_, ?_⟩
  · rw [next_update, next_update, if_neg (Nat.not_lt.mpr heoc), if_pos hc.range.2, ← hhead, ← hlast]
    exact hlinked
  · intro x hx
    obtain hx | hx := List.mem_append.mp hx
    · exact hchained.range x (List.mem_append_left _ hx)
    · obtain rfl | hx := List.mem_cons.mp hx
      · exact hchained.range x (List.mem_append_right _ List.mem_cons_self)
      · rw [List.mem_singleton.mp hx]
        exact hc.range
  · intro x hx
    rw [hf]
    obtain hx | hx := List.mem_append.mp hx
    · exact .inl (List.mem_append_left _ hx)
    · obtain rfl | hx := List.mem_cons.mp hx
      · exact .inl (List.mem_append_right _ List.mem_cons_self)
      · rw [List.mem_singleton.mp hx]
        exact .inr hc
  · intro x hxf hx
    have hxp : x ≠ p := fun heq => hxf (heq ▸ hp)
    have hxc : x ≠ c := by
      intro heq
      apply hx
      rw [heq]
      simp
    rw [Function.update_of_ne hxp, Function.update_of_ne hxc]
  · intro x hxf hx
    rw [hf] at hxf
    exact absurd (List.mem_append.mp hxf) (by simp at hx; simp [hx])

omit heoc in
theorem Represents.remove : Represents (without t (files f)) n lost (Function.update files f []) := by
  refine Replaces.represents hn h ⟨⟨rfl, ?_⟩, ?_, ?_, ?_⟩
  · intro x hx
    exact absurd hx List.not_mem_nil
  · intro x hx
    exact absurd hx List.not_mem_nil
  · intro x hx _
    exact if_neg hx
  · intro x hx _
    exact if_pos hx

theorem Represents.cut (hf : files f = pre ++ p :: post) :
    Represents (without (Function.update t p eoc) post) n lost (Function.update files f (pre ++ [p])) := by
  have hchained := h.chained f
  rw [hf] at hchained
  have hlinked := hchained.linked.cut
  have hnodup := hchained.linked.nodup
  have hpost : ∀ x ∈ pre ++ [p], x ∉ post := by
    intro x hx hpost
    rw [List.append_cons] at hnodup
    exact List.disjoint_of_nodup_append hnodup hx hpost
  have hhead : (pre ++ p :: post).head? = (pre ++ [p]).head? := by
    cases pre with
    | nil => rfl
    | cons d pre => rfl
  refine Replaces.represents hn h ⟨⟨?_, ?_⟩, ?_, ?_, ?_⟩
  · rw [← hhead]
    refine hlinked.congr ?_
    intro x hx
    have hkept : without (Function.update t p eoc) post x = Function.update t p eoc x := if_neg (hpost x hx)
    have hnext := congrFun (next_update t n p eoc) x
    rw [if_neg (Nat.not_lt.mpr heoc)] at hnext
    rw [← hnext, next, next, hkept]
  · intro x hx
    exact hchained.range x (by simp at hx ⊢; tauto)
  · intro x hx
    rw [hf]
    exact .inl (by simp at hx ⊢; tauto)
  · intro x hxf hx
    rw [hf] at hxf
    have hxp : x ≠ p := fun heq => hxf (heq ▸ by simp)
    have hxpost : x ∉ post := fun hmem => hxf (by simp [hmem])
    exact (if_neg hxpost).trans (Function.update_of_ne hxp _ _)
  · intro x hxf hx
    rw [hf] at hxf
    exact if_pos (by simp at hxf hx; tauto)

end Changes

/-! ## The count of free clusters -/

/-- The free clusters of a table. -/
def frees (t : Nat → Nat) (n : Nat) : Finset Nat := (Finset.Ico 2 n).filter fun c => t c = 0

/-- The count is right or not known. -/
def Counted (t : Nat → Nat) (n free : Nat) : Prop := free = (frees t n).card ∨ n - 2 < free

theorem mem_frees : c ∈ frees t n ↔ (2 ≤ c ∧ c < n) ∧ t c = 0 := by
  rw [frees, Finset.mem_filter, Finset.mem_Ico]

theorem card_frees_le : (frees t n).card ≤ n - 2 := by
  have hle := Finset.card_filter_le (Finset.Ico 2 n) fun c => t c = 0
  rwa [Nat.card_Ico] at hle

theorem card_take {val : Nat} (hc : 2 ≤ c ∧ c < n) (hzero : t c = 0) (hval : val ≠ 0) :
    (frees (Function.update t c val) n).card + 1 = (frees t n).card := by
  have herase : frees (Function.update t c val) n = (frees t n).erase c := by
    ext x
    rw [Finset.mem_erase, mem_frees, mem_frees]
    by_cases hx : x = c
    · rw [hx, Function.update_self]
      simp [hval]
    · rw [Function.update_of_ne hx]
      simp [hx]
  rw [herase]
  exact Finset.card_erase_add_one (mem_frees.mpr ⟨hc, hzero⟩)

theorem frees_set {val : Nat} (hold : t c ≠ 0) (hval : val ≠ 0) : frees (Function.update t c val) n = frees t n := by
  ext x
  rw [mem_frees, mem_frees]
  by_cases hx : x = c
  · rw [hx, Function.update_self]
    simp [hold, hval]
  · rw [Function.update_of_ne hx]

theorem card_freed (hc : 2 ≤ c ∧ c < n) (hold : t c ≠ 0) :
    (frees (Function.update t c 0) n).card = (frees t n).card + 1 := by
  have hinsert : frees (Function.update t c 0) n = insert c (frees t n) := by
    ext x
    rw [Finset.mem_insert, mem_frees, mem_frees]
    by_cases hx : x = c
    · rw [hx, Function.update_self]
      simp [hc]
    · rw [Function.update_of_ne hx]
      simp [hx]
  rw [hinsert]
  exact Finset.card_insert_of_notMem fun hmem => hold (mem_frees.mp hmem).2

theorem Counted.take {free val : Nat} (h : Counted t n free) (hc : 2 ≤ c ∧ c < n) (hzero : t c = 0) (hval : val ≠ 0) :
    Counted (Function.update t c val) n (countTaken n free) := by
  have hcard := card_take hc hzero hval
  have hle := card_frees_le (t := t) (n := n)
  unfold countTaken
  obtain hknown | hunknown := h
  · rw [if_pos (by omega)]
    exact .inl (by omega)
  · rw [if_neg (by omega)]
    exact .inr hunknown

theorem Counted.freed {free : Nat} (h : Counted t n free) (hc : 2 ≤ c ∧ c < n) (hold : t c ≠ 0) :
    Counted (Function.update t c 0) n (countFreed n free) := by
  have hcard := card_freed hc hold
  have hle := card_frees_le (t := Function.update t c 0) (n := n)
  unfold countFreed
  obtain hknown | hunknown := h
  · rw [if_pos (by omega)]
    exact .inl (by omega)
  · rw [if_neg (by omega)]
    exact .inr hunknown

/-- The count after the clusters of a chain have been freed. -/
theorem Counted.without {l : List Nat} : ∀ {t : Nat → Nat} {free : Nat}, Counted t n free → l.Nodup →
    (∀ c ∈ l, (2 ≤ c ∧ c < n) ∧ t c ≠ 0) → Counted (without t l) n ((countFreed n)^[l.length] free) := by
  induction l with
  | nil =>
    intro t free h _ _
    have hsame : Fat.without t [] = t := funext fun x => if_neg List.not_mem_nil
    rwa [hsame]
  | cons d l ih =>
    intro t free h hnodup hl
    obtain ⟨hd, hnodup⟩ := List.nodup_cons.mp hnodup
    have hfirst := hl d List.mem_cons_self
    rw [← without_cons t d l hd, List.length_cons, Function.iterate_succ_apply]
    refine ih (h.freed hfirst.1 hfirst.2) hnodup ?_
    intro c hc
    have hne : c ≠ d := fun heq => hd (heq ▸ hc)
    rw [Function.update_of_ne hne]
    exact hl c (List.mem_cons_of_mem d hc)

end PicoRuby.Fat
