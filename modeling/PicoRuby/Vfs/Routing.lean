import PicoRuby.Vfs.Volumes
import Mathlib.Data.Nat.Find

/-!
# Routing of paths to volumes

The volume that serves a path is the one whose mountpoint is the longest that consists of whole
names of the path. `split` takes, of the volumes whose mountpoint is a string the path starts with,
the one mounted last.
-/

namespace PicoRuby.Vfs

open Shared

set_option autoImplicit false

section Routing
variable {D : Type} {volumes : List (Volume D)} {v : Volume D} {p rest : Path}

/-- The volume serves the path, with `rest` left for its driver. -/
structure Serves (volumes : List (Volume D)) (p : Path) (v : Volume D) (rest : Path) : Prop where
  mounted : v ∈ volumes
  names : ∃ m : Path, v.mountpoint = m.render ∧ p.names = m.names ++ rest.names
  longest : ∀ w ∈ volumes, ∀ m : Path, w.mountpoint = m.render → m.names <+: p.names →
    m.names.length + rest.names.length ≤ p.names.length

theorem exists_serves (hroot : ∃ v ∈ volumes, v.mountpoint = ['/']) (p : Path) :
    ∃ v rest, Serves volumes p v rest := by
  classical
  let Reaches (k : Nat) : Prop :=
    ∃ w ∈ volumes, ∃ m : Path, w.mountpoint = m.render ∧ m.names <+: p.names ∧ m.names.length = k
  have hzero : Reaches 0 := by
    obtain ⟨v, hv, hmount⟩ := hroot
    exact ⟨v, hv, root, hmount, List.nil_prefix, rfl⟩
  obtain ⟨v, hv, m, hmount, ⟨names, hnames⟩, hlen⟩ :=
    Nat.findGreatest_spec (Nat.zero_le p.names.length) hzero
  have hvalid : ∀ n ∈ names, IsName n := fun n hn =>
    p.valid n (hnames ▸ List.mem_append_right _ hn)
  refine ⟨v, ⟨names, hvalid⟩, hv, ⟨m, hmount, hnames.symm⟩, ?_⟩
  intro w hw m' hmount' hprefix
  have hle : m'.names.length ≤ Nat.findGreatest Reaches p.names.length :=
    Nat.le_findGreatest hprefix.length_le ⟨w, hw, m', hmount', hprefix, rfl⟩
  rw [← hnames, List.length_append]
  change m'.names.length + names.length ≤ _
  omega

theorem Serves.unique {w : Volume D} {rest' : Path} (hnodup : (volumes.map Volume.mountpoint).Nodup)
    (h : Serves volumes p v rest) (h' : Serves volumes p w rest') : v = w ∧ rest = rest' := by
  obtain ⟨m, hmount, hnames⟩ := h.names
  obtain ⟨m', hmount', hnames'⟩ := h'.names
  have hle := h'.longest v h.mounted m hmount ⟨rest.names, hnames.symm⟩
  have hge := h.longest w h'.mounted m' hmount' ⟨rest'.names, hnames'.symm⟩
  have hlen := congrArg List.length hnames
  have hlen' := congrArg List.length hnames'
  rw [List.length_append] at hlen hlen'
  obtain ⟨hm, hrest⟩ := List.append_inj (hnames.symm.trans hnames') (by omega)
  refine ⟨?_, Shared.Path.ext hrest⟩
  apply List.inj_on_of_nodup_map hnodup h.mounted h'.mounted
  rw [hmount, hmount', Shared.Path.ext hm]

/-! ## The volume that split takes -/

theorem maxBlock_concat {α : Type} (block : α → α → Int) (l : List α) (a : α) :
    maxBlock block (l ++ [a]) =
      some (match maxBlock block l with
        | none => a
        | some result => if block a result > 0 then a else result) := by
  cases l with
  | nil => rfl
  | cons b l =>
    change some ((l ++ [a]).foldl _ b) = _
    rw [List.foldl_append]
    rfl

/-- The volume of `max` is the last one that matches. -/
theorem maxBlock_candidates (s : Text) (hne : ∀ v ∈ volumes, v.mountpoint ≠ []) :
    (maxBlock mountpointLength
      (volumes.map fun v => if v.mountpoint <+: s then some v else none)).join =
      (volumes.filter fun v => v.mountpoint <+: s).getLast? := by
  induction volumes using List.reverseRecOn with
  | nil => rfl
  | append_singleton l v ih =>
    have hrest := ih fun w hw => hne w (List.mem_append_left _ hw)
    have hlen : 0 < v.mountpoint.length :=
      List.length_pos_iff.mpr (hne v (List.mem_append_right _ List.mem_cons_self))
    rw [List.map_append, List.map_cons, List.map_nil, maxBlock_concat, List.filter_append]
    by_cases hv : v.mountpoint <+: s
    · have hblock (result : Option (Volume D)) : mountpointLength (some v) result > 0 := by
        change (v.mountpoint.length : Int) > 0
        omega
      rw [if_pos hv, List.filter_cons_of_pos (by simpa using hv), List.filter_nil,
        List.getLast?_concat]
      split
      · rfl
      · rw [if_pos (hblock _)]
        rfl
    · have hblock (result : Option (Volume D)) : ¬ mountpointLength none result > 0 := by
        change ¬ (-1 : Int) > 0
        omega
      rw [if_neg hv, List.filter_cons_of_neg (by simpa using hv), List.filter_nil, List.append_nil,
        ← hrest]
      split
      · rename_i hmax
        rw [hmax]
        rfl
      · rename_i hmax
        rw [if_neg (hblock _), hmax]

/-- No volume mounted after `v` has a mountpoint that the path starts with. -/
def Unshadowed (volumes : List (Volume D)) (v : Volume D) (s : Text) : Prop :=
  ∃ before after, volumes = before ++ v :: after ∧ ∀ w ∈ after, ¬ w.mountpoint <+: s

theorem getLast?_filter_eq_some_iff {s : Text} :
    (volumes.filter fun v => v.mountpoint <+: s).getLast? = some v ↔
      v.mountpoint <+: s ∧ Unshadowed volumes v s := by
  rw [List.getLast?_eq_head?_reverse, ← List.filter_reverse, List.head?_filter,
    List.find?_eq_some_iff_append]
  constructor
  · rintro ⟨hv, as, bs, hsplit, has⟩
    refine ⟨by simpa using hv, bs.reverse, as.reverse, ?_, ?_⟩
    · rw [← List.reverse_reverse volumes, hsplit, List.reverse_append, List.reverse_cons,
        List.append_assoc]
      rfl
    · intro w hw
      simpa using has w (List.mem_reverse.mp hw)
  · rintro ⟨hv, before, after, hsplit, hafter⟩
    refine ⟨by simpa using hv, after.reverse, before.reverse, ?_, ?_⟩
    · rw [hsplit, List.reverse_append, List.reverse_cons, List.append_assoc]
      rfl
    · intro w hw
      simpa using hafter w (List.mem_reverse.mp hw)

/-! ## The path that split leaves -/

theorem Serves.prefix_render (h : Serves volumes p v rest) : v.mountpoint <+: p.render := by
  obtain ⟨m, hmount, hnames⟩ := h.names
  rw [hmount]
  by_cases hm : m.names = []
  · rw [Path.render, if_pos hm]
    exact ⟨p.render.tail, p.render_eq_cons.symm⟩
  · have hp : p.names ≠ [] := fun hnil => hm (List.append_eq_nil_iff.mp (hnames ▸ hnil)).1
    rw [Path.render, if_neg hm, Path.render, if_neg hp, hnames, slashed_append]
    exact List.prefix_append _ _

/-- What is cut off is the mountpoint, and what is left is cut to 255 characters. -/
theorem Serves.cut (h : Serves volumes p v rest) :
    (slice p.render (v.mountpoint.length + if v.mountpoint = ['/'] then 0 else 1) 255).getD [] =
      rest.render.tail.take 255 := by
  obtain ⟨m, hmount, hnames⟩ := h.names
  by_cases hm : m.names = []
  · have hroot : v.mountpoint = ['/'] := by rw [hmount, Path.render, if_pos hm]
    have hrest : rest = p := Shared.Path.ext (by rw [hnames, hm, List.nil_append])
    rw [hroot, if_pos rfl, hrest, slice, if_pos (by rw [p.render_eq_cons]; simp)]
    change (p.render.drop 1).take 255 = _
    rw [List.drop_one]
  · have hroot : v.mountpoint ≠ ['/'] := by
      intro heq
      have hnil : m = root := Path.render_injective (hmount.symm.trans heq)
      exact hm (congrArg Path.names hnil)
    have hp : p.names ≠ [] := fun hnil => hm (List.append_eq_nil_iff.mp (hnames ▸ hnil)).1
    have hrender : p.render = v.mountpoint ++ slashed rest.names := by
      rw [Path.render, if_neg hp, hnames, slashed_append, hmount, Path.render, if_neg hm]
    rw [if_neg hroot, hrender, slice]
    by_cases hrest : rest.names = []
    · rw [Path.render, if_pos hrest, hrest, if_neg (by simp [slashed])]
      rfl
    · have hslash : slashed rest.names = rest.render := by rw [Path.render, if_neg hrest]
      have hcons := rest.render_eq_cons
      rw [hslash, if_pos (by rw [hcons]; simp), ← List.drop_drop, List.drop_left, List.drop_one]
      rfl

theorem split_serves_iff (hne : ∀ w ∈ volumes, w.mountpoint ≠ []) (h : Serves volumes p v rest) :
    split volumes p.render = (some v, rest.render) ↔
      Unshadowed volumes v p.render ∧ rest.render.length ≤ 256 := by
  have hlen : rest.render.length = rest.render.tail.length + 1 := by
    rw [rest.render_eq_cons]
    rfl
  unfold split
  dsimp only
  rw [maxBlock_candidates p.render hne]
  constructor
  · intro heq
    cases hlast : (volumes.filter fun v => v.mountpoint <+: p.render).getLast? with
    | none =>
      rw [List.getLast?_eq_none_iff, List.filter_eq_nil_iff] at hlast
      exact absurd h.prefix_render (by simpa using hlast v h.mounted)
    | some w =>
      rw [hlast, Prod.mk.injEq, Option.some.injEq] at heq
      obtain ⟨rfl, hpath⟩ := heq
      rw [h.cut, rest.render_eq_cons, List.cons.injEq] at hpath
      refine ⟨(getLast?_filter_eq_some_iff.mp hlast).2, ?_⟩
      have htake := congrArg List.length hpath.2
      rw [List.tail_cons, List.length_take] at htake
      omega
  · rintro ⟨hun, hle⟩
    rw [getLast?_filter_eq_some_iff.mpr ⟨h.prefix_render, hun⟩]
    dsimp only
    rw [h.cut, List.take_of_length_le (by omega), ← rest.render_eq_cons]

/-- One volume serves a path, with one rest of it, and the path is routed there exactly when no
mountpoint mounted later is a string that the path starts with, and the driver gets at most 256
characters. -/
theorem split_routes_iff (h : Mounted volumes)
    (hnorm : ∀ w ∈ volumes, ∃ m : Path, w.mountpoint = m.render)
    (hroot : ∃ w ∈ volumes, w.mountpoint = ['/']) (p : Path) :
    ∃ v rest, Serves volumes p v rest ∧
      (∀ w rest', Serves volumes p w rest' → w = v ∧ rest' = rest) ∧
      (split volumes p.render = (some v, rest.render) ↔
        Unshadowed volumes v p.render ∧ rest.render.length ≤ 256) := by
  have hne : ∀ w ∈ volumes, w.mountpoint ≠ [] := by
    intro w hw hnil
    obtain ⟨m, hm⟩ := hnorm w hw
    rw [hm, m.render_eq_cons] at hnil
    exact absurd hnil (List.cons_ne_nil _ _)
  obtain ⟨v, rest, hserves⟩ := exists_serves hroot p
  refine ⟨v, rest, hserves, ?_, split_serves_iff hne hserves⟩
  intro w rest' hserves'
  exact hserves'.unique h.nodup hserves

end Routing

/-! ## A card mounted on a directory -/

def flashRoot : Volume String := ⟨"flash", ['/']⟩
def sdCard : Volume String := ⟨"sd", "/sd".toList⟩
def sdPath : Path := ⟨["sd".toList], by decide⟩
def cardPath : Path := ⟨["sdcard".toList, ['x']], by decide⟩

theorem mounted_cards : Mounted [flashRoot, sdCard] :=
  mounted_concat (v := sdCard) (mounted_concat (v := flashRoot) .none (by decide) rfl)
    (by decide) rfl

theorem cards_normalised : ∀ w ∈ [flashRoot, sdCard], ∃ m : Path, w.mountpoint = m.render := by
  intro w hw
  rcases List.mem_cons.mp hw with rfl | hw
  · exact ⟨root, rfl⟩
  · rw [List.mem_singleton.mp hw]
    exact ⟨sdPath, rfl⟩

theorem split_routes_cards : ∃ v rest, Serves [flashRoot, sdCard] cardPath v rest ∧
    (∀ w rest', Serves [flashRoot, sdCard] cardPath w rest' → w = v ∧ rest' = rest) ∧
    (split [flashRoot, sdCard] cardPath.render = (some v, rest.render) ↔
      Unshadowed [flashRoot, sdCard] v cardPath.render ∧ rest.render.length ≤ 256) :=
  split_routes_iff mounted_cards cards_normalised ⟨flashRoot, List.mem_cons_self, rfl⟩ cardPath

/-- The flash serves `/sdcard/x`, and the card gets it, as `/ard/x`. -/
theorem sibling_misrouted : Mounted [flashRoot, sdCard] ∧
    Serves [flashRoot, sdCard] cardPath flashRoot cardPath ∧
    split [flashRoot, sdCard] cardPath.render = (some sdCard, "/ard/x".toList) := by
  refine ⟨mounted_cards, ⟨List.mem_cons_self, ⟨root, rfl, rfl⟩, ?_⟩, rfl⟩
  intro w hw m hmount hprefix
  rcases List.mem_cons.mp hw with rfl | hw
  · have hm : m = root := Path.render_injective hmount.symm
    rw [hm]
    decide
  · rw [List.mem_singleton.mp hw] at hmount
    have hm : m = sdPath := Path.render_injective hmount.symm
    rw [hm] at hprefix
    exact absurd hprefix (by decide)

end PicoRuby.Vfs
