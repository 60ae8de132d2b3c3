import PicoRuby.Vfs.Volumes

/-!
# What sanitize reaches

A sanitised path is a normalised absolute path behind the `..` that led above the root.
-/

namespace PicoRuby.Vfs

open Shared

set_option autoImplicit false

/-! ## Joining -/

theorem join_cons_cons (m n : Text) (ns : List Text) :
    join (m :: n :: ns) = m ++ '/' :: join (n :: ns) := by
  unfold join
  rw [List.intercalate_cons_cons, List.append_assoc]
  rfl

theorem cons_join {ns : List Text} (h : ns ≠ []) : '/' :: join ns = slashed ns := by
  induction ns with
  | nil => exact absurd rfl h
  | cons n ns ih =>
    cases ns with
    | nil =>
      change '/' :: List.intercalate ['/'] [n] = _
      rw [List.intercalate_singleton, slashed_cons]
      change '/' :: n = '/' :: (n ++ [])
      rw [List.append_nil]
    | cons m ns =>
      rw [join_cons_cons, ih (List.cons_ne_nil _ _)]
      rfl

theorem cons_join_names (p : Path) : '/' :: join p.names = p.render := by
  unfold Path.render
  split
  · rename_i hnil
    rw [hnil]
    rfl
  · rename_i hne
    exact cons_join hne

/-! ## The loop -/

/-- A segment is a step of the walk; a `..` at the root is put aside. -/
theorem sanitizeStep_eq (dirs ups : List Text) (s : Text) :
    sanitizeStep (dirs, ups) s =
      (walkStep dirs s, if s = ['.', '.'] ∧ dirs = [] then ups ++ [['.', '.']] else ups) := by
  unfold sanitizeStep walkStep
  by_cases hblank : s = ['.'] ∨ s = []
  · have hup : ¬ (s = ['.', '.'] ∧ dirs = []) := by
      rintro ⟨rfl, -⟩
      exact absurd hblank (by decide)
    rw [if_pos hblank, if_pos hblank.symm, if_neg hup]
  · have hblank' : ¬ (s = [] ∨ s = ['.']) := fun h => hblank h.symm
    rw [if_neg hblank, if_neg hblank']
    by_cases hup : s = ['.', '.']
    · rw [if_pos hup, if_pos hup]
      cases dirs with
      | nil =>
        rw [if_pos (And.intro hup rfl)]
        rfl
      | cons d dirs =>
        have hcons : ¬ (s = ['.', '.'] ∧ d :: dirs = []) := fun h => List.cons_ne_nil _ _ h.2
        rw [if_neg hcons]
        rfl
    · have hup' : ¬ (s = ['.', '.'] ∧ dirs = []) := fun h => hup h.1
      rw [if_neg hup, if_neg hup, if_neg hup']

/-- How many segments lead above the root. -/
def climbs : List Name → List Name → Nat
  | _, [] => 0
  | base, s :: segments =>
    (if s = ['.', '.'] ∧ base = [] then 1 else 0) + climbs (walkStep base s) segments

/-- The loop of `sanitize` walks from the root, and puts aside the `..` it meets there. -/
theorem foldl_sanitizeStep (segments dirs ups : List Text) :
    segments.foldl sanitizeStep (dirs, ups) =
      (walk dirs segments, ups ++ List.replicate (climbs dirs segments) ['.', '.']) := by
  induction segments generalizing dirs ups with
  | nil =>
    rw [climbs, List.replicate_zero, List.append_nil]
    rfl
  | cons s segments ih =>
    rw [List.foldl_cons, sanitizeStep_eq, ih, climbs]
    by_cases hup : s = ['.', '.'] ∧ dirs = []
    · rw [if_pos hup, if_pos hup, Nat.add_comm, List.replicate_succ, List.append_assoc]
      rfl
    · rw [if_neg hup, if_neg hup, Nat.zero_add]
      rfl

theorem climbs_append (base ms ns : List Name) : climbs base (ms ++ ns) = climbs base ms + climbs (walk base ms) ns := by
  induction ms generalizing base with
  | nil => rw [List.nil_append, climbs, Nat.zero_add, walk, List.foldl_nil]
  | cons s ms ih =>
    rw [List.cons_append, climbs, climbs, ih, Nat.add_assoc]
    rfl

theorem climbs_blank (base : List Name) (k : Nat) : climbs base (List.replicate k []) = 0 := by
  induction k generalizing base with
  | zero => rfl
  | succ k ih => rw [List.replicate_succ, climbs, ih, if_neg fun h => List.cons_ne_nil _ _ h.1.symm]

theorem climbs_fields (base : List Name) (t : Text) : climbs base (fields '/' t) = climbs base (t.splitOn '/') := by
  obtain ⟨k, hk⟩ := exists_fields_append '/' t
  rw [hk, climbs_append, climbs_blank, Nat.add_zero]

theorem climbs_names {base segments : List Name} (h : ∀ s ∈ segments, s ≠ ['.', '.']) : climbs base segments = 0 := by
  induction segments generalizing base with
  | nil => rfl
  | cons s segments ih =>
    rw [climbs, if_neg fun hup => h s List.mem_cons_self hup.1, Nat.zero_add]
    exact ih fun t ht => h t (List.mem_cons_of_mem _ ht)

theorem not_mem_of_mem_fields {sep : Char} {s t : Text} (h : t ∈ fields sep s) : sep ∉ t := by
  obtain ⟨k, hk⟩ := exists_fields_append sep s
  exact not_mem_splitOn (hk ▸ List.mem_append_left _ h)

theorem not_mem_of_mem_sanitizeDirs {env : Env} {path t : Text} (h : t ∈ sanitizeDirs env path) :
    '/' ∉ t := by
  have hdirs : ∀ t ∈ (if path = ['/'] then [[]] else fields '/' path), '/' ∉ t := by
    intro t ht
    split at ht
    · rw [List.mem_singleton.mp ht]
      exact List.not_mem_nil
    · exact not_mem_of_mem_fields ht
  unfold sanitizeDirs at h
  generalize (if path = ['/'] then [[]] else fields '/' path) = dirs at h hdirs
  dsimp only at h
  split at h
  · rcases List.mem_append.mp h with h | h
    · exact not_mem_of_mem_fields h
    · exact hdirs t h
  · exact hdirs t h

/-- The path that `sanitize` reaches. -/
def reached (env : Env) (path : Text) : Path where
  names := walk [] (sanitizeDirs env path)
  valid := walk_valid (fun _ h => absurd h List.not_mem_nil) fun _ => not_mem_of_mem_sanitizeDirs

def DotOrSlash (c : Char) : Prop := c = '.' ∨ c = '/'

instance (c : Char) : Decidable (DotOrSlash c) := inferInstanceAs (Decidable (_ ∨ _))

theorem join_ups (k : Nat) : ∀ c ∈ join (List.replicate k ['.', '.']), DotOrSlash c := by
  induction k with
  | zero =>
    intro c hc
    exact absurd hc List.not_mem_nil
  | succ k ih =>
    intro c hc
    cases k with
    | zero =>
      have hdots : c ∈ ['.', '.'] := hc
      rcases List.mem_cons.mp hdots with rfl | hdots
      · exact .inl rfl
      · exact .inl (List.mem_singleton.mp hdots)
    | succ k =>
      rw [List.replicate_succ, List.replicate_succ, join_cons_cons, ← List.replicate_succ] at hc
      rcases List.mem_append.mp hc with hc | hc
      · rcases List.mem_cons.mp hc with rfl | hc
        · exact .inl rfl
        · exact .inl (List.mem_singleton.mp hc)
      · rcases List.mem_cons.mp hc with rfl | hc
        · exact .inr rfl
        · exact ih c hc

/-- The `..` that led above the root are in front of the path reached. -/
theorem sanitize_climbs {path : Text} (env : Env) (h : path ≠ []) : sanitize env path =
    join (List.replicate (climbs [] (sanitizeDirs env path)) ['.', '.']) ++ (reached env path).render := by
  rw [sanitize, if_neg h, foldl_sanitizeStep]
  change join ([] ++ _) ++ '/' :: join (reached env path).names = _
  rw [cons_join_names, List.nil_append]

/-- A sanitised path is the path reached, behind dots and slashes. -/
theorem sanitize_eq {path : Text} (env : Env) (h : path ≠ []) :
    ∃ ups, (∀ c ∈ ups, DotOrSlash c) ∧ sanitize env path = ups ++ (reached env path).render :=
  ⟨_, join_ups _, sanitize_climbs env h⟩

/-! ## Absolute and relative -/

def OnlySlashes (path : Text) : Prop := ∀ c ∈ path, c = '/'

instance (path : Text) : Decidable (OnlySlashes path) :=
  List.decidableBAll _ _

theorem splitOn_slash (path : Text) : ('/' :: path).splitOn '/' = [] :: path.splitOn '/' := by
  rw [List.splitOn_cons_eq_if_modifyHead, if_pos (beq_self_eq_true '/')]

theorem splitOn_onlySlashes {path : Text} (h : OnlySlashes path) :
    path.splitOn '/' = List.replicate (path.length + 1) [] := by
  induction path with
  | nil => rfl
  | cons c path ih =>
    have hc : c = '/' := h c List.mem_cons_self
    rw [hc, splitOn_slash, ih fun d hd => h d (List.mem_cons_of_mem _ hd)]
    rfl

theorem fields_onlySlashes {path : Text} (h : OnlySlashes path) : fields '/' path = [] := by
  rw [fields, splitOn_onlySlashes h, List.rdropWhile_eq_nil_iff]
  intro t ht
  rw [List.eq_of_mem_replicate ht]
  rfl

theorem exists_field {path : Text} (h : ¬ OnlySlashes path) : ∃ t ∈ path.splitOn '/', t ≠ [] := by
  by_contra hnone
  push Not at hnone
  apply h
  have hjoin : path = List.intercalate ['/'] (path.splitOn '/') := (List.intercalate_splitOn '/').symm
  rw [List.eq_replicate_of_mem hnone] at hjoin
  intro c hc
  rw [hjoin] at hc
  generalize (path.splitOn '/').length = k at hc
  induction k with
  | zero => exact absurd hc List.not_mem_nil
  | succ k ih =>
    cases k with
    | zero => exact absurd hc List.not_mem_nil
    | succ k =>
      rw [List.replicate_succ, List.replicate_succ, List.intercalate_cons_cons,
        ← List.replicate_succ, List.nil_append] at hc
      rcases List.mem_append.mp hc with hc | hc
      · exact List.mem_singleton.mp hc
      · exact ih hc

theorem fields_head {path : Text} (h : ¬ OnlySlashes path) :
    (fields '/' path).head? = (path.splitOn '/').head? := by
  obtain ⟨k, hk⟩ := exists_fields_append '/' path
  have hne : fields '/' path ≠ [] := by
    intro hnil
    obtain ⟨t, ht, hnot⟩ := exists_field h
    rw [hk, hnil, List.nil_append] at ht
    exact hnot (List.eq_of_mem_replicate ht)
  rw [hk, List.head?_append_of_ne_nil _ hne]

theorem splitOn_head_ne_nil {c : Char} {path : Text} (h : c ≠ '/') :
    ((c :: path).splitOn '/').head? ≠ some [] := by
  rw [List.splitOn_cons_eq_if_modifyHead, if_neg (by simpa using h)]
  cases path.splitOn '/' with
  | nil => exact nofun
  | cons t ts =>
    intro heq
    exact absurd (Option.some.inj heq) (List.cons_ne_nil _ _)

theorem sanitizeDirs_of_absolute {env : Env} {path : Text} (h : path.head? = some '/')
    (hslashes : path = ['/'] ∨ ¬ OnlySlashes path) :
    sanitizeDirs env path = if path = ['/'] then [[]] else fields '/' path := by
  by_cases hroot : path = ['/']
  · rw [hroot]
    rfl
  · have hnot := hslashes.resolve_left hroot
    have hhead : (fields '/' path).head? = some [] := by
      rw [fields_head hnot]
      cases path with
      | nil => exact absurd h nofun
      | cons c path =>
        rw [Option.some.inj h, splitOn_slash]
        rfl
    unfold sanitizeDirs
    rw [if_neg hroot]
    dsimp only
    rw [if_neg (not_not.mpr hhead)]

theorem sanitizeDirs_of_relative {env : Env} {path : Text} (h : path.head? ≠ some '/') :
    sanitizeDirs env path = fields '/' (env.pwd.getD []) ++ fields '/' path := by
  have hroot : path ≠ ['/'] := by
    rintro rfl
    exact h rfl
  have hhead : (fields '/' path).head? ≠ some [] := by
    cases path with
    | nil => exact nofun
    | cons c path =>
      have hc : c ≠ '/' := fun heq => h (congrArg some heq)
      have hnot : ¬ OnlySlashes (c :: path) := fun hall => hc (hall c List.mem_cons_self)
      rw [fields_head hnot]
      exact splitOn_head_ne_nil hc
  unfold sanitizeDirs
  rw [if_neg hroot]
  dsimp only
  rw [if_pos hhead]

theorem sanitizeDirs_absolute {env : Env} {path : Text} (h : path.head? = some '/')
    (hslashes : path = ['/'] ∨ ¬ OnlySlashes path) :
    walk [] (sanitizeDirs env path) = walk [] (path.splitOn '/') := by
  rw [sanitizeDirs_of_absolute h hslashes]
  split
  · rename_i hroot
    rw [hroot]
    rfl
  · exact walk_fields [] path

theorem sanitizeDirs_relative {env : Env} {path : Text} (h : path.head? ≠ some '/') :
    walk [] (sanitizeDirs env path) =
      walk (walk [] ((env.pwd.getD []).splitOn '/')) (path.splitOn '/') := by
  rw [sanitizeDirs_of_relative h, walk_append, walk_fields, walk_fields]

/-- A path of two or more slashes is taken for a relative one. -/
theorem sanitizeDirs_slashes {env : Env} {path : Text} (h : OnlySlashes path) (hroot : path ≠ ['/']) :
    walk [] (sanitizeDirs env path) = walk [] ((env.pwd.getD []).splitOn '/') := by
  unfold sanitizeDirs
  rw [if_neg hroot, fields_onlySlashes h]
  dsimp only
  rw [if_pos nofun, List.append_nil, walk_fields]

/-- What a path resolves to is reached, unless the path is two or more slashes. -/
theorem reached_resolve (env : Env) {path : Text} (hslashes : path = ['/'] ∨ ¬ OnlySlashes path) :
    reached env path = (root.resolve (env.pwd.getD [])).resolve path := by
  apply Shared.Path.ext
  change walk [] (sanitizeDirs env path) =
    walk (if path.head? = some '/' then [] else walk (if (env.pwd.getD []).head? = some '/' then [] else [])
      ((env.pwd.getD []).splitOn '/')) (path.splitOn '/')
  by_cases habs : path.head? = some '/'
  · rw [if_pos habs, sanitizeDirs_absolute habs hslashes]
  · rw [if_neg habs, sanitizeDirs_relative habs, ite_self]

/-! ## From the path itself -/

theorem onlySlashes_render {p : Path} (h : OnlySlashes p.render) : p.names = [] := by
  by_contra hne
  have hfields := fields_onlySlashes h
  have hhead : p.render.head? = some '/' := by
    rw [p.render_eq_cons]
    rfl
  obtain ⟨k, hk⟩ := exists_fields_append '/' p.render
  rw [hfields, List.nil_append, p.splitOn_render hne] at hk
  obtain ⟨n, ns, hnames⟩ := List.exists_cons_of_ne_nil hne
  have hn : n ∈ p.names := hnames ▸ List.mem_cons_self
  exact (p.valid n hn).1 (List.eq_of_mem_replicate (hk ▸ List.mem_cons_of_mem _ hn))

/-- A normalised path is left as it is. -/
theorem sanitize_render (env : Env) (p : Path) : sanitize env p.render = p.render := by
  by_cases hp : p.names = []
  · rw [Path.render, if_pos hp]
    rfl
  · have hroot : p.render ≠ ['/'] := fun heq => hp (onlySlashes_render (by rw [heq]; decide))
    have hnot : ¬ OnlySlashes p.render := fun h => hp (onlySlashes_render h)
    have hdirs : sanitizeDirs env p.render = fields '/' p.render := by
      unfold sanitizeDirs
      rw [if_neg hroot]
      dsimp only
      rw [if_neg]
      rw [fields_head hnot, p.splitOn_render hp]
      exact not_not.mpr rfl
    have hup : ∀ t ∈ fields '/' p.render, t ≠ ['.', '.'] := by
      intro t ht
      obtain ⟨k, hk⟩ := exists_fields_append '/' p.render
      have hmem : t ∈ p.render.splitOn '/' := hk ▸ List.mem_append_left _ ht
      rw [p.splitOn_render hp] at hmem
      rcases List.mem_cons.mp hmem with rfl | hmem
      · exact List.cons_ne_nil _ _ ∘ Eq.symm
      · exact (p.valid t hmem).2.2.2
    rw [sanitize, if_neg p.render_ne_nil, hdirs, foldl_sanitizeStep, climbs_names hup, walk_fields,
      p.splitOn_render hp]
    change join [] ++ '/' :: join (walk [] p.names) = _
    rw [walk_names p.valid, List.nil_append, cons_join_names]
    rfl

section Directory
variable {env : Env} {c : Path} {path : Text}

theorem walk_splitOn_render (p : Path) : walk [] (p.render.splitOn '/') = p.names := by
  have h : walk (if p.render.head? = some '/' then [] else []) (p.render.splitOn '/') = p.names :=
    congrArg Path.names (root.resolve_render p)
  rw [ite_self] at h
  exact h

theorem reached_eq_resolve (h : env.pwd = some c.render)
    (hslashes : path = ['/'] ∨ ¬ OnlySlashes path) : reached env path = c.resolve path := by
  rw [reached_resolve env hslashes, h, Option.getD_some, Path.resolve_render]

theorem reached_slashes (h : env.pwd = some c.render) (hslashes : OnlySlashes path)
    (hroot : path ≠ ['/']) : reached env path = c := by
  apply Shared.Path.ext
  change walk [] (sanitizeDirs env path) = _
  rw [sanitizeDirs_slashes hslashes hroot, h, Option.getD_some, walk_splitOn_render]

theorem resolve_slashes (hslashes : OnlySlashes path) (hne : path ≠ []) :
    (c.resolve path).names = [] := by
  change walk (if path.head? = some '/' then [] else c.names) (path.splitOn '/') = []
  have hhead : path.head? = some '/' := by
    cases path with
    | nil => exact absurd rfl hne
    | cons d path => exact congrArg some (hslashes d List.mem_cons_self)
  rw [if_pos hhead, splitOn_onlySlashes hslashes, walk_blank]

end Directory

/-! ## What is returned -/

/-- The segments from the root: those of the working directory are before those of a relative path. -/
def segments (pwd path : Text) : List Name :=
  if path.head? = some '/' then path.splitOn '/' else pwd.splitOn '/' ++ path.splitOn '/'

theorem climbs_sanitizeDirs (env : Env) {path : Text} (hslashes : path = ['/'] ∨ ¬ OnlySlashes path) :
    climbs [] (sanitizeDirs env path) = climbs [] (segments (env.pwd.getD []) path) := by
  unfold segments
  by_cases habs : path.head? = some '/'
  · rw [if_pos habs, sanitizeDirs_of_absolute habs hslashes]
    split
    · rename_i hroot
      rw [hroot]
      rfl
    · exact climbs_fields [] path
  · rw [if_neg habs, sanitizeDirs_of_relative habs, climbs_append, climbs_append, climbs_fields, climbs_fields,
      walk_fields]

/-- **A path is normalised,** with the `..` that lead above the root in front; where none does, the result is the
normalised path itself and is sanitised to itself. The empty path is that of the home directory. -/
theorem sanitize_resolves (env : Env) (path : Text) :
    (path = [] → sanitize env path = env.home.getD []) ∧
    (path = ['/'] ∨ ¬ OnlySlashes path →
      sanitize env path = join (List.replicate (climbs [] (segments (env.pwd.getD []) path)) ['.', '.']) ++
        ((root.resolve (env.pwd.getD [])).resolve path).render ∧
      (climbs [] (segments (env.pwd.getD []) path) = 0 →
        sanitize env path = ((root.resolve (env.pwd.getD [])).resolve path).render ∧
        sanitize env (sanitize env path) = sanitize env path)) := by
  refine ⟨fun hnil => if_pos hnil, ?_⟩
  intro hslashes
  have hne : path ≠ [] := by
    rintro rfl
    rcases hslashes with hroot | hnot
    · cases hroot
    · exact hnot fun _ h => absurd h List.not_mem_nil
  have hsanitize := sanitize_climbs env hne
  rw [climbs_sanitizeDirs env hslashes, reached_resolve env hslashes] at hsanitize
  refine ⟨hsanitize, ?_⟩
  intro hclimbs
  rw [hclimbs] at hsanitize
  have hrender : sanitize env path = ((root.resolve (env.pwd.getD [])).resolve path).render := hsanitize
  refine ⟨hrender, ?_⟩
  rw [hrender, sanitize_render]

/-- A path that leads above the root is not absolute when it is sanitised, and the empty one may be anything. -/
theorem sanitize_above_root :
    sanitize ⟨some "/home".toList, some "/etc".toList, none⟩ "/../a".toList = "../a".toList ∧
    (∀ p : Path, sanitize ⟨some "/home".toList, some "/etc".toList, none⟩ "/../a".toList ≠ p.render) ∧
    sanitize ⟨some "/home".toList, some "/etc".toList, none⟩ [] = "/etc".toList := by
  have habove : sanitize ⟨some "/home".toList, some "/etc".toList, none⟩ "/../a".toList = "../a".toList := by decide
  refine ⟨habove, ?_, rfl⟩
  intro p heq
  rw [habove, p.render_eq_cons] at heq
  have hhead := congrArg List.head? heq
  rw [List.head?_cons] at hhead
  exact absurd hhead (by decide)

end PicoRuby.Vfs
