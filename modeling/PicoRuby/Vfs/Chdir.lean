import PicoRuby.Vfs.Sanitize
import PicoRuby.Vfs.Routing
import PicoRuby.Vfs.Fat

/-!
# VFS.chdir

The working directory is cut out of the sanitised path, whatever the driver has found: it answers
0, which is true in Ruby, also for a directory that does not exist.
-/

namespace PicoRuby.Vfs

open Shared

set_option autoImplicit false

structure System where
  env : Env
  cdirs : Cdirs
  output : List Text

/-! ## The working directory -/

/-- How far `while [".", "/"].include?(sanitized_path[index].to_s)` goes. -/
def skipDots : Text → Nat
  | [] => 0
  | c :: s => if DotOrSlash c then skipDots s + 1 else 0

/-- What `ENV["PWD"]` becomes. -/
def workingDirectory (sanitizedPath : Text) : Text :=
  let index := 1 + skipDots (sanitizedPath.drop 1)
  (slice sanitizedPath (index - 1) sanitizedPath.length).getD []

/-- The first name does not begin with a dot. -/
def Undotted (p : Path) : Prop := ∀ n ∈ p.names.head?, n.head? ≠ some '.'

instance (p : Path) : Decidable (Undotted p) :=
  inferInstanceAs (Decidable (∀ n ∈ p.names.head?, n.head? ≠ some '.'))

theorem undotted_iff {p : Path} : Undotted p ↔ ∀ c ∈ p.render.tail.head?, ¬ DotOrSlash c := by
  obtain ⟨ns, hvalid⟩ := p
  cases ns with
  | nil => exact ⟨fun _ _ hc => absurd hc nofun, fun _ _ hn => absurd hn nofun⟩
  | cons n ns =>
    obtain ⟨hne, hslash, -⟩ := hvalid n List.mem_cons_self
    cases n with
    | nil => exact absurd rfl hne
    | cons d n =>
      constructor
      · intro h c hc hdot
        cases hc
        rcases hdot with rfl | rfl
        · exact h _ rfl rfl
        · exact hslash List.mem_cons_self
      · intro h m hm heq
        cases hm
        exact h d rfl (.inl (Option.some.inj heq))

theorem skipDots_append {s t : Text} (h : ∀ c ∈ s, DotOrSlash c) :
    skipDots (s ++ t) = s.length + skipDots t := by
  induction s with
  | nil => exact (Nat.zero_add _).symm
  | cons c s ih =>
    rw [List.cons_append, skipDots, if_pos (h c List.mem_cons_self),
      ih fun d hd => h d (List.mem_cons_of_mem _ hd), List.length_cons]
    omega

theorem skipDots_eq_zero {t : Text} (h : ∀ c ∈ t.head?, ¬ DotOrSlash c) : skipDots t = 0 := by
  cases t with
  | nil => rfl
  | cons c t => rw [skipDots, if_neg (h c rfl)]

theorem skipDots_le (s : Text) : skipDots s ≤ s.length := by
  induction s with
  | nil => exact Nat.le_refl 0
  | cons c s ih =>
    rw [skipDots, List.length_cons]
    split
    · omega
    · omega

/-- The loop stops behind dots and slashes, in front of something else. -/
theorem skipDots_spec (s : Text) :
    (∀ c ∈ s.take (skipDots s), DotOrSlash c) ∧
      ∀ c ∈ (s.drop (skipDots s)).head?, ¬ DotOrSlash c := by
  induction s with
  | nil => exact ⟨fun _ hc => absurd hc List.not_mem_nil, fun _ hc => absurd hc nofun⟩
  | cons d s ih =>
    rw [skipDots]
    by_cases hd : DotOrSlash d
    · rw [if_pos hd, List.take_succ_cons, List.drop_succ_cons]
      refine ⟨?_, ih.2⟩
      intro c hc
      rcases List.mem_cons.mp hc with rfl | hc
      · exact hd
      · exact ih.1 c hc
    · rw [if_neg hd]
      refine ⟨fun _ hc => absurd hc List.not_mem_nil, ?_⟩
      intro c hc
      rw [← Option.some.inj hc]
      exact hd

theorem workingDirectory_eq (s : Text) : workingDirectory s = s.drop (skipDots (s.drop 1)) := by
  have hle := skipDots_le (s.drop 1)
  rw [List.length_drop] at hle
  unfold workingDirectory slice
  dsimp only
  rw [Nat.add_sub_cancel_left, if_pos (by omega), Option.getD_some, List.take_of_length_le]
  rw [List.length_drop]
  omega

/-- The working directory is a path that stands behind dots and slashes only, and whose first name
does not begin with a dot. -/
theorem workingDirectory_eq_iff {s : Text} {p : Path} :
    workingDirectory s = p.render ↔
      (∃ lead, s = lead ++ p.render ∧ ∀ c ∈ lead.tail, DotOrSlash c) ∧ Undotted p := by
  rw [workingDirectory_eq, undotted_iff]
  obtain ⟨hrun, hstop⟩ := skipDots_spec (s.drop 1)
  constructor
  · intro heq
    refine ⟨⟨s.take (skipDots (s.drop 1)), by rw [← heq, List.take_append_drop], ?_⟩, ?_⟩
    · intro c hc
      apply hrun c
      rw [← List.drop_one, List.drop_take] at hc
      exact List.take_subset_take_left _ (Nat.sub_le _ 1) hc
    · rw [← heq, ← List.drop_one, List.drop_drop, Nat.add_comm, ← List.drop_drop]
      exact hstop
  · rintro ⟨⟨lead, rfl, hlead⟩, hstop'⟩
    have hcons := p.render_eq_cons
    cases lead with
    | nil =>
      have hzero : skipDots (([] ++ p.render).drop 1) = 0 := by
        rw [List.nil_append, List.drop_one]
        exact skipDots_eq_zero hstop'
      rw [hzero]
      rfl
    | cons d lead =>
      have hlead : ∀ c ∈ lead, DotOrSlash c := hlead
      have hskip : skipDots ((d :: lead ++ p.render).drop 1) = lead.length + 1 := by
        rw [List.cons_append, List.drop_succ_cons, List.drop_zero, skipDots_append hlead, hcons,
          skipDots, if_pos (.inr rfl), skipDots_eq_zero hstop']
      rw [hskip, List.cons_append, List.drop_succ_cons, List.drop_left]

/-! ## chdir -/

section Chdir
variable (fs : FatFs) (volumes : List (Volume Fat))

/-- `VFS.chdir`. -/
def chdir (dir : Text) (s : System) : Except Failure Int × System :=
  let sanitizedPath := sanitize s.env dir
  match split volumes sanitizedPath with
  | (none, _) => (.error ⟨.noMethodError, "undefined method '[]'"⟩, s)
  | (some volume, path) =>
    match volume.driver.chdir fs s.cdirs path with
    | .error e => (.error e, s)
    | .ok (result, cdirs) =>
      if result.isSome then
        (.ok 0, { s with
          env := { s.env with pwd := some (workingDirectory sanitizedPath) }
          cdirs := cdirs })
      else
        (.ok 0, { s with cdirs := cdirs, output := s.output ++ ["No such directory: ".toList ++ dir] })

/-- The driver that a path is routed to raises, or there is none. -/
def DriverRaises (cdirs : Cdirs) : Option (Volume Fat) × Text → Prop
  | (none, _) => True
  | (some volume, path) => volume.driver.Raises fs cdirs path

/-- The directories of the drives after the driver. -/
def cdirsAfter (cdirs : Cdirs) : Option (Volume Fat) × Text → Cdirs
  | (none, _) => cdirs
  | (some volume, path) =>
    Function.update cdirs volume.driver.drive (volume.driver.cdirAfter fs cdirs path)

end Chdir

section Outcome
variable {fs : FatFs} {volumes : List (Volume Fat)} {dir : Text} {s : System} {c : Path}

theorem chdir_ok (h : ¬ DriverRaises fs s.cdirs (split volumes (sanitize s.env dir))) :
    chdir fs volumes dir s = (.ok 0, { s with
      env := { s.env with pwd := some (workingDirectory (sanitize s.env dir)) }
      cdirs := cdirsAfter fs s.cdirs (split volumes (sanitize s.env dir)) }) := by
  unfold chdir
  dsimp only
  generalize split volumes (sanitize s.env dir) = route at h ⊢
  obtain ⟨volume?, path⟩ := route
  cases volume? with
  | none => exact absurd trivial h
  | some volume =>
    dsimp only
    rw [Fat.chdir_ok h]
    rfl

theorem chdir_error (h : DriverRaises fs s.cdirs (split volumes (sanitize s.env dir))) :
    ∃ e, chdir fs volumes dir s = (.error e, s) := by
  unfold chdir
  dsimp only
  generalize split volumes (sanitize s.env dir) = route at h ⊢
  obtain ⟨volume?, path⟩ := route
  cases volume? with
  | none => exact ⟨_, rfl⟩
  | some volume =>
    obtain ⟨e, he⟩ := Fat.chdir_error h
    dsimp only
    rw [he]
    exact ⟨e, rfl⟩

/-! ## Whether it is correct -/

/-- The drive has a directory at the path, and this is its cluster. -/
structure FatFs.DirectoryAt (fs : FatFs) (drive : Text) (p : Path) (sclust : Nat) : Prop where
  noNul : Char.ofNat 0 ∉ p.render
  mounted : fs.mountVolume drive = .ok
  found : followPath fs drive 0 p.render = .origin sclust ∨
    followPath fs drive 0 p.render = .object true sclust

/-- The path is a directory of the volume that serves it. -/
def IsDirectory (fs : FatFs) (volumes : List (Volume Fat)) (p : Path) : Prop :=
  ∃ v rest sclust, Serves volumes p v rest ∧ fs.DirectoryAt v.driver.drive rest sclust

/-- What a path resolves to from a directory; the empty path is for `ENV["HOME"]`. -/
def target (env : Env) (c : Path) (dir : Text) : Path :=
  c.resolve (if dir = [] then env.home.getD [] else dir)

/-- The failure is raised or printed. -/
def Reported (s : System) (r : Except Failure Int × System) : Prop :=
  (∃ e, r.1 = .error e) ∨ r.2.output ≠ s.output

/-- A directory becomes the working directory; anything else changes nothing and is reported. -/
structure ChdirCorrect (fs : FatFs) (volumes : List (Volume Fat)) (s : System) (c : Path)
    (dir : Text) : Prop where
  arrives : IsDirectory fs volumes (target s.env c dir) →
    (chdir fs volumes dir s).1 = .ok 0 ∧
      (chdir fs volumes dir s).2.env.pwd = some (target s.env c dir).render
  atomic : ¬ IsDirectory fs volumes (target s.env c dir) →
    (chdir fs volumes dir s).2.env.pwd = s.env.pwd ∧ Reported s (chdir fs volumes dir s)

theorem render_getLast? {p : Path} (h : p.names ≠ []) : p.render.getLast? ≠ some '/' := by
  obtain ⟨ns, hvalid⟩ := p
  obtain ⟨n, hn⟩ := List.getLast?_isSome.mpr h |> Option.isSome_iff_exists.mp
  obtain ⟨ms, rfl⟩ := List.getLast?_eq_some_iff.mp hn
  obtain ⟨hne, hslash, -⟩ := hvalid n (List.mem_append_right _ List.mem_cons_self)
  rw [Path.render, if_neg h, slashed_append]
  change (slashed ms ++ '/' :: (n ++ [])).getLast? ≠ _
  rw [List.append_nil, List.getLast?_append_cons]
  intro heq
  cases n with
  | nil => exact hne rfl
  | cons d n =>
    rw [List.getLast?_cons_cons] at heq
    exact hslash (List.mem_of_getLast? heq)

/-- Of two normalised paths that one text ends in, both are the root or neither is. -/
theorem names_nil_iff_of_append {l t : Text} {m p : Path} (h : l ++ m.render = t ++ p.render) :
    m.names = [] ↔ p.names = [] := by
  have hroot (q : Path) : q.render.getLast? = some '/' ↔ q.names = [] := by
    constructor
    · intro hlast
      by_contra hne
      exact render_getLast? hne hlast
    · intro hq
      rw [Path.render, if_pos hq]
      rfl
  have hlast := congrArg List.getLast? h
  rw [List.getLast?_append_of_ne_nil _ m.render_ne_nil,
    List.getLast?_append_of_ne_nil _ p.render_ne_nil] at hlast
  rw [← hroot m, ← hroot p, hlast]

theorem undotted_nil {p : Path} (h : p.names = []) : Undotted p := by
  intro n hn
  rw [h] at hn
  exact absurd hn nofun

theorem two_le_length {path : Text} (h : OnlySlashes path) (hnil : path ≠ []) (hroot : path ≠ ['/']) :
    2 ≤ path.length := by
  cases path with
  | nil => exact absurd rfl hnil
  | cons d path =>
    cases path with
    | nil => exact absurd (congrArg (· :: []) (h d List.mem_cons_self)) hroot
    | cons e path =>
      rw [List.length_cons, List.length_cons]
      omega

/-- Behind dots and slashes, the root is only found in the root. -/
theorem workingDirectory_root {ups : Text} (hups : ∀ d ∈ ups, DotOrSlash d) :
    workingDirectory (ups ++ c.render) = ['/'] ↔ c.names = [] := by
  have hroot (p : Path) (h : p.names = []) : p.render = ['/'] := if_pos h
  constructor
  · intro heq
    have heq : workingDirectory (ups ++ c.render) = root.render := heq
    obtain ⟨⟨lead, hlead, -⟩, -⟩ := workingDirectory_eq_iff.mp heq
    exact (names_nil_iff_of_append hlead).mpr rfl
  · intro hc
    rw [← hroot c hc]
    exact workingDirectory_eq_iff.mpr
      ⟨⟨ups, rfl, fun d hd => hups d (List.mem_of_mem_tail hd)⟩, undotted_nil hc⟩

/-- What `sanitize` makes of a path becomes the working directory that the path resolves to. -/
theorem workingDirectory_target (hpwd : s.env.pwd = some c.render) :
    workingDirectory (sanitize s.env dir) = (target s.env c dir).render ↔
      Undotted (target s.env c dir) ∧
      (dir = [] → ∃ lead, s.env.home.getD [] = lead ++ (target s.env c dir).render ∧
        ∀ d ∈ lead.tail, DotOrSlash d) ∧
      (OnlySlashes dir → 2 ≤ dir.length → c.names = []) := by
  by_cases hnil : dir = []
  · have hsan : sanitize s.env dir = s.env.home.getD [] := by rw [sanitize, if_pos hnil]
    rw [workingDirectory_eq_iff, hsan]
    constructor
    · rintro ⟨hlead, hun⟩
      refine ⟨hun, fun _ => hlead, ?_⟩
      intro _ hlen
      rw [hnil] at hlen
      exact absurd hlen (by decide)
    · rintro ⟨hun, hlead, -⟩
      exact ⟨hlead hnil, hun⟩
  · obtain ⟨ups, hups, hsan⟩ := sanitize_eq s.env hnil
    have htarget : target s.env c dir = c.resolve dir := by rw [target, if_neg hnil]
    by_cases hslashes : dir = ['/'] ∨ ¬ OnlySlashes dir
    · rw [reached_eq_resolve hpwd hslashes, ← htarget] at hsan
      rw [workingDirectory_eq_iff]
      constructor
      · rintro ⟨-, hun⟩
        refine ⟨hun, fun h => absurd h hnil, ?_⟩
        intro hall hlen
        rcases hslashes with hroot | hnot
        · rw [hroot] at hlen
          exact absurd hlen (by decide)
        · exact absurd hall hnot
      · rintro ⟨hun, -⟩
        exact ⟨⟨ups, hsan, fun d hd => hups d (List.mem_of_mem_tail hd)⟩, hun⟩
    · rw [not_or, not_not] at hslashes
      obtain ⟨hroot, hall⟩ := hslashes
      have hnames : (target s.env c dir).names = [] := htarget ▸ resolve_slashes hall hnil
      have hrender : (target s.env c dir).render = ['/'] := if_pos hnames
      rw [hsan, reached_slashes hpwd hall hroot, hrender, workingDirectory_root hups]
      constructor
      · intro hc
        exact ⟨undotted_nil hnames, fun h => absurd h hnil, fun _ _ => hc⟩
      · rintro ⟨-, -, hc⟩
        exact hc hall (two_le_length hall hnil hroot)

/-- When `VFS.chdir` is correct. A path to a directory must be one whose first name does not begin
with a dot, that is not written as two slashes or more, and that its driver takes; for the empty
path, `ENV["HOME"]` must be normalised. Any other path must be one that its driver raises for. -/
theorem chdir_correct_iff (hpwd : s.env.pwd = some c.render) :
    ChdirCorrect fs volumes s c dir ↔
      (IsDirectory fs volumes (target s.env c dir) →
        ¬ DriverRaises fs s.cdirs (split volumes (sanitize s.env dir)) ∧
        Undotted (target s.env c dir) ∧
        (dir = [] → ∃ lead, s.env.home.getD [] = lead ++ (target s.env c dir).render ∧
          ∀ d ∈ lead.tail, DotOrSlash d) ∧
        (OnlySlashes dir → 2 ≤ dir.length → c.names = [])) ∧
      (¬ IsDirectory fs volumes (target s.env c dir) →
        DriverRaises fs s.cdirs (split volumes (sanitize s.env dir))) := by
  by_cases hraises : DriverRaises fs s.cdirs (split volumes (sanitize s.env dir))
  · obtain ⟨e, he⟩ := chdir_error hraises
    constructor
    · intro h
      refine ⟨?_, fun _ => hraises⟩
      intro hdir
      have hok := (h.arrives hdir).1
      rw [he] at hok
      cases hok
    · rintro ⟨hdir, -⟩
      refine ⟨fun h => absurd hraises (hdir h).1, ?_⟩
      intro _
      rw [he]
      exact ⟨rfl, .inl ⟨e, rfl⟩⟩
  · have heq := chdir_ok hraises
    constructor
    · intro h
      constructor
      · intro hdir
        refine ⟨hraises, (workingDirectory_target hpwd).mp ?_⟩
        have hpwd' := (h.arrives hdir).2
        rw [heq] at hpwd'
        exact Option.some.inj hpwd'
      · intro hnot
        rcases (h.atomic hnot).2 with ⟨e, he⟩ | hout
        · rw [heq] at he
          cases he
        · rw [heq] at hout
          exact absurd rfl hout
    · rintro ⟨hdir, hnot⟩
      constructor
      · intro h
        rw [heq]
        exact ⟨rfl, congrArg some ((workingDirectory_target hpwd).mpr (hdir h).2)⟩
      · intro h
        exact absurd (hnot h) hraises

end Outcome

/-! ## A drive with three directories -/

/-- `/home`, `/.config` and `/var` are on the flash. -/
def threeDirectories : FatFs where
  mountVolume _ := .ok
  segments _ _ path :=
    if path = "home".toList then .object true 2
    else if path = ".config".toList then .object true 3
    else if path = "var".toList then .object true 4
    else .failed .noFile

def flash : Volume Fat := ⟨⟨"flash:".toList⟩, ['/']⟩

def atRoot : System := ⟨⟨some ['/'], some "/home".toList, none⟩, fun _ => 0, []⟩

theorem flash_serves (p : Path) : Serves [flash] p flash p := by
  refine ⟨List.mem_cons_self, ⟨root, rfl, rfl⟩, ?_⟩
  intro w hw m hmount _
  rw [List.mem_singleton.mp hw] at hmount
  have hm : m = root := Path.render_injective hmount.symm
  rw [hm]
  exact Nat.le_of_eq (Nat.zero_add _)

def homePath : Path := ⟨["home".toList], by decide⟩
def configPath : Path := ⟨[".config".toList], by decide⟩

theorem chdir_home : ChdirCorrect threeDirectories [flash] atRoot root "home".toList := by
  have hroute : split [flash] (sanitize atRoot.env "home".toList) = (some flash, "/home".toList) := by
    decide
  have htakes : ¬ DriverRaises threeDirectories atRoot.cdirs (some flash, "/home".toList) := by
    rintro (hnul | ⟨hnil, -⟩ | ⟨-, sclust, hfile⟩)
    · exact absurd hnul (by decide)
    · exact absurd hnil (by decide)
    · have hfound : followPath threeDirectories flash.driver.drive 0 "/home".toList =
          .object true 2 := rfl
      exact absurd (hfound.symm.trans hfile) nofun
  have hdirectory : IsDirectory threeDirectories [flash] (target atRoot.env root "home".toList) :=
    ⟨flash, homePath, 2, flash_serves homePath, by decide, rfl, .inr rfl⟩
  refine (chdir_correct_iff rfl).mpr ⟨?_, fun hnot => absurd hdirectory hnot⟩
  intro _
  rw [hroute]
  refine ⟨htakes, by decide, fun h => absurd h (by decide), ?_⟩
  intro hall
  exact absurd hall (by decide)

theorem nope_missing :
    ¬ IsDirectory threeDirectories [flash] (target atRoot.env root "nope".toList) := by
  rintro ⟨v, rest, sclust, hserves, hat⟩
  obtain ⟨-, hrest⟩ := hserves.unique (by decide) (flash_serves _)
  rw [hrest] at hat
  rcases hat.found with hfound | hfound
  · exact absurd hfound nofun
  · exact absurd hfound nofun

/-- From `/`, `nope`, which does not exist, becomes the working directory, and nothing is reported;
and for the directory `/.config` it becomes `.config`. -/
theorem chdir_incorrect : ¬ ChdirCorrect threeDirectories [flash] atRoot root "nope".toList ∧
    ¬ ChdirCorrect threeDirectories [flash] atRoot root "/.config".toList := by
  constructor
  · intro h
    have hpwd := (h.atomic nope_missing).1
    have hrun : (chdir threeDirectories [flash] "nope".toList atRoot).2.env.pwd =
        some "/nope".toList := rfl
    rw [hrun] at hpwd
    exact absurd hpwd (by decide)
  · intro h
    have hdirectory : IsDirectory threeDirectories [flash] configPath :=
      ⟨flash, configPath, 3, flash_serves configPath, by decide, rfl, .inr rfl⟩
    have hpwd := (h.arrives hdirectory).2
    have hrun : (chdir threeDirectories [flash] "/.config".toList atRoot).2.env.pwd =
        some ".config".toList := rfl
    rw [hrun] at hpwd
    exact absurd hpwd (by decide)

end PicoRuby.Vfs
