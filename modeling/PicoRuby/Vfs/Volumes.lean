import PicoRuby.Shared.Paths
import Mathlib.Data.List.Infix
import Mathlib.Data.List.Nodup

/-!
# VFS: the mount table

The table of vfs.rb, with the environment variables that its methods read, and the two methods
that turn a path into a volume and a path for the driver of the volume.
-/

namespace PicoRuby.Vfs

open Shared

set_option autoImplicit false

abbrev Text := List Char

def root : Path := ⟨[], nofun⟩

/-- The exception classes that vfs.rb raises. -/
inductive ErrorClass where
  | runtimeError | argumentError | noMethodError
deriving DecidableEq, Repr

structure Failure where
  cls : ErrorClass
  message : String
deriving DecidableEq, Repr

/-- An entry of `VOLUMES`. -/
structure Volume (D : Type) where
  driver : D
  mountpoint : Text
deriving DecidableEq

/-- The variables of `ENV` that are read here; nil is `none`. -/
structure Env where
  pwd : Option Text
  home : Option Text
  oldpwd : Option Text
deriving DecidableEq, Repr

section Table
variable {D : Type}

/-- `VFS.volume_index`. -/
def volumeIndex (volumes : List (Volume D)) (mountpoint : Text) : Option Nat :=
  volumes.findIdx? fun v => v.mountpoint = mountpoint

/-- `VFS.mount`; `driverMount` is what `driver.mount` raises. -/
def mount (driverMount : D → Text → Option Failure) (driver : D) (mountpoint : Text)
    (volumes : List (Volume D)) (env : Env) : Except Failure (List (Volume D) × Env) :=
  if (volumeIndex volumes mountpoint).isSome then
    .error ⟨.runtimeError, s!"Mountpoint `{String.ofList mountpoint}` already exists"⟩
  else if mountpoint.head? ≠ some '/' then
    .error ⟨.argumentError, "Mountpoint must start with `/`"⟩
  else
    match driverMount driver mountpoint with
    | some e => .error e
    | none =>
      .ok (volumes ++ [⟨driver, mountpoint⟩],
        if env.pwd = some [] then { env with pwd := some mountpoint } else env)

/-- The tables that calls of `VFS.mount` build, in the order of the calls. -/
inductive Mounted : List (Volume D) → Prop where
  | none : Mounted []
  | mount {volumes volumes' : List (Volume D)} {env env' : Env} {driver : D} {mountpoint : Text}
      {driverMount : D → Text → Option Failure} (h : Mounted volumes)
      (hmount : mount driverMount driver mountpoint volumes env = .ok (volumes', env')) :
      Mounted volumes'

theorem Mounted.nodup {volumes : List (Volume D)} (h : Mounted volumes) :
    (volumes.map Volume.mountpoint).Nodup := by
  induction h with
  | none => exact List.nodup_nil
  | @mount volumes _ _ _ driver mountpoint _ _ hmount ih =>
    unfold Vfs.mount at hmount
    split at hmount
    · cases hmount
    · rename_i hindex
      split at hmount
      · cases hmount
      · split at hmount
        · cases hmount
        · cases hmount
          have hnew : mountpoint ∉ volumes.map Volume.mountpoint := by
            intro hmem
            obtain ⟨v, hv, heq⟩ := List.mem_map.mp hmem
            rw [volumeIndex, Bool.not_eq_true, Option.isSome_eq_false_iff, Option.isNone_iff_eq_none,
              List.findIdx?_eq_none_iff] at hindex
            exact absurd heq (of_decide_eq_false (hindex v hv))
          rw [List.map_append, List.nodup_append]
          refine ⟨ih, List.nodup_singleton _, ?_⟩
          intro a ha b hb heq
          rw [List.map_cons, List.map_nil, List.mem_singleton] at hb
          rw [heq, hb] at ha
          exact hnew ha

theorem mounted_concat {volumes : List (Volume D)} {v : Volume D} (h : Mounted volumes)
    (hnew : v.mountpoint ∉ volumes.map Volume.mountpoint) (hslash : v.mountpoint.head? = some '/') :
    Mounted (volumes ++ [v]) := by
  have hindex : volumeIndex volumes v.mountpoint = none := by
    rw [volumeIndex, List.findIdx?_eq_none_iff]
    intro w hw
    apply decide_eq_false
    intro heq
    exact hnew (List.mem_map.mpr ⟨w, hw, heq⟩)
  have hmount : mount (fun _ _ => none) v.driver v.mountpoint volumes ⟨none, none, none⟩ =
      .ok (volumes ++ [v], ⟨none, none, none⟩) := by
    unfold Vfs.mount
    rw [hindex, hslash, if_neg (by decide), if_neg (by simp)]
    rfl
  exact .mount h hmount

end Table

/-! ## sanitize -/

/-- The body of the loop of `VFS.sanitize` on `sanitized_dirs` and `prefix_dirs`. -/
def sanitizeStep (s : List Text × List Text) (dir : Text) : List Text × List Text :=
  if dir = ['.'] ∨ dir = [] then s
  else if dir = ['.', '.'] then
    if s.1.isEmpty then (s.1, s.2 ++ [['.', '.']]) else (s.1.dropLast, s.2)
  else (s.1 ++ [dir], s.2)

/-- `Array#join("/")`. -/
def join (dirs : List Text) : Text := List.intercalate ['/'] dirs

/-- The directories that the loop goes through. -/
def sanitizeDirs (env : Env) (path : Text) : List Text :=
  let dirs := if path = ['/'] then [[]] else fields '/' path
  if dirs.head? ≠ some [] then fields '/' (env.pwd.getD []) ++ dirs else dirs

/-- `VFS.sanitize`. -/
def sanitize (env : Env) (path : Text) : Text :=
  if path = [] then env.home.getD []
  else
    let (sanitizedDirs, prefixDirs) := (sanitizeDirs env path).foldl sanitizeStep ([], [])
    join prefixDirs ++ '/' :: join sanitizedDirs

/-! ## split -/

/-- `Enumerable#max` with a block: the block is called with an element and the result so far. -/
def maxBlock {α : Type} (block : α → α → Int) : List α → Option α
  | [] => none
  | a :: l => some (l.foldl (fun result val => if block val result > 0 then val else result) a)

/-- `str[start, len]`. -/
def slice (s : Text) (start len : Nat) : Option Text :=
  if start ≤ s.length then some ((s.drop start).take len) else none

section Split
variable {D : Type}

/-- The block that `VFS.split` hands to `max` ignores its second argument. -/
def mountpointLength (v _result : Option (Volume D)) : Int :=
  match v with
  | some v => v.mountpoint.length
  | none => -1

/-- `VFS.split`; the volume is nil only where nothing is mounted. -/
def split (volumes : List (Volume D)) (sanitizedPath : Text) : Option (Volume D) × Text :=
  let candidates := volumes.map fun v => if v.mountpoint <+: sanitizedPath then some v else none
  match (maxBlock mountpointLength candidates).join with
  | some volume =>
    let cut := if volume.mountpoint = ['/'] then 0 else 1
    (some volume, '/' :: (slice sanitizedPath (volume.mountpoint.length + cut) 255).getD [])
  | none => (volumes[0]?, sanitizedPath)

end Split

end PicoRuby.Vfs
