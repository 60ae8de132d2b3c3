import PicoRuby.Vfs.Volumes

/-!
# FAT drivers

The methods of fat.rb that look at a path, over the two FatFs functions they call. What a drive
holds is a parameter: whether it can be used, and what the loop of `follow_path` finds.
-/

namespace PicoRuby.Vfs

open Shared

set_option autoImplicit false

/-! ## FatFs -/

inductive FResult where
  | ok | diskErr | intErr | notReady | noFile | noPath | invalidName | denied | exist
  | invalidObject | writeProtected | invalidDrive | notEnabled | noFilesystem | mkfsAborted
  | timeout | locked | notEnoughCore | tooManyOpenFiles | invalidParameter
deriving DecidableEq, Repr

/-- The texts of `FAT_prepare_exception`; `FR_OK` has none. -/
def prepareException : FResult → Option String
  | .ok => none
  | .diskErr => some "Unrecoverable hard error"
  | .intErr => some "Insanity is detected"
  | .notReady => some "Storage device not ready"
  | .noFile => some "No such file"
  | .noPath => some "No such path"
  | .invalidName => some "Invalid as a path name"
  | .denied => some "Permission denied"
  | .exist => some "File exists"
  | .invalidObject => some "Invalid object"
  | .writeProtected => some "Write protected"
  | .invalidDrive => some "Invalid drive number"
  | .notEnabled => some "Drive not mounted"
  | .noFilesystem => some "No valid FAT volume found"
  | .mkfsAborted => some "Volume format could not start"
  | .timeout => some "Timeout"
  | .locked => some "Object locked"
  | .notEnoughCore => some "No enough memory"
  | .tooManyOpenFiles => some "Too many open files"
  | .invalidParameter => some "Invalid parameter"

/-- Where `follow_path` ends: at the directory it starts from, at an object that is a directory
or not, or nowhere. A directory is known by its first cluster. -/
inductive Found where
  | origin (sclust : Nat)
  | object (isDirectory : Bool) (sclust : Nat)
  | failed (res : FResult)
deriving DecidableEq, Repr

/-- What is on the drives; a drive is known by the prefix of its paths. -/
structure FatFs where
  /-- `mount_volume`. -/
  mountVolume : Text → FResult
  /-- The loop of `follow_path` from a directory, over `create_name` and `dir_find`. -/
  segments : Text → Nat → Text → Found

def isSeparator (c : Char) : Bool := c = '/' || c = '\\'

/-- The current directories of the drives, `cdir`. -/
abbrev Cdirs := Text → Nat

section Drive
variable (fs : FatFs) (drive : Text) (cdir : Nat) (path : Text)

/-- `follow_path`; cluster 0 stands for the root. -/
def followPath : Found :=
  let separated := path.head?.any isSeparator
  let start := if separated then 0 else cdir
  let rest := if separated then path.dropWhile isSeparator else path
  if rest.head?.all (· < ' ') then .origin start else fs.segments drive start rest

/-- `f_stat`: whether the object is a directory. -/
def fStat : Except FResult Bool :=
  if fs.mountVolume drive = .ok then
    match followPath fs drive cdir path with
    | .origin _ => .error .invalidName
    | .object isDirectory _ => .ok isDirectory
    | .failed res => .error res
  else .error (fs.mountVolume drive)

/-- `f_chdir`: the new `cdir`. -/
def fChdir : Except FResult Nat :=
  if fs.mountVolume drive = .ok then
    match followPath fs drive cdir path with
    | .origin sclust => .ok sclust
    | .object isDirectory sclust => if isDirectory then .ok sclust else .error .noPath
    | .failed res => if res = .noFile then .error .noPath else .error res
  else .error (fs.mountVolume drive)

theorem followPath_nil : followPath fs drive cdir [] = .origin cdir := rfl

end Drive

/-! ## fat.rb -/

/-- A driver; `drive` is its `@prefix`. -/
structure Fat where
  drive : Text
deriving DecidableEq

/-- A string argument of a C function, which must not contain NUL. -/
def cString (s : Text) : Except Failure Unit :=
  if Char.ofNat 0 ∈ s then .error ⟨.argumentError, "string contains null byte"⟩ else .ok ()

/-- `mrb_raise_iff_f_error`. -/
def raiseIffError {α : Type} (func : String) : Except FResult α → Except Failure α
  | .ok a => .ok a
  | .error res => .error ⟨.runtimeError, ((prepareException res).getD "") ++ " @ " ++ func⟩

section Methods
variable (fs : FatFs) (driver : Fat) (cdirs : Cdirs) (path : Text)

/-- `FAT#exist?`. -/
def Fat.exist? : Except Failure Bool := do
  cString (driver.drive ++ path)
  match fStat fs driver.drive (cdirs driver.drive) path with
  | .ok _ => pure true
  | .error _ => pure false

/-- `FAT#_chdir`. -/
def Fat.chdir' : Except Failure (Option Int × Cdirs) := do
  cString (driver.drive ++ path)
  let sclust ← raiseIffError "f_chdir" (fChdir fs driver.drive (cdirs driver.drive) path)
  pure (some 0, Function.update cdirs driver.drive sclust)

/-- The path that `FAT#chdir` hands to FatFs. -/
def driverPath : Text := if path = ['/'] then [] else path

/-- `FAT#chdir`, which answers 0 also where the path does not exist. -/
def Fat.chdir : Except Failure (Option Int × Cdirs) := do
  let path := driverPath path
  if path = [] then chdir' fs driver cdirs path
  else if ← driver.exist? fs cdirs path then chdir' fs driver cdirs path
  else pure (some 0, cdirs)

end Methods

/-! ## What a change of directory comes to -/

section Outcome
variable {fs : FatFs} {driver : Fat} {cdirs : Cdirs} {path : Text}

/-- The driver raises: for NUL, for a drive it cannot use, or for a file. -/
def Fat.Raises (fs : FatFs) (driver : Fat) (cdirs : Cdirs) (path : Text) : Prop :=
  Char.ofNat 0 ∈ driver.drive ++ driverPath path ∨
    (driverPath path = [] ∧ fs.mountVolume driver.drive ≠ .ok) ∨
      (fs.mountVolume driver.drive = .ok ∧ ∃ sclust,
        followPath fs driver.drive (cdirs driver.drive) (driverPath path) = .object false sclust)

/-- The directory of the drive afterwards, where the driver does not raise. -/
def Fat.cdirAfter (fs : FatFs) (driver : Fat) (cdirs : Cdirs) (path : Text) : Nat :=
  if fs.mountVolume driver.drive = .ok then
    match followPath fs driver.drive (cdirs driver.drive) (driverPath path) with
    | .object _ sclust => sclust
    | _ => cdirs driver.drive
  else cdirs driver.drive

theorem Fat.chdir'_ok {sclust : Nat} (hnul : Char.ofNat 0 ∉ driver.drive ++ path)
    (h : fChdir fs driver.drive (cdirs driver.drive) path = .ok sclust) :
    driver.chdir' fs cdirs path = .ok (some 0, Function.update cdirs driver.drive sclust) := by
  rw [chdir', cString, if_neg hnul, h]
  rfl

theorem Fat.chdir'_error {res : FResult} (hnul : Char.ofNat 0 ∉ driver.drive ++ path)
    (h : fChdir fs driver.drive (cdirs driver.drive) path = .error res) :
    ∃ e, driver.chdir' fs cdirs path = .error e := by
  rw [chdir', cString, if_neg hnul, h]
  exact ⟨_, rfl⟩

theorem Fat.exist?_eq (hnul : Char.ofNat 0 ∉ driver.drive ++ path) :
    driver.exist? fs cdirs path =
      .ok (fStat fs driver.drive (cdirs driver.drive) path).toBool := by
  rw [exist?, cString, if_neg hnul]
  cases fStat fs driver.drive (cdirs driver.drive) path with
  | ok isDirectory => rfl
  | error res => rfl

theorem Fat.chdir_eq (hnul : Char.ofNat 0 ∉ driver.drive ++ driverPath path) :
    driver.chdir fs cdirs path =
      if driverPath path = [] ∨
          (fStat fs driver.drive (cdirs driver.drive) (driverPath path)).toBool then
        driver.chdir' fs cdirs (driverPath path)
      else .ok (some 0, cdirs) := by
  unfold chdir
  dsimp only
  by_cases hnil : driverPath path = []
  · rw [if_pos hnil, if_pos (Or.inl hnil)]
  · rw [if_neg hnil]
    rw [exist?_eq hnul]
    cases hstat : fStat fs driver.drive (cdirs driver.drive) (driverPath path) with
    | ok isDirectory =>
      have hexists : (Except.ok isDirectory : Except FResult Bool).toBool = true := rfl
      rw [if_pos (Or.inr hexists)]
      rfl
    | error res =>
      rw [if_neg fun h => h.elim hnil nofun]
      rfl

theorem Fat.chdir_error (h : driver.Raises fs cdirs path) :
    ∃ e, driver.chdir fs cdirs path = .error e := by
  by_cases hnul : Char.ofNat 0 ∈ driver.drive ++ driverPath path
  · unfold chdir
    dsimp only
    split
    · rw [chdir', cString, if_pos hnul]
      exact ⟨_, rfl⟩
    · rw [exist?, cString, if_pos hnul]
      exact ⟨_, rfl⟩
  · rw [chdir_eq hnul]
    rcases h.resolve_left hnul with ⟨hnil, hmount⟩ | ⟨hmount, sclust, hfound⟩
    · rw [if_pos (Or.inl hnil)]
      refine chdir'_error hnul (?_ : _ = Except.error (fs.mountVolume driver.drive))
      rw [fChdir, if_neg hmount]
    · have hstat : fStat fs driver.drive (cdirs driver.drive) (driverPath path) = .ok false := by
        rw [fStat, if_pos hmount, hfound]
      rw [if_pos (Or.inr (by rw [hstat]; rfl))]
      refine chdir'_error hnul (?_ : _ = Except.error .noPath)
      rw [fChdir, if_pos hmount, hfound]
      rfl

theorem Fat.chdir_ok (h : ¬ driver.Raises fs cdirs path) :
    driver.chdir fs cdirs path =
      .ok (some 0, Function.update cdirs driver.drive (driver.cdirAfter fs cdirs path)) := by
  rw [Raises, not_or, not_or] at h
  obtain ⟨hnul, hready, hfile⟩ := h
  rw [chdir_eq hnul]
  by_cases hnil : driverPath path = []
  · have hmount : fs.mountVolume driver.drive = .ok := by
      by_contra hnot
      exact hready ⟨hnil, hnot⟩
    rw [if_pos (Or.inl hnil), cdirAfter, if_pos hmount, hnil, followPath_nil]
    refine chdir'_ok (hnil ▸ hnul) ?_
    rw [fChdir, if_pos hmount, followPath_nil]
  · by_cases hmount : fs.mountVolume driver.drive = .ok
    · cases hfound : followPath fs driver.drive (cdirs driver.drive) (driverPath path) with
      | origin sclust =>
        rw [fStat, if_pos hmount, cdirAfter, if_pos hmount, hfound,
          if_neg fun h => h.elim hnil nofun, Function.update_eq_self]
      | object isDirectory sclust =>
        cases isDirectory with
        | false => exact absurd ⟨hmount, sclust, hfound⟩ hfile
        | true =>
          have hstat : fStat fs driver.drive (cdirs driver.drive) (driverPath path) = .ok true := by
            rw [fStat, if_pos hmount, hfound]
          have hexists : (Except.ok true : Except FResult Bool).toBool = true := rfl
          rw [hstat, cdirAfter, if_pos hmount, hfound, if_pos (Or.inr hexists)]
          refine chdir'_ok hnul ?_
          rw [fChdir, if_pos hmount, hfound]
          rfl
      | failed res =>
        rw [fStat, if_pos hmount, cdirAfter, if_pos hmount, hfound,
          if_neg fun h => h.elim hnil nofun, Function.update_eq_self]
    · rw [fStat, if_neg hmount, cdirAfter, if_neg hmount,
        if_neg fun h => h.elim hnil nofun, Function.update_eq_self]

end Outcome

end PicoRuby.Vfs
