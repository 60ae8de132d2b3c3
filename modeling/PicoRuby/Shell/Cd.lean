import PicoRuby.Vfs.Chdir

/-!
# The shell's cd

`_cd` makes its argument the working directory before `Dir.chdir` reads it, so that a relative
argument is resolved from itself.
-/

namespace PicoRuby.Shell

open Shared Vfs

set_option autoImplicit false

section Methods
variable (fs : FatFs) (volumes : List (Volume Fat))

/-! ## vfs.rb, file.rb, dir.rb -/

def envDefaultHome : Text := "/home".toList

/-- `VFS.pwd`. -/
def pwd (s : System) : Text × System :=
  match s.env.pwd with
  | some path => (path, s)
  | none => (envDefaultHome, { s with env := { s.env with pwd := some envDefaultHome } })

/-- A call of a driver's method for a path, as in `VFS.exist?` and `VFS.directory?`. -/
def askDriver (method : Fat → Cdirs → Text → Except Failure Bool) (s : System) (path : Text) :
    Except Failure Bool :=
  match split volumes (sanitize s.env path) with
  | (none, _) => .error ⟨.noMethodError, "undefined method '[]'"⟩
  | (some volume, rest) => method volume.driver s.cdirs rest

/-- `VFS.exist?`. -/
def exist? : System → Text → Except Failure Bool := askDriver volumes (Fat.exist? fs)

def System.puts (s : System) (line : Text) : System := { s with output := s.output ++ [line] }

end Methods

/-! ## What the builtin takes -/

section Accepts
variable {fs : FatFs} {volumes : List (Volume Fat)} {cdirs : Cdirs}

/-- The driver can be asked for what a path is routed to. -/
def Askable : Option (Volume Fat) × Text → Prop
  | (none, _) => False
  | (some volume, path) => Char.ofNat 0 ∉ volume.driver.drive ++ path

instance (route : Option (Volume Fat) × Text) : Decidable (Askable route) :=
  match route with
  | (none, _) => inferInstanceAs (Decidable False)
  | (some _, _) => inferInstanceAs (Decidable (¬ _))

/-- What a path is routed to is the root of a volume, or a directory on its drive. -/
def IsEnterable (fs : FatFs) (cdirs : Cdirs) : Option (Volume Fat) × Text → Prop
  | (none, _) => False
  | (some volume, path) =>
    path = ['/'] ∨ fStat fs volume.driver.drive (cdirs volume.driver.drive) path = .ok true

instance (route : Option (Volume Fat) × Text) : Decidable (IsEnterable fs cdirs route) :=
  match route with
  | (none, _) => inferInstanceAs (Decidable False)
  | (some _, _) => inferInstanceAs (Decidable (_ ∨ _))

variable {s : System} {dir : Text}

end Accepts

/-! ## Whether it is correct -/

section Correct
variable (fs : FatFs) (volumes : List (Volume Fat))

/-- The current directory, in its three places. -/
structure At (s : System) (p : Path) : Prop where
  env : s.env.pwd = some p.render
  dirPwd : (pwd s).1 = p.render
  driver : ∃ v rest, Serves volumes p v rest ∧
    fs.DirectoryAt v.driver.drive rest (s.cdirs v.driver.drive)

/-- The text is refused, but nothing has to change. -/
structure Stays (env : Env) (cdirs : Cdirs) (dir : Text) (c p : Path) : Prop where
  askable : Askable (split volumes (sanitize env dir))
  refused : ¬ IsEnterable fs cdirs (split volumes (sanitize env dir))
  same : c = p
  driver : ∃ v rest, Serves volumes p v rest ∧
    fs.DirectoryAt v.driver.drive rest (cdirs v.driver.drive)

variable {fs volumes} {s : System} {dir : Text} {c p : Path}

end Correct

end PicoRuby.Shell
