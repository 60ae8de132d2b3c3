import PicoRuby.Vfs.Volumes

/-!
# Kernel#require

The methods of require.rb and `Sandbox#load_file`. A required file runs in a task of its own, which
the call waits for, so calls nest: the innermost one that waits is the one whose file runs. What a
file does is a list of statements that may raise.
-/

namespace PicoRuby.Require

set_option autoImplicit false

abbrev Text := List Char

inductive ErrorClass where
  | loadError | runtimeError | argumentError | standardError
deriving DecidableEq, Repr

structure Failure where
  cls : ErrorClass
  message : String
deriving DecidableEq, Repr

/-- `rescues` are the classes of the clauses that a `require` stands under. -/
inductive Statement where
  | require (name : Text) (rescues : List ErrorClass)
  | raise (e : Failure)
deriving DecidableEq, Repr

/-- Where a file lies that `respond_to?(:physical_address)`; `magic` are its first eight bytes. -/
structure Mapped where
  physicalAddress : Int
  size : Int
  sectorSize : Int
  magic : Text
deriving DecidableEq, Repr

/-- A file: what `File#read` returns, whether the compiler takes it, and what it does. -/
structure RubyFile where
  text : Option Text
  mapped : Option Mapped
  compiles : Bool
  body : List Statement
deriving DecidableEq, Repr

/-- What the methods look up. `expandPath` is `File.expand_path`, and `fileAt` the file that
`File.open` opens, where `File.file?` holds. -/
structure World (F : Type) where
  prebuiltGems : List Text
  loadPath : Option (List Text)
  expandPath : Text → Text → Text
  fileAt : Text → Option F
  file : F → RubyFile

/-- `File.expand_path` of the VFS. -/
def expandPath (env : Vfs.Env) (path defaultPath : Text) : Text :=
  if path.head? = some '/' then Vfs.sanitize env path
  else Vfs.sanitize env (defaultPath ++ '/' :: path)

/-! ## Sandbox#load_file -/

def rite : Text := "RITE0300".toList

/-- The start of `mrb_get_args(mrb, "z")`. -/
def cString (s : Text) : Except Failure Unit :=
  if Char.ofNat 0 ∈ s then .error ⟨.argumentError, "string contains null byte"⟩ else .ok ()

/-- `Sandbox#compile_from_memory`. -/
def compileFromMemory (file : RubyFile) (physicalAddress size : Int) : Except Failure Unit :=
  if size ≤ 0 then .error ⟨.argumentError, s!"invalid size: {size}"⟩
  else if physicalAddress ≤ 0 then
    .error ⟨.argumentError, s!"invalid address: {physicalAddress}"⟩
  else if file.compiles then .ok ()
  else .error ⟨.runtimeError, "failed to compile script"⟩

/-- `Sandbox#compile` with the `raise` behind it. -/
def compile (file : RubyFile) (path rb : Text) : Except Failure Unit := do
  cString rb
  if file.compiles then pure ()
  else .error ⟨.runtimeError, s!"{String.ofList path}: compile failed"⟩

/-- `Sandbox#load_file` up to `wait`: what the sandbox is then to do. -/
def sandboxLoadFile (file : RubyFile) (path : Text) : Except Failure (List Statement) :=
  match file.mapped.filter fun m => m.size < m.sectorSize ∨ "/bin/".toList <+: path with
  | some m =>
    if m.magic = rite then .ok file.body
    else do
      compileFromMemory file m.physicalAddress m.size
      pure file.body
  | none =>
    match file.text with
    | none => .ok []
    | some rb =>
      if rite <+: rb then .ok file.body
      else do
        compile file path rb
        pure file.body

/-! ## require.rb -/

/-- What a call of `require` does: it returns, it raises, or it waits for a sandbox, to record the
feature afterwards. A file that cannot be run is named. -/
inductive Action (F : Type) where
  | returned (result : Bool) (features : List Text)
  | raised (e : Failure) (file : Option F)
  | waiting (feature : Text) (file : F) (body : List Statement)

section Kernel
variable {F : Type} (w : World F) (features : List Text)

/-- `Kernel#required?`. -/
def required? (name : Text) : Bool := features.contains name

/-- `Kernel#extern`. -/
def extern' (name : Text) : Except Failure (Option Bool) := do
  cString name
  pure (if w.prebuiltGems.contains name then some false else none)

/-- `Kernel#load_paths`. -/
def loadPaths (name : Text) : List Text :=
  if name.head? = some '/' then [[]] else w.loadPath.getD []

def loadError (name : Text) : Failure :=
  ⟨.loadError, s!"cannot load such file -- {String.ofList name}"⟩

/-- The file that `load_file` takes. -/
def findFile (nameWithExt : Text) : Option (Text × F) :=
  (loadPaths w nameWithExt).findSome? fun loadPath =>
    let path := w.expandPath nameWithExt loadPath
    (w.fileAt path).map fun file => (path, file)

/-- `Kernel#load_file` as far as the sandbox's `wait`. -/
def loadFile (nameWithExt : Text) : Action F :=
  match findFile w nameWithExt with
  | none => .raised (loadError nameWithExt) none
  | some (path, file) =>
    match sandboxLoadFile (w.file file) path with
    | .error e => .raised e (some file)
    | .ok body => .waiting nameWithExt file body

/-- The path that `require_file` takes. -/
def findPath (name : Text) : Option Text :=
  (loadPaths w name).findSome? fun loadPath =>
    ["mrb".toList, "rb".toList].findSome? fun ext =>
      let path := w.expandPath (name ++ '.' :: ext) loadPath
      if (w.fileAt path).isSome then some path else none

/-- `Kernel#require_file`. -/
def requireFile (name : Text) : Action F :=
  match findPath w name with
  | none => .raised (loadError name) none
  | some path => if required? features path then .returned false features else loadFile w path

/-- `Kernel#require`. -/
def require (name : Text) : Action F :=
  if required? features name then .returned false features
  else
    match extern' w name with
    | .error e => .raised e none
    | .ok (some result) => .returned result (features ++ [name])
    | .ok none => requireFile w features name

end Kernel

/-! ## Tasks that wait for each other -/

/-- A call of `require` that waits for its sandbox: what the file still has to do, and the features
when the call was made. -/
structure Waiting (F : Type) where
  name : Text
  feature : Text
  file : F
  rest : List Statement
  before : List Text

/-- How a call of `require` went: without running a file, or with one that could not be run, ended
normally, or ended with an exception, which is in `Sandbox#error`. -/
inductive Ending (F : Type) where
  | notRun
  | notCompiled (file : F)
  | completed (file : F)
  | failed (file : F) (e : Failure)

def Waiting.ending {F : Type} (t : Waiting F) : Option Failure → Ending F
  | none => .completed t.file
  | some e => .failed t.file e

def Ending.ofRaised {F : Type} : Option F → Ending F
  | none => .notRun
  | some file => .notCompiled file

/-- A call of `require` that is over. -/
structure Call (F : Type) where
  name : Text
  feature : Option Text
  ending : Ending F
  before : List Text
  after : List Text
  outcome : Except Failure Bool

/-- `stack` are the calls that wait, the innermost first, and `main` is what the program still has
to do. `executed` are the files run so far and `calls` the calls that are over. -/
structure State (F : Type) where
  features : List Text
  stack : List (Waiting F)
  main : List Statement
  executed : List F
  calls : List (Call F)

section Machine
variable {F : Type}

namespace State

/-- What is to be done next, and what follows it. -/
def current (s : State F) : List Statement :=
  match s.stack with
  | [] => s.main
  | t :: _ => t.rest

def advance (s : State F) (rest : List Statement) : State F :=
  match s.stack with
  | [] => { s with main := rest }
  | t :: below => { s with stack := { t with rest := rest } :: below }

/-- The task that runs has ended. `wait` returns and its sandbox is not asked for an error: the
feature is recorded, and the call that waited returns true. -/
def finish (s : State F) (error : Option Failure) : State F :=
  match s.stack with
  | [] => { s with main := [] }
  | t :: below =>
    let features := if required? s.features t.feature then s.features else s.features ++ [t.feature]
    { s with
      features := features
      stack := below
      calls := s.calls ++ [⟨t.name, some t.feature, t.ending error, t.before, features, .ok true⟩] }

/-- The next statement. -/
def step (w : World F) (s : State F) : State F :=
  match s.current with
  | [] => s.finish none
  | .raise e :: _ => s.finish (some e)
  | .require name rescues :: rest =>
    match require w s.features name with
    | .returned result features =>
      { s.advance rest with
        features
        calls := s.calls ++ [⟨name, none, .notRun, s.features, features, .ok result⟩] }
    | .raised e file =>
      let s' : State F := { s with
        calls := s.calls ++ [⟨name, none, .ofRaised file, s.features, s.features, .error e⟩] }
      if e.cls ∈ rescues then s'.advance rest else s'.finish (some e)
    | .waiting feature file body =>
      { s.advance rest with
        stack := ⟨name, feature, file, body, s.features⟩ :: (s.advance rest).stack
        executed := s.executed ++ [file] }

end State

def start (features : List Text) (main : List Statement) : State F := ⟨features, [], main, [], []⟩

/-- The program after a number of statements. -/
def run (w : World F) (features : List Text) (main : List Statement) : Nat → State F
  | 0 => start features main
  | n + 1 => (run w features main n).step w

end Machine

end PicoRuby.Require
