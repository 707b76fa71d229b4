import Swiftlet.Host
import Swiftlet.Sandbox.Script

/-!
# A host in memory

A host whose files, environment and tools are values. Tools are scripts among its files. Its clock
stands still.
-/

namespace Swiftlet

/-- The files, the environment and what has been written. -/
structure Sandbox where
  files : Sandbox.Files
  environment : List (Bytes × Bytes)
  out : Bytes
  reports : Bytes

namespace Sandbox

/-- The working directory of every sandbox. -/
def home : Place := [utf8 "sandbox"]

/-- The path of the working directory. -/
def homePath : Bytes := Path.slash :: Bytes.join [Path.slash] home

/-- A sandbox with nothing in it but an environment. -/
def empty (environment : List (Bytes × Bytes)) : Sandbox := ⟨⟨[], [], home⟩, environment, [], []⟩

/-- The place of a path in the working directory. -/
def placeOf (path : Bytes) : Place := home ++ (Path.pieces (Path.clean path)).filter (· ≠ Path.current)

def addDirectory (s : Sandbox) (path : Bytes) : Sandbox :=
  { s with files := { s.files with directories := placeOf path :: s.files.directories } }

def addFile (s : Sandbox) (path content : Bytes) (runnable : Bool) : Sandbox :=
  { s with files := { s.files with
      files := s.files.files ++ [⟨placeOf path, content, runnable⟩] } }

/-- The files that are new or have changed since `before`, by their paths in the working directory. -/
def changes (before after : Files) : List (Bytes × Bytes) :=
  (after.files.filter fun f => (before.find? f.place).map File.content ≠ some f.content).map fun f =>
    (Bytes.join [Path.slash] (f.place.drop home.length), f.content)

/-- Starts the program at a path. -/
def launch (files : Files) (path : Bytes) (args : List Bytes) (input : Bytes) :
    Except PathError Script.State :=
  match files.resolve path with
  | .error e => .error e
  | .ok p =>
    match files.find? p with
    | none => .error .denied
    | some f =>
      if !f.runnable then .error .denied
      else if !(utf8 "#!").isPrefixOf f.content then .error .notRunnable
      else .ok (Script.run path args f.content input files)

/-- The commands that need no path. -/
def commands : List Bytes := ["cat", "echo", "printf", "true", "false"].map utf8

/-- Runs a tool: a command by its name, or the program at a path. -/
def runTool (s : Sandbox) (name : Bytes) (args : List Bytes) (input : Bytes) : ToolRun × Sandbox :=
  let unstarted := fun message => (⟨.unstarted message, [], []⟩, s)
  let ended := fun (σ : Script.State) =>
    (⟨.exited σ.status, σ.output, σ.diagnostics⟩, { s with files := σ.files })
  if name = [] then unstarted (utf8 "exec: no command")
  else if commands.contains name then
    ended (Script.runSimple name 1 ⟨name :: args, .output, .diagnostics⟩ ⟨s.files, input, [], [], 0⟩).1
  else if !name.contains Path.slash then
    unstarted (utf8 "exec: \"" ++ name ++ utf8 "\": executable file not found in $PATH")
  else match launch s.files name args input with
    | .error e => unstarted (utf8 "fork/exec " ++ name ++ utf8 ": " ++ e.text)
    | .ok σ => ended σ

/-- Why a file cannot be read. -/
def loadMessage (path : Bytes) : PathError → Bytes
  | .isDirectory => utf8 "read " ++ path ++ utf8 ": " ++ PathError.isDirectory.text
  | e => utf8 "open " ++ path ++ utf8 ": " ++ e.text

instance : Host (StateM Sandbox) where
  pathExists path := do return ((← get).files.resolve path).isOk
  load path := do
    match (← get).files.content path with
    | .error e => return .error (loadMessage path e)
    | .ok bs => return .ok bs
  store path content := do
    let s ← get
    match s.files.write path content with
    | .error e => return .error (utf8 "open " ++ path ++ utf8 ": " ++ e.text)
    | .ok files =>
      set { s with files := files }
      return .ok ()
  environment name := do return ((← get).environment.lookup name).getD []
  workingDirectory := do return homePath
  tool name args input := do
    let (run, s) := (← get).runTool name args input
    set s
    return run
  clock := return 0
  out bs := modify fun s => { s with out := s.out ++ bs }
  report bs := modify fun s => { s with reports := s.reports ++ bs }

end Sandbox

end Swiftlet
