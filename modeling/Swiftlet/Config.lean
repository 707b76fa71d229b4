import Swiftlet.Bytes.Quoted
import Swiftlet.Path
import Swiftlet.Toml.Document
import Swiftlet.Toml.Reading
import Swiftlet.Tree

/-!
# Configuration

What a project file may set. The file is searched for from a directory upwards; what it does not
set, or sets to nothing, keeps its default. Two environment variables override the tools.
-/

namespace Swiftlet

structure Config where
  /-- The name of the entry function. -/
  entry : Bytes
  /-- The compiler that turns IR into an executable. -/
  cc : Bytes
  /-- The tool that executes IR in place. -/
  lli : Bytes
  /-- The executable that is written. -/
  output : Bytes
  /-- Whether to say how long stages take. -/
  timing : Bool
  deriving DecidableEq, Repr

namespace Config

def default : Config := ⟨defaultEntry, utf8 "clang", utf8 "lli", utf8 "a.out", false⟩

/-- The name of a project file. -/
def fileName : Bytes := utf8 "lswift.toml"

/-- The environment variable that overrides `cc`. -/
def ccVariable : Bytes := utf8 "LSWIFT_CC"

/-- The environment variable that overrides `lli`. -/
def lliVariable : Bytes := utf8 "LSWIFT_LLI"

/-! ## Finding the file -/

/-- Where a project file may be, nearest first. -/
def candidates (start : Bytes) : List Bytes := (Path.ancestors start).map (Path.join · fileName)

/-- The nearest project file, given how to find out whether a path exists. -/
def search {m : Type → Type} [Monad m] (existing : Bytes → m Bool) (start : Bytes) :
    m (Option Bytes) :=
  (candidates start).findM? existing

/-! ## Reading the file -/

/-- What is wrong with a project file. -/
inductive Fault where
  | syntaxError (line : Nat)
  | clash (c : Toml.Document.Clash)
  | wrongType (key : Bytes) (line : Nat) (found wanted : Bytes)
  deriving DecidableEq, Repr

/-- The start of a message: the line and the key that was being worked on. -/
def faultPlace (line : Nat) (last : Bytes) : Bytes :=
  utf8 "toml: line " ++ Bytes.ofNat line ++
    (if last = [] then [] else utf8 " (last key " ++ Quoted.quote last ++ utf8 ")") ++ utf8 ": "

def Fault.message : Fault → Bytes
  | .syntaxError line => faultPlace line [] ++ utf8 "invalid syntax"
  | .clash c =>
    faultPlace c.line (Toml.keyText c.last) ++ utf8 "Key '" ++ Toml.keyText c.key ++
      utf8 "' has already been defined."
  | .wrongType key line found wanted =>
    faultPlace line key ++ utf8 "incompatible types: TOML value has type " ++ found ++
      utf8 "; destination has type " ++ wanted

/-- What a key sets. Keys are compared without regard to case. -/
inductive Setting where
  | text (set : Config → Bytes → Config)
  | flag (set : Config → Bool → Config)

def setting? (key : Bytes) : Option Setting :=
  let key := Bytes.toLower key
  if key = utf8 "entry" then some (.text fun c v => { c with entry := v })
  else if key = utf8 "cc" then some (.text fun c v => { c with cc := v })
  else if key = utf8 "lli" then some (.text fun c v => { c with lli := v })
  else if key = utf8 "output" then some (.text fun c v => { c with output := v })
  else if key = utf8 "timing" then some (.flag fun c v => { c with timing := v })
  else none

/-- Sets what one key of the file sets. -/
def apply (line : Nat) (c : Config) (key : Bytes) (v : Toml.Tree) : Except Fault Config :=
  match setting? key, v with
  | none, _ => .ok c
  | some (.text set), .scalar (.string s) => .ok (set c s)
  | some (.text _), v => .error (.wrongType key line v.typeName (utf8 "string"))
  | some (.flag set), .scalar (.bool b) => .ok (set c b)
  | some (.flag _), v => .error (.wrongType key line v.typeName (utf8 "boolean"))

def applyAll (d : Toml.Document) (c : Config) : Toml.Table → Except Fault Config
  | [] => .ok c
  | (key, v) :: rest =>
    match apply (d.line [key]) c key v with
    | .error e => .error e
    | .ok c => applyAll d c rest

/-- `v`, or `d` if it is empty. -/
def orDefault (v d : Bytes) : Bytes := if v = [] then d else v

/-- What is set to nothing gets its default. -/
def withDefaults (c : Config) : Config :=
  { c with
    entry := orDefault c.entry default.entry
    cc := orDefault c.cc default.cc
    lli := orDefault c.lli default.lli
    output := orDefault c.output default.output }

/-- The configuration that the text of a project file gives. -/
def ofText (text : Bytes) : Except Fault Config :=
  match Toml.read text with
  | .error line => .error (.syntaxError line)
  | .ok statements =>
    match Toml.Document.ofStatements statements with
    | .error c => .error (.clash c)
    | .ok d =>
      match applyAll d default d.root with
      | .error e => .error e
      | .ok c => .ok c.withDefaults

/-- The configuration with the tools that the environment names; nothing means that it names none. -/
def withTools (c : Config) (cc lli : Bytes) : Config :=
  { c with cc := orDefault cc c.cc, lli := orDefault lli c.lli }

end Config

end Swiftlet
