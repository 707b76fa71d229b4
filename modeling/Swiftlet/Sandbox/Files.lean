import Swiftlet.Path

/-!
# Files in memory

A directory tree as a value: files by the elements of their absolute paths, and directories. A path
is followed element by element, so that what it passes through has to exist.
-/

namespace Swiftlet

namespace Sandbox

/-- Why a path cannot be used. -/
inductive PathError where
  | missing
  | notDirectory
  | isDirectory
  | denied
  /-- The file is no program. -/
  | notRunnable
  deriving DecidableEq, Repr

def PathError.text : PathError → Bytes
  | .missing => utf8 "no such file or directory"
  | .notDirectory => utf8 "not a directory"
  | .isDirectory => utf8 "is a directory"
  | .denied => utf8 "permission denied"
  | .notRunnable => utf8 "exec format error"

/-- The elements of an absolute path. -/
abbrev Place := List Bytes

structure File where
  place : Place
  content : Bytes
  runnable : Bool
  deriving DecidableEq, Repr

structure Files where
  files : List File
  directories : List Place
  /-- The working directory. -/
  working : Place
  deriving DecidableEq, Repr

namespace Files

/-- The file that swallows what is written to it. -/
def nullDevice : Place := [utf8 "dev", utf8 "null"]

def find? (t : Files) (p : Place) : Option File := t.files.find? (·.place = p)

/-- Whether a place is a directory: one that was made, or one above another place. -/
def isDirectory (t : Files) (p : Place) : Bool :=
  (t.working :: nullDevice.dropLast :: t.directories).any p.isPrefixOf ||
    t.files.any fun f => p.isPrefixOf f.place && p ≠ f.place

def isThere (t : Files) (p : Place) : Bool :=
  t.isDirectory p || (t.find? p).isSome || p = nullDevice

/-- Follows the pieces of a path from a place. -/
def follow (t : Files) (p : Place) : List Bytes → Except PathError Place
  | [] => .ok p
  | piece :: rest =>
    if !t.isDirectory p then .error .notDirectory
    else if piece = [] ∨ piece = Path.current then follow t p rest
    else if piece = Path.parent then follow t p.dropLast rest
    else if t.isThere (p ++ [piece]) then follow t (p ++ [piece]) rest
    else .error .missing

/-- Where a path starts. -/
def start (t : Files) (path : Bytes) : Place := if Path.isAbsolute path then [] else t.working

/-- The place that a path leads to. -/
def resolve (t : Files) (path : Bytes) : Except PathError Place :=
  if path = [] then .error .missing else t.follow (t.start path) (Path.pieces path)

/-- The content of the file at a path. -/
def content (t : Files) (path : Bytes) : Except PathError Bytes :=
  match t.resolve path with
  | .error e => .error e
  | .ok p =>
    if p = nullDevice then .ok []
    else match t.find? p with
      | some f => .ok f.content
      | none => .error .isDirectory

/-- Replaces the content of a file, which is added if it is not there. -/
def put (p : Place) (content : Bytes) : List File → List File
  | [] => [⟨p, content, false⟩]
  | f :: rest =>
    if f.place = p then { f with content := content } :: rest else f :: put p content rest

/-- Writes the file at a path. -/
def write (t : Files) (path content : Bytes) : Except PathError Files :=
  let pieces := Path.pieces path
  let name := pieces.getLast?.getD []
  if path = [] then .error .missing
  else match t.follow (t.start path) pieces.dropLast with
    | .error e => .error e
    | .ok dir =>
      let p := dir ++ [name]
      if !t.isDirectory dir then .error .notDirectory
      else if name = [] ∨ name = Path.current ∨ name = Path.parent ∨ t.isDirectory p then
        .error .isDirectory
      else if p = nullDevice then .ok t
      else .ok { t with files := put p content t.files }

end Files

end Sandbox

end Swiftlet
