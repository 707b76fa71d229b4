import Swiftlet.Bytes

/-!
# Paths

Paths with `/` between their elements, handled as text: nothing here looks at a file system.

* `Path.clean` removes what does not change where a path leads.
* `Path.dir` is all but the last element, `Path.ext` the extension of the last one.
* `Path.ancestors` goes from a directory upwards.
-/

namespace Swiftlet

namespace Path

def slash : UInt8 := 47

/-- The text between slashes; there is always at least one piece. -/
def pieces : Bytes → List Bytes
  | [] => [[]]
  | b :: bs =>
    match pieces bs with
    | [] => [[b]]
    | p :: ps => if b = slash then [] :: p :: ps else (b :: p) :: ps

def isAbsolute (path : Bytes) : Bool := path.head? = some slash

def current : Bytes := [46]

def parent : Bytes := [46, 46]

/-- One more piece after the elements so far, which are in reverse. -/
def step (rooted : Bool) (elements : List Bytes) (piece : Bytes) : List Bytes :=
  if piece = [] ∨ piece = current then elements
  else if piece = parent then
    match elements with
    | [] => if rooted then [] else [parent]
    | e :: rest => if e = parent then parent :: e :: rest else rest
  else piece :: elements

/-- The shortest path that leads to the same place: no empty elements, no `.`, and `..` only at the
start of a relative path. -/
def clean (path : Bytes) : Bytes :=
  let rooted := isAbsolute path
  let elements := ((pieces path).foldl (step rooted) []).reverse
  let text := Bytes.join [slash] elements
  if rooted then slash :: text else if elements = [] then current else text

/-- The path of `name` in a directory; either may be empty. -/
def join (dir name : Bytes) : Bytes :=
  if dir = [] ∧ name = [] then []
  else if dir = [] then clean name
  else if name = [] then clean dir
  else clean (dir ++ [slash] ++ name)

/-- All but the last element. -/
def dir (path : Bytes) : Bytes := clean (path.reverse.dropWhile (· ≠ slash)).reverse

/-- The extension of the last element, with its dot; nothing if it has none. -/
def ext (path : Bytes) : Bytes :=
  let last := (path.reverse.takeWhile (· ≠ slash)).reverse
  if last.contains 46 then 46 :: (last.reverse.takeWhile (· ≠ 46)).reverse else []

/-- `path` seen from a working directory. -/
def absolute (working path : Bytes) : Bytes :=
  if isAbsolute path then clean path else join working path

/-- A directory and the directories above it, at most `n` of them. -/
def climb : Nat → Bytes → List Bytes
  | 0, _ => []
  | n + 1, d => d :: if dir d = d then [] else climb n (dir d)

/-- A directory and all directories above it, nearest first. Every step up makes the path shorter
or ends it, so two more steps than it has bytes are enough. -/
def ancestors (d : Bytes) : List Bytes := climb (d.length + 2) d

end Path

end Swiftlet
