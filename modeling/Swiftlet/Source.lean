import Swiftlet.Token

/-!
# Source files and excerpts of them

`Source.excerpt` shows the line of a position with a caret under its column. The line before it
is shown if there is one; the line after it only if it stands between two lines.
-/

namespace Swiftlet

/-- The name and the content of a source file. -/
structure Source where
  path : Bytes
  text : Bytes
  deriving DecidableEq, Repr

namespace Source

def lines (s : Source) : List Bytes := Bytes.lines (Bytes.unixNewlines s.text)

/-- A line with its number, on a line of its own. -/
def numberedLine (n : Nat) (line : Bytes) : Bytes :=
  [Bytes.newline] ++ Bytes.padLeft 4 32 (Bytes.ofNat n) ++ utf8 " | " ++ line

/-- A caret under column `n + 1` of a line, or behind its end. Tabs are kept, so that the caret
stands where the column does. -/
def caretLine (n : Nat) (line : Bytes) : Bytes :=
  utf8 "\n     | " ++ (line.take n).map (fun b => if b = 9 then 9 else 32) ++ utf8 "^"

/-- The line with number `n`, if it exists. -/
def neighbour (lines : List Bytes) (n : Nat) : Bytes :=
  match n with
  | 0 => []
  | i + 1 =>
    match lines[i]? with
    | some line => numberedLine n line
    | none => []

/-- The lines around a position; nothing if the position is outside the file. -/
def excerpt (s : Source) (p : Pos) : Bytes :=
  let lines := s.lines
  if p.line < 1 ∨ lines.length < p.line ∨ p.column < 1 then []
  else
    let n := p.line.toNat
    let line := lines.getD (n - 1) []
    neighbour lines (n - 1) ++ numberedLine n line ++ caretLine (p.column.toNat - 1) line ++
      if n = 1 then [] else neighbour lines (n + 1)

end Source

end Swiftlet
