import Swiftlet.Color
import Swiftlet.Source

/-!
# Reports

What the compiler says about its work: status lines, how long a stage took, and diagnostics with
an excerpt of the source they point at. A reporter only decides how these look; where they are
written is not its business.
-/

namespace Swiftlet

/-- What went wrong, and where, if it points at a token. -/
structure Diagnostic where
  message : Bytes
  token : Option Token
  deriving DecidableEq, Repr

namespace Diagnostic

/-- A diagnostic that points nowhere. -/
def plain (message : Bytes) : Diagnostic := ⟨message, none⟩

/-- The diagnostic with what was being done in front. -/
def within (doing : Bytes) (d : Diagnostic) : Diagnostic :=
  ⟨doing ++ utf8 ": " ++ d.message, d.token⟩

end Diagnostic

/-- How reports look. -/
structure Reporter where
  color : Bool
  /-- Whether to say how long stages take. -/
  timing : Bool
  deriving DecidableEq, Repr

namespace Reporter

def statusText (r : Reporter) (text : Bytes) : Bytes :=
  Color.cyan.paint r.color (utf8 "> " ++ text ++ [Bytes.newline])

/-- That a stage took so many microseconds, if timings are wanted. -/
def timingText (r : Reporter) (stage : Bytes) (micros : Nat) : Bytes :=
  if r.timing then
    Color.faint.paint r.color
      (utf8 "time: " ++ Bytes.ofNat micros ++ utf8 "us for " ++ stage ++ [Bytes.newline])
  else []

/-- Where a token is, with an excerpt; nothing if it lies outside the source. -/
def hintText (r : Reporter) (s : Source) (t : Token) : Bytes :=
  match s.excerpt t.pos with
  | [] => []
  | excerpt =>
    Color.yellow.paint r.color (utf8 " --> " ++ s.path ++ utf8 ":" ++ t.pos.text) ++ excerpt ++
      [Bytes.newline]

/-- A diagnostic, with an excerpt if it points into `source`. -/
def errorText (r : Reporter) (source : Option Source) (d : Diagnostic) : Bytes :=
  Color.boldRed.paint r.color (utf8 "error: ") ++ d.message ++ [Bytes.newline] ++
    match source, d.token with
    | some s, some t => r.hintText s t
    | _, _ => []

end Reporter

end Swiftlet
