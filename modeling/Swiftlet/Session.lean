import Swiftlet.Pipeline

/-!
# Interactive sessions

A session collects lines until a blank one and then runs what has been collected as one program.

A program may crash. Then nothing more is done about the line that completed it, and the session stays
what it was at that moment. So what has been collected is taken out of the session before it is run.
-/

namespace Swiftlet

/-- The lines collected so far, latest first. -/
structure Session where
  pending : List Bytes
  deriving DecidableEq, Repr

namespace Session

def empty : Session := ⟨[]⟩

/-- What a line of input led to. -/
inductive Step where
  /-- Nothing was run. -/
  | waiting
  /-- A program was run. -/
  | ran
  /-- A program was run and did not come to an end. -/
  | crashed (c : Crash)
  deriving DecidableEq, Repr

/-- Whether a line completed a program that was run, or the crash of that program. -/
def Step.ofEnd : Except Crash Bool → Step
  | .ok false => .waiting
  | .ok true => .ran
  | .error c => .crashed c

/-- Work on a session. A crash skips the rest of the work and keeps the session as it is then. -/
abbrev Interaction (m : Type → Type) := ExceptT Crash (StateT Session m)

/-- The name that reports give to what is typed. -/
def sourceName : Bytes := utf8 "<repl>"

variable {m : Type → Type} [Monad m] [Host m]

/-- Runs a program and reports its problem, if it has one; `dump` says whether to write the values
of its statements. -/
def runBlock (c : Compiler) (dump : Bool) (text : Bytes) : Interaction m Unit := do
  match ← (c.compile ⟨sourceName, text⟩ : m _) with
  | (p, some problem) => (c.fail p.source problem : m _)
  | (p, none) =>
    match ← (c.interpret p : m _) with
    | .error crash => throw crash
    | .ok (_, some problem) => (c.fail p.source problem : m _)
    | .ok (log, none) => if dump then (Host.out (Dump.results log) : m _)

/-- The program that the collected lines make up. -/
def text (s : Session) : Bytes := Bytes.join [Bytes.newline] s.pending.reverse

/-- Takes one line. A blank one runs what has been collected, if anything has; the result says
whether it did. -/
def enter (c : Compiler) (dump : Bool) (line : Bytes) : Interaction m Bool := do
  if Blank.allBlank line then
    let s ← get
    if s.pending = [] then return false
    else
      set empty
      runBlock c dump s.text
      return true
  else
    modify fun s => ⟨line :: s.pending⟩
    return false

/-- Gives one line to a session; what it led to, and the session after it. -/
def feed (c : Compiler) (dump : Bool) (s : Session) (line : Bytes) : m (Step × Session) := do
  let (ended, s) ← (enter c dump line).run.run s
  return (.ofEnd ended, s)

end Session

end Swiftlet
