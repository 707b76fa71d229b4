import Swiftlet.Bytes.Blank
import Swiftlet.CSource
import Swiftlet.Config
import Swiftlet.Dump
import Swiftlet.Host
import Swiftlet.IR.Lowering
import Swiftlet.IR.Text
import Swiftlet.IR.Verify
import Swiftlet.Report
import Swiftlet.Run
import Swiftlet.Token.Lexing
import Swiftlet.Tree.Parsing
import Swiftlet.Typing

/-!
# The stages of the compiler

A `Compiler` runs the stages on a host and says how long each took. A program that fails to compile
is still a value, with as much in it as there is, so that its problem can be shown in its source.
-/

namespace Swiftlet

/-! ## Problems -/

/-- Why a stage fails. -/
inductive Problem where
  | extension (path : Bytes)
  | lexing (e : Lexing.Error)
  | parsing (e : Parsing.Error)
  | typing (e : Typing.Error)
  | running (f : Run.Failure)
  | lowering (e : IR.Error)
  | malformed (problems : List Bytes)
  /-- Something outside the program. -/
  | other (message : Bytes)

/-- The extensions of source files. -/
def extensions : List Bytes := [utf8 ".swift", utf8 ".lswift"]

namespace Problem

def message : Problem → Bytes
  | extension path =>
    path ++ utf8 ": source files must end in " ++ Bytes.join (utf8 " or ") extensions
  | lexing e => e.message
  | parsing e => e.message
  | typing e => e.message
  | running f => f.message
  | lowering e => e.message
  | malformed problems => IR.problemsMessage problems
  | other message => message

/-- The token that a problem points at. -/
def token? : Problem → Option Token
  | lexing e => some (Token.bare e.pos)
  | parsing e => some e.token
  | typing e => some e.token
  | running (.breach _ t) => some t
  | lowering e => some e.token
  | _ => none

def diagnostic (p : Problem) : Diagnostic := ⟨p.message, p.token?⟩

end Problem

/-- Why a stage cannot go on at all. -/
inductive Crash where
  | divisionByZero
  | cSource (f : CSource.Fault)
  deriving DecidableEq, Repr

def Crash.message : Crash → Bytes
  | divisionByZero => Run.Failure.divisionByZero.message
  | cSource f => f.message

/-! ## Programs -/

/-- A source file with what has been made of it. -/
structure Program where
  source : Source
  tokens : Option (List Token)
  tree : Option (List Node)

namespace Program

/-- A file of which nothing has been made. -/
def ofSource (s : Source) : Program := ⟨s, none, none⟩

def nodes (p : Program) : List Node := p.tree.getD []

end Program

/-! ## Stages -/

/-- A configuration and how to report on the work. -/
structure Compiler where
  config : Config
  reporter : Reporter

namespace Compiler

variable {m : Type → Type} [Monad m] [Host m]

/-- Does the work of a stage and says how long it took. -/
def timed {α : Type} (c : Compiler) (stage : String) (work : Unit → m α) : m α := do
  let start ← Host.clock
  let a ← work ()
  let stop ← Host.clock
  Host.report (c.reporter.timingText (utf8 stage) (stop - start))
  return a

/-- Does the work of a stage that may crash, and says how long it took if it does not. -/
def timedUnlessCrash {α : Type} (c : Compiler) (stage : String)
    (work : Unit → m (Except Crash α)) : m (Except Crash α) := do
  let start ← Host.clock
  match ← work () with
  | .error crash => return .error crash
  | .ok a =>
    let stop ← Host.clock
    Host.report (c.reporter.timingText (utf8 stage) (stop - start))
    return .ok a

/-- Reports a problem, with an excerpt if it points into `source`. -/
def fail (c : Compiler) (source : Option Source) (p : Problem) : m Unit :=
  Host.report (c.reporter.errorText source p.diagnostic)

def status (c : Compiler) (text : Bytes) : m Unit := Host.report (c.reporter.statusText text)

/-- Lexes, parses and analyzes a source. -/
def compile (c : Compiler) (source : Source) : m (Program × Option Problem) := do
  match ← c.timed "lexing" fun _ => pure (Lexing.lex source.text) with
  | .error e => return (⟨source, none, none⟩, some (.lexing e))
  | .ok tokens =>
    match ← c.timed "parsing" fun _ => pure (Parsing.parse tokens) with
    | .error e => return (⟨source, some tokens, none⟩, some (.parsing e))
    | .ok tree =>
      match ← c.timed "analysis" fun _ => pure (Typing.analyze c.config.entry tree) with
      | .error s => return (⟨source, some tokens, some s.tree⟩, some (.typing s.error))
      | .ok tree => return (⟨source, some tokens, some tree⟩, none)

/-- Reads and compiles a source file. -/
def load (c : Compiler) (path : Bytes) : m (Program × Option Problem) := do
  if extensions.contains (Path.ext path) then
    match ← Host.load path with
    | .error e =>
      return (.ofSource ⟨path, []⟩, some (.other (utf8 "reading source file: " ++ e)))
    | .ok text => c.compile ⟨path, text⟩
  else return (.ofSource ⟨path, []⟩, some (.extension path))

/-- Runs an analyzed program; the completed statements of its entry function, and the problem that
ended it. -/
def interpret (c : Compiler) (p : Program) : m (Except Crash (Run.Log × Option Problem)) :=
  c.timedUnlessCrash "interpretation" fun _ => do
    let r := Run.run c.config.entry p.nodes ⟨[], none⟩
    Host.out r.sink.output
    match r.result with
    | .ok _ => return .ok (r.log, none)
    | .error .divisionByZero => return .error .divisionByZero
    | .error f => return .ok (r.log, some (.running f))

/-- The IR of an analyzed program, if it is well-formed. -/
def emitIR (c : Compiler) (p : Program) : m (Except Problem IR.Module) :=
  c.timed "generating LLVM IR" fun _ => do
    match IR.lower c.config.entry p.source.path p.nodes with
    | .error e => return .error (.lowering e)
    | .ok ir => return if ir.problems = [] then .ok ir else .error (.malformed ir.problems)

/-- An analyzed program in C. -/
def emitC (c : Compiler) (p : Program) : m (Except Crash Bytes) :=
  c.timedUnlessCrash "generating C" fun _ => do
    match CSource.program c.config.entry p.nodes with
    | .error f => return .error (.cSource f)
    | .ok text => return .ok text

/-! ## Tools -/

/-- What is wrong if a tool did not end well: what was being done, how it ended and what the tool had
to say. -/
def toolProblem (doing : Bytes) (ended diagnostics : Bytes) : Problem :=
  .other (doing ++ utf8 ": " ++ ended ++
    if diagnostics = [] then [] else [Bytes.newline] ++ diagnostics)

/-- Turns IR into an executable. -/
def build (c : Compiler) (ir output : Bytes) : m (Option Problem) := do
  let run ← c.timed "clang to compile and link" fun _ =>
    Host.tool c.config.cc [utf8 "-x", utf8 "ir", utf8 "-o", output, utf8 "-"] ir
  let doing := utf8 "compiling LLVM IR with " ++ c.config.cc
  match run.ended with
  | .exited 0 => return none
  | .exited n =>
    return some (toolProblem doing (utf8 "exit status " ++ Bytes.ofNat n)
      (Blank.trim run.diagnostics))
  | .unstarted e => return some (toolProblem doing e (Blank.trim run.diagnostics))

/-- Executes IR in place. The exit status of a tool that says nothing has no meaning. -/
def runIR (c : Compiler) (ir : Bytes) : m (Option Problem) := do
  let run ← c.timed "lli to execute" fun _ => do
    let run ← Host.tool c.config.lli [utf8 "-"] ir
    Host.out run.output
    return run
  let doing := utf8 "running LLVM IR with " ++ c.config.lli
  let diagnostics := Blank.trim run.diagnostics
  match run.ended with
  | .exited 0 => return none
  | .exited n =>
    return if diagnostics = [] then none
      else some (toolProblem doing (utf8 "exit status " ++ Bytes.ofNat n) diagnostics)
  | .unstarted e => return some (toolProblem doing e diagnostics)

/-! ## Configuration -/

/-- The configuration of the project file nearest to a directory and the file's path, or the
defaults; or why the file cannot be used. -/
def findConfig (start : Bytes) : m (Except Bytes (Config × Option Bytes)) := do
  let cc ← Host.environment Config.ccVariable
  let lli ← Host.environment Config.lliVariable
  match ← Config.search Host.pathExists start with
  | none => return .ok (Config.default.withTools cc lli, none)
  | some path =>
    match ← Host.load path with
    | .error e => return .error e
    | .ok text =>
      match Config.ofText text with
      | .error f => return .error f.message
      | .ok c => return .ok (c.withTools cc lli, some path)

end Compiler

end Swiftlet
