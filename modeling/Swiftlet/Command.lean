import Swiftlet.Command.Flags
import Swiftlet.Session

/-!
# The command line

A command line is flags, a command, flags of the command and a file. Each command compiles one
source file, with the configuration nearest to it, and then runs it, prints its IR or C, or hands
it to a tool. The result is the exit status.
-/

namespace Swiftlet

namespace Command

/-- What can be done with a source file. -/
inductive Verb where
  | run
  | build
  | jit
  | ir
  | convert
  | repl
  deriving DecidableEq, Repr

namespace Verb

def name : Verb → Bytes
  | run => utf8 "run"
  | build => utf8 "build"
  | jit => utf8 "jit"
  | ir => utf8 "ir"
  | convert => utf8 "convert"
  | repl => utf8 "repl"

def all : List Verb := [run, build, jit, ir, convert, repl]

def ofName? (bs : Bytes) : Option Verb := all.find? (·.name = bs)

/-- Flags that every command for a file has. -/
def dumpFlags : List Flags.Flag := [Flags.switch "dump-tokens", Flags.switch "dump-ast"]

def helpFlag : Flags.Flag := ⟨[utf8 "help", utf8 "h"], false⟩

def flags (v : Verb) : List Flags.Flag :=
  helpFlag :: match v with
    | run => Flags.switch "dump-results" :: dumpFlags
    | build => Flags.option "output" ["o"] :: Flags.switch "dump-ir" :: dumpFlags
    | jit => Flags.switch "dump-ir" :: dumpFlags
    | ir => Flags.switch "verify" :: Flags.switch "color" :: dumpFlags
    | convert => Flags.option "output" ["o"] :: dumpFlags
    | repl => [Flags.switch "dump-results"]

end Verb

/-- The flags before the command. -/
def globalFlags : List Flags.Flag :=
  [Verb.helpFlag, Flags.option "entry" [], Flags.switch "timing"]

/-- What a command line asks for. -/
inductive Request where
  | perform (verb : Verb) (globals locals : Flags.Parsed)
  | help
  | unknownTopic (name : Bytes)
  | misuse (e : Flags.Error)

/-- The request for help on a topic. -/
def helpOn (topic : List Bytes) : Request :=
  match topic with
  | [] => .help
  | name :: _ =>
    if name = [] ∨ (Verb.ofName? name).isSome ∨ name = utf8 "help" ∨ name = utf8 "h" then .help
    else .unknownTopic name

/-- The request of a command line. -/
def request (args : List Bytes) : Request :=
  match Flags.parse globalFlags args with
  | .error e => .misuse e
  | .ok globals =>
    if globals.isOn "help" then .help
    else match globals.args with
      | [] => .help
      | name :: rest =>
        if name = utf8 "help" ∨ name = utf8 "h" then
          match Flags.parse [Verb.helpFlag] rest with
          | .error e => .misuse e
          | .ok p => if p.isOn "help" then .help else helpOn p.args
        else match Verb.ofName? name with
          | none => helpOn [name]
          | some verb =>
            match Flags.parse verb.flags rest with
            | .error e => .misuse e
            | .ok locals => if locals.isOn "help" then .help else .perform verb globals locals

/-! ## Texts -/

def tooManyArguments : Bytes := utf8 "

Too many arguments provided.

If you've provided flags make sure they go before the arguments.
    Wrong: $ lswiftc build main.swift -o foo
    Right: $ lswiftc build -o foo main.swift
"

def usage : Bytes := utf8 "usage: lswiftc [--entry name] [--timing] command [flags] file

commands:
   run      Interprets the provided source file.
   build    Builds the provided source file to an executable.
   jit      Compiles the provided source file to LLVM IR and executes it with lli.
   ir       Prints the LLVM IR for the provided source file.
   convert  Converts the provided source file to C.
   repl     Starts an interactive session. An empty line runs the program entered so far.
"

/-! ## Performing -/

variable {m : Type → Type} [Monad m] [Host m]

/-- Ends with a message and a failing status. -/
def giveUp (message : Bytes) : m Nat := do
  Host.report (message ++ [Bytes.newline])
  return 1

/-- The one argument of a command for a file. -/
def sourceArgument : List Bytes → Except Bytes Bytes
  | [] => .error (utf8 "Source file not provided.")
  | [path] => if path = [] then .error (utf8 "Source file not provided.") else .ok path
  | _ => .error tooManyArguments

/-- The compiler for a directory, with the flags before the command on top of its configuration. -/
def compilerFor (color : Bool) (globals : Flags.Parsed) (dir : Bytes) :
    m (Except Bytes Compiler) := do
  let working ← Host.workingDirectory
  match ← Compiler.findConfig (Path.absolute working dir) with
  | .error e => return .error (utf8 "loading " ++ Config.fileName ++ utf8 ": " ++ e)
  | .ok (config, _) =>
    let timing := config.timing || globals.isOn "timing"
    let config := { config with
      entry := Config.orDefault (globals.value "entry") config.entry, timing := timing }
    return .ok ⟨config, ⟨color, timing⟩⟩

/-- Compiles the source file that a command names, and dumps what its flags ask for. The error is
the exit status. -/
def compileFile (color : Bool) (globals locals : Flags.Parsed) :
    m (Except Nat (Compiler × Program)) := do
  match sourceArgument locals.args with
  | .error e => return .error (← giveUp e)
  | .ok path =>
    match ← compilerFor color globals (Path.dir path) with
    | .error e => return .error (← giveUp e)
    | .ok c =>
      match ← c.load path with
      | (p, some problem) =>
        c.fail p.source problem
        return .error 1
      | (p, none) =>
        if locals.isOn "dump-tokens" then Host.report (Dump.tokens p.tokens)
        if locals.isOn "dump-ast" then Host.report (Dump.tree p.tree)
        return .ok (c, p)

/-- Reports a problem and ends with a failing status. -/
def failWith (c : Compiler) (source : Option Source) (p : Problem) : m (Except Crash Nat) := do
  c.fail source p
  return .ok 1

def performRun (locals : Flags.Parsed) (c : Compiler) (p : Program) : m (Except Crash Nat) := do
  match ← c.interpret p with
  | .error crash => return .error crash
  | .ok (_, some problem) => failWith c p.source problem
  | .ok (log, none) =>
    if locals.isOn "dump-results" then Host.report (Dump.results log)
    return .ok 0

def performBuild (locals : Flags.Parsed) (c : Compiler) (p : Program) : m (Except Crash Nat) := do
  let output := Config.orDefault (locals.value "output") c.config.output
  c.status (utf8 "Compiling " ++ p.source.path)
  match ← c.emitIR p with
  | .error problem => failWith c p.source problem
  | .ok ir =>
    if locals.isOn "dump-ir" then Host.report ir.text
    match ← c.build ir.text output with
    | some problem => failWith c none problem
    | none =>
      c.status (utf8 "Wrote " ++ output)
      return .ok 0

def performJit (locals : Flags.Parsed) (c : Compiler) (p : Program) : m (Except Crash Nat) := do
  match ← c.emitIR p with
  | .error problem => failWith c p.source problem
  | .ok ir =>
    if locals.isOn "dump-ir" then Host.report ir.text
    match ← c.runIR ir.text with
    | some problem => failWith c none problem
    | none => return .ok 0

def performIR (locals : Flags.Parsed) (c : Compiler) (p : Program) : m (Except Crash Nat) := do
  match ← c.emitIR p with
  | .error problem => failWith c p.source problem
  | .ok ir =>
    if locals.isOn "verify" then c.status (utf8 "IR verified") else Host.out ir.text
    return .ok 0

def performConvert (locals : Flags.Parsed) (c : Compiler) (p : Program) :
    m (Except Crash Nat) := do
  match ← c.emitC p with
  | .error crash => return .error crash
  | .ok text =>
    match locals.value "output" with
    | [] =>
      Host.out text
      return .ok 0
    | path =>
      match ← Host.store path text with
      | .error e => return .ok (← giveUp e)
      | .ok () => return .ok 0

/-- Does what a command line asks for. `interact` runs an interactive session, with or without the
values of statements. -/
def perform (color : Bool) (interact : Compiler → Bool → m Nat) (args : List Bytes) :
    m (Except Crash Nat) := do
  match request args with
  | .help =>
    Host.out usage
    return .ok 0
  | .unknownTopic name =>
    Host.report (utf8 "No help topic for '" ++ name ++ utf8 "'\n")
    return .ok 3
  | .misuse e => return .ok (← giveUp e.message)
  | .perform .repl globals locals =>
    match ← compilerFor color globals Path.current with
    | .error e => return .ok (← giveUp e)
    | .ok c => return .ok (← interact c (locals.isOn "dump-results"))
  | .perform verb globals locals =>
    match ← compileFile color globals locals with
    | .error status => return .ok status
    | .ok (c, p) =>
      match verb with
      | .build => performBuild locals c p
      | .jit => performJit locals c p
      | .ir => performIR locals c p
      | .convert => performConvert locals c p
      | _ => performRun locals c p

end Command

end Swiftlet
