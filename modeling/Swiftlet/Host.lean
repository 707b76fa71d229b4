import Swiftlet.Bytes

/-!
# Hosts

What the compiler needs from the system it runs on. Everything that reads or writes is a program in
a monad with these operations, so that it runs on a real system and on a model of one alike.
-/

namespace Swiftlet

/-- How an attempt to run a tool ended. -/
inductive ToolEnd where
  | exited (status : Nat)
  /-- The tool could not be started. -/
  | unstarted (message : Bytes)
  deriving DecidableEq, Repr

/-- A run of a tool: how it ended, what it wrote, and what it wrote about problems. -/
structure ToolRun where
  ended : ToolEnd
  output : Bytes
  diagnostics : Bytes
  deriving DecidableEq, Repr

class Host (m : Type → Type) where
  /-- Whether there is a file or a directory with this path. -/
  pathExists : Bytes → m Bool
  /-- The content of a file, or why it cannot be read. -/
  load : Bytes → m (Except Bytes Bytes)
  /-- Replaces the content of a file; the error says why it cannot be written. -/
  store : Bytes → Bytes → m (Except Bytes Unit)
  /-- An environment variable; nothing if it is not set. -/
  environment : Bytes → m Bytes
  workingDirectory : m Bytes
  /-- Runs a tool with arguments on an input. -/
  tool : Bytes → List Bytes → Bytes → m ToolRun
  /-- Microseconds since some fixed time. -/
  clock : m Nat
  /-- Writes program output. -/
  out : Bytes → m Unit
  /-- Writes reports. -/
  report : Bytes → m Unit

end Swiftlet
