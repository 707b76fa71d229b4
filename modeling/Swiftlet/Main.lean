import Swiftlet.Command

/-!
# The program

The command line on a real system. Other programs cannot be started from here, so the commands
that need a tool say so.
-/

namespace Swiftlet

/-- Bytes as text for the system, which takes only well-formed text. -/
def systemText (bs : Bytes) : String := (String.fromUTF8? ⟨bs.toArray⟩).getD ""

/-- Why the system refuses to do something with a file. -/
def fileMessage (path : Bytes) : IO.Error → Bytes
  | .noFileOrDirectory .. => utf8 "open " ++ path ++ utf8 ": no such file or directory"
  | .permissionDenied .. => utf8 "open " ++ path ++ utf8 ": permission denied"
  | .inappropriateType .. => utf8 "read " ++ path ++ utf8 ": is a directory"
  | e => utf8 "open " ++ path ++ utf8 ": " ++ utf8 (toString e)

/-- Writes bytes at once. -/
def writeBytes (stream : IO.FS.Stream) (bs : Bytes) : IO Unit := do
  stream.write ⟨bs.toArray⟩
  stream.flush

instance : Host IO where
  pathExists path := do
    try
      let _ ← IO.FS.Handle.mk (systemText path) .read
      return true
    catch _ => return false
  load path := do
    try return .ok (← IO.FS.readBinFile (systemText path)).data.toList
    catch e => return .error (fileMessage path e)
  store path content := do
    try
      IO.FS.writeBinFile (systemText path) ⟨content.toArray⟩
      return .ok ()
    catch e => return .error (fileMessage path e)
  environment name := do return utf8 ((← IO.getEnv (systemText name)).getD "")
  workingDirectory := do return utf8 (toString (← IO.currentDir))
  tool name _ _ :=
    return ⟨.unstarted (utf8 "exec: \"" ++ name ++ utf8 "\": programs cannot be started"), [], []⟩
  clock := do return (← IO.monoNanosNow) / 1000
  out bs := do writeBytes (← IO.getStdout) bs
  report bs := do writeBytes (← IO.getStderr) bs

/-- Says that the program itself gave up. -/
def reportCrash (crash : Crash) : IO Nat := do
  writeBytes (← IO.getStderr) (utf8 "panic: " ++ crash.message ++ [Bytes.newline])
  return 2

/-- Feeds the lines of the input to a session until it ends, and then runs what is left. -/
partial def interactFrom (c : Compiler) (dump : Bool) (s : Session) : IO Nat := do
  writeBytes (← IO.getStdout) (utf8 (if s.pending.isEmpty then "> " else ". "))
  let line ← (← IO.getStdin).getLine
  match ← (s.feed c dump (utf8 (line.dropEndWhile (· == '\n')).toString) : IO _) with
  | (.crashed crash, _) => reportCrash crash
  | (_, s) => if line.isEmpty then return 0 else interactFrom c dump s

end Swiftlet

open Swiftlet in
/-- Performs a command line; the result is the exit status. -/
def main (args : List String) : IO UInt32 := do
  let plain := (← IO.getEnv "NO_COLOR").isSome || (← IO.getEnv "TERM") == some "dumb"
  let color := !plain && (← (← IO.getStdout).isTty)
  match ← Command.perform color (fun c dump => interactFrom c dump .empty) (args.map utf8) with
  | .ok status => return status.toUInt32
  | .error crash => return (← reportCrash crash).toUInt32
