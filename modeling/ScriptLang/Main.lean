import ScriptLang.CommandLine
import Std.Time.DateTime.Timestamp

/-!
# The program

Reads arguments, files and lines, and writes what `CommandLine` says.
-/

namespace ScriptLang.Main

/-- Seconds since the beginning of 1970. -/
def now : IO Float := do
  let t ← Std.Time.Timestamp.now
  return Float.ofInt t.toMillisecondsSinceUnixEpoch.val / 1000

/-- A session whose clock stands at the present time. -/
def atPresent (s : Session) : IO Session := do
  let t ← now
  return { s with machine := { s.machine with clock := fun _ => t } }

/-- Write to the standard output and the standard error. -/
def write (w : CommandLine.Written) : IO Unit := do
  let out ← IO.getStdout
  let err ← IO.getStderr
  out.putStr w.out
  out.flush
  err.putStr w.err
  err.flush

/-- Why a file cannot be read. -/
def readFault : IO.Error → CommandLine.ReadFault
  | .noFileOrDirectory .. => .missing
  | .inappropriateType .. => .directory
  | e => .other (toString e)

/-- The bytes of a file. -/
def readFile (path : String) : IO (Except CommandLine.ReadFault ByteArray) := do
  try
    if ← (System.mkFilePath [path]).isDir then return .error .directory
    return .ok (← IO.FS.readBinFile path)
  catch e => return .error (readFault e)

/-- Run lines until there are no more. -/
partial def promptLoop (s : Session) : IO UInt32 := do
  write { out := CommandLine.prompt }
  let line ← try
      pure (Except.ok (← (← IO.getStdin).getLine).toUTF8)
    catch _ => pure (Except.error CommandLine.ReadFault.notText)
  match line with
  | .ok bytes => if bytes.isEmpty then return 0
  | .error _ => pure ()
  let (written, next) := CommandLine.promptLine (← atPresent s) line
  write written
  match next with
  | some s => promptLoop s
  | none => return CommandLine.inputCode.toUInt32

end ScriptLang.Main

open ScriptLang in
def main (arguments : List String) : IO UInt32 := do
  match arguments with
  | [] => Main.promptLoop .start
  | [path] =>
    let report := CommandLine.script (← Main.atPresent .start) (← Main.readFile path)
    Main.write report.written
    return report.exitCode.toUInt32
  | _ =>
    Main.write CommandLine.usage.written
    return CommandLine.usage.exitCode.toUInt32
