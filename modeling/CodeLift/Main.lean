import CodeLift.CommandLine.Program
import CodeLift.Disassembly.Table

/-!
# The command line on a real system

Files, standard input and the environment. The disassembly of the region is a table in the file that
the variable `LIFT_DISASSEMBLY` names, and `LIFT_LOG` sets the threshold of the log.
-/

namespace CodeLift.CommandLine

/-- What went wrong, with the number of the error. -/
def numbered (details : String) (code : UInt32) : String :=
  details ++ " (os error " ++ Text.decimal code.toNat ++ ")"

/-- An error of the operating system in words. -/
def osReason : IO.Error → String
  | .noFileOrDirectory _ code details => numbered details code
  | .inappropriateType _ code details => numbered details code
  | .permissionDenied _ code details => numbered details code
  | .alreadyExists _ code details => numbered details code
  | .resourceExhausted _ code details => numbered details code
  | .otherError code details => numbered details code
  | e => toString e

/-- Read a stream to its end, or until it has given more bytes than the program takes. Every read
that is not the last gives at least one byte. -/
def readStream (read : USize → IO ByteArray) : Nat → ByteArray → IO ByteArray
  | 0, bytes => return bytes
  | reads + 1, bytes => do
    let chunk ← read 65536
    if chunk.isEmpty || maxInputSize < bytes.size then return bytes ++ chunk
    else readStream read reads (bytes ++ chunk)

/-- Run an action and put its error into words. -/
def attempt {α : Type} (action : IO α) : IO (Except String α) := do
  match ← action.toBaseIO with
  | .ok a => return .ok a
  | .error e => return .error (osReason e)

/-- The real system as a host. -/
def systemHost : Host IO where
  readStandardInput := attempt do readStream (← IO.getStdin).read (maxInputSize + 1) .empty
  readFile path := do
    match ← attempt (IO.FS.Handle.mk path .read) with
    | .error reason => return .error (.cannotOpen reason)
    | .ok handle =>
      match ← attempt (readStream handle.read (maxInputSize + 1) .empty) with
      | .error reason => return .error (.cannotRead reason)
      | .ok bytes => return .ok bytes
  writeFile path text := attempt (IO.FS.writeFile path text)

/-- The disassembly that the environment names; none if it names nothing that can be read. -/
def systemDisassembly : IO Disassembly := do
  match ← IO.getEnv "LIFT_DISASSEMBLY" with
  | none => return []
  | some path =>
    match ← attempt (IO.FS.readFile path) with
    | .ok table => return .ofTable table
    | .error _ => return []

/-- Run the program on the real system. -/
def runOnSystem (args : List String) : IO UInt32 := do
  let level := (← IO.getEnv "LIFT_LOG").bind LogLevel.ofName?
  let report ← run systemHost (← systemDisassembly) level args
  for line in report.log do
    IO.eprintln ("[" ++ line.text)
  for complaint in report.complaint do
    IO.eprint complaint.text
  for e in report.misuse do
    IO.eprintln ("error: " ++ e.message)
  IO.print report.output
  return report.exitCode.toUInt32

end CodeLift.CommandLine

/-- The entry point of the program. -/
def main (args : List String) : IO UInt32 := CodeLift.CommandLine.runOnSystem args
