import CodeLift.CommandLine.Options
import CodeLift.Lift
import CodeLift.Log
import CodeLift.Registry

/-!
# The program

From arguments to a report: settle the decoder, read the input, lift its region, write the result.
Configuration errors come before any input is read. What the program needs from the outside is a
`Host`, so that it runs the same on a real file system and on one in memory.
-/

namespace CodeLift.CommandLine

/-- Inputs of this many bytes or more are refused. -/
def maxInputSize : Nat := 10 * 1024 * 1024

/-- The line that shows the version. -/
def versionLine : String := "nuclide-lift 0.1.0\n"

/-- Why an input could not be read. -/
inductive ReadError where
  /-- The file could not be opened. -/
  | cannotOpen (reason : String)
  /-- The file was opened but could not be read. -/
  | cannotRead (reason : String)
deriving DecidableEq, Repr

/-- What the program needs from the outside. -/
structure Host (m : Type → Type) where
  /-- The bytes of standard input. -/
  readStandardInput : m (Except String ByteArray)
  /-- The bytes of a file. -/
  readFile : (path : String) → m (Except ReadError ByteArray)
  /-- Make a file hold a text. -/
  writeFile : (path text : String) → m (Except String Unit)

/-- Why the program stopped: what it could not do, and the cause. -/
structure Complaint where
  /-- What could not be done. -/
  context : String
  /-- The cause, if there is more to say. -/
  cause : Option String := none
deriving DecidableEq, Repr

/-- The complaint as it is shown. The lines of the cause are indented. -/
def Complaint.text (c : Complaint) : String :=
  "Error: " ++ c.context ++
    (match c.cause with
      | some cause => "\n\nCaused by:\n    " ++ Text.indentAfterBreaks "    " cause
      | none => "") ++
    "\n"

/-- How a run of the program ended. -/
structure Report where
  /-- The exit code. -/
  exitCode : UInt8
  /-- What goes to standard output. -/
  output : String := ""
  /-- What the program complains about. -/
  complaint : Option Complaint := none
  /-- What is wrong with the arguments. -/
  misuse : Option UsageError := none
  /-- The log. -/
  log : List LogLine := []
deriving DecidableEq, Repr

namespace Report

/-- The run ended with a complaint. -/
def failure (log : List LogLine) (context : String) (cause : Option String) : Report :=
  { exitCode := 1, complaint := some { context, cause }, log }

/-- The arguments were wrong. -/
def usage (e : UsageError) : Report := { exitCode := 2, misuse := some e }

/-- The run was broken off by a fault. -/
def aborted (log : List LogLine) : Report := { exitCode := 101, log }

/-- The report with only those log lines that pass a threshold. -/
def filterLog (r : Report) (threshold : LogLevel) : Report :=
  { r with log := r.log.filter (·.passes threshold) }

end Report

namespace Options

/-- The log lines that are kept unless something else is asked for. -/
def threshold (o : Options) : LogLevel := if o.verbose then .debug else .warn

/-- The bytes of the input. -/
def readInput {m : Type → Type} [Monad m] (o : Options) (host : Host m) :
    m (Except Complaint ByteArray) := do
  match o.input with
  | none =>
    match ← host.readStandardInput with
    | .ok code => return .ok code
    | .error reason => return .error ⟨"Couldn't read standard input", some reason⟩
  | some path =>
    match ← host.readFile path with
    | .ok code => return .ok code
    | .error (.cannotOpen reason) => return .error ⟨"Couldn't open " ++ path, some reason⟩
    | .error (.cannotRead reason) => return .error ⟨"Couldn't read " ++ path, some reason⟩

/-- The part of an input that is lifted: from the offset on. -/
def regionOf (o : Options) (code : ByteArray) : Except Complaint ByteArray :=
  if maxInputSize ≤ code.size then .error ⟨"Input too large", none⟩
  else
    match region code o.offset (code.size - o.offset) with
    | .ok image => .ok image
    | .error e => .error ⟨"Invalid offset", some e.message⟩

/-- Lift a region and render the result, with the log of that. -/
def liftRegion (o : Options) (decoder : Decoder) (image : ByteArray) :
    Except Fault (String × List LogLine) := do
  let lifter : Lifter := { decoder, config := { noteKind := o.notes } }
  let lifted ← lifter.lift image 0
  let rendered ← o.format.render lifted.graph
  let warning : LogLine := ⟨.warn, .program, "Part of the input could not be decoded"⟩
  return (rendered, lifted.events.filterMap Event.logLine? ++
    if lifted.graph.isPartial then [warning] else [])

/-- Hand the result over: to the output file, or to standard output. -/
def deliver {m : Type → Type} [Monad m] (o : Options) (host : Host m) (rendered : String)
    (log : List LogLine) : m Report := do
  match o.output with
  | none => return { exitCode := 0, output := rendered, log }
  | some path =>
    match ← host.writeFile path rendered with
    | .ok () => return { exitCode := 0, log }
    | .error reason => return .failure log ("Couldn't write " ++ path) (some reason)

/-- Carry out what the options ask for. -/
def execute {m : Type → Type} [Monad m] (o : Options) (host : Host m) (registry : Registry) :
    m Report := do
  match registry.resolve o.architecture with
  | .error e => return .failure [] "Couldn't get the decoder" (some e.message)
  | .ok decoder =>
    let resolved : LogLine :=
      ⟨.debug, .decoder, "Resolved decoder backend for '" ++ o.architecture ++ "'"⟩
    match (← o.readInput host).bind o.regionOf with
    | .error c => return .failure [resolved] c.context c.cause
    | .ok image =>
      let lifting : LogLine :=
        ⟨.info, .program,
          "Lifting " ++ Text.decimal image.size ++ " bytes for " ++ o.architecture⟩
      match o.liftRegion decoder image with
      | .error _ => return .aborted [resolved, lifting]
      | .ok (rendered, log) => o.deliver host rendered (resolved :: lifting :: log)

end Options

/-- Run the program. `level` replaces the threshold that the options ask for. -/
def run {m : Type → Type} [Monad m] (host : Host m) (readings : Disassembly)
    (level : Option LogLevel) (args : List String) : m Report := do
  match parse args with
  | .error e => return .usage e
  | .ok .version => return { exitCode := 0, output := versionLine }
  | .ok (.lift o) =>
    return (← o.execute host (.builtin readings)).filterLog (level.getD o.threshold)

end CodeLift.CommandLine
