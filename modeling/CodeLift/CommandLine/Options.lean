import CodeLift.Listing.Basic
import CodeLift.Text.Number

/-!
# Command-line arguments

Arguments are read from left to right, and the first one that is wrong decides. Options have a long
and a short name. A value is attached to its option, with or without an equals sign after a short
name and with one after a long name, or it is the next argument, which then must not look like an
option. Short options may be grouped, and `--` ends the options. No option may be given twice.
-/

namespace CodeLift.CommandLine

/-- The options that take a value. -/
inductive Setting where
  /-- The architecture of the input. -/
  | architecture
  /-- Where in the input the region begins. -/
  | offset
  /-- The kind of notes. -/
  | notes
  /-- The output format. -/
  | format
deriving DecidableEq, Repr

/-- The long name of the option. -/
def Setting.name : Setting → String
  | architecture => "architecture"
  | offset => "offset"
  | notes => "debug"
  | format => "format"

/-- What an option means. -/
inductive Switch where
  /-- A setting, whose value follows. -/
  | setting (s : Setting)
  /-- Log more. -/
  | verbose
  /-- Show the version and stop. -/
  | version
deriving DecidableEq, Repr

/-- The option with this short name. -/
def Switch.ofShort? : Char → Option Switch
  | 'a' => some (setting .architecture)
  | 'o' => some (setting .offset)
  | 'g' => some (setting .notes)
  | 'f' => some (setting .format)
  | 'v' => some verbose
  | 'V' => some version
  | _ => none

/-- The option with this long name. -/
def Switch.ofLong? : String → Option Switch
  | "architecture" => some (setting .architecture)
  | "offset" => some (setting .offset)
  | "debug" => some (setting .notes)
  | "format" => some (setting .format)
  | "verbose" => some verbose
  | "version" => some version
  | _ => none

/-- What is wrong with the arguments. -/
inductive UsageError where
  /-- There is no such option. -/
  | unknownOption (name : String)
  /-- An option was given twice. -/
  | repeated (name : String)
  /-- An option has no value. -/
  | missingValue (s : Setting)
  /-- An option that takes no value has one. -/
  | unexpectedValue (name value : String)
  /-- A value is not one of those that the option takes. -/
  | invalidValue (s : Setting) (value : String)
  /-- The name of a file is empty. -/
  | emptyPath
  /-- There are more than two file names. -/
  | unexpectedArgument (arg : String)
  /-- No architecture was given. -/
  | missingArchitecture
deriving DecidableEq, Repr

/-- The error in words. -/
def UsageError.message : UsageError → String
  | unknownOption name => "there is no option '" ++ name ++ "'"
  | repeated name => "the option '" ++ name ++ "' cannot be given twice"
  | missingValue s => "the option '" ++ s.name ++ "' needs a value"
  | unexpectedValue name value =>
    "the option '" ++ name ++ "' takes no value, and so not '" ++ value ++ "'"
  | invalidValue s value => "the option '" ++ s.name ++ "' cannot be '" ++ value ++ "'"
  | emptyPath => "the name of a file cannot be empty"
  | unexpectedArgument arg => "the argument '" ++ arg ++ "' is one too many"
  | missingArchitecture => "the option 'architecture' is required"

/-- Complete and valid arguments. -/
structure Options where
  /-- The name of the architecture. -/
  architecture : String
  /-- Where in the input the region begins. -/
  offset : Nat := 0
  /-- The kind of notes to make. -/
  notes : NoteKind := .none
  /-- The output format. -/
  format : OutputFormat := .text
  /-- Whether to log more. -/
  verbose : Bool := false
  /-- The input file; standard input without one. -/
  input : Option String := none
  /-- The output file; standard output without one. -/
  output : Option String := none
deriving DecidableEq, Repr

/-- What the arguments ask for. -/
inductive Request where
  /-- The version of the program. -/
  | version
  /-- A function lifted from an input. -/
  | lift (options : Options)
deriving DecidableEq, Repr

/-- The arguments read so far. -/
structure Draft where
  /-- The name of the architecture. -/
  architecture : Option String := none
  /-- Where in the input the region begins. -/
  offset : Option Nat := none
  /-- The kind of notes to make. -/
  notes : Option NoteKind := none
  /-- The output format. -/
  format : Option OutputFormat := none
  /-- Whether to log more. -/
  verbose : Bool := false
  /-- The input file. -/
  input : Option String := none
  /-- The output file. -/
  output : Option String := none
deriving DecidableEq, Repr

namespace Draft

/-- Whether a setting has its value already. -/
def has (d : Draft) : Setting → Bool
  | .architecture => d.architecture.isSome
  | .offset => d.offset.isSome
  | .notes => d.notes.isSome
  | .format => d.format.isSome

/-- Give a setting its value, if it takes that. -/
def assign? (d : Draft) (value : String) : Setting → Option Draft
  | .architecture => some { d with architecture := some value }
  | .offset => (Text.readOffset value.toList).map fun n => { d with offset := some n }
  | .notes => (NoteKind.ofName? value).map fun k => { d with notes := some k }
  | .format => (OutputFormat.ofName? value).map fun f => { d with format := some f }

/-- Give a setting its value, once. -/
def set (d : Draft) (s : Setting) (value : String) : Except UsageError Draft :=
  match d.assign? value s with
  | none => .error (.invalidValue s value)
  | some assigned => if d.has s then .error (.repeated s.name) else .ok assigned

/-- Ask for more log messages, once. -/
def setVerbose (d : Draft) : Except UsageError Draft :=
  if d.verbose then .error (.repeated "verbose") else .ok { d with verbose := true }

/-- Take the name of a file: the input first, then the output. -/
def addPath (d : Draft) (path : String) : Except UsageError Draft :=
  if path.isEmpty then .error .emptyPath
  else if d.input.isNone then .ok { d with input := some path }
  else if d.output.isNone then .ok { d with output := some path }
  else .error (.unexpectedArgument path)

/-- The finished options. Only the architecture has no default. -/
def complete (d : Draft) : Except UsageError Request :=
  match d.architecture with
  | none => .error .missingArchitecture
  | some architecture =>
    .ok (.lift {
      architecture
      offset := d.offset.getD 0
      notes := d.notes.getD .none
      format := d.format.getD .text
      verbose := d.verbose
      input := d.input
      output := d.output })

end Draft

/-- The state after an argument. -/
inductive Progress where
  /-- Go on with the next argument. -/
  | ready (d : Draft)
  /-- The next argument is the value of a setting. -/
  | awaiting (d : Draft) (s : Setting)
  /-- The version is asked for; what follows does not count. -/
  | version
deriving DecidableEq, Repr

/-- Read a group of short options. What follows a setting within its group is the value. -/
def readShort (d : Draft) : List Char → Except UsageError Progress
  | [] => .ok (.ready d)
  | c :: cs =>
    match Switch.ofShort? c with
    | none => .error (.unknownOption (String.ofList [c]))
    | some .version => .ok .version
    | some .verbose => do readShort (← d.setVerbose) cs
    | some (.setting s) =>
      match cs with
      | [] => .ok (.awaiting d s)
      | '=' :: value => do return .ready (← d.set s (String.ofList value))
      | value => do return .ready (← d.set s (String.ofList value))

/-- Read a long option, given its name and the value after an equals sign. -/
def readLong (d : Draft) (name : String) (value : Option String) : Except UsageError Progress :=
  match Switch.ofLong? name, value with
  | none, _ => .error (.unknownOption name)
  | some (.setting s), some value => do return .ready (← d.set s value)
  | some (.setting s), none => .ok (.awaiting d s)
  | some _, some value => .error (.unexpectedValue name value)
  | some .version, none => .ok .version
  | some .verbose, none => do return .ready (← d.setVerbose)

/-- The name of a long option and the value after an equals sign, if there is one. -/
def splitLong (cs : List Char) : String × Option String :=
  (String.ofList (cs.takeWhile (· != '=')),
    match cs.dropWhile (· != '=') with
    | [] => none
    | _ :: value => some (String.ofList value))

/-- An argument that may hold options. -/
inductive Argument where
  /-- The end of the options. -/
  | endOfOptions
  /-- A long option. -/
  | long (name : String) (value : Option String)
  /-- A group of short options. -/
  | short (group : List Char)
  /-- Anything else. -/
  | plain (text : String)
deriving DecidableEq, Repr

/-- What an argument looks like. A single dash is no option. -/
def Argument.of (arg : String) : Argument :=
  match arg.toList with
  | ['-', '-'] => endOfOptions
  | '-' :: '-' :: cs => let (name, value) := splitLong cs; long name value
  | ['-'] => plain arg
  | '-' :: cs => short cs
  | _ => plain arg

/-- Read arguments that are all names of files. -/
def readPaths (d : Draft) : List String → Except UsageError Request
  | [] => d.complete
  | arg :: args => do readPaths (← d.addPath arg) args

/-- Read arguments, the first of which may be the value that a setting waits for. -/
def readArgs : Progress → List String → Except UsageError Request
  | .version, _ => .ok .version
  | .awaiting _ s, [] => .error (.missingValue s)
  | .awaiting d s, arg :: args =>
    match Argument.of arg with
    | .plain value => do readArgs (.ready (← d.set s value)) args
    | _ => .error (.missingValue s)
  | .ready d, [] => d.complete
  | .ready d, arg :: args =>
    match Argument.of arg with
    | .endOfOptions => readPaths d args
    | .long name value => do readArgs (← readLong d name value) args
    | .short group => do readArgs (← readShort d group) args
    | .plain path => do readArgs (.ready (← d.addPath path)) args

/-- Read the arguments of the program. -/
def parse (args : List String) : Except UsageError Request := readArgs (.ready {}) args

end CodeLift.CommandLine
