import CodeLift.CommandLine.Program

/-!
# A file system in memory

A host for the program whose files are given. A path is walked component by component, from the root
or from the working directory, by the rules of Linux, and what fails on the way is reported in the
words of that system.
-/

namespace CodeLift.CommandLine

/-- Why a file cannot be used. -/
inductive FileError where
  /-- Something on the way does not exist. -/
  | notFound
  /-- Something on the way is a file. -/
  | notDirectory
  /-- The path leads to a directory. -/
  | isDirectory
  /-- The device takes nothing. -/
  | noSpace
  /-- The path, or a name in it, has too many bytes. -/
  | nameTooLong
deriving DecidableEq, Repr

/-- The error in words. -/
def FileError.message : FileError → String
  | notFound => "No such file or directory (os error 2)"
  | notDirectory => "Not a directory (os error 20)"
  | isDirectory => "Is a directory (os error 21)"
  | noSpace => "No space left on device (os error 28)"
  | nameTooLong => "File name too long (os error 36)"

/-- A device, which stands among the files but keeps nothing. -/
inductive Device where
  /-- Always empty. -/
  | null
  /-- An endless run of zeros. -/
  | zero
  /-- Zeros to read, and no space to write. -/
  | full
  /-- Standard input. -/
  | standardInput
  /-- Standard output. -/
  | standardOutput
  /-- The standard stream for errors. -/
  | standardError
deriving DecidableEq, Repr

/-- The device with this name. -/
def Device.ofName? : String → Option Device
  | "null" => some null
  | "zero" => some zero
  | "full" => some full
  | "stdin" => some standardInput
  | "stdout" => some standardOutput
  | "stderr" => some standardError
  | _ => none

/-- A place in the tree of files: the names that lead to it from the root. -/
abbrev Place := List String

/-- The names of the directories at the root. -/
def rootDirectories : List String :=
  ["bin", "boot", "dev", "etc", "home", "lib", "media", "mnt", "opt", "proc", "root", "run", "sbin",
    "srv", "sys", "tmp", "usr", "var"]

/-- Where paths start that do not start at the root. -/
def workingDirectory : Place := ["tmp", "work"]

/-- How many bytes a path may have. -/
def maxPathSize : Nat := 4095

/-- How many bytes a name in a path may have. -/
def maxNameSize : Nat := 255

/-- The components of a path as it is written. -/
def components (path : String) : List String :=
  (Text.pieces (· == '/') path.toList).map String.ofList

/-- Where the walk along a path starts, and the components it goes along. -/
def origin (path : String) : Except FileError (Place × List String) :=
  if path.isEmpty then .error .notFound
  else if maxPathSize < path.utf8ByteSize then .error .nameTooLong
  else
    match components path with
    | "" :: parts => .ok ([], parts)
    | parts => .ok (workingDirectory, parts)

/-- A file at its place. -/
structure StoredFile where
  /-- Where it is. -/
  place : Place
  /-- Its bytes. -/
  bytes : ByteArray

/-- What is found at a place. -/
inductive Node where
  /-- A file with these bytes. -/
  | file (bytes : ByteArray)
  /-- A device. -/
  | device (d : Device)
  /-- A directory. -/
  | directory
  /-- Nothing. -/
  | missing

/-- The files and the standard streams. -/
structure FileSystem where
  /-- The files, the latest version of each first. -/
  files : List StoredFile := []
  /-- The bytes of standard input. -/
  standardInput : ByteArray := .empty
  /-- What was written to standard output as to a file. -/
  standardOutput : String := ""

namespace FileSystem

/-- The device at a place. -/
def device? : Place → Option Device
  | ["dev", name] => Device.ofName? name
  | _ => none

/-- Whether there is a directory at a place. -/
def hasDirectory (place : Place) : Bool :=
  place.isPrefixOf workingDirectory || rootDirectories.any fun name => place == [name]

/-- What is at a place. -/
def node (fs : FileSystem) (place : Place) : Node :=
  match fs.files.find? (·.place == place), device? place with
  | some f, _ => .file f.bytes
  | none, some d => .device d
  | none, none => if hasDirectory place then .directory else .missing

/-- Walk along components from the place `here`. Every component needs a directory to be looked up
in. Empty components and `.` stay there, and `..` leads up, but never above the root. -/
def walk (fs : FileSystem) (here : Place) : List String → Except FileError Place
  | [] => .ok here
  | c :: cs =>
    match fs.node here with
    | .file _ => .error .notDirectory
    | .device _ => .error .notDirectory
    | .missing => .error .notFound
    | .directory =>
      if c == "" || c == "." then fs.walk here cs
      else if c == ".." then fs.walk here.dropLast cs
      else if maxNameSize < c.utf8ByteSize then .error .nameTooLong
      else fs.walk (here ++ [c]) cs

/-- The file system with a file that holds a text. -/
def store (fs : FileSystem) (place : Place) (text : String) : FileSystem :=
  { fs with files := ⟨place, text.toUTF8⟩ :: fs.files }

/-- What a device gives to a reader. Of endless zeros these are as many as the program takes. -/
def deviceBytes (fs : FileSystem) : Device → ByteArray
  | .standardInput => fs.standardInput
  | .zero | .full => ⟨Array.replicate (maxInputSize + 1) 0⟩
  | .null | .standardOutput | .standardError => .empty

/-- Write a text to a device. -/
def writeDevice (fs : FileSystem) (text : String) : Device → Except FileError FileSystem
  | .full => .error .noSpace
  | .standardOutput => .ok { fs with standardOutput := fs.standardOutput ++ text }
  | .null | .zero | .standardInput | .standardError => .ok fs

/-- The bytes of a file. A directory can be opened, but not read. -/
def readFile (fs : FileSystem) (path : String) : Except ReadError ByteArray :=
  match (origin path).bind fun (start, parts) => fs.walk start parts with
  | .error e => .error (.cannotOpen e.message)
  | .ok place =>
    match fs.node place with
    | .file bytes => .ok bytes
    | .device d => .ok (fs.deviceBytes d)
    | .directory => .error (.cannotRead FileError.isDirectory.message)
    | .missing => .error (.cannotOpen FileError.notFound.message)

/-- The bytes of a file that can be read. -/
def contents? (fs : FileSystem) (path : String) : Option ByteArray := (fs.readFile path).toOption

/-- The components of a path that ends in a slash, up to the directory that its last name would be
looked up in. -/
def parentOfSlashed (parts : List String) : List String :=
  ((parts.reverse.dropWhile (· == "")).drop 1).reverse ++ ["."]

/-- Create a file, or replace what it holds. A slash at the end of the path asks for a directory,
and that is refused whether there is one or not. -/
def writeFile (fs : FileSystem) (path text : String) : Except FileError FileSystem := do
  let (start, parts) ← origin path
  if parts.getLast? == some "" then
    let _ ← fs.walk start (parentOfSlashed parts)
    .error .isDirectory
  else
    let place ← fs.walk start parts
    match fs.node place with
    | .directory => .error .isDirectory
    | .device d => fs.writeDevice text d
    | .file _ => return fs.store place text
    | .missing => return fs.store place text

/-- The file system with the named files in the working directory. -/
def ofFiles (files : List (String × ByteArray)) (standardInput : ByteArray) : FileSystem :=
  { files := files.map fun (name, bytes) => ⟨workingDirectory ++ [name], bytes⟩, standardInput }

/-- The file system as a host. -/
def host : Host (StateM FileSystem) where
  readStandardInput := do return .ok (← get).standardInput
  readFile path := do return (← get).readFile path
  writeFile path text := do
    match (← get).writeFile path text with
    | .ok fs => set fs; return .ok ()
    | .error e => return .error e.message

end FileSystem

end CodeLift.CommandLine
