import CodeLift.Listing.Document
import CodeLift.Listing.Records
import CodeLift.Listing.Text
import CodeLift.Text.Lowercase

/-!
# Output formats

A function is written in one of three formats. A listing takes commands one at a time and can be
rendered at any point; the two JSON formats start afresh after that, the text goes on.
-/

namespace CodeLift

/-- A way to write a function. -/
inductive OutputFormat where
  /-- Plain text. -/
  | text
  /-- One JSON document. -/
  | json
  /-- One JSON object per line. -/
  | jsonLines
deriving DecidableEq, Repr

namespace OutputFormat

/-- Every format, in the order in which they are listed. -/
def all : List OutputFormat := [text, json, jsonLines]

/-- The name of the format. -/
def name : OutputFormat → String
  | text => "text"
  | json => "json"
  | jsonLines => "jsonl"

/-- The format with this name, in exactly this spelling. -/
def ofName? : String → Option OutputFormat
  | "text" => some text
  | "json" => some json
  | "jsonl" | "jsonlines" => some jsonLines
  | _ => none

end OutputFormat

/-- The name of a format that does not exist. -/
structure UnknownFormat where
  /-- The name as it was given. -/
  name : String
deriving DecidableEq, Repr

/-- The error in words. -/
def UnknownFormat.message (e : UnknownFormat) : String := "Unknown output format: " ++ e.name

/-- The format with this name, in any letter case. -/
def OutputFormat.parse (name : String) : Except UnknownFormat OutputFormat :=
  match ofName? (Text.lower name) with
  | some format => .ok format
  | none => .error ⟨name⟩

/-- A listing under construction. -/
inductive Listing where
  /-- A text listing. -/
  | text (listing : TextListing)
  /-- A document. -/
  | document (listing : Document)
  /-- Records. -/
  | records (listing : Records)

namespace Listing

/-- The empty listing of a format. -/
def empty : OutputFormat → Listing
  | .text => text {}
  | .json => document {}
  | .jsonLines => records {}

/-- Carry out a command. -/
def apply : Listing → Command → Except Fault Listing
  | text t, c => do return text (← t.apply c)
  | document d, c => .ok (document (d.apply c))
  | records r, c => .ok (records (r.apply c))

/-- Carry out commands in order. -/
def applyAll (l : Listing) : List Command → Except Fault Listing
  | [] => .ok l
  | c :: cs => do (← l.apply c).applyAll cs

/-- The text of a listing of the function `g`, and the listing to go on with. -/
def finish : Listing → FlowGraph → String × Listing
  | text t, g => (t.render g, text t)
  | document d, g => (d.render g, document {})
  | records r, g => (r.render g, records {})

/-- Write the whole function `g` into a listing, and finish that. -/
def write (l : Listing) (g : FlowGraph) : Except Fault (String × Listing) := do
  return (← l.applyAll g.commands).finish g

end Listing

/-- The function `g` in a format. -/
def OutputFormat.render (format : OutputFormat) (g : FlowGraph) : Except Fault String := do
  return (← (Listing.empty format).write g).1

end CodeLift
