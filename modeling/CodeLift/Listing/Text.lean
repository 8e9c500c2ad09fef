import CodeLift.Listing.Command
import CodeLift.Text.Piece

/-!
# Listings as text

One paragraph per block: its label, the lines of the note on it, and a line for every operation and
every edge. A note on an operation stands at the end of the newest line, since it follows its
operation.
-/

namespace CodeLift

/-- A paragraph of a text listing. -/
structure Paragraph where
  /-- The entry of the block. -/
  entry : Address
  /-- The lines of the notes on the block. -/
  comments : List String := []
  /-- The lines of the block, newest first. -/
  lines : List String := []
deriving DecidableEq, Repr

/-- A listing as text. -/
structure TextListing where
  /-- The paragraphs, by block number. -/
  paragraphs : Array Paragraph := #[]
deriving DecidableEq, Repr

/-- The line for an operation. The start of an instruction stands out. -/
def Op.line (op : Op) : String :=
  match op with
  | insnStart _ _ => " ---- " ++ op.text
  | _ => " " ++ op.text

/-- The line for an edge. -/
def Edge.line (e : Edge) : String :=
  " -> " ++ e.kind.text ++ " " ++
    match e.target with
    | some id => id.label
    | none => "*"

namespace Paragraph

/-- Add a line. -/
def addLine (p : Paragraph) (line : String) : Paragraph := { p with lines := line :: p.lines }

/-- Add the lines of a note on the block. -/
def comment (p : Paragraph) (note : String) : Paragraph :=
  { p with comments := p.comments ++ Text.lines note }

/-- Add a note to the newest line, if there is a line. -/
def remark (p : Paragraph) (note : String) : Paragraph :=
  match p.lines with
  | [] => p
  | line :: lines => { p with lines := (line ++ "  ; " ++ note) :: lines }

/-- The paragraph of block `id`, with an empty line in front. -/
def render (p : Paragraph) (id : BlockId) : String :=
  "\n" ++ id.label ++ " @ " ++ p.entry.text ++ ":\n" ++
    String.join (p.comments.map fun comment => " ; " ++ comment ++ "\n") ++
    String.join (p.lines.reverse.map fun line => line ++ "\n")

end Paragraph

namespace TextListing

/-- Carry out a command. Blocks must be created in order; a command on a block that does not exist
has no effect. -/
def apply (t : TextListing) : Command → Except Fault TextListing
  | .createBlock id entry =>
    if id = t.paragraphs.size then .ok ⟨t.paragraphs.push { entry }⟩
    else .error (.blockOutOfOrder id t.paragraphs.size)
  | .append id op => .ok ⟨t.paragraphs.modify id (·.addLine op.line)⟩
  | .branch id edge => .ok ⟨t.paragraphs.modify id (·.addLine edge.line)⟩
  | .note id none text => .ok ⟨t.paragraphs.modify id (·.comment text)⟩
  | .note id (some _) text => .ok ⟨t.paragraphs.modify id (·.remark text)⟩

/-- The first line of the listing of a function. -/
def header (g : FlowGraph) : String :=
  "function " ++ g.entry.text ++ ": " ++ Text.decimal g.blockCount ++ " blocks, " ++
    Text.decimal g.edgeCount ++ " edges\n"

/-- The last paragraph of the listing of a function, if there were problems. -/
def warnings (g : FlowGraph) : String :=
  if g.diagnostics.isEmpty then ""
  else "\n" ++ String.join (g.diagnostics.map fun d => "; warning: " ++ d.message ++ "\n")

/-- The whole text, for the function `g`. -/
def render (t : TextListing) (g : FlowGraph) : String :=
  header g ++ String.join (t.paragraphs.toList.zipIdx.map fun (p, id) => p.render id) ++ warnings g

end TextListing

end CodeLift
