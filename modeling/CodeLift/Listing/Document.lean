import CodeLift.Json
import CodeLift.Listing.Command

/-!
# Listings as one JSON document

The whole function as a single object. A note that is absent has no field.
-/

namespace CodeLift

/-- An operation of a document, with the note on it. -/
structure NotedOp where
  /-- The operation. -/
  op : Op
  /-- The note on it. -/
  note : Option String := none
deriving DecidableEq, Repr

/-- A block of a document. -/
structure Chapter where
  /-- The number that the block was created with. -/
  id : BlockId
  /-- The entry of the block. -/
  entry : Address
  /-- The note on the block. -/
  note : Option String := none
  /-- The operations. -/
  ops : Array NotedOp := #[]
  /-- The edges. -/
  edges : List Edge := []
deriving DecidableEq, Repr

/-- A listing as one document. -/
structure Document where
  /-- The blocks, in the order of their creation. -/
  chapters : Array Chapter := #[]
deriving DecidableEq, Repr

/-- A field for a note, if there is one. -/
def noteField (note : Option String) : List (String × Json) :=
  (note.map fun text => ("debug", Json.str text)).toList

/-- The fields of an operation. -/
def Op.json : Op → Json
  | insnStart pc size =>
    .obj [("op", .str "insn_start"), ("pc", .num pc.toNat), ("size", .num size.toNat)]
  | micro opcode args origin =>
    .obj [("op", .str "micro"), ("opcode", .str opcode), ("args", .arr (args.map .str)),
      ("origin", .obj [("pc", .num origin.pc.toNat), ("index", .num origin.index)])]
  | unreachable pc => .obj [("op", .str "unreachable"), ("pc", .num pc.toNat)]

/-- The fields of an operation with its note. -/
def NotedOp.json (o : NotedOp) : Json :=
  .obj ([("op", o.op.json), ("text", .str o.op.text)] ++ noteField o.note)

/-- The fields of an edge. -/
def Edge.json (e : Edge) : Json :=
  .obj [("kind", .str e.kind.text), ("target", .ofNat? e.target)]

namespace Chapter

/-- Put a note on the block, or on the operation with this number if the block has it. -/
def annotate (c : Chapter) (note : String) : Option Nat → Chapter
  | none => { c with note := some note }
  | some index => { c with ops := c.ops.modify index fun o => { o with note := some note } }

/-- The fields of a block. -/
def json (c : Chapter) : Json :=
  .obj ([("id", .num c.id), ("entry", .str c.entry.text)] ++ noteField c.note ++
    [("ops", .arr (c.ops.toList.map NotedOp.json)), ("edges", .arr (c.edges.map Edge.json))])

end Chapter

namespace Document

/-- Carry out a command. A command on a block that does not exist has no effect. -/
def apply (d : Document) : Command → Document
  | .createBlock id entry => ⟨d.chapters.push { id, entry }⟩
  | .append id op => ⟨d.chapters.modify id fun c => { c with ops := c.ops.push { op } }⟩
  | .branch id edge => ⟨d.chapters.modify id fun c => { c with edges := c.edges ++ [edge] }⟩
  | .note id op text => ⟨d.chapters.modify id (·.annotate text op)⟩

/-- The fields of the document for the function `g`. -/
def json (d : Document) (g : FlowGraph) : Json :=
  .obj [
    ("entry", .str g.entry.text),
    ("debug_info", .str g.noteKind.text),
    ("partial", .bool g.isPartial),
    ("blocks", .arr (d.chapters.toList.map Chapter.json)),
    ("diagnostics", .arr (g.diagnostics.map fun p => .str p.message))]

/-- The whole text, for the function `g`. -/
def render (d : Document) (g : FlowGraph) : String := (d.json g).document

end Document

end CodeLift
