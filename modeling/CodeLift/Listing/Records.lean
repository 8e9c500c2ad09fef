import CodeLift.Json
import CodeLift.Listing.Command

/-!
# Listings as JSON records

One object per line: a record for every command as it comes, then one for every problem, and a
summary of the function at the end. Fields stand in alphabetical order.
-/

namespace CodeLift

/-- A listing as records. -/
structure Records where
  /-- The records, in order. -/
  items : Array Json := #[]

/-- The fields of an operation, in alphabetical order. -/
def Op.record : Op → Json
  | insnStart pc size =>
    .obj [("op", .str "insn_start"), ("pc", .num pc.toNat), ("size", .num size.toNat)]
  | micro opcode args origin =>
    .obj [("args", .arr (args.map .str)), ("op", .str "micro"), ("opcode", .str opcode),
      ("origin", .obj [("index", .num origin.index), ("pc", .num origin.pc.toNat)])]
  | unreachable pc => .obj [("op", .str "unreachable"), ("pc", .num pc.toNat)]

/-- The record of a command. -/
def Command.record : Command → Json
  | createBlock id entry =>
    .obj [("block", .num id), ("entry", .str entry.text), ("type", .str "block")]
  | append id op =>
    .obj [("block", .num id), ("op", op.record), ("text", .str op.text), ("type", .str "op")]
  | branch id edge =>
    .obj [("block", .num id), ("kind", .str edge.kind.text), ("target", .ofNat? edge.target),
      ("type", .str "edge")]
  | note id op text =>
    .obj [("block", .num id), ("note", .str text), ("op", .ofNat? op), ("type", .str "debug")]

/-- The record of a problem. -/
def Diagnostic.record (d : Diagnostic) : Json :=
  .obj [("address", .str d.address.text), ("message", .str d.message), ("type", .str "diagnostic")]

/-- The record that sums up a function. -/
def FlowGraph.summary (g : FlowGraph) : Json :=
  .obj [("blocks", .num g.blockCount), ("edges", .num g.edgeCount), ("entry", .str g.entry.text),
    ("partial", .bool g.isPartial), ("type", .str "function")]

namespace Records

/-- Carry out a command. -/
def apply (r : Records) (c : Command) : Records := ⟨r.items.push c.record⟩

/-- The whole text, for the function `g`. -/
def render (r : Records) (g : FlowGraph) : String :=
  let items := r.items.toList ++ g.diagnostics.map Diagnostic.record ++ [g.summary]
  String.join (items.map Json.record)

end Records

end CodeLift
