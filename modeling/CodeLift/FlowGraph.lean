import CodeLift.Block
import CodeLift.Error

/-!
# Functions as flow graphs

The result of lifting: the blocks found from an entry address, numbered in the order of their
entries, and the problems met on the way.
-/

namespace CodeLift

/-- A problem that did not stop the work. -/
inductive Diagnostic where
  /-- A block ended early. -/
  | decode (failure : DecodeFailure)
  /-- An edge was dropped, because no block begins at its target. -/
  | unresolvedTarget (source target : Address) (kind : EdgeKind)
deriving DecidableEq, Repr

namespace Diagnostic

/-- The address that the problem is about. -/
def address : Diagnostic → Address
  | decode failure => failure.address
  | unresolvedTarget source _ _ => source

/-- The problem in words. -/
def message : Diagnostic → String
  | decode failure => failure.message
  | unresolvedTarget source target kind =>
    "Dropped " ++ kind.text ++ " edge from " ++ source.text ++ " to untranslated " ++ target.text

/-- Whether code could not be decoded. -/
def isDecode : Diagnostic → Bool
  | decode _ => true
  | unresolvedTarget _ _ _ => false

end Diagnostic

/-- The kind of notes that are made on a function. -/
inductive NoteKind where
  /-- No notes. -/
  | none
  /-- The assembly of every instruction. -/
  | assembly
  /-- The identity of every step. -/
  | trace
deriving DecidableEq, Repr

namespace NoteKind

/-- The name of the kind. -/
def text : NoteKind → String
  | none => "none"
  | assembly => "asm"
  | trace => "ptc"

/-- The kind with this name, in exactly this spelling. -/
def ofName? : String → Option NoteKind
  | "none" => some none
  | "asm" => some assembly
  | "ptc" | "trace" => some trace
  | _ => Option.none

/-- The kind with this name. -/
def parse (name : String) : Except LiftError NoteKind :=
  match ofName? name with
  | some kind => .ok kind
  | Option.none => .error (.unknownDebugMode name)

end NoteKind

/-- The flow graph of one function. -/
structure FlowGraph where
  /-- The address where the function is entered. -/
  entry : Address
  /-- The blocks, in the order of their entries. -/
  blocks : Array Block
  /-- The problems, in the order of their addresses. -/
  diagnostics : List Diagnostic
  /-- The kind of notes on the blocks. -/
  noteKind : NoteKind := .none
deriving DecidableEq

namespace FlowGraph

/-- The block with this number. -/
def block (g : FlowGraph) (id : BlockId) : Except Fault Block :=
  match g.blocks[id]? with
  | some b => .ok b
  | none => .error (.noSuchBlock id)

/-- Search by halves for the last block among `size` ones from `base` on whose entry is not above
`addr`, if those are in order. -/
def searchFrom (blocks : Array Block) (addr : Address) (base size : Nat) : Nat :=
  if 1 < size then
    let half := size / 2
    match blocks[base + half]? with
    | some b => searchFrom blocks addr (if b.entry ≤ addr then base + half else base) (size - half)
    | none => base
  else base
termination_by size
decreasing_by omega

/-- The number of the block whose entry is `addr`. -/
def blockAt? (g : FlowGraph) (addr : Address) : Option BlockId :=
  let id := searchFrom g.blocks addr 0 g.blocks.size
  match g.blocks[id]? with
  | some b => if b.entry == addr then some id else none
  | none => none

/-- The number of the block that is entered first. -/
def entryBlock? (g : FlowGraph) : Option BlockId := g.blockAt? g.entry

/-- The number of blocks. -/
def blockCount (g : FlowGraph) : Nat := g.blocks.size

/-- The number of operations of all blocks. -/
def opCount (g : FlowGraph) : Nat := (g.blocks.toList.flatMap (·.ops)).length

/-- The number of edges of all blocks. -/
def edgeCount (g : FlowGraph) : Nat := (g.blocks.toList.flatMap (·.edges)).length

/-- Whether some code could not be decoded. -/
def isPartial (g : FlowGraph) : Bool := g.diagnostics.any Diagnostic.isDecode

/-- The edges into a block, each as the block it comes from and its kind. -/
def predecessors (g : FlowGraph) (id : BlockId) : List (BlockId × EdgeKind) :=
  g.blocks.toList.zipIdx.flatMap fun (b, source) =>
    (b.edges.filter (·.target == some id)).map fun e => (source, e.kind)

end FlowGraph

end CodeLift
